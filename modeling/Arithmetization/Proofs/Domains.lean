import Arithmetization.Machine.Prover
import Arithmetization.Proofs.Transforms
import Mathlib.Data.List.GetD

/-!
Domains are the subgroups of roots of unity, and transforms are exact over them.

A domain of `2^k` points is the cyclic group that a root of order `2^k` generates: its points are
all the roots of unity of that order, each of them once (`Domain.mem_points`,
`Domain.nodup_points`). The roots of different orders are powers of one root, so a domain lies in
every larger one with an even stride (`Domain.ofSize_subgroup`). Over a domain a list of as many
coefficients is determined by its values (`Transform.eq_of_eval_eq`). With the two evaluation lemmas
of the transform this makes interpolation and extension inverse to each other
(`Transform.interpolation_exact`).
-/

set_option autoImplicit false

namespace Arithmetization

/-! ## Subgroups -/

namespace Domain

/-- A power of two divides the order of the multiplicative group if it is no larger than the one
that is known to. -/
theorem two_pow_le {k : Nat} : 2 ^ k ≤ 2 ^ 32 ↔ k ≤ Element.twoAdicity :=
  Nat.pow_le_pow_iff_right (by decide)

theorem ofSize_two_pow {k : Nat} (hk : k ≤ Element.twoAdicity) :
    ofSize (2 ^ k) = .ok (ofOrder k) := by
  have hsize : (isPowerOfTwo (2 ^ k) && Nat.log2 (2 ^ k) ≤ Element.twoAdicity) = true := by
    rw [Bool.and_eq_true, decide_eq_true_eq, Nat.log2_two_pow]
    exact ⟨isPowerOfTwo_iff.2 ⟨k, rfl⟩, hk⟩
  have hok : ∃ d, ofSize (2 ^ k) = .ok d := ⟨_, if_pos hsize⟩
  obtain ⟨d, hd⟩ := hok
  obtain ⟨l, -, hpow, rfl⟩ := ofSize_eq_ok hd
  rw [hd, Nat.pow_right_injective (le_refl 2) hpow]

/-- There is a domain for every power of two that is small enough, and for no other size. -/
theorem exists_ofSize_iff {n : Nat} :
    (∃ d, ofSize n = .ok d) ↔ (∃ k, n = 2 ^ k) ∧ n ≤ 2 ^ 32 := by
  constructor
  · rintro ⟨d, hd⟩
    obtain ⟨k, hk, rfl, -⟩ := ofSize_eq_ok hd
    exact ⟨⟨k, rfl⟩, two_pow_le.2 hk⟩
  · rintro ⟨⟨k, rfl⟩, hle⟩
    exact ⟨ofOrder k, ofSize_two_pow (two_pow_le.1 hle)⟩

section Subgroup

variable {k : Nat} (hk : k ≤ Element.twoAdicity)

include hk

theorem orderOf_generator : orderOf (ofOrder k).generator = 2 ^ k :=
  (Element.rootOfUnity_isPrimitiveRoot hk).eq_orderOf.symm

theorem points_eq : (ofOrder k).points = (List.range (2 ^ k)).map (ofOrder k).point := by
  rw [points, Element.powers_eq_map]
  exact List.map_congr_left fun i _ => (point_ofOrder hk i).symm

theorem nodup_points : (ofOrder k).points.Nodup := by
  rw [points_eq hk]
  refine List.Nodup.map_on (fun i hi j hj hij => ?_) List.nodup_range
  exact injOn_point hk (Finset.mem_range.2 (List.mem_range.1 hi))
    (Finset.mem_range.2 (List.mem_range.1 hj)) hij

/-- The points are the roots of unity of the order of the domain. -/
theorem mem_points {x : Element} : x ∈ (ofOrder k).points ↔ x ^ 2 ^ k = 1 := by
  have hroot := Element.rootOfUnity_isPrimitiveRoot hk
  rw [points_eq hk, List.mem_map]
  constructor
  · rintro ⟨i, -, rfl⟩
    rw [point_ofOrder hk, ← pow_mul, mul_comm, pow_mul, hroot.pow_eq_one, one_pow]
  · intro hx
    have : NeZero (2 ^ k) := ⟨by positivity⟩
    obtain ⟨i, hi, rfl⟩ := hroot.eq_pow_of_pow_eq_one hx
    exact ⟨i, List.mem_range.2 hi, point_ofOrder hk i⟩

end Subgroup

/-- A domain lies in a larger one with an even stride. -/
theorem point_stride {a b : Nat} (h : a + b ≤ Element.twoAdicity) (i : Nat) :
    (ofOrder (a + b)).point (i * 2 ^ b) = (ofOrder a).point i := by
  rw [point_ofOrder h, point_ofOrder (by omega), mul_comm, pow_mul, Element.rootOfUnity_pow h]

/-- **Domains are subgroups of exact order and nest.** There is a domain for every power of two up
to `2^32` and for no other size. Its generator has the size as its order, and its points are the
roots of unity of that order: each occurs once, they are listed by their indexes, indexes go around,
and points are multiplied by adding indexes. In a domain with `k` times as many points they are
every `k`-th point. -/
theorem ofSize_subgroup (n : Nat) :
    ((∃ d, ofSize n = .ok d) ↔ (∃ k, n = 2 ^ k) ∧ n ≤ 2 ^ 32)
      ∧ ∀ d, ofSize n = .ok d →
        d.size = n ∧ orderOf d.generator = n
          ∧ d.points.length = n ∧ d.points.Nodup
          ∧ (∀ i < n, d.points[i]? = some (d.point i))
          ∧ (∀ x, x ∈ d.points ↔ x ^ n = 1)
          ∧ (∀ i, d.point i = d.point (i % n))
          ∧ (∀ i j, d.point i * d.point j = d.point (i + j))
          ∧ ∀ k e, ofSize (n * k) = .ok e → ∀ i, e.point (i * k) = d.point i := by
  refine ⟨exists_ofSize_iff, fun d hd => ?_⟩
  obtain ⟨a, ha, rfl, rfl⟩ := ofSize_eq_ok hd
  refine ⟨rfl, orderOf_generator ha, ?_, nodup_points ha, fun i hi => ?_, fun x => mem_points ha,
    fun i => ?_, fun i j => ?_, fun k e he i => ?_⟩
  · rw [points_eq ha, List.length_map, List.length_range]
  · rw [points_eq ha, List.getElem?_map, List.getElem?_range hi, Option.map_some]
  · exact congrArg (ofOrder a).generator.pow (Nat.mod_mod i (2 ^ a)).symm
  · rw [point_ofOrder ha, point_ofOrder ha, point_ofOrder ha, pow_add]
  · -- the quotient of two powers of two is one too
    obtain ⟨c, hc, hpow, rfl⟩ := ofSize_eq_ok he
    have hac : a ≤ c := (Nat.pow_dvd_pow_iff_le_right (by decide)).1 ⟨k, hpow.symm⟩
    obtain ⟨b, rfl⟩ := Nat.exists_eq_add_of_le hac
    obtain rfl : k = 2 ^ b := by
      rw [pow_add] at hpow
      exact Nat.eq_of_mul_eq_mul_left (by positivity) hpow
    exact point_stride hc i

end Domain

/-! ## Transforms -/

namespace Transform

open Polynomial

theorem coeff_toPoly (p : List Element) (i : Nat) : (toPoly p).coeff i = p.getD i 0 := by
  induction p generalizing i with
  | nil => simp [toPoly]
  | cons c p ih =>
    cases i with
    | zero => simp [toPoly]
    | succ i => simp [toPoly, ih]

theorem toPoly_injective {p q : List Element} (hlen : p.length = q.length)
    (h : toPoly p = toPoly q) : p = q := by
  refine List.ext_getElem hlen fun i hp hq => ?_
  have hcoeff := congrArg (coeff · i) h
  simp only [coeff_toPoly, List.getD_eq_getElem _ _ hp, List.getD_eq_getElem _ _ hq] at hcoeff
  exact hcoeff

section Subgroup

variable {k : Nat} (hk : k ≤ Element.twoAdicity)

include hk

/-- As many coefficients as a domain has points are determined by the values there. -/
theorem eq_of_eval_eq {p q : List Element} (hp : p.length = 2 ^ k) (hq : q.length = 2 ^ k)
    (h : ∀ i < 2 ^ k, eval p (Element.rootOfUnity k ^ i) = eval q (Element.rootOfUnity k ^ i)) :
    p = q := by
  refine toPoly_injective (hp.trans hq.symm) ?_
  have hinterpolant {r : List Element} (hr : r.length = 2 ^ k)
      (hvalues : ∀ i < 2 ^ k, eval r (Element.rootOfUnity k ^ i) =
        eval q (Element.rootOfUnity k ^ i)) :
      toPoly r = (Domain.ofOrder k).interpolant (extend (2 ^ k) q) := by
    refine Domain.eq_interpolant hk (hr ▸ degree_toPoly_lt r) fun i hi => ?_
    rw [eval_toPoly, hvalues i hi, extend_eq hk hq.le, List.getD_eq_getElem?_getD,
      List.getElem?_map, List.getElem?_range hi, Option.map_some, Option.getD_some]
  rw [hinterpolant hp h, hinterpolant hq fun _ _ => rfl]

theorem getElem?_extend {p : List Element} (hp : p.length ≤ 2 ^ k) {j : Nat} (hj : j < 2 ^ k) :
    (extend (2 ^ k) p)[j]? = some (eval p (Element.rootOfUnity k ^ j)) := by
  rw [extend_eq hk hp, List.getElem?_map, List.getElem?_range hj, Option.map_some]

theorem length_extend {p : List Element} (hp : p.length ≤ 2 ^ k) :
    (extend (2 ^ k) p).length = 2 ^ k := by
  rw [extend_eq hk hp, List.length_map, List.length_range]

theorem getElem?_of_interpolate {column : List Element} (hc : column.length = 2 ^ k) {i : Nat}
    (hi : i < 2 ^ k) :
    column[i]? = some (eval (interpolate column) (Element.rootOfUnity k ^ i)) := by
  have hlt : i < column.length := hc ▸ hi
  rw [eval_interpolate hk hc hi, List.getD_eq_getElem _ _ hlt, List.getElem?_eq_getElem hlt]

/-- Interpolation gives back the coefficients whose values were taken. -/
theorem interpolate_extend {p : List Element} (hp : p.length = 2 ^ k) :
    interpolate (extend (2 ^ k) p) = p := by
  have hlen := length_extend hk hp.le
  refine eq_of_eval_eq hk (length_interpolate hk hlen) hp fun i hi => Option.some.inj ?_
  rw [← getElem?_of_interpolate hk hlen hi, getElem?_extend hk hp.le hi]

end Subgroup

/-- **Interpolation and extension are exact.** For columns as long as a domain has points,
interpolation gives the only lists of as many coefficients that have the values of the columns at
the powers of its generator. Extension to a domain with `k` times as many points gives the values of
the polynomials at the powers of the larger generator, so every `k`-th entry is one of the column.
Polynomials with as many coefficients as the domain has points come back from their values. -/
theorem interpolation_exact {n k : Nat} (hn : ∃ a, n = 2 ^ a) (hk : ∃ b, k = 2 ^ b)
    (hsize : n * k ≤ 2 ^ 32) :
    ∃ d e, Domain.ofSize n = .ok d ∧ Domain.ofSize (n * k) = .ok e
      ∧ (∀ columns : Columns, (∀ c ∈ columns, c.length = n) →
          ∀ (c : Nat) (column : List Element), columns[c]? = some column →
            ∃ p extended, (columns.map interpolate)[c]? = some p ∧ p.length = n
              ∧ (∀ i < n, column[i]? = some (eval p (d.generator ^ i)))
              ∧ (∀ q : List Element, q.length = n →
                  (∀ i < n, column[i]? = some (eval q (d.generator ^ i))) → q = p)
              ∧ ((columns.map interpolate).map (extend (n * k)))[c]? = some extended
              ∧ ∀ i < n, extended[i * k]? = column[i]?)
      ∧ ∀ polys : Columns, (∀ p ∈ polys, p.length = n) →
          (∀ (c : Nat) (p : List Element), polys[c]? = some p →
            ∃ extended, (polys.map (extend (n * k)))[c]? = some extended
              ∧ extended.length = n * k
              ∧ ∀ j < n * k, extended[j]? = some (eval p (e.generator ^ j)))
          ∧ (polys.map (extend n)).map interpolate = polys := by
  obtain ⟨a, rfl⟩ := hn
  obtain ⟨b, rfl⟩ := hk
  rw [← pow_add] at hsize ⊢
  have hab : a + b ≤ Element.twoAdicity := Domain.two_pow_le.1 hsize
  have ha : a ≤ Element.twoAdicity := by omega
  have hle : 2 ^ a ≤ 2 ^ (a + b) := Nat.pow_le_pow_right (by decide) (by omega)
  refine ⟨_, _, Domain.ofSize_two_pow ha, Domain.ofSize_two_pow hab,
    fun columns hcolumns c column hc => ?_, fun polys hpolys => ⟨fun c p hp => ?_, ?_⟩⟩
  · have hlen : column.length = 2 ^ a := hcolumns column (List.mem_of_getElem? hc)
    have hlen' := length_interpolate ha hlen
    have hp : (columns.map interpolate)[c]? = some (interpolate column) := by
      rw [List.getElem?_map, hc, Option.map_some]
    refine ⟨interpolate column, extend (2 ^ (a + b)) (interpolate column), hp, hlen',
      fun i hi => getElem?_of_interpolate ha hlen hi, fun q hq hvalues => ?_, ?_, fun i hi => ?_⟩
    · refine eq_of_eval_eq ha hq hlen' fun i hi => Option.some.inj ?_
      exact (hvalues i hi).symm.trans (getElem?_of_interpolate ha hlen hi)
    · rw [List.getElem?_map, hp, Option.map_some]
    · -- the point of the larger domain is the one of the smaller
      have hj : i * 2 ^ b < 2 ^ (a + b) := by
        rw [pow_add]
        exact Nat.mul_lt_mul_of_pos_right hi (by positivity)
      rw [getElem?_extend hab (hlen'.trans_le hle) hj, mul_comm, pow_mul,
        Element.rootOfUnity_pow hab, ← getElem?_of_interpolate ha hlen hi]
  · have hlen : p.length ≤ 2 ^ (a + b) := (hpolys p (List.mem_of_getElem? hp)).trans_le hle
    refine ⟨extend (2 ^ (a + b)) p, ?_, length_extend hab hlen, fun j => getElem?_extend hab hlen⟩
    rw [List.getElem?_map, hp, Option.map_some]
  · rw [List.map_map]
    exact List.map_congr_left (fun p hp => interpolate_extend ha (hpolys p hp)) |>.trans
      (List.map_id polys)

/-- Two columns of eight entries. -/
def squareColumns : Columns :=
  [List.replicate 8 1, (List.range 8).map fun i => Element.ofNat (i * i)]

/-- The squares, extended to four times as many points, stand in every fourth place. -/
theorem interpolation_exact_squares :
    (∃ a, 8 = 2 ^ a) ∧ (∃ b, 4 = 2 ^ b) ∧ 8 * 4 ≤ 2 ^ 32 ∧ (∀ c ∈ squareColumns, c.length = 8)
      ∧ ∃ p extended, (squareColumns.map interpolate)[1]? = some p ∧ p.length = 8
        ∧ ((squareColumns.map interpolate).map (extend (8 * 4)))[1]? = some extended
        ∧ ∀ i < 8, extended[i * 4]? = ((List.range 8).map fun i => Element.ofNat (i * i))[i]? := by
  have hn : ∃ a, 8 = 2 ^ a := ⟨3, rfl⟩
  have hk : ∃ b, 4 = 2 ^ b := ⟨2, rfl⟩
  have hsize : 8 * 4 ≤ 2 ^ 32 := by decide
  have hlen : ∀ c ∈ squareColumns, c.length = 8 := by simp [squareColumns]
  obtain ⟨d, e, -, -, hcolumns, -⟩ := interpolation_exact hn hk hsize
  obtain ⟨p, extended, hp, hcount, -, -, hextended, hvalues⟩ :=
    hcolumns squareColumns hlen 1 _ rfl
  exact ⟨hn, hk, hsize, hlen, p, extended, hp, hcount, hextended, hvalues⟩

end Transform

end Arithmetization
