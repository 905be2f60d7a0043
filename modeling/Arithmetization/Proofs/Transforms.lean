import Arithmetization.Domain
import Arithmetization.Proofs.Field
import Arithmetization.Transform
import Mathlib.LinearAlgebra.Lagrange
import Mathlib.RingTheory.RootsOfUnity.PrimitiveRoots

/-!
The transform is evaluation, and its inverse is interpolation.

Lists of coefficients are read as polynomials (`Transform.toPoly`). The recursion on even and odd
coefficients gives the values at all powers of a primitive root (`Transform.evaluate_eq`), since
the power at half the order is `-1`; the sums of powers of a primitive root turn this around
(`Transform.eval_inverse`). What the rest of the development uses is the last part: `extend`
tabulates a polynomial over a domain (`Transform.extend_eq`), and `interpolate` computes the one
polynomial of low enough degree that takes the values of a column (`Domain.toPoly_interpolate`).
-/

set_option autoImplicit false

namespace Arithmetization

/-- The test for powers of two accepts these and nothing else. -/
theorem isPowerOfTwo_iff {n : Nat} : isPowerOfTwo n = true ↔ ∃ k, n = 2 ^ k := by
  rw [isPowerOfTwo, beq_iff_eq, Nat.one_shiftLeft]
  constructor
  · exact fun h => ⟨n.log2, h.symm⟩
  · rintro ⟨k, rfl⟩
    rw [Nat.log2_two_pow]

/-! ## Roots of unity -/

namespace Element

theorem toZMod_ofNat {n : Nat} (h : n < Word.size) : (ofNat n).toZMod = n := by
  rw [toZMod, toNat_ofNat h, ZMod.natCast_mod]

theorem ofNat_eq_cast {n : Nat} (h : n < Word.size) : ofNat n = (n : Element) := by
  apply toZMod_injective
  rw [toZMod_ofNat h]
  exact (map_natCast zmodHom n).symm

theorem two_ne_zero : (2 : Element) ≠ 0 := by
  intro h
  have hcast : ((2 : ℕ) : ZMod Word.modulus) = 0 := by
    have hmap := congrArg zmodHom h
    rwa [map_zero, map_ofNat] at hmap
  have hdvd : Word.modulus ∣ 2 := (ZMod.natCast_eq_zero_iff _ _).1 hcast
  exact absurd (Nat.le_of_dvd (by decide) hdvd) (by decide)

theorem twoAdicRoot_pow_half : twoAdicRoot ^ 2 ^ 31 = -1 := by
  have hresidue : (16233777346252436484685755432349885146 :
      ZMod 340282366920938463463374607393113505793) ^ 2 ^ 31 = -1 := by
    reduce_mod_char
  apply toZMod_injective
  rw [toZMod_pow, twoAdicRoot, toZMod_ofNat (by decide), toZMod_neg, toZMod_one]
  rw [Nat.cast_ofNat]
  exact hresidue

theorem twoAdicRoot_isPrimitiveRoot : IsPrimitiveRoot twoAdicRoot (2 ^ twoAdicity) := by
  have hne : ¬ twoAdicRoot ^ 2 ^ 31 = 1 := by
    rw [twoAdicRoot_pow_half]
    intro h
    have htwo : (2 : Element) = 0 := by linear_combination -h
    exact two_ne_zero htwo
  have hone : twoAdicRoot ^ 2 ^ (31 + 1) = 1 := by
    rw [pow_succ, pow_mul, twoAdicRoot_pow_half, neg_one_sq]
  have horder := orderOf_eq_prime_pow hne hone
  exact (IsPrimitiveRoot.iff_orderOf.2 horder)

theorem rootOfUnity_eq (k : Nat) : rootOfUnity k = twoAdicRoot ^ 2 ^ (twoAdicity - k) := by
  rw [rootOfUnity, pow_eq, Nat.one_shiftLeft]

/-- The root of order `2^k` has that order. -/
theorem rootOfUnity_isPrimitiveRoot {k : Nat} (hk : k ≤ twoAdicity) :
    IsPrimitiveRoot (rootOfUnity k) (2 ^ k) := by
  rw [rootOfUnity_eq]
  refine twoAdicRoot_isPrimitiveRoot.pow (by decide) ?_
  rw [← pow_add, Nat.sub_add_cancel hk]

/-- Powers of the root of a larger order are the root of a smaller one. -/
theorem rootOfUnity_pow {k l : Nat} (h : k + l ≤ twoAdicity) :
    rootOfUnity (k + l) ^ 2 ^ l = rootOfUnity k := by
  have hexp : twoAdicity - (k + l) + l = twoAdicity - k := by omega
  rw [rootOfUnity_eq, rootOfUnity_eq, ← pow_mul, ← pow_add, hexp]

theorem powersFrom_eq_map (g : Element) (n : Nat) (w : Element) :
    powersFrom g n w = (List.range n).map fun i => w * g ^ i := by
  induction n generalizing w with
  | zero => rfl
  | succ n ih =>
    rw [powersFrom, ih, List.range_succ_eq_map, List.map_cons, List.map_map]
    refine congrArg₂ List.cons ?_ (List.map_congr_left fun i _ => ?_)
    · rw [pow_zero, mul_one]
    · simp only [Function.comp_apply, Nat.succ_eq_add_one]
      ring

theorem powers_eq_map (g : Element) (n : Nat) :
    g.powers n = (List.range n).map fun i => g ^ i := by
  rw [powers, powersFrom_eq_map]
  simp only [one_mul]

end Element

namespace Transform

open Polynomial

/-! ## Lists of coefficients as polynomials -/

/-- The polynomial of a list of coefficients. -/
noncomputable def toPoly : List Element → Element[X]
  | [] => 0
  | c :: p => C c + X * toPoly p

@[simp] theorem eval_nil (x : Element) : eval [] x = 0 := rfl

@[simp] theorem eval_cons (c : Element) (p : List Element) (x : Element) :
    eval (c :: p) x = c + x * eval p x := rfl

theorem eval_toPoly (p : List Element) (x : Element) : (toPoly p).eval x = eval p x := by
  induction p with
  | nil => simp [toPoly]
  | cons c p ih => simp [toPoly, ih]

theorem degree_toPoly_lt (p : List Element) : (toPoly p).degree < p.length := by
  induction p with
  | nil => simp [toPoly]
  | cons c p ih =>
    have hshift : (X * toPoly p).degree < ((p.length + 1 : ℕ) : WithBot ℕ) := by
      rw [mul_comm, degree_mul, degree_X, Nat.cast_add, Nat.cast_one]
      exact WithBot.add_lt_add_right (by decide) ih
    have hconst : (C c : Element[X]).degree < ((p.length + 1 : ℕ) : WithBot ℕ) :=
      degree_C_le.trans_lt (by exact_mod_cast Nat.succ_pos _)
    exact (degree_add_le _ _).trans_lt (max_lt hconst hshift)

theorem natDegree_toPoly_le (p : List Element) : (toPoly p).natDegree ≤ p.length - 1 := by
  by_cases hzero : toPoly p = 0
  · rw [hzero, natDegree_zero]
    exact Nat.zero_le _
  · have hlt := (natDegree_lt_iff_degree_lt hzero).2 (degree_toPoly_lt p)
    omega

theorem eval_eq_sum (p : List Element) (x : Element) :
    eval p x = ∑ i ∈ Finset.range p.length, p.getD i 0 * x ^ i := by
  induction p with
  | nil => simp
  | cons c p ih =>
    rw [eval_cons, ih, List.length_cons, Finset.sum_range_succ', Finset.mul_sum, add_comm]
    refine congrArg₂ (· + ·) (Finset.sum_congr rfl fun i _ => ?_) ?_
    · rw [List.getD_cons_succ]
      ring
    · rw [List.getD_cons_zero, pow_zero, mul_one]

theorem eval_append_zeros (p : List Element) (n : Nat) (x : Element) :
    eval (p ++ List.replicate n 0) x = eval p x := by
  induction p with
  | nil =>
    induction n with
    | zero => rfl
    | succ n ih =>
      rw [List.nil_append] at ih ⊢
      rw [List.replicate_succ, eval_cons, ih]
      simp
  | cons c p ih => rw [List.cons_append, eval_cons, ih, eval_cons]

/-! ## The recursion on halves -/

/-- The even coefficients and the odd ones, at the square. -/
theorem eval_halves (p : List Element) (x : Element) :
    eval p x = eval (halves p).1 (x * x) + x * eval (halves p).2 (x * x) := by
  fun_induction halves p with
  | case1 => simp
  | case2 a => simp
  | case3 a b rest evens odds hrest ih =>
    rw [hrest] at ih
    rw [eval_cons, eval_cons, ih, eval_cons, eval_cons]
    ring

theorem length_halves {n : Nat} (p : List Element) (h : p.length = 2 * n) :
    (halves p).1.length = n ∧ (halves p).2.length = n := by
  fun_induction halves p generalizing n with
  | case1 => simp at h; simp [h]
  | case2 a => simp at h; omega
  | case3 a b rest evens odds hrest ih =>
    have hlen : rest.length = 2 * (n - 1) := by simp at h; omega
    have hrec := ih hlen
    rw [hrest] at hrec
    dsimp only at hrec
    simp only [List.length_cons] at h ⊢
    omega

/-- Every second power is a power of the square. -/
theorem halves_powersFrom (g : Element) (n : Nat) (w : Element) :
    (halves (g.powersFrom (2 * n) w)).1 = (g * g).powersFrom n w := by
  induction n generalizing w with
  | zero => rfl
  | succ n ih =>
    have hih := ih (w * g * g)
    rw [mul_assoc w g g] at hih
    rw [Nat.mul_succ]
    simp only [Element.powersFrom, halves, mul_assoc]
    rw [hih]

theorem evaluate_succ (k : Nat) (roots p : List Element) :
    evaluate (k + 1) roots p =
      List.zipWith (· + ·) (evaluate k (halves roots).1 (halves p).1)
          (List.zipWith (· * ·) roots (evaluate k (halves roots).1 (halves p).2)) ++
        List.zipWith (· - ·) (evaluate k (halves roots).1 (halves p).1)
          (List.zipWith (· * ·) roots (evaluate k (halves roots).1 (halves p).2)) := rfl

/-- The recursion gives the values at all powers of a primitive root. -/
theorem evaluate_eq {k : Nat} {g : Element} (hg : IsPrimitiveRoot g (2 ^ k)) {p : List Element}
    (hp : p.length = 2 ^ k) :
    evaluate k (g.powers (2 ^ (k - 1))) p = (List.range (2 ^ k)).map fun i => eval p (g ^ i) := by
  induction k generalizing g p with
  | zero =>
    obtain ⟨a, rfl⟩ := List.length_eq_one_iff.1 hp
    simp [evaluate]
  | succ k ih =>
    have hsquare : IsPrimitiveRoot (g * g) (2 ^ k) := by
      rw [← pow_two]
      exact hg.pow (by positivity) (by ring)
    have hminus : g ^ 2 ^ k = -1 :=
      (hg.pow (by positivity) (by ring)).eq_neg_one_of_two_right
    obtain ⟨heven, hodd⟩ := length_halves p (n := 2 ^ k) (by rw [hp]; ring)
    -- One level down the points are the powers of the square; at the last level none are looked at.
    have hinner (q : List Element) : evaluate k (halves (g.powers (2 ^ k))).1 q =
        evaluate k ((g * g).powers (2 ^ (k - 1))) q := by
      cases k with
      | zero => rfl
      | succ k =>
        rw [Element.powers, pow_succ, mul_comm (2 ^ k) 2, halves_powersFrom]
        rfl
    rw [evaluate_succ, Nat.add_sub_cancel, hinner, hinner, ih hsquare heven, ih hsquare hodd,
      Element.powers_eq_map, List.zipWith_map, List.zipWith_self, List.zipWith_map,
      List.zipWith_self, List.zipWith_map, List.zipWith_self, pow_succ, mul_two, List.range_add,
      List.map_append, List.map_map]
    refine congrArg₂ (· ++ ·) (List.map_congr_left fun i _ => ?_)
      (List.map_congr_left fun i _ => ?_)
    · rw [eval_halves p, mul_pow]
    · rw [Function.comp_apply, eval_halves p, pow_add, hminus, mul_pow]
      ring_nf

theorem forward_eq {k : Nat} {g : Element} (hg : IsPrimitiveRoot g (2 ^ k)) {p : List Element}
    (hp : p.length = 2 ^ k) :
    forward k g p = (List.range (2 ^ k)).map fun i => eval p (g ^ i) := by
  rw [forward, Nat.one_shiftLeft, evaluate_eq hg hp]

/-! ## The inverse -/

theorem sum_pow_eq {k : Nat} {g : Element} (hg : IsPrimitiveRoot g (2 ^ k)) {i m : Nat}
    (hi : i < 2 ^ k) (hm : m < 2 ^ k) :
    ∑ j ∈ Finset.range (2 ^ k), (g⁻¹ ^ j) ^ i * (g ^ m) ^ j =
      if i = m then ((2 ^ k : ℕ) : Element) else 0 := by
  have hg0 : g ≠ 0 := hg.ne_zero (by positivity)
  have hterm (j : ℕ) : (g⁻¹ ^ j) ^ i * (g ^ m) ^ j = (g⁻¹ ^ i * g ^ m) ^ j := by ring
  simp only [hterm]
  split
  case isTrue h =>
    have hone : g⁻¹ ^ i * g ^ m = 1 := by
      rw [h, ← mul_pow, inv_mul_cancel₀ hg0, one_pow]
    simp only [hone, one_pow, Finset.sum_const, Finset.card_range, nsmul_eq_mul, mul_one]
  case isFalse h =>
    have hne : g⁻¹ ^ i * g ^ m ≠ 1 := by
      intro hone
      rw [inv_pow, inv_mul_eq_one₀ (pow_ne_zero i hg0)] at hone
      exact h (hg.pow_inj hi hm hone)
    have hpow : (g⁻¹ ^ i * g ^ m) ^ 2 ^ k = 1 := by
      rw [mul_pow, ← pow_mul, ← pow_mul, mul_comm i, mul_comm m, pow_mul, pow_mul, inv_pow,
        hg.pow_eq_one]
      simp
    have hgeom := geom_sum_mul (g⁻¹ ^ i * g ^ m) (2 ^ k)
    rw [hpow, sub_self] at hgeom
    exact (mul_eq_zero.1 hgeom).resolve_right (sub_ne_zero.2 hne)

theorem length_inverse {k : Nat} {g : Element} (hg : IsPrimitiveRoot g (2 ^ k))
    {values : List Element} (hv : values.length = 2 ^ k) :
    (inverse k g values).length = 2 ^ k := by
  rw [inverse, List.length_map, ← Element.inv_def, forward_eq hg.inv hv]
  simp

/-- The inverse transform has the given values at the powers of the root. -/
theorem eval_inverse {k : Nat} (hk : k ≤ Element.twoAdicity) {g : Element}
    (hg : IsPrimitiveRoot g (2 ^ k)) {values : List Element} (hv : values.length = 2 ^ k) {m : Nat}
    (hm : m < 2 ^ k) : eval (inverse k g values) (g ^ m) = values.getD m 0 := by
  have hcount : Element.ofNat (1 <<< k) = ((2 ^ k : ℕ) : Element) := by
    rw [Nat.one_shiftLeft]
    refine Element.ofNat_eq_cast (lt_of_le_of_lt (Nat.pow_le_pow_right (by decide) hk) ?_)
    decide
  have hcount0 : ((2 ^ k : ℕ) : Element) ≠ 0 := by
    push_cast
    exact pow_ne_zero k Element.two_ne_zero
  have hcoeff : ∀ j ∈ Finset.range (2 ^ k), (inverse k g values).getD j 0 =
      (∑ i ∈ Finset.range (2 ^ k), values.getD i 0 * (g⁻¹ ^ j) ^ i) *
        ((2 ^ k : ℕ) : Element)⁻¹ := by
    intro j hj
    rw [Finset.mem_range] at hj
    rw [inverse, ← Element.inv_def, ← Element.inv_def, forward_eq hg.inv hv, hcount, List.map_map,
      List.getD_eq_getElem?_getD, List.getElem?_map, List.getElem?_range hj]
    simp only [Option.map_some, Option.getD_some, Function.comp_apply, eval_eq_sum, hv]
  rw [eval_eq_sum, length_inverse hg hv, Finset.sum_congr rfl fun j hj => by rw [hcoeff j hj]]
  -- Exchange the two sums: the inner one is then the sum of the powers of a root of unity.
  calc ∑ j ∈ Finset.range (2 ^ k), (∑ i ∈ Finset.range (2 ^ k),
          values.getD i 0 * (g⁻¹ ^ j) ^ i) * ((2 ^ k : ℕ) : Element)⁻¹ * (g ^ m) ^ j
      = ∑ i ∈ Finset.range (2 ^ k), values.getD i 0 * ((2 ^ k : ℕ) : Element)⁻¹ *
          ∑ j ∈ Finset.range (2 ^ k), (g⁻¹ ^ j) ^ i * (g ^ m) ^ j := by
        simp only [Finset.sum_mul, Finset.mul_sum]
        rw [Finset.sum_comm]
        refine Finset.sum_congr rfl fun i _ => Finset.sum_congr rfl fun j _ => ?_
        ring
    _ = ∑ i ∈ Finset.range (2 ^ k), if i = m then values.getD m 0 else 0 := by
        refine Finset.sum_congr rfl fun i hi => ?_
        rw [sum_pow_eq hg (Finset.mem_range.1 hi) hm]
        split
        case isTrue h => rw [h, mul_assoc, inv_mul_cancel₀ hcount0, mul_one]
        case isFalse h => rw [mul_zero]
    _ = values.getD m 0 := by
        rw [Finset.sum_ite_eq' (Finset.range (2 ^ k)) m, if_pos (Finset.mem_range.2 hm)]

/-! ## Interpolation and extension -/

section Subgroup

variable {k : Nat} (hk : k ≤ Element.twoAdicity)

include hk

theorem length_interpolate {column : List Element} (hc : column.length = 2 ^ k) :
    (interpolate column).length = 2 ^ k := by
  rw [interpolate]
  split
  case isTrue => exact hc
  case isFalse =>
    rw [hc, Nat.log2_two_pow]
    exact length_inverse (Element.rootOfUnity_isPrimitiveRoot hk) hc

/-- The computed interpolant takes the values of the column over the domain of its length. -/
theorem eval_interpolate {column : List Element} (hc : column.length = 2 ^ k) {m : Nat}
    (hm : m < 2 ^ k) :
    eval (interpolate column) (Element.rootOfUnity k ^ m) = column.getD m 0 := by
  rw [interpolate]
  split
  case isTrue h =>
    -- A column of one entry is its own interpolant, a constant.
    have hone : column.length = 1 := by
      have := Nat.one_le_two_pow (n := k)
      omega
    obtain rfl : m = 0 := by omega
    obtain ⟨a, rfl⟩ := List.length_eq_one_iff.1 hone
    simp
  case isFalse =>
    rw [hc, Nat.log2_two_pow]
    exact eval_inverse hk (Element.rootOfUnity_isPrimitiveRoot hk) hc hm

/-- An extension lists the values over the domain. -/
theorem extend_eq {p : List Element} (hp : p.length ≤ 2 ^ k) :
    extend (2 ^ k) p = (List.range (2 ^ k)).map fun i => eval p (Element.rootOfUnity k ^ i) := by
  rw [extend]
  split
  case isTrue h =>
    have hone : 2 ^ k = 1 := by
      have := Nat.one_le_two_pow (n := k)
      omega
    rw [hone] at hp ⊢
    match p, hp with
    | [], _ => simp
    | [a], _ => simp
  case isFalse =>
    have hlen : (resize (2 ^ k) p).length = 2 ^ k := by
      rw [resize, List.length_append, List.length_take, List.length_replicate]
      omega
    rw [Nat.log2_two_pow]
    refine (forward_eq (Element.rootOfUnity_isPrimitiveRoot hk) hlen).trans ?_
    simp only [resize, List.take_of_length_le hp, eval_append_zeros]

end Subgroup

end Transform

/-! ## Domains -/

namespace Domain

open Polynomial

/-- The domain with `2^k` points. -/
def ofOrder (k : Nat) : Domain :=
  ⟨2 ^ k, Element.rootOfUnity k⟩

theorem ofSize_eq_ok {n : Nat} {d : Domain} (h : ofSize n = .ok d) :
    ∃ k ≤ Element.twoAdicity, n = 2 ^ k ∧ d = ofOrder k := by
  unfold ofSize at h
  split at h
  case isFalse => cases h
  case isTrue hsize =>
    rw [Bool.and_eq_true, decide_eq_true_eq] at hsize
    obtain ⟨hpow, hk⟩ := hsize
    obtain ⟨k, rfl⟩ := isPowerOfTwo_iff.1 hpow
    rw [Nat.log2_two_pow] at hk h
    refine ⟨k, hk, rfl, ?_⟩
    rw [← Except.ok.inj h, ofOrder]
    split
    case isFalse => rfl
    case isTrue hone =>
      -- The domain of one point has the generator one, which is the root of order one.
      obtain rfl : k = 0 := by simpa using hone
      have hroot := (Element.rootOfUnity_isPrimitiveRoot hk).pow_eq_one
      rw [pow_zero, pow_one] at hroot
      rw [hroot]

/-- The polynomial that takes the values of a column over a domain. -/
noncomputable def interpolant (d : Domain) (column : List Element) : Element[X] :=
  Lagrange.interpolate (Finset.range d.size) d.point fun i => column.getD i 0

section Subgroup

variable {k : Nat} (hk : k ≤ Element.twoAdicity)

include hk

theorem point_ofOrder (i : Nat) : (ofOrder k).point i = Element.rootOfUnity k ^ i := by
  have horder := (Element.rootOfUnity_isPrimitiveRoot hk).eq_orderOf
  rw [point, Element.pow_eq]
  change Element.rootOfUnity k ^ (i % 2 ^ k) = _
  rw [horder, pow_mod_orderOf]

theorem injOn_point : Set.InjOn (ofOrder k).point (Finset.range (ofOrder k).size) := by
  intro i hi j hj hij
  rw [point_ofOrder hk, point_ofOrder hk] at hij
  exact (Element.rootOfUnity_isPrimitiveRoot hk).pow_inj (Finset.mem_range.1 hi)
    (Finset.mem_range.1 hj) hij

/-- A polynomial of low enough degree that takes the values of a column is its interpolant. -/
theorem eq_interpolant {column : List Element} {P : Element[X]}
    (hdegree : P.degree < ((2 ^ k : ℕ) : WithBot ℕ))
    (hvalues : ∀ m < 2 ^ k, P.eval (Element.rootOfUnity k ^ m) = column.getD m 0) :
    P = (ofOrder k).interpolant column := by
  refine Lagrange.eq_interpolate_of_eval_eq _ (injOn_point hk) ?_ fun m hm => ?_
  · rw [Finset.card_range]
    exact hdegree
  · rw [point_ofOrder hk]
    exact hvalues m (Finset.mem_range.1 hm)

/-- The transform computes the interpolant. -/
theorem toPoly_interpolate {column : List Element} (hc : column.length = 2 ^ k) :
    Transform.toPoly (Transform.interpolate column) = (ofOrder k).interpolant column := by
  refine eq_interpolant hk ?_ fun m hm => ?_
  · rw [← Transform.length_interpolate hk hc]
    exact Transform.degree_toPoly_lt _
  · rw [Transform.eval_toPoly, Transform.eval_interpolate hk hc hm]

theorem eval_interpolant {column : List Element} (hc : column.length = 2 ^ k) (x : Element) :
    ((ofOrder k).interpolant column).eval x = Transform.eval (Transform.interpolate column) x := by
  rw [← toPoly_interpolate hk hc, Transform.eval_toPoly]

end Subgroup

end Domain

end Arithmetization
