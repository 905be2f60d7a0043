import Arithmetization.Proofs.Domains
import Arithmetization.Proofs.StaticColumns

/-!
Cyclic registers at any point of the field.

The column of a cyclic register over a trace repeats its period, and what a verifier needs of it is
the value of its interpolant at a point of its choice. The register keeps the polynomial of one
period only, over the small domain, and evaluates it at a power of the point
(`CyclicColumn.evaluateAt_eq`). The polynomial of the whole column is characterised here by its
degree and its values alone, without the transform, so that the main result
(`CyclicColumn.evaluateAt_interpolates`) says what is computed and not how. On the domain itself,
the value is the entry of the column, however far the index goes around.
-/

set_option autoImplicit false

namespace Arithmetization

namespace Domain

open Polynomial

variable {k : Nat} (hk : k ≤ Element.twoAdicity)

include hk

/-- The interpolant of a column is below the number of points in degree. -/
theorem degree_interpolant_lt (column : List Element) :
    ((ofOrder k).interpolant column).degree < ((2 ^ k : ℕ) : WithBot ℕ) := by
  have hlt := Lagrange.degree_interpolate_lt (fun i => column.getD i 0) (injOn_point hk)
  rwa [Finset.card_range] at hlt

theorem eval_interpolant_root (column : List Element) {i : Nat} (hi : i < 2 ^ k) :
    ((ofOrder k).interpolant column).eval (Element.rootOfUnity k ^ i) = column.getD i 0 := by
  rw [← point_ofOrder hk]
  exact Lagrange.eval_interpolate_at_node _ (injOn_point hk) (Finset.mem_range.2 hi)

end Domain

namespace CyclicColumn

open Polynomial

/-- A written number is an element exactly if it is below the modulus. -/
theorem exists_fieldElement_iff {n : Nat} :
    (∃ a, fieldElement n = .ok a) ↔ n < Word.modulus := by
  unfold fieldElement
  by_cases hn : n < Word.modulus
  · rw [if_pos hn]
    exact iff_of_true ⟨_, rfl⟩ hn
  · rw [if_neg hn]
    refine iff_of_false ?_ hn
    rintro ⟨a, ha⟩
    cases ha

/-- A source gives a column exactly if every number that is written in it is below the modulus. -/
theorem exists_ofSource_iff {source : CycleSource} :
    (∃ c, ofSource source = .ok c) ↔ source.Below Word.modulus := by
  constructor
  · rintro ⟨c, hc⟩
    obtain ⟨values, hvalues, -⟩ := bind_eq_ok.1 hc
    cases source with
    | values vs =>
      intro v hv
      obtain ⟨a, -, ha⟩ := ok_of_mem_of_mapM hvalues hv
      exact exists_fieldElement_iff.1 ⟨a, ha⟩
    | prng seed count => trivial
    | power base count =>
      obtain ⟨a, ha, -⟩ := bind_eq_ok.1 hvalues
      exact exists_fieldElement_iff.1 ⟨a, ha⟩
  · exact StaticRule.ofSource_eq_ok

/-- Going around a multiple of the period changes nothing. -/
theorem valueAt_mod {c : CyclicColumn} {n : Nat} (h : c.period ∣ n) (i : Nat) :
    c.valueAt (i % n) = c.valueAt i := by
  rw [valueAt, valueAt, Nat.mod_mod_of_dvd i h]

theorem getD_column (c : CyclicColumn) {n i : Nat} (hi : i < n) :
    ((List.range n).map c.valueAt).getD i 0 = c.valueAt i := by
  rw [List.getD_eq_getElem?_getD, List.getElem?_map, List.getElem?_range hi, Option.map_some,
    Option.getD_some]

/-- **A cyclic register evaluates the interpolant of its column.** A source has a column exactly if
its numbers are below the modulus. Let its period be a power of two, and let `n` be a power of two
that is a multiple of the period and no larger than the largest domain. Then exactly one polynomial
of degree below `n` has the values of the register at the powers of the generator of the domain of
`n` points, and what the register computes at a point of the field, any point, is the value of that
polynomial. At a power of the generator it is therefore the value at that step. -/
theorem evaluateAt_interpolates {source : CycleSource} (hperiod : ∃ a, source.period = 2 ^ a)
    {n : Nat} (hn : ∃ k, n = 2 ^ k) (hdvd : source.period ∣ n) (hle : n ≤ 2 ^ 32) :
    ((∃ c, ofSource source = .ok c) ↔ source.Below Word.modulus)
      ∧ ∀ c, ofSource source = .ok c → ∃ d, Domain.ofSize n = .ok d
        ∧ ∃ P : Element[X], P.degree < (n : WithBot ℕ)
          ∧ (∀ i < n, P.eval (d.generator ^ i) = c.valueAt i)
          ∧ (∀ Q : Element[X], Q.degree < (n : WithBot ℕ) →
              (∀ i < n, Q.eval (d.generator ^ i) = c.valueAt i) → Q = P)
          ∧ (∀ x, c.evaluateAt x n = P.eval x)
          ∧ ∀ i, c.evaluateAt (d.generator ^ i) n = c.valueAt i := by
  refine ⟨exists_ofSource_iff, fun c hc => ?_⟩
  obtain ⟨k, rfl⟩ := hn
  have hk : k ≤ Element.twoAdicity := Domain.two_pow_le.1 hle
  have hperiodic : c.Periodic := ofSource_periodic hc (isPowerOfTwo_iff.2 hperiod)
  have hcperiod : c.period ∣ 2 ^ k := by
    obtain ⟨values, hvalues, hcolumn⟩ := bind_eq_ok.1 hc
    obtain rfl := Except.ok.inj hcolumn
    rwa [period, length_sourceValues hvalues]
  have hvalue : ∀ i < 2 ^ k, ((Domain.ofOrder k).interpolant
      ((List.range (2 ^ k)).map c.valueAt)).eval (Element.rootOfUnity k ^ i) = c.valueAt i := by
    intro i hi
    rw [Domain.eval_interpolant_root hk _ hi, getD_column c hi]
  have heval : ∀ x, c.evaluateAt x (2 ^ k) = ((Domain.ofOrder k).interpolant
      ((List.range (2 ^ k)).map c.valueAt)).eval x := by
    intro x
    rw [evaluateAt_eq hperiodic hk hcperiod, Domain.eval_interpolant hk (length_column c _)]
  refine ⟨Domain.ofOrder k, Domain.ofSize_two_pow hk, _, Domain.degree_interpolant_lt hk _,
    hvalue, fun Q hdegree hQ => ?_, heval, fun i => ?_⟩
  · apply Domain.eq_interpolant hk hdegree
    intro i hi
    rw [getD_column c hi]
    exact hQ i hi
  · -- the index goes around the domain, and the domain goes around the period
    have hroot : Element.rootOfUnity k ^ i = Element.rootOfUnity k ^ (i % 2 ^ k) := by
      rw [(Element.rootOfUnity_isPrimitiveRoot hk).eq_orderOf, pow_mod_orderOf]
    have hmod : i % 2 ^ k < 2 ^ k := Nat.mod_lt _ (by positivity)
    calc c.evaluateAt (Element.rootOfUnity k ^ i) (2 ^ k)
        = c.evaluateAt (Element.rootOfUnity k ^ (i % 2 ^ k)) (2 ^ k) := by rw [hroot]
      _ = c.valueAt (i % 2 ^ k) := by rw [heval, hvalue _ hmod]
      _ = c.valueAt i := valueAt_mod hcperiod i

/-- A cycle of four numbers over a trace of sixteen rows: at the point of step six it has the third
of them. -/
theorem evaluateAt_interpolates_four :
    (∃ a, (CycleSource.values [5, 6, 7, 8]).period = 2 ^ a) ∧ (∃ k, 16 = 2 ^ k)
      ∧ (CycleSource.values [5, 6, 7, 8]).period ∣ 16 ∧ 16 ≤ 2 ^ 32
      ∧ ∃ c d, ofSource (.values [5, 6, 7, 8]) = .ok c ∧ Domain.ofSize 16 = .ok d
        ∧ c.evaluateAt (d.generator ^ 6) 16 = 7 := by
  have hperiod : ∃ a, (CycleSource.values [5, 6, 7, 8]).period = 2 ^ a := ⟨2, rfl⟩
  have hn : ∃ k, 16 = 2 ^ k := ⟨4, rfl⟩
  have hdvd : (CycleSource.values [5, 6, 7, 8]).period ∣ 16 := ⟨4, rfl⟩
  have hle : 16 ≤ 2 ^ 32 := by decide
  have hbelow : (CycleSource.values [5, 6, 7, 8]).Below Word.modulus := by
    intro v hv
    fin_cases hv <;> decide
  obtain ⟨hcolumn, hpoly⟩ := evaluateAt_interpolates hperiod hn hdvd hle
  obtain ⟨c, hc⟩ := hcolumn.2 hbelow
  obtain ⟨d, hd, P, -, -, -, -, hsteps⟩ := hpoly c hc
  have hvalue : c.valueAt 6 = 7 := by
    obtain ⟨values, hvalues, hmk⟩ := bind_eq_ok.1 hc
    obtain rfl := Except.ok.inj hmk
    obtain rfl := Except.ok.inj hvalues
    rfl
  exact ⟨hperiod, hn, hdvd, hle, c, d, hc, hd, (hsteps 6).trans hvalue⟩

end CyclicColumn

end Arithmetization
