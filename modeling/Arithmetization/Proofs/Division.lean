import Arithmetization.Proofs.Field
import Arithmetization.Proofs.Tensors
import Arithmetization.Value

/-!
Inverses and quotients of values.

Values are combined place by place, a scalar standing in every place of the other side. With
`Tensor.spread` for that, two values can be combined when both, spread over each other, have the
same places (`Tensor.Compatible`), and then it is known what is paired (`Tensor.map_align`). An
operation on values that can only refuse single elements is thereby known altogether: it refuses if
one of the elements that it meets is refused, and otherwise it is the operation on elements in every
place (`Tensor.mapM_eq_ite`). Inverses and quotients refuse zero, and elements are a field, so what
they give can be multiplied back (`Value.division_exact`).
-/

set_option autoImplicit false

namespace Arithmetization

/-! ## Operations that refuse some elements -/

section Refusing

variable {ε α β : Type} {f : α → Except ε β} {e : ε} {P : α → Prop} [DecidablePred P]
  {g : α → β}

/-- Steps that all refuse with the same fault. -/
theorem list_mapM_eq_ite (hbad : ∀ x, P x → f x = .error e) (hgood : ∀ x, ¬ P x → f x = .ok (g x))
    (xs : List α) : xs.mapM f = if ∃ x ∈ xs, P x then .error e else .ok (xs.map g) := by
  induction xs with
  | nil => rfl
  | cons x xs ih =>
    rw [List.mapM_cons, ih]
    by_cases hx : P x
    · have hany : ∃ y ∈ x :: xs, P y := ⟨x, List.mem_cons_self .., hx⟩
      rw [hbad x hx, if_pos hany]
      rfl
    · have hrest : (∃ y ∈ x :: xs, P y) ↔ ∃ y ∈ xs, P y := by
        simp [hx]
      rw [hgood x hx]
      by_cases hany : ∃ y ∈ xs, P y
      · rw [if_pos hany, if_pos (hrest.2 hany)]
        rfl
      · rw [if_neg hany, if_neg (mt hrest.1 hany)]
        rfl

/-- A tensor is refused if one of its elements is. -/
theorem Tensor.mapM_eq_ite (hbad : ∀ x, P x → f x = .error e)
    (hgood : ∀ x, ¬ P x → f x = .ok (g x)) (t : Tensor α) :
    t.mapM f = if ∃ x ∈ t.elements, P x then .error e else .ok (t.map g) := by
  cases t with
  | scalar x =>
    rw [mapM, elements]
    by_cases hx : P x
    · rw [hbad x hx, if_pos ⟨x, List.mem_singleton.2 rfl, hx⟩]
      rfl
    · rw [hgood x hx, if_neg (by simpa using hx)]
      rfl
  | vector xs =>
    rw [mapM, list_mapM_eq_ite hbad hgood, elements]
    split <;> rfl
  | matrix rows =>
    -- a row is refused as a whole, with the same fault
    have hrow : ∀ row : List α, (∃ x ∈ row, P x) → row.mapM f = .error e := fun row h => by
      rw [list_mapM_eq_ite hbad hgood, if_pos h]
    have hrow' : ∀ row : List α, ¬ (∃ x ∈ row, P x) → row.mapM f = .ok (row.map g) :=
      fun row h => by rw [list_mapM_eq_ite hbad hgood, if_neg h]
    have hflat : (∃ x ∈ (matrix rows).elements, P x) ↔ ∃ row ∈ rows, ∃ x ∈ row, P x := by
      simp only [elements, List.mem_flatten]
      constructor
      · rintro ⟨x, ⟨row, hr, hx⟩, hP⟩
        exact ⟨row, hr, x, hx, hP⟩
      · rintro ⟨row, hr, x, hx, hP⟩
        exact ⟨x, ⟨row, hr, hx⟩, hP⟩
    rw [mapM, list_mapM_eq_ite hrow hrow']
    by_cases hany : ∃ row ∈ rows, ∃ x ∈ row, P x
    · rw [if_pos hany, if_pos (hflat.2 hany)]
      rfl
    · rw [if_neg hany, if_neg (mt hflat.1 hany)]
      rfl

end Refusing

/-! ## Places -/

namespace Tensor

variable {α β : Type}

/-- A scalar in all places of another tensor; a vector or a matrix keeps its own places. -/
def spread : Tensor α → Tensor β → Tensor α
  | .scalar x, b => b.map fun _ => x
  | .vector xs, _ => .vector xs
  | .matrix rows, _ => .matrix rows

/-- Two tensors that have, spread over each other, the same places. -/
def Compatible (a : Tensor α) (b : Tensor β) : Prop :=
  (a.spread b).map (fun _ => ()) = (b.spread a).map fun _ => ()

theorem map_unit_inj {xs : List α} {ys : List β} :
    (xs.map fun _ => ()) = (ys.map fun _ => ()) ↔ xs.length = ys.length := by
  rw [List.map_const', List.map_const', List.replicate_left_inj]

theorem map_map_unit_inj {xss : List (List α)} {yss : List (List β)} :
    (xss.map fun xs => xs.map fun _ => ()) = (yss.map fun ys => ys.map fun _ => ())
      ↔ xss.map List.length = yss.map List.length := by
  induction xss generalizing yss with
  | nil => cases yss <;> simp
  | cons xs xss ih =>
    cases yss with
    | nil => simp
    | cons ys yss =>
      simp only [List.map_cons, List.cons.injEq]
      rw [map_unit_inj, ih]

/-- Tensors with the same places are those whose elements are paired. -/
theorem compatible_iff {a : Tensor α} {b : Tensor β} :
    Compatible a b ↔ sameRows a b = true ∧ (align a b).isSome = true := by
  cases a with
  | scalar x => cases b <;> simp [Compatible, spread, sameRows, align, map]
  | vector xs =>
    cases b with
    | scalar y => simp [Compatible, spread, sameRows, align, map]
    | vector ys =>
      have hplaces : Compatible (.vector xs) (.vector ys) ↔ xs.length = ys.length := by
        rw [Compatible, spread, spread, map, map, vector.injEq, map_unit_inj]
      rw [hplaces]
      by_cases h : xs.length = ys.length <;> simp [sameRows, align, h]
    | matrix ys => simp [Compatible, spread, align, map]
  | matrix xs =>
    cases b with
    | scalar y => simp [Compatible, spread, sameRows, align, map]
    | vector ys => simp [Compatible, spread, align, map]
    | matrix ys =>
      have hplaces : Compatible (.matrix xs) (.matrix ys)
          ↔ xs.map List.length = ys.map List.length := by
        rw [Compatible, spread, spread, map, map, matrix.injEq, map_map_unit_inj]
      rw [hplaces, sameRows, beq_iff_eq]
      refine ⟨fun h => ⟨h, ?_⟩, And.left⟩
      have hlength : xs.length = ys.length := by
        simpa using congrArg List.length h
      rw [align, if_pos hlength]
      rfl

theorem map_fst_zipWith_zip {xss : List (List α)} {yss : List (List β)}
    (h : xss.map List.length = yss.map List.length) :
    (List.zipWith List.zip xss yss).map (·.map Prod.fst) = xss
      ∧ (List.zipWith List.zip xss yss).map (·.map Prod.snd) = yss := by
  induction xss generalizing yss with
  | nil => cases yss <;> simp_all
  | cons xs xss ih =>
    cases yss with
    | nil => simp at h
    | cons ys yss =>
      obtain ⟨hrow, hrest⟩ := List.cons.inj h
      obtain ⟨hfst, hsnd⟩ := ih hrest
      exact ⟨congrArg₂ List.cons (List.map_fst_zip hrow.le) hfst,
        congrArg₂ List.cons (List.map_snd_zip hrow.ge) hsnd⟩

theorem map_fst_pair (a : Tensor α) (y : β) : (a.map (·, y)).map Prod.fst = a := by
  cases a <;> simp [map, Function.comp_def]

theorem map_snd_pair (x : α) (b : Tensor β) : (b.map (x, ·)).map Prod.snd = b := by
  cases b <;> simp [map, Function.comp_def]

theorem spread_scalar (a : Tensor α) (y : β) : a.spread (.scalar y) = a := by
  cases a <;> rfl

/-- The pairs of two tensors are those of the two spread over each other. -/
theorem map_align {a : Tensor α} {b : Tensor β} {pairs : Tensor (α × β)}
    (hrows : sameRows a b = true) (h : align a b = some pairs) :
    pairs.map Prod.fst = a.spread b ∧ pairs.map Prod.snd = b.spread a := by
  cases a with
  | scalar x =>
    rw [align_scalar_left, Option.some.injEq] at h
    subst h
    exact ⟨map_map .., (map_snd_pair x b).trans (spread_scalar b x).symm⟩
  | vector xs =>
    cases b with
    | scalar y =>
      cases h
      exact ⟨map_fst_pair (.vector xs) y, map_map _ _ (.vector xs)⟩
    | vector ys =>
      rw [align] at h
      split at h
      case isFalse => cases h
      case isTrue hlength =>
        cases h
        exact ⟨congrArg vector (List.map_fst_zip hlength.le),
          congrArg vector (List.map_snd_zip hlength.ge)⟩
    | matrix ys => cases h
  | matrix xs =>
    cases b with
    | scalar y =>
      cases h
      exact ⟨map_fst_pair (.matrix xs) y, map_map _ _ (.matrix xs)⟩
    | vector ys => cases h
    | matrix ys =>
      rw [align] at h
      split at h
      case isFalse => cases h
      case isTrue =>
        cases h
        obtain ⟨hfst, hsnd⟩ := map_fst_zipWith_zip (beq_iff_eq.1 hrows)
        exact ⟨congrArg matrix hfst, congrArg matrix hsnd⟩

theorem rel_map_left {R : β → α → Prop} {f : α → β} (t : Tensor α)
    (h : ∀ x ∈ t.elements, R (f x) x) : Rel R (t.map f) t := by
  cases t with
  | scalar x => exact .scalar (h x (List.mem_singleton.2 rfl))
  | vector xs => exact .vector (List.forall₂_map_left_iff.2 (List.forall₂_same.2 h))
  | matrix rows =>
    refine .matrix (List.forall₂_map_left_iff.2 (List.forall₂_same.2 fun row hrow => ?_))
    exact List.forall₂_map_left_iff.2 (List.forall₂_same.2
      fun x hx => h x (List.mem_flatten.2 ⟨row, hrow, hx⟩))

end Tensor

/-! ## Inverses and quotients -/

namespace Value

open Tensor

/-- Values with other places are refused, whatever is done with their elements. -/
theorem zipWith_of_not_compatible {a b : Value} (h : ¬ Compatible a b)
    (f : Element → Element → Except RunFault Element) :
    zipWith f a b = .error (.shape (.combine a.kind b.kind)) := by
  have hnone : (if sameRows a b then align a b else none) = none := by
    split
    case isFalse => rfl
    case isTrue hrows =>
      rw [← Option.not_isSome_iff_eq_none]
      exact fun hsome => h (compatible_iff.2 ⟨hrows, hsome⟩)
  rw [zipWith, hnone]

/-- Values with the same places are combined in each of them. -/
theorem zipWith_of_compatible {a b : Value} (h : Compatible a b)
    (f : Element → Element → Except RunFault Element) :
    ∃ pairs : Tensor (Element × Element), pairs.map Prod.fst = a.spread b
      ∧ pairs.map Prod.snd = b.spread a ∧ zipWith f a b = pairs.mapM fun p => f p.1 p.2 := by
  obtain ⟨hrows, hsome⟩ := compatible_iff.1 h
  obtain ⟨pairs, hpairs⟩ := Option.isSome_iff_exists.1 hsome
  obtain ⟨hfst, hsnd⟩ := map_align hrows hpairs
  refine ⟨pairs, hfst, hsnd, ?_⟩
  rw [zipWith, if_pos hrows, hpairs]

theorem inverse_of_eq_zero {x : Element} (h : x = 0) : inverse x = .error .divisionByZero :=
  if_pos h

theorem inverse_of_ne_zero {x : Element} (h : x ≠ 0) : inverse x = .ok x.inv :=
  if_neg h

/-- The inverse of a value is refused if one of its elements is zero. -/
theorem inv_eq (a : Value) :
    inv a = if 0 ∈ a.elements then .error .divisionByZero else .ok (a.map Element.inv) := by
  rw [inv, Tensor.mapM_eq_ite (P := (· = 0)) (fun _ => inverse_of_eq_zero)
    fun _ => inverse_of_ne_zero]
  simp only [exists_eq_right]

/-- A quotient is refused if a zero stands in one of the places of the divisor. -/
theorem div_eq {a b : Value} (h : Compatible a b) :
    ∃ pairs : Tensor (Element × Element), pairs.map Prod.fst = a.spread b
      ∧ pairs.map Prod.snd = b.spread a
      ∧ div a b = if 0 ∈ (b.spread a).elements then .error .divisionByZero
        else .ok (pairs.map fun p => p.1 * p.2.inv) := by
  obtain ⟨pairs, hfst, hsnd, hdiv⟩ := zipWith_of_compatible h fun x y => do return x * (← inverse y)
  refine ⟨pairs, hfst, hsnd, ?_⟩
  have hzero : (∃ p ∈ pairs.elements, p.2 = 0) ↔ 0 ∈ (b.spread a).elements := by
    rw [← hsnd, elements_map, List.mem_map]
  have hbad : ∀ p : Element × Element, p.2 = 0 →
      (do return p.1 * (← inverse p.2)) = Except.error RunFault.divisionByZero := by
    intro p hp
    rw [inverse_of_eq_zero hp]
    rfl
  have hgood : ∀ p : Element × Element, ¬ p.2 = 0 →
      (do return p.1 * (← inverse p.2) : Except RunFault Element) = .ok (p.1 * p.2.inv) := by
    intro p hp
    rw [inverse_of_ne_zero hp]
    rfl
  rw [div, hdiv, Tensor.mapM_eq_ite (P := fun p => p.2 = 0) hbad hgood]
  simp only [hzero]

/-- **Division is that of a field.** An inverse or a quotient of values is refused for its divisor
exactly if the values can be combined and a divisor that is used is zero. Values that cannot be
combined are refused for their shapes. Otherwise the quotient is a value that, multiplied by the
divisor in each place, gives the dividend back. -/
theorem division_exact :
    (∀ a : Element, a ≠ 0 → a * a.inv = 1)
    ∧ (∀ a b : Element, b ≠ 0 → a / b * b = a)
    ∧ (∀ a b : Element, a * b = 0 → a = 0 ∨ b = 0)
    ∧ (∀ a : Value,
        (inv a = .error .divisionByZero ↔ 0 ∈ a.elements)
        ∧ (0 ∉ a.elements → ∃ y, inv a = .ok y ∧ Rel (fun y x => y * x = 1) y a))
    ∧ ∀ a b : Value,
        (div a b = .error .divisionByZero ↔ Compatible a b ∧ 0 ∈ (b.spread a).elements)
        ∧ (¬ Compatible a b → div a b = .error (.shape (.combine a.kind b.kind)))
        ∧ (Compatible a b → 0 ∉ (b.spread a).elements →
            ∃ (y : Value) (pairs : Tensor (Element × Element)), div a b = .ok y
              ∧ pairs.map Prod.fst = a.spread b ∧ pairs.map Prod.snd = b.spread a
              ∧ Rel (fun y p => y * p.2 = p.1) y pairs) := by
  have hinv : ∀ x : Element, x ≠ 0 → x.inv * x = 1 := fun x hx => by
    rw [mul_comm, Element.mul_inv_eq_one hx]
  refine ⟨fun a => Element.mul_inv_eq_one, fun a b hb => div_mul_cancel₀ a hb,
    fun a b => mul_eq_zero.1, fun a => ⟨?_, fun ha => ?_⟩, fun a b => ⟨?_, fun hab => ?_,
    fun hab hb => ?_⟩⟩
  · rw [inv_eq]
    split <;> simp [*]
  · refine ⟨a.map Element.inv, by rw [inv_eq, if_neg ha], ?_⟩
    exact rel_map_left a fun x hx => hinv x (ne_of_mem_of_not_mem hx ha)
  · by_cases hab : Compatible a b
    · obtain ⟨pairs, -, -, hdiv⟩ := div_eq hab
      rw [hdiv]
      split <;> simp [*]
    · simp [div, zipWith_of_not_compatible hab, hab]
  · exact zipWith_of_not_compatible hab _
  · obtain ⟨pairs, hfst, hsnd, hdiv⟩ := div_eq hab
    refine ⟨_, pairs, hdiv.trans (if_neg hb), hfst, hsnd, rel_map_left pairs fun p hp => ?_⟩
    have hp0 : p.2 ≠ 0 := by
      rintro h0
      rw [← hsnd, elements_map] at hb
      exact hb (h0 ▸ List.mem_map_of_mem hp)
    rw [mul_assoc, hinv p.2 hp0, mul_one]

end Value

end Arithmetization
