import Mathlib.Data.List.Forall2
import Mathlib.Data.List.Induction

/-!
Computations that may fail.

Everything in this library that can go wrong answers with `Except`, so the same few facts are needed
everywhere: when a sequence of steps succeeds, and when one computation succeeds at least as often
as another and then with the same answer. The second is `Refines`; it is what an optimisation may do
to a program, since it is free to remove a failure and nothing else.
-/

set_option autoImplicit false

namespace Arithmetization

variable {ε α β γ : Type}

/-! ## Success -/

theorem bind_eq_ok {x : Except ε α} {f : α → Except ε β} {b : β} :
    (x >>= f) = .ok b ↔ ∃ a, x = .ok a ∧ f a = .ok b := by
  constructor
  · intro h
    cases x with
    | error e => cases h
    | ok a => exact ⟨a, rfl, h⟩
  · rintro ⟨a, rfl, h⟩
    exact h

theorem map_eq_ok {x : Except ε α} {f : α → β} {b : β} :
    (f <$> x) = .ok b ↔ ∃ a, x = .ok a ∧ f a = b := by
  constructor
  · intro h
    cases x with
    | error e => cases h
    | ok a => exact ⟨a, rfl, Except.ok.inj h⟩
  · rintro ⟨a, rfl, rfl⟩
    rfl

theorem mapError_eq_ok {δ : Type} {f : ε → δ} {x : Except ε α} {a : α} :
    x.mapError f = .ok a ↔ x = .ok a := by
  cases x with
  | error e => exact ⟨fun h => (by cases h), fun h => (by cases h)⟩
  | ok b => exact ⟨fun h => congrArg _ (Except.ok.inj h), fun h => congrArg _ (Except.ok.inj h)⟩

theorem pure_eq_ok {a b : α} : (pure a : Except ε α) = .ok b ↔ a = b :=
  ⟨Except.ok.inj, congrArg _⟩

/-- A list of steps succeeds if each one does. -/
theorem mapM_eq_ok {f : α → Except ε β} {xs : List α} {ys : List β} :
    xs.mapM f = .ok ys ↔ List.Forall₂ (fun x y => f x = .ok y) xs ys := by
  induction xs generalizing ys with
  | nil =>
    rw [List.mapM_nil, pure_eq_ok, List.forall₂_nil_left_iff]
    exact eq_comm
  | cons x xs ih =>
    rw [List.mapM_cons, List.forall₂_cons_left_iff]
    simp only [bind_eq_ok, pure_eq_ok, ih]
    constructor
    · rintro ⟨y, hy, ys, hys, rfl⟩
      exact ⟨y, ys, hy, hys, rfl⟩
    · rintro ⟨y, ys, hy, hys, rfl⟩
      exact ⟨y, hy, ys, hys, rfl⟩

theorem exists_mapM_ok {f : α → Except ε β} {xs : List α} (h : ∀ x ∈ xs, ∃ y, f x = .ok y) :
    ∃ ys, xs.mapM f = .ok ys := by
  induction xs with
  | nil => exact ⟨[], rfl⟩
  | cons x xs ih =>
    rw [List.forall_mem_cons] at h
    obtain ⟨y, hy⟩ := h.1
    obtain ⟨ys, hys⟩ := ih h.2
    exact ⟨y :: ys, mapM_eq_ok.2 (.cons hy (mapM_eq_ok.1 hys))⟩

/-- What stands beside a member of the first of two related lists. -/
theorem exists_mem_right {R : α → β → Prop} {xs : List α} {ys : List β} (h : List.Forall₂ R xs ys)
    {x : α} (hx : x ∈ xs) : ∃ y ∈ ys, R x y := by
  induction h with
  | nil => cases hx
  | cons hxy _ ih =>
    rcases List.mem_cons.1 hx with rfl | hx
    · exact ⟨_, List.mem_cons_self .., hxy⟩
    · obtain ⟨y, hy, hxy⟩ := ih hx
      exact ⟨y, List.mem_cons_of_mem _ hy, hxy⟩

theorem forall₂_one {R : α → β → Prop} {x : α} {ys : List β} (h : List.Forall₂ R [x] ys) :
    ∃ y, ys = [y] ∧ R x y := by
  cases h with
  | cons hx h =>
    cases h
    exact ⟨_, rfl, hx⟩

theorem forall₂_two {R : α → β → Prop} {x x' : α} {ys : List β} (h : List.Forall₂ R [x, x'] ys) :
    ∃ y y', ys = [y, y'] ∧ R x y ∧ R x' y' := by
  cases h with
  | cons hx h =>
    obtain ⟨y', rfl, hx'⟩ := forall₂_one h
    exact ⟨_, y', rfl, hx, hx'⟩

/-- Every step of a list that succeeds. -/
theorem ok_of_mem_of_mapM {f : α → Except ε β} {xs : List α} {ys : List β}
    (h : xs.mapM f = .ok ys) {x : α} (hx : x ∈ xs) : ∃ y ∈ ys, f x = .ok y :=
  exists_mem_right (mapM_eq_ok.1 h) hx

theorem forM_eq_ok {f : α → Except ε Unit} {xs : List α} :
    xs.forM f = .ok () ↔ ∀ x ∈ xs, f x = .ok () := by
  induction xs with
  | nil => simp [List.forM, pure, Except.pure]
  | cons x xs ih =>
    rw [List.forM, bind_eq_ok, List.forall_mem_cons, ih]
    constructor
    · rintro ⟨⟨⟩, hx, hxs⟩
      exact ⟨hx, hxs⟩
    · rintro ⟨hx, hxs⟩
      exact ⟨(), hx, hxs⟩

/-! ## Failure -/

theorem bind_eq_error {x : Except ε α} {f : α → Except ε β} {e : ε} :
    (x >>= f) = .error e ↔ x = .error e ∨ ∃ a, x = .ok a ∧ f a = .error e := by
  cases x with
  | error e' =>
    refine ⟨fun h => .inl (congrArg Except.error (Except.error.inj h)), ?_⟩
    rintro (h | ⟨a, ha, -⟩)
    · exact congrArg Except.error (Except.error.inj h)
    · cases ha
  | ok a =>
    refine ⟨fun h => .inr ⟨a, rfl, h⟩, ?_⟩
    rintro (h | ⟨a', ha, h⟩)
    · cases h
    · cases ha
      exact h

/-- The fault of a list of steps is one of a step. -/
theorem exists_error_of_mapM {f : α → Except ε β} {xs : List α} {e : ε}
    (h : xs.mapM f = .error e) : ∃ x ∈ xs, f x = .error e := by
  induction xs with
  | nil => cases h
  | cons x xs ih =>
    rw [List.mapM_cons] at h
    rcases bind_eq_error.1 h with h | ⟨y, -, h⟩
    · exact ⟨x, List.mem_cons_self .., h⟩
    rcases bind_eq_error.1 h with h | ⟨ys, -, h⟩
    · obtain ⟨x', hx', h'⟩ := ih h
      exact ⟨x', List.mem_cons_of_mem _ hx', h'⟩
    · cases h

theorem exists_error_of_forM {f : α → Except ε Unit} {xs : List α} {e : ε}
    (h : xs.forM f = .error e) : ∃ x ∈ xs, f x = .error e := by
  induction xs with
  | nil => cases h
  | cons x xs ih =>
    rw [List.forM] at h
    rcases bind_eq_error.1 h with h | ⟨-, -, h⟩
    · exact ⟨x, List.mem_cons_self .., h⟩
    · obtain ⟨x', hx', h'⟩ := ih h
      exact ⟨x', List.mem_cons_of_mem _ hx', h'⟩

/-! ## Refinement -/

/-- Whenever `x` succeeds, `y` succeeds with the same answer. -/
def Refines (x y : Except ε α) : Prop :=
  ∀ v, x = .ok v → y = .ok v

namespace Refines

theorem refl (x : Except ε α) : Refines x x :=
  fun _ h => h

theorem trans {x y z : Except ε α} (h : Refines x y) (h' : Refines y z) : Refines x z :=
  fun v hv => h' v (h v hv)

/-- What refines another computation fails only where that one fails. -/
theorem error {x y : Except ε α} (h : Refines x y) (e : ε) (hy : y = .error e) :
    ∃ e', x = .error e' := by
  cases x with
  | error e' => exact ⟨e', rfl⟩
  | ok v =>
    rw [h v rfl] at hy
    cases hy

theorem bind {x y : Except ε α} {f g : α → Except ε β} (h : Refines x y)
    (hf : ∀ a, Refines (f a) (g a)) : Refines (x >>= f) (y >>= g) := by
  intro b hb
  obtain ⟨a, ha, hfa⟩ := bind_eq_ok.1 hb
  exact bind_eq_ok.2 ⟨a, h a ha, hf a b hfa⟩

/-- Steps that refine one another one by one. -/
theorem mapM {f g : α → Except ε β} {xs ys : List α}
    (h : List.Forall₂ (fun x y => Refines (f x) (g y)) xs ys) :
    Refines (xs.mapM f) (ys.mapM g) := by
  intro bs hbs
  rw [mapM_eq_ok] at hbs ⊢
  induction h generalizing bs with
  | nil =>
    cases hbs
    exact .nil
  | cons h _ ih =>
    cases hbs with
    | cons hb hbs => exact .cons (h _ hb) (ih _ hbs)

end Refines

/-! ## Lists that grow

Callees, secrecy flags and static columns are made alike: one entry after the other, each from the
entries before it. -/

section Growing

/-- An entry of a list with one more is an old one or the last. -/
theorem getElem?_concat_eq_some {xs : List α} {x y : α} {i : Nat} (h : (xs ++ [x])[i]? = some y) :
    xs[i]? = some y ∨ i = xs.length ∧ y = x := by
  by_cases hi : i < xs.length
  · rw [List.getElem?_append_left hi] at h
    exact .inl h
  · have hlast : i = xs.length := by
      have hlt := (List.getElem?_eq_some_iff.1 h).1
      rw [List.length_append, List.length_singleton] at hlt
      omega
    rw [hlast, List.getElem?_concat_length] at h
    exact .inr ⟨hlast, (Option.some.inj h).symm⟩

variable (f : List β → α → β)

/-- Append one entry for every element, made from the entries so far. -/
def grow (xs : List α) : List β :=
  xs.foldl (fun acc x => acc ++ [f acc x]) []

theorem grow_append (xs : List α) (x : α) :
    grow f (xs ++ [x]) = grow f xs ++ [f (grow f xs) x] := by
  rw [grow, List.foldl_append]
  rfl

theorem length_grow (xs : List α) : (grow f xs).length = xs.length := by
  induction xs using List.reverseRecOn with
  | nil => rfl
  | append_singleton xs x ih =>
    rw [grow_append, List.length_append, List.length_append, ih]
    rfl

/-- An entry is made from the entries before it. -/
theorem getElem?_grow {xs : List α} {i : Nat} {x : α} (hx : xs[i]? = some x) :
    (grow f xs)[i]? = some (f (grow f (xs.take i)) x) := by
  induction xs using List.reverseRecOn with
  | nil => cases hx
  | append_singleton xs y ih =>
    rw [grow_append]
    rcases getElem?_concat_eq_some hx with hx | ⟨rfl, rfl⟩
    · have hlt : i < xs.length := (List.getElem?_eq_some_iff.1 hx).1
      rw [List.getElem?_append_left (by rwa [length_grow]), ih hx,
        List.take_append_of_le_length (Nat.le_of_lt hlt)]
    · rw [List.take_left, ← length_grow f xs, List.getElem?_concat_length]

/-- Entries do not depend on what comes after them. -/
theorem getElem?_grow_take {xs : List α} {i j : Nat} (h : j < i) :
    (grow f (xs.take i))[j]? = (grow f xs)[j]? := by
  cases hx : xs[j]? with
  | none =>
    have hlen : xs.length ≤ j := List.getElem?_eq_none_iff.1 hx
    rw [List.take_of_length_le (by omega)]
  | some x =>
    have htake : (xs.take i)[j]? = some x := by rw [List.getElem?_take_of_lt h, hx]
    rw [getElem?_grow f htake, getElem?_grow f hx, List.take_take, Nat.min_eq_left (Nat.le_of_lt h)]

end Growing

end Arithmetization
