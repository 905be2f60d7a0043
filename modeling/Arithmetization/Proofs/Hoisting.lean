import Arithmetization.Proofs.Occurrences

/-!
One round of sharing, told without numbers.

A round picks an expression, stores it into a fresh local right before the first statement that has
it, and reads the local in place of the occurrences that come later. `Hoisting` is all that later
proofs need to know about it: the picked expression is no literal, load or segment, it occurs in the
statement that the store goes before, and what is replaced is the picked expression itself, at a
point where none of the locals it reads has been stored again. `exists_hoisting` reads this off the
classes of a block, and `hoistAll_induction` carries a property through all rounds.
-/

set_option autoImplicit false

namespace Arithmetization

namespace Block

/-- The targets of stores, the last one first. -/
def targets (ss : List Assign) : List Nat :=
  (ss.map Assign.target).reverse

/-- Read `fresh` in place of the occurrences in some stores; `occurs` says what an occurrence is
after the stores to a list of locals. -/
def readStores (occurs : List Nat → Expr → Bool) (fresh : Nat) :
    List Nat → List Assign → List Assign
  | _, [] => []
  | stored, s :: rest =>
    ⟨s.target, s.value.readInstead (occurs stored) fresh⟩
      :: readStores occurs fresh (s.target :: stored) rest

theorem targets_cons (s : Assign) (ss : List Assign) :
    targets (s :: ss) = targets ss ++ [s.target] := by
  rw [targets, List.map_cons, List.reverse_cons, targets]

theorem readStores_append (occurs : List Nat → Expr → Bool) (fresh : Nat) (stored : List Nat)
    (xs ys : List Assign) :
    readStores occurs fresh stored (xs ++ ys)
      = readStores occurs fresh stored xs
        ++ readStores occurs fresh (targets xs ++ stored) ys := by
  induction xs generalizing stored with
  | nil => rfl
  | cons x xs ih =>
    rw [List.cons_append, readStores, readStores, ih, targets_cons, List.append_assoc]
    rfl

theorem mem_readStores {occurs : List Nat → Expr → Bool} {fresh : Nat} {stored : List Nat}
    {ss : List Assign} {t : Assign} (ht : t ∈ readStores occurs fresh stored ss) :
    ∃ s ∈ ss, ∃ σ, t = ⟨s.target, s.value.readInstead (occurs σ) fresh⟩ := by
  induction ss generalizing stored with
  | nil => cases ht
  | cons s ss ih =>
    rcases List.mem_cons.1 ht with rfl | ht
    · exact ⟨s, List.mem_cons_self .., stored, rfl⟩
    · obtain ⟨s', hs', σ, rfl⟩ := ih ht
      exact ⟨s', List.mem_cons_of_mem _ hs', σ, rfl⟩

/-- Stores without an occurrence stay as they are. -/
theorem readStores_eq_self {occurs : List Nat → Expr → Bool} {fresh : Nat} {stored : List Nat}
    {ss : List Assign}
    (h : ∀ {j s}, ss[j]? = some s → ∀ x ∈ s.value.subterms,
      occurs (Classes.history stored ss j) x = false) :
    readStores occurs fresh stored ss = ss := by
  induction ss generalizing stored with
  | nil => rfl
  | cons s ss ih =>
    have hs : s.value.readInstead (occurs stored) fresh = s.value :=
      Expr.readInstead_eq_self (h (j := 0) rfl)
    rw [readStores, hs, ih]
    intro j t ht x hx
    rw [← Classes.history_cons_succ]
    exact h (j := j + 1) ht x hx

/-! ## The step -/

/-- What one round of sharing does to a block. -/
structure Hoisting (b : Block) where
  /-- The expression that gets a local. -/
  shared : Expr
  /-- The stores that come before the new one, and those that come after it. -/
  before : List Assign
  after : List Assign
  /-- Whether an expression, met after the stores to a list of locals, is replaced. -/
  occurs : List Nat → Expr → Bool
  stores_eq : b.stores = before ++ after
  nontrivial : shared.op.isTrivial = false
  mem_first : ∃ e ∈ (after.map Assign.value ++ [b.result]).head?, shared ∈ e.subterms
  occurs_spec : ∀ {stored e}, occurs stored e = true →
    e = shared ∧ ∀ l ∈ shared.reads, stored.count l = (targets before).count l

namespace Hoisting

variable {b : Block}

/-- The block after the round. -/
def block (h : Hoisting b) : Block :=
  { locals := b.locals ++ [h.shared.shape]
    stores := h.before ++ ⟨b.locals.length, h.shared⟩
      :: readStores h.occurs b.locals.length (targets h.before) h.after
    result := b.result.readInstead (h.occurs (targets b.stores)) b.locals.length }

/-- The shared expression is part of a statement. -/
theorem exists_mem_exprs (h : Hoisting b) : ∃ e ∈ b.exprs, h.shared ∈ e.subterms := by
  obtain ⟨e, he, hmem⟩ := h.mem_first
  refine ⟨e, ?_, hmem⟩
  rw [exprs, h.stores_eq, List.map_append, List.append_assoc]
  exact List.mem_append_right _ (List.mem_of_mem_head? he)

@[simp] theorem length_locals (h : Hoisting b) :
    h.block.locals.length = b.locals.length + 1 := by
  rw [block, List.length_append, List.length_singleton]

theorem mem_stores_new (h : Hoisting b) : ⟨b.locals.length, h.shared⟩ ∈ h.block.stores :=
  List.mem_append_right _ (List.mem_cons_self ..)

/-- A store of the new block stood before, is the new one, or is an old one that now reads it. -/
theorem mem_stores (h : Hoisting b) {t : Assign} (ht : t ∈ h.block.stores) :
    t ∈ b.stores ∨ t = ⟨b.locals.length, h.shared⟩
      ∨ ∃ s ∈ b.stores, ∃ p, t = ⟨s.target, s.value.readInstead p b.locals.length⟩ := by
  rw [h.stores_eq]
  rcases List.mem_append.1 ht with ht | ht
  · exact .inl (List.mem_append_left _ ht)
  rcases List.mem_cons.1 ht with rfl | ht
  · exact .inr (.inl rfl)
  · obtain ⟨s, hs, σ, rfl⟩ := mem_readStores ht
    exact .inr (.inr ⟨s, List.mem_append_right _ hs, h.occurs σ, rfl⟩)

/-- A statement of the new block is one of before, with or without reads of the new local, or has
the shared expression. -/
theorem mem_exprs (h : Hoisting b) {e : Expr} (he : e ∈ h.block.exprs) :
    e ∈ b.exprs ∨ e = h.shared ∨ ∃ e' ∈ b.exprs, ∃ p, e = e'.readInstead p b.locals.length := by
  have hvalue : ∀ s ∈ b.stores, s.value ∈ b.exprs := fun s hs =>
    List.mem_append_left _ (List.mem_map_of_mem hs)
  rcases List.mem_append.1 he with he | he
  · obtain ⟨t, ht, rfl⟩ := List.mem_map.1 he
    obtain ht | rfl | ⟨s, hs, p, rfl⟩ := h.mem_stores ht
    · exact .inl (hvalue t ht)
    · exact .inr (.inl rfl)
    · exact .inr (.inr ⟨s.value, hvalue s hs, p, rfl⟩)
  · obtain rfl := List.mem_singleton.1 he
    exact .inr (.inr ⟨b.result, List.mem_append_right _ (List.mem_singleton.2 rfl), _, rfl⟩)

end Hoisting

theorem replaceStores_eq (c : Classes) (target fresh : Nat) (stored : List Nat)
    (ss : List Assign) :
    c.replaceStores target fresh stored ss
      = readStores (c.isOccurrence target) fresh stored ss := by
  induction ss generalizing stored with
  | nil => rfl
  | cons s ss ih => rw [Classes.replaceStores, readStores, Classes.replace_fst, ih]

/-- Stores before every occurrence of a class stay as they are. -/
theorem readStores_take_eq_self {b : Block} {c : Classes} {target fresh n : Nat}
    (h : ∀ {j e}, j < n → (b.stores.map Assign.value ++ [b.result])[j]? = some e →
      ∀ x ∈ e.subterms, c.find? (Classes.history [] b.stores j) x ≠ some target) :
    readStores (c.isOccurrence target) fresh [] (b.stores.take n) = b.stores.take n := by
  refine readStores_eq_self ?_
  intro j t ht x hx
  have hjn : j < n := by
    have hlt := (List.getElem?_eq_some_iff.1 ht).1
    rw [List.length_take] at hlt
    omega
  rw [List.getElem?_take_of_lt hjn] at ht
  have hstmt : (b.stores.map Assign.value ++ [b.result])[j]? = some t.value := by
    have hlt := (List.getElem?_eq_some_iff.1 ht).1
    rw [List.getElem?_append_left (by rwa [List.length_map]), List.getElem?_map, ht,
      Option.map_some]
  have hhistory : Classes.history [] (b.stores.take n) j = Classes.history [] b.stores j := by
    rw [Classes.history, Classes.history, List.take_take, Nat.min_eq_left (Nat.le_of_lt hjn)]
  rw [hhistory, Classes.isOccurrence]
  simpa using h hjn hstmt x hx

/-- **One round.** Hoisting a candidate is a `Hoisting`. -/
theorem exists_hoisting {b : Block} {minWeight target : Nat} {s : ShareClass}
    (h : (Classes.ofBlock b).candidate? minWeight = some (target, s)) :
    ∃ step : Hoisting b, b.hoist (Classes.ofBlock b) target s = step.block := by
  obtain ⟨hget, hcand⟩ := Classes.candidate?_spec h
  obtain ⟨e, he, hmem, hfind, hbefore⟩ := Classes.ofBlock_first hget
  have hle := Classes.stmt_le_length hget
  have hsplit : b.stores = b.stores.take s.stmt ++ b.stores.drop s.stmt :=
    (List.take_append_drop ..).symm
  have hhistory : Classes.history [] b.stores s.stmt = targets (b.stores.take s.stmt) := by
    rw [Classes.history, List.append_nil, targets]
  refine ⟨⟨s.first, b.stores.take s.stmt, b.stores.drop s.stmt,
    (Classes.ofBlock b).isOccurrence target, hsplit, ?_, ?_, ?_⟩, ?_⟩
  · simp only [Classes.isCandidate, Bool.and_eq_true, Bool.not_eq_true'] at hcand
    exact hcand.1.2
  · -- the statement that the store goes before is the one where the class was met first
    refine ⟨e, ?_, hmem⟩
    rw [Option.mem_def, List.head?_eq_getElem?, ← he, exprs, List.map_drop,
      ← List.drop_append_of_le_length (by rwa [List.length_map]), List.getElem?_drop, Nat.add_zero]
  · intro stored e' hocc
    rw [Classes.isOccurrence, beq_iff_eq] at hocc
    obtain ⟨rfl, hcount⟩ := Classes.find?_inj (Classes.ofBlock_numbers b).valid hocc hfind
    rw [hhistory] at hcount
    exact ⟨rfl, hcount⟩
  · have hstores : (Classes.ofBlock b).replaceStores target b.locals.length [] b.stores
        = b.stores.take s.stmt
          ++ readStores ((Classes.ofBlock b).isOccurrence target) b.locals.length
              (targets (b.stores.take s.stmt)) (b.stores.drop s.stmt) := by
      conv_lhs => rw [replaceStores_eq, hsplit]
      rw [readStores_append, readStores_take_eq_self hbefore, List.append_nil]
    have hlen : (b.stores.take s.stmt).length = s.stmt := by
      rw [List.length_take, Nat.min_eq_left hle]
    rw [hoist, Hoisting.block]
    dsimp only
    rw [hstores, List.take_left' hlen, List.drop_left' hlen, Classes.replace_fst]
    rfl

/-- **All rounds.** What holds of a block and is kept by every round holds after all of them. -/
theorem hoistAll_induction {motive : Block → Prop}
    (step : ∀ {b : Block} (h : Hoisting b), motive b → motive h.block) {minWeight rounds : Nat}
    {b : Block} (hb : motive b) : motive (hoistAll minWeight rounds b) := by
  induction rounds generalizing b with
  | zero => exact hb
  | succ rounds ih =>
    rw [hoistAll]
    split
    · exact hb
    · next target s hcand =>
      obtain ⟨h, heq⟩ := exists_hoisting hcand
      rw [heq]
      exact ih (step h hb)

end Block

end Arithmetization
