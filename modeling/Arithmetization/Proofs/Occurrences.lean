import Arithmetization.Body.Sharing
import Mathlib.Data.List.Forall2
import Std.Data.HashMap.Lemmas

/-!
Numbers of occurrences.

Sharing tells occurrences apart by number. This file says what a number stands for: two occurrences
with one number are the same tree, and every local in it has been stored equally often before both
(`Classes.find?_inj`). The classes of a block know every occurrence in it, and each class knows the
first statement that has one (`Classes.ofBlock_numbers`, `Classes.ofBlock_first`). Nothing later
looks inside the table or the map.

The number of an expression is read off by `Classes.find?`, which asks for the key of every node and
changes nothing. Replacing asks the same questions in the same order, so it finds the same number
(`Classes.replace_snd`).
-/

set_option autoImplicit false

namespace Arithmetization

namespace Expr

/-! ## Subterms -/

/-- An expression and all expressions inside it, with repetitions. -/
def subterms : Expr → List Expr :=
  fold fun op shape args subs => .node op shape args :: subs.flatten

theorem mem_subterms_node {x : Expr} {op : Op} {shape : Shape} {args : List Expr} :
    x ∈ subterms (.node op shape args) ↔ x = .node op shape args ∨ ∃ a ∈ args, x ∈ subterms a := by
  rw [subterms, fold_node, ← subterms, List.mem_cons, ← List.flatMap_def, List.mem_flatMap]

theorem mem_subterms_self (e : Expr) : e ∈ e.subterms := by
  cases e with
  | node op shape args => exact mem_subterms_node.2 (.inl rfl)

theorem mem_subterms_arg {x a : Expr} {op : Op} {shape : Shape} {args : List Expr} (ha : a ∈ args)
    (hx : x ∈ a.subterms) : x ∈ subterms (.node op shape args) :=
  mem_subterms_node.2 (.inr ⟨a, ha, hx⟩)

theorem reads_node (op : Op) (shape : Shape) (args : List Expr) :
    reads (.node op shape args) = op.local?.toList ++ args.flatMap reads := by
  rw [reads, fold_node, ← reads, List.flatMap_def]

theorem mem_reads_node {l : Nat} {op : Op} {shape : Shape} {args : List Expr} :
    l ∈ reads (.node op shape args) ↔ op.local? = some l ∨ ∃ a ∈ args, l ∈ reads a := by
  rw [reads_node, List.mem_append, Option.mem_toList, List.mem_flatMap]

end Expr

namespace Classes

/-! ## Looking numbers up -/

/-- The number of an expression met after the stores to `stored`, if it has one. -/
def find? (c : Classes) (stored : List Nat) : Expr → Option Nat :=
  Expr.fold fun op shape _ ids => (ids.mapM id).bind fun ids => c.ids[key stored op shape ids]?

theorem find?_node (c : Classes) (stored : List Nat) (op : Op) (shape : Shape) (args : List Expr) :
    c.find? stored (.node op shape args)
      = (args.mapM (c.find? stored)).bind fun ids => c.ids[key stored op shape ids]? := by
  rw [find?, Expr.fold_node, ← find?, List.mapM_map]
  rfl

/-- Numbers of several expressions, one for each. -/
theorem mapM_find?_eq_some {c : Classes} {stored : List Nat} {args : List Expr} {ids : List Nat} :
    args.mapM (c.find? stored) = some ids ↔
      List.Forall₂ (fun a i => c.find? stored a = some i) args ids := by
  induction args generalizing ids with
  | nil =>
    simp only [List.mapM_nil, Option.pure_def, Option.some.injEq]
    constructor
    · rintro rfl
      exact .nil
    · intro h
      cases h
      rfl
  | cons a args ih =>
    rw [List.mapM_cons]
    simp only [Option.bind_eq_bind, Option.bind_eq_some_iff, Option.pure_def, Option.some.injEq]
    constructor
    · rintro ⟨i, hi, is, his, rfl⟩
      exact .cons hi (ih.1 his)
    · intro h
      cases h with
      | cons hi his => exact ⟨_, hi, _, ih.2 his, rfl⟩

theorem find?_node_eq_some {c : Classes} {stored : List Nat} {op : Op} {shape : Shape}
    {args : List Expr} {i : Nat} :
    c.find? stored (.node op shape args) = some i ↔
      ∃ ids, List.Forall₂ (fun a i => c.find? stored a = some i) args ids
        ∧ c.ids[key stored op shape ids]? = some i := by
  rw [find?_node, Option.bind_eq_some_iff]
  simp only [mapM_find?_eq_some]

/-! ## Valid tables -/

/-- Every key has a number of its own, and the table has an entry for it. -/
structure Valid (c : Classes) : Prop where
  lt_size : ∀ {k : ClassKey} {i : Nat}, c.ids[k]? = some i → i < c.table.size
  inj : ∀ {k₁ k₂ : ClassKey} {i : Nat}, c.ids[k₁]? = some i → c.ids[k₂]? = some i → k₁ = k₂

theorem valid_empty : empty.Valid := by
  constructor
  · intro k i h
    simp [empty] at h
  · intro k₁ k₂ i h
    simp [empty] at h

theorem find?_lt {c : Classes} (hc : c.Valid) {stored : List Nat} {e : Expr} {i : Nat}
    (h : c.find? stored e = some i) : i < c.table.size := by
  cases e with
  | node op shape args =>
    obtain ⟨ids, -, hkey⟩ := find?_node_eq_some.1 h
    exact hc.lt_size hkey

/-- The store counts that tell two reads of one local apart are part of the key. -/
theorem key_inj {σ τ : List Nat} {op₁ op₂ : Op} {s₁ s₂ : Shape} {ids₁ ids₂ : List Nat}
    (h : key σ op₁ s₁ ids₁ = key τ op₂ s₂ ids₂) :
    op₁ = op₂ ∧ s₁ = s₂ ∧ ids₁ = ids₂ ∧ ∀ l, op₁.local? = some l → σ.count l = τ.count l := by
  simp only [key, ClassKey.mk.injEq, Node.mk.injEq] at h
  obtain ⟨⟨hop, hs, hids⟩, hv⟩ := h
  refine ⟨hop, hs, hids, ?_⟩
  intro l hl
  rw [← hop, hl] at hv
  exact hv

/-- **What a number stands for.** Occurrences with one number are equal trees, and every local they
read has been stored equally often before both. -/
theorem find?_inj {c : Classes} (hc : c.Valid) {σ τ : List Nat} {e₁ e₂ : Expr} {i : Nat}
    (h₁ : c.find? σ e₁ = some i) (h₂ : c.find? τ e₂ = some i) :
    e₁ = e₂ ∧ ∀ l ∈ e₁.reads, σ.count l = τ.count l := by
  induction e₁ using Expr.induction generalizing e₂ i with
  | node op shape args ih =>
    obtain ⟨op₂, shape₂, args₂⟩ := e₂
    obtain ⟨ids₁, hids₁, hk₁⟩ := find?_node_eq_some.1 h₁
    obtain ⟨ids₂, hids₂, hk₂⟩ := find?_node_eq_some.1 h₂
    obtain ⟨rfl, rfl, rfl, hcount⟩ := key_inj (hc.inj hk₁ hk₂)
    -- the operands have the same numbers in the same order, so they are the same one by one
    have hargs : args = args₂ ∧ ∀ a ∈ args, ∀ l ∈ a.reads, σ.count l = τ.count l := by
      clear h₁ h₂ hk₁ hk₂ hcount
      induction hids₁ generalizing args₂ with
      | nil =>
        cases hids₂
        exact ⟨rfl, by simp⟩
      | @cons a j as js ha _ ihs =>
        cases hids₂ with
        | @cons b _ bs _ hb hbs =>
          obtain ⟨hab, hreads⟩ := ih a (List.mem_cons_self ..) ha hb
          obtain ⟨habs, hreads'⟩ := ihs (fun x hx => ih x (List.mem_cons_of_mem _ hx)) bs hbs
          refine ⟨by rw [hab, habs], ?_⟩
          intro x hx
          rcases List.mem_cons.1 hx with rfl | hx
          · exact hreads
          · exact hreads' x hx
    refine ⟨by rw [hargs.1], ?_⟩
    intro l hl
    rcases Expr.mem_reads_node.1 hl with hl | ⟨a, ha, hl⟩
    · exact hcount l hl
    · exact hargs.2 a ha l hl

/-! ## Giving numbers out -/

/-- Where a class was met first: the statement and the expression. -/
def origin? (c : Classes) (i : Nat) : Option (Nat × Expr) :=
  c.table[i]?.map fun s => (s.stmt, s.first)

/-- `c'` knows all that `c` knows: its numbers and where they come from. -/
structure Extends (c c' : Classes) : Prop where
  ids : ∀ {k : ClassKey} {i : Nat}, c.ids[k]? = some i → c'.ids[k]? = some i
  size_le : c.table.size ≤ c'.table.size
  origin : ∀ {i : Nat}, i < c.table.size → c'.origin? i = c.origin? i

theorem Extends.refl (c : Classes) : c.Extends c :=
  ⟨fun h => h, Nat.le_refl _, fun _ => rfl⟩

theorem Extends.trans {c₁ c₂ c₃ : Classes} (h : c₁.Extends c₂) (h' : c₂.Extends c₃) :
    c₁.Extends c₃ :=
  ⟨fun hk => h'.ids (h.ids hk), Nat.le_trans h.size_le h'.size_le,
    fun hi => (h'.origin (Nat.lt_of_lt_of_le hi h.size_le)).trans (h.origin hi)⟩

/-- A number stays when more are given out. -/
theorem Extends.find? {c c' : Classes} (h : c.Extends c') {σ : List Nat} {e : Expr} {i : Nat}
    (he : c.find? σ e = some i) : c'.find? σ e = some i := by
  induction e using Expr.induction generalizing i with
  | node op shape args ih =>
    obtain ⟨ids, hids, hk⟩ := find?_node_eq_some.1 he
    refine find?_node_eq_some.2 ⟨ids, ?_, h.ids hk⟩
    clear he hk
    induction hids with
    | nil => exact .nil
    | @cons a j as js ha _ ihs =>
      exact .cons (ih a (List.mem_cons_self ..) ha)
        (ihs fun x hx => ih x (List.mem_cons_of_mem _ hx))

/-- What one occurrence adds: its key has a number, and a number that is new comes from it. -/
theorem record_spec {c : Classes} (hc : c.Valid) (k : ClassKey) (stmt : Nat) (e : Expr) :
    (c.record k stmt e).1.Valid ∧ c.Extends (c.record k stmt e).1
      ∧ (c.record k stmt e).1.ids[k]? = some (c.record k stmt e).2
      ∧ ∀ i, c.table.size ≤ i → i < (c.record k stmt e).1.table.size →
          i = (c.record k stmt e).2 ∧ (c.record k stmt e).1.origin? i = some (stmt, e) := by
  obtain ⟨ids, table⟩ := c
  rw [record]
  dsimp only
  cases hk : ids[k]? with
  | some id =>
    dsimp only
    refine ⟨⟨?_, fun h₁ h₂ => hc.inj h₁ h₂⟩, ⟨fun h => h, ?_, ?_⟩, hk, ?_⟩
    · intro k i h
      rw [Array.size_modify]
      exact hc.lt_size h
    · exact Nat.le_of_eq Array.size_modify.symm
    · intro i hi
      -- counting an occurrence leaves the place where the class was met first
      simp only [origin?, Array.getElem?_modify]
      split
      · rw [Option.map_map]
        rfl
      · rfl
    · intro i h₁ h₂
      rw [Array.size_modify] at h₂
      exact absurd h₂ (Nat.not_lt.2 h₁)
  | none =>
    dsimp only
    refine ⟨⟨?_, ?_⟩, ⟨?_, ?_, ?_⟩, ?_, ?_⟩
    · intro k' i h
      rw [Std.HashMap.getElem?_insert] at h
      rw [Array.size_push]
      split at h
      · rw [Option.some.injEq] at h
        omega
      · exact Nat.lt_succ_of_lt (hc.lt_size h)
    · intro k₁ k₂ i h₁ h₂
      rw [Std.HashMap.getElem?_insert] at h₁ h₂
      -- the number of the new key is past all old ones
      split at h₁ <;> split at h₂
      · next e₁ e₂ => rw [← eq_of_beq e₁, ← eq_of_beq e₂]
      · exact absurd (Option.some.inj h₁ ▸ hc.lt_size h₂) (Nat.lt_irrefl _)
      · exact absurd (Option.some.inj h₂ ▸ hc.lt_size h₁) (Nat.lt_irrefl _)
      · exact hc.inj h₁ h₂
    · intro k' i h
      rw [Std.HashMap.getElem?_insert]
      split
      · next e =>
        rw [← eq_of_beq e, hk] at h
        cases h
      · exact h
    · rw [Array.size_push]
      exact Nat.le_succ _
    · intro i hi
      rw [origin?, origin?, Array.getElem?_push_lt hi, Array.getElem?_eq_getElem hi]
    · rw [Std.HashMap.getElem?_insert_self]
    · intro i h₁ h₂
      rw [Array.size_push] at h₂
      have hi : i = table.size := Nat.le_antisymm (Nat.lt_succ_iff.1 h₂) h₁
      subst hi
      exact ⟨rfl, by rw [origin?, Array.getElem?_push_size]; rfl⟩

/-- What numbering one expression adds: every subterm has a number, and every number that is new
comes from a subterm in this statement. -/
structure Numbers (c c' : Classes) (stored : List Nat) (stmt : Nat) (e : Expr) (id : Nat) :
    Prop where
  valid : c'.Valid
  grows : c.Extends c'
  number : c'.find? stored e = some id
  covers : ∀ x ∈ e.subterms, ∃ i, c'.find? stored x = some i
  fresh : ∀ i, c.table.size ≤ i → i < c'.table.size →
    ∃ x ∈ e.subterms, c'.origin? i = some (stmt, x) ∧ c'.find? stored x = some i

/-- The same for the operands of a node. -/
structure NumbersAll (c c' : Classes) (stored : List Nat) (stmt : Nat) (es : List Expr)
    (ids : List Nat) : Prop where
  valid : c'.Valid
  grows : c.Extends c'
  numbers : List.Forall₂ (fun e i => c'.find? stored e = some i) es ids
  covers : ∀ e ∈ es, ∀ x ∈ e.subterms, ∃ i, c'.find? stored x = some i
  fresh : ∀ i, c.table.size ≤ i → i < c'.table.size →
    ∃ e ∈ es, ∃ x ∈ e.subterms, c'.origin? i = some (stmt, x) ∧ c'.find? stored x = some i

theorem NumbersAll.nil {c : Classes} (hc : c.Valid) (stored : List Nat) (stmt : Nat) :
    NumbersAll c c stored stmt [] [] :=
  ⟨hc, .refl c, .nil, by simp, fun _ h₁ h₂ => absurd h₂ (Nat.not_lt.2 h₁)⟩

theorem NumbersAll.cons {c₁ c₂ c₃ : Classes} {stored : List Nat} {stmt : Nat} {e : Expr}
    {es : List Expr} {id : Nat} {ids : List Nat} (h : Numbers c₁ c₂ stored stmt e id)
    (hs : NumbersAll c₂ c₃ stored stmt es ids) :
    NumbersAll c₁ c₃ stored stmt (e :: es) (id :: ids) := by
  refine ⟨hs.valid, h.grows.trans hs.grows, .cons (hs.grows.find? h.number) hs.numbers, ?_, ?_⟩
  · intro a ha x hx
    rcases List.mem_cons.1 ha with rfl | ha
    · obtain ⟨i, hi⟩ := h.covers x hx
      exact ⟨i, hs.grows.find? hi⟩
    · exact hs.covers a ha x hx
  · intro i h₁ h₂
    by_cases hi : i < c₂.table.size
    · obtain ⟨x, hx, ho, hf⟩ := h.fresh i h₁ hi
      exact ⟨e, List.mem_cons_self .., x, hx, (hs.grows.origin hi).trans ho, hs.grows.find? hf⟩
    · obtain ⟨a, ha, x, hx, ho, hf⟩ := hs.fresh i (Nat.not_lt.1 hi) h₂
      exact ⟨a, List.mem_cons_of_mem _ ha, x, hx, ho, hf⟩

/-- The node over operands that have their numbers. -/
theorem NumbersAll.record {c₁ c₂ : Classes} {stored : List Nat} {stmt : Nat} {es : List Expr}
    {ids : List Nat} (h : NumbersAll c₁ c₂ stored stmt es ids) (op : Op) (shape : Shape) :
    Numbers c₁ (c₂.record (key stored op shape ids) stmt (.node op shape es)).1 stored stmt
      (.node op shape es) (c₂.record (key stored op shape ids) stmt (.node op shape es)).2 := by
  obtain ⟨hvalid, hgrows, hkey, hfresh⟩ :=
    record_spec h.valid (key stored op shape ids) stmt (.node op shape es)
  have hnumber := find?_node_eq_some.2 ⟨ids, h.numbers.imp fun _ _ hf => hgrows.find? hf, hkey⟩
  refine ⟨hvalid, h.grows.trans hgrows, hnumber, ?_, ?_⟩
  · intro x hx
    rcases Expr.mem_subterms_node.1 hx with rfl | ⟨a, ha, hx⟩
    · exact ⟨_, hnumber⟩
    · obtain ⟨i, hi⟩ := h.covers a ha x hx
      exact ⟨i, hgrows.find? hi⟩
  · intro i h₁ h₂
    by_cases hi : i < c₂.table.size
    · obtain ⟨a, ha, x, hx, ho, hf⟩ := h.fresh i h₁ hi
      exact ⟨x, Expr.mem_subterms_arg ha hx, (hgrows.origin hi).trans ho, hgrows.find? hf⟩
    · obtain ⟨rfl, ho⟩ := hfresh i (Nat.not_lt.1 hi) h₂
      exact ⟨_, Expr.mem_subterms_self _, ho, hnumber⟩

theorem visitAll_numbers {stored : List Nat} {stmt : Nat} {es : List Expr}
    (h : ∀ e ∈ es, ∀ {c : Classes}, c.Valid →
      Numbers c (c.visit stored stmt e).1 stored stmt e (c.visit stored stmt e).2)
    {c : Classes} (hc : c.Valid) :
    NumbersAll c (c.visitAll stored stmt es).1 stored stmt es (c.visitAll stored stmt es).2 := by
  induction es generalizing c with
  | nil => rw [visitAll]; exact .nil hc stored stmt
  | cons e es ih =>
    have he := h e (List.mem_cons_self ..) hc
    rw [visitAll]
    exact NumbersAll.cons he (ih (fun x hx => h x (List.mem_cons_of_mem _ hx)) he.valid)

theorem visit_numbers (stored : List Nat) (stmt : Nat) (e : Expr) {c : Classes} (hc : c.Valid) :
    Numbers c (c.visit stored stmt e).1 stored stmt e (c.visit stored stmt e).2 := by
  induction e using Expr.induction generalizing c with
  | node op shape args ih =>
    rw [visit]
    exact (visitAll_numbers ih hc).record op shape

theorem numbersAll_visitAll (stored : List Nat) (stmt : Nat) (es : List Expr) {c : Classes}
    (hc : c.Valid) :
    NumbersAll c (c.visitAll stored stmt es).1 stored stmt es (c.visitAll stored stmt es).2 :=
  visitAll_numbers (fun e _ => visit_numbers stored stmt e) hc

/-! ## The classes of a block -/

/-- The targets of the stores before statement `j`, the last one first, when the stores to `stored`
came before the block. -/
def history (stored : List Nat) (ss : List Assign) (j : Nat) : List Nat :=
  ((ss.take j).map Assign.target).reverse ++ stored

@[simp] theorem history_zero (stored : List Nat) (ss : List Assign) :
    history stored ss 0 = stored := rfl

@[simp] theorem history_cons_succ (stored : List Nat) (s : Assign) (ss : List Assign) (j : Nat) :
    history stored (s :: ss) (j + 1) = history (s.target :: stored) ss j := by
  simp [history]

/-- What numbering the statements from `stmt` on adds. A class that is new belongs to the statement
that is named as its origin, and no statement before that one has an occurrence of it. -/
structure NumbersStores (c c' : Classes) (stored : List Nat) (stmt : Nat) (result : Expr)
    (ss : List Assign) : Prop where
  valid : c'.Valid
  grows : c.Extends c'
  covers : ∀ {j e}, (ss.map Assign.value ++ [result])[j]? = some e →
    ∀ x ∈ e.subterms, ∃ i, c'.find? (history stored ss j) x = some i
  fresh : ∀ {i n x}, c.table.size ≤ i → c'.origin? i = some (n, x) →
    ∃ j e, n = stmt + j ∧ (ss.map Assign.value ++ [result])[j]? = some e ∧ x ∈ e.subterms
      ∧ c'.find? (history stored ss j) x = some i
      ∧ ∀ {j' e'}, j' < j → (ss.map Assign.value ++ [result])[j']? = some e' →
          ∀ y ∈ e'.subterms, c'.find? (history stored ss j') y ≠ some i

theorem origin?_lt {c : Classes} {i : Nat} {o : Nat × Expr} (h : c.origin? i = some o) :
    i < c.table.size := by
  obtain ⟨s, hs, -⟩ := Option.map_eq_some_iff.1 h
  exact (Array.getElem?_eq_some_iff.1 hs).1

theorem visitStores_numbers (result : Expr) (ss : List Assign) (stored : List Nat) (stmt : Nat)
    {c : Classes} (hc : c.Valid) :
    NumbersStores c (c.visitStores stored stmt result ss) stored stmt result ss := by
  induction ss generalizing stored stmt c with
  | nil =>
    have hv := visit_numbers stored stmt result hc
    rw [visitStores]
    refine ⟨hv.valid, hv.grows, ?_, ?_⟩
    · intro j e he x hx
      obtain ⟨rfl, rfl⟩ : j = 0 ∧ result = e := by
        cases j <;> simp_all
      exact hv.covers x hx
    · intro i n x hi ho
      obtain ⟨y, hy, hoy, hf⟩ := hv.fresh i hi (origin?_lt ho)
      obtain ⟨rfl, rfl⟩ := Prod.mk.inj (Option.some.inj (hoy.symm.trans ho))
      exact ⟨0, result, rfl, rfl, hy, hf, fun h => absurd h (Nat.not_lt_zero _)⟩
  | cons s ss ih =>
    have hv := visit_numbers stored stmt s.value hc
    have hs := ih (s.target :: stored) (stmt + 1) hv.valid
    rw [visitStores]
    refine ⟨hs.valid, hv.grows.trans hs.grows, ?_, ?_⟩
    · intro j e he x hx
      cases j with
      | zero =>
        obtain rfl : s.value = e := by simpa using he
        obtain ⟨i, hi⟩ := hv.covers x hx
        exact ⟨i, hs.grows.find? hi⟩
      | succ j =>
        rw [history_cons_succ]
        exact hs.covers (by simpa using he) x hx
    · intro i n x hi ho
      by_cases hlt : i < (c.visit stored stmt s.value).1.table.size
      · -- the class was met in this statement
        obtain ⟨y, hy, hoy, hf⟩ := hv.fresh i hi hlt
        rw [hs.grows.origin hlt, hoy] at ho
        obtain ⟨rfl, rfl⟩ := Prod.mk.inj (Option.some.inj ho)
        exact ⟨0, s.value, rfl, rfl, hy, hs.grows.find? hf, fun h => absurd h (Nat.not_lt_zero _)⟩
      · -- it was met later, and what this statement has is numbered below it
        obtain ⟨j, e, rfl, he, hx, hf, hbefore⟩ := hs.fresh (Nat.not_lt.1 hlt) ho
        refine ⟨j + 1, e, by omega, by simpa using he, hx, by rwa [history_cons_succ], ?_⟩
        intro j' e' hj' he' y hy
        cases j' with
        | zero =>
          obtain rfl : s.value = e' := by simpa using he'
          obtain ⟨i', hi'⟩ := hv.covers y hy
          have hlt' := find?_lt hv.valid hi'
          rw [history_zero, hs.grows.find? hi']
          rintro ⟨rfl⟩
          exact hlt hlt'
        | succ j' =>
          rw [history_cons_succ]
          exact hbefore (Nat.lt_of_succ_lt_succ hj') (by simpa using he') y hy

theorem ofBlock_numbers (b : Block) :
    NumbersStores empty (ofBlock b) [] 0 b.result b.stores :=
  visitStores_numbers b.result b.stores [] 0 valid_empty

/-- A class of a block was met first in the statement that it names, and no statement before that
one has an occurrence of it. -/
theorem ofBlock_first {b : Block} {i : Nat} {s : ShareClass}
    (h : (ofBlock b).table[i]? = some s) :
    ∃ e, b.exprs[s.stmt]? = some e ∧ s.first ∈ e.subterms
      ∧ (ofBlock b).find? (history [] b.stores s.stmt) s.first = some i
      ∧ ∀ {j e'}, j < s.stmt → b.exprs[j]? = some e' →
          ∀ y ∈ e'.subterms, (ofBlock b).find? (history [] b.stores j) y ≠ some i := by
  have horigin : (ofBlock b).origin? i = some (s.stmt, s.first) := by
    rw [origin?, h]
    rfl
  obtain ⟨j, e, hj, he, hmem, hfind, hbefore⟩ :=
    (ofBlock_numbers b).fresh (Nat.zero_le _) horigin
  rw [Nat.zero_add] at hj
  subst hj
  exact ⟨e, he, hmem, hfind, hbefore⟩

theorem stmt_le_length {b : Block} {i : Nat} {s : ShareClass}
    (h : (ofBlock b).table[i]? = some s) : s.stmt ≤ b.stores.length := by
  obtain ⟨e, he, -⟩ := ofBlock_first h
  have hlt := (List.getElem?_eq_some_iff.1 he).1
  rw [Block.exprs, List.length_append, List.length_map, List.length_singleton] at hlt
  omega

/-- What has the number of a class is what the class was met at first. -/
theorem eq_first_of_find? {b : Block} {i : Nat} {s : ShareClass}
    (h : (ofBlock b).table[i]? = some s) {stored : List Nat} {e : Expr}
    (he : (ofBlock b).find? stored e = some i) : e = s.first := by
  obtain ⟨-, -, -, hfirst, -⟩ := ofBlock_first h
  exact (find?_inj (ofBlock_numbers b).valid he hfirst).1

/-! ## The candidate -/

/-- A walk that counts classes and keeps one of those that it has met: either the one kept before or
the one it looks at, if that passes a test. What it keeps passes the test and has the number under
which it was met. -/
theorem foldl_kept {test : ShareClass → Bool}
    {f : Nat × Option (Nat × ShareClass) → ShareClass → Nat × Option (Nat × ShareClass)}
    (hcount : ∀ best s, (f best s).1 = best.1 + 1)
    (hkept : ∀ best s, (f best s).2 = best.2 ∨ (test s = true ∧ (f best s).2 = some (best.1, s)))
    (rest before : List ShareClass) (best : Option (Nat × ShareClass))
    (hbest : ∀ p, best = some p → before[p.1]? = some p.2 ∧ test p.2 = true) {p : Nat × ShareClass}
    (hp : (rest.foldl f (before.length, best)).2 = some p) :
    (before ++ rest)[p.1]? = some p.2 ∧ test p.2 = true := by
  induction rest generalizing before best with
  | nil =>
    rw [List.append_nil]
    exact hbest p hp
  | cons s rest ih =>
    have hstart : f (before.length, best) s =
        ((before ++ [s]).length, (f (before.length, best) s).2) := by
      refine Prod.ext ?_ rfl
      rw [hcount, List.length_append, List.length_singleton]
    rw [List.foldl_cons, hstart] at hp
    rw [List.append_cons]
    refine ih (before ++ [s]) _ (fun q hq => ?_) hp
    rcases hkept (before.length, best) s with hsame | ⟨htest, hnew⟩
    · obtain ⟨hget, hcand⟩ := hbest q (hsame.symm.trans hq)
      refine ⟨?_, hcand⟩
      rw [List.getElem?_append_left (List.getElem?_eq_some_iff.1 hget).1, hget]
    · obtain rfl := Option.some.inj (hnew.symm.trans hq)
      exact ⟨by simp, htest⟩

/-- The candidate is a class of the table that is worth a local. -/
theorem candidate?_spec {c : Classes} {minWeight target : Nat} {s : ShareClass}
    (h : c.candidate? minWeight = some (target, s)) :
    c.table[target]? = some s ∧ isCandidate minWeight s = true := by
  rw [candidate?, ← Array.foldl_toList] at h
  have hspec : ([] ++ c.table.toList)[target]? = some s ∧ isCandidate minWeight s = true := by
    refine foldl_kept ?_ ?_ c.table.toList [] none (fun p hp => by cases hp) h
    · exact fun best s => rfl
    · intro best s
      by_cases htest : isCandidate minWeight s = true
      · exact (ite_eq_or_eq _ _ _).symm.imp_right fun hnew => ⟨htest, hnew⟩
      · exact .inl (by simp [htest])
  simpa using hspec

/-! ## Replacing -/

theorem replaceAll_fst (c : Classes) (target fresh : Nat) (stored : List Nat) (es : List Expr) :
    (c.replaceAll target fresh stored es).1
      = es.map fun e => (c.replace target fresh stored e).1 := by
  induction es with
  | nil => rw [replaceAll, List.map_nil]
  | cons e es ih => rw [replaceAll, List.map_cons, ← ih]

theorem replaceAll_snd {c : Classes} {target fresh : Nat} {stored : List Nat} {es : List Expr}
    (h : ∀ e ∈ es, (c.replace target fresh stored e).2 = c.find? stored e) :
    (c.replaceAll target fresh stored es).2 = es.mapM (c.find? stored) := by
  induction es with
  | nil => rw [replaceAll, List.mapM_nil]; rfl
  | cons e es ih =>
    rw [replaceAll, List.mapM_cons, ← ih fun x hx => h x (List.mem_cons_of_mem _ hx),
      ← h e (List.mem_cons_self ..)]
    dsimp only
    cases (c.replace target fresh stored e).2 with
    | none => rfl
    | some i => cases (c.replaceAll target fresh stored es).2 <;> rfl

/-- Replacing finds the number that looking it up finds. -/
theorem replace_snd (c : Classes) (target fresh : Nat) (stored : List Nat) (e : Expr) :
    (c.replace target fresh stored e).2 = c.find? stored e := by
  induction e using Expr.induction with
  | node op shape args ih =>
    rw [replace, find?_node, ← replaceAll_snd ih]
    dsimp only
    split <;> rfl

end Classes

namespace Expr

/-- Read the local `fresh` in place of every subterm that `p` picks out. -/
def readInstead (p : Expr → Bool) (fresh : Nat) : Expr → Expr :=
  fold fun op shape args args' =>
    if p (.node op shape args) then .node (.load .local fresh) shape [] else .node op shape args'

theorem readInstead_node (p : Expr → Bool) (fresh : Nat) (op : Op) (shape : Shape)
    (args : List Expr) :
    readInstead p fresh (.node op shape args)
      = if p (.node op shape args) then .node (.load .local fresh) shape []
        else .node op shape (args.map (readInstead p fresh)) := by
  rw [readInstead, fold_node]

/-- Nothing is replaced where nothing is picked out. -/
theorem readInstead_eq_self {p : Expr → Bool} {fresh : Nat} {e : Expr}
    (h : ∀ x ∈ e.subterms, p x = false) : e.readInstead p fresh = e := by
  induction e using Expr.induction with
  | node op shape args ih =>
    rw [readInstead_node, h _ (mem_subterms_self _), if_neg Bool.false_ne_true]
    congr 1
    refine (List.map_congr_left fun a ha => ?_).trans (List.map_id args)
    exact ih a ha fun x hx => h x (mem_subterms_arg ha hx)

end Expr

namespace Classes

/-- Whether an expression met after the stores to `stored` is an occurrence of class `target`. -/
def isOccurrence (c : Classes) (target : Nat) (stored : List Nat) (e : Expr) : Bool :=
  c.find? stored e == some target

theorem replace_fst (c : Classes) (target fresh : Nat) (stored : List Nat) (e : Expr) :
    (c.replace target fresh stored e).1 = e.readInstead (c.isOccurrence target stored) fresh := by
  induction e using Expr.induction with
  | node op shape args ih =>
    have hid := c.replace_snd target fresh stored (.node op shape args)
    rw [Expr.readInstead_node, isOccurrence, ← hid]
    rw [replace] at hid ⊢
    dsimp only at hid ⊢
    split
    · next h => rw [if_pos (by simpa using h)]
    · next h =>
      rw [if_neg (by simpa using h), replaceAll_fst]
      exact congrArg _ (List.map_congr_left ih)

end Classes

end Arithmetization
