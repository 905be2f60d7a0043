import Arithmetization.Proofs.Repetition
import Mathlib.Data.List.Nodup

/-!
Where expressions stand in a block.

A path leads from an expression to one inside it: it says node by node which operand to go to. An
address is a statement and a path. Unlike an occurrence, which is a tree and the stores before it,
an address is a point of the text: a tree that stands twice in one statement has two addresses and
one occurrence.

`Block.map_occurrence?_addresses` goes from one to the other: the occurrences of a block are what
stands at its addresses, one by one and in the same order. So counting occurrences is counting
addresses. `Expr.sub?_readInstead` says what stands at an address after expressions have been
replaced by reads.
-/

set_option autoImplicit false

namespace Arithmetization

/-- Lists that are numbered and then told apart by their numbers have no entry in common. -/
theorem nodup_flatMap_zipIdx {α β γ : Type} {f : α → List β} (g : Nat → β → γ)
    (hg : ∀ {i j x y}, g i x = g j y → i = j ∧ x = y) {xs : List α} (h : ∀ x ∈ xs, (f x).Nodup) :
    (xs.zipIdx.flatMap fun x => (f x.1).map (g x.2)).Nodup := by
  refine List.nodup_flatMap.2 ⟨?_, ?_⟩
  · intro x hx
    exact (h x.1 (List.fst_mem_of_mem_zipIdx hx)).map fun _ _ heq => (hg heq).2
  · have hindex : (xs.zipIdx.map Prod.snd).Nodup := by
      rw [List.zipIdx_map_snd]
      exact List.nodup_range'
    refine (List.pairwise_map.1 hindex).imp ?_
    intro a b hne z hza hzb
    obtain ⟨x, -, rfl⟩ := List.mem_map.1 hza
    obtain ⟨y, -, hxy⟩ := List.mem_map.1 hzb
    exact hne (hg hxy).1.symm

namespace Expr

/-! ## Paths -/

/-- The expression at the end of a path. -/
def sub? : Expr → List Nat → Option Expr
  | e, [] => some e
  | .node _ _ args, i :: path => args[i]?.bind fun a => a.sub? path

@[simp] theorem sub?_nil (e : Expr) : e.sub? [] = some e := by
  cases e
  rfl

theorem sub?_cons (op : Op) (shape : Shape) (args : List Expr) (i : Nat) (path : List Nat) :
    sub? (.node op shape args) (i :: path) = args[i]?.bind fun a => a.sub? path := rfl

theorem sub?_cons_eq_some {op : Op} {shape : Shape} {args : List Expr} {i : Nat}
    {path : List Nat} {x : Expr} :
    sub? (.node op shape args) (i :: path) = some x ↔
      ∃ a, args[i]? = some a ∧ a.sub? path = some x :=
  Option.bind_eq_some_iff

/-- A path that goes on where another one ends. -/
theorem sub?_append (e : Expr) (path rest : List Nat) :
    e.sub? (path ++ rest) = (e.sub? path).bind fun x => x.sub? rest := by
  induction path generalizing e with
  | nil => rw [List.nil_append, sub?_nil, Option.bind_some]
  | cons i path ih =>
    obtain ⟨op, shape, args⟩ := e
    rw [List.cons_append, sub?_cons, sub?_cons, Option.bind_assoc]
    simp only [ih]

theorem mem_subterms_of_sub? {e x : Expr} {path : List Nat} (h : e.sub? path = some x) :
    x ∈ e.subterms := by
  induction path generalizing e with
  | nil =>
    obtain rfl := Option.some.inj ((sub?_nil e).symm.trans h)
    exact mem_subterms_self e
  | cons i path ih =>
    obtain ⟨op, shape, args⟩ := e
    obtain ⟨a, ha, hx⟩ := sub?_cons_eq_some.1 h
    exact mem_subterms_arg (List.mem_of_getElem? ha) (ih hx)

/-- What stands below an expression is another one. -/
theorem ne_of_sub?_cons {e x : Expr} {i : Nat} {path : List Nat}
    (h : e.sub? (i :: path) = some x) : e ≠ x := by
  rintro rfl
  obtain ⟨op, shape, args⟩ := e
  obtain ⟨a, ha, hx⟩ := sub?_cons_eq_some.1 h
  exact node_notMem_subterms_arg (List.mem_of_getElem? ha) (mem_subterms_of_sub? hx)

/-- The paths to all expressions inside an expression. -/
def paths : Expr → List (List Nat) :=
  fold fun _ _ _ ps => [] :: ps.zipIdx.flatMap fun p => p.1.map (p.2 :: ·)

theorem paths_node (op : Op) (shape : Shape) (args : List Expr) :
    paths (.node op shape args)
      = [] :: args.zipIdx.flatMap fun a => (paths a.1).map (a.2 :: ·) := by
  rw [paths, fold_node, ← paths, List.zipIdx_map, List.flatMap_map]
  rfl

theorem mem_paths {e : Expr} {path : List Nat} : path ∈ e.paths ↔ (e.sub? path).isSome := by
  induction path generalizing e with
  | nil =>
    obtain ⟨op, shape, args⟩ := e
    simp [paths_node]
  | cons i path ih =>
    obtain ⟨op, shape, args⟩ := e
    rw [paths_node, sub?_cons]
    simp only [List.mem_cons, reduceCtorEq, false_or, List.mem_flatMap, List.mem_map,
      List.cons.injEq, Prod.exists, List.mem_zipIdx_iff_getElem?]
    constructor
    · rintro ⟨a, j, ha, p, hp, rfl, rfl⟩
      rw [ha, Option.bind_some]
      exact ih.1 hp
    · intro h
      obtain ⟨x, hx⟩ := Option.isSome_iff_exists.1 h
      obtain ⟨a, ha, hax⟩ := Option.bind_eq_some_iff.1 hx
      exact ⟨a, i, ha, path, ih.2 (hax ▸ rfl), rfl, rfl⟩

theorem nodup_paths (e : Expr) : e.paths.Nodup := by
  induction e using Expr.induction with
  | node op shape args ih =>
    rw [paths_node, List.nodup_cons]
    refine ⟨by simp, nodup_flatMap_zipIdx List.cons ?_ ih⟩
    intro i j p q h
    exact List.cons.inj h

/-- The subterms are what the paths lead to. -/
theorem map_sub?_paths (e : Expr) : e.paths.map e.sub? = e.subterms.map some := by
  induction e using Expr.induction with
  | node op shape args ih =>
    have hargs : args.flatMap subterms = args.zipIdx.flatMap fun a => a.1.subterms := by
      conv_lhs => rw [← List.zipIdx_map_fst 0 args, List.flatMap_map]
    rw [paths_node, subterms_node, hargs, List.map_cons, List.map_cons, sub?_nil,
      List.map_flatMap, List.map_flatMap]
    congr 1
    refine List.flatMap_congr ?_
    rintro ⟨a, i⟩ ha
    have hget : args[i]? = some a := List.mem_zipIdx_iff_getElem?.1 ha
    rw [← ih a (List.mem_of_getElem? hget), List.map_map]
    refine List.map_congr_left fun path _ => ?_
    rw [Function.comp_apply, sub?_cons, hget, Option.bind_some]

theorem exists_sub?_of_mem_subterms {e x : Expr} (h : x ∈ e.subterms) :
    ∃ path, e.sub? path = some x := by
  have hx : some x ∈ e.paths.map e.sub? := by
    rw [map_sub?_paths]
    exact List.mem_map_of_mem h
  obtain ⟨path, -, hpath⟩ := List.mem_map.1 hx
  exact ⟨path, hpath⟩

/-- Where nothing above is picked out, the replacement acts on what stands there. -/
theorem sub?_readInstead {pick : Expr → Bool} {fresh : Nat} {e : Expr} {path : List Nat}
    (h : ∀ above, above <+: path → above ≠ path → ∀ x ∈ e.sub? above, pick x = false) :
    (e.readInstead pick fresh).sub? path = (e.sub? path).map (readInstead pick fresh) := by
  induction path generalizing e with
  | nil => rw [sub?_nil, sub?_nil, Option.map_some]
  | cons i path ih =>
    have hself := h [] List.nil_prefix (by simp) e (sub?_nil e)
    obtain ⟨op, shape, args⟩ := e
    rw [readInstead_node, hself, if_neg Bool.false_ne_true, sub?_cons, sub?_cons,
      List.getElem?_map]
    cases ha : args[i]? with
    | none => rfl
    | some a =>
      rw [Option.map_some, Option.bind_some, Option.bind_some]
      refine ih fun above habove hne x hx => ?_
      refine h (i :: above) (List.cons_prefix_cons.2 ⟨rfl, habove⟩) (by simpa using hne) x ?_
      rw [Option.mem_def, sub?_cons, ha, Option.bind_some]
      exact hx

end Expr

/-! ## Addresses -/

/-- A statement of a block and a path in it. The statement after the last store is the result. -/
structure Address where
  stmt : Nat
  path : List Nat
deriving DecidableEq, Repr

namespace Block

/-- The expression at an address. -/
def sub? (b : Block) (q : Address) : Option Expr :=
  b.exprs[q.stmt]?.bind fun e => e.sub? q.path

/-- The occurrence at an address. -/
def occurrence? (b : Block) (q : Address) : Option Occurrence :=
  (b.sub? q).map (⟨Classes.history [] b.stores q.stmt, ·⟩)

/-- The addresses of a block. -/
def addresses (b : Block) : List Address :=
  b.exprs.zipIdx.flatMap fun e => e.1.paths.map (⟨e.2, ·⟩)

theorem sub?_eq_some {b : Block} {q : Address} {x : Expr} :
    b.sub? q = some x ↔ ∃ e, b.exprs[q.stmt]? = some e ∧ e.sub? q.path = some x :=
  Option.bind_eq_some_iff

theorem mem_addresses {b : Block} {q : Address} : q ∈ b.addresses ↔ (b.sub? q).isSome := by
  obtain ⟨j, path⟩ := q
  rw [addresses, Option.isSome_iff_exists]
  simp only [List.mem_flatMap, List.mem_map, Prod.exists, List.mem_zipIdx_iff_getElem?,
    Address.mk.injEq, Expr.mem_paths, sub?_eq_some]
  constructor
  · rintro ⟨e, i, he, p, hp, rfl, rfl⟩
    obtain ⟨x, hx⟩ := Option.isSome_iff_exists.1 hp
    exact ⟨x, e, he, hx⟩
  · rintro ⟨x, e, he, hx⟩
    exact ⟨e, j, he, path, hx ▸ rfl, rfl, rfl⟩

theorem nodup_addresses (b : Block) : b.addresses.Nodup := by
  refine nodup_flatMap_zipIdx Address.mk ?_ fun e _ => Expr.nodup_paths e
  intro i j p q h
  exact Address.mk.inj h

/-- The occurrences of a block, statement by statement. -/
theorem occurrencesFrom_eq (result : Expr) (stored : List Nat) (ss : List Assign) :
    occurrencesFrom result stored ss
      = (ss.map Assign.value ++ [result]).zipIdx.flatMap fun e =>
          e.1.subterms.map (⟨Classes.history stored ss e.2, ·⟩) := by
  induction ss generalizing stored with
  | nil => simp [occurrencesFrom]
  | cons s ss ih =>
    rw [occurrencesFrom, ih, List.map_cons, List.cons_append, List.zipIdx_cons, List.zipIdx_succ,
      List.flatMap_cons, List.flatMap_map]
    simp only [Classes.history_zero, Classes.history_cons_succ]

/-- **What stands at the addresses are the occurrences.** -/
theorem map_occurrence?_addresses (b : Block) :
    b.addresses.map b.occurrence? = b.occurrences.map some := by
  rw [occurrences, occurrencesFrom_eq, addresses, exprs, List.map_flatMap, List.map_flatMap]
  refine List.flatMap_congr ?_
  rintro ⟨e, j⟩ he
  have hget : b.exprs[j]? = some e := List.mem_zipIdx_iff_getElem?.1 he
  have hsub : ∀ path, b.occurrence? ⟨j, path⟩
      = (e.sub? path).map (⟨Classes.history [] b.stores j, ·⟩) := by
    intro path
    rw [occurrence?, sub?, hget, Option.bind_some]
  have hpaths := congrArg (List.map (Option.map (Occurrence.mk (Classes.history [] b.stores j))))
    e.map_sub?_paths
  simpa only [List.map_map, Function.comp_def, hsub, Option.map_some] using hpaths

/-- Counting occurrences is counting addresses. -/
theorem countP_occurrences (b : Block) (p : Occurrence → Bool) :
    b.occurrences.countP p = b.addresses.countP fun q => (b.occurrence? q).any p := by
  have hsome : b.occurrences.countP p = (b.occurrences.map some).countP (Option.any p) := by
    rw [List.countP_map]
    rfl
  rw [hsome, ← map_occurrence?_addresses, List.countP_map]
  rfl

end Block

end Arithmetization
