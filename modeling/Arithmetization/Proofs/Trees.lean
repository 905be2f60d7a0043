import Arithmetization.Body.Basic
import Mathlib.Data.List.Induction

/-!
Arenas and the trees they stand for.

A node is only ever appended, and the forward pass that unfolds an arena into trees reads a node
after all the nodes before it. So appending never changes the tree of an earlier node, and storing a
tree gives a node that unfolds to that tree again. The main result is `Block.toBody_block`: laying a
block out as a body and unfolding it changes nothing. What is proved about blocks is therefore
proved about the bodies that are made from them.
-/

set_option autoImplicit false

namespace Arithmetization

namespace Arena

/-! ## Growing an arena -/

/-- `b` has all nodes of `a`, with the trees they have in `a`. -/
structure Grows (a b : Arena) : Prop where
  size_le : a.size ≤ b.size
  get_eq : ∀ id < a.size, b.get id = a.get id
  expr_eq : ∀ id < a.size, b.expr id = a.expr id

theorem Grows.refl (a : Arena) : a.Grows a :=
  ⟨Nat.le_refl _, fun _ _ => rfl, fun _ _ => rfl⟩

theorem Grows.trans {a b c : Arena} (hab : a.Grows b) (hbc : b.Grows c) : a.Grows c := by
  refine ⟨Nat.le_trans hab.size_le hbc.size_le, ?_, ?_⟩
  · intro id hid
    rw [hbc.get_eq id (Nat.lt_of_lt_of_le hid hab.size_le), hab.get_eq id hid]
  · intro id hid
    rw [hbc.expr_eq id (Nat.lt_of_lt_of_le hid hab.size_le), hab.expr_eq id hid]

/-- The forward pass over one more node adds the tree of that node. -/
theorem exprs_push (a : Arena) (op : Op) (shape : Shape) (args : List Nat) :
    (a.push op shape args).1.exprs = a.exprs.push (unfold a.exprs ⟨op, shape, args⟩) := by
  simp only [exprs, push, Array.foldl_push]

theorem expr_push_of_lt (a : Arena) (op : Op) (shape : Shape) (args : List Nat) {id : Nat}
    (h : id < a.size) : (a.push op shape args).1.expr id = a.expr id := by
  rw [← size_exprs] at h
  rw [expr, expr, exprs_push, Array.getD_eq_getD_getElem?, Array.getD_eq_getD_getElem?,
    Array.getElem?_push_lt h, Array.getElem?_eq_getElem h]

/-- The new node unfolds over the trees of its operands. -/
theorem expr_push_self (a : Arena) (op : Op) (shape : Shape) (args : List Nat) :
    (a.push op shape args).1.expr a.size = .node op shape (args.map a.expr) := by
  rw [expr, exprs_push, ← size_exprs, Array.getD_eq_getD_getElem?, Array.getElem?_push_size]
  rfl

theorem grows_push (a : Arena) (op : Op) (shape : Shape) (args : List Nat) :
    a.Grows (a.push op shape args).1 := by
  refine ⟨?_, fun id hid => a.get_push_of_lt op shape args hid,
    fun id hid => a.expr_push_of_lt op shape args hid⟩
  rw [size_push]
  exact Nat.le_succ _

/-- Every arena is made by pushes. -/
@[elab_as_elim]
theorem push_induction {P : Arena → Prop} (empty : P .empty)
    (push : ∀ a op shape args, P a → P (a.push op shape args).1) (a : Arena) : P a := by
  obtain ⟨⟨nodes⟩⟩ := a
  induction nodes using List.reverseRecOn with
  | nil => exact empty
  | append_singleton nodes m ih =>
    have hlast : (⟨⟨nodes ++ [m]⟩⟩ : Arena) = (Arena.push ⟨⟨nodes⟩⟩ m.op m.shape m.args).1 := by
      simp [Arena.push]
    rw [hlast]
    exact push _ _ _ _ ih

/-- The tree of a node has its operator and its shape. -/
theorem expr_op_shape (a : Arena) {id : Nat} (h : id < a.size) :
    (a.expr id).op = (a.get id).op ∧ (a.expr id).shape = a.shape id := by
  induction a using push_induction with
  | empty => cases h
  | push a op s args ih =>
    rw [size_push] at h
    rcases Nat.lt_succ_iff_lt_or_eq.1 h with h | rfl
    · rw [expr_push_of_lt _ _ _ _ h, shape, get_push_of_lt _ _ _ _ h]
      exact ih h
    · rw [expr_push_self, shape, get_push_self]
      exact ⟨rfl, rfl⟩

theorem map_shape_expr {a : Arena} {ids : List Nat} (h : ∀ id ∈ ids, id < a.size) :
    (ids.map a.expr).map Expr.shape = ids.map a.shape := by
  rw [List.map_map]
  exact List.map_congr_left fun id hid => (a.expr_op_shape (h id hid)).2

/-! ## Storing trees -/

/-- What storing a list of trees does: the arena grows, and the nodes handed out unfold to the
trees. -/
structure Stores (a b : Arena) (es : List Expr) (ids : List Nat) : Prop where
  grows : a.Grows b
  lt : ∀ id ∈ ids, id < b.size
  trees : ids.map b.expr = es

theorem Stores.nil (a : Arena) : a.Stores a [] [] :=
  ⟨.refl a, by simp, rfl⟩

theorem Stores.cons {a b c : Arena} {e : Expr} {es : List Expr} {id : Nat} {ids : List Nat}
    (he : a.Stores b [e] [id]) (hes : b.Stores c es ids) : a.Stores c (e :: es) (id :: ids) := by
  have hid : id < b.size := he.lt id (List.mem_singleton.2 rfl)
  have htree : b.expr id = e := by simpa using he.trees
  refine ⟨he.grows.trans hes.grows, ?_, ?_⟩
  · intro i hi
    rcases List.mem_cons.1 hi with rfl | hi
    · exact Nat.lt_of_lt_of_le hid hes.grows.size_le
    · exact hes.lt i hi
  · rw [List.map_cons, hes.trees, hes.grows.expr_eq id hid, htree]

/-- What was there before may be left out of account. -/
theorem Stores.of_grows {a b c : Arena} {es : List Expr} {ids : List Nat} (hab : a.Grows b)
    (h : b.Stores c es ids) : a.Stores c es ids :=
  ⟨hab.trans h.grows, h.lt, h.trees⟩

theorem Stores.shapes {a b : Arena} {es : List Expr} {ids : List Nat} (h : a.Stores b es ids) :
    ids.map b.shape = es.map Expr.shape := by
  rw [← map_shape_expr h.lt, h.trees]

/-- Storing operands and then the node over them stores the whole tree. -/
theorem Stores.push {a b : Arena} {es : List Expr} {ids : List Nat} (h : a.Stores b es ids)
    (op : Op) (shape : Shape) :
    a.Stores (b.push op shape ids).1 [.node op shape es] [(b.push op shape ids).2] := by
  refine ⟨h.grows.trans (b.grows_push op shape ids), ?_, ?_⟩
  · intro id hid
    rw [List.mem_singleton.1 hid, size_push]
    exact Nat.lt_succ_self _
  · show [(b.push op shape ids).1.expr b.size] = _
    rw [expr_push_self, h.trees]

theorem insertAll_stores {es : List Expr} (h : ∀ e ∈ es, ∀ a : Arena,
    a.Stores (a.insert e).1 [e] [(a.insert e).2]) (a : Arena) :
    a.Stores (a.insertAll es).1 es (a.insertAll es).2 := by
  induction es generalizing a with
  | nil => rw [insertAll]; exact .nil a
  | cons e es ih =>
    rw [insertAll]
    exact (h e (List.mem_cons_self ..) a).cons
      (ih (fun x hx => h x (List.mem_cons_of_mem _ hx)) _)

/-- A stored tree unfolds to itself. -/
theorem insert_stores (e : Expr) (a : Arena) : a.Stores (a.insert e).1 [e] [(a.insert e).2] := by
  induction e using Expr.induction generalizing a with
  | node op shape args ih =>
    rw [insert]
    exact (insertAll_stores ih a).push op shape

theorem grows_insert (e : Expr) (a : Arena) : a.Grows (a.insert e).1 :=
  (insert_stores e a).grows

theorem expr_insert (e : Expr) (a : Arena) : (a.insert e).1.expr (a.insert e).2 = e := by
  simpa using (insert_stores e a).trees

theorem insert_lt (e : Expr) (a : Arena) : (a.insert e).2 < (a.insert e).1.size :=
  (insert_stores e a).lt _ (List.mem_singleton.2 rfl)

end Arena

/-! ## Blocks and bodies -/

namespace Body

/-- The assignment that a store of a body stands for. -/
def assign (a : Arena) (s : Store) : Assign :=
  ⟨s.target, a.expr s.value⟩

theorem block_eq (b : Body) :
    b.block = ⟨b.locals, b.stores.map (assign b.arena), b.arena.expr b.result⟩ := rfl

end Body

namespace Block

theorem insertStores_spec (ss : List Assign) (a : Arena) :
    a.Grows (insertStores a ss).1
      ∧ (∀ s ∈ (insertStores a ss).2, s.value < (insertStores a ss).1.size)
      ∧ (insertStores a ss).2.map (Body.assign (insertStores a ss).1) = ss := by
  induction ss generalizing a with
  | nil => exact ⟨.refl a, by simp [insertStores], rfl⟩
  | cons s ss ih =>
    obtain ⟨hgrows, hlt, hmap⟩ := ih (a.insert s.value).1
    have hid := a.insert_lt s.value
    rw [insertStores]
    refine ⟨(a.grows_insert s.value).trans hgrows, ?_, ?_⟩
    · intro t ht
      rcases List.mem_cons.1 ht with rfl | ht
      · exact Nat.lt_of_lt_of_le hid hgrows.size_le
      · exact hlt t ht
    · show Body.assign _ _ :: _ = _
      rw [hmap, Body.assign, hgrows.expr_eq _ hid, a.expr_insert]

/-- **Laying out and unfolding.** The body made from a block has the trees of the block. -/
theorem toBody_block (b : Block) : b.toBody.block = b := by
  obtain ⟨-, hlt, hmap⟩ := insertStores_spec b.stores .empty
  have hgrows := (insertStores .empty b.stores).1.grows_insert b.result
  have hstores : (insertStores .empty b.stores).2.map
      (Body.assign ((insertStores .empty b.stores).1.insert b.result).1) = b.stores := by
    refine Eq.trans ?_ hmap
    refine List.map_congr_left fun s hs => ?_
    rw [Body.assign, Body.assign, hgrows.expr_eq _ (hlt s hs)]
  rw [Body.block_eq]
  show Block.mk b.locals _ _ = b
  simp only [toBody]
  rw [hstores, Arena.expr_insert]

end Block

end Arithmetization
