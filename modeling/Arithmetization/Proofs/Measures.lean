import Arithmetization.Proofs.Sharing
import Mathlib.Algebra.GroupWithZero.Nat
import Mathlib.Algebra.Order.BigOperators.Group.List
import Mathlib.Algebra.Order.Group.Nat

/-!
Sums over the nodes of expressions and blocks.

How many nodes a block has, how many of them are operations, how many additions, products and
inversions it takes: all of these are sums over nodes. What one node adds depends on its operator,
its shape, and on no more of its operands than the outline that a local in their place has too. This
is a `Measure`.

Sharing acts on all measures alike. Reading a local in place of an expression takes away every copy
of it and puts a read there (`Measure.expr_readInstead`); renumbering locals changes nothing
(`Measure.expr_renumberExpr`); the normal form drops statements and adds none
(`Measure.normalize_le`).
-/

set_option autoImplicit false

namespace Arithmetization

namespace Expr

/-! ## Sizes -/

theorem foldl_add_eq (ns : List Nat) (n : Nat) : ns.foldl (· + ·) n = n + ns.sum := by
  induction ns generalizing n with
  | nil => rfl
  | cons m ns ih => rw [List.foldl_cons, ih, List.sum_cons, Nat.add_assoc]

theorem operations_node (op : Op) (shape : Shape) (args : List Expr) :
    operations (.node op shape args)
      = (if op.isTrivial then 0 else 1) + (args.map operations).sum := by
  rw [operations, fold_node, foldl_add_eq]

theorem subterms_node (op : Op) (shape : Shape) (args : List Expr) :
    subterms (.node op shape args) = .node op shape args :: args.flatMap subterms := by
  rw [subterms, fold_node, List.flatMap_def]

theorem operations_pos {e : Expr} (h : e.op.isTrivial = false) : 0 < e.operations := by
  obtain ⟨op, shape, args⟩ := e
  have htrivial : ¬op.isTrivial = true := Bool.eq_false_iff.1 h
  rw [operations_node, if_neg htrivial]
  omega

/-! ## Outlines -/

/-- What the node above an expression may know of it: its shape, and its number if it can stand
above a power. -/
def outline (e : Expr) : Shape × Option Exponent :=
  (e.shape, e.exponent?)

theorem shape_readInstead (p : Expr → Bool) (fresh : Nat) (e : Expr) :
    (e.readInstead p fresh).shape = e.shape := by
  obtain ⟨op, s, args⟩ := e
  rw [readInstead_node]
  split <;> rfl

theorem outline_readInstead {p : Expr → Bool} {fresh : Nat}
    (hp : ∀ x, p x = true → x.op.isTrivial = false) (e : Expr) :
    (e.readInstead p fresh).outline = e.outline := by
  rw [outline, shape_readInstead, exponent?_readInstead hp, outline]

theorem shape_renumberExpr (kept : List Nat) (e : Expr) :
    (Block.renumberExpr kept e).shape = e.shape := by
  obtain ⟨op, s, args⟩ := e
  rw [Block.renumberExpr_node]
  rfl

theorem outline_renumberExpr (kept : List Nat) (e : Expr) :
    (Block.renumberExpr kept e).outline = e.outline := by
  rw [outline, shape_renumberExpr, Block.exponent?_renumberExpr, outline]

end Expr

/-! ## Measures -/

/-- What a node adds to a sum over all nodes. -/
structure Measure where
  node : Op → Shape → List Expr → Nat
  /-- What the read of a local of a given shape adds. -/
  read : Shape → Nat
  node_read : ∀ (l : Nat) (s : Shape) (args : List Expr), node (.load .local l) s args = read s
  node_congr : ∀ (op : Op) (s : Shape) (args args' : List Expr),
    args.map Expr.outline = args'.map Expr.outline → node op s args = node op s args'

namespace Measure

/-- The sum over the nodes of an expression. -/
def expr (M : Measure) : Expr → Nat :=
  Expr.fold fun op shape args ns => ns.foldl (· + ·) (M.node op shape args)

/-- The sum over the nodes of all statements. -/
def block (M : Measure) (b : Block) : Nat :=
  b.exprs.foldl (fun n e => n + M.expr e) 0

/-- Every node counts. -/
def nodes : Measure where
  node _ _ _ := 1
  read _ := 1
  node_read _ _ _ := rfl
  node_congr _ _ _ _ _ := rfl

/-- Nodes that are no literal, load or segment count. -/
def operations : Measure where
  node op _ _ := if op.isTrivial then 0 else 1
  read _ := 0
  node_read _ _ _ := rfl
  node_congr _ _ _ _ _ := rfl

theorem nodes_block (b : Block) : nodes.block b = b.weight := rfl

theorem operations_block (b : Block) : operations.block b = b.operations := rfl

variable (M : Measure)

theorem expr_node (op : Op) (shape : Shape) (args : List Expr) :
    M.expr (.node op shape args) = M.node op shape args + (args.map M.expr).sum := by
  rw [expr, Expr.fold_node, Expr.foldl_add_eq]

theorem block_eq_sum (b : Block) : M.block b = (b.exprs.map M.expr).sum := by
  rw [block, ← Nat.zero_add (List.sum _), ← Expr.foldl_add_eq, List.foldl_map]

theorem block_eq (b : Block) :
    M.block b = (b.stores.map fun s => M.expr s.value).sum + M.expr b.result := by
  rw [block_eq_sum, Block.exprs, List.map_append, List.sum_append, List.map_map]
  rfl

theorem expr_le_of_mem_subterms {x e : Expr} (h : x ∈ e.subterms) : M.expr x ≤ M.expr e := by
  induction e using Expr.induction with
  | node op shape args ih =>
    rcases Expr.mem_subterms_node.1 h with rfl | ⟨a, ha, hx⟩
    · exact Nat.le_refl _
    · have hle := List.le_sum_of_mem (List.mem_map_of_mem (f := M.expr) ha)
      have := ih a ha hx
      rw [expr_node]
      omega

theorem expr_le_of_mem_exprs {b : Block} {e : Expr} (h : e ∈ b.exprs) : M.expr e ≤ M.block b := by
  rw [block_eq_sum]
  exact List.le_sum_of_mem (List.mem_map_of_mem h)

end Measure

namespace Expr

/-- No expression is inside one of its operands. -/
theorem node_notMem_subterms_arg {op : Op} {shape : Shape} {args : List Expr} {a : Expr}
    (ha : a ∈ args) : Expr.node op shape args ∉ a.subterms := by
  intro h
  have hle := List.le_sum_of_mem (List.mem_map_of_mem (f := Measure.nodes.expr) ha)
  have hnode := Measure.nodes.expr_le_of_mem_subterms h
  have hone : Measure.nodes.node op shape args = 1 := rfl
  rw [Measure.expr_node] at hnode
  omega

/-- If no other expression than a node is picked out, then nothing is below it. -/
theorem countP_subterms_args {p : Expr → Bool} {op : Op} {shape : Shape} {args : List Expr}
    (hp : ∀ y, p y = true → y = .node op shape args) :
    (args.map (List.countP p ∘ subterms)).sum = 0 := by
  refine List.sum_eq_zero fun n hn => ?_
  obtain ⟨a, ha, rfl⟩ := List.mem_map.1 hn
  refine List.countP_eq_zero.2 fun y hy hpy => ?_
  rw [hp y hpy] at hy
  exact node_notMem_subterms_arg ha hy

end Expr

namespace Measure

variable (M : Measure)

/-- Reading a local in place of an expression takes away every copy and puts a read there. -/
theorem expr_readInstead {p : Expr → Bool} {x : Expr} (hp : ∀ y, p y = true → y = x)
    (hx : x.op.isTrivial = false) (fresh : Nat) (e : Expr) :
    M.expr (e.readInstead p fresh) + e.subterms.countP p * M.expr x
      = M.expr e + e.subterms.countP p * M.read x.shape := by
  induction e using Expr.induction with
  | node op shape args ih =>
    rw [Expr.readInstead_node, Expr.subterms_node, List.countP_cons, List.countP_flatMap]
    by_cases hnode : p (.node op shape args) = true
    · -- an operand has no further copy, since it is smaller
      have heq := hp _ hnode
      have hnone := Expr.countP_subterms_args fun y hy => (hp y hy).trans heq.symm
      have hload : M.expr (.node (.load .local fresh) shape [])
          = M.read (Expr.node op shape args).shape := by
        rw [expr_node, M.node_read]
        rfl
      rw [if_pos hnode, if_pos hnode, hnone, ← heq, hload]
      omega
    · have hnontrivial : ∀ y, p y = true → y.op.isTrivial = false := fun y hy => hp y hy ▸ hx
      have hsame : M.node op shape (args.map (Expr.readInstead p fresh))
          = M.node op shape args := by
        refine M.node_congr op shape _ _ ?_
        rw [List.map_map]
        exact List.map_congr_left fun a _ => Expr.outline_readInstead hnontrivial a
      have hargs : ((args.map (Expr.readInstead p fresh)).map M.expr).sum
          + (args.map (List.countP p ∘ Expr.subterms)).sum * M.expr x
            = (args.map M.expr).sum
              + (args.map (List.countP p ∘ Expr.subterms)).sum * M.read x.shape := by
        clear hnode hsame
        induction args with
        | nil => simp
        | cons a args ihs =>
          have ha := ih a (List.mem_cons_self ..)
          have has := ihs fun b hb => ih b (List.mem_cons_of_mem _ hb)
          simp only [List.map_cons, List.sum_cons, Function.comp_apply, Nat.add_mul]
          omega
      rw [if_neg hnode, if_neg hnode, expr_node, expr_node, Nat.add_zero, hsame]
      omega

theorem expr_renumberExpr (kept : List Nat) (e : Expr) :
    M.expr (Block.renumberExpr kept e) = M.expr e := by
  induction e using Expr.induction with
  | node op shape args ih =>
    have houtline : (args.map (Block.renumberExpr kept)).map Expr.outline
        = args.map Expr.outline := by
      rw [List.map_map]
      exact List.map_congr_left fun a _ => Expr.outline_renumberExpr kept a
    have hnode : M.node (Block.renumberOp kept op) shape (args.map (Block.renumberExpr kept))
        = M.node op shape args := by
      cases hop : op.local? with
      | none => rw [Block.renumberOp_of_local? kept hop, M.node_congr op shape _ _ houtline]
      | some l => rw [Op.local?_eq_some.1 hop, Block.renumberOp, M.node_read, M.node_read]
    rw [Block.renumberExpr_node, expr_node, expr_node, hnode, List.map_map]
    exact congrArg (M.node op shape args + List.sum ·) (List.map_congr_left ih)

/-- **The normal form measures no more**: it drops statements and adds none. -/
theorem normalize_le (b : Block) : M.block b.normalize ≤ M.block b := by
  have hvalues : (b.normalize.stores.map fun s => M.expr s.value)
      = (b.stores.filter fun s => b.kept.contains s.target).map fun s => M.expr s.value := by
    rw [Block.normalize, List.map_map]
    exact List.map_congr_left fun s _ => M.expr_renumberExpr b.kept s.value
  have hdropped : ((b.stores.filter fun s => b.kept.contains s.target).map
      fun s => M.expr s.value).sum ≤ (b.stores.map fun s => M.expr s.value).sum :=
    (List.filter_sublist.map _).sum_le_sum fun _ _ => Nat.zero_le _
  have hresult : M.expr b.normalize.result = M.expr b.result := M.expr_renumberExpr b.kept b.result
  rw [block_eq, block_eq, hvalues, hresult]
  omega

end Measure

end Arithmetization
