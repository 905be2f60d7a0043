import Arithmetization.Body.Basic

/-!
The normal form of a block: a local that no statement reads is dropped with all its stores, and the
others are numbered in the order of their first stores.
-/

set_option autoImplicit false

namespace Arithmetization

namespace Block

/-- The locals that some statement reads, with repetitions. -/
def reads (b : Block) : List Nat :=
  b.exprs.flatMap Expr.reads

/-- The locals that are both stored and read, in the order of their first stores. -/
def kept (b : Block) : List Nat :=
  let reads := b.reads
  (b.stores.map Assign.target).foldl
    (fun kept l => if reads.contains l && !kept.contains l then kept ++ [l] else kept) []

/-- The new number of a local: its place among the kept ones. A local that is not kept keeps its
number. -/
def renumber (kept : List Nat) (l : Nat) : Nat :=
  (kept.idxOf? l).getD l

/-- Give the locals of an expression their new numbers. -/
def renumberExpr (kept : List Nat) : Expr → Expr :=
  Expr.mapLoads fun source index =>
    match source with
    | .local => renumber kept index
    | _ => index

/-- The normal form. -/
def normalize (b : Block) : Block :=
  let kept := b.kept
  { locals := kept.map fun l => b.locals.getD l default
    stores := (b.stores.filter fun s => kept.contains s.target).map fun s =>
      ⟨renumber kept s.target, renumberExpr kept s.value⟩
    result := renumberExpr kept b.result }

end Block

namespace Body

/-- The body whose block is in normal form and whose nodes stand in the order of its statements. -/
def normalize (b : Body) : Body :=
  b.block.normalize.toBody

end Body

end Arithmetization
