import Arithmetization.Expr.Arena

/-!
Bodies of procedures and functions: stores into locals, one after the other, and a result. A body
keeps its expressions in one arena; a block is the same body with its expressions as trees. Analyses
read blocks, and a block is laid out as a body by storing its trees in the order of its statements.
-/

set_option autoImplicit false

namespace Arithmetization

/-- One store: the local that is written and the node that it gets. -/
structure Store where
  target : Nat
  value : Nat
deriving DecidableEq, Repr

/-- A body over an arena. -/
structure Body where
  locals : List Shape
  stores : List Store
  arena : Arena
  result : Nat
deriving DecidableEq, Repr

/-- One store of a tree. -/
structure Assign where
  target : Nat
  value : Expr
deriving Repr

/-- A body with trees in place of node numbers. -/
structure Block where
  locals : List Shape
  stores : List Assign
  result : Expr
deriving Repr

namespace Block

/-- The expressions of a block in the order of its statements, the result last. -/
def exprs (b : Block) : List Expr :=
  b.stores.map Assign.value ++ [b.result]

/-- The number of nodes of all statements. -/
def weight (b : Block) : Nat :=
  b.exprs.foldl (fun n e => n + e.weight) 0

/-- The number of nodes of all statements that are no literal, load or segment. -/
def operations (b : Block) : Nat :=
  b.exprs.foldl (fun n e => n + e.operations) 0

/-- Store the trees of assignments, one after the other. -/
def insertStores (a : Arena) : List Assign → Arena × List Store
  | [] => (a, [])
  | s :: rest =>
    let (a, id) := a.insert s.value
    let (a, stores) := insertStores a rest
    (a, ⟨s.target, id⟩ :: stores)

/-- Lay a block out over a fresh arena. -/
def toBody (b : Block) : Body :=
  let (a, stores) := insertStores .empty b.stores
  let (a, result) := a.insert b.result
  ⟨b.locals, stores, a, result⟩

end Block

namespace Body

/-- The trees of a body. -/
def block (b : Body) : Block :=
  let trees := b.arena.exprs
  ⟨b.locals, b.stores.map fun s => ⟨s.target, trees.getD s.value default⟩,
    trees.getD b.result default⟩

/-- The shape of the result. -/
def resultShape (b : Body) : Shape :=
  b.arena.shape b.result

end Body

end Arithmetization
