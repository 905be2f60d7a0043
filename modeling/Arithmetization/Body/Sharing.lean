import Arithmetization.Body.Normal
import Std.Data.HashMap

/-!
Sharing: a subexpression that occurs more than once is computed once, into a fresh local that is
stored right before the first statement that needs it. Occurrences are told apart by numbering them:
two occurrences get one number exactly when they are equal node by node and every local they read
has been stored equally often before. The heaviest repeated subexpression goes first, and rounds go
on until nothing is repeated.
-/

set_option autoImplicit false

namespace Arithmetization

/-- When and what to share. -/
structure SharingOptions where
  enabled : Bool := true
  /-- The least number of nodes worth a local. -/
  minWeight : Nat := 3
deriving DecidableEq, Repr

/-! ## Classes of occurrences -/

/-- What one number stands for: a node over the numbers of its operands, and for a read of a local
the number of stores to it so far. -/
structure ClassKey where
  node : Node
  version : Nat
deriving DecidableEq, Hashable, Repr

/-- The occurrences with one number: how many, in which statement the first one is, and the first
one itself. -/
structure ShareClass where
  count : Nat
  stmt : Nat
  first : Expr

/-- Numbers given out so far. The class with number `i` is entry `i` of the table. -/
structure Classes where
  ids : Std.HashMap ClassKey Nat
  table : Array ShareClass

namespace Classes

def empty : Classes := ⟨∅, #[]⟩

/-- The key of a node over the numbers `args`, met after the stores to `stored`. -/
def key (stored : List Nat) (op : Op) (shape : Shape) (args : List Nat) : ClassKey :=
  ⟨⟨op, shape, args⟩, (op.local?.map stored.count).getD 0⟩

/-- Count one more occurrence of `k`, the expression `e` in statement `stmt`. -/
def record (c : Classes) (k : ClassKey) (stmt : Nat) (e : Expr) : Classes × Nat :=
  match c with
  | ⟨ids, table⟩ =>
    match ids[k]? with
    | some id => (⟨ids, table.modify id fun s => { s with count := s.count + 1 }⟩, id)
    | none =>
      let id := table.size
      (⟨ids.insert k id, table.push ⟨1, stmt, e⟩⟩, id)

mutual

/-- Number all nodes of an expression, operands first. -/
def visit (stored : List Nat) (stmt : Nat) (c : Classes) : Expr → Classes × Nat
  | .node op shape args =>
    let (c, ids) := visitAll stored stmt c args
    c.record (key stored op shape ids) stmt (.node op shape args)

/-- Number the nodes of several expressions, one after the other. -/
def visitAll (stored : List Nat) (stmt : Nat) (c : Classes) : List Expr → Classes × List Nat
  | [] => (c, [])
  | e :: es =>
    let (c, id) := visit stored stmt c e
    let (c, ids) := visitAll stored stmt c es
    (c, id :: ids)

end

/-- Number the statements of a block from statement `stmt` on; `stored` lists the targets of the
stores before it. -/
def visitStores (stored : List Nat) (stmt : Nat) (c : Classes) (result : Expr) :
    List Assign → Classes
  | [] => (c.visit stored stmt result).1
  | s :: rest =>
    visitStores (s.target :: stored) (stmt + 1) (c.visit stored stmt s.value).1 result rest

/-- The classes of all statements of a block. -/
def ofBlock (b : Block) : Classes :=
  visitStores [] 0 empty b.result b.stores

/-- Whether a class is worth a local. -/
def isCandidate (minWeight : Nat) (s : ShareClass) : Bool :=
  2 ≤ s.count && !s.first.op.isTrivial && minWeight ≤ s.first.weight

/-- The heaviest candidate; of equally heavy ones the one that was met first. -/
def candidate? (c : Classes) (minWeight : Nat) : Option (Nat × ShareClass) :=
  (c.table.foldl
    (fun (best : Nat × Option (Nat × ShareClass)) s =>
      let id := best.1
      let better :=
        isCandidate minWeight s &&
          match best.2 with
          | some (_, b) => b.first.weight < s.first.weight
          | none => true
      (id + 1, if better then some (id, s) else best.2))
    (0, none)).2

mutual

/-- Replace every occurrence of class `target` by a read of the local `fresh`; the second part of
the answer is the number of the expression before the replacement. -/
def replace (c : Classes) (target fresh : Nat) (stored : List Nat) : Expr → Expr × Option Nat
  | .node op shape args =>
    let (args', ids) := replaceAll c target fresh stored args
    let id := ids.bind fun ids => c.ids[key stored op shape ids]?
    if id = some target then (.node (.load .local fresh) shape [], id)
    else (.node op shape args', id)

/-- Replace in several expressions; their numbers are known if each one is. -/
def replaceAll (c : Classes) (target fresh : Nat) (stored : List Nat) :
    List Expr → List Expr × Option (List Nat)
  | [] => ([], some [])
  | e :: es =>
    let (e', id) := replace c target fresh stored e
    let (es', ids) := replaceAll c target fresh stored es
    (e' :: es', id.bind fun id => ids.map (id :: ·))

end

/-- Replace in the stores of a block. -/
def replaceStores (c : Classes) (target fresh : Nat) (stored : List Nat) : List Assign → List Assign
  | [] => []
  | s :: rest =>
    ⟨s.target, (c.replace target fresh stored s.value).1⟩ ::
      replaceStores c target fresh (s.target :: stored) rest

end Classes

/-! ## Rounds -/

namespace Block

/-- Move the class `target` of a block into a fresh local, stored right before the first statement
that has an occurrence. -/
def hoist (b : Block) (c : Classes) (target : Nat) (s : ShareClass) : Block :=
  let fresh := b.locals.length
  let stores := c.replaceStores target fresh [] b.stores
  let stored := (b.stores.map Assign.target).reverse
  { locals := b.locals ++ [s.first.shape]
    stores := stores.take s.stmt ++ ⟨fresh, s.first⟩ :: stores.drop s.stmt
    result := (c.replace target fresh stored b.result).1 }

/-- Hoist the heaviest repeated subexpression, again and again, at most `rounds` times. -/
def hoistAll (minWeight : Nat) : Nat → Block → Block
  | 0, b => b
  | rounds + 1, b =>
    let c := Classes.ofBlock b
    match c.candidate? minWeight with
    | none => b
    | some (target, s) => hoistAll minWeight rounds (b.hoist c target s)

/-- Share all repeated subexpressions of at least `minWeight` nodes and bring the block into normal
form. Every round removes an operation, so there are no more rounds than operations. -/
def share (minWeight : Nat) (b : Block) : Block :=
  (hoistAll (max minWeight 2) b.operations b).normalize

end Block

namespace Body

/-- The body with its repeated subexpressions shared, if that is asked for. -/
def share (options : SharingOptions) (b : Body) : Body :=
  if options.enabled then (b.block.share options.minWeight).toBody else b

end Body

end Arithmetization
