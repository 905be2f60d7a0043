import Arithmetization.Expr.Basic
import Arithmetization.Expr.Rule

/-!
Arenas: expressions stored node by node, operands by number. A node is only ever appended, and its
operands are numbers handed out before, so operands point backwards and one forward pass over the
nodes gives every tree. Several nodes may share an operand; in the trees it is then repeated.
-/

set_option autoImplicit false

namespace Arithmetization

/-- One stored node: its operands are numbers of earlier nodes. -/
structure Node where
  op : Op
  shape : Shape
  args : List Nat
deriving DecidableEq, Hashable, Repr

instance : Inhabited Node := ⟨⟨.literal (.scalar 0), .scalar, []⟩⟩

/-- Nodes in the order in which they were made; a node is known by its index. -/
structure Arena where
  nodes : Array Node
deriving DecidableEq, Repr

namespace Arena

def empty : Arena := ⟨#[]⟩

def size (a : Arena) : Nat := a.nodes.size

/-- The node with a given number. -/
def get (a : Arena) (id : Nat) : Node :=
  a.nodes.getD id default

def shape (a : Arena) (id : Nat) : Shape :=
  (a.get id).shape

/-- Every operand of every node has a smaller number than the node. -/
def Backward (a : Arena) : Prop :=
  ∀ id < a.size, ∀ arg ∈ (a.get id).args, arg < id

/-- Append a node; its number is the number of nodes before it. -/
def push (a : Arena) (op : Op) (shape : Shape) (args : List Nat) : Arena × Nat :=
  (⟨a.nodes.push ⟨op, shape, args⟩⟩, a.size)

@[simp] theorem size_push (a : Arena) (op : Op) (shape : Shape) (args : List Nat) :
    (a.push op shape args).1.size = a.size + 1 := by
  simp [push, size]

theorem get_push_self (a : Arena) (op : Op) (shape : Shape) (args : List Nat) :
    (a.push op shape args).1.get a.size = ⟨op, shape, args⟩ := by
  simp [push, get, size]

theorem get_push_of_lt (a : Arena) (op : Op) (shape : Shape) (args : List Nat) {id : Nat}
    (h : id < a.size) : (a.push op shape args).1.get id = a.get id := by
  simp only [size] at h
  simp [push, get, Array.getElem?_push_lt h, h]

theorem backward_empty : empty.Backward := by
  intro id h
  simp [size, empty] at h

/-- A node over earlier nodes keeps an arena backward. -/
theorem Backward.push {a : Arena} (ha : a.Backward) (op : Op) (shape : Shape) {args : List Nat}
    (hargs : ∀ arg ∈ args, arg < a.size) : (a.push op shape args).1.Backward := by
  intro id hid arg harg
  rw [size_push] at hid
  rcases Nat.lt_succ_iff_lt_or_eq.1 hid with h | rfl
  · exact ha id h arg (a.get_push_of_lt op shape args h ▸ harg)
  · rw [get_push_self] at harg
    exact hargs arg harg

/-! ## Trees -/

/-- The tree of a node, given the trees of all nodes before it. -/
def unfold (earlier : Array Expr) (n : Node) : Expr :=
  .node n.op n.shape (n.args.map fun i => earlier.getD i default)

/-- The trees of all nodes, in one forward pass. -/
def exprs (a : Arena) : Array Expr :=
  a.nodes.foldl (fun earlier n => earlier.push (unfold earlier n)) #[]

/-- There is one tree for every node. -/
theorem size_exprs (a : Arena) : a.exprs.size = a.size := by
  have step : ∀ (ns : List Node) (earlier : Array Expr),
      (ns.foldl (fun earlier n => earlier.push (unfold earlier n)) earlier).size
        = earlier.size + ns.length := by
    intro ns
    induction ns with
    | nil => simp
    | cons n ns ih => intro earlier; simp only [List.foldl_cons, ih, Array.size_push]; simp; omega
  simp [exprs, size, ← Array.foldl_toList, step]

/-- The tree that a node stands for. -/
def expr (a : Arena) (id : Nat) : Expr :=
  a.exprs.getD id default

mutual

/-- Store a tree, operands before the node that uses them. Nothing is shared. -/
def insert (a : Arena) : Expr → Arena × Nat
  | .node op shape args =>
    let (a, ids) := insertAll a args
    a.push op shape ids

/-- Store several trees, one after the other. -/
def insertAll (a : Arena) : List Expr → Arena × List Nat
  | [] => (a, [])
  | e :: es =>
    let (a, id) := insert a e
    let (a, ids) := insertAll a es
    (a, id :: ids)

end

/-! ## Checked nodes -/

/-- Append a node if its shape could be decided. -/
def place (a : Arena) (op : Op) (args : List Nat) :
    Except ShapeFault Shape → Except Fault (Arena × Nat)
  | .ok shape => .ok (a.push op shape args)
  | .error cause => .error (.shape cause none)

def literal (a : Arena) (value : Literal) : Except Fault (Arena × Nat) :=
  a.place (.literal value) [] (if value.isProper then .ok value.shape else .error .literal)

/-- A load; whoever makes it knows the shape of what is loaded. -/
def load (a : Arena) (source : Source) (index : Nat) (shape : Shape) : Arena × Nat :=
  a.push (.load source index) shape []

/-- Whether a node may stand above a power: a scalar literal or a load of a constant. -/
def isExponent (a : Arena) (id : Nat) : Bool :=
  match (a.get id).op with
  | .literal (.scalar _) => true
  | .load .const _ => true
  | _ => false

def binary (a : Arena) (op : BinaryOp) (lhs rhs : Nat) : Except Fault (Arena × Nat) :=
  a.place (.binary op) [lhs, rhs]
    (Rule.binary op (a.shape lhs) (a.shape rhs) (a.isExponent rhs))

def unary (a : Arena) (op : UnaryOp) (operand : Nat) : Arena × Nat :=
  a.push (.unary op) (a.shape operand) [operand]

def vector (o : Overflow) (a : Arena) (elements : List Nat) : Except Fault (Arena × Nat) := do
  let shape ← Rule.concat o (elements.map a.shape)
  return a.push .vector shape elements

def matrix (a : Arena) (rows : List (List Nat)) : Except Fault (Arena × Nat) :=
  a.place (.matrix (rows.map List.length)) rows.flatten (Rule.grid (rows.map (·.map a.shape)))

def element (a : Arena) (source index : Nat) : Except Fault (Arena × Nat) :=
  a.place (.get index) [source] (Rule.element (a.shape source) index)

/-- A slice of a whole trace row needs no operand: it is a segment of that row. -/
def slice (a : Arena) (source first last : Nat) : Except Fault (Arena × Nat) :=
  let shape := Rule.slice (a.shape source) first last
  match (a.get source).op with
  | .load .trace row => a.place (.segment row first last) [] shape
  | _ => a.place (.slice first last) [source] shape

def call (a : Arena) (function : Nat) (signature : Signature) (args : List Nat) :
    Except Fault (Arena × Nat) :=
  a.place (.call function) args (Rule.call function signature (args.map a.shape))

end Arena

end Arithmetization
