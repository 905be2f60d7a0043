import Arithmetization.Tensor

/-!
The operators of expressions and the words that name them. An operator carries all that belongs to
one node except its shape and its operands, so that passes which only move operands around never
look inside it.
-/

set_option autoImplicit false

namespace Arithmetization

/-- Where a load takes its value from. -/
inductive Source where
  /-- A constant of the module. -/
  | const
  /-- A row of the execution trace. -/
  | trace
  /-- The row of static registers. -/
  | static
  /-- A local of the body. -/
  | local
  /-- A parameter of the function. -/
  | param
deriving DecidableEq, Hashable, Repr

namespace Source

def keyword : Source → String
  | .const => "load.const"
  | .trace => "load.trace"
  | .static => "load.static"
  | .local => "load.local"
  | .param => "load.param"

def ofKeyword? : String → Option Source
  | "load.const" => some .const
  | "load.trace" => some .trace
  | "load.static" => some .static
  | "load.local" => some .local
  | "load.param" => some .param
  | _ => none

theorem ofKeyword?_keyword (s : Source) : ofKeyword? s.keyword = some s := by cases s <;> rfl

end Source

/-- Operators on two operands. All but the last two work element by element. -/
inductive BinaryOp where
  | add
  | sub
  | mul
  | div
  /-- A power with a constant exponent. -/
  | exp
  /-- The product of vectors and matrices. -/
  | prod
deriving DecidableEq, Hashable, Repr

namespace BinaryOp

def keyword : BinaryOp → String
  | .add => "add"
  | .sub => "sub"
  | .mul => "mul"
  | .div => "div"
  | .exp => "exp"
  | .prod => "prod"

def ofKeyword? : String → Option BinaryOp
  | "add" => some .add
  | "sub" => some .sub
  | "mul" => some .mul
  | "div" => some .div
  | "exp" => some .exp
  | "prod" => some .prod
  | _ => none

theorem ofKeyword?_keyword (o : BinaryOp) : ofKeyword? o.keyword = some o := by cases o <;> rfl

end BinaryOp

/-- Operators on one operand, element by element. -/
inductive UnaryOp where
  | neg
  | inv
deriving DecidableEq, Hashable, Repr

namespace UnaryOp

def keyword : UnaryOp → String
  | .neg => "neg"
  | .inv => "inv"

def ofKeyword? : String → Option UnaryOp
  | "neg" => some .neg
  | "inv" => some .inv
  | _ => none

theorem ofKeyword?_keyword (o : UnaryOp) : ofKeyword? o.keyword = some o := by cases o <;> rfl

end UnaryOp

/-- What one node of an expression does with its operands. -/
inductive Op where
  | literal (value : Literal)
  | load (source : Source) (index : Nat)
  /-- The registers `first` to `last` of one trace row, without an operand. -/
  | segment (row first last : Nat)
  | binary (op : BinaryOp)
  | unary (op : UnaryOp)
  /-- Scalars and vectors put one after the other. -/
  | vector
  /-- Scalars in rows; the operands are listed row by row, `widths` says where the rows end. -/
  | matrix (widths : List Nat)
  | get (index : Nat)
  /-- The elements `first` to `last`, both included. -/
  | slice (first last : Nat)
  | call (function : Nat)
deriving DecidableEq, Hashable, Repr

namespace Op

/-- Literals, loads and segments: nodes without operands that cost nothing to repeat. -/
def isTrivial : Op → Bool
  | .literal _ | .load _ _ | .segment _ _ _ => true
  | _ => false

/-- The local that a node reads. -/
def local? : Op → Option Nat
  | .load .local i => some i
  | _ => none

end Op

end Arithmetization
