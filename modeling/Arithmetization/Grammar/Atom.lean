import Arithmetization.Form

/-!
The small parts of the grammar: indexes, field elements, types and literals. Each function says what
a form has to be and reports the place of the first part that is something else.
-/

set_option autoImplicit false

namespace Arithmetization.Grammar

/-- Indexes, lengths and counts are below this bound. -/
def indexBound : Nat := 0x10000000000000000

/-- A number, or else `expected`. -/
def int (expected : Expected) : Form → Except Fault Nat
  | .int value _ => .ok value
  | f => .error (.parse expected f.pos)

/-- An index, a length or a count. -/
def index (f : Form) : Except Fault Nat := do
  let n ← int .index f
  if n < indexBound then return n else throw (.parse .index f.pos)

/-- A number below the modulus. -/
def element (modulus : Nat) (f : Form) : Except Fault Nat := do
  let n ← int .fieldElement f
  if n < modulus then return n else throw (.parse (.elementBelow modulus n) f.pos)

/-- A positive length. -/
def length (f : Form) : Except Fault Nat := do
  let n ← index f
  if n = 0 then throw (.parse .nonZeroLength f.pos) else return n

/-- A type: `scalar`, `vector n` or `matrix r c`. -/
def type (pos : Position) : List Form → Except Fault Shape
  | [.sym "scalar" _] => .ok .scalar
  | [.sym "vector" _, n] => do return .vector (← length n)
  | [.sym "matrix" _, r, c] => do return .matrix (← length r) (← length c)
  | _ => .error (.parse .type pos)

/-- A row of a matrix literal. -/
def literalRow (modulus : Nat) : Form → Except Fault (List Nat)
  | .list items _ => items.mapM (element modulus)
  | f => .error (.parse .literalRow f.pos)

/-- A literal: `scalar v`, `vector v+` or `matrix (v+)+` with rows of one length. -/
def literal (modulus : Nat) (pos : Position) : List Form → Except Fault Literal
  | [.sym "scalar" _, v] => do return .scalar (← element modulus v)
  | .sym "vector" _ :: v :: vs => do return .vector (← (v :: vs).mapM (element modulus))
  | .sym "matrix" _ :: row :: rows => do
    let value : Literal := .matrix (← (row :: rows).mapM (literalRow modulus))
    if value.isProper then return value else throw (.shape .raggedLiteral (some pos))
  | _ => .error (.parse .literal pos)

end Arithmetization.Grammar
