import Arithmetization.Register.Basic
import Arithmetization.Expr.Text
import Arithmetization.Text.Digits

/-!
The canonical text of a register declaration.
-/

set_option autoImplicit false

namespace Arithmetization

open Text

namespace InputRegister

/-- How the values of an input register are bound: one value, many, or many for each of a parent. -/
def binding (r : InputRegister) : String :=
  if r.scalar then "scalar"
  else
    match r.parent with
    | some p => form ["parent", number p]
    | none => "vector"

/-- How long each value is held: a number of steps, or as long as the children need. -/
def pattern (r : InputRegister) : String :=
  match r.steps with
  | some n => form ["steps", number n]
  | none => "filled"

end InputRegister

namespace CycleSource

def words : CycleSource → List String
  | .values vs => vs.map number
  | .prng seed count => [form ["prng", "blake3", "0x" ++ hexText seed, number count]]
  | .power base count => [form ["power", number base, number count]]

end CycleSource

namespace Register

def text : Register → String
  | .input r =>
    form (["input", if r.secret then "secret" else "public"]
      ++ (if r.binary then ["binary"] else []) ++ [r.binding, r.pattern])
  | .cycle source => form ("cycle" :: source.words)
  | .mask source value => form ["mask", number source, number value]

end Register

end Arithmetization
