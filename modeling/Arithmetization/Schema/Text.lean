import Arithmetization.Digest.Blake3
import Arithmetization.Register.Text
import Arithmetization.Schema.Basic

/-!
The canonical text of a schema, one declaration a line, and the commitment to it.
-/

set_option autoImplicit false

namespace Arithmetization

open Text

/-- A line break and the indentation of a declaration inside a section. -/
def inner : String := "\n    "

namespace Body

/-- The statements of a body on lines of their own, and the parenthesis that closes the section. -/
def text (b : Body) : String :=
  let block := b.block
  String.join
      (block.locals.map (fun s => inner ++ form ["local", s.text])
        ++ block.stores.map (fun s => inner ++ form ["store.local", number s.target, s.value.text]))
    ++ inner ++ block.result.text ++ ")"

end Body

namespace Function

def text (f : Function) : String :=
  "\n  (function" ++ inner ++ form ["result", f.result.text]
    ++ String.join (f.params.map fun p => inner ++ form ["param", p.text]) ++ f.body.text

end Function

namespace Procedure

def text (p : Procedure) : String :=
  "\n  (" ++ p.kind.keyword ++ inner ++ form ["span", number p.kind.span]
    ++ inner ++ form ["result", "vector", number p.width] ++ p.body.text

end Procedure

namespace RegisterSet

/-- The section of static registers; a module without any has none. -/
def text (set : RegisterSet) : String :=
  if set.registers.isEmpty then ""
  else "\n  (static" ++ String.join (set.registers.map fun r => inner ++ r.text) ++ ")"

end RegisterSet

namespace Schema

/-- The canonical text. -/
def text (s : Schema) : String :=
  "(module\n  " ++ form ["field", "prime", number s.modulus]
    ++ String.join (s.constants.map fun c => "\n  (const " ++ Literal.text c ++ ")")
    ++ String.join (s.functions.map Function.text)
    ++ s.registers.text ++ s.transition.text ++ s.evaluation.text ++ ")"

/-- The digest of the canonical text. -/
def commitment (s : Schema) : List UInt8 :=
  Digest.Blake3.hash s.text.toUTF8.toList

end Schema

end Arithmetization
