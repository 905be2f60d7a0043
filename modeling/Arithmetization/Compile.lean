import Arithmetization.Grammar.Module
import Arithmetization.Text.Utf8

/-!
From a source text to a schema.
-/

set_option autoImplicit false

namespace Arithmetization

/-- Compile a token stream. -/
def compileTokens (tokens : List Token) (o : CompileOptions) (overflow : Overflow := .trap) :
    Except (List Fault) Schema := do
  (← Grammar.parse tokens overflow).build o

/-- Compile a source text. The places in it, which are only reported, go round. -/
def compile (text : List Char) (o : CompileOptions) (overflow : Overflow := .trap) :
    Except (List Fault) Schema :=
  match Token.scan text with
  | .ok tokens => compileTokens tokens o overflow
  | .error f => .error [f]

/-- The place of a byte in a byte string: every byte takes one column, a newline byte starts a line.
-/
def bytePosition (before : List UInt8) : Position :=
  Position.start.advance (before.map fun b => Char.ofNat b.toNat)

/-- Compile a source given as bytes, which have to be UTF-8. -/
def compileBytes (bytes : List UInt8) (o : CompileOptions) (overflow : Overflow := .trap) :
    Except (List Fault) Schema :=
  match Text.decodeUtf8 bytes with
  | .ok text => compile text o overflow
  | .error offset => .error [.lex .notUtf8 (bytePosition (bytes.take offset))]

end Arithmetization
