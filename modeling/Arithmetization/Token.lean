import Arithmetization.Fault
import Arithmetization.Text.Blank
import Arithmetization.Text.Digits

/-!
Tokens and how a text is cut into them. Every item of a text, be it a token, a blank or a comment,
is the character it starts with and the longest run that may follow it, so the items of a text put
one after the other are the text.
-/

set_option autoImplicit false

namespace Arithmetization

/-- What a token is, without its place. -/
inductive TokenKind where
  | opening
  | closing
  | int (value : Nat)
  | hex (bytes : List UInt8)
  | sym (name : String)
  | eof
deriving DecidableEq, Repr

/-- A token and the place of its first character. -/
structure Token where
  kind : TokenKind
  pos : Position
deriving DecidableEq, Repr

namespace Token

/-- Tokens that one text may have, the closing `eof` not counted. -/
def maxCount : Nat := 1000000

/-- Written integers are below this bound. -/
def intBound : Nat := 0x100000000000000000000000000000000

/-- Characters that may start a symbol. -/
def isSymbolStart (c : Char) : Bool :=
  ('a' ≤ c && c ≤ 'z') || ('A' ≤ c && c ≤ 'Z') || c == '_' || c == '$'

/-- Characters that may follow in a symbol or a number. -/
def isSymbolPart (c : Char) : Bool :=
  isSymbolStart c || Text.isDigit c || c == '.' || c == '-'

/-- The characters of `cs` that belong to the item started by `c`: a comment goes up to the end of
its line, a word as far as its characters go, and every other item is one character. -/
def itemRest (c : Char) (cs : List Char) : List Char :=
  if c == ';' then cs.takeWhile (· != '\n')
  else if Text.isDigit c || isSymbolStart c then cs.takeWhile isSymbolPart
  else []

/-- The number written by a word that starts with a digit. -/
def number : List Char → Except LexFault TokenKind
  | '0' :: 'x' :: digits =>
    match Text.hexBytes? digits with
    | some bytes => .ok (.hex bytes)
    | none => .error (.malformedHex (String.ofList ('0' :: 'x' :: digits)))
  | word =>
    match Text.decimal? word with
    | some n =>
      if n < intBound then .ok (.int n) else .error (.malformedInteger (String.ofList word))
    | none => .error (.malformedInteger (String.ofList word))

/-- The token of the item that starts with `c` and goes on with `more`; blanks and comments have
none. -/
def ofItem? (c : Char) (more : List Char) : Except LexFault (Option TokenKind) :=
  if c == '(' then .ok (some .opening)
  else if c == ')' then .ok (some .closing)
  else if c == ';' || Text.isBlank c then .ok none
  else if Text.isDigit c then some <$> number (c :: more)
  else if isSymbolStart c then .ok (some (.sym (String.ofList (c :: more))))
  else .error (.invalidChar c)

/-- The characters of an item that the place moves over before anything is said about the item: all
of them, but a character that starts no item is refused where it stands. -/
def passed (item : List Char) : Except LexFault (Option TokenKind) → List Char
  | .error (.invalidChar _) => []
  | _ => item

@[simp] theorem passed_ok (item : List Char) (kind? : Option TokenKind) :
    passed item (.ok kind?) = item := rfl

/-- Cut the rest of a text, which starts at `pos`, into tokens. `count` tokens are already found and
stand in `found`, the last one first. -/
def scanFrom (o : Overflow) (pos : Position) (count : Nat) (found : List Token) :
    List Char → Except Fault (List Token)
  | [] => .ok (⟨.eof, pos⟩ :: found).reverse
  | c :: cs =>
    let more := itemRest c cs
    let kind? := ofItem? c more
    let rest := cs.drop more.length
    match pos.move o (passed (c :: more) kind?), kind? with
    | .error why, _ => .error (.stop why)
    | .ok _, .error cause => .error (.lex cause pos)
    | .ok after, .ok none => scanFrom o after count found rest
    | .ok after, .ok (some kind) =>
      if maxCount < count + 1 then .error (.lex .tooManyTokens pos)
      else scanFrom o after (count + 1) (⟨kind, pos⟩ :: found) rest
termination_by cs => cs.length
decreasing_by all_goals simp only [List.length_cons, List.length_drop]; omega

/-- The tokens of a text, closed by one `eof` at the place after its last character. -/
def scan (text : List Char) (overflow : Overflow := .wrap) : Except Fault (List Token) :=
  scanFrom overflow .start 0 [] text

end Token

end Arithmetization
