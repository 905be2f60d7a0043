import Arithmetization.Overflow

/-!
Places in a source text. A place is moved forward one character at a time, so the place of any
character is the fold of `next` over everything before it. Lines and columns are counted in 32 bits.
-/

set_option autoImplicit false

namespace Arithmetization

/-- A place in a source text. Lines and columns count from one; `0:0` is the place of the end of an
empty token stream, which comes from no text. -/
structure Position where
  line : UInt32
  column : UInt32
deriving DecidableEq, Repr, Inhabited

namespace Position

/-- The place of the first character. -/
def start : Position := ⟨1, 1⟩

/-- The place after the character `c`: a newline starts the next line, any other character, wide or
narrow, takes one column. The counters go round. -/
def next (p : Position) (c : Char) : Position :=
  if c = '\n' then ⟨p.line + 1, 1⟩ else ⟨p.line, p.column + 1⟩

/-- The place after all of `cs`. -/
def advance (p : Position) (cs : List Char) : Position :=
  cs.foldl next p

/-- Whether the counter that `c` moves is already at its greatest value. -/
def isLast (p : Position) (c : Char) : Bool :=
  (if c = '\n' then p.line else p.column) == 0xFFFFFFFF

/-- The place after the character `c`, if the counters may have gone that far. -/
def step (o : Overflow) (p : Position) (c : Char) : Except Stop Position :=
  if o = .trap ∧ p.isLast c then .error .overflow else .ok (p.next c)

/-- The place after all of `cs`, if the counters may have gone that far. -/
def move (o : Overflow) (p : Position) (cs : List Char) : Except Stop Position :=
  cs.foldlM (step o) p

/-- The written form `line:column`. -/
def text (p : Position) : String :=
  s!"{p.line}:{p.column}"

@[simp] theorem advance_nil (p : Position) : p.advance [] = p := rfl

@[simp] theorem advance_cons (p : Position) (c : Char) (cs : List Char) :
    p.advance (c :: cs) = (p.next c).advance cs := rfl

@[simp] theorem move_wrap (p : Position) (cs : List Char) :
    p.move .wrap cs = .ok (p.advance cs) := by
  induction cs generalizing p with
  | nil => rfl
  | cons c cs ih => exact ih (p.next c)

end Position

end Arithmetization
