import Arithmetization.Token

/-!
Forms: what a token stream is before anyone asks what its words mean. Reading keeps a stack of the
lists that are still open, so it is one walk over the tokens, and the depth of a form is the height
of the stack when it is met.
-/

set_option autoImplicit false

namespace Arithmetization

/-- A number, a byte string, a symbol, or a list of forms, each with the place of its first token.
-/
inductive Form where
  | int (value : Nat) (pos : Position)
  | hex (bytes : List UInt8) (pos : Position)
  | sym (name : String) (pos : Position)
  | list (items : List Form) (pos : Position)
deriving Repr

namespace Form

instance : Inhabited Form := ⟨.list [] default⟩

def pos : Form → Position
  | .int _ pos | .hex _ pos | .sym _ pos | .list _ pos => pos

/-- The items of a list; an atom has none. -/
def items : Form → List Form
  | .list items _ => items
  | _ => []

def isList : Form → Bool
  | .list _ _ => true
  | _ => false

def isInt : Form → Bool
  | .int _ _ => true
  | _ => false

def symbol? : Form → Option String
  | .sym name _ => some name
  | _ => none

/-- The symbol that a list starts with. -/
def head? (f : Form) : Option String :=
  f.items.head?.bind symbol?

/-- The items of a list after its first. -/
def operands (f : Form) : List Form :=
  f.items.tail

/-! ## Reading -/

/-- No form lies inside more lists than this. -/
def maxDepth : Nat := 1024

/-- A list that is still open: the place of its parenthesis and its items, the last one first. -/
structure Pending where
  pos : Position
  items : List Form

/-- The state of reading: the open lists, innermost first, and the finished forms outside all of
them, the last one first. `depth` is the number of open lists. -/
structure Reader where
  depth : Nat
  stack : List Pending
  done : List Form

namespace Reader

def empty : Reader := ⟨0, [], []⟩

/-- Put a finished form where it belongs: into the innermost open list, or outside. -/
def add (r : Reader) (f : Form) : Reader :=
  match r.stack with
  | [] => { r with done := f :: r.done }
  | p :: below => { r with stack := { p with items := f :: p.items } :: below }

/-- A form may start here unless too many lists are open. -/
def enter (r : Reader) : Except Fault Reader :=
  if maxDepth < r.depth then .error (.limit .parseDepth) else .ok r

/-- Take one token that is not `eof`. -/
def step (r : Reader) (t : Token) : Except Fault Reader :=
  match t.kind with
  | .opening => do
    let r ← r.enter
    return { r with depth := r.depth + 1, stack := ⟨t.pos, []⟩ :: r.stack }
  | .closing =>
    match r.stack with
    | [] => .error (.parse .formBeforeClosing t.pos)
    | p :: below =>
      .ok (add { r with depth := r.depth - 1, stack := below } (.list p.items.reverse p.pos))
  | .int value => do return (← r.enter).add (.int value t.pos)
  | .hex bytes => do return (← r.enter).add (.hex bytes t.pos)
  | .sym name => do return (← r.enter).add (.sym name t.pos)
  | .eof => .ok r

/-- The forms when the tokens end at `pos`. -/
def finish (r : Reader) (pos : Position) : Except Fault (List Form) :=
  match r.stack with
  | [] => .ok r.done.reverse
  | _ :: _ => .error (.parse .closing pos)

/-- Read tokens up to the first `eof`. A stream without one ends at the place of its last token,
which is `last` when no token is left. -/
def run (r : Reader) (last : Position) : List Token → Except Fault (List Form)
  | [] => r.finish last
  | t :: ts =>
    if t.kind = .eof then r.finish t.pos
    else
      match r.step t with
      | .ok r' => run r' t.pos ts
      | .error f => .error f

end Reader

/-- The forms of a token stream. -/
def read (tokens : List Token) : Except Fault (List Form) :=
  Reader.empty.run default tokens

end Form

end Arithmetization
