/-!
Documents: the tree of values that a report is, and its written form with an indentation of two
blanks a level. Strings in a report are names, numbers and digests, none of which needs an escape.
-/

set_option autoImplicit false

namespace Arithmetization.Report

inductive Document where
  | null
  | bool (b : Bool)
  | number (n : Nat)
  | string (s : String)
  | list (items : List Document)
  | record (fields : List (String × Document))

namespace Document

def option {α : Type} (f : α → Document) : Option α → Document
  | some a => f a
  | none => .null

/-- A line break and the indentation of a level. -/
def line (level : Nat) : String :=
  "\n" ++ String.ofList (List.replicate (2 * level) ' ')

/-- A string between quotes. -/
def quote (s : String) : String :=
  "\"" ++ s ++ "\""

/-- Items between brackets, each on a line of its own one level further in; no items stay on the
line. -/
def bracket (left right : String) (level : Nat) : List String → String
  | [] => left ++ right
  | items =>
    left ++ line (level + 1) ++ String.intercalate ("," ++ line (level + 1)) items ++ line level
      ++ right

mutual

/-- The written form of a document whose brackets close at `level`. -/
def write (level : Nat) : Document → String
  | .null => "null"
  | .bool b => if b then "true" else "false"
  | .number n => toString n
  | .string s => quote s
  | .list items => bracket "[" "]" level (writeItems (level + 1) items)
  | .record fields => bracket "\x7b" "\x7d" level (writeFields (level + 1) fields)

def writeItems (level : Nat) : List Document → List String
  | [] => []
  | d :: ds => write level d :: writeItems level ds

def writeFields (level : Nat) : List (String × Document) → List String
  | [] => []
  | (name, d) :: fields => (quote name ++ ": " ++ write level d) :: writeFields level fields

end

/-- The written form of a whole document. -/
def text (d : Document) : String :=
  write 0 d

end Document

end Arithmetization.Report
