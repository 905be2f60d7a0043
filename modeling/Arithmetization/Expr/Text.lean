import Arithmetization.Expr.Basic

/-!
The canonical text of literals and expressions: one blank between the parts of a form, bare numbers
only inside literals. A segment is written as the slice of a trace row that it stands for.
-/

set_option autoImplicit false

namespace Arithmetization

namespace Text

/-- Words with one blank between them. -/
def words (ws : List String) : String :=
  String.intercalate " " ws

/-- A form: its words in parentheses. -/
def form (ws : List String) : String :=
  "(" ++ words ws ++ ")"

/-- A number in decimal digits. -/
def number (n : Nat) : String :=
  toString n

end Text

namespace Literal

open Text

/-- A literal without the parentheses around it. -/
def text : Literal → String
  | .scalar x => "scalar " ++ number x
  | .vector xs => "vector " ++ words (xs.map number)
  | .matrix rows => "matrix " ++ words (rows.map fun row => form (row.map number))

end Literal

namespace Expr

open Text

/-- The words of a node from the texts of its operands. -/
def nodeWords (op : Op) (args : List String) : List String :=
  match op with
  | .literal value => [Literal.text value]
  | .load source index => [source.keyword, number index]
  | .segment row first last =>
    ["slice", form [Source.trace.keyword, number row], number first, number last]
  | .binary op => op.keyword :: args
  | .unary op => op.keyword :: args
  | .vector => "vector" :: args
  | .matrix widths => "matrix" :: (Tensor.chunks widths args).map form
  | .get index => "get" :: (args ++ [number index])
  | .slice first last => "slice" :: (args ++ [number first, number last])
  | .call function => "call" :: number function :: args

/-- The canonical text of an expression. -/
def text : Expr → String :=
  fold fun op _ _ args => form (nodeWords op args)

end Expr

end Arithmetization
