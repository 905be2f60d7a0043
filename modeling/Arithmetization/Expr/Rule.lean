import Arithmetization.Fault

/-!
The shape rules: for every operator, the shape of the result from the shapes of the operands, or the
reason why the operands do not fit. These are the only places where a shape is decided.
-/

set_option autoImplicit false

namespace Arithmetization

/-- What a caller of a function has to know: the shapes of its parameters and of its result. -/
structure Signature where
  params : List Shape
  result : Shape
deriving DecidableEq, Repr

namespace Rule

/-- Element by element: equal shapes, or a scalar beside anything. -/
def elementwise (op : BinaryOp) (lhs rhs : Shape) : Except ShapeFault Shape :=
  if lhs = rhs || rhs.isScalar then .ok lhs
  else if lhs.isScalar then .ok rhs
  else .error (.operands op lhs rhs)

/-- A power needs a constant scalar above; the result has the shape of the base. -/
def power (base exponent : Shape) (constant : Bool) : Except ShapeFault Shape :=
  if exponent.isScalar && constant then .ok base else .error .exponent

/-- Vector by vector, matrix by vector, matrix by matrix, with equal inner lengths. -/
def product (lhs rhs : Shape) : Except ShapeFault Shape :=
  if lhs.isVector && rhs.isVector && lhs.rows == rhs.rows then .ok .scalar
  else if lhs.isMatrix && rhs.isVector && lhs.cols == rhs.rows then .ok (.vector lhs.rows)
  else if lhs.isMatrix && rhs.isMatrix && lhs.cols == rhs.rows then .ok (.matrix lhs.rows rhs.cols)
  else .error (.operands .prod lhs rhs)

/-- Two operands; `constant` says whether the second is a number known before any run. -/
def binary (op : BinaryOp) (lhs rhs : Shape) (constant : Bool) : Except ShapeFault Shape :=
  match op with
  | .add | .sub | .mul | .div => elementwise op lhs rhs
  | .exp => power lhs rhs constant
  | .prod => product lhs rhs

/-- The length of `n` elements and one more part, which has to be a scalar or a vector. -/
def appendLength (o : Overflow) (n : Nat) (part : Shape) : Except Fault Nat :=
  if part.isScalar then (o.add n 1).mapError .stop
  else if part.isVector then (o.add n part.rows).mapError .stop
  else .error (.shape .vectorElements none)

/-- Scalars and vectors one after the other, not all of them missing. The length is counted part by
part. -/
def concat (o : Overflow) (parts : List Shape) : Except Fault Shape := do
  let n ← parts.foldlM (appendLength o) 0
  if n = 0 then .error (.shape .vectorEmpty none) else .ok (.vector n)

/-- Rows of scalars, at least one row, all rows of one positive length. -/
def grid (rows : List (List Shape)) : Except ShapeFault Shape :=
  let cols := (rows.head?.map List.length).getD 0
  if rows.isEmpty || cols == 0 || rows.any (·.length != cols) then .error .matrixRows
  else if rows.any (·.any (!·.isScalar)) then .error .matrixElements
  else .ok (.matrix rows.length cols)

/-- One element of a vector. -/
def element (source : Shape) (index : Nat) : Except ShapeFault Shape :=
  if !source.isVector then .error (.getOf source)
  else if source.rows ≤ index then .error (.getBounds index source.rows)
  else .ok .scalar

/-- The elements `first` to `last` of a vector, both included. -/
def slice (source : Shape) (first last : Nat) : Except ShapeFault Shape :=
  if !source.isVector then .error (.sliceOf source)
  else if last < first || source.rows ≤ last then .error (.sliceBounds first last source.rows)
  else .ok (.vector (last - first + 1))

/-- The first argument, counted from `index`, whose shape is not that of its parameter. -/
def mismatch? (function : Nat) : Nat → List Shape → List Shape → Option ShapeFault
  | index, a :: args, p :: params =>
    if a = p then mismatch? function (index + 1) args params
    else some (.callArgument index function p a)
  | _, _, _ => none

/-- A call takes exactly the shapes of the parameters. -/
def call (function : Nat) (signature : Signature) (args : List Shape) : Except ShapeFault Shape :=
  if args.length ≠ signature.params.length then
    .error (.callArity function signature.params.length args.length)
  else
    match mismatch? function 0 args signature.params with
    | some cause => .error cause
    | none => .ok signature.result

end Rule

end Arithmetization
