import Arithmetization.Shape

/-!
Scalars, vectors and matrices over any type. The three data that this library gives a shape, namely
written literals, inferred degrees and computed values, are tensors over their own elements.
-/

set_option autoImplicit false

namespace Arithmetization

/-- A scalar, a vector or a matrix given by its rows. Nothing forces the rows of a matrix to have
one length; where that matters it is checked. -/
inductive Tensor (α : Type) where
  | scalar (x : α)
  | vector (xs : List α)
  | matrix (rows : List (List α))
deriving DecidableEq, Hashable, Repr

/-- A literal of a source text: numbers below the modulus of its module. -/
abbrev Literal := Tensor Nat

namespace Tensor

variable {α β γ : Type}

/-- The shape of a tensor; a matrix is as wide as its first row. -/
def shape : Tensor α → Shape
  | .scalar _ => .scalar
  | .vector xs => .vector xs.length
  | .matrix rows => .matrix rows.length ((rows.head?.map List.length).getD 0)

/-- All elements, row by row. -/
def elements : Tensor α → List α
  | .scalar x => [x]
  | .vector xs => xs
  | .matrix rows => rows.flatten

/-- The element of a scalar. -/
def scalar? : Tensor α → Option α
  | .scalar x => some x
  | _ => none

/-- The elements of a vector. -/
def vector? : Tensor α → Option (List α)
  | .vector xs => some xs
  | _ => none

/-- The tensor of shape `s` with `x` in every place. -/
def uniform (s : Shape) (x : α) : Tensor α :=
  if s.isScalar then .scalar x
  else if s.isVector then .vector (List.replicate s.rows x)
  else .matrix (List.replicate s.rows (List.replicate s.cols x))

def map (f : α → β) : Tensor α → Tensor β
  | .scalar x => .scalar (f x)
  | .vector xs => .vector (xs.map f)
  | .matrix rows => .matrix (rows.map (·.map f))

def mapM {m : Type → Type} [Monad m] (f : α → m β) : Tensor α → m (Tensor β)
  | .scalar x => .scalar <$> f x
  | .vector xs => .vector <$> xs.mapM f
  | .matrix rows => .matrix <$> rows.mapM (·.mapM f)

/-- Pair the elements of two tensors place by place. A scalar is paired with every element of the
other side; two vectors need one length, two matrices one number of rows. -/
def align : Tensor α → Tensor β → Option (Tensor (α × β))
  | .scalar x, .scalar y => some (.scalar (x, y))
  | .scalar x, .vector ys => some (.vector (ys.map (x, ·)))
  | .scalar x, .matrix rows => some (.matrix (rows.map (·.map (x, ·))))
  | .vector xs, .scalar y => some (.vector (xs.map (·, y)))
  | .matrix rows, .scalar y => some (.matrix (rows.map (·.map (·, y))))
  | .vector xs, .vector ys => if xs.length = ys.length then some (.vector (xs.zip ys)) else none
  | .matrix xs, .matrix ys =>
    if xs.length = ys.length then some (.matrix (List.zipWith List.zip xs ys)) else none
  | _, _ => none

/-- Whether every row of a matrix has as many elements as the row in the same place of the other
matrix. Tensors of other kinds have no rows to compare. -/
def sameRows : Tensor α → Tensor β → Bool
  | .matrix xs, .matrix ys => xs.map List.length == ys.map List.length
  | _, _ => true

/-- Cut a list into consecutive pieces of the given lengths. -/
def chunks : List Nat → List α → List (List α)
  | [], _ => []
  | n :: ns, xs => xs.take n :: chunks ns (xs.drop n)

@[simp] theorem elements_map (f : α → β) (t : Tensor α) :
    (t.map f).elements = t.elements.map f := by
  cases t <;> simp [map, elements, List.map_flatten]

@[simp] theorem shape_map (f : α → β) (t : Tensor α) : (t.map f).shape = t.shape := by
  cases t with
  | scalar x => rfl
  | vector xs => simp [map, shape]
  | matrix rows => cases rows <;> simp [map, shape]

end Tensor

namespace Literal

/-- Whether a literal has at least one element and, as a matrix, rows of one length. -/
def isProper : Literal → Bool
  | .scalar _ => true
  | .vector xs => !xs.isEmpty
  | .matrix rows =>
    let cols := (rows.head?.map List.length).getD 0
    !rows.isEmpty && cols != 0 && rows.all (·.length == cols)

end Literal

end Arithmetization
