/-!
Shapes of expressions: scalars, vectors and matrices, written as a pair of lengths.
-/

set_option autoImplicit false

namespace Arithmetization

/-- The shape of a value. A scalar is `0 × 0`, a vector of length `n` is `n × 0`, and a matrix has
both lengths positive. A pair `0 × c` with `c` positive is none of the three. -/
structure Shape where
  rows : Nat
  cols : Nat
deriving DecidableEq, Hashable, Repr, Inhabited

namespace Shape

/-- Lengths that can be written are below this bound. -/
def lengthBound : Nat := 0x10000000000000000

def scalar : Shape := ⟨0, 0⟩

def vector (n : Nat) : Shape := ⟨n, 0⟩

def matrix (rows cols : Nat) : Shape := ⟨rows, cols⟩

def isScalar (s : Shape) : Bool :=
  s.rows == 0 && s.cols == 0

def isVector (s : Shape) : Bool :=
  0 < s.rows && s.cols == 0

def isMatrix (s : Shape) : Bool :=
  0 < s.rows && 0 < s.cols

/-- The number of elements of a value of this shape. -/
def size (s : Shape) : Nat :=
  if s.rows = 0 then 1 else if s.cols = 0 then s.rows else s.rows * s.cols

/-- The written form of a shape, as it stands in a declaration. -/
def text (s : Shape) : String :=
  if s.isScalar then "scalar"
  else if s.isVector then s!"vector {s.rows}"
  else s!"matrix {s.rows} {s.cols}"

@[simp] theorem isScalar_scalar : scalar.isScalar = true := rfl

@[simp] theorem size_scalar : scalar.size = 1 := rfl

theorem isScalar_iff (s : Shape) : s.isScalar = true ↔ s = scalar := by
  cases s; simp [isScalar, scalar]

theorem isVector_iff (s : Shape) : s.isVector = true ↔ ∃ n, 0 < n ∧ s = vector n := by
  cases s with
  | mk r c =>
    simp only [isVector, vector, Shape.mk.injEq, Bool.and_eq_true, decide_eq_true_eq, beq_iff_eq]
    exact ⟨fun h => ⟨r, h.1, rfl, h.2⟩, fun ⟨_, hn, hr, hc⟩ => ⟨hr ▸ hn, hc⟩⟩

end Shape

end Arithmetization
