import Arithmetization.Field.Element

/-!
Polynomials as lists of coefficients, the lowest first, and their values on a whole domain. The
transform evaluates a polynomial of `2^k` coefficients at all powers of a root of unity of order
`2^k`: it splits the coefficients into those of even and of odd index, since the powers of the root
and their negatives have the same squares.
-/

set_option autoImplicit false

namespace Arithmetization

namespace Transform

/-- The value of a polynomial at a point. -/
def eval (p : List Element) (x : Element) : Element :=
  p.foldr (fun c acc => c + x * acc) 0

/-- The entries of even index and those of odd index. -/
def halves {α : Type} : List α → List α × List α
  | [] => ([], [])
  | [a] => ([a], [])
  | a :: b :: rest =>
    let (evens, odds) := halves rest
    (a :: evens, b :: odds)

/-- The values of a polynomial of `2^k` coefficients at `1, g, g^2, …`, where `g` has order `2^k`
and `roots` holds the first `2^(k-1)` of these points. -/
def evaluate : (k : Nat) → (roots p : List Element) → List Element
  | 0, _, p => p
  | k + 1, roots, p =>
    let (evens, odds) := halves p
    let inner := (halves roots).1
    let es := evaluate k inner evens
    let os := List.zipWith (· * ·) roots (evaluate k inner odds)
    List.zipWith (· + ·) es os ++ List.zipWith (· - ·) es os

/-- The values of a polynomial of `2^k` coefficients at all powers of a root `g` of order `2^k`. -/
def forward (k : Nat) (g : Element) (p : List Element) : List Element :=
  evaluate k (g.powers (1 <<< (k - 1))) p

/-- The coefficients of the polynomial that has given values at all powers of a root `g` of order
`2^k`: the transform by the inverse root, divided by the number of values. -/
def inverse (k : Nat) (g : Element) (values : List Element) : List Element :=
  let scale := (Element.ofNat (1 <<< k)).inv
  (forward k g.inv values).map (· * scale)

/-- The coefficients of the polynomial that takes the values of a column, whose length is a power of
two, over the domain of that length. Domains have at most `2 ^ 32` points, so a column may not be
longer: there is no root of unity for it, and a run would end here. -/
def interpolate (column : List Element) : List Element :=
  if column.length < 2 then column
  else
    let k := Nat.log2 column.length
    inverse k (Element.rootOfUnity k) column

/-- Coefficients up to a given number, zeros where there are none. -/
def resize (n : Nat) (p : List Element) : List Element :=
  p.take n ++ List.replicate (n - p.length) 0

/-- The values of a polynomial over the domain of a given size, which is a power of two and no less
than the number of coefficients. -/
def extend (size : Nat) (p : List Element) : List Element :=
  if size < 2 then [p.headD 0]
  else
    let k := Nat.log2 size
    forward k (Element.rootOfUnity k) (resize size p)

end Transform

end Arithmetization
