import Arithmetization.Field.Modular

/-!
Elements of the field with `M = 2^128 - 9 * 2^32 + 1` elements, each kept as the one word below `M`
that stands for it.
-/

set_option autoImplicit false

namespace Arithmetization

/-- An element of the field. -/
structure Element where
  word : Word
  word_lt : word.toNat < Word.modulus
deriving DecidableEq

namespace Element

/-- The number below the modulus that stands for an element. -/
def toNat (a : Element) : Nat :=
  a.word.toNat

/-- The element of a word: a word that reaches the modulus has it subtracted once. -/
def ofWord (w : Word) : Element :=
  ⟨w.wrap, Word.toNat_wrap_lt w⟩

/-- The element of a number below `2^128`. -/
def ofNat (n : Nat) : Element :=
  ofWord (.ofNat n)

/-- The element of a word below the modulus. -/
def ofWord? (w : Word) : Option Element :=
  if h : w.toNat < Word.modulus then some ⟨w, h⟩ else none

instance : Zero Element := ⟨⟨.ofLimb 0, by decide⟩⟩

instance : One Element := ⟨⟨.ofLimb 1, by decide⟩⟩

instance : Inhabited Element := ⟨0⟩

instance : Add Element := ⟨fun a b => ⟨a.word.addMod b.word, Word.addMod_lt a.word_lt b.word_lt⟩⟩

instance : Sub Element := ⟨fun a b => ⟨a.word.subMod b.word, Word.subMod_lt a.word_lt b.word_lt⟩⟩

instance : Mul Element := ⟨fun a b => ⟨a.word.mulMod b.word, Word.mulMod_lt _ _⟩⟩

instance : Neg Element := ⟨fun a => 0 - a⟩

/-- Powers by repeated squaring; the zeroth power of everything is one. -/
def pow (a : Element) (e : Nat) : Element :=
  if _h : e = 0 then 1
  else
    let square := pow (a * a) (e / 2)
    if e % 2 = 1 then a * square else square
termination_by e
decreasing_by omega

/-- The inverse, as the power `M - 2`; zero has itself. -/
def inv (a : Element) : Element :=
  if a = 0 then a else a.pow (Word.modulus - 2)

instance : Div Element := ⟨fun a b => a * b.inv⟩

def square (a : Element) : Element := a * a

def cube (a : Element) : Element := a * a * a

/-- The powers `1, g, g^2, …`, as many as asked for, each from the one before. -/
def powersFrom (g : Element) : Nat → Element → List Element
  | 0, _ => []
  | n + 1, w => w :: powersFrom g n (w * g)

/-- The first `n` powers of `g`. -/
def powers (g : Element) (n : Nat) : List Element :=
  powersFrom g n 1

/-! ## Roots of unity -/

/-- A generator of the multiplicative group. -/
def generator : Element := ofNat 3

/-- The greatest `k` such that `2^k` divides the order of the multiplicative group. -/
def twoAdicity : Nat := 32

/-- A root of unity of order `2^32`. -/
def twoAdicRoot : Element := ofNat 16233777346252436484685755432349885146

/-- A root of unity of order `2^k`, `k ≤ 32`. -/
def rootOfUnity (k : Nat) : Element :=
  twoAdicRoot.pow (1 <<< (twoAdicity - k))

end Element

end Arithmetization
