/-!
Words of 128 bits as two limbs of 64 bits. Sums, differences and products wrap around as those of
limbs do; the lemmas say what they are as numbers. The product of two limbs is exact, as a word.
-/

set_option autoImplicit false

namespace Arithmetization

/-- A word of 128 bits. -/
structure Word where
  high : UInt64
  low : UInt64
deriving DecidableEq, Repr

namespace Word

/-- The number of words, `2^128`. -/
def size : Nat := 0x100000000000000000000000000000000

/-- The number that a word stands for. -/
def toNat (w : Word) : Nat :=
  UInt64.size * w.high.toNat + w.low.toNat

/-- The word of a number, taken modulo `2^128`. -/
def ofNat (n : Nat) : Word :=
  ⟨UInt64.ofNat (n / UInt64.size), UInt64.ofNat n⟩

/-- A limb as a word. -/
@[inline] def ofLimb (x : UInt64) : Word :=
  ⟨0, x⟩

/-- The sum, wrapping around. -/
@[inline] protected def add (a b : Word) : Word :=
  let low := a.low + b.low
  ⟨a.high + b.high + (if low < a.low then 1 else 0), low⟩

/-- The difference, wrapping around. -/
@[inline] protected def sub (a b : Word) : Word :=
  ⟨a.high - b.high - (if a.low < b.low then 1 else 0), a.low - b.low⟩

instance : Add Word := ⟨Word.add⟩

instance : Sub Word := ⟨Word.sub⟩

/-- Whether `a` is below `b`. -/
@[inline] def below (a b : Word) : Bool :=
  a.high < b.high || a.high == b.high && a.low < b.low

/-- Whether a sum wraps around. -/
@[inline] def carries (a b : Word) : Bool :=
  (a + b).below a

/-- The product of two limbs, from the four products of their halves. -/
@[inline] def mulLimbs (x y : UInt64) : Word :=
  let x₀ := x % 0x100000000
  let x₁ := x / 0x100000000
  let y₀ := y % 0x100000000
  let y₁ := y / 0x100000000
  let p₀₀ := x₀ * y₀
  let p₀₁ := x₀ * y₁
  let p₁₀ := x₁ * y₀
  let p₁₁ := x₁ * y₁
  let middle := p₀₀ / 0x100000000 + p₀₁ % 0x100000000 + p₁₀ % 0x100000000
  ⟨p₁₁ + p₀₁ / 0x100000000 + p₁₀ / 0x100000000 + middle / 0x100000000, x * y⟩

/-! ## Words as numbers -/

theorem toNat_lt_size (w : Word) : w.toNat < size := by
  have hh := w.high.toNat_lt_size
  have hl := w.low.toNat_lt_size
  simp only [toNat, size, UInt64.size] at *
  omega

theorem toNat_inj {a b : Word} : a.toNat = b.toNat ↔ a = b := by
  constructor
  · intro h
    have ha := a.low.toNat_lt_size
    have hb := b.low.toNat_lt_size
    cases a; cases b
    simp only [toNat, UInt64.size] at *
    simp only [mk.injEq, ← UInt64.toNat_inj]
    omega
  · rintro rfl; rfl

@[simp] theorem toNat_ofNat (n : Nat) : (ofNat n).toNat = n % size := by
  simp only [toNat, ofNat, UInt64.toNat_ofNat', size, UInt64.size]
  omega

@[simp] theorem toNat_ofLimb (x : UInt64) : (ofLimb x).toNat = x.toNat := by
  simp [toNat, ofLimb]

theorem toNat_add (a b : Word) : (a + b).toNat = (a.toNat + b.toNat) % size := by
  show (Word.add a b).toNat = _
  have := a.low.toNat_lt_size
  have := b.low.toNat_lt_size
  have := a.high.toNat_lt_size
  have := b.high.toNat_lt_size
  simp only [toNat, Word.add, UInt64.toNat_add, UInt64.lt_iff_toNat_lt, size, UInt64.size] at *
  split <;> simp only [UInt64.toNat_one, UInt64.toNat_zero] <;> omega

/-- A sum that does not wrap around. -/
theorem toNat_add_of_lt {a b : Word} (h : a.toNat + b.toNat < size) :
    (a + b).toNat = a.toNat + b.toNat := by
  rw [toNat_add, Nat.mod_eq_of_lt h]

theorem toNat_sub_of_le {a b : Word} (h : b.toNat ≤ a.toNat) :
    (a - b).toNat = a.toNat - b.toNat := by
  show (Word.sub a b).toNat = _
  have := a.low.toNat_lt_size
  have := b.low.toNat_lt_size
  have := a.high.toNat_lt_size
  have := b.high.toNat_lt_size
  simp only [toNat, Word.sub, UInt64.toNat_sub, UInt64.lt_iff_toNat_lt, UInt64.size] at *
  split <;> simp only [UInt64.toNat_one, UInt64.toNat_zero] <;> omega

theorem below_iff (a b : Word) : a.below b = true ↔ a.toNat < b.toNat := by
  have := a.low.toNat_lt_size
  have := b.low.toNat_lt_size
  simp only [below, toNat, Bool.or_eq_true, Bool.and_eq_true, decide_eq_true_eq, beq_iff_eq,
    UInt64.lt_iff_toNat_lt, ← UInt64.toNat_inj, UInt64.size] at *
  omega

theorem carries_iff (a b : Word) : a.carries b = true ↔ size ≤ a.toNat + b.toNat := by
  have := a.toNat_lt_size
  have := b.toNat_lt_size
  rw [carries, below_iff, toNat_add]
  simp only [size] at *
  omega

/-- The product of two numbers below `2^64` from the products of their halves. -/
theorem mul_eq_halves (x y : Nat) :
    x * y = 0x10000000000000000 * (x / 0x100000000 * (y / 0x100000000))
      + 0x100000000 * (x % 0x100000000 * (y / 0x100000000))
      + 0x100000000 * (x / 0x100000000 * (y % 0x100000000))
      + x % 0x100000000 * (y % 0x100000000) := by
  rw [← Nat.div_add_mod x 0x100000000, ← Nat.div_add_mod y 0x100000000]
  grind

/-- The product of two numbers below `2^32`, with room for two more of them. -/
theorem mul_half_le {x y : Nat} (hx : x < 0x100000000) (hy : y < 0x100000000) :
    x * y ≤ 0xFFFFFFFE00000001 :=
  Nat.mul_le_mul (Nat.le_of_lt_succ hx) (Nat.le_of_lt_succ hy)

/-- The product of two limbs is exact. -/
theorem toNat_mulLimbs (x y : UInt64) : (mulLimbs x y).toNat = x.toNat * y.toNat := by
  have hp := mul_eq_halves x.toNat y.toNat
  have hx := Nat.mod_lt x.toNat (by decide : 0x100000000 > 0)
  have hy := Nat.mod_lt y.toNat (by decide : 0x100000000 > 0)
  have hx' : x.toNat / 0x100000000 < 0x100000000 := Nat.div_lt_of_lt_mul x.toNat_lt
  have hy' : y.toNat / 0x100000000 < 0x100000000 := Nat.div_lt_of_lt_mul y.toNat_lt
  have h₀₀ := mul_half_le hx hy
  have h₀₁ := mul_half_le hx hy'
  have h₁₀ := mul_half_le hx' hy
  have h₁₁ := mul_half_le hx' hy'
  simp only [toNat, mulLimbs, UInt64.toNat_add, UInt64.toNat_mul, UInt64.toNat_div,
    UInt64.toNat_mod, UInt64.reduceToNat, UInt64.size]
  omega

end Word

end Arithmetization
