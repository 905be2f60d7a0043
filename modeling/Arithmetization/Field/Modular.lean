import Arithmetization.Field.Word

/-!
Arithmetic modulo `M = 2^128 - 9 * 2^32 + 1` on words of 128 bits. A product of two words is first
formed exactly, as a low and a high word, and then folded back with `2^128 = C (mod M)`, where
`C = 2^128 - M` has 36 bits.
-/

set_option autoImplicit false

namespace Arithmetization

namespace Word

/-- The modulus `M` as a number. -/
def modulus : Nat := 340282366920938463463374607393113505793

/-- The modulus `M`. -/
def mod : Word := ⟨0xFFFFFFFFFFFFFFFF, 0xFFFFFFF700000001⟩

/-- The excess `C = 2^128 - M`, which is what `2^128` leaves modulo `M`. -/
def excess : Word := ⟨0, 38654705663⟩

/-- The full product of two words as its low and its high word, from the four products of limbs. -/
def mulWide (a b : Word) : Word × Word :=
  let p₀₀ := mulLimbs a.low b.low
  let p₀₁ := mulLimbs a.low b.high
  let p₁₀ := mulLimbs a.high b.low
  let p₁₁ := mulLimbs a.high b.high
  let middle := ofLimb p₀₀.high + ofLimb p₀₁.low + ofLimb p₁₀.low
  (⟨middle.low, p₀₀.low⟩, p₁₁ + ofLimb p₀₁.high + ofLimb p₁₀.high + ofLimb middle.high)

/-- The product, wrapping around. -/
instance : Mul Word := ⟨fun a b => (mulWide a b).1⟩

/-- Take the modulus away once from a word that reaches it. -/
def wrap (w : Word) : Word :=
  if w.below mod then w else w - mod

/-- The word below `M` that equals `lo + 2^128 * hi` modulo `M`. -/
def reduce (lo hi : Word) : Word :=
  -- hi * 2^128 + lo = hi * C + lo, and hi * C has at most 164 bits
  let (foldLo, foldHi) := mulWide hi excess
  let sum := foldLo + lo
  let extra := foldHi * excess + if foldLo.carries lo then excess else ofLimb 0
  let total := sum + extra
  wrap (if sum.carries extra then total + excess else total)

/-- The sum of two words below `M`. -/
def addMod (a b : Word) : Word :=
  let sum := a + b
  if a.carries b then sum + excess else wrap sum

/-- The difference of two words below `M`. -/
def subMod (a b : Word) : Word :=
  if a.below b then mod - b + a else a - b

/-- The product of two words below `M`. -/
def mulMod (a b : Word) : Word :=
  let (lo, hi) := mulWide a b
  reduce lo hi

/-! ## Results are below the modulus -/

@[simp] theorem toNat_mod : mod.toNat = modulus := by
  decide

theorem toNat_excess : excess.toNat = 38654705663 := by
  decide

/-- The last step of every operation: twice the modulus is more than any word. -/
theorem toNat_wrap_lt (w : Word) : w.wrap.toNat < modulus := by
  have hw := w.toNat_lt_size
  unfold wrap
  split
  · next h => rwa [below_iff, toNat_mod] at h
  · next h =>
    rw [below_iff, toNat_mod] at h
    rw [toNat_sub_of_le (by rw [toNat_mod]; omega), toNat_mod]
    simp only [modulus, size] at *
    omega

theorem reduce_lt (lo hi : Word) : (reduce lo hi).toNat < modulus :=
  toNat_wrap_lt _

theorem addMod_lt {a b : Word} (ha : a.toNat < modulus) (hb : b.toNat < modulus) :
    (addMod a b).toNat < modulus := by
  unfold addMod
  dsimp only
  split
  · next h =>
    rw [carries_iff] at h
    rw [toNat_add, toNat_add, toNat_excess]
    simp only [modulus, size] at *
    omega
  · exact toNat_wrap_lt _

theorem subMod_lt {a b : Word} (ha : a.toNat < modulus) (hb : b.toNat < modulus) :
    (subMod a b).toNat < modulus := by
  unfold subMod
  split
  · next h =>
    rw [below_iff] at h
    rw [toNat_add, toNat_sub_of_le (by rw [toNat_mod]; omega), toNat_mod]
    simp only [modulus, size] at *
    omega
  · next h =>
    rw [below_iff] at h
    rw [toNat_sub_of_le (by omega)]
    omega

theorem mulMod_lt (a b : Word) : (mulMod a b).toNat < modulus :=
  reduce_lt _ _

end Word

end Arithmetization
