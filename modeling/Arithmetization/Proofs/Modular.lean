import Arithmetization.Field.Element
import Mathlib.Tactic.Ring

/-!
Arithmetic modulo `M` is exact.

Words wrap around, so every operation on them owes a proof that it did not, or that it did and was
mended. The mending is always the same: `2^128` leaves `C = 2^128 - M` modulo `M`, so a carry out of
a word comes back as `C`. After that an operation on elements is the operation on numbers, modulo
`M` (`Element.toNat_add`, `Element.toNat_sub`, `Element.toNat_mul`).
-/

set_option autoImplicit false

namespace Arithmetization

namespace Word

/-! ## Products of words -/

/-- The product of two numbers below `2^64`, with room for two more of them. -/
theorem toNat_mulLimbs_le (x y : UInt64) :
    (mulLimbs x y).toNat ≤ 0xFFFFFFFFFFFFFFFE0000000000000001 := by
  have hx : x.toNat ≤ 0xFFFFFFFFFFFFFFFF := Nat.le_of_lt_succ x.toNat_lt
  have hy : y.toNat ≤ 0xFFFFFFFFFFFFFFFF := Nat.le_of_lt_succ y.toNat_lt
  rw [toNat_mulLimbs]
  exact Nat.mul_le_mul hx hy

/-- The product of two words from the products of their limbs. -/
theorem toNat_mul_eq_limbs (a b : Word) :
    a.toNat * b.toNat
      = (mulLimbs a.low b.low).toNat
        + UInt64.size * ((mulLimbs a.low b.high).toNat + (mulLimbs a.high b.low).toNat)
        + size * (mulLimbs a.high b.high).toNat := by
  have hsize : size = UInt64.size * UInt64.size := rfl
  rw [hsize, toNat_mulLimbs, toNat_mulLimbs, toNat_mulLimbs, toNat_mulLimbs, toNat, toNat]
  ring

/-- The low and the high word of a product make up the product. -/
theorem toNat_mulWide (a b : Word) :
    (mulWide a b).1.toNat + size * (mulWide a b).2.toNat = a.toNat * b.toNat := by
  rw [toNat_mul_eq_limbs]
  have h₀₀ := toNat_mulLimbs_le a.low b.low
  have h₀₁ := toNat_mulLimbs_le a.low b.high
  have h₁₀ := toNat_mulLimbs_le a.high b.low
  have h₁₁ := toNat_mulLimbs_le a.high b.high
  unfold mulWide
  dsimp only
  generalize mulLimbs a.low b.low = p₀₀ at *
  generalize mulLimbs a.low b.high = p₀₁ at *
  generalize mulLimbs a.high b.low = p₁₀ at *
  generalize mulLimbs a.high b.high = p₁₁ at *
  -- the middle column is a sum of three limbs, so it carries at most two into the high word
  have hmiddle : (ofLimb p₀₀.high + ofLimb p₀₁.low + ofLimb p₁₀.low).toNat
      = p₀₀.high.toNat + p₀₁.low.toNat + p₁₀.low.toNat := by
    have := p₀₀.high.toNat_lt_size
    have := p₀₁.low.toNat_lt_size
    have := p₁₀.low.toNat_lt_size
    simp only [toNat_add, toNat_ofLimb, size, UInt64.size] at *
    omega
  generalize ofLimb p₀₀.high + ofLimb p₀₁.low + ofLimb p₁₀.low = middle at *
  have hhigh : (p₁₁ + ofLimb p₀₁.high + ofLimb p₁₀.high + ofLimb middle.high).toNat
      = p₁₁.toNat + p₀₁.high.toNat + p₁₀.high.toNat + middle.high.toNat := by
    have := p₀₀.high.toNat_lt_size
    have := p₀₁.low.toNat_lt_size
    have := p₁₀.low.toNat_lt_size
    rw [toNat_add, toNat_add, toNat_add, toNat_ofLimb, toNat_ofLimb, toNat_ofLimb]
    simp only [toNat, size, UInt64.size] at *
    omega
  rw [hhigh]
  simp only [toNat, size, UInt64.size] at *
  omega

/-- The product that wraps around is the product where that fits in a word. -/
theorem toNat_mul_of_lt {a b : Word} (h : a.toNat * b.toNat < size) :
    (a * b).toNat = a.toNat * b.toNat := by
  have hwide := toNat_mulWide a b
  show (mulWide a b).1.toNat = _
  have := (mulWide a b).1.toNat_lt_size
  simp only [size] at *
  omega

/-! ## Reduction -/

theorem toNat_wrap (w : Word) : w.wrap.toNat = w.toNat % modulus := by
  have hw := w.toNat_lt_size
  unfold wrap
  split
  · next h =>
    rw [below_iff, toNat_mod] at h
    rw [Nat.mod_eq_of_lt h]
  · next h =>
    rw [below_iff, toNat_mod] at h
    rw [toNat_sub_of_le (by rw [toNat_mod]; omega), toNat_mod]
    simp only [modulus, size] at *
    omega

/-- Two words are folded into one without a change modulo `M`. -/
theorem toNat_reduce (lo hi : Word) :
    (reduce lo hi).toNat = (lo.toNat + size * hi.toNat) % modulus := by
  have hfold := toNat_mulWide hi excess
  have hlo := lo.toNat_lt_size
  have hhi := hi.toNat_lt_size
  unfold reduce
  dsimp only
  generalize (mulWide hi excess).1 = foldLo at *
  generalize (mulWide hi excess).2 = foldHi at *
  have hfoldLo := foldLo.toNat_lt_size
  rw [toNat_excess] at hfold
  -- the second fold is short: what is left above a word after the first has 36 bits
  have hfoldHi : foldHi.toNat < 38654705663 := by
    simp only [size] at *
    omega
  have hsmall : (foldHi * excess).toNat = foldHi.toNat * 38654705663 := by
    rw [toNat_mul_of_lt, toNat_excess]
    rw [toNat_excess]
    simp only [size] at *
    omega
  have hextra : (foldHi * excess + if foldLo.carries lo then excess else ofLimb 0).toNat
      = foldHi.toNat * 38654705663 + if foldLo.carries lo then 38654705663 else 0 := by
    split
    · rw [toNat_add_of_lt (by rw [hsmall, toNat_excess]; simp only [size] at *; omega), hsmall,
        toNat_excess]
    · rw [toNat_add_of_lt (by rw [hsmall]; simp only [size, toNat_ofLimb] at *; simp; omega),
        hsmall]
      simp
  generalize (foldHi * excess + if foldLo.carries lo then excess else ofLimb 0) = extra at *
  have hcarry := carries_iff foldLo lo
  have hcarry' := carries_iff (foldLo + lo) extra
  rw [toNat_add] at hcarry'
  -- `X ≡ lo + 2^128 * hi` modulo `M` for the word `X` that is wrapped at the end, whatever carried
  have hvalue : ∀ X : Nat, (∃ k, X + modulus * k = lo.toNat + size * hi.toNat) →
      X % modulus = (lo.toNat + size * hi.toNat) % modulus := by
    rintro X ⟨k, hk⟩
    rw [← hk, Nat.add_mul_mod_self_left]
  rw [toNat_wrap]
  apply hvalue
  by_cases hc : foldLo.carries lo = true
  · rw [if_pos hc] at hextra
    rw [hcarry] at hc
    by_cases hc' : (foldLo + lo).carries extra = true
    · rw [if_pos hc', toNat_add, toNat_add, toNat_add, toNat_excess]
      rw [hcarry'] at hc'
      refine ⟨hi.toNat + foldHi.toNat + 2, ?_⟩
      simp only [size, modulus] at *
      omega
    · rw [if_neg hc', toNat_add, toNat_add]
      rw [hcarry'] at hc'
      refine ⟨hi.toNat + foldHi.toNat + 1, ?_⟩
      simp only [size, modulus] at *
      omega
  · rw [if_neg hc] at hextra
    rw [hcarry] at hc
    by_cases hc' : (foldLo + lo).carries extra = true
    · rw [if_pos hc', toNat_add, toNat_add, toNat_add, toNat_excess]
      rw [hcarry'] at hc'
      refine ⟨hi.toNat + foldHi.toNat + 1, ?_⟩
      simp only [size, modulus] at *
      omega
    · rw [if_neg hc', toNat_add, toNat_add]
      rw [hcarry'] at hc'
      refine ⟨hi.toNat + foldHi.toNat, ?_⟩
      simp only [size, modulus] at *
      omega

/-! ## Operations below the modulus -/

theorem toNat_addMod {a b : Word} (ha : a.toNat < modulus) (hb : b.toNat < modulus) :
    (addMod a b).toNat = (a.toNat + b.toNat) % modulus := by
  unfold addMod
  dsimp only
  by_cases h : a.carries b = true
  · rw [if_pos h, toNat_add, toNat_add, toNat_excess]
    rw [carries_iff] at h
    simp only [modulus, size] at *
    omega
  · rw [if_neg h, toNat_wrap, toNat_add]
    rw [carries_iff] at h
    simp only [modulus, size] at *
    omega

theorem toNat_subMod {a b : Word} (ha : a.toNat < modulus) (hb : b.toNat < modulus) :
    (subMod a b).toNat = (a.toNat + (modulus - b.toNat)) % modulus := by
  unfold subMod
  by_cases h : a.below b = true
  · rw [if_pos h, toNat_add, toNat_sub_of_le (by rw [toNat_mod]; omega), toNat_mod]
    rw [below_iff] at h
    simp only [modulus, size] at *
    omega
  · rw [if_neg h]
    rw [below_iff] at h
    rw [toNat_sub_of_le (by omega)]
    simp only [modulus] at *
    omega

theorem toNat_mulMod (a b : Word) : (mulMod a b).toNat = a.toNat * b.toNat % modulus := by
  unfold mulMod
  dsimp only
  rw [toNat_reduce, toNat_mulWide]

end Word

/-! ## Elements -/

namespace Element

theorem toNat_lt (a : Element) : a.toNat < Word.modulus :=
  a.word_lt

theorem toNat_inj {a b : Element} : a.toNat = b.toNat ↔ a = b := by
  constructor
  · intro h
    cases a
    cases b
    simpa only [toNat, Word.toNat_inj, mk.injEq] using h
  · rintro rfl
    rfl

@[simp] theorem toNat_zero : (0 : Element).toNat = 0 := rfl

@[simp] theorem toNat_one : (1 : Element).toNat = 1 := rfl

theorem toNat_add (a b : Element) : (a + b).toNat = (a.toNat + b.toNat) % Word.modulus :=
  Word.toNat_addMod a.word_lt b.word_lt

theorem toNat_sub (a b : Element) :
    (a - b).toNat = (a.toNat + (Word.modulus - b.toNat)) % Word.modulus :=
  Word.toNat_subMod a.word_lt b.word_lt

theorem toNat_mul (a b : Element) : (a * b).toNat = a.toNat * b.toNat % Word.modulus := by
  have hword : (a * b).word = Word.mulMod a.word b.word := by
    simp only [HMul.hMul, Mul.mul]
  rw [toNat, hword, Word.toNat_mulMod, ← toNat, ← toNat]

/-- The element of a number below `2^128`, which is less than twice the modulus. -/
theorem toNat_ofNat {n : Nat} (h : n < Word.size) : (ofNat n).toNat = n % Word.modulus := by
  show (Word.wrap (.ofNat n)).toNat = _
  rw [Word.toNat_wrap, Word.toNat_ofNat, Nat.mod_eq_of_lt h]

end Element

end Arithmetization
