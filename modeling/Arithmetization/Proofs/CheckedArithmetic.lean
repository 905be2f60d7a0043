import Arithmetization.Proofs.Modular
import Mathlib.Algebra.GroupWithZero.Nat

/-!
Arithmetic modulo `M` never loses a carry.

The operations on words wrap around, and a computation that uses one where the result does not fit
is silently wrong. Here every computation of field arithmetic is written once more over operations
that are left open (`Word.Arith`). With operations that wrap around it is the computation that runs
(`Word.Arith.wrapping_mulMod` and the others). With operations that refuse whatever does not fit it
still has a result, the same one (`Word.Arith.checked_mulMod` and the others), so nothing in it ever
wraps around. Sums whose carry is looked at stay as they are: those may wrap around, and what is
made of the carry is part of the computation.
-/

set_option autoImplicit false

namespace Arithmetization

namespace Word

/-- The operations on words that field arithmetic takes for exact. -/
structure Arith (m : Type → Type) where
  add : Word → Word → m Word
  sub : Word → Word → m Word
  mul : Word → Word → m Word
  /-- One limb to the left. -/
  shift : Word → m Word

namespace Arith

/-! ## Field arithmetic over any operations -/

section Programs

variable {m : Type → Type} [Monad m] (A : Arith m)

/-- A sum of several words, from the left. -/
def addAll (a : Word) (bs : List Word) : m Word :=
  bs.foldlM A.add a

/-- The full product of two words. -/
def mulWide (a b : Word) : m (Word × Word) := do
  let p₀₀ ← A.mul (ofLimb a.low) (ofLimb b.low)
  let p₀₁ ← A.mul (ofLimb a.low) (ofLimb b.high)
  let p₁₀ ← A.mul (ofLimb a.high) (ofLimb b.low)
  let p₁₁ ← A.mul (ofLimb a.high) (ofLimb b.high)
  let middle ← A.addAll (ofLimb p₀₀.high) [ofLimb p₀₁.low, ofLimb p₁₀.low]
  let upper ← A.shift (ofLimb middle.low)
  let high ← A.addAll p₁₁ [ofLimb p₀₁.high, ofLimb p₁₀.high, ofLimb middle.high]
  return (⟨upper.high, p₀₀.low⟩, high)

/-- Take the modulus away once from a word that reaches it. -/
def wrap (w : Word) : m Word :=
  if w.below mod then pure w else A.sub w mod

/-- The sum of two words modulo `M`: a carry comes back as the excess. -/
def addFold (a b : Word) : m Word :=
  if a.carries b then A.add (a + b) excess else pure (a + b)

/-- The word below `M` that equals `lo + 2^128 * hi` modulo `M`. -/
def reduce (lo hi : Word) : m Word := do
  let fold ← A.mulWide hi excess
  let small ← A.mul fold.2 excess
  let extra ← A.add small (if fold.1.carries lo then excess else ofLimb 0)
  let total ← A.addFold (fold.1 + lo) extra
  A.wrap total

/-- The sum of two words below `M`. -/
def addMod (a b : Word) : m Word :=
  if a.carries b then A.add (a + b) excess else A.wrap (a + b)

/-- The difference of two words below `M`. -/
def subMod (a b : Word) : m Word :=
  if a.below b then do A.add (← A.sub mod b) a else A.sub a b

/-- The product of two words below `M`. -/
def mulMod (a b : Word) : m Word := do
  let wide ← A.mulWide a b
  A.reduce wide.1 wide.2

end Programs

/-! ## Operations that wrap around -/

/-- Operations that wrap around. -/
def wrapping : Arith Id where
  add a b := a + b
  sub a b := a - b
  mul a b := a * b
  shift a := ⟨a.low, 0⟩

/-- The product of two limbs fits in a word. -/
theorem ofLimb_mul_lt (x y : UInt64) : (ofLimb x).toNat * (ofLimb y).toNat < size := by
  have hle := toNat_mulLimbs_le x y
  rw [toNat_mulLimbs] at hle
  rw [toNat_ofLimb, toNat_ofLimb]
  simp only [size]
  omega

/-- The product of limbs, as words, is the product of words. -/
theorem ofLimb_mul (x y : UInt64) : ofLimb x * ofLimb y = mulLimbs x y := by
  rw [← toNat_inj, toNat_mul_of_lt (ofLimb_mul_lt x y), toNat_mulLimbs, toNat_ofLimb, toNat_ofLimb]

theorem wrapping_mulWide (a b : Word) : wrapping.mulWide a b = Word.mulWide a b := by
  simp only [mulWide, wrapping, ofLimb_mul]
  rfl

theorem wrapping_reduce (lo hi : Word) : wrapping.reduce lo hi = Word.reduce lo hi := by
  rw [reduce, wrapping_mulWide]
  rfl

theorem wrapping_addMod (a b : Word) : wrapping.addMod a b = Word.addMod a b := rfl

theorem wrapping_subMod (a b : Word) : wrapping.subMod a b = Word.subMod a b := rfl

theorem wrapping_mulMod (a b : Word) : wrapping.mulMod a b = Word.mulMod a b := by
  rw [mulMod, wrapping_mulWide]
  exact wrapping_reduce _ _

/-! ## Operations that refuse -/

/-- Operations that refuse a result that does not fit in a word. -/
def checked : Arith Option where
  add a b := if a.toNat + b.toNat < size then some (a + b) else none
  sub a b := if b.toNat ≤ a.toNat then some (a - b) else none
  mul a b := if a.toNat * b.toNat < size then some (a * b) else none
  shift a := if UInt64.size * a.toNat < size then some ⟨a.low, 0⟩ else none

theorem checked_add {a b : Word} (h : a.toNat + b.toNat < size) :
    checked.add a b = some (a + b) :=
  if_pos h

theorem checked_sub {a b : Word} (h : b.toNat ≤ a.toNat) : checked.sub a b = some (a - b) :=
  if_pos h

theorem checked_mul {a b : Word} (h : a.toNat * b.toNat < size) :
    checked.mul a b = some (a * b) :=
  if_pos h

/-- A single limb can be moved to the left. -/
theorem checked_shift (x : UInt64) : checked.shift (ofLimb x) = some ⟨x, 0⟩ := by
  refine if_pos ?_
  have hx := x.toNat_lt_size
  rw [toNat_ofLimb]
  simp only [size, UInt64.size] at *
  omega

/-- A sum that fits in a word as a whole is formed without wrapping around. -/
theorem checked_addAll (a : Word) (bs : List Word) (h : a.toNat + (bs.map toNat).sum < size) :
    checked.addAll a bs = some (bs.foldl (· + ·) a)
      ∧ (bs.foldl (· + ·) a).toNat = a.toNat + (bs.map toNat).sum := by
  induction bs generalizing a with
  | nil => exact ⟨rfl, rfl⟩
  | cons b bs ih =>
    rw [List.map_cons, List.sum_cons, ← Nat.add_assoc] at h
    have hstep : a.toNat + b.toNat < size := by omega
    have hsum := toNat_add_of_lt hstep
    obtain ⟨hrest, hvalue⟩ := ih (a + b) (by rw [hsum]; exact h)
    refine ⟨?_, ?_⟩
    · rw [addAll, List.foldlM_cons, checked_add hstep]
      exact hrest
    · rw [List.foldl_cons, hvalue, hsum, List.map_cons, List.sum_cons, Nat.add_assoc]

theorem checked_mulWide (a b : Word) : checked.mulWide a b = some (Word.mulWide a b) := by
  have h₀₀ := toNat_mulLimbs_le a.low b.low
  have h₀₁ := toNat_mulLimbs_le a.low b.high
  have h₁₀ := toNat_mulLimbs_le a.high b.low
  have h₁₁ := toNat_mulLimbs_le a.high b.high
  simp only [mulWide, Word.mulWide, checked_mul (ofLimb_mul_lt _ _), ofLimb_mul,
    Option.bind_eq_bind, Option.bind_some]
  generalize mulLimbs a.low b.low = p₀₀ at *
  generalize mulLimbs a.low b.high = p₀₁ at *
  generalize mulLimbs a.high b.low = p₁₀ at *
  generalize mulLimbs a.high b.high = p₁₁ at *
  have hlow₀ := p₀₀.high.toNat_lt_size
  have hlow₁ := p₀₁.low.toNat_lt_size
  have hlow₂ := p₁₀.low.toNat_lt_size
  -- three limbs, so at most `2` is carried up
  obtain ⟨hmiddle, hcarry⟩ := checked_addAll (ofLimb p₀₀.high)
    [ofLimb p₀₁.low, ofLimb p₁₀.low] (by
      simp only [List.map_cons, List.map_nil, List.sum_cons, List.sum_nil, toNat_ofLimb, size,
        UInt64.size] at *
      omega)
  simp only [List.foldl_cons, List.foldl_nil, List.map_cons, List.map_nil, List.sum_cons,
    List.sum_nil, toNat_ofLimb] at hmiddle hcarry
  generalize ofLimb p₀₀.high + ofLimb p₀₁.low + ofLimb p₁₀.low = middle at *
  obtain ⟨hhigh, -⟩ := checked_addAll p₁₁
    [ofLimb p₀₁.high, ofLimb p₁₀.high, ofLimb middle.high] (by
      simp only [List.map_cons, List.map_nil, List.sum_cons, List.sum_nil, toNat_ofLimb]
      simp only [toNat, size, UInt64.size] at *
      omega)
  rw [hmiddle, Option.bind_some, checked_shift, Option.bind_some, hhigh]
  rfl

theorem checked_wrap (w : Word) : checked.wrap w = some w.wrap := by
  unfold wrap Word.wrap
  split
  · rfl
  · next h =>
    rw [below_iff, toNat_mod, Nat.not_lt] at h
    exact checked_sub (by rwa [toNat_mod])

/-- What is left above a word after the first fold has 36 bits. -/
theorem toNat_fold_lt (hi : Word) : (Word.mulWide hi excess).2.toNat < 38654705663 := by
  have hfold := toNat_mulWide hi excess
  have hhi := hi.toNat_lt_size
  rw [toNat_excess] at hfold
  simp only [size] at *
  omega

/-- A carry out of a sum with a short word leaves room for the excess. -/
theorem checked_addFold {a b : Word} (hb : b.toNat ≤ 38654705663 * 38654705663) :
    checked.addFold a b = some (if a.carries b then a + b + excess else a + b) := by
  unfold addFold
  split
  · next h =>
    -- after a carry the sum is below the short word, far from the top
    have ha := a.toNat_lt_size
    rw [carries_iff] at h
    refine checked_add ?_
    rw [toNat_add, toNat_excess]
    simp only [size] at *
    omega
  · rfl

theorem checked_reduce (lo hi : Word) : checked.reduce lo hi = some (Word.reduce lo hi) := by
  have hfold := toNat_fold_lt hi
  unfold reduce Word.reduce
  rw [checked_mulWide, Option.bind_eq_bind, Option.bind_some]
  generalize Word.mulWide hi excess = fold at hfold ⊢
  obtain ⟨foldLo, foldHi⟩ := fold
  dsimp only at hfold ⊢
  -- the fold has 36 bits above the word, so the second product and the carry fit with room to spare
  have hproduct : foldHi.toNat * excess.toNat < size := by
    rw [toNat_excess]
    simp only [size]
    omega
  have hsmall : (foldHi * excess).toNat = foldHi.toNat * 38654705663 := by
    rw [toNat_mul_of_lt hproduct, toNat_excess]
  have hcarry : (if foldLo.carries lo then excess else ofLimb 0).toNat ≤ 38654705663 := by
    split
    · rw [toNat_excess]
    · simp
  generalize (if foldLo.carries lo then excess else ofLimb 0) = carry at hcarry ⊢
  have hextra : (foldHi * excess).toNat + carry.toNat < size := by
    rw [hsmall]
    simp only [size]
    omega
  have hshort : (foldHi * excess + carry).toNat ≤ 38654705663 * 38654705663 := by
    rw [toNat_add_of_lt hextra, hsmall]
    omega
  rw [checked_mul hproduct, Option.bind_eq_bind, Option.bind_some, checked_add hextra,
    Option.bind_some, checked_addFold hshort, Option.bind_some, checked_wrap]

theorem checked_addMod {a b : Word} (ha : a.toNat < modulus) (hb : b.toNat < modulus) :
    checked.addMod a b = some (Word.addMod a b) := by
  unfold addMod Word.addMod
  dsimp only
  split
  · next h =>
    rw [carries_iff] at h
    refine checked_add ?_
    rw [toNat_add, toNat_excess]
    simp only [modulus, size] at *
    omega
  · exact checked_wrap _

theorem checked_subMod {a b : Word} (hb : b.toNat < modulus) :
    checked.subMod a b = some (Word.subMod a b) := by
  unfold subMod Word.subMod
  split
  · next h =>
    rw [below_iff] at h
    have hle : b.toNat ≤ mod.toNat := by
      rw [toNat_mod]
      exact hb.le
    rw [checked_sub hle, Option.bind_eq_bind, Option.bind_some]
    refine checked_add ?_
    rw [toNat_sub_of_le hle, toNat_mod]
    simp only [modulus, size] at *
    omega
  · next h =>
    rw [below_iff, Nat.not_lt] at h
    exact checked_sub h

theorem checked_mulMod (a b : Word) : checked.mulMod a b = some (Word.mulMod a b) := by
  rw [mulMod, checked_mulWide, Option.bind_eq_bind, Option.bind_some]
  exact checked_reduce _ _

/-! ## No carry is lost -/

/-- A computation in which nothing wraps around: operations that wrap around give the result, and
operations that refuse what does not fit give it too. -/
def Exact {α : Type} (program : (m : Type → Type) → [Monad m] → Arith m → m α) (result : α) :
    Prop :=
  program Id wrapping = result ∧ program Option checked = some result

end Arith

end Word

namespace Element

open Word

theorem word_mul (a b : Element) : (a * b).word = a.word.mulMod b.word := by
  simp only [HMul.hMul, Mul.mul]

theorem toNat_sub_int (a b : Element) :
    ((a - b).toNat : Int) = (a.toNat - b.toNat : Int) % modulus := by
  have hb := b.toNat_lt
  rw [toNat_sub]
  simp only [modulus] at *
  omega

/-- **Field arithmetic is exact**, for `M = 2^128 - 9 * 2^32 + 1`. The full product of two words is
their product, and a low and a high word are folded into what they leave modulo `M`. On elements
sums, differences, products and negatives are those of numbers, modulo `M`. Nothing wraps around in
any of these computations. -/
theorem arithmetic_exact :
    modulus = 2 ^ 128 - 9 * 2 ^ 32 + 1
      ∧ (∀ a b : Word,
        (mulWide a b).1.toNat + 2 ^ 128 * (mulWide a b).2.toNat = a.toNat * b.toNat
          ∧ Arith.Exact (fun _ _ A => A.mulWide a b) (mulWide a b))
      ∧ (∀ lo hi : Word,
        (reduce lo hi).toNat = (lo.toNat + 2 ^ 128 * hi.toNat) % modulus
          ∧ Arith.Exact (fun _ _ A => A.reduce lo hi) (reduce lo hi))
      ∧ (∀ a b : Element,
        (a + b).toNat = (a.toNat + b.toNat) % modulus
          ∧ Arith.Exact (fun _ _ A => A.addMod a.word b.word) (a + b).word)
      ∧ (∀ a b : Element,
        ((a - b).toNat : Int) = (a.toNat - b.toNat : Int) % modulus
          ∧ Arith.Exact (fun _ _ A => A.subMod a.word b.word) (a - b).word)
      ∧ (∀ a b : Element,
        (a * b).toNat = a.toNat * b.toNat % modulus
          ∧ Arith.Exact (fun _ _ A => A.mulMod a.word b.word) (a * b).word)
      ∧ ∀ a : Element,
        ((-a).toNat : Int) = (-a.toNat : Int) % modulus
          ∧ Arith.Exact (fun _ _ A => A.subMod (ofLimb 0) a.word) (-a).word := by
  refine ⟨by decide, fun a b => ?_, fun lo hi => ?_, fun a b => ?_, fun a b => ?_, fun a b => ?_,
    fun a => ?_⟩
  · exact ⟨toNat_mulWide a b, Arith.wrapping_mulWide a b, Arith.checked_mulWide a b⟩
  · exact ⟨toNat_reduce lo hi, Arith.wrapping_reduce lo hi, Arith.checked_reduce lo hi⟩
  · exact ⟨toNat_add a b, Arith.wrapping_addMod _ _, Arith.checked_addMod a.word_lt b.word_lt⟩
  · exact ⟨toNat_sub_int a b, Arith.wrapping_subMod _ _, Arith.checked_subMod b.word_lt⟩
  · rw [word_mul]
    exact ⟨toNat_mul a b, Arith.wrapping_mulMod _ _, Arith.checked_mulMod _ _⟩
  · have hneg := toNat_sub_int 0 a
    rw [toNat_zero, Nat.cast_zero, Int.zero_sub] at hneg
    exact ⟨hneg, Arith.wrapping_subMod _ _, Arith.checked_subMod a.word_lt⟩

end Element

end Arithmetization
