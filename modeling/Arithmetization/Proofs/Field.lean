import Arithmetization.Proofs.Modular
import Mathlib.FieldTheory.Finite.Basic
import Mathlib.NumberTheory.LucasPrimality
import Mathlib.Tactic.NormNum.Prime
import Mathlib.Tactic.ReduceModChar

/-!
Elements are a field.

The modulus is prime by Lucas's test: three generates the multiplicative group, whose order is known
with its factors. Elements stand for residues one to one and every operation is the one on residues,
so the laws of a ring hold of them, powers by repeated squaring are powers, and an inverse computed
as the power `M - 2` is an inverse.
-/

set_option autoImplicit false

namespace Arithmetization

/-! ## The modulus is prime -/

/-- Lucas's test, with the primes that divide `p - 1` in a list. -/
theorem prime_of_prime_factors {p : ℕ} (a : ZMod p) (qs : List ℕ) (k : ℕ)
    (hqs : ∀ q ∈ qs, q.Prime) (hdvd : p - 1 ∣ qs.prod ^ k) (hpow : a ^ (p - 1) = 1)
    (hne : ∀ q ∈ qs, a ^ ((p - 1) / q) ≠ 1) : p.Prime := by
  refine lucas_primality p a hpow fun q hq hqdvd => ?_
  have hprod : q ∣ qs.prod := hq.dvd_of_dvd_pow (hqdvd.trans hdvd)
  obtain ⟨r, hr, hqr⟩ := (Prime.dvd_prod_iff hq.prime).1 hprod
  obtain rfl : q = r := (Nat.prime_dvd_prime_iff_eq hq (hqs r hr)).1 hqr
  exact hne q hr

theorem prime_641110271 : Nat.Prime 641110271 := by
  apply prime_of_prime_factors (7 : ZMod 641110271) [2, 5, 67, 956881] 1
  · norm_num
  · decide +kernel
  · norm_num only
    reduce_mod_char
  · simp only [List.forall_mem_cons]
    refine ⟨?_, ?_, ?_, ?_, by simp⟩ <;> norm_num only <;> reduce_mod_char <;> decide +kernel

theorem prime_329982387703 : Nat.Prime 329982387703 := by
  apply prime_of_prime_factors (6 : ZMod 329982387703) [2, 3, 11, 47, 106377301] 1
  · norm_num
  · decide +kernel
  · norm_num only
    reduce_mod_char
  · simp only [List.forall_mem_cons]
    refine ⟨?_, ?_, ?_, ?_, ?_, by simp⟩ <;> norm_num only <;> reduce_mod_char <;> decide +kernel

/-- `M - 1 = 2^32 * (2^48 - 3) * (2^48 + 3)`, and three is a primitive root. -/
theorem modulus_prime : Word.modulus.Prime := by
  unfold Word.modulus
  apply prime_of_prime_factors (3 : ZMod 340282366920938463463374607393113505793)
    [2, 11, 167, 239, 853, 641110271, 329982387703] 32
  · simp only [List.forall_mem_cons]
    refine ⟨?_, ?_, ?_, ?_, ?_, prime_641110271, prime_329982387703, by simp⟩ <;> norm_num
  · decide +kernel
  · norm_num only
    reduce_mod_char
  · simp only [List.forall_mem_cons]
    refine ⟨?_, ?_, ?_, ?_, ?_, ?_, ?_, by simp⟩ <;> norm_num only <;> reduce_mod_char <;>
      decide +kernel

instance : Fact Word.modulus.Prime := ⟨modulus_prime⟩

/-! ## Elements as residues -/

namespace Element

/-- The residue that an element stands for. -/
def toZMod (a : Element) : ZMod Word.modulus :=
  a.toNat

theorem toZMod_injective : Function.Injective toZMod := by
  intro a b h
  rw [toZMod, toZMod, ZMod.natCast_eq_natCast_iff', Nat.mod_eq_of_lt a.toNat_lt,
    Nat.mod_eq_of_lt b.toNat_lt] at h
  exact toNat_inj.1 h

@[simp] theorem toZMod_zero : (0 : Element).toZMod = 0 := by
  rw [toZMod, toNat_zero, Nat.cast_zero]

@[simp] theorem toZMod_one : (1 : Element).toZMod = 1 := by
  rw [toZMod, toNat_one, Nat.cast_one]

@[simp] theorem toZMod_add (a b : Element) : (a + b).toZMod = a.toZMod + b.toZMod := by
  rw [toZMod, toNat_add, ZMod.natCast_mod, Nat.cast_add, ← toZMod, ← toZMod]

@[simp] theorem toZMod_mul (a b : Element) : (a * b).toZMod = a.toZMod * b.toZMod := by
  rw [toZMod, toNat_mul, ZMod.natCast_mod, Nat.cast_mul, ← toZMod, ← toZMod]

@[simp] theorem toZMod_sub (a b : Element) : (a - b).toZMod = a.toZMod - b.toZMod := by
  rw [toZMod, toNat_sub, ZMod.natCast_mod, Nat.cast_add, Nat.cast_sub (Nat.le_of_lt b.toNat_lt),
    ZMod.natCast_self, zero_sub, ← sub_eq_add_neg, ← toZMod, ← toZMod]

@[simp] theorem toZMod_neg (a : Element) : (-a).toZMod = -a.toZMod := by
  have hneg : -a = 0 - a := rfl
  rw [hneg, toZMod_sub, toZMod_zero, zero_sub]

/-- The laws of a commutative ring, read off the residues. -/
instance : CommRing Element where
  add_assoc a b c := toZMod_injective (by simp only [toZMod_add, add_assoc])
  zero_add a := toZMod_injective (by simp only [toZMod_add, toZMod_zero, zero_add])
  add_zero a := toZMod_injective (by simp only [toZMod_add, toZMod_zero, add_zero])
  add_comm a b := toZMod_injective (by simp only [toZMod_add, add_comm])
  neg_add_cancel a := toZMod_injective (by
    simp only [toZMod_add, toZMod_neg, toZMod_zero, neg_add_cancel])
  sub_eq_add_neg a b := toZMod_injective (by
    simp only [toZMod_sub, toZMod_add, toZMod_neg, sub_eq_add_neg])
  mul_assoc a b c := toZMod_injective (by simp only [toZMod_mul, mul_assoc])
  one_mul a := toZMod_injective (by simp only [toZMod_mul, toZMod_one, one_mul])
  mul_one a := toZMod_injective (by simp only [toZMod_mul, toZMod_one, mul_one])
  mul_comm a b := toZMod_injective (by simp only [toZMod_mul, mul_comm])
  zero_mul a := toZMod_injective (by simp only [toZMod_mul, toZMod_zero, zero_mul])
  mul_zero a := toZMod_injective (by simp only [toZMod_mul, toZMod_zero, mul_zero])
  left_distrib a b c := toZMod_injective (by simp only [toZMod_add, toZMod_mul, mul_add])
  right_distrib a b c := toZMod_injective (by simp only [toZMod_add, toZMod_mul, add_mul])
  nsmul := nsmulRec
  zsmul := zsmulRec

/-- Elements as residues, with their ring structure. -/
def zmodHom : Element →+* ZMod Word.modulus where
  toFun := toZMod
  map_zero' := toZMod_zero
  map_one' := toZMod_one
  map_add' := toZMod_add
  map_mul' := toZMod_mul

/-! ## Powers and inverses -/

/-- Repeated squaring computes powers. -/
theorem pow_eq (a : Element) (e : Nat) : a.pow e = a ^ e := by
  induction e using Nat.strong_induction_on generalizing a with
  | _ e ih =>
    rw [pow]
    split
    · next h => rw [h, pow_zero]
    · next h =>
      have hhalf : (a * a).pow (e / 2) = a ^ (2 * (e / 2)) := by
        rw [ih (e / 2) (by omega), ← pow_two, ← pow_mul]
      dsimp only
      rw [hhalf]
      split
      · next hodd =>
        rw [← pow_succ']
        congr 1
        omega
      · next heven =>
        congr 1
        omega

theorem toZMod_pow (a : Element) (e : Nat) : (a ^ e).toZMod = a.toZMod ^ e :=
  map_pow zmodHom a e

theorem mul_inv_eq_one {a : Element} (ha : a ≠ 0) : a * a.inv = 1 := by
  have hz : a.toZMod ≠ 0 := fun h => ha (toZMod_injective (h.trans toZMod_zero.symm))
  have hsucc : Word.modulus - 2 + 1 = Word.modulus - 1 := by decide
  rw [inv, if_neg ha, pow_eq, ← pow_succ', hsucc]
  apply toZMod_injective
  rw [toZMod_pow, ZMod.pow_card_sub_one_eq_one hz, toZMod_one]

instance : Inv Element := ⟨inv⟩

theorem inv_def (a : Element) : a⁻¹ = a.inv := rfl

theorem div_def (a b : Element) : a / b = a * b⁻¹ := rfl

/-- **Elements are a field.** -/
instance : Field Element where
  exists_pair_ne := ⟨0, 1, by decide⟩
  mul_inv_cancel a ha := mul_inv_eq_one ha
  inv_zero := by rw [inv_def, inv, if_pos rfl]
  div_eq_mul_inv := div_def
  zpow n a := n.casesOn (a ^ ·) fun n => (a ^ (n + 1))⁻¹
  zpow_zero' a := pow_zero a
  zpow_succ' n a := pow_succ a n
  zpow_neg' n a := congrArg Inv.inv (Eq.refl (a ^ (n + 1)))
  nnqsmul := _
  qsmul := _

end Element

end Arithmetization
