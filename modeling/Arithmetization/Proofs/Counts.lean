import Arithmetization.Overflow
import Arithmetization.Proofs.Outcomes
import Mathlib.Algebra.GroupWithZero.Nat

/-!
Counts and overflow.

A count that is kept is the number itself as long as that is in range. Numbers that are added one
after the other, each sum being kept, end in what is kept of their sum (`Overflow.sum_eq`): it makes
no difference whether the range is looked at after every step or once at the end. So a total is
known from the exact sum alone, whatever happens to a count out of range.
-/

set_option autoImplicit false

namespace Arithmetization

namespace Overflow

theorem keep_of_lt (o : Overflow) {n : Nat} (h : n < bound) : o.keep n = .ok n :=
  if_pos h

theorem keep_wrap (n : Nat) : keep .wrap n = .ok (n % bound) := by
  unfold keep
  split
  · next h => rw [Nat.mod_eq_of_lt h]
  · rfl

theorem keep_trap_of_le {n : Nat} (h : bound ≤ n) : keep .trap n = .error .overflow :=
  if_neg (Nat.not_lt.2 h)

theorem keep_trap_eq_ok {n m : Nat} : keep .trap n = .ok m ↔ n < bound ∧ m = n := by
  by_cases h : n < bound
  · rw [keep_of_lt _ h, Except.ok.injEq, and_iff_right h, eq_comm]
  · rw [keep_trap_of_le (Nat.not_lt.1 h)]
    exact ⟨fun h' => (by cases h'), fun h' => absurd h'.1 h⟩

theorem keep_exact (n : Nat) : keep .exact n = .ok n :=
  ite_self _

/-- Where an overflow stops the run, `n` is in range. -/
def Holds (o : Overflow) (n : Nat) : Prop :=
  o = .trap → n < bound

theorem Holds.mono {o : Overflow} {m n : Nat} (h : o.Holds n) (hle : m ≤ n) : o.Holds m :=
  fun ho => Nat.lt_of_le_of_lt hle (h ho)

/-- A count that does not go round is the number itself. -/
theorem keep_eq_ok {o : Overflow} (ho : o ≠ .wrap) {n m : Nat} :
    o.keep n = .ok m ↔ o.Holds n ∧ m = n := by
  cases o with
  | wrap => exact absurd rfl ho
  | trap =>
    rw [keep_trap_eq_ok]
    exact and_congr_left fun _ => ⟨fun h _ => h, fun h => h rfl⟩
  | exact =>
    rw [keep_exact, Except.ok.injEq, eq_comm]
    exact (and_iff_right fun h => (by cases h)).symm

/-- What is kept is the number itself, unless it goes round. -/
theorem eq_of_keep {o : Overflow} {n m : Nat} (hrange : o = .wrap → n < bound)
    (h : o.keep n = .ok m) : m = n := by
  by_cases ho : o = .wrap
  · -- only a number out of range goes round
    rw [keep_of_lt o (hrange ho)] at h
    exact (Except.ok.inj h).symm
  · exact ((keep_eq_ok ho).1 h).2

/-- Where a number is kept as it is, all smaller ones are. -/
theorem keep_of_le {o : Overflow} {m n : Nat} (h : o.keep n = .ok n) (hle : m ≤ n) :
    o.keep m = .ok m := by
  cases o with
  | exact => exact keep_exact m
  | trap => exact keep_of_lt _ (Nat.lt_of_le_of_lt hle (keep_trap_eq_ok.1 h).1)
  | wrap =>
    rw [keep_wrap] at h
    have hlt : n < bound := Except.ok.inj h ▸ Nat.mod_lt _ (by decide)
    exact keep_of_lt _ (Nat.lt_of_le_of_lt hle hlt)

/-- The counts of a machine are in range. -/
theorem lt_of_keep {o : Overflow} (ho : o ≠ .exact) {n m : Nat} (h : o.keep n = .ok m) :
    m < bound := by
  cases o with
  | exact => exact absurd rfl ho
  | trap =>
    obtain ⟨hlt, rfl⟩ := keep_trap_eq_ok.1 h
    exact hlt
  | wrap =>
    rw [keep_wrap] at h
    exact Except.ok.inj h ▸ Nat.mod_lt _ (by decide)

/-- What was kept is kept again. -/
theorem keep_of_keep {o : Overflow} {n m : Nat} (h : o.keep n = .ok m) : o.keep m = .ok m := by
  by_cases ho : o = .exact
  · rw [ho, keep_exact]
  · exact keep_of_lt o (lt_of_keep ho h)

/-- Where a run is not stopped by an overflow, counts are the same whatever an overflow does. -/
theorem keep_refines (o : Overflow) (n : Nat) : Refines (keep .trap n) (o.keep n) := by
  intro m h
  obtain ⟨hlt, rfl⟩ := keep_trap_eq_ok.1 h
  exact keep_of_lt o hlt

/-- Of a sum it does not matter whether a part of it was kept before. -/
theorem keep_bind_add (o : Overflow) (m n : Nat) :
    (o.keep m >>= fun k => o.keep (k + n)) = o.keep (m + n) := by
  by_cases hm : m < bound
  · rw [keep_of_lt o hm]
    rfl
  cases o with
  | trap =>
    have hle : bound ≤ m + n := by omega
    rw [keep_trap_of_le (Nat.not_lt.1 hm), keep_trap_of_le hle]
    rfl
  | wrap =>
    rw [keep_wrap, keep_wrap]
    exact (keep_wrap _).trans (by rw [Nat.mod_add_mod])
  | exact =>
    rw [keep_exact]
    rfl

/-- **Adding one after the other** is keeping the exact sum. -/
theorem foldlM_add {o : Overflow} {m : Nat} (hm : o.keep m = .ok m) (ns : List Nat) :
    ns.foldlM o.add m = o.keep (m + ns.sum) := by
  induction ns generalizing m with
  | nil => exact hm.symm
  | cons n ns ih =>
    rw [List.foldlM_cons, List.sum_cons, ← Nat.add_assoc, ← keep_bind_add, add]
    cases hk : o.keep (m + n) with
    | error e => rfl
    | ok k => exact ih (keep_of_keep hk)

theorem keep_zero (o : Overflow) : o.keep 0 = .ok 0 :=
  keep_of_lt o (by decide)

theorem sum_eq (o : Overflow) (ns : List Nat) : o.sum ns = o.keep ns.sum := by
  rw [sum, foldlM_add o.keep_zero, Nat.zero_add]

end Overflow

end Arithmetization
