import Arithmetization.Proofs.Declarations
import Arithmetization.Proofs.Secrecy
import Mathlib.Logic.Relation

/-!
The forest of input registers.

Registers are declared one after the other, and a declaration that is refused leaves what was
declared before it (`RegisterBuilder.attempt_cases`). What each declaration checks against the
earlier ones therefore holds of every register in a builder, whatever was tried in between
(`RegisterBuilder.InOrder.attempts`). The checks that concern all registers together are made at the
end, and they fail only if a filled input has no child or leaves differ in their steps
(`RegisterBuilder.build_eq_ok`). Nothing looks for the leaf below a filled input: it is there
because children come after their parents, so that a walk from child to child ends
(`RegisterSet.exists_leaf_beneath`).
-/

set_option autoImplicit false

namespace Arithmetization

/-! ## Declarations -/

/-- What is said in declaring a register. -/
inductive Declaration where
  | input (secret binary scalar : Bool) (parent steps : Option Nat)
  | cycle (source : CycleSource)
  | mask (source value : Nat)

/-- The register that is declared; the rank of an input comes from its parent. -/
def Declaration.register (rank : Nat) : Declaration → Register
  | .input secret binary scalar parent steps =>
    .input ⟨secret, binary, scalar, rank, parent, steps⟩
  | .cycle source => .cycle source
  | .mask source value => .mask source value

namespace RegisterBuilder

def declare (b : RegisterBuilder) : Declaration → Except RegisterFault RegisterBuilder
  | .input secret binary scalar parent steps => b.input secret binary scalar parent steps
  | .cycle source => b.cycle source
  | .mask source value => b.mask source value

/-- A declaration, accepted or not: the builder afterwards, and the index of the new register or
what is wrong. -/
def attempt (b : RegisterBuilder) (d : Declaration) :
    RegisterBuilder × Except RegisterFault Nat :=
  match b.declare d with
  | .ok b' => (b', .ok (b'.registers.length - 1))
  | .error cause => (b, .error cause)

/-- The builder after a sequence of declarations, accepted or not. -/
def attempts (b : RegisterBuilder) (ds : List Declaration) : RegisterBuilder :=
  ds.foldl (fun b d => (b.attempt d).1) b

theorem declare_eq_ok {b b' : RegisterBuilder} {d : Declaration} :
    b.declare d = .ok b' ↔
      ∃ rank, b.Allows (d.register rank) ∧ b' = b.push (d.register rank) := by
  cases d with
  | input secret binary scalar parent steps => exact input_eq_ok
  | cycle source => exact cycle_eq_ok.trans (exists_const Nat).symm
  | mask source value => exact mask_eq_ok.trans (exists_const Nat).symm

/-- **One declaration** is refused and changes nothing, or adds the register at the next index. -/
theorem attempt_cases (b : RegisterBuilder) (d : Declaration) :
    (∃ cause, b.attempt d = (b, .error cause))
      ∨ ∃ rank, b.Allows (d.register rank)
        ∧ b.attempt d = (b.push (d.register rank), .ok b.nextIndex) := by
  unfold attempt
  cases hd : b.declare d with
  | error cause => exact .inl ⟨cause, rfl⟩
  | ok b' =>
    obtain ⟨rank, hallows, rfl⟩ := declare_eq_ok.1 hd
    refine .inr ⟨rank, hallows, Prod.ext rfl (congrArg Except.ok ?_)⟩
    simp [push, nextIndex]

theorem InOrder.attempt {b : RegisterBuilder} (h : b.InOrder) (d : Declaration) :
    (b.attempt d).1.InOrder ∧ (b.attempt d).1.modulus = b.modulus := by
  rcases b.attempt_cases d with ⟨cause, hd⟩ | ⟨rank, hallows, hd⟩
  · rw [hd]
    exact ⟨h, rfl⟩
  · rw [hd]
    exact ⟨h.push hallows, rfl⟩

/-- The registers of a builder are in order, whatever was tried. -/
theorem InOrder.attempts {b : RegisterBuilder} (h : b.InOrder) (ds : List Declaration) :
    (b.attempts ds).InOrder ∧ (b.attempts ds).modulus = b.modulus := by
  induction ds generalizing b with
  | nil => exact ⟨h, rfl⟩
  | cons d ds ih =>
    obtain ⟨horder, hmodulus⟩ := h.attempt d
    obtain ⟨hall, hsame⟩ := ih horder
    exact ⟨hall, hsame.trans hmodulus⟩

end RegisterBuilder

/-! ## The forest -/

namespace RegisterSet

/-- Register `j` is an input register whose parent is register `i`. -/
def ParentOf (set : RegisterSet) (i j : Nat) : Prop :=
  ∃ r, set.registers[j]? = some (.input r) ∧ r.parent = some i

/-- Register `j` is below register `i`: a child of it, or a child of one below it. -/
def Beneath (set : RegisterSet) : Nat → Nat → Prop :=
  Relation.TransGen set.ParentOf

/-- What holds of the registers of a set that was accepted. -/
structure Forest (modulus : Nat) (set : RegisterSet) : Prop where
  /-- A parent is an earlier input and no leaf, and its children have the next rank. -/
  parent : ∀ {i p : Nat} {r : InputRegister}, set.registers[i]? = some (.input r) →
    r.parent = some p → p < i ∧ ∃ q, set.registers[p]? = some (.input q) ∧ q.isLeaf = false
      ∧ r.rank = q.rank + 1
  rank_eq_zero : ∀ {i : Nat} {r : InputRegister}, set.registers[i]? = some (.input r) →
    (r.rank = 0 ↔ r.parent = none)
  /-- There is a leaf below every input that is not one itself. -/
  leaf : ∀ {i : Nat} {r : InputRegister}, set.registers[i]? = some (.input r) →
    r.isLeaf = false →
    ∃ j q, set.Beneath i j ∧ set.registers[j]? = some (.input q) ∧ q.isLeaf = true
  /-- All leaves have the same steps. -/
  steps : ∃ k, ∀ {i n : Nat} {r : InputRegister}, set.registers[i]? = some (.input r) →
    r.steps = some n → n = 2 ^ k
  cycle : ∀ {i : Nat} {source : CycleSource}, set.registers[i]? = some (.cycle source) →
    (∃ k, source.period = 2 ^ k) ∧ source.Below modulus
  mask : ∀ {i source value : Nat}, set.registers[i]? = some (.mask source value) →
    source < i ∧ value < modulus

theorem mem_inputs {set : RegisterSet} {i : Nat} {r : InputRegister} :
    (i, r) ∈ set.inputs ↔ set.registers[i]? = some (.input r) := by
  have hinput : ∀ (register : Register) (q : InputRegister),
      register.input? = some q ↔ register = .input q := by
    intro register q
    cases register <;> simp [Register.input?]
  simp only [inputs, List.mem_filterMap, Prod.exists, List.mem_zipIdx_iff_getElem?,
    Option.map_eq_some_iff, Prod.mk.injEq, hinput]
  constructor
  · rintro ⟨register, j, hj, _, rfl, rfl, rfl⟩
    exact hj
  · intro hi
    exact ⟨_, i, hi, r, rfl, rfl, rfl⟩

theorem mem_children {set : RegisterSet} {i j : Nat} : j ∈ set.children i ↔ set.ParentOf i j := by
  simp only [children, List.mem_map, List.mem_filter, decide_eq_true_eq, Prod.exists, mem_inputs]
  constructor
  · rintro ⟨k, r, ⟨hj, hp⟩, rfl⟩
    exact ⟨r, hj, hp⟩
  · rintro ⟨r, hj, hp⟩
    exact ⟨j, r, ⟨hj, hp⟩, rfl⟩

/-- Some filled input has no child. -/
def Barren (set : RegisterSet) : Prop :=
  ∃ (i : Nat) (r : InputRegister), set.registers[i]? = some (.input r) ∧ r.isLeaf = false
    ∧ ∀ j, ¬ set.ParentOf i j

/-- Two leaves differ in their steps. -/
def Uneven (set : RegisterSet) : Prop :=
  ∃ (i j : Nat) (r q : InputRegister) (n m : Nat), set.registers[i]? = some (.input r)
    ∧ set.registers[j]? = some (.input q) ∧ r.steps = some n ∧ q.steps = some m ∧ n ≠ m

end RegisterSet

namespace RegisterBuilder

theorem barren_eq_nil {set : RegisterSet} : barren set = [] ↔ ¬ set.Barren := by
  rw [barren, List.map_eq_nil_iff, List.filter_eq_nil_iff, Prod.forall, RegisterSet.Barren]
  have hchildren : ∀ i, (set.children i).isEmpty = true ↔ ∀ j, ¬ set.ParentOf i j := by
    intro i
    simp only [List.isEmpty_iff, List.eq_nil_iff_forall_not_mem, RegisterSet.mem_children]
  simp only [RegisterSet.mem_inputs, Bool.and_eq_true, Bool.not_eq_true', hchildren]
  push Not
  rfl

/-- Leaves are compared with the first one, which is as good as comparing any two. -/
theorem uneven_eq_nil {set : RegisterSet} : uneven set = [] ↔ ¬ set.Uneven := by
  have hmem : ∀ i n, (i, n) ∈ set.inputs.filterMap (fun input => input.2.steps.map (input.1, ·)) ↔
      ∃ r, set.registers[i]? = some (.input r) ∧ r.steps = some n := by
    intro i n
    simp only [List.mem_filterMap, Prod.exists, RegisterSet.mem_inputs, Option.map_eq_some_iff,
      Prod.mk.injEq]
    constructor
    · rintro ⟨j, r, hj, m, hm, rfl, rfl⟩
      exact ⟨r, hj, hm⟩
    · rintro ⟨r, hi, hn⟩
      exact ⟨i, r, hi, n, hn, rfl, rfl⟩
  unfold uneven RegisterSet.Uneven
  split
  next hleaves =>
    replace hmem := fun i n => hleaves ▸ hmem i n
    refine iff_of_true rfl ?_
    rintro ⟨i, j, r, q, n, m, hi, -, hn, -⟩
    cases (hmem i n).2 ⟨r, hi, hn⟩
  next i₀ shared rest hleaves =>
    replace hmem := fun i n => hleaves ▸ hmem i n
    rw [List.map_eq_nil_iff, List.filter_eq_nil_iff]
    constructor
    · rintro hrest ⟨i, j, r, q, n, m, hi, hj, hn, hm, hne⟩
      have hshared : ∀ i n, (i, n) ∈ (i₀, shared) :: rest → n = shared := by
        intro i n hin
        rcases List.mem_cons.1 hin with hin | hin
        · exact (Prod.mk.inj hin).2
        · simpa using hrest _ hin
      exact hne ((hshared i n ((hmem i n).2 ⟨r, hi, hn⟩)).trans
        (hshared j m ((hmem j m).2 ⟨q, hj, hm⟩)).symm)
    · rintro heven ⟨i, n⟩ hin
      obtain ⟨r, hi, hn⟩ := (hmem i n).1 (List.mem_cons_of_mem _ hin)
      obtain ⟨q, hj, hm⟩ := (hmem i₀ shared).1 (List.mem_cons_self ..)
      simp only [bne_iff_ne, not_not]
      by_contra hne
      exact heven ⟨i, i₀, r, q, n, shared, hi, hj, hn, hm, hne⟩

/-- **What is checked at the end**: the registers are given back if every filled input has a child
and all leaves have the same steps. -/
theorem build_eq_ok {b : RegisterBuilder} {set : RegisterSet} :
    b.build = .ok set ↔
      set = ⟨b.registers⟩ ∧ ¬ RegisterSet.Barren ⟨b.registers⟩
        ∧ ¬ RegisterSet.Uneven ⟨b.registers⟩ := by
  rw [← barren_eq_nil, ← uneven_eq_nil, ← List.append_eq_nil_iff]
  unfold build
  dsimp only
  cases barren ⟨b.registers⟩ ++ uneven ⟨b.registers⟩ with
  | nil =>
    rw [Except.ok.injEq, eq_comm]
    exact (and_iff_left rfl).symm
  | cons cause causes => exact ⟨fun h => (by cases h), fun h => (by cases h.2)⟩

theorem build_eq_error {b : RegisterBuilder} :
    (∃ faults, b.build = .error faults) ↔
      RegisterSet.Barren ⟨b.registers⟩ ∨ RegisterSet.Uneven ⟨b.registers⟩ := by
  have hok : b.build = .ok ⟨b.registers⟩ ↔
      ¬ (RegisterSet.Barren ⟨b.registers⟩ ∨ RegisterSet.Uneven ⟨b.registers⟩) := by
    rw [build_eq_ok, not_or]
    exact and_iff_right rfl
  constructor
  · rintro ⟨faults, hfaults⟩
    by_contra hnone
    rw [hok.2 hnone] at hfaults
    cases hfaults
  · intro hbad
    cases hbuild : b.build with
    | error faults => exact ⟨faults, rfl⟩
    | ok set =>
      obtain ⟨rfl, -⟩ := build_eq_ok.1 hbuild
      exact absurd hbad (hok.1 hbuild)

theorem rank_some_eq_ok {b : RegisterBuilder} {p n : Nat} (h : b.rank (some p) = .ok n) :
    ∃ q, b.registers[p]? = some (.input q) ∧ q.isLeaf = false ∧ n = q.rank + 1 := by
  unfold rank at h
  dsimp only at h
  split at h
  · next q hq =>
    split at h
    · cases h
    · next hleaf => exact ⟨q, hq, eq_false_of_ne_true hleaf, (Except.ok.inj h).symm⟩
  · cases h

end RegisterBuilder

namespace RegisterSet

/-- Walking from child to child, a leaf is reached: children come after their parents. -/
theorem exists_leaf_beneath {set : RegisterSet} (hlater : ∀ {i j}, set.ParentOf i j → i < j)
    (hchild : ¬ set.Barren) {i : Nat} {r : InputRegister}
    (hi : set.registers[i]? = some (.input r)) (hr : r.isLeaf = false) :
    ∃ j q, set.Beneath i j ∧ set.registers[j]? = some (.input q) ∧ q.isLeaf = true := by
  -- the induction is on the number of registers after `i`
  induction hn : set.registers.length - i using Nat.strong_induction_on generalizing i r with
  | _ n ih =>
    obtain ⟨j, hj⟩ : ∃ j, set.ParentOf i j := by
      by_contra hnone
      exact hchild ⟨i, r, hi, hr, not_exists.1 hnone⟩
    obtain ⟨q, hq, -⟩ := id hj
    by_cases hleaf : q.isLeaf = true
    · exact ⟨j, q, .single hj, hq, hleaf⟩
    · have hlt : j < set.registers.length := (List.getElem?_eq_some_iff.1 hq).1
      have hij := hlater hj
      obtain ⟨k, l, hk, hl, hlast⟩ := ih _ (by omega) hq (eq_false_of_ne_true hleaf) rfl
      exact ⟨k, l, .head hj hk, hl, hlast⟩

/-- Registers in order that pass the last checks are a forest. -/
theorem forest_of_inOrder {b : RegisterBuilder} (h : b.InOrder)
    (hbarren : ¬ RegisterSet.Barren ⟨b.registers⟩) (heven : ¬ RegisterSet.Uneven ⟨b.registers⟩) :
    Forest b.modulus ⟨b.registers⟩ := by
  have hparent : ∀ {i p : Nat} {r : InputRegister}, b.registers[i]? = some (.input r) →
      r.parent = some p → p < i ∧ ∃ q, b.registers[p]? = some (.input q) ∧ q.isLeaf = false
        ∧ r.rank = q.rank + 1 := by
    intro i p r hi hp
    obtain ⟨hrank, -⟩ := h _ _ hi
    rw [hp] at hrank
    obtain ⟨q, hq, hleaf, hnext⟩ := RegisterBuilder.rank_some_eq_ok hrank
    have hlt : p < i := by
      have hin := (List.getElem?_eq_some_iff.1 hq).1
      rw [List.length_take] at hin
      omega
    rw [List.getElem?_take_of_lt hlt] at hq
    exact ⟨hlt, q, hq, hleaf, hnext⟩
  have hlater : ∀ {i j}, ParentOf ⟨b.registers⟩ i j → i < j := by
    rintro i j ⟨r, hj, hp⟩
    exact (hparent hj hp).1
  refine ⟨hparent, fun {i r} hi => ?_, exists_leaf_beneath hlater hbarren, ?_, fun hi => ?_,
    fun hi => ?_⟩
  · cases hp : r.parent with
    | none =>
      obtain ⟨hrank, -⟩ := h _ _ hi
      rw [hp] at hrank
      exact iff_of_true (Except.ok.inj hrank).symm rfl
    | some p =>
      obtain ⟨-, q, -, -, hrank⟩ := hparent hi hp
      exact iff_of_false (by omega) (by simp)
  · by_cases hleaf : ∃ (i : Nat) (r : InputRegister) (n : Nat),
        b.registers[i]? = some (.input r) ∧ r.steps = some n
    · obtain ⟨i, r, n, hi, hn⟩ := hleaf
      obtain ⟨-, -, hpower⟩ := h _ _ hi
      obtain ⟨k, rfl⟩ := isPowerOfTwo_iff.1 (hpower n hn)
      refine ⟨k, fun {j m q} hj hm => ?_⟩
      by_contra hne
      exact heven ⟨j, i, q, r, m, 2 ^ k, hj, hi, hm, hn, hne⟩
    · exact ⟨0, fun {j m q} hj hm => absurd ⟨j, q, m, hj, hm⟩ hleaf⟩
  · obtain ⟨hbelow, hperiod⟩ := h _ _ hi
    exact ⟨isPowerOfTwo_iff.1 hperiod, RegisterBuilder.outside?_eq_none hbelow⟩
  · obtain ⟨hsource, hvalue⟩ := h _ _ hi
    have hlt : _ < (b.registers.take _).length := hsource
    rw [List.length_take] at hlt
    exact ⟨by omega, hvalue⟩

/-- A set that some sequence of declarations leads to. -/
def Accepted (modulus : Nat) (set : RegisterSet) : Prop :=
  ∃ ds, ((RegisterBuilder.empty modulus).attempts ds).build = .ok set

theorem Accepted.forest {modulus : Nat} {set : RegisterSet} (h : set.Accepted modulus) :
    set.Forest modulus := by
  obtain ⟨ds, hbuild⟩ := h
  obtain ⟨horder, hmodulus⟩ := (RegisterBuilder.inOrder_empty modulus).attempts ds
  obtain ⟨rfl, hbarren, heven⟩ := RegisterBuilder.build_eq_ok.1 hbuild
  have hforest := forest_of_inOrder horder hbarren heven
  rwa [hmodulus] at hforest

theorem Forest.admissible {modulus : Nat} {set : RegisterSet} (h : set.Forest modulus) :
    set.Admissible modulus := by
  intro i r hi
  cases r with
  | input r => trivial
  | cycle source =>
    obtain ⟨hperiod, hbelow⟩ := h.cycle hi
    exact ⟨isPowerOfTwo_iff.2 hperiod, hbelow⟩
  | mask source value => exact h.mask hi

end RegisterSet

namespace RegisterBuilder

/-- **Declarations keep the forest.** From no registers on, every declaration of a sequence either
is refused and leaves the registers as they are, or appends the declared register at the next index.
The registers that are left at the end are refused exactly if a filled input has no child or two
leaves differ in their steps. Otherwise they are given back as they are. They are a forest then, and
masks lead from source to source to an input or to a cycle. -/
theorem declarations_keep_forest (modulus : Nat) (ds : List Declaration) :
    (∀ d,
      (∃ cause, ((empty modulus).attempts ds).attempt d
        = ((empty modulus).attempts ds, .error cause))
      ∨ ∃ rank b, ((empty modulus).attempts ds).attempt d
          = (b, .ok ((empty modulus).attempts ds).nextIndex)
        ∧ b.modulus = modulus
        ∧ b.registers = ((empty modulus).attempts ds).registers ++ [d.register rank])
    ∧ ((∃ faults, ((empty modulus).attempts ds).build = .error faults) ↔
        RegisterSet.Barren ⟨((empty modulus).attempts ds).registers⟩
          ∨ RegisterSet.Uneven ⟨((empty modulus).attempts ds).registers⟩)
    ∧ ∀ set, ((empty modulus).attempts ds).build = .ok set →
        set.registers = ((empty modulus).attempts ds).registers ∧ set.Forest modulus
          ∧ ∀ i < set.size, ∃ j, set.DrawsFrom i j
            ∧ ((∃ r, set.registers[j]? = some (.input r))
              ∨ ∃ source, set.registers[j]? = some (.cycle source)) := by
  obtain ⟨-, hmodulus⟩ := (inOrder_empty modulus).attempts ds
  refine ⟨fun d => ?_, build_eq_error, fun set hbuild => ?_⟩
  · rcases attempt_cases ((empty modulus).attempts ds) d with hrefused | ⟨rank, -, hd⟩
    · exact .inl hrefused
    · exact .inr ⟨rank, _, hd, hmodulus, rfl⟩
  · have hforest := RegisterSet.Accepted.forest ⟨ds, hbuild⟩
    obtain ⟨rfl, -⟩ := build_eq_ok.1 hbuild
    exact ⟨rfl, hforest, fun i hi => RegisterSet.exists_drawsFrom hforest.admissible hi⟩

end RegisterBuilder

end Arithmetization
