import Arithmetization.Input.Layout
import Arithmetization.Proofs.Counts
import Mathlib.Order.Basic

/-!
Groups of values, and lists that run through values in order.

Groups are given by their lengths alone. `Layout.InGroup` says which values are in which group, by
the number of values in the groups before it, and `Layout.groupAt` finds that group for every value
that there is (`Layout.inGroup_iff`). So does adding up the lengths, as long as the number of all
values is in range (`Layout.groupOf_eq`). The map of an input register is a list that starts at the
first value, goes on by at most one at each step and ends at the last (`Layout.Covers`). The groups
of such a list make such a list again (`Layout.Covers.groups`), and each value stands in it on one
block of places, the blocks one after the other (`Layout.Covers.start_le_and_lt_iff`).
-/

set_option autoImplicit false

namespace Arithmetization

namespace Layout

/-! ## Groups -/

/-- The number of values is what is kept of the sum of the lengths. -/
theorem valueCount_eq (o : Overflow) (shape : List Nat) :
    valueCount o shape = (o.keep shape.sum).mapError .stop := by
  rw [valueCount, Overflow.sum_eq]

/-- The group of a value, without any range. Past the last value it is the last group. -/
def groupAt (shape : List Nat) (v : Nat) : Nat :=
  match shape with
  | [] => 0
  | [_] => 0
  | n :: rest => if v < n then 0 else 1 + groupAt rest (v - n)

theorem groupAt_cons_cons (n m v : Nat) (shape : List Nat) :
    groupAt (n :: m :: shape) v = if v < n then 0 else 1 + groupAt (m :: shape) (v - n) := rfl

/-- Adding up the lengths one after the other leads to the same group, since no sum on the way is
larger than the last one. -/
theorem groupFrom_eq {o : Overflow} {v n g stop : Nat} {shape : List Nat}
    (hkept : o.keep (stop + (n :: shape).sum) = .ok (stop + (n :: shape).sum)) (hstop : stop ≤ v) :
    groupFrom o v g stop (n :: shape) = .ok (g + groupAt (n :: shape) (v - stop)) := by
  induction shape generalizing n g stop with
  | nil =>
    rw [List.sum_singleton] at hkept
    rw [groupFrom, Overflow.add, hkept]
    exact ite_self _
  | cons m shape ih =>
    rw [List.sum_cons, ← Nat.add_assoc] at hkept
    rw [groupFrom, Overflow.add, Overflow.keep_of_le hkept (Nat.le_add_right ..)]
    -- the groups before were passed, so `v` is in this one or in one after it
    by_cases hlt : v < stop + n
    · have hin : v - stop < n := by omega
      rw [groupAt_cons_cons, if_pos hin]
      exact if_pos hlt
    · have hout : ¬v - stop < n := by omega
      rw [groupAt_cons_cons, if_neg hout, Nat.sub_sub, ← Nat.add_assoc]
      exact (if_neg hlt).trans (ih hkept (Nat.not_lt.1 hlt))

theorem groupOf_eq {o : Overflow} {shape : List Nat} (hkept : o.keep shape.sum = .ok shape.sum)
    (v : Nat) : groupOf o shape v = .ok (groupAt shape v) := by
  cases shape with
  | nil => rfl
  | cons n shape =>
    rw [groupOf, groupFrom_eq (by rwa [Nat.zero_add]) (Nat.zero_le v), Nat.zero_add, Nat.sub_zero]

theorem mapM_groupOf {o : Overflow} {shape : List Nat} (hkept : o.keep shape.sum = .ok shape.sum)
    (vs : List Nat) : vs.mapM (groupOf o shape) = .ok (vs.map (groupAt shape)) := by
  rw [funext (groupOf_eq hkept)]
  exact List.mapM_pure

/-- Value number `v` is in group number `g`, for groups of the given lengths. -/
def InGroup (shape : List Nat) (g v : Nat) : Prop :=
  (shape.take g).sum ≤ v ∧ v < (shape.take (g + 1)).sum

theorem inGroup_cons_zero {n v : Nat} {shape : List Nat} :
    InGroup (n :: shape) 0 v ↔ v < n := by
  simp [InGroup]

theorem inGroup_cons_succ {n g v : Nat} {shape : List Nat} :
    InGroup (n :: shape) (g + 1) v ↔ n ≤ v ∧ InGroup shape g (v - n) := by
  simp only [InGroup, List.take_succ_cons, List.sum_cons]
  omega

theorem groupAt_cons_of_lt {n v : Nat} {shape : List Nat} (h : v < n) :
    groupAt (n :: shape) v = 0 := by
  cases shape with
  | nil => rfl
  | cons m shape => exact if_pos h

theorem groupAt_cons_of_le {n v : Nat} {shape : List Nat} (h : n ≤ v)
    (hv : v < (n :: shape).sum) :
    groupAt (n :: shape) v = groupAt shape (v - n) + 1 := by
  cases shape with
  | nil =>
    rw [List.sum_cons, List.sum_nil] at hv
    omega
  | cons m shape => exact (if_neg (Nat.not_lt.2 h)).trans (Nat.add_comm ..)

/-- A value is in the group that is looked up for it, and in no other. -/
theorem inGroup_iff {shape : List Nat} {g v : Nat} :
    InGroup shape g v ↔ v < shape.sum ∧ g = groupAt shape v := by
  induction shape generalizing g v with
  | nil => simp [InGroup]
  | cons n shape ih =>
    by_cases hv : v < n
    · have hlt : v < (n :: shape).sum := by
        rw [List.sum_cons]
        omega
      rw [groupAt_cons_of_lt hv]
      cases g with
      | zero => exact iff_of_true (inGroup_cons_zero.2 hv) ⟨hlt, rfl⟩
      | succ g =>
        refine iff_of_false (fun h => ?_) (fun h => Nat.succ_ne_zero g h.2)
        have hle := (inGroup_cons_succ.1 h).1
        omega
    · have hle := Nat.not_lt.1 hv
      cases g with
      | zero =>
        refine iff_of_false (mt inGroup_cons_zero.1 hv) fun h => ?_
        have hgroup := h.2
        rw [groupAt_cons_of_le hle h.1] at hgroup
        omega
      | succ g =>
        rw [inGroup_cons_succ, ih]
        constructor
        · rintro ⟨-, hlt, rfl⟩
          have hlt' : v < (n :: shape).sum := by
            rw [List.sum_cons]
            omega
          exact ⟨hlt', (groupAt_cons_of_le hle hlt').symm⟩
        · rintro ⟨hlt, hgroup⟩
          rw [groupAt_cons_of_le hle hlt] at hgroup
          rw [List.sum_cons] at hlt
          exact ⟨hle, by omega, Nat.succ.inj hgroup⟩

/-- Groups that are not empty have at least a value each. -/
theorem length_le_sum {shape : List Nat} (h : 0 ∉ shape) :
    shape.length ≤ shape.sum := by
  induction shape with
  | nil => exact Nat.le_refl 0
  | cons n shape ih =>
    rw [List.mem_cons, not_or] at h
    have hrest := ih h.2
    have hpos : 0 < n := Nat.pos_of_ne_zero (Ne.symm h.1)
    rw [List.length_cons, List.sum_cons]
    omega

theorem groupAt_zero {shape : List Nat} (h : 0 ∉ shape) : groupAt shape 0 = 0 := by
  cases shape with
  | nil => rfl
  | cons n shape =>
    rw [List.mem_cons, not_or] at h
    exact groupAt_cons_of_lt (Nat.pos_of_ne_zero (Ne.symm h.1))

/-- The next value is in the same group or in the next one. -/
theorem groupAt_succ {shape : List Nat} (h : 0 ∉ shape) {v : Nat}
    (hv : v + 1 < shape.sum) :
    groupAt shape (v + 1) = groupAt shape v ∨ groupAt shape (v + 1) = groupAt shape v + 1 := by
  induction shape generalizing v with
  | nil => cases hv
  | cons n shape ih =>
    rw [List.mem_cons, not_or] at h
    by_cases hbefore : v + 1 < n
    · rw [groupAt_cons_of_lt hbefore, groupAt_cons_of_lt (by omega)]
      exact .inl rfl
    · have hnext := groupAt_cons_of_le (Nat.not_lt.1 hbefore) hv
      rw [List.sum_cons] at hv
      by_cases hlast : v < n
      · -- the step leaves the first group
        obtain rfl : v + 1 = n := by omega
        rw [hnext, groupAt_cons_of_lt hlast, Nat.sub_self, groupAt_zero h.2]
        exact .inr rfl
      · have hcur : groupAt (n :: shape) v = groupAt shape (v - n) + 1 :=
          groupAt_cons_of_le (Nat.not_lt.1 hlast) (by rw [List.sum_cons]; omega)
        have hstep : v + 1 - n = v - n + 1 := by omega
        rw [hnext, hcur, hstep]
        have hrec := ih h.2 (v := v - n) (by omega)
        omega

theorem groupAt_last {shape : List Nat} (h : 0 ∉ shape) (hpos : 0 < shape.sum) :
    groupAt shape (shape.sum - 1) = shape.length - 1 := by
  induction shape with
  | nil => rfl
  | cons n shape ih =>
    rw [List.mem_cons, not_or] at h
    rw [List.sum_cons] at hpos ⊢
    have hn : 0 < n := Nat.pos_of_ne_zero (Ne.symm h.1)
    cases hshape : shape with
    | nil => exact groupAt_cons_of_lt (by rw [List.sum_nil]; omega)
    | cons m rest =>
      rw [← hshape]
      have hlength : shape.length = rest.length + 1 := by rw [hshape, List.length_cons]
      have hrest : 0 < shape.sum := by
        have hle := length_le_sum h.2
        omega
      rw [groupAt_cons_of_le (by omega) (by rw [List.sum_cons]; omega)]
      have hsub : n + shape.sum - 1 - n = shape.sum - 1 := by omega
      rw [hsub, ih h.2 hrest, List.length_cons]
      omega

/-! ## Running through values -/

/-- The list starts at `0`, grows by `0` or `1` at each step and ends at `total - 1`. -/
structure Covers (total : Nat) (map : List Nat) : Prop where
  pos : 0 < total
  first : map[0]? = some 0
  step : ∀ {l v w : Nat}, map[l]? = some v → map[l + 1]? = some w → w = v ∨ w = v + 1
  last : map[map.length - 1]? = some (total - 1)

theorem covers_range {n : Nat} (h : 0 < n) : Covers n (List.range n) where
  pos := h
  first := List.getElem?_range h
  step {l v w} hv hw := by
    obtain ⟨_, rfl⟩ := List.getElem?_eq_some_iff.1 hv
    obtain ⟨_, rfl⟩ := List.getElem?_eq_some_iff.1 hw
    rw [List.getElem_range, List.getElem_range]
    exact .inr rfl
  last := by
    rw [List.length_range]
    exact List.getElem?_range (by omega)

namespace Covers

variable {total : Nat} {map : List Nat}

theorem le (h : Covers total map) {l d v w : Nat} (hv : map[l]? = some v)
    (hw : map[l + d]? = some w) : v ≤ w := by
  induction d generalizing w with
  | zero => exact Nat.le_of_eq (Option.some.inj (hv.symm.trans hw))
  | succ d ih =>
    have hlt : l + d < map.length := by
      have := (List.getElem?_eq_some_iff.1 hw).1
      omega
    have hmid := ih (List.getElem?_eq_getElem hlt)
    rcases h.step (List.getElem?_eq_getElem hlt) hw with hstep | hstep <;> omega

theorem lt (h : Covers total map) {l v : Nat} (hv : map[l]? = some v) : v < total := by
  have hlt := (List.getElem?_eq_some_iff.1 hv).1
  have hlast := h.last
  have hplace : map.length - 1 = l + (map.length - 1 - l) := by omega
  rw [hplace] at hlast
  have hle := h.le hv hlast
  have hpos := h.pos
  omega

/-- The groups of the values are run through in the same way. -/
theorem groups {shape : List Nat} (h : Covers (shape.sum) map) (hshape : 0 ∉ shape) :
    Covers shape.length (map.map (groupAt shape)) where
  pos := by
    by_contra hnil
    have hpos := h.pos
    rw [List.length_eq_zero_iff.1 (Nat.eq_zero_of_not_pos hnil)] at hpos
    exact Nat.lt_irrefl 0 hpos
  first := by rw [List.getElem?_map, h.first, Option.map_some, groupAt_zero hshape]
  step {l g g'} hg hg' := by
    rw [List.getElem?_map, Option.map_eq_some_iff] at hg hg'
    obtain ⟨v, hv, rfl⟩ := hg
    obtain ⟨w, hw, rfl⟩ := hg'
    rcases h.step hv hw with rfl | rfl
    · exact .inl rfl
    · exact groupAt_succ hshape (h.lt hw)
  last := by
    rw [List.length_map, List.getElem?_map, h.last, Option.map_some, groupAt_last hshape h.pos]

/-- The first place at which a value has been reached. -/
def start (map : List Nat) (v : Nat) : Nat :=
  map.findIdx (v ≤ ·)

theorem lt_start_iff (h : Covers total map) {l w : Nat} (hl : map[l]? = some w) (v : Nat) :
    l < start map v ↔ w < v := by
  obtain ⟨hlt, rfl⟩ := List.getElem?_eq_some_iff.1 hl
  constructor
  · intro hbefore
    simpa using List.not_of_lt_findIdx hbefore
  · intro hw
    by_contra hafter
    have hfound : start map v < map.length := by omega
    have hreached : v ≤ map[start map v] := of_decide_eq_true (List.findIdx_getElem (w := hfound))
    have hplace : map[start map v + (l - start map v)]? = some map[l] := by
      rw [Nat.add_sub_cancel' (by omega)]
      exact hl
    have hle := h.le (List.getElem?_eq_getElem hfound) hplace
    omega

theorem start_zero (h : Covers total map) : start map 0 = 0 := by
  have hnot := mt (h.lt_start_iff h.first 0).1 (Nat.lt_irrefl 0)
  omega

theorem start_total (h : Covers total map) : start map total = map.length := by
  refine List.findIdx_eq_length.2 fun v hv => ?_
  obtain ⟨l, hl⟩ := List.getElem?_of_mem hv
  simpa using h.lt hl

/-- The places of a value are those from its start on and before the start of the next one. -/
theorem start_le_and_lt_iff (h : Covers total map) {l w : Nat} (hl : map[l]? = some w) (v : Nat) :
    start map v ≤ l ∧ l < start map (v + 1) ↔ w = v := by
  rw [← Nat.not_lt, h.lt_start_iff hl, h.lt_start_iff hl]
  omega

/-- No value is left out: at its start the step before was one less. -/
theorem start_lt_start_succ (h : Covers total map) {v : Nat} (hv : v < total) :
    start map v < start map (v + 1) := by
  have hlast := h.last
  have hfound : start map v < map.length := by
    by_contra hnone
    have hplace := (List.getElem?_eq_some_iff.1 hlast).1
    have hbefore := (h.lt_start_iff hlast v).1 (by omega)
    omega
  obtain ⟨w, hw⟩ : ∃ w, map[start map v]? = some w := ⟨_, List.getElem?_eq_getElem hfound⟩
  rw [h.lt_start_iff hw]
  cases hs : start map v with
  | zero =>
    rw [hs, h.first] at hw
    have := Option.some.inj hw
    omega
  | succ l =>
    have hprev : map[l]? = some map[l] := List.getElem?_eq_getElem (by omega)
    have hbefore := (h.lt_start_iff hprev v).1 (by omega)
    rw [hs] at hw
    rcases h.step hprev hw with hstep | hstep <;> omega

end Covers

end Layout

end Arithmetization
