import Arithmetization.Proofs.Forest
import Arithmetization.Proofs.Groups

/-!
Inputs over the trace.

The slots of an accepted set of registers form a forest in which parents come before their children
and every slot that is no leaf has a child (`InputSlot.Rooted`). A layout that is accepted has
checked the numbers of groups and compared the leaves, and its maps were made from the last slot to
the first (`Layout.Laid`). Together these say what the map of a slot is, by induction from the end:
the map of a leaf runs through all leaf values, and the map of any other slot gives the groups of
the map of a child, so it runs through all groups, one for each value of the slot
(`Layout.Laid.covers`). Every value then has a block of rows of its own, no row is without a value,
and the rows of a value are those of the leaf values in the groups below it
(`Layout.inputs_laid_out`).
-/

set_option autoImplicit false

namespace Arithmetization

/-! ## Registers -/

/-- The period of a cycle; `0` for other registers. -/
def Register.ownPeriod : Register → Nat
  | .cycle source => source.period
  | _ => 0

namespace RegisterSet

/-- The input registers are listed by their indexes. -/
theorem pairwise_inputs (set : RegisterSet) : set.inputs.Pairwise fun a b => a.1 < b.1 := by
  have hindexes : set.registers.zipIdx.Pairwise fun a b => a.2 < b.2 := by
    rw [← List.pairwise_map (f := Prod.snd) (R := (· < ·)), List.zipIdx_map_snd]
    exact List.pairwise_lt_range' 1
  rw [inputs, List.pairwise_filterMap]
  refine hindexes.imp fun {a b} hlt x hx y hy => ?_
  obtain ⟨r, -, rfl⟩ := Option.map_eq_some_iff.1 hx
  obtain ⟨q, -, rfl⟩ := Option.map_eq_some_iff.1 hy
  exact hlt

theorem inputs_lt_iff {set : RegisterSet} {i j : Nat} {a b : Nat × InputRegister}
    (hi : set.inputs[i]? = some a) (hj : set.inputs[j]? = some b) : a.1 < b.1 ↔ i < j := by
  obtain ⟨hilt, rfl⟩ := List.getElem?_eq_some_iff.1 hi
  obtain ⟨hjlt, rfl⟩ := List.getElem?_eq_some_iff.1 hj
  have hsorted := List.pairwise_iff_getElem.1 set.pairwise_inputs
  rcases Nat.lt_trichotomy i j with h | rfl | h
  · exact iff_of_true (hsorted i j hilt hjlt h) h
  · simp
  · have := hsorted j i hjlt hilt h
    omega

/-- An index is looked up among the input registers by its only place. -/
theorem idxOf?_inputs {set : RegisterSet} {i p : Nat} :
    (set.inputs.map Prod.fst).idxOf? p = some i ↔ ∃ r, set.inputs[i]? = some (p, r) := by
  rw [List.idxOf?_eq_some_iff]
  constructor
  · rintro ⟨hi, hp, -⟩
    rw [List.length_map] at hi
    rw [List.getElem_map] at hp
    exact ⟨set.inputs[i].2, by rw [List.getElem?_eq_getElem hi, ← hp]⟩
  · rintro ⟨r, hr⟩
    obtain ⟨hi, hp⟩ := List.getElem?_eq_some_iff.1 hr
    refine ⟨by rwa [List.length_map], by rw [List.getElem_map, hp], fun j hj heq => ?_⟩
    rw [List.getElem_map] at heq
    have hlt := (inputs_lt_iff (List.getElem?_eq_getElem (hj.trans hi)) hr).2 hj
    omega

/-- The periods are powers of two, so the longest one is a multiple of each. -/
theorem Forest.period_dvd {modulus : Nat} {set : RegisterSet} (h : set.Forest modulus)
    {source : CycleSource} (hsource : .cycle source ∈ set.registers) :
    0 < set.maxPeriod ∧ source.period ∣ set.maxPeriod := by
  have hperiod : ∀ {source : CycleSource}, .cycle source ∈ set.registers →
      ∃ k, source.period = 2 ^ k := by
    intro source hmem
    obtain ⟨i, hi⟩ := List.getElem?_of_mem hmem
    exact (h.cycle hi).1
  refine (dvd_foldl_max_of_two_pow (f := Register.ownPeriod) (fun longest r => ?_)
    fun r hr => ?_).2 _ hsource ?_
  · cases r with
    | cycle source => rfl
    | input r => exact (Nat.max_eq_left (Nat.zero_le _)).symm
    | mask source value => exact (Nat.max_eq_left (Nat.zero_le _)).symm
  · cases r with
    | input r => exact .inl rfl
    | mask source value => exact .inl rfl
    | cycle source => exact .inr (hperiod hr)
  · obtain ⟨k, hk⟩ := hperiod hsource
    rw [Register.ownPeriod, hk]
    positivity

end RegisterSet

/-! ## Slots -/

namespace InputSlot

/-- Slots that form a forest: parents come first, a slot that is no leaf has a child, and the steps
of a leaf are not zero. -/
structure Rooted (slots : List InputSlot) : Prop where
  parent : ∀ {c i : Nat} {child : InputSlot}, slots[c]? = some child → child.parent = some i →
    i < c ∧ ∃ slot, slots[i]? = some slot ∧ slot.isLeaf = false
  child : ∀ {i : Nat} {slot : InputSlot}, slots[i]? = some slot → slot.isLeaf = false →
    ∃ (c : Nat) (child : InputSlot), slots[c]? = some child ∧ child.parent = some i
  steps_pos : ∀ {slot : InputSlot} {n : Nat}, slot ∈ slots → slot.steps = some n → 0 < n

theorem ofRegisters_eq_some {set : RegisterSet} {i : Nat} {slot : InputSlot}
    (h : (ofRegisters set)[i]? = some slot) :
    ∃ r, set.inputs[i]? = some (slot.register, r)
      ∧ slot.parent = r.parent.bind (set.inputs.map Prod.fst).idxOf? ∧ slot.steps = r.steps := by
  rw [ofRegisters, List.getElem?_map, Option.map_eq_some_iff] at h
  obtain ⟨⟨p, r⟩, hr, rfl⟩ := h
  exact ⟨r, hr, rfl, rfl⟩

theorem exists_ofRegisters {set : RegisterSet} {i p : Nat} {r : InputRegister}
    (h : set.inputs[i]? = some (p, r)) :
    ∃ slot, (ofRegisters set)[i]? = some slot ∧ slot.register = p ∧ slot.steps = r.steps := by
  rw [ofRegisters, List.getElem?_map, h, Option.map_some]
  exact ⟨_, rfl, rfl, rfl⟩

/-- The parent of a slot is the slot of the parent. -/
theorem parent_iff {set : RegisterSet} {i c : Nat} {slot child : InputSlot}
    (hi : (ofRegisters set)[i]? = some slot) (hc : (ofRegisters set)[c]? = some child) :
    child.parent = some i ↔ set.ParentOf slot.register child.register := by
  obtain ⟨r, hr, -⟩ := ofRegisters_eq_some hi
  obtain ⟨q, hq, hparent, -⟩ := ofRegisters_eq_some hc
  have hregister := RegisterSet.mem_inputs.1 (List.mem_of_getElem? hq)
  rw [hparent, Option.bind_eq_some_iff]
  constructor
  · rintro ⟨p, hp, hplace⟩
    obtain ⟨r', hr'⟩ := RegisterSet.idxOf?_inputs.1 hplace
    obtain ⟨rfl, -⟩ := Prod.mk.inj (Option.some.inj (hr'.symm.trans hr))
    exact ⟨q, hregister, hp⟩
  · rintro ⟨q', hq', hp⟩
    obtain rfl := Register.input.inj (Option.some.inj (hq'.symm.trans hregister))
    exact ⟨slot.register, hp, RegisterSet.idxOf?_inputs.2 ⟨r, hr⟩⟩

/-- The slots of a forest of registers form one. -/
theorem rooted_ofRegisters {modulus : Nat} {set : RegisterSet} (h : set.Forest modulus) :
    Rooted (ofRegisters set) where
  parent {c i child} hc hp := by
    obtain ⟨q, hq, hparent, -⟩ := ofRegisters_eq_some hc
    rw [hparent, Option.bind_eq_some_iff] at hp
    obtain ⟨p, hp, hplace⟩ := hp
    obtain ⟨r, hr⟩ := RegisterSet.idxOf?_inputs.1 hplace
    obtain ⟨hlt, r', hr', hleaf, -⟩ :=
      h.parent (RegisterSet.mem_inputs.1 (List.mem_of_getElem? hq)) hp
    have hmem := RegisterSet.mem_inputs.1 (List.mem_of_getElem? hr)
    obtain rfl := Register.input.inj (Option.some.inj (hr'.symm.trans hmem))
    obtain ⟨slot, hslot, -, hsteps⟩ := exists_ofRegisters hr
    refine ⟨(RegisterSet.inputs_lt_iff hr hq).1 hlt, slot, hslot, ?_⟩
    rw [isLeaf, hsteps]
    exact hleaf
  child {i slot} hi hleaf := by
    obtain ⟨r, hr, -, hsteps⟩ := ofRegisters_eq_some hi
    have hinner : r.isLeaf = false := by rwa [InputRegister.isLeaf, ← hsteps]
    -- the first step down to a leaf leads to a child
    obtain ⟨j, -, hbeneath, -⟩ := h.leaf (RegisterSet.mem_inputs.1 (List.mem_of_getElem? hr)) hinner
    obtain ⟨p, hchild, -⟩ := Relation.TransGen.head'_iff.1 hbeneath
    obtain ⟨q, hq, -⟩ := id hchild
    obtain ⟨c, hc⟩ := List.getElem?_of_mem (RegisterSet.mem_inputs.2 hq)
    obtain ⟨child, hchildSlot, rfl, -⟩ := exists_ofRegisters hc
    exact ⟨c, child, hchildSlot, (parent_iff hi hchildSlot).2 hchild⟩
  steps_pos {slot n} hslot hn := by
    obtain ⟨i, hi⟩ := List.getElem?_of_mem hslot
    obtain ⟨r, hr, -, hsteps⟩ := ofRegisters_eq_some hi
    obtain ⟨k, hk⟩ := h.steps
    have hpow : n = 2 ^ k :=
      hk (RegisterSet.mem_inputs.1 (List.mem_of_getElem? hr)) (hsteps.symm.trans hn)
    rw [hpow]
    exact Nat.two_pow_pos k

end InputSlot

/-! ## What a layout has checked -/

namespace Layout

/-- The number of values of a leaf, which is that of the first one. -/
def leafCount (slots : List InputSlot) (shapes : List (List Nat)) : Nat :=
  (((slots.zip shapes).filter (·.1.isLeaf)).head?.map (·.2.sum)).getD 0

/-- What is known of a layout for groups of the given lengths. -/
structure Laid (slots : List InputSlot) (shapes : List (List Nat)) (l : Layout) : Prop where
  length_shapes : shapes.length = slots.length
  length_maps : l.maps.length = slots.length
  /-- No group is empty. -/
  nonempty : ∀ {i : Nat} {shape : List Nat}, shapes[i]? = some shape → 0 ∉ shape
  /-- Without a parent there is a single group. -/
  root : ∀ {i : Nat} {slot : InputSlot} {shape : List Nat}, slots[i]? = some slot →
    shapes[i]? = some shape → slot.parent = none → shape.length = 1
  /-- With a parent there is a group for each value of it. -/
  groups : ∀ {i c : Nat} {child : InputSlot} {shape shape' : List Nat}, slots[c]? = some child →
    child.parent = some i → shapes[i]? = some shape → shapes[c]? = some shape' →
    shape'.length = shape.sum
  leaf_count : ∀ {i : Nat} {slot : InputSlot} {shape : List Nat}, slots[i]? = some slot →
    slot.isLeaf = true → shapes[i]? = some shape → shape.sum = leafCount slots shapes
  leaf_map : ∀ {i : Nat} {slot : InputSlot} {map : List Nat}, slots[i]? = some slot →
    slot.isLeaf = true → l.maps[i]? = some map → map = List.range (leafCount slots shapes)
  /-- The map of a slot that is no leaf is the same through each child. -/
  child_map : ∀ {i c : Nat} {slot child : InputSlot} {shape map map' : List Nat},
    slots[i]? = some slot → slot.isLeaf = false → l.maps[i]? = some map → i < c →
    slots[c]? = some child → child.parent = some i → shapes[c]? = some shape →
    l.maps[c]? = some map' → map = map'.map (groupAt shape)
  steps_eq : l.steps = 1 ∨ ∃ slot ∈ slots, slot.steps = some l.steps
  length_eq : slots ≠ [] → l.traceLength = leafCount slots shapes * l.steps

/-- Numbers of values that do not go round are the sums of the lengths. -/
theorem mapM_valueCount_eq_ok {o : Overflow} {shapes : List (List Nat)} {totals : List Nat}
    (hrange : o = .wrap → ∀ shape ∈ shapes, shape.sum < Overflow.bound)
    (h : shapes.mapM (valueCount o) = .ok totals) :
    totals = shapes.map List.sum ∧ ∀ shape ∈ shapes, o.keep shape.sum = .ok shape.sum := by
  induction shapes generalizing totals with
  | nil =>
    obtain rfl := Except.ok.inj h
    exact ⟨rfl, fun shape hshape => (by cases hshape)⟩
  | cons shape shapes ih =>
    rw [List.mapM_cons] at h
    obtain ⟨n, hn, h⟩ := bind_eq_ok.1 h
    obtain ⟨ns, hns, h⟩ := bind_eq_ok.1 h
    obtain rfl := Except.ok.inj h
    rw [valueCount_eq, mapError_eq_ok] at hn
    obtain rfl := Overflow.eq_of_keep (fun ho => hrange ho shape List.mem_cons_self) hn
    obtain ⟨rfl, hkept⟩ := ih (fun ho s hs => hrange ho s (List.mem_cons_of_mem _ hs)) hns
    refine ⟨rfl, fun s hs => ?_⟩
    rcases List.mem_cons.1 hs with rfl | hs
    · exact hn
    · exact hkept s hs

theorem leaves_map_sum (slots : List InputSlot) (shapes : List (List Nat)) :
    leaves slots shapes (shapes.map List.sum) =
      ((slots.zip shapes).filter (·.1.isLeaf)).map fun p => (p.1, p.2, p.2.sum) := by
  have hzip : slots.zip (shapes.zip (shapes.map List.sum)) =
      (slots.zip shapes).map fun p => (p.1, p.2, p.2.sum) := by
    rw [← List.map_prod_left_eq_zip, List.zip_map_right]
    rfl
  rw [leaves, hzip, List.filter_map]
  rfl

theorem checkGroups_eq_ok {slot : InputSlot} {groups total : Nat} {shape : List Nat}
    (h : checkGroups slot groups shape total = .ok ()) : shape.length = groups ∧ 0 ∉ shape := by
  unfold checkGroups at h
  split at h
  · cases h
  next hlength =>
  split at h
  · cases h
  next hzero =>
  exact ⟨not_not.1 hlength, by simpa using hzero⟩

theorem checkAll_eq_ok {slots : List InputSlot} {shapes : List (List Nat)}
    (h : checkAll slots shapes (shapes.map List.sum) = .ok ()) {i : Nat} {slot : InputSlot}
    {shape : List Nat} (hslot : slots[i]? = some slot) (hshape : shapes[i]? = some shape) :
    0 ∉ shape ∧ (slot.parent = none → shape.length = 1)
      ∧ ∀ {p : Nat}, slot.parent = some p → shape.length = (shapes.map List.sum).getD p 0 := by
  have htotal : (shapes.map List.sum)[i]? = some shape.sum := by
    rw [List.getElem?_map, hshape, Option.map_some]
  have hmem : (slot, shape, shape.sum) ∈ slots.zip (shapes.zip (shapes.map List.sum)) :=
    List.mem_of_getElem? (List.getElem?_zip_eq_some.2
      ⟨hslot, List.getElem?_zip_eq_some.2 ⟨hshape, htotal⟩⟩)
  have hcheck := checkGroups_eq_ok (forM_eq_ok.1 h _ hmem)
  refine ⟨hcheck.2, fun hparent => ?_, fun hparent => ?_⟩
  · simpa only [hparent] using hcheck.1
  · simpa only [hparent] using hcheck.1

/-- All leaves have the groups of the first one. -/
theorem checkLeaves_eq_ok {leaves : List (InputSlot × List Nat × Nat)}
    (h : checkLeaves leaves = .ok ()) {leaf : InputSlot × List Nat × Nat} (hleaf : leaf ∈ leaves) :
    ∃ first, leaves.head? = some first ∧ leaf.2.1 = first.2.1 := by
  cases leaves with
  | nil => cases hleaf
  | cons first rest =>
    refine ⟨first, rfl, ?_⟩
    unfold checkLeaves at h
    dsimp only at h
    split at h
    · cases h
    next hsame =>
    rcases List.mem_cons.1 hleaf with rfl | hrest
    · rfl
    · simpa using List.find?_eq_none.1 hsame leaf hrest

/-- So all leaves have as many values. -/
theorem sum_eq_leafCount {slots : List InputSlot} {shapes : List (List Nat)}
    (h : checkLeaves (leaves slots shapes (shapes.map List.sum)) = .ok ()) {slot : InputSlot}
    {shape : List Nat} (hmem : (slot, shape) ∈ slots.zip shapes) (hleaf : slot.isLeaf = true) :
    shape.sum = leafCount slots shapes := by
  rw [leaves_map_sum] at h
  obtain ⟨first, hfirst, hsame⟩ := checkLeaves_eq_ok h
    (List.mem_map_of_mem (List.mem_filter.2 ⟨hmem, hleaf⟩))
  rw [List.head?_map, Option.map_eq_some_iff] at hfirst
  obtain ⟨pair, hpair, rfl⟩ := hfirst
  rw [leafCount, hpair, Option.map_some, Option.getD_some]
  exact congrArg List.sum hsame

/-- The children are compared with the first one, so the map is that of each of them. -/
theorem through_eq_ok {slot : InputSlot} {maps : List (List Nat)} {map : List Nat}
    (h : through slot maps = .ok map) : ∀ m ∈ maps, m = map := by
  cases maps with
  | nil =>
    intro m hm
    cases hm
  | cons first rest =>
    rw [through] at h
    split at h
    · next hall =>
      obtain rfl := Except.ok.inj h
      intro m hm
      rcases List.mem_cons.1 hm with rfl | hrest
      · rfl
      · simpa using List.all_eq_true.1 hall m hrest
    · cases h

theorem places_eq_ok {leafCount : Nat} {map : List Nat} (h : places leafCount = .ok map) :
    map = List.range leafCount := by
  unfold places at h
  split at h
  · exact (Except.ok.inj h).symm
  · cases h

/-- **One map** is made from those after it: all places for a leaf, else the groups of any child. -/
theorem mapsFrom_cons_eq_ok {o : Overflow} {leafCount index : Nat} {slot : InputSlot}
    {shape : List Nat} {rest : List (InputSlot × List Nat)}
    {entries : List (InputSlot × List Nat × List Nat)}
    (h : mapsFrom o leafCount index ((slot, shape) :: rest) = .ok entries) :
    ∃ later map, mapsFrom o leafCount (index + 1) rest = .ok later
      ∧ entries = (slot, shape, map) :: later
      ∧ (slot.isLeaf = true → map = List.range leafCount)
      ∧ (slot.isLeaf = false → ∀ e ∈ later, e.1.parent = some index →
        e.2.2.mapM (groupOf o e.2.1) = .ok map) := by
  rw [mapsFrom] at h
  obtain ⟨later, hlater, h⟩ := bind_eq_ok.1 h
  obtain ⟨map, hmap, h⟩ := bind_eq_ok.1 h
  refine ⟨later, map, hlater, (Except.ok.inj h).symm, fun hleaf => ?_, fun hinner => ?_⟩
  · rw [mapOf, if_pos hleaf] at hmap
    exact places_eq_ok hmap
  · rw [mapOf, hinner, if_neg Bool.false_ne_true] at hmap
    obtain ⟨maps, hmaps, hmap⟩ := bind_eq_ok.1 hmap
    intro e he hparent
    have hchild : e ∈ later.filter fun e => decide (e.1.parent = some index) :=
      List.mem_filter.2 ⟨he, decide_eq_true hparent⟩
    obtain ⟨m, hm, hgroups⟩ := ok_of_mem_of_mapM hmaps hchild
    rwa [through_eq_ok hmap m hm] at hgroups

/-- The maps of the slots from `index` on, each made from those after it. -/
theorem mapsFrom_eq_ok {o : Overflow} {leafCount index : Nat} {pairs : List (InputSlot × List Nat)}
    {entries : List (InputSlot × List Nat × List Nat)}
    (h : mapsFrom o leafCount index pairs = .ok entries) :
    entries.map (fun e => (e.1, e.2.1)) = pairs
      ∧ ∀ {k : Nat} {e : InputSlot × List Nat × List Nat}, entries[k]? = some e →
        (e.1.isLeaf = true → e.2.2 = List.range leafCount)
        ∧ (e.1.isLeaf = false → ∀ {c : Nat} {e' : InputSlot × List Nat × List Nat}, k < c →
          entries[c]? = some e' → e'.1.parent = some (index + k) →
          e'.2.2.mapM (groupOf o e'.2.1) = .ok e.2.2) := by
  induction pairs generalizing index entries with
  | nil =>
    obtain rfl := Except.ok.inj h
    exact ⟨rfl, fun he => (by cases he)⟩
  | cons pair rest ih =>
    obtain ⟨later, map, hlater, rfl, hleaf, hinner⟩ := mapsFrom_cons_eq_ok h
    obtain ⟨hpairs, hentries⟩ := ih hlater
    refine ⟨congrArg (pair :: ·) hpairs, fun {k e} he => ?_⟩
    cases k with
    | zero =>
      obtain rfl := Option.some.inj he
      refine ⟨hleaf, fun hslot c e' hc he' hparent => ?_⟩
      -- a later place is one among the later slots
      obtain ⟨d, rfl⟩ := Nat.exists_eq_add_of_lt hc
      rw [Nat.zero_add, List.getElem?_cons_succ] at he'
      exact hinner hslot e' (List.mem_of_getElem? he') hparent
    | succ k =>
      rw [List.getElem?_cons_succ] at he
      obtain ⟨hleaf', hinner'⟩ := hentries he
      refine ⟨hleaf', fun hslot c e' hc he' hparent => ?_⟩
      obtain ⟨d, rfl⟩ := Nat.exists_eq_add_of_lt hc
      have hplace : k + 1 + d + 1 = k + d + 1 + 1 := by omega
      have hindex : index + (k + 1) = index + 1 + k := by omega
      rw [hplace, List.getElem?_cons_succ] at he'
      rw [hindex] at hparent
      exact hinner' hslot (by omega) he' hparent

theorem getElem?_of_length_eq {α β : Type} {xs : List α} {ys : List β}
    (h : ys.length = xs.length) {i : Nat} {x : α} (hx : xs[i]? = some x) :
    ∃ y, ys[i]? = some y := by
  have hlt := (List.getElem?_eq_some_iff.1 hx).1
  exact ⟨_, List.getElem?_eq_getElem (h.symm ▸ hlt)⟩

/-- Counts that go round do not leave their range, for these groups and steps. -/
def InRange (o : Overflow) (slots : List InputSlot) (shapes : List (List Nat)) (steps : Nat) :
    Prop :=
  o = .wrap →
    (∀ shape ∈ shapes, shape.sum < Overflow.bound) ∧ leafCount slots shapes * steps < Overflow.bound

/-- A layout that is accepted has passed the checks, and its maps were made from the last slot to
the first. -/
theorem laid_of_ofShapes {slots : List InputSlot} {shapes : List (List Nat)} {maxPeriod : Nat}
    {limits : Limits} {o : Overflow} {l : Layout}
    (h : ofShapes slots shapes maxPeriod limits o = .ok l)
    (hrange : InRange o slots shapes l.steps) : Laid slots shapes l := by
  obtain ⟨hlen, -, totals, n, entries, htotals, hall, hleaves, hn, hsteps, hentries, hmaps,
    hlength⟩ := ofShapes_cases h
  -- the numbers that were compared are the sums of the lengths
  obtain ⟨rfl, hkept⟩ := mapM_valueCount_eq_ok (fun ho => (hrange ho).1) htotals
  obtain rfl : n = leafCount slots shapes := by
    rw [hn, leaves_map_sum, List.head?_map, Option.map_map]
    rfl
  rw [leaves_map_sum, List.head?_map] at hsteps
  obtain ⟨hpairs, hmade⟩ := mapsFrom_eq_ok hentries
  -- the entry in a place has the slot, the groups and the map of that place
  have hentry : ∀ {i : Nat} {slot : InputSlot} {shape map : List Nat}, slots[i]? = some slot →
      shapes[i]? = some shape → l.maps[i]? = some map →
      entries[i]? = some (slot, shape, map) := by
    intro i slot shape map hslot hshape hmap
    rw [hmaps, List.getElem?_map, Option.map_eq_some_iff] at hmap
    obtain ⟨e, he, rfl⟩ := hmap
    have hpair : (slots.zip shapes)[i]? = some (slot, shape) :=
      List.getElem?_zip_eq_some.2 ⟨hslot, hshape⟩
    rw [← hpairs, List.getElem?_map, he, Option.map_some] at hpair
    obtain ⟨rfl, rfl⟩ := Prod.mk.inj (Option.some.inj hpair)
    exact he
  exact {
    length_shapes := hlen
    length_maps := by
      have hcount := congrArg List.length hpairs
      rw [List.length_map, List.length_zip, hlen, Nat.min_self] at hcount
      rw [hmaps, List.length_map, hcount]
    nonempty {i shape} hshape := by
      obtain ⟨slot, hslot⟩ := getElem?_of_length_eq hlen.symm hshape
      exact (checkAll_eq_ok hall hslot hshape).1
    root {i slot shape} hslot hshape hparent := (checkAll_eq_ok hall hslot hshape).2.1 hparent
    groups {i c child shape shape'} hchild hparent hshape hshape' := by
      have hcount := (checkAll_eq_ok hall hchild hshape').2.2 hparent
      rwa [List.getD_eq_getElem?_getD, List.getElem?_map, hshape, Option.map_some,
        Option.getD_some] at hcount
    leaf_count {i slot shape} hslot hleaf hshape := by
      have hpair : (slot, shape) ∈ slots.zip shapes :=
        List.mem_of_getElem? (List.getElem?_zip_eq_some.2 ⟨hslot, hshape⟩)
      exact sum_eq_leafCount hleaves hpair hleaf
    leaf_map {i slot map} hslot hleaf hmap := by
      obtain ⟨shape, hshape⟩ := getElem?_of_length_eq hlen hslot
      exact (hmade (hentry hslot hshape hmap)).1 hleaf
    child_map {i c slot child shape map map'} hslot hinner hmap hlt hchild hparent hshape
        hmap' := by
      obtain ⟨shape', hshape'⟩ := getElem?_of_length_eq hlen hslot
      have hgroups := (hmade (hentry hslot hshape' hmap)).2 hinner hlt (hentry hchild hshape hmap')
        (by rwa [Nat.zero_add])
      -- adding up lengths leads to the group, as their sum is in range
      rw [mapM_groupOf (hkept shape (List.mem_of_getElem? hshape))] at hgroups
      exact (Except.ok.inj hgroups).symm
    steps_eq := by
      cases hfirst : ((slots.zip shapes).filter (·.1.isLeaf)).head? with
      | none =>
        rw [hfirst] at hsteps
        exact .inl hsteps
      | some first =>
        obtain ⟨hpair, hleaf⟩ := List.mem_filter.1 (List.mem_of_head? hfirst)
        obtain ⟨n, hn⟩ := Option.isSome_iff_exists.1 hleaf
        rw [hfirst, Option.map_some, Option.bind_some, hn, Option.getD_some] at hsteps
        exact .inr ⟨first.1, (List.of_mem_zip hpair).1, hn.trans (congrArg some hsteps.symm)⟩
    length_eq hne := Overflow.eq_of_keep (fun ho => (hrange ho).2) (hlength hne) }

/-! ## Maps -/

/-- Value `x` of slot `k` is below value `u` of slot `i`: it is that value, or it is below a value
of a child of slot `i` that is in group `u`. -/
inductive Under (slots : List InputSlot) (shapes : List (List Nat)) (k x : Nat) :
    Nat → Nat → Prop where
  | self : Under slots shapes k x k x
  | group {i c u w : Nat} {child : InputSlot} {shape : List Nat} : slots[c]? = some child →
    child.parent = some i → shapes[c]? = some shape → InGroup shape u w →
    Under slots shapes k x c w → Under slots shapes k x i u

namespace Laid

variable {slots : List InputSlot} {shapes : List (List Nat)} {l : Layout} (h : Laid slots shapes l)

include h

theorem exists_shape {i : Nat} {slot : InputSlot} (hslot : slots[i]? = some slot) :
    ∃ shape, shapes[i]? = some shape :=
  getElem?_of_length_eq h.length_shapes hslot

theorem exists_map {i : Nat} {slot : InputSlot} (hslot : slots[i]? = some slot) :
    ∃ map, l.maps[i]? = some map :=
  getElem?_of_length_eq h.length_maps hslot

variable (hr : InputSlot.Rooted slots)

include hr

theorem steps_pos : 0 < l.steps := by
  rcases h.steps_eq with hone | ⟨slot, hslot, hsteps⟩
  · rw [hone]
    exact Nat.one_pos
  · exact hr.steps_pos hslot hsteps

/-- Every slot has a value: the induction is on the place, as parents come first. -/
theorem sum_pos {i : Nat} {slot : InputSlot} {shape : List Nat}
    (hslot : slots[i]? = some slot) (hshape : shapes[i]? = some shape) :
    0 < shape.sum := by
  induction i using Nat.strongRecOn generalizing slot shape with
  | _ i ih =>
    have hle := length_le_sum (h.nonempty hshape)
    cases hparent : slot.parent with
    | none =>
      have hone := h.root hslot hshape hparent
      omega
    | some p =>
      obtain ⟨hlt, parent, hp, -⟩ := hr.parent hslot hparent
      obtain ⟨shape', hshape'⟩ := h.exists_shape hp
      have hpos := ih p hlt hp hshape'
      have hgroups := h.groups hslot hparent hshape' hshape
      omega

/-- The slots from the last one to the first: a property of leaves that passes from a child to its
parent holds of all slots. -/
theorem upward {P : Nat → List Nat → List Nat → Prop}
    (hleaf : ∀ {i : Nat} {slot : InputSlot} {shape map : List Nat}, slots[i]? = some slot →
      shapes[i]? = some shape → l.maps[i]? = some map → slot.isLeaf = true → P i shape map)
    (hinner : ∀ {i c : Nat} {slot child : InputSlot} {shape shape' map' : List Nat},
      slots[i]? = some slot → shapes[i]? = some shape → slots[c]? = some child →
      child.parent = some i → shapes[c]? = some shape' → l.maps[c]? = some map' →
      P c shape' map' → P i shape (map'.map (groupAt shape')))
    {i : Nat} {slot : InputSlot} {shape map : List Nat} (hslot : slots[i]? = some slot)
    (hshape : shapes[i]? = some shape) (hmap : l.maps[i]? = some map) : P i shape map := by
  -- children come later, so the places that are left get fewer
  induction hn : slots.length - i using Nat.strongRecOn generalizing i slot shape map with
  | _ n ih =>
    cases hkind : slot.isLeaf with
    | true => exact hleaf hslot hshape hmap hkind
    | false =>
      obtain ⟨c, child, hchild, hparent⟩ := hr.child hslot hkind
      obtain ⟨shape', hshape'⟩ := h.exists_shape hchild
      obtain ⟨map', hmap'⟩ := h.exists_map hchild
      have hlater := (hr.parent hchild hparent).1
      have hin := (List.getElem?_eq_some_iff.1 hchild).1
      have hrec := ih (slots.length - c) (by omega) hchild hshape' hmap' rfl
      rw [h.child_map hslot hkind hmap hlater hchild hparent hshape' hmap']
      exact hinner hslot hshape hchild hparent hshape' hmap' hrec

/-- **The map of a slot** has a place for each leaf value and runs through all values of the
slot. -/
theorem covers {i : Nat} {slot : InputSlot} {shape map : List Nat}
    (hslot : slots[i]? = some slot) (hshape : shapes[i]? = some shape)
    (hmap : l.maps[i]? = some map) :
    map.length = leafCount slots shapes ∧ Covers shape.sum map := by
  refine h.upward hr (P := fun _ shape map => map.length = leafCount slots shapes
    ∧ Covers shape.sum map) ?_ ?_ hslot hshape hmap
  · intro i slot shape map hslot hshape hmap hleaf
    have hpos := h.sum_pos hr hslot hshape
    rw [h.leaf_map hslot hleaf hmap, ← h.leaf_count hslot hleaf hshape]
    exact ⟨List.length_range, covers_range hpos⟩
  · rintro i c slot child shape shape' map' - hshape hchild hparent hshape' - ⟨hlength, hcovers⟩
    refine ⟨by rw [List.length_map, hlength], ?_⟩
    rw [← h.groups hchild hparent hshape hshape']
    exact hcovers.groups (h.nonempty hshape')

/-- The map of a slot gives the group that the value of a child is in. -/
theorem inGroup {i c : Nat} {child : InputSlot} {shape map map' : List Nat}
    (hmap : l.maps[i]? = some map)
    (hchild : slots[c]? = some child) (hparent : child.parent = some i)
    (hshape : shapes[c]? = some shape) (hmap' : l.maps[c]? = some map') {x v w : Nat}
    (hw : map'[x]? = some w) : map[x]? = some v ↔ InGroup shape v w := by
  obtain ⟨hlater, slot, hslot, hinner⟩ := hr.parent hchild hparent
  have hlt := (h.covers hr hchild hshape hmap').2.lt hw
  rw [h.child_map hslot hinner hmap hlater hchild hparent hshape hmap', List.getElem?_map, hw,
    Option.map_some, Option.some_inj, inGroup_iff]
  exact ⟨fun hv => ⟨hlt, hv.symm⟩, fun hv => hv.2.symm⟩

/-- Whatever a map gives at a place has the leaf value of that place below it. -/
theorem exists_under {i : Nat} {slot : InputSlot} {map : List Nat} (hslot : slots[i]? = some slot)
    (hmap : l.maps[i]? = some map) {x u : Nat} (hu : map[x]? = some u) :
    ∃ k leaf, slots[k]? = some leaf ∧ leaf.isLeaf = true ∧ Under slots shapes k x i u := by
  obtain ⟨shape, hshape⟩ := h.exists_shape hslot
  refine h.upward hr (P := fun i _ map => ∀ x u : Nat, map[x]? = some u → ∃ (k : Nat)
    (leaf : InputSlot), slots[k]? = some leaf ∧ leaf.isLeaf = true ∧ Under slots shapes k x i u)
    ?_ ?_ hslot hshape hmap x u hu
  · intro i slot shape map hslot hshape hmap hleaf x u hu
    rw [h.leaf_map hslot hleaf hmap] at hu
    obtain ⟨-, rfl⟩ := List.getElem?_eq_some_iff.1 hu
    rw [List.getElem_range]
    exact ⟨i, slot, hslot, hleaf, .self⟩
  · intro i c slot child shape shape' map' hslot hshape hchild hparent hshape' hmap' ih x u hu
    rw [List.getElem?_map, Option.map_eq_some_iff] at hu
    obtain ⟨w, hw, rfl⟩ := hu
    have hlt := (h.covers hr hchild hshape' hmap').2.lt hw
    obtain ⟨k, leaf, hk, hleaf, hunder⟩ := ih x w hw
    exact ⟨k, leaf, hk, hleaf, .group hchild hparent hshape' (inGroup_iff.2 ⟨hlt, rfl⟩) hunder⟩

/-- What a leaf value is below is what the map gives at its place: by induction from the leaf up. -/
theorem eq_of_under {k : Nat} {leaf : InputSlot} (hk : slots[k]? = some leaf)
    (hleaf : leaf.isLeaf = true) {x : Nat}
    (hx : x < leafCount slots shapes) {i u : Nat} (hunder : Under slots shapes k x i u)
    {map : List Nat} (hmap : l.maps[i]? = some map) : map[x]? = some u := by
  induction hunder generalizing map with
  | self =>
    rw [h.leaf_map hk hleaf hmap]
    exact List.getElem?_range hx
  | group hchild hparent hshape hgroup hunder ih =>
    obtain ⟨map', hmap'⟩ := h.exists_map hchild
    exact (h.inGroup hr hmap hchild hparent hshape hmap' (ih hmap')).2 hgroup

end Laid

/-! ## Rows -/

/-- Row number `row` has value number `v` of slot `i`. -/
def Holds (l : Layout) (i row v : Nat) : Prop :=
  ∃ map, l.maps[i]? = some map ∧ map[row / l.steps]? = some v

theorem holds_iff {l : Layout} {i row v : Nat} {map : List Nat} (hmap : l.maps[i]? = some map) :
    l.Holds i row v ↔ map[row / l.steps]? = some v := by
  constructor
  · rintro ⟨map', hmap', hv⟩
    rwa [Option.some.inj (hmap.symm.trans hmap')]
  · intro hv
    exact ⟨map, hmap, hv⟩

/-- The column of a slot has on each row the value that the row has of it. -/
theorem Holds.getElem?_column {l : Layout} {i row v : Nat} (h : l.Holds i row v)
    (hrow : row < l.traceLength) {values : List Element} (hv : v < values.length) :
    (l.column i values)[row]? = values[v]? := by
  obtain ⟨map, hmap, hplace⟩ := h
  unfold column
  rw [List.getElem?_map, List.getElem?_range hrow, Option.map_some]
  simp [List.getD_eq_getElem?_getD, hmap, hplace, hv]

/-- How a slot is laid out over the trace. -/
structure Spread (slots : List InputSlot) (shapes : List (List Nat)) (l : Layout) (i : Nat)
    (slot : InputSlot) (shape map : List Nat) : Prop where
  length_eq : map.length = leafCount slots shapes
  /-- The map starts at `0`, grows by `0` or `1` at each step and ends at the last value. -/
  covers : Covers shape.sum map
  leaf : slot.isLeaf = true → map = List.range (leafCount slots shapes)
  /-- At each place the map gives the group that the value of a child is in. -/
  child : ∀ {c : Nat} {child : InputSlot} {shape' map' : List Nat}, slots[c]? = some child →
    child.parent = some i → shapes[c]? = some shape' → l.maps[c]? = some map' →
    ∀ {x v w : Nat}, map'[x]? = some w → (map[x]? = some v ↔ InGroup shape' v w)
  /-- Every row has one of the values. -/
  column : ∀ {values : List Element}, values.length = shape.sum → ∀ row < l.traceLength,
    ∃ v < values.length, l.Holds i row v ∧ (l.column i values)[row]? = values[v]?
  /-- The rows of a value are a block that is not empty, and the blocks are in order. -/
  blocks : ∃ first : Nat → Nat, first 0 = 0 ∧ first shape.sum = l.traceLength
    ∧ ∀ v < shape.sum, first v < first (v + 1)
      ∧ ∀ row < l.traceLength, l.Holds i row v ↔ first v ≤ row ∧ row < first (v + 1)
  /-- The rows of a value are those of the leaf values below it. -/
  under : ∀ u, ∀ row < l.traceLength, l.Holds i row u ↔ ∃ (k : Nat) (leaf : InputSlot) (x : Nat),
    slots[k]? = some leaf ∧ leaf.isLeaf = true ∧ l.Holds k row x ∧ Under slots shapes k x i u

namespace Laid

variable {slots : List InputSlot} {shapes : List (List Nat)} {l : Layout}
  (h : Laid slots shapes l) (hr : InputSlot.Rooted slots)

include h hr

/-- A row belongs to a leaf value. -/
theorem div_lt {i : Nat} {slot : InputSlot} (hslot : slots[i]? = some slot) {row : Nat}
    (hrow : row < l.traceLength) : row / l.steps < leafCount slots shapes := by
  rw [Nat.div_lt_iff_lt_mul (h.steps_pos hr),
    ← h.length_eq (List.ne_nil_of_mem (List.mem_of_getElem? hslot))]
  exact hrow

theorem holds_leaf {k : Nat} {leaf : InputSlot} (hk : slots[k]? = some leaf)
    (hleaf : leaf.isLeaf = true) {row x : Nat} (hrow : row < l.traceLength) :
    l.Holds k row x ↔ x = row / l.steps := by
  obtain ⟨map, hmap⟩ := h.exists_map hk
  have hlt := h.div_lt hr hk hrow
  rw [holds_iff hmap, h.leaf_map hk hleaf hmap, List.getElem?_range hlt, Option.some_inj]
  exact eq_comm

/-- The block of a value starts where the map reaches it. -/
theorem blocks {i : Nat} {slot : InputSlot} {shape map : List Nat}
    (hslot : slots[i]? = some slot) (hshape : shapes[i]? = some shape)
    (hmap : l.maps[i]? = some map) :
    ∃ first : Nat → Nat, first 0 = 0 ∧ first shape.sum = l.traceLength
      ∧ ∀ v < shape.sum, first v < first (v + 1)
        ∧ ∀ row < l.traceLength, l.Holds i row v ↔ first v ≤ row ∧ row < first (v + 1) := by
  have hpos := h.steps_pos hr
  obtain ⟨hlength, hcovers⟩ := h.covers hr hslot hshape hmap
  refine ⟨fun v => Covers.start map v * l.steps, ?_, ?_, fun v hv => ⟨?_, fun row hrow => ?_⟩⟩
  · dsimp only
    rw [hcovers.start_zero, Nat.zero_mul]
  · dsimp only
    rw [hcovers.start_total, hlength, h.length_eq (List.ne_nil_of_mem (List.mem_of_getElem? hslot))]
  · exact Nat.mul_lt_mul_of_pos_right (hcovers.start_lt_start_succ hv) hpos
  · have hlt : row / l.steps < map.length := hlength ▸ h.div_lt hr hslot hrow
    obtain ⟨w, hw⟩ : ∃ w, map[row / l.steps]? = some w := ⟨_, List.getElem?_eq_getElem hlt⟩
    rw [holds_iff hmap, hw, Option.some_inj, ← Nat.le_div_iff_mul_le hpos,
      ← Nat.div_lt_iff_lt_mul hpos]
    exact (hcovers.start_le_and_lt_iff hw v).symm

theorem spread {i : Nat} {slot : InputSlot} {shape map : List Nat}
    (hslot : slots[i]? = some slot) (hshape : shapes[i]? = some shape)
    (hmap : l.maps[i]? = some map) :
    Spread slots shapes l i slot shape map where
  length_eq := (h.covers hr hslot hshape hmap).1
  covers := (h.covers hr hslot hshape hmap).2
  leaf hleaf := h.leaf_map hslot hleaf hmap
  child hchild hparent hshape' hmap' _ _ _ hw :=
    h.inGroup hr hmap hchild hparent hshape' hmap' hw
  column {values} hvalues row hrow := by
    obtain ⟨hlength, hcovers⟩ := h.covers hr hslot hshape hmap
    have hlt : row / l.steps < map.length := hlength ▸ h.div_lt hr hslot hrow
    have hholds : l.Holds i row map[row / l.steps] := ⟨map, hmap, List.getElem?_eq_getElem hlt⟩
    have hvalue : map[row / l.steps] < values.length :=
      hvalues ▸ hcovers.lt (List.getElem?_eq_getElem hlt)
    exact ⟨_, hvalue, hholds, hholds.getElem?_column hrow hvalue⟩
  blocks := h.blocks hr hslot hshape hmap
  under u row hrow := by
    have hlt := h.div_lt hr hslot hrow
    constructor
    · intro hholds
      have hplace := (holds_iff hmap).1 hholds
      obtain ⟨k, leaf, hk, hleaf, hunder⟩ := h.exists_under hr hslot hmap hplace
      exact ⟨k, leaf, row / l.steps, hk, hleaf, (h.holds_leaf hr hk hleaf hrow).2 rfl, hunder⟩
    · rintro ⟨k, leaf, x, hk, hleaf, hholds, hunder⟩
      obtain rfl := (h.holds_leaf hr hk hleaf hrow).1 hholds
      exact (holds_iff hmap).2 (h.eq_of_under hr hk hleaf hlt hunder hmap)

end Laid

/-- **Inputs are laid out without gaps, in order and without loss.** Take registers that were
accepted, and groups that were accepted for them. Every input register has a map with a place for
each leaf value. It starts at the first value of the register, goes on by at most one and ends at
the last. It is the identity for a leaf, and gives the groups of each child. So there is a value for
every row of a column. Each value has a block of rows, in the order of the values, and its rows are
those of the leaf values below it. The length of the trace is a power of two within the limits and a
multiple of each period. Where an overflow ends the run, this holds of all groups that were
accepted; where counts go round, it holds of those with numbers of values in range. -/
theorem inputs_laid_out {modulus : Nat} {set : RegisterSet} (hset : set.Accepted modulus)
    {shapes : List (List Nat)} {limits : Limits} {o : Overflow} {l : Layout}
    (h : ofShapes (InputSlot.ofRegisters set) shapes set.maxPeriod limits o = .ok l)
    (hrange : InRange o (InputSlot.ofRegisters set) shapes l.steps) :
    (∀ (p : Nat) (r : InputRegister), set.registers[p]? = some (.input r) →
      ∃ (i : Nat) (slot : InputSlot),
        (InputSlot.ofRegisters set)[i]? = some slot ∧ slot.register = p)
    ∧ (∀ (i : Nat) (slot : InputSlot), (InputSlot.ofRegisters set)[i]? = some slot →
      ∃ shape map, shapes[i]? = some shape ∧ l.maps[i]? = some map
        ∧ Spread (InputSlot.ofRegisters set) shapes l i slot shape map)
    ∧ (∀ (i c : Nat) (slot child : InputSlot), (InputSlot.ofRegisters set)[i]? = some slot →
      (InputSlot.ofRegisters set)[c]? = some child →
      (child.parent = some i ↔ set.ParentOf slot.register child.register))
    ∧ (set.inputs ≠ [] →
      l.traceLength = leafCount (InputSlot.ofRegisters set) shapes * l.steps ∧ 0 < l.steps)
    ∧ (∃ k, l.traceLength = 2 ^ k) ∧ 8 ≤ l.traceLength ∧ l.traceLength ≤ limits.maxTraceLength
    ∧ ∀ source, .cycle source ∈ set.registers → source.period ∣ l.traceLength := by
  have hforest := hset.forest
  have hrooted := InputSlot.rooted_ofRegisters hforest
  have hlaid := laid_of_ofShapes h hrange
  obtain ⟨-, hcheck, -⟩ := ofShapes_cases h
  obtain ⟨hpow, hleast, hmost, hdvd⟩ := checkLength_eq_ok hcheck
  refine ⟨fun p r hp => ?_, fun i slot hslot => ?_, fun i c slot child => InputSlot.parent_iff,
    fun hne => ?_, isPowerOfTwo_iff.1 hpow, hleast, hmost, fun source hsource => ?_⟩
  · obtain ⟨i, hi⟩ := List.getElem?_of_mem (RegisterSet.mem_inputs.2 hp)
    obtain ⟨slot, hslot, hregister, -⟩ := InputSlot.exists_ofRegisters hi
    exact ⟨i, slot, hslot, hregister⟩
  · obtain ⟨shape, hshape⟩ := hlaid.exists_shape hslot
    obtain ⟨map, hmap⟩ := hlaid.exists_map hslot
    exact ⟨shape, map, hshape, hmap, hlaid.spread hrooted hslot hshape hmap⟩
  · refine ⟨hlaid.length_eq fun hnil => hne ?_, hlaid.steps_pos hrooted⟩
    exact List.map_eq_nil_iff.1 hnil
  · obtain ⟨hpos, hperiod⟩ := hforest.period_dvd hsource
    exact hperiod.trans (hdvd hpos)

/-- A filled input with a filled input below it, two leaves below that, and a cycle. -/
def layeredDeclarations : List Declaration :=
  [.input false false false none none, .input false false false (some 0) none,
    .input false false false (some 1) (some 4), .input true false false (some 1) (some 4),
    .cycle (.values [1, 2, 3, 4, 5, 6, 7, 8])]

def layeredRegisters : RegisterSet :=
  ⟨((RegisterBuilder.empty 97).attempts layeredDeclarations).registers⟩

/-- The two values at the top have one and three values below them, and each of these has two leaf
values. -/
def layeredShapes : List (List Nat) :=
  [[2], [1, 3], [2, 2, 2, 2], [2, 2, 2, 2]]

def layeredLayout : Layout :=
  ⟨32, 4, [[0, 0, 1, 1, 1, 1, 1, 1], [0, 0, 1, 1, 2, 2, 3, 3], List.range 8, List.range 8]⟩

/-- The slot at the top is laid out over the trace, which the period divides. -/
theorem inputs_laid_out_layered :
    layeredRegisters.Accepted 97
      ∧ ofShapes (InputSlot.ofRegisters layeredRegisters) layeredShapes
        layeredRegisters.maxPeriod {} = .ok layeredLayout
      ∧ Spread (InputSlot.ofRegisters layeredRegisters) layeredShapes layeredLayout 0
        ⟨0, 0, false, false, false, none, none⟩ [2] [0, 0, 1, 1, 1, 1, 1, 1]
      ∧ (CycleSource.values [1, 2, 3, 4, 5, 6, 7, 8]).period ∣ layeredLayout.traceLength := by
  have haccepted : layeredRegisters.Accepted 97 := ⟨layeredDeclarations, by decide +kernel⟩
  have hlayout : ofShapes (InputSlot.ofRegisters layeredRegisters) layeredShapes
      layeredRegisters.maxPeriod {} = .ok layeredLayout := by decide +kernel
  have hrange : InRange .trap (InputSlot.ofRegisters layeredRegisters) layeredShapes
      layeredLayout.steps := fun hwrap => by cases hwrap
  obtain ⟨-, hspread, -, -, -, -, -, hperiod⟩ := inputs_laid_out haccepted hlayout hrange
  obtain ⟨shape, map, hshape, hmap, htop⟩ :=
    hspread 0 ⟨0, 0, false, false, false, none, none⟩ (by decide +kernel)
  obtain rfl : [2] = shape := Option.some.inj hshape
  obtain rfl : [0, 0, 1, 1, 1, 1, 1, 1] = map := Option.some.inj hmap
  exact ⟨haccepted, hlayout, htop, hperiod _ (by decide +kernel)⟩

/-- A filled public input with a secret leaf below it. -/
def pairedDeclarations : List Declaration :=
  [.input false false false none none, .input true false false (some 0) (some 1)]

def pairedRegisters : RegisterSet :=
  ⟨((RegisterBuilder.empty 97).attempts pairedDeclarations).registers⟩

/-- Three groups with `2 ^ 64 + 8` values. -/
def hugeShapes : List (List Nat) :=
  [[3], [0x8000000000000000, 0x8000000000000000, 8]]

def hugeLayout : Layout :=
  ⟨8, 1, [List.replicate 8 0, List.range 8]⟩

/-- **Values that are lost**: where counts go round, these groups are taken for ones with eight
values, so only the first of the three values above them is on a row. -/
theorem inputs_laid_out_huge :
    pairedRegisters.Accepted 97
      ∧ ofShapes (InputSlot.ofRegisters pairedRegisters) hugeShapes
        pairedRegisters.maxPeriod {} .wrap = .ok hugeLayout
      ∧ (∀ row < hugeLayout.traceLength, ∀ v, hugeLayout.Holds 0 row v ↔ v = 0)
      ∧ ofShapes (InputSlot.ofRegisters pairedRegisters) hugeShapes
        pairedRegisters.maxPeriod {} .trap = .error (.stop .overflow) := by
  refine ⟨⟨pairedDeclarations, by decide +kernel⟩, by decide +kernel, fun row hrow v => ?_,
    by decide +kernel⟩
  have hmap : hugeLayout.maps[0]? = some (List.replicate 8 0) := rfl
  have hlt : row / hugeLayout.steps < 8 := (Nat.div_one row).symm ▸ hrow
  rw [holds_iff hmap, List.getElem?_replicate, if_pos hlt, Option.some_inj, eq_comm]

end Layout

end Arithmetization
