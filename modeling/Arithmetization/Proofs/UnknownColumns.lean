import Arithmetization.Proofs.Forest

/-!
The columns that stay unknown are those of secret registers.

A verifier is not given the columns of secret inputs. Among registers that were accepted, a mask is
as secret as its source, so the unknown columns are those of the secret registers and no others
(`StaticRule.isNone_columns`). Every public register then finds its polynomial
(`Verifier.assign_columns`), and the secret ones are numbered in the order in which their values are
given (`Verifier.getElem?_points_eq_secret`). What else can go wrong comes from the inputs or from
the length of the trace (`RunFault.OfInputs`), so no column is reported as unresolved or missing. A
prover is given all input columns, and knows all columns then (`StaticRule.none_notMem_columns`).
-/

set_option autoImplicit false

namespace Arithmetization

/-! ## Columns -/

theorem isNone_getD {α : Type} {xs : List (Option α)} {i : Nat} {b : Bool}
    (h : xs[i]?.map Option.isNone = some b) : (xs.getD i none).isNone = b := by
  obtain ⟨x, hx, hb⟩ := Option.map_eq_some_iff.1 h
  rw [List.getD_eq_getElem?_getD, hx, Option.getD_some, hb]

theorem countP_take_lt {α : Type} {p : α → Bool} {xs : List α} {i j : Nat} {x : α}
    (hx : xs[i]? = some x) (hp : p x = true) (hij : i < j) :
    (xs.take i).countP p < (xs.take j).countP p := by
  have hsucc : xs.take (i + 1) = xs.take i ++ [x] := by
    rw [List.take_add_one, hx, Option.toList_some]
  have hle : (xs.take (i + 1)).countP p ≤ (xs.take j).countP p :=
    (List.take_sublist_take_left hij).countP_le
  rw [hsucc, List.countP_append, List.countP_singleton, if_pos hp] at hle
  omega

namespace StaticRule

section Columns

variable {slots : List InputSlot} {rules : List StaticRule}

/-- If the columns of secret inputs are all left out, or all given, then so are those of the secret
registers; public columns are always there. -/
theorem isNone_column (h : Formed slots rules) (hides : Bool)
    {inputs : List (Option (List Element))}
    (hinputs : inputs.map Option.isNone = slots.map (hides && ·.secret)) (length : Nat) {i : Nat}
    {rule : StaticRule} (hi : rules[i]? = some rule) :
    (columns rules inputs length)[i]?.map Option.isNone = some (hides && rule.isSecret) := by
  induction i using Nat.strong_induction_on generalizing rule with
  | _ i ih =>
    rw [columns_eq, getElem?_grow _ hi, Option.map_some]
    congr 1
    cases rule with
    | input position secret =>
      obtain ⟨slot, hslot, hsecret⟩ := h.input hi
      have hget := congrArg (·[position]?) hinputs
      simp only [List.getElem?_map, hslot, Option.map_some] at hget
      rw [column, isNone_getD hget, hsecret, isSecret]
    | cycle c => simp [column, isSecret]
    | mask source value secret =>
      -- The source comes before, and its secrecy is that of the mask.
      obtain ⟨hlt, source', hsource, hsecret⟩ := h.mask hi
      have hrec := ih source hlt hsource
      rw [columns_eq, ← getElem?_grow_take _ hlt] at hrec
      rw [column, Option.isNone_map, isNone_getD hrec, hsecret, isSecret]

theorem isNone_columns (h : Formed slots rules) (hides : Bool)
    {inputs : List (Option (List Element))}
    (hinputs : inputs.map Option.isNone = slots.map (hides && ·.secret)) (length : Nat) :
    (columns rules inputs length).map Option.isNone = rules.map (hides && ·.isSecret) := by
  apply List.ext_getElem?
  intro i
  rw [List.getElem?_map, List.getElem?_map]
  cases hi : rules[i]? with
  | none =>
    have hout : rules.length ≤ i := List.getElem?_eq_none_iff.1 hi
    rw [List.getElem?_eq_none (by rw [length_columns]; exact hout)]
    rfl
  | some rule => exact isNone_column h hides hinputs length hi

/-- With all input columns given, all columns are known. -/
theorem none_notMem_columns (h : Formed slots rules) {inputs : List (Option (List Element))}
    (hlen : inputs.length = slots.length) (hinputs : none ∉ inputs) (length : Nat) :
    none ∉ columns rules inputs length := by
  have hall : inputs.map Option.isNone = slots.map (false && ·.secret) := by
    simp only [Bool.false_and, List.map_const', ← hlen]
    refine List.eq_replicate_iff.2 ⟨List.length_map .., ?_⟩
    intro b hb
    obtain ⟨x, hx, rfl⟩ := List.mem_map.1 hb
    have hsome : x ≠ none := fun hnone => hinputs (hnone ▸ hx)
    exact Option.isNone_eq_false_iff.2 (Option.ne_none_iff_isSome.1 hsome)
  intro hnone
  have hmem := List.mem_map_of_mem (f := Option.isNone) hnone
  rw [isNone_columns h false hall] at hmem
  simp at hmem

end Columns

section OfRegisters

variable {set : RegisterSet} {rules : List StaticRule}

/-- No input column is read by two registers. -/
theorem input_position_inj (h : ofRegisters set = .ok rules) {i j position : Nat} {a b : Bool}
    (hi : rules[i]? = some (.input position a)) (hj : rules[j]? = some (.input position b)) :
    i = j := by
  -- A position is the number of input registers before its own.
  have hposition {i : Nat} {secret : Bool} (hi : rules[i]? = some (.input position secret)) :
      ∃ r, set.registers[i]? = some (.input r)
        ∧ position = (set.registers.take i).countP fun r => r.input?.isSome := by
    obtain ⟨register, flag, hregister, -, hrule⟩ := ofRegisters_getElem? h hi
    cases register with
    | input r => exact ⟨r, hregister, (StaticRule.input.inj hrule).1⟩
    | cycle source =>
      obtain ⟨c, -, hc⟩ := hrule
      cases hc
    | mask source value =>
      obtain ⟨v, -, hv⟩ := hrule
      cases hv
  obtain ⟨r, hr, hcount⟩ := hposition hi
  obtain ⟨r', hr', hcount'⟩ := hposition hj
  rcases Nat.lt_trichotomy i j with hij | hij | hij
  · have hlt := countP_take_lt (p := fun r => r.input?.isSome) hr rfl hij
    omega
  · exact hij
  · have hlt := countP_take_lt (p := fun r => r.input?.isSome) hr' rfl hij
    omega

end OfRegisters

end StaticRule

theorem InputSlot.map_secret_ofRegisters (set : RegisterSet) :
    (ofRegisters set).map InputSlot.secret = set.inputs.map (·.2.secret) := by
  rw [ofRegisters, List.map_map]
  rfl

/-! ## Secret places -/

namespace RegisterSet

/-- The place of an index among those of the set flags is the number of set flags before it. -/
theorem getElem?_places {flags : List Bool} {i j : Nat} :
    ((flags.zipIdx.filter Prod.fst).map Prod.snd)[j]? = some i ↔
      flags[i]? = some true ∧ (flags.take i).countP id = j := by
  have hplace {i : Nat} (hi : flags[i]? = some true) :
      ((flags.zipIdx.filter Prod.fst).map Prod.snd)[(flags.take i).countP id]? = some i := by
    have hpair : flags.zipIdx[i]? = some (true, i) := by
      rw [List.getElem?_zipIdx, hi, Option.map_some, Nat.zero_add]
    have hget := getElem?_filterMap_countP (f := Option.guard Prod.fst) hpair (y := (true, i)) rfl
    have hcount : (flags.zipIdx.take i).countP Prod.fst = (flags.take i).countP id := by
      conv_rhs => rw [← List.zipIdx_map_fst 0 flags, ← List.map_take, List.countP_map]
      rfl
    simp only [List.filterMap_eq_filter, Option.isSome_guard, hcount] at hget
    rw [List.getElem?_map, hget, Option.map_some]
  have hnodup : ((flags.zipIdx.filter Prod.fst).map Prod.snd).Nodup := by
    have hsub := (List.filter_sublist (p := Prod.fst) (l := flags.zipIdx)).map Prod.snd
    rw [List.zipIdx_map_snd] at hsub
    exact hsub.nodup List.nodup_range'
  constructor
  · intro hj
    have hi : flags[i]? = some true := mem_places.1 (List.mem_of_getElem? hj)
    have hlt := (List.getElem?_eq_some_iff.1 (hplace hi)).1
    exact ⟨hi, (List.getElem?_inj hlt hnodup).1 ((hplace hi).trans hj.symm)⟩
  · rintro ⟨hi, rfl⟩
    exact hplace hi

end RegisterSet

namespace Verifier

@[simp] theorem length_points (secrets : Nat)
    (rules : List (StaticRule × Option (List Element))) :
    (points secrets rules).length = rules.length := by
  induction rules generalizing secrets with
  | nil => rfl
  | cons r rules ih => rw [points, List.length_cons, List.length_cons, ih]

/-- The rule in one place, from the number of secret registers before it. -/
theorem getElem?_points (secrets : Nat) (rules : List (StaticRule × Option (List Element)))
    (i : Nat) :
    (points secrets rules)[i]? =
      rules[i]?.map (point (secrets + (rules.take i).countP (·.1.isSecret))) := by
  induction rules generalizing secrets i with
  | nil => rfl
  | cons r rules ih =>
    cases i with
    | zero => simp [points]
    | succ i =>
      rw [points, List.getElem?_cons_succ, List.getElem?_cons_succ, ih, List.take_succ_cons,
        List.countP_cons]
      congr 2
      cases r.1.isSecret with
      | false => simp
      | true =>
        rw [Bool.toNat_true, if_pos rfl]
        omega

/-- Only secret registers are given their values by the caller. -/
theorem point_eq_secret {secrets position : Nat} {rule : StaticRule × Option (List Element)} :
    point secrets rule = .secret position ↔ rule.1.isSecret = true ∧ secrets = position := by
  obtain ⟨rule, column⟩ := rule
  by_cases hsecret : rule.isSecret = true
  · rw [point_secret hsecret, PointRule.secret.injEq]
    exact (and_iff_right hsecret).symm
  · refine iff_of_false ?_ fun h => hsecret h.1
    cases rule with
    | cycle c => simp [point]
    | input position secret | mask source value secret =>
      rw [point, if_neg hsecret]
      · simp
      · intro c hc
        cases hc

/-- The secret places of the rules at a point. -/
theorem getElem?_points_eq_secret {statics : List StaticRule}
    {columns : List (Option (List Element))} (hlen : columns.length = statics.length)
    {i j : Nat} :
    (points 0 (statics.zip columns))[i]? = some (.secret j) ↔
      (((statics.map StaticRule.isSecret).zipIdx.filter Prod.fst).map Prod.snd)[j]? = some i := by
  have hflags : statics.map StaticRule.isSecret =
      (statics.zip columns).map (·.1.isSecret) := by
    conv_lhs => rw [← List.map_fst_zip hlen.ge, List.map_map]
    rfl
  rw [getElem?_points, RegisterSet.getElem?_places, hflags, Option.map_eq_some_iff,
    List.getElem?_map, Option.map_eq_some_iff, ← List.map_take, List.countP_map]
  simp only [point_eq_secret, Nat.zero_add]
  constructor
  · rintro ⟨rule, hrule, hsecret, hcount⟩
    exact ⟨⟨rule, hrule, hsecret⟩, hcount⟩
  · rintro ⟨⟨rule, hrule, hsecret⟩, hcount⟩
    exact ⟨rule, hrule, hsecret, hcount⟩

end Verifier

/-! ## Faults -/

/-- Faults of what the caller gives: trees, group lengths, counts that they take out of range and
the length of the trace they make. -/
def RunFault.OfInputs : RunFault → Prop
  | .input _ | .traceLength _ _ | .stop _ => True
  | _ => False

/-- A check that reports such a fault, and goes on otherwise. -/
theorem RunFault.ofInputs_of_ite {α : Type} {c : Prop} [Decidable c] {fault e : RunFault}
    {rest : Except RunFault α} (h : (if c then .error fault else rest) = .error e)
    (hfault : fault.OfInputs) (hrest : rest = .error e → e.OfInputs) : e.OfInputs := by
  split at h
  · cases h
    exact hfault
  · exact hrest h

namespace InputTree

theorem ofInputs_of_groupValues {items : List InputTree} {e : RunFault}
    (h : groupValues items = .error e) : e.OfInputs := by
  induction items with
  | nil => cases h
  | cons t items ih =>
    cases t with
    | value n =>
      rcases bind_eq_error.1 h with h | ⟨values, -, h⟩
      · exact ih h
      · cases h
    | list inner =>
      cases h
      trivial

mutual

theorem ofInputs_of_flatten {rank : Nat} {t : InputTree} {e : RunFault}
    (h : t.flatten rank = .error e) : e.OfInputs := by
  cases t with
  | value n =>
    cases h
    trivial
  | list items =>
    cases rank with
    | zero =>
      rcases bind_eq_error.1 h with h | ⟨values, -, h⟩
      · exact ofInputs_of_groupValues h
      · cases h
    | succ rank => exact ofInputs_of_flattenAll h

theorem ofInputs_of_flattenAll {rank : Nat} {ts : List InputTree} {e : RunFault}
    (h : flattenAll rank ts = .error e) : e.OfInputs := by
  cases ts with
  | nil => cases h
  | cons t ts =>
    rcases bind_eq_error.1 h with h | ⟨first, -, h⟩
    · exact ofInputs_of_flatten h
    rcases bind_eq_error.1 h with h | ⟨rest, -, h⟩
    · exact ofInputs_of_flattenAll h
    · cases h

end

end InputTree

namespace InputSlot

theorem ofInputs_of_value {slot : InputSlot} {n : Nat} {e : RunFault}
    (h : slot.value n = .error e) : e.OfInputs := by
  unfold value at h
  refine RunFault.ofInputs_of_ite h trivial fun h => ?_
  refine RunFault.ofInputs_of_ite h trivial fun h => ?_
  cases h

theorem ofInputs_of_values {slot : InputSlot} {tree : InputTree} {e : RunFault}
    (h : slot.values tree = .error e) : e.OfInputs := by
  have hnumbers {shape numbers : List Nat}
      (h : (numbers.mapM slot.value >>= fun elements => pure (shape, elements)) = .error e) :
      e.OfInputs := by
    rcases bind_eq_error.1 h with h | ⟨elements, -, h⟩
    · obtain ⟨n, -, hn⟩ := exists_error_of_mapM h
      exact ofInputs_of_value hn
    · cases h
  unfold values at h
  dsimp only at h
  split at h
  · -- a scalar register given its value without a list
    rcases bind_eq_error.1 h with h | ⟨pair, -, h⟩
    · cases h
    · exact hnumbers h
  · rcases bind_eq_error.1 h with h | ⟨pair, -, h⟩
    · exact InputTree.ofInputs_of_flatten h
    · exact hnumbers h

end InputSlot

namespace Layout

theorem ofInputs_of_mapError {α : Type} {x : Except Stop α} {e : RunFault}
    (h : x.mapError RunFault.stop = .error e) : e.OfInputs := by
  cases x with
  | ok a => cases h
  | error why =>
    obtain rfl := Except.error.inj h
    trivial

theorem ofInputs_of_checkGroups {slot : InputSlot} {groups total : Nat} {shape : List Nat}
    {e : RunFault} (h : checkGroups slot groups shape total = .error e) : e.OfInputs := by
  unfold checkGroups at h
  refine RunFault.ofInputs_of_ite h trivial fun h => ?_
  refine RunFault.ofInputs_of_ite h trivial fun h => ?_
  refine RunFault.ofInputs_of_ite h trivial fun h => ?_
  cases h

theorem ofInputs_of_checkLeaves {leaves : List (InputSlot × List Nat × Nat)} {e : RunFault}
    (h : checkLeaves leaves = .error e) : e.OfInputs := by
  unfold checkLeaves at h
  split at h
  · cases h
  split at h
  · cases h
    trivial
  · cases h

theorem ofInputs_of_through {slot : InputSlot} {maps : List (List Nat)} {e : RunFault}
    (h : through slot maps = .error e) : e.OfInputs := by
  unfold through at h
  split at h
  · cases h
  split at h
  · cases h
  · cases h
    trivial

theorem ofInputs_of_groupFrom {o : Overflow} {index g stop : Nat} {shape : List Nat} {e : RunFault}
    (h : groupFrom o index g stop shape = .error e) : e.OfInputs := by
  induction shape generalizing g stop with
  | nil => cases h
  | cons n shape ih =>
    rw [groupFrom] at h
    rcases bind_eq_error.1 h with h | ⟨next, -, h⟩
    · exact ofInputs_of_mapError h
    split at h
    · cases h
    · exact ih h

theorem ofInputs_of_mapOf {o : Overflow} {leafCount index : Nat} {slot : InputSlot}
    {later : List (InputSlot × List Nat × List Nat)} {e : RunFault}
    (h : mapOf o leafCount index slot later = .error e) : e.OfInputs := by
  unfold mapOf at h
  split at h
  · unfold places at h
    split at h
    · cases h
    · obtain rfl := Except.error.inj h
      trivial
  · rcases bind_eq_error.1 h with h | ⟨maps, -, h⟩
    · obtain ⟨entry, -, hentry⟩ := exists_error_of_mapM h
      obtain ⟨v, -, hv⟩ := exists_error_of_mapM hentry
      exact ofInputs_of_groupFrom hv
    · exact ofInputs_of_through h

theorem ofInputs_of_mapsFrom {o : Overflow} {leafCount index : Nat}
    {pairs : List (InputSlot × List Nat)} {e : RunFault}
    (h : mapsFrom o leafCount index pairs = .error e) : e.OfInputs := by
  induction pairs generalizing index with
  | nil => cases h
  | cons pair pairs ih =>
    rcases bind_eq_error.1 h with h | ⟨later, -, h⟩
    · exact ih h
    rcases bind_eq_error.1 h with h | ⟨map, -, h⟩
    · exact ofInputs_of_mapOf h
    · cases h

theorem ofInputs_of_checkLength {length maxPeriod : Nat} {limits : Limits} {e : RunFault}
    (h : checkLength length maxPeriod limits = .error e) : e.OfInputs := by
  unfold checkLength at h
  refine RunFault.ofInputs_of_ite h trivial fun h => ?_
  refine RunFault.ofInputs_of_ite h trivial fun h => ?_
  refine RunFault.ofInputs_of_ite h trivial fun h => ?_
  cases h

theorem ofInputs_of_ofShapes {slots : List InputSlot} {shapes : List (List Nat)} {maxPeriod : Nat}
    {limits : Limits} {o : Overflow} {e : RunFault}
    (h : ofShapes slots shapes maxPeriod limits o = .error e) : e.OfInputs := by
  unfold ofShapes at h
  dsimp only at h
  split at h
  · cases h
    trivial
  rcases bind_eq_error.1 h with h | ⟨totals, -, h⟩
  · obtain ⟨shape, -, hshape⟩ := exists_error_of_mapM h
    exact ofInputs_of_mapError hshape
  rcases bind_eq_error.1 h with h | ⟨-, -, h⟩
  · obtain ⟨pair, -, hpair⟩ := exists_error_of_forM h
    exact ofInputs_of_checkGroups hpair
  rcases bind_eq_error.1 h with h | ⟨-, -, h⟩
  · exact ofInputs_of_checkLeaves h
  rcases bind_eq_error.1 h with h | ⟨entries, -, h⟩
  · exact ofInputs_of_mapsFrom h
  rcases bind_eq_error.1 h with h | ⟨length, -, h⟩
  · unfold traceLengthOf at h
    split at h
    · cases h
    · exact ofInputs_of_mapError h
  rcases bind_eq_error.1 h with h | ⟨-, -, h⟩
  · exact ofInputs_of_checkLength h
  · cases h

end Layout

namespace Verifier

/-- The columns of secret inputs are left out, and no others. -/
theorem isNone_publicColumns {layout : Layout} {i : Nat} {slots : List (InputSlot × List Nat)}
    {trees : List InputTree} {columns : List (Option (List Element))}
    (h : publicColumns layout i slots trees = .ok columns) :
    columns.map Option.isNone = slots.map (·.1.secret) := by
  induction slots generalizing i trees columns with
  | nil =>
    cases h
    rfl
  | cons pair slots ih =>
    obtain ⟨slot, shape⟩ := pair
    cases hsecret : slot.secret with
    | true =>
      rw [publicColumns_secret hsecret] at h
      obtain ⟨rest, hrest, rfl⟩ := map_eq_ok.1 h
      simp [ih hrest, hsecret]
    | false =>
      cases trees with
      | nil => simp [publicColumns, hsecret] at h
      | cons tree trees =>
        simp only [publicColumns, hsecret, Bool.false_eq_true, if_false] at h
        obtain ⟨⟨got, values⟩, -, h⟩ := bind_eq_ok.1 h
        split at h
        · cases h
        obtain ⟨rest, hrest, h⟩ := bind_eq_ok.1 h
        cases h
        simp [ih hrest, hsecret]

theorem ofInputs_of_publicColumns {layout : Layout} {i : Nat} {slots : List (InputSlot × List Nat)}
    {trees : List InputTree} {e : RunFault}
    (h : publicColumns layout i slots trees = .error e) : e.OfInputs := by
  induction slots generalizing i trees with
  | nil => cases h
  | cons pair slots ih =>
    obtain ⟨slot, shape⟩ := pair
    cases hsecret : slot.secret with
    | true =>
      rw [publicColumns_secret hsecret, map_eq_pure_bind] at h
      rcases bind_eq_error.1 h with h | ⟨rest, -, h⟩
      · exact ih h
      · cases h
    | false =>
      cases trees with
      | nil =>
        simp only [publicColumns, hsecret, Bool.false_eq_true, if_false] at h
        cases h
        trivial
      | cons tree trees =>
        simp only [publicColumns, hsecret, Bool.false_eq_true, if_false] at h
        rcases bind_eq_error.1 h with h | ⟨⟨got, values⟩, -, h⟩
        · exact InputSlot.ofInputs_of_values h
        split at h
        · cases h
          trivial
        rcases bind_eq_error.1 h with h | ⟨rest, -, h⟩
        · exact ih h
        · cases h

/-- With the secret columns left out, every public register finds its polynomial. -/
theorem assign_columns {slots : List InputSlot} {rules : List StaticRule}
    (hformed : StaticRule.Formed slots rules) {inputs : List (Option (List Element))}
    (hinputs : inputs.map Option.isNone = slots.map InputSlot.secret) (length : Nat) :
    assign rules (StaticRule.columns rules inputs length) =
      .ok (points 0 (rules.zip (StaticRule.columns rules inputs length))) := by
  apply assign_eq_ok (StaticRule.length_columns ..)
  rintro ⟨rule, column⟩ hr huses
  obtain ⟨i, hi⟩ := List.getElem?_of_mem hr
  obtain ⟨hrule, hcolumn⟩ := List.getElem?_zip_eq_some.1 hi
  have hknown := StaticRule.isNone_column hformed true hinputs length hrule
  rw [hcolumn, StaticRule.isSecret_of_usesColumn huses] at hknown
  exact Option.isSome_iff_exists.1 (Option.isNone_eq_false_iff.1 (Option.some.inj hknown))

/-- A verifier fails on what it is given, or not at all. -/
theorem ofInputs_of_ofInputs {m : Machine} (hformed : StaticRule.Formed m.inputs m.statics)
    {shapes : List (List Nat)} {trees : List InputTree} {e : RunFault}
    (h : ofInputs m shapes trees = .error e) : e.OfInputs := by
  unfold ofInputs at h
  dsimp only at h
  split at h
  · cases h
    trivial
  rcases bind_eq_error.1 h with h | ⟨layout, hlayout, h⟩
  · exact Layout.ofInputs_of_ofShapes h
  rcases bind_eq_error.1 h with h | ⟨inputs, hinputs, h⟩
  · exact ofInputs_of_publicColumns h
  -- One column for each slot, since there are as many group lengths.
  have hsecret : inputs.map Option.isNone = m.inputs.map InputSlot.secret := by
    have hlen : shapes.length = m.inputs.length := (Layout.ofShapes_cases hlayout).1
    rw [isNone_publicColumns hinputs]
    conv_rhs => rw [← List.map_fst_zip hlen.ge, List.map_map]
    rfl
  rw [assign_columns hformed hsecret] at h
  cases h

end Verifier

namespace Prover

theorem exists_mapM_id {α : Type} {xs : List (Option α)} (h : none ∉ xs) :
    ∃ ys, xs.mapM id = some ys := by
  induction xs with
  | nil => exact ⟨[], rfl⟩
  | cons x xs ih =>
    obtain ⟨hx, hxs⟩ := not_or.1 (List.mem_cons.not.1 h)
    obtain ⟨y, rfl⟩ := Option.ne_none_iff_exists'.1 (Ne.symm hx)
    obtain ⟨ys, hys⟩ := ih hxs
    refine ⟨y :: ys, ?_⟩
    rw [List.mapM_cons, hys]
    rfl

theorem subgroup_of_ofSize {size : Nat} {e : RunFault} (h : Domain.ofSize size = .error e) :
    e = .shape (.subgroup size) := by
  unfold Domain.ofSize at h
  split at h
  · cases h
  · exact (Except.error.inj h).symm

/-- A prover fails on what it is given, or because a domain is too large for the field. -/
theorem cases_of_ofInputs {m : Machine} (hformed : StaticRule.Formed m.inputs m.statics)
    {trees : List InputTree} {e : RunFault} (h : ofInputs m trees = .error e) :
    e.OfInputs ∨ ∃ size, e = .shape (.subgroup size) := by
  unfold ofInputs at h
  dsimp only at h
  split at h
  · cases h
    exact .inl trivial
  next hcount =>
  rcases bind_eq_error.1 h with h | ⟨inputs, hinputs, h⟩
  · obtain ⟨pair, -, hpair⟩ := exists_error_of_mapM h
    exact .inl (InputSlot.ofInputs_of_values hpair)
  rcases bind_eq_error.1 h with h | ⟨layout, -, h⟩
  · exact .inl (Layout.ofInputs_of_ofShapes h)
  have hlen : (inputColumns layout inputs).length = m.inputs.length := by
    have hvalues := (mapM_eq_ok.1 hinputs).length_eq
    rw [List.length_zip, not_not.1 hcount, Nat.min_self] at hvalues
    rw [inputColumns, List.length_mapIdx, hvalues]
  have hknown : none ∉ inputColumns layout inputs := by
    simp [inputColumns, List.mem_mapIdx]
  obtain ⟨statics, hstatics⟩ := exists_mapM_id
    (StaticRule.none_notMem_columns hformed hlen hknown layout.traceLength)
  split at h
  next hnone => cases hstatics.symm.trans hnone
  right
  rcases bind_eq_error.1 h with h | ⟨execution, -, h⟩
  · exact ⟨_, subgroup_of_ofSize h⟩
  rcases bind_eq_error.1 h with h | ⟨evaluation, -, h⟩
  · exact ⟨_, subgroup_of_ofSize h⟩
  rcases bind_eq_error.1 h with h | ⟨composition, -, h⟩
  · exact ⟨_, subgroup_of_ofSize h⟩
  · cases h

end Prover

/-! ## Accepted registers -/

namespace RegisterSet

theorem isSecret_iff {set : RegisterSet} {i : Nat} :
    set.isSecret i = true ↔ set.secrecy[i]? = some true := by
  rw [isSecret, List.getD_eq_getElem?_getD]
  cases set.secrecy[i]? with
  | none => simp
  | some flag => simp

/-- **Unknown columns are those of secret registers.** Take registers that were accepted over the
field. If the columns of the secret inputs are left out and no others, then the unknown columns are
those of the secret registers. No public column is missing when the rules at a point are made, and
the secret value in place `j` goes to the secret register in place `j`. If all input columns are
given, then all columns are known. So a verifier of such registers never reports a column that is
unresolved or missing, nor does a prover. An input column is read by one register at most, which may
therefore take it. -/
theorem unknown_iff_secret {set : RegisterSet} (h : set.Accepted Word.modulus) :
    ∃ rules, StaticRule.ofRegisters set = .ok rules
      ∧ (∀ (length : Nat) (inputs : List (Option (List Element))),
        inputs.map Option.isNone = set.inputs.map (·.2.secret) →
          (StaticRule.columns rules inputs length).length = set.size
          ∧ (∀ i : Nat, (StaticRule.columns rules inputs length)[i]? = some none ↔
            set.isSecret i = true)
          ∧ ∃ points, Verifier.assign rules (StaticRule.columns rules inputs length) = .ok points
            ∧ points.length = set.size
            ∧ ∀ i j : Nat, points[i]? = some (.secret j) ↔ set.secrets[j]? = some i)
      ∧ (∀ (length : Nat) (inputs : List (Option (List Element))),
        inputs.length = set.inputs.length → none ∉ inputs →
          (StaticRule.columns rules inputs length).length = set.size
          ∧ none ∉ StaticRule.columns rules inputs length)
      ∧ (∀ (i j position : Nat) (a b : Bool), rules[i]? = some (.input position a) →
        rules[j]? = some (.input position b) → i = j)
      ∧ ∀ (s : Schema) (o : MachineOptions) (m : Machine), s.registers = set →
        Machine.ofSchema s o = .ok m →
          m.statics = rules ∧ m.secrets = set.secrets
          ∧ (∀ shapes trees cause, Verifier.ofInputs m shapes trees ≠ .error (.shape cause))
          ∧ ∀ trees, Prover.ofInputs m trees ≠ .error (.shape .unresolved) := by
  have hset : set.Admissible Word.modulus := h.forest.admissible
  obtain ⟨rules, hrules, hsize⟩ := StaticRule.ofRegisters_eq_ok hset
  have hformed := StaticRule.ofRegisters_formed hset hrules hsize
  have hflags : rules.map StaticRule.isSecret = set.secrecy := StaticRule.map_isSecret hrules hsize
  have hlen (inputs : List (Option (List Element))) (length : Nat) :
      (StaticRule.columns rules inputs length).length = set.size :=
    (StaticRule.length_columns ..).trans hsize
  refine ⟨rules, hrules, ?_, ?_, fun i j position a b => StaticRule.input_position_inj hrules, ?_⟩
  · intro length inputs hinputs
    rw [← InputSlot.map_secret_ofRegisters] at hinputs
    refine ⟨hlen inputs length, fun i => ?_, _, Verifier.assign_columns hformed hinputs length, ?_,
      fun i j => ?_⟩
    · have hcolumns := StaticRule.isNone_columns hformed true hinputs length
      have hget := congrArg (·[i]?) (hcolumns.trans hflags)
      rw [isSecret_iff, ← hget, List.getElem?_map, Option.map_eq_some_iff]
      simp
    · rw [Verifier.length_points, List.length_zip, hlen, hsize, Nat.min_self]
    · rw [Verifier.getElem?_points_eq_secret (StaticRule.length_columns ..), hflags, secrets]
  · intro length inputs hcount hknown
    refine ⟨hlen inputs length, StaticRule.none_notMem_columns hformed ?_ hknown length⟩
    rw [hcount, InputSlot.ofRegisters, List.length_map]
  · rintro s o m rfl hm
    obtain ⟨-, rules', ext, hrules', -, rfl⟩ := Machine.ofSchema_eq_ok hm
    obtain rfl := Except.ok.inj (hrules.symm.trans hrules')
    refine ⟨rfl, rfl, fun shapes trees cause hfault => ?_, fun trees hfault => ?_⟩
    · exact Verifier.ofInputs_of_ofInputs hformed hfault
    · rcases Prover.cases_of_ofInputs hformed hfault with hinput | ⟨size, hsubgroup⟩
      · exact hinput
      · cases hsubgroup

/-- A public input with a secret one below it, two cycles, a mask of the public input, one of the
secret input, and one of that. -/
def maskedDeclarations : List Declaration :=
  [.input false false false none none, .input true false false (some 0) (some 2),
    .cycle (.values [1, 2, 3, 4]), .cycle (.power 3 2), .mask 0 5, .mask 1 7, .mask 5 1]

/-- These are the registers of a schema that runs. Its last register is the third secret one, though
it is no input and no mask of one. -/
theorem unknown_iff_secret_masked :
    ∃ s m points, compile Prover.layeredText { sharing := { enabled := false } } = .ok s
      ∧ s.registers.Accepted Word.modulus ∧ s.registers.secrets = [1, 5, 6]
      ∧ Machine.ofSchema s {} = .ok m
      ∧ (∀ i, (StaticRule.columns m.statics [some [5, 5, 5, 5, 6, 6, 6, 6], none] 8)[i]? =
        some none ↔ s.registers.isSecret i = true)
      ∧ Verifier.assign m.statics
        (StaticRule.columns m.statics [some [5, 5, 5, 5, 6, 6, 6, 6], none] 8) = .ok points
      ∧ points[6]? = some (.secret 2)
      ∧ none ∉ StaticRule.columns m.statics
        [some [5, 5, 5, 5, 6, 6, 6, 6], some [7, 7, 8, 8, 7, 7, 9, 9]] 8
      ∧ (∀ cause, Verifier.ofInputs m [[2], [2, 1]] [.list [.value 5, .value 6]] ≠
        .error (.shape cause))
      ∧ Prover.ofInputs m Prover.layeredTrees ≠ .error (.shape .unresolved) := by
  have hcheck : ((compile Prover.layeredText { sharing := { enabled := false } }).toOption.any
      fun s => ((RegisterBuilder.empty Word.modulus).attempts maskedDeclarations).build ==
          .ok s.registers
        && s.registers.secrets == [1, 5, 6]
        && s.registers.inputs.map (·.2.secret) == [false, true]
        && (Machine.ofSchema s {}).toOption.isSome) = true := by
    unfold Prover.layeredText
    rewrite [String.toList_ofList]
    decide +kernel
  simp only [Option.any_eq_true, Bool.and_eq_true, beq_iff_eq, toOption_eq_some,
    Option.isSome_iff_exists] at hcheck
  obtain ⟨s, hs, ⟨⟨hbuild, hsecrets⟩, hinputs⟩, m, hm⟩ := hcheck
  have haccepted : s.registers.Accepted Word.modulus := ⟨maskedDeclarations, hbuild⟩
  have hlength : s.registers.inputs.length = 2 := by
    have hmap := congrArg List.length hinputs
    rwa [List.length_map] at hmap
  obtain ⟨rules, -, hhidden, hgiven, -, hmachine⟩ := unknown_iff_secret haccepted
  obtain ⟨rfl, -, hverifier, hprover⟩ := hmachine s {} m rfl hm
  obtain ⟨-, hunknown, points, hpoints, -, hplaces⟩ :=
    hhidden 8 [some [5, 5, 5, 5, 6, 6, 6, 6], none] hinputs.symm
  obtain ⟨-, hall⟩ := hgiven 8 [some [5, 5, 5, 5, 6, 6, 6, 6], some [7, 7, 8, 8, 7, 7, 9, 9]]
    hlength.symm (by simp)
  refine ⟨s, m, points, hs, haccepted, hsecrets, hm, hunknown, hpoints, ?_, hall, hverifier _ _,
    hprover _⟩
  rw [hplaces, hsecrets]
  rfl

end RegisterSet

end Arithmetization
