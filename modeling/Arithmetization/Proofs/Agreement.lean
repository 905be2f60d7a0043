import Arithmetization.Machine.Prover
import Arithmetization.Machine.Verifier
import Arithmetization.Proofs.StaticColumns

/-!
Provers and verifiers agree on static registers.

A prover is given all input trees, a verifier the group lengths of all of them and the trees of the
public ones. The verifier then has the same layout, hence the same columns of public inputs and the
same public columns, and the values at any point that it gets from them, together with the values of
the secret registers that it is told, are those of the polynomials that interpolate the prover's
columns (`Prover.Built.exists_verifier`). For machines of schemas that compile this needs no further
assumption (`Prover.statics_agree`).
-/

set_option autoImplicit false

namespace Arithmetization

/-! ## Layouts -/

namespace Layout

theorem length_column (l : Layout) (input : Nat) (values : List Element) :
    (l.column input values).length = l.traceLength := by
  simp [column]

theorem checkLength_eq_ok {length maxPeriod : Nat} {limits : Limits}
    (h : checkLength length maxPeriod limits = .ok ()) :
    isPowerOfTwo length = true ∧ minTraceLength ≤ length ∧ length ≤ limits.maxTraceLength
      ∧ (0 < maxPeriod → maxPeriod ∣ length) := by
  unfold checkLength at h
  split at h
  · cases h
  next hsize =>
  split at h
  · cases h
  next hlimit =>
  split at h
  · cases h
  next hperiod =>
  simp only [Bool.or_eq_true, Bool.not_eq_true', decide_eq_true_eq, not_or, Nat.not_lt,
    Bool.not_eq_false] at hsize
  refine ⟨hsize.1, hsize.2, Nat.not_lt.1 hlimit, fun hpos => ?_⟩
  simp only [Bool.and_eq_true, decide_eq_true_eq, bne_iff_ne, not_and_or, not_not] at hperiod
  exact Nat.dvd_of_mod_eq_zero (hperiod.resolve_left (by omega))

/-- The leaves among the slots, with their groups and the numbers of their values. -/
def leaves (slots : List InputSlot) (shapes : List (List Nat)) (totals : List Nat) :
    List (InputSlot × List Nat × Nat) :=
  (slots.zip (shapes.zip totals)).filter (·.1.isLeaf)

/-- **What is checked before a layout is made**, and what it is made of. -/
theorem ofShapes_cases {slots : List InputSlot} {shapes : List (List Nat)} {maxPeriod : Nat}
    {limits : Limits} {o : Overflow} {l : Layout}
    (h : ofShapes slots shapes maxPeriod limits o = .ok l) :
    shapes.length = slots.length ∧ checkLength l.traceLength maxPeriod limits = .ok ()
      ∧ ∃ totals leafCount entries, shapes.mapM (valueCount o) = .ok totals
        ∧ checkAll slots shapes totals = .ok ()
        ∧ checkLeaves (leaves slots shapes totals) = .ok ()
        ∧ leafCount = ((leaves slots shapes totals).head?.map (·.2.2)).getD 0
        ∧ l.steps = ((leaves slots shapes totals).head?.bind (·.1.steps)).getD 1
        ∧ mapsFrom o leafCount 0 (slots.zip shapes) = .ok entries
        ∧ l.maps = entries.map (·.2.2)
        ∧ (slots ≠ [] → o.mul leafCount l.steps = .ok l.traceLength) := by
  unfold ofShapes at h
  dsimp only at h
  split at h
  · cases h
  next hlen =>
  obtain ⟨totals, htotals, h⟩ := bind_eq_ok.1 h
  obtain ⟨⟨⟩, hall, h⟩ := bind_eq_ok.1 h
  obtain ⟨⟨⟩, hleaves, h⟩ := bind_eq_ok.1 h
  obtain ⟨entries, hentries, h⟩ := bind_eq_ok.1 h
  obtain ⟨length, hlength, h⟩ := bind_eq_ok.1 h
  obtain ⟨⟨⟩, hcheck, h⟩ := bind_eq_ok.1 h
  obtain rfl := Except.ok.inj h
  refine ⟨not_not.1 hlen, hcheck, totals, _, entries, htotals, hall, hleaves, rfl, rfl, hentries,
    rfl, fun hne => ?_⟩
  rw [traceLengthOf, if_neg (mt List.isEmpty_iff.1 hne)] at hlength
  exact mapError_eq_ok.1 hlength

/-- The length of the trace of a layout: no shorter than the least one, and a multiple of the
longest period. -/
theorem ofShapes_eq_ok {slots : List InputSlot} {shapes : List (List Nat)} {maxPeriod : Nat}
    {limits : Limits} {o : Overflow} {l : Layout}
    (h : ofShapes slots shapes maxPeriod limits o = .ok l) :
    shapes.length = slots.length ∧ minTraceLength ≤ l.traceLength
      ∧ (0 < maxPeriod → maxPeriod ∣ l.traceLength) := by
  obtain ⟨hlen, hcheck, -⟩ := ofShapes_cases h
  obtain ⟨-, hleast, -, hdvd⟩ := checkLength_eq_ok hcheck
  exact ⟨hlen, hleast, hdvd⟩

end Layout

/-! ## Provers -/

theorem mapM_id_eq_some {α : Type} {xs : List (Option α)} {ys : List α} (h : xs.mapM id = some ys) :
    xs = ys.map some := by
  induction xs generalizing ys with
  | nil =>
    obtain rfl := Option.some.inj h
    rfl
  | cons x xs ih =>
    rw [List.mapM_cons] at h
    obtain ⟨y, hy, h⟩ := Option.bind_eq_some_iff.1 h
    obtain ⟨zs, hzs, h⟩ := Option.bind_eq_some_iff.1 h
    obtain rfl := Option.some.inj h
    rw [List.map_cons, ← ih hzs]
    exact congrArg (· :: xs) hy

/-- The trees of the public input registers, in order. -/
def Machine.publicTrees (m : Machine) (trees : List InputTree) : List InputTree :=
  ((m.inputs.zip trees).filter fun (slot, _) => !slot.secret).map Prod.snd

namespace Prover

/-- The columns of the input registers, all of them known. -/
def inputColumns (layout : Layout) (inputs : List (List Nat × List Element)) :
    List (Option (List Element)) :=
  inputs.mapIdx fun i (_, values) => some (layout.column i values)

/-- How a prover was built from input trees. -/
structure Built (m : Machine) (trees : List InputTree) (p : Prover)
    (inputs : List (List Nat × List Element)) (layout : Layout) : Prop where
  length_trees : trees.length = m.inputs.length
  inputs_eq : inputValues (m.inputs.zip trees) = .ok inputs
  layout_eq : m.layout (inputs.map Prod.fst) = .ok layout
  machine_eq : p.machine = m
  statics_eq :
    StaticRule.columns m.statics (inputColumns layout inputs) layout.traceLength =
      p.statics.map some
  execution_eq : Domain.ofSize layout.traceLength = .ok p.execution
  composition_eq : Domain.ofSize (layout.traceLength * m.compositionFactor) = .ok p.composition

theorem ofInputs_eq_ok {m : Machine} {trees : List InputTree} {p : Prover}
    (h : ofInputs m trees = .ok p) : ∃ inputs layout, Built m trees p inputs layout := by
  unfold ofInputs at h
  dsimp only at h
  split at h
  · cases h
  next hlen =>
  obtain ⟨inputs, hinputs, h⟩ := bind_eq_ok.1 h
  obtain ⟨layout, hlayout, h⟩ := bind_eq_ok.1 h
  split at h
  · cases h
  next statics hstatics =>
  obtain ⟨execution, hexecution, h⟩ := bind_eq_ok.1 h
  obtain ⟨evaluation, -, h⟩ := bind_eq_ok.1 h
  obtain ⟨composition, hcomposition, h⟩ := bind_eq_ok.1 h
  obtain rfl := Except.ok.inj h
  exact ⟨inputs, layout, not_not.1 hlen, hinputs, hlayout, rfl, mapM_id_eq_some hstatics,
    hexecution, hcomposition⟩

/-- The values at a point of the polynomials that interpolate the static columns. -/
noncomputable def interpolatedStatics (p : Prover) (x : Element) : List Element :=
  p.statics.map fun c => (p.execution.interpolant c).eval x

/-- The same for the secret static registers only, in the order in which a verifier is given them.
-/
noncomputable def interpolatedSecrets (p : Prover) (x : Element) : List Element :=
  p.machine.secrets.map fun i => (p.execution.interpolant (p.statics.getD i [])).eval x

namespace Built

variable {m : Machine} {trees : List InputTree} {p : Prover}
  {inputs : List (List Nat × List Element)} {layout : Layout}

theorem length_inputs (h : Built m trees p inputs layout) : inputs.length = m.inputs.length := by
  have hlen := (mapM_eq_ok.1 h.inputs_eq).length_eq
  rw [List.length_zip, h.length_trees, Nat.min_self] at hlen
  exact hlen.symm

theorem length_statics (h : Built m trees p inputs layout) :
    p.statics.length = m.statics.length := by
  have hlen := congrArg List.length h.statics_eq
  rw [StaticRule.length_columns, List.length_map] at hlen
  exact hlen.symm

/-- All static columns are as long as the trace. -/
theorem length_column (h : Built m trees p inputs layout) :
    ∀ c ∈ p.statics, c.length = layout.traceLength := by
  have hinputs : ∀ c, some c ∈ inputColumns layout inputs → c.length = layout.traceLength := by
    intro c hc
    obtain ⟨i, hi, hval⟩ := List.mem_mapIdx.1 hc
    rw [← Option.some.inj hval]
    exact layout.length_column i _
  intro c hc
  exact StaticRule.length_of_mem_columns hinputs c (h.statics_eq ▸ List.mem_map_of_mem hc)

end Built

end Prover

/-! ## Verifiers -/

namespace Verifier

/-- The columns of the input registers, those of secret ones unknown. -/
def inputColumns (layout : Layout) (slots : List InputSlot)
    (inputs : List (List Nat × List Element)) (i : Nat) : List (Option (List Element)) :=
  ((slots.zip inputs).zipIdx i).map fun ((slot, _, values), j) =>
    if slot.secret then none else some (layout.column j values)

theorem publicColumns_secret {layout : Layout} {i : Nat} {slot : InputSlot} {shape : List Nat}
    {slots : List (InputSlot × List Nat)} {trees : List InputTree} (h : slot.secret = true) :
    publicColumns layout i ((slot, shape) :: slots) trees =
      (none :: ·) <$> publicColumns layout (i + 1) slots trees := by
  cases trees <;> simp only [publicColumns, h, if_true] <;> rfl

theorem publicColumns_public {layout : Layout} {i : Nat} {slot : InputSlot} {shape : List Nat}
    {slots : List (InputSlot × List Nat)} {tree : InputTree} {trees : List InputTree}
    {values : List Element} (h : slot.secret = false)
    (hv : slot.values tree = .ok (shape, values)) :
    publicColumns layout i ((slot, shape) :: slots) (tree :: trees) =
      (some (layout.column i values) :: ·) <$> publicColumns layout (i + 1) slots trees := by
  simp only [publicColumns, h, Bool.false_eq_true, if_false, hv]
  change (if shape ≠ shape then _ else _) = _
  rw [if_neg (not_not.2 rfl)]
  rfl

/-- Given the public trees and the group lengths of all, a verifier makes these columns. -/
theorem publicColumns_eq (layout : Layout) {slots : List InputSlot} {trees : List InputTree}
    {inputs : List (List Nat × List Element)}
    (h : Prover.inputValues (slots.zip trees) = .ok inputs) (hlen : trees.length = slots.length)
    (i : Nat) :
    publicColumns layout i (slots.zip (inputs.map Prod.fst))
      (((slots.zip trees).filter fun (slot, _) => !slot.secret).map Prod.snd) =
        .ok (inputColumns layout slots inputs i) := by
  induction slots generalizing trees inputs i with
  | nil => rfl
  | cons slot slots ih =>
    obtain ⟨tree, trees, rfl⟩ : ∃ tree rest, trees = tree :: rest :=
      List.exists_cons_of_length_eq_add_one hlen
    rw [Prover.inputValues, List.zip_cons_cons, mapM_eq_ok, List.forall₂_cons_left_iff] at h
    obtain ⟨⟨shape, values⟩, rest, hvalues, hrest, rfl⟩ := h
    have hrec := ih (mapM_eq_ok.2 hrest) (Nat.succ.inj hlen) (i + 1)
    rw [List.map_cons, List.zip_cons_cons, List.zip_cons_cons]
    cases hsecret : slot.secret with
    | true =>
      -- A secret register takes no tree.
      rw [List.filter_cons_of_neg (by simp [hsecret]), publicColumns_secret hsecret, hrec]
      simp [inputColumns, hsecret]
    | false =>
      rw [List.filter_cons_of_pos (by simp [hsecret]), List.map_cons,
        publicColumns_public hsecret hvalues, hrec]
      simp [inputColumns, hsecret]

end Verifier

namespace StaticRule

theorem usesColumn_of_isSecret {rule : StaticRule} (h : rule.isSecret = true) :
    rule.usesColumn = false := by
  cases rule with
  | cycle c => rfl
  | input position secret | mask source value secret => exact congrArg (!·) h

theorem isSecret_of_usesColumn {rule : StaticRule} (h : rule.usesColumn = true) :
    rule.isSecret = false := by
  refine eq_false_of_ne_true fun hsecret => ?_
  rw [usesColumn_of_isSecret hsecret] at h
  cases h

/-- A public register that uses no column is a cycle. -/
theorem eq_cycle {rule : StaticRule} (hpublic : ¬ rule.isSecret = true)
    (huses : ¬ rule.usesColumn = true) : ∃ c, rule = .cycle c := by
  cases rule with
  | cycle c => exact ⟨c, rfl⟩
  | input position secret | mask source value secret =>
    refine absurd ?_ huses
    exact congrArg (!·) (eq_false_of_ne_true hpublic)

end StaticRule

namespace Verifier

/-- Where the value of a static register at a point comes from, compared with its column: a public
column is known, and the polynomial of a cycle has the values of the one of the column. -/
def Knows (length : Nat) (rule : StaticRule × Option (List Element)) (column : List Element) :
    Prop :=
  (rule.1.isSecret = false → rule.2 = some column)
    ∧ ∀ c, rule.1 = .cycle c →
      ∀ x, c.evaluateAt x length = Transform.eval (Transform.interpolate column) x

/-- The values at a point of the polynomials of the secret columns. -/
def secretValues (rules : List (StaticRule × Option (List Element))) (columns : List (List Element))
    (x : Element) : List Element :=
  ((rules.zip columns).filter fun t => t.1.1.isSecret).map fun t =>
    Transform.eval (Transform.interpolate t.2) x

theorem polynomials_unused {rule : StaticRule} {column : Option (List Element)}
    {rest : List (StaticRule × Option (List Element))} (h : rule.usesColumn = false) :
    polynomials ((rule, column) :: rest) = polynomials rest := by
  rw [polynomials, List.filter_cons_of_neg (by simp [h]), polynomials]

theorem polynomials_used {rule : StaticRule} {column : List Element}
    {rest : List (StaticRule × Option (List Element))} (h : rule.usesColumn = true) :
    polynomials ((rule, some column) :: rest) =
      (Transform.interpolate column :: ·) <$> polynomials rest := by
  rw [polynomials, List.filter_cons_of_pos (by simp [h]), List.mapM_cons, polynomials]
  cases (rest.filter (·.1.usesColumn)).mapM Prod.snd <;> rfl

theorem pointRules_secret {secrets : Nat} {polys : List (List Element)} {rule : StaticRule}
    {rest : List StaticRule} (h : rule.isSecret = true) :
    pointRules secrets polys (rule :: rest) =
      (.secret secrets :: ·) <$> pointRules (secrets + 1) polys rest := by
  cases rule with
  | cycle c => cases h
  | input position secret => cases polys <;> simp only [pointRules, h, if_true] <;> rfl
  | mask source value secret => cases polys <;> simp only [pointRules, h, if_true] <;> rfl

theorem pointRules_cycle {secrets : Nat} {polys : List (List Element)} {c : CyclicColumn}
    {rest : List StaticRule} :
    pointRules secrets polys (.cycle c :: rest) =
      (.cycle c :: ·) <$> pointRules secrets polys rest := by
  cases polys <;> rfl

theorem pointRules_public {secrets : Nat} {poly : List Element} {polys : List (List Element)}
    {rule : StaticRule} {rest : List StaticRule} (h : rule.usesColumn = true) :
    pointRules secrets (poly :: polys) (rule :: rest) =
      (.column poly :: ·) <$> pointRules secrets polys rest := by
  cases rule with
  | cycle c => cases h
  | input position secret | mask source value secret =>
    rw [StaticRule.usesColumn, Bool.not_eq_true'] at h
    · simp only [pointRules, h, Bool.false_eq_true, if_false]
      rfl
    · intro c hc
      cases hc

/-- The rule at a point of a static register after `secrets` secret ones, from its column if it uses
it. -/
def point (secrets : Nat) : StaticRule × Option (List Element) → PointRule
  | (.cycle c, _) => .cycle c
  | (rule, column) =>
    if rule.isSecret then .secret secrets else .column (Transform.interpolate (column.getD []))

/-- The rules at a point, made register by register with the columns at hand. -/
def points (secrets : Nat) : List (StaticRule × Option (List Element)) → List PointRule
  | [] => []
  | rule :: rest => point secrets rule :: points (secrets + rule.1.isSecret.toNat) rest

theorem point_secret {secrets : Nat} {rule : StaticRule} {column : Option (List Element)}
    (h : rule.isSecret = true) : point secrets (rule, column) = .secret secrets := by
  cases rule with
  | cycle c => cases h
  | input position secret | mask source value secret => exact if_pos h

theorem point_used {secrets : Nat} {rule : StaticRule} {column : List Element}
    (h : rule.usesColumn = true) :
    point secrets (rule, some column) = .column (Transform.interpolate column) := by
  cases rule with
  | cycle c => cases h
  | input position secret | mask source value secret =>
    exact if_neg (Bool.eq_false_iff.1 (StaticRule.isSecret_of_usesColumn h))

/-- If all columns that are used are known, nothing is missing: the polynomials are made, and as
many are taken as there are. -/
theorem pointRules_eq {rules : List (StaticRule × Option (List Element))}
    (h : ∀ r ∈ rules, r.1.usesColumn = true → ∃ column, r.2 = some column) (secrets : Nat) :
    ∃ polys, polynomials rules = .ok polys
      ∧ pointRules secrets polys (rules.map Prod.fst) = .ok (points secrets rules) := by
  induction rules generalizing secrets with
  | nil => exact ⟨[], rfl, rfl⟩
  | cons r rules ih =>
    obtain ⟨rule, known⟩ := r
    obtain ⟨hknown, hrest⟩ := List.forall_mem_cons.1 h
    obtain ⟨polys, hpolys, hpoints⟩ := ih hrest (secrets + rule.isSecret.toNat)
    rw [List.map_cons, points]
    by_cases hsecret : rule.isSecret = true
    · refine ⟨polys, ?_, ?_⟩
      · rw [polynomials_unused (StaticRule.usesColumn_of_isSecret hsecret), hpolys]
      · rw [hsecret, Bool.toNat_true] at hpoints ⊢
        rw [pointRules_secret hsecret, hpoints, point_secret hsecret]
        rfl
    rw [eq_false_of_ne_true hsecret, Bool.toNat_false, Nat.add_zero] at hpoints ⊢
    by_cases huses : rule.usesColumn = true
    · -- The polynomial of the register is the first of those that are left.
      obtain ⟨column, rfl⟩ := hknown huses
      refine ⟨Transform.interpolate column :: polys, ?_, ?_⟩
      · rw [polynomials_used huses, hpolys]
        rfl
      · rw [pointRules_public huses, hpoints, point_used huses]
        rfl
    · obtain ⟨c, rfl⟩ := StaticRule.eq_cycle hsecret huses
      refine ⟨polys, ?_, ?_⟩
      · rw [polynomials_unused (eq_false_of_ne_true huses), hpolys]
      · rw [pointRules_cycle, hpoints]
        rfl

theorem assign_eq_ok {statics : List StaticRule} {columns : List (Option (List Element))}
    (hlen : columns.length = statics.length)
    (h : ∀ r ∈ statics.zip columns, r.1.usesColumn = true → ∃ column, r.2 = some column) :
    assign statics columns = .ok (points 0 (statics.zip columns)) := by
  obtain ⟨polys, hpolys, hpoints⟩ := pointRules_eq h 0
  rw [List.map_fst_zip hlen.ge] at hpoints
  exact bind_eq_ok.2 ⟨polys, hpolys, hpoints⟩

/-- What is known of a register gives it the value at a point of the polynomial of its column. -/
theorem ruleAt_point {v : Verifier} {rule : StaticRule × Option (List Element)}
    {column : List Element} (h : Knows v.traceLength rule column)
    (hpublic : ¬ rule.1.isSecret = true) (secrets : Nat) (x : Element) (given : List Element) :
    v.ruleAt x given (point secrets rule) = Transform.eval (Transform.interpolate column) x := by
  obtain ⟨rule, known⟩ := rule
  obtain ⟨hknown, hcycle⟩ := h
  by_cases huses : rule.usesColumn = true
  · obtain rfl : known = some column := hknown (eq_false_of_ne_true hpublic)
    rw [point_used huses, ruleAt]
  · obtain ⟨c, rfl⟩ := StaticRule.eq_cycle hpublic huses
    exact hcycle c rfl x

/-- Registers have the values at a point of the polynomials of their columns, if the secret values
are those from place `secrets` on. -/
theorem points_values {v : Verifier} {rules : List (StaticRule × Option (List Element))}
    {columns : List (List Element)} (h : List.Forall₂ (Knows v.traceLength) rules columns)
    {secrets : Nat} {x : Element} {given : List Element}
    (hgiven : given.drop secrets = secretValues rules columns x) :
    (points secrets rules).map (v.ruleAt x given) =
      columns.map fun c => Transform.eval (Transform.interpolate c) x := by
  induction h generalizing secrets with
  | nil => rfl
  | @cons rule column rules columns hrule hrest ih =>
    rw [points, List.map_cons, List.map_cons]
    by_cases hsecret : rule.1.isSecret = true
    · -- The register has the next secret value.
      have hnext : given.drop secrets =
          Transform.eval (Transform.interpolate column) x :: secretValues rules columns x := by
        rw [hgiven]
        simp [secretValues, hsecret]
      have hhead : given.getD secrets 0 = Transform.eval (Transform.interpolate column) x := by
        have hget := congrArg (·[0]?) hnext
        rw [List.getElem?_drop, Nat.add_zero] at hget
        rw [List.getD_eq_getElem?_getD, hget]
        rfl
      have htail : given.drop (secrets + 1) = secretValues rules columns x := by
        rw [← List.drop_drop, hnext]
        rfl
      rw [hsecret, Bool.toNat_true, ih htail, point_secret hsecret, ruleAt, hhead]
    · have hsame : given.drop secrets = secretValues rules columns x := by
        rw [hgiven]
        simp [secretValues, hsecret]
      rw [eq_false_of_ne_true hsecret, Bool.toNat_false, Nat.add_zero, ih hsame,
        ruleAt_point hrule hsecret]

end Verifier

/-! ## Agreement -/

/-- Secret places, read through their indexes and picked directly. -/
theorem map_filter_zipIdx {α β : Type} {flags : List Bool} {ys all : List α} {n : Nat}
    (hlen : flags.length = ys.length) (hall : all.drop n = ys) (default : α) (f : α → β) :
    (((flags.zipIdx n).filter Prod.fst).map Prod.snd).map (fun i => f (all.getD i default)) =
      ((flags.zip ys).filter Prod.fst).map fun t => f t.2 := by
  induction flags generalizing ys n with
  | nil => rfl
  | cons flag flags ih =>
    obtain ⟨y, ys, rfl⟩ : ∃ y rest, ys = y :: rest :=
      List.exists_cons_of_length_eq_add_one hlen.symm
    have hrest : all.drop (n + 1) = ys := by
      rw [← List.drop_drop, hall]
      rfl
    have hrec := ih (Nat.succ.inj hlen) hrest
    have hget : all.getD n default = y := by
      have hzero := congrArg (·[0]?) hall
      rw [List.getElem?_drop, Nat.add_zero] at hzero
      rw [List.getD_eq_getElem?_getD, hzero]
      rfl
    rw [List.zipIdx_cons, List.zip_cons_cons]
    cases flag with
    | false => simpa using hrec
    | true =>
      rw [List.filter_cons_of_pos rfl, List.filter_cons_of_pos rfl, List.map_cons, List.map_cons,
        List.map_cons, hrec, hget]

namespace Prover.Built

variable {m : Machine} {trees : List InputTree} {p : Prover}
  {inputs : List (List Nat × List Element)} {layout : Layout}

/-- The columns of public inputs are the same on both sides. -/
theorem inputColumns_agree (h : Built m trees p inputs layout) {position : Nat} {slot : InputSlot}
    (hslot : m.inputs[position]? = some slot) (hpublic : slot.secret = false) :
    (Verifier.inputColumns layout m.inputs inputs 0)[position]? =
      (inputColumns layout inputs)[position]? := by
  have hlt : position < inputs.length := by
    rw [h.length_inputs]
    exact (List.getElem?_eq_some_iff.1 hslot).1
  have hzip : (m.inputs.zip inputs)[position]? = some (slot, inputs[position]) :=
    List.getElem?_zip_eq_some.2 ⟨hslot, List.getElem?_eq_getElem hlt⟩
  rw [Verifier.inputColumns, inputColumns, List.getElem?_map, List.getElem?_zipIdx, hzip,
    List.getElem?_mapIdx, List.getElem?_eq_getElem hlt]
  simp [hpublic]

/-- The trace length is the number of points of the execution domain. -/
theorem exists_order (h : Built m trees p inputs layout) :
    ∃ k ≤ Element.twoAdicity, layout.traceLength = 2 ^ k ∧ p.execution = Domain.ofOrder k :=
  Domain.ofSize_eq_ok h.execution_eq

/-- What a verifier knows of each static register fits the prover's column. -/
theorem knows (h : Built m trees p inputs layout)
    (hformed : StaticRule.Formed m.inputs m.statics) :
    List.Forall₂ (Verifier.Knows layout.traceLength)
      (m.statics.zip (StaticRule.columns m.statics
        (Verifier.inputColumns layout m.inputs inputs 0) layout.traceLength)) p.statics := by
  obtain ⟨k, hk, hlength, -⟩ := h.exists_order
  have hzip : (m.statics.zip (StaticRule.columns m.statics
      (Verifier.inputColumns layout m.inputs inputs 0) layout.traceLength)).length =
        p.statics.length := by
    rw [List.length_zip, StaticRule.length_columns, Nat.min_self, h.length_statics]
  refine List.forall₂_iff_get.2 ⟨hzip, fun i hi hi' => ?_⟩
  rw [List.get_eq_getElem, List.get_eq_getElem, List.getElem_zip]
  have hi'' : i < m.statics.length := h.length_statics ▸ hi'
  have hrule : m.statics[i]? = some m.statics[i] := List.getElem?_eq_getElem hi''
  have hcolumn : (StaticRule.columns m.statics (inputColumns layout inputs)
      layout.traceLength)[i]? = some (some p.statics[i]) := by
    rw [h.statics_eq, List.getElem?_map, List.getElem?_eq_getElem hi', Option.map_some]
  refine ⟨fun hpublic => ?_, fun c hc x => ?_⟩
  · have hagree := StaticRule.columns_agree hformed layout.traceLength
      h.inputColumns_agree hrule hpublic
    rw [hcolumn] at hagree
    exact (List.getElem?_eq_some_iff.1 hagree).2
  · dsimp only at hc
    rw [hc] at hrule
    rw [StaticRule.columns_eq, getElem?_grow _ hrule] at hcolumn
    have hvalues : (List.range layout.traceLength).map c.valueAt = p.statics[i] :=
      Option.some.inj (Option.some.inj hcolumn)
    have hmem : StaticRule.cycle c ∈ m.statics := List.mem_of_getElem? hrule
    obtain ⟨hpos, hdvd⟩ := hformed.period_dvd hmem
    have hperiod : c.period ∣ layout.traceLength :=
      hdvd.trans ((Layout.ofShapes_eq_ok h.layout_eq).2.2 hpos)
    rw [← hvalues, hlength]
    exact CyclicColumn.evaluateAt_eq (hformed.cycle hmem) hk (hlength ▸ hperiod) x

theorem interpolatedStatics_eq (h : Built m trees p inputs layout) (x : Element) :
    p.interpolatedStatics x =
      p.statics.map fun c => Transform.eval (Transform.interpolate c) x := by
  obtain ⟨k, hk, hlength, hdomain⟩ := h.exists_order
  refine List.map_congr_left fun c hc => ?_
  rw [hdomain]
  exact Domain.eval_interpolant hk ((h.length_column c hc).trans hlength) x

/-- The secret values that a verifier is to be given. -/
theorem interpolatedSecrets_eq (h : Built m trees p inputs layout)
    (hsecrets : m.secrets =
      ((m.statics.map StaticRule.isSecret).zipIdx.filter Prod.fst).map Prod.snd)
    (known : List (Option (List Element))) (hknown : known.length = m.statics.length)
    (x : Element) :
    p.interpolatedSecrets x = Verifier.secretValues (m.statics.zip known) p.statics x := by
  obtain ⟨k, hk, hlength, hdomain⟩ := h.exists_order
  have hlen : (m.statics.map StaticRule.isSecret).length = p.statics.length := by
    rw [List.length_map, h.length_statics]
  rw [interpolatedSecrets, h.machine_eq, hsecrets,
    map_filter_zipIdx hlen (List.drop_zero) [] fun c => (p.execution.interpolant c).eval x,
    Verifier.secretValues]
  -- Both sides pick from the same columns by the same flags.
  have hrules : (m.statics.map StaticRule.isSecret).zip p.statics =
      ((m.statics.zip known).zip p.statics).map fun t => (t.1.1.isSecret, t.2) := by
    refine List.ext_getElem ?_ fun i hi hi' => ?_
    · simp [hknown]
    · simp
  rw [hrules, List.filter_map, List.map_map]
  refine List.map_congr_left fun t ht => ?_
  have hmem : t.2 ∈ p.statics := (List.of_mem_zip (List.mem_filter.1 ht).1).2
  rw [Function.comp_apply, hdomain]
  exact Domain.eval_interpolant hk ((h.length_column t.2 hmem).trans hlength) x

/-- **A verifier of the same machine and public inputs** exists for every prover. It has the same
trace length, and, given the values of the secret registers at a point, those of all static
registers. -/
theorem exists_verifier (h : Built m trees p inputs layout)
    (hformed : StaticRule.Formed m.inputs m.statics)
    (hsecrets : m.secrets =
      ((m.statics.map StaticRule.isSecret).zipIdx.filter Prod.fst).map Prod.snd) :
    ∃ v, Verifier.ofInputs m (inputs.map Prod.fst) (m.publicTrees trees) = .ok v
      ∧ v.machine = m ∧ v.traceLength = p.traceLength
      ∧ ∀ x, v.staticsAt x (p.interpolatedSecrets x) = .ok (p.interpolatedStatics x) := by
  obtain ⟨k, hk, hlength, hdomain⟩ := h.exists_order
  have hknows := h.knows hformed
  have hlen : (StaticRule.columns m.statics (Verifier.inputColumns layout m.inputs inputs 0)
      layout.traceLength).length = m.statics.length :=
    StaticRule.length_columns ..
  have hassign := Verifier.assign_eq_ok hlen fun r hr huses => by
    obtain ⟨column, -, hknown, -⟩ := exists_mem_right hknows hr
    exact ⟨column, hknown (StaticRule.isSecret_of_usesColumn huses)⟩
  have hcount : (m.publicTrees trees).length = (m.inputs.filter (!·.secret)).length := by
    have hslots : (m.inputs.zip trees).map Prod.fst = m.inputs :=
      List.map_fst_zip h.length_trees.ge
    rw [Machine.publicTrees, List.length_map]
    conv_rhs => rw [← hslots, List.filter_map, List.length_map]
    rfl
  refine ⟨⟨m, layout.traceLength, Verifier.points 0 (m.statics.zip (StaticRule.columns m.statics
    (Verifier.inputColumns layout m.inputs inputs 0) layout.traceLength))⟩, ?_, rfl, ?_,
    fun x => ?_⟩
  · rw [Verifier.ofInputs]
    dsimp only
    rw [if_neg (not_not.2 hcount), h.layout_eq]
    have hcolumns := Verifier.publicColumns_eq layout h.inputs_eq h.length_trees 0
    change (Verifier.publicColumns layout 0 _ (m.publicTrees trees) >>= _) = _
    rw [Machine.publicTrees, hcolumns]
    change (Verifier.assign m.statics _ >>= _) = _
    rw [hassign]
    rfl
  · rw [traceLength, hdomain]
    exact hlength
  · have hcountSecrets : (p.interpolatedSecrets x).length = m.secrets.length := by
      rw [interpolatedSecrets, h.machine_eq, List.length_map]
    have hgiven := h.interpolatedSecrets_eq hsecrets _ hlen x
    rw [Verifier.staticsAt]
    dsimp only
    rw [if_pos hcountSecrets, h.interpolatedStatics_eq]
    exact congrArg Except.ok (Verifier.points_values (v := ⟨m, layout.traceLength, _⟩) hknows
      (List.drop_zero.trans hgiven))

end Prover.Built

/-! ## Every point -/

namespace Prover

/-- **Provers and verifiers agree on static registers.** Whenever a prover accepts its inputs, a
verifier of the same machine accepts their group lengths and the public ones among them. Its traces
have the same length, and at every point of the field, told the values there of the polynomials of
the secret columns, it gets for every register the value of the polynomial that interpolates the
prover's column. -/
theorem statics_agree {text : List Char} {o : CompileOptions} {s : Schema}
    (hs : compile text o = .ok s) {mo : MachineOptions} {m : Machine}
    (hm : Machine.ofSchema s mo = .ok m) {trees : List InputTree} {p : Prover}
    (hp : ofInputs m trees = .ok p) :
    p.statics.length = s.registers.size
      ∧ ∃ inputs v, inputValues (m.inputs.zip trees) = .ok inputs
        ∧ Verifier.ofInputs m (inputs.map Prod.fst) (m.publicTrees trees) = .ok v
        ∧ v.traceLength = p.traceLength
        ∧ ∀ x, v.staticsAt x (p.interpolatedSecrets x) = .ok (p.interpolatedStatics x) := by
  obtain ⟨inputs, layout, hb⟩ := ofInputs_eq_ok hp
  obtain ⟨hformed, hsecrets⟩ := Machine.statics_formed hs hm
  obtain ⟨v, hv, -, hlength, hstatics⟩ := hb.exists_verifier hformed hsecrets
  have hsize : m.statics.length = s.registers.size := by
    obtain ⟨hfield, rules, ext, hrules, -, rfl⟩ := Machine.ofSchema_eq_ok hm
    exact Machine.length_statics (compile_wellShaped hs) hfield hrules
  exact ⟨hb.length_statics.trans hsize, inputs, v, hb.inputs_eq, hv, hlength, hstatics⟩

/-- A module with a public input, a secret one in groups below it, cycles of two periods, and masks
of a public register, of a secret one and of a mask. -/
def layeredText : List Char :=
  "(module (field prime 340282366920938463463374607393113505793)
    (static (input public vector filled) (input secret (parent 0) (steps 2)) (cycle 1 2 3 4)
      (cycle (power 3 2)) (mask 0 5) (mask 1 7) (mask 5 1))
    (transition (span 1) (result vector 1)
      (vector (add (get (load.trace 0) 0) (get (load.static 0) 6))))
    (evaluation (span 2) (result vector 1)
      (vector (sub (get (load.trace 1) 0)
        (add (get (load.trace 0) 0) (get (load.static 0) 6))))))".toList

/-- Its inputs: two values of the first register and two groups of two of the second. -/
def layeredTrees : List InputTree :=
  [.list [.value 5, .value 6], .list [.list [.value 7, .value 8], .list [.value 7, .value 9]]]

/-- Its verifier, which is given the first tree and the group lengths of both, agrees with its
prover on all seven registers. -/
theorem statics_agree_layered :
    ∃ s m p v, compile layeredText { sharing := { enabled := false } } = .ok s
      ∧ Machine.ofSchema s {} = .ok m
      ∧ ofInputs m layeredTrees = .ok p ∧ p.statics.length = 7
      ∧ Verifier.ofInputs m [[2], [2, 2]] [.list [.value 5, .value 6]] = .ok v
      ∧ v.traceLength = 8
      ∧ ∀ x, v.staticsAt x (p.interpolatedSecrets x) = .ok (p.interpolatedStatics x) := by
  have hcheck : ((compile layeredText { sharing := { enabled := false } }).toOption.any fun s =>
      s.registers.size == 7 && (Machine.ofSchema s {}).toOption.any fun m =>
        ((inputValues (m.inputs.zip layeredTrees)).toOption.any fun inputs =>
          inputs.map Prod.fst == [[2], [2, 2]])
        && m.inputs.map InputSlot.secret == [false, true]
        && (ofInputs m layeredTrees).toOption.any fun p => p.traceLength == 8) = true := by
    unfold layeredText
    rewrite [String.toList_ofList]
    decide +kernel
  simp only [Option.any_eq_true, Bool.and_eq_true, beq_iff_eq, toOption_eq_some] at hcheck
  obtain ⟨s, hs, hsize, m, hm, ⟨⟨inputs, hinputs, hshapes⟩, hsecret⟩, p, hp, hlength⟩ := hcheck
  obtain ⟨hcount, inputs', v, hinputs', hv, hsame, hvalues⟩ := statics_agree hs hm hp
  obtain rfl := Except.ok.inj (hinputs.symm.trans hinputs')
  have hpublic : m.publicTrees layeredTrees = [.list [.value 5, .value 6]] := by
    obtain ⟨slot, slots, hslots, hslot, hrest⟩ := List.map_eq_cons_iff.1 hsecret
    obtain ⟨slot', slots', rfl, hslot', -⟩ := List.map_eq_cons_iff.1 hrest
    simp [Machine.publicTrees, layeredTrees, hslots, hslot, hslot']
  rw [hshapes, hpublic] at hv
  exact ⟨s, m, p, v, hs, hm, hp, hcount.trans hsize, hv, hsame.trans hlength, hvalues⟩

end Prover

end Arithmetization
