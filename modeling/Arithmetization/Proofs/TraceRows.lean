import Arithmetization.Proofs.Composition

/-!
Constraint columns and the rows of a trace.

The polynomials of the columns of a trace take, at point `i` of the execution domain, the values of
row `i`, and one step further those of the row after it; the last row is followed by the first.
Point `i` of the execution domain is point `i * compositionFactor` of the composition domain, so
there the constraint columns hold the constraints of two consecutive rows, whatever the trace
(`Prover.Built.constraints_row`). A trace that a prover has made goes from each row to the next by a
transition (`Prover.trace_steps`), and its constraint columns vanish at all rows but the last if
transitions satisfy the constraints (`Prover.constraints_on_trace`).
-/

set_option autoImplicit false

namespace Arithmetization

/-! ## Rows of columns -/

namespace Columns

theorem length_ofRows (width : Nat) (rows : List (List Element)) :
    (ofRows width rows).length = width := by
  rw [ofRows, List.length_map, List.length_range]

theorem length_of_mem_ofRows {width : Nat} {rows : List (List Element)} {c : List Element}
    (hc : c ∈ ofRows width rows) : c.length = rows.length := by
  obtain ⟨i, -, rfl⟩ := List.mem_map.1 hc
  exact List.length_map _

/-- The columns of some rows hold at each index the row with that index. -/
theorem getElem?_ofRows {width : Nat} {rows : List (List Element)} {i : Nat} {row : List Element}
    (hrow : rows[i]? = some row) (hwidth : row.length = width) :
    (ofRows width rows).map (·[i]?) = row.map some := by
  have hentry (c : Nat) : (rows.map (·.getD c 0))[i]? = some (row.getD c 0) := by
    rw [List.getElem?_map, hrow, Option.map_some]
  rw [ofRows, List.map_map, ← hwidth]
  conv_rhs => rw [← Place.map_range_getD row, List.map_map]
  exact List.map_congr_left fun c _ => hentry c

theorem row_ofRows {width : Nat} {rows : List (List Element)} {i : Nat} {row : List Element}
    (hrow : rows[i]? = some row) (hwidth : row.length = width) :
    row = (ofRows width rows).row i := by
  have hentries := congrArg (List.map fun o : Option Element => o.getD 0)
    (getElem?_ofRows hrow hwidth)
  rw [List.map_map, List.map_map] at hentries
  refine (Eq.trans ?_ hentries.symm).trans (List.map_congr_left fun c _ => ?_)
  · exact (List.map_id row).symm
  · exact List.getD_eq_getElem?_getD.symm

/-- The polynomials of columns take the values of a row at its point of the domain. -/
theorem row_interpolate {k : Nat} (hk : k ≤ Element.twoAdicity) {columns : Columns}
    (h : ∀ c ∈ columns, c.length = 2 ^ k) {i : Nat} (hi : i < 2 ^ k) :
    (columns.map Transform.interpolate).map (Transform.eval · (Element.rootOfUnity k ^ i)) =
      columns.row i := by
  rw [List.map_map, row]
  exact List.map_congr_left fun c hc => Transform.eval_interpolate hk (h c hc) hi

end Columns

/-- One step along a domain, which goes around. -/
theorem Element.rootOfUnity_step {k : Nat} (hk : k ≤ twoAdicity) (i : Nat) :
    rootOfUnity k ^ i * rootOfUnity k = rootOfUnity k ^ ((i + 1) % 2 ^ k) := by
  rw [(rootOfUnity_isPrimitiveRoot hk).eq_orderOf, pow_mod_orderOf, pow_succ]

theorem Machine.length_evaluate {m : Machine} {row next statics v : List Element}
    (h : m.evaluate row next statics = .ok v) : v.length = m.constraintCount := by
  obtain ⟨-, -, h⟩ := bind_eq_ok.1 h
  obtain ⟨-, -, h⟩ := bind_eq_ok.1 h
  obtain ⟨-, -, h⟩ := bind_eq_ok.1 h
  obtain ⟨w, -, h⟩ := bind_eq_ok.1 h
  obtain ⟨_, hcount, h⟩ := bind_eq_ok.1 h
  obtain rfl := Except.ok.inj h
  exact checkWidth_eq_ok.1 hcount

theorem Machine.length_transition {m : Machine} {row statics v : List Element}
    (h : m.transition row statics = .ok v) : v.length = m.traceWidth := by
  obtain ⟨-, -, h⟩ := bind_eq_ok.1 h
  obtain ⟨-, -, h⟩ := bind_eq_ok.1 h
  obtain ⟨w, -, h⟩ := bind_eq_ok.1 h
  obtain ⟨_, hwidth, h⟩ := bind_eq_ok.1 h
  obtain rfl := Except.ok.inj h
  exact checkWidth_eq_ok.1 hwidth

namespace Prover

/-! ## Traces -/

/-- The rows from one row on: each is the transition of the one before. -/
theorem rowsFrom_steps {p : Prover} {n step : Nat} {row : List Element} {rows : List (List Element)}
    (hrow : row.length = p.machine.traceWidth) (h : p.rowsFrom n step row = .ok rows) :
    rows.length = n + 1 ∧ rows[0]? = some row
      ∧ (∀ r ∈ rows, r.length = p.machine.traceWidth)
      ∧ ∀ i < n, ∃ r next, rows[i]? = some r ∧ rows[i + 1]? = some next
        ∧ p.machine.transition r (p.staticsAt (step + i)) = .ok next := by
  induction n generalizing step row rows with
  | zero =>
    obtain rfl := Except.ok.inj h
    exact ⟨rfl, rfl, List.forall_mem_singleton.2 hrow, fun i hi => absurd hi (Nat.not_lt_zero i)⟩
  | succ n ih =>
    obtain ⟨next, hnext, h⟩ := bind_eq_ok.1 h
    obtain ⟨rest, hrest, h⟩ := bind_eq_ok.1 h
    obtain rfl := Except.ok.inj h
    obtain ⟨hlen, hfirst, hwidths, hsteps⟩ := ih (Machine.length_transition hnext) hrest
    refine ⟨by rw [List.length_cons, hlen], rfl, List.forall_mem_cons.2 ⟨hrow, hwidths⟩, ?_⟩
    intro i hi
    cases i with
    | zero => exact ⟨row, next, rfl, hfirst, hnext⟩
    | succ i =>
      obtain ⟨r, r', hr, hr', hstep⟩ := hsteps i (by omega)
      refine ⟨r, r', hr, hr', ?_⟩
      rw [← Nat.add_assoc, Nat.add_right_comm]
      exact hstep

/-- A trace has a column for every register, as many rows as the execution domain has points, and
goes from each row to the next by a transition. -/
theorem trace_steps {p : Prover} (hpos : 0 < p.traceLength) {T : Columns} (h : p.trace = .ok T) :
    T.length = p.machine.traceWidth ∧ (∀ c ∈ T, c.length = p.traceLength)
      ∧ ∀ i, i + 1 < p.traceLength →
        p.machine.transition (T.row i) (p.staticsAt i) = .ok (T.row (i + 1)) := by
  obtain ⟨rows, hrows, h⟩ := bind_eq_ok.1 h
  obtain rfl := Except.ok.inj h
  obtain ⟨hlen, -, hwidths, hsteps⟩ := rowsFrom_steps List.length_replicate hrows
  refine ⟨Columns.length_ofRows _ _, fun c hc => ?_, fun i hi => ?_⟩
  · rw [Columns.length_of_mem_ofRows hc, hlen]
    omega
  · obtain ⟨r, next, hr, hnext, hstep⟩ := hsteps i (by omega)
    rw [← Columns.row_ofRows hr (hwidths r (List.mem_of_getElem? hr)),
      ← Columns.row_ofRows hnext (hwidths next (List.mem_of_getElem? hnext))]
    rw [Nat.zero_add] at hstep
    exact hstep

/-- The polynomials of a trace are those of its columns. -/
theorem interpolate_eq_ok {p : Prover} {T polys : Columns} (h : p.interpolate T = .ok polys) :
    polys = T.map Transform.interpolate := by
  unfold interpolate at h
  dsimp only at h
  split at h
  case isFalse => cases h
  case isTrue => exact (Except.ok.inj h).symm

namespace Built

variable {m : Machine} {trees : List InputTree} {p : Prover}
  {inputs : List (List Nat × List Element)} {layout : Layout}

/-- The polynomials of the static columns take the values of a step at its point. -/
theorem interpolatedStatics_point (h : Built m trees p inputs layout) {a : Nat}
    (ha : a ≤ Element.twoAdicity) (hlength : layout.traceLength = 2 ^ a)
    (hexecution : p.execution = Domain.ofOrder a) {i : Nat} (hi : i < 2 ^ a) :
    p.interpolatedStatics (Element.rootOfUnity a ^ i) = p.staticsAt i := by
  have hsize : p.traceLength = 2 ^ a := by rw [traceLength, hexecution]; rfl
  rw [h.interpolatedStatics_eq, staticsAt, hsize, Nat.mod_eq_of_lt hi,
    ← Columns.row_interpolate ha (fun c hc => (h.length_column c hc).trans hlength) hi,
    List.map_map]
  rfl

/-- **Constraint columns at a row.** At the point of row `i` of a trace, which is any table of the
right size, the constraint columns hold the constraints of that row and the row after it. -/
theorem constraints_row (h : Built m trees p inputs layout) {e : Nat}
    (hfactor : m.compositionFactor = 2 ^ e) {T q : Columns}
    (hT : ∀ c ∈ T, c.length = p.traceLength) (hq : (p.interpolate T >>= p.constraints) = .ok q)
    {i : Nat} (hi : i < p.traceLength) :
    ∃ v, m.evaluate (T.row i) (T.row ((i + 1) % p.traceLength)) (p.staticsAt i) = .ok v
      ∧ q.map (·[i * m.compositionFactor]?) = v.map some := by
  obtain ⟨polys, hpolys, hq⟩ := bind_eq_ok.1 hq
  obtain rfl := interpolate_eq_ok hpolys
  obtain ⟨a, hk, hlength, hexecution, -, hconstraints⟩ := h.constraint_rows hfactor
  obtain ⟨-, -, rows, rfl, hlen, hrow⟩ := hconstraints hq
  have ha : a ≤ Element.twoAdicity := (Nat.le_add_right a e).trans hk
  have hsize : p.traceLength = 2 ^ a := by rw [traceLength, hexecution]; rfl
  rw [hsize] at hi hT ⊢
  -- Point `i` of the execution domain, among the points of the composition domain.
  have hindex : i * m.compositionFactor < rows.length := by
    rw [hlen, hfactor, pow_add]
    exact Nat.mul_lt_mul_of_pos_right hi (by positivity)
  have hpoint : Element.rootOfUnity a ^ i =
      Element.rootOfUnity (a + e) ^ (i * m.compositionFactor) := by
    rw [hfactor, mul_comm, pow_mul, Element.rootOfUnity_pow hk]
  have hget := List.getElem?_eq_getElem hindex
  have heval := hrow _ _ hget _ hpoint
  have hstep : Element.rootOfUnity a ^ i * p.execution.generator =
      Element.rootOfUnity a ^ ((i + 1) % 2 ^ a) := by
    rw [hexecution]
    exact Element.rootOfUnity_step ha i
  rw [hstep, Columns.row_interpolate ha hT hi,
    Columns.row_interpolate ha hT (Nat.mod_lt _ (by positivity)),
    h.interpolatedStatics_point ha hlength hexecution hi] at heval
  exact ⟨_, heval, Columns.getElem?_ofRows hget (Machine.length_evaluate heval)⟩

theorem traceLength_pos (h : Built m trees p inputs layout) : 0 < p.traceLength := by
  obtain ⟨k, -, -, hdomain⟩ := h.exists_order
  rw [traceLength, hdomain]
  exact Nat.two_pow_pos k

end Built

/-- **Constraint columns agree with the rows of the trace.** For any table of the right size, the
constraint columns of its polynomials hold, at the point of each row, the constraints of that row
and the row after it, with the first row after the last. So if the constraints of a row and its
transition are zero wherever both have a value, the constraint columns of the trace that the prover
makes are zero at the points of all rows but the last. -/
theorem constraints_on_trace {s : Schema} {mo : MachineOptions} {m : Machine}
    (hm : Machine.ofSchema s mo = .ok m) {trees : List InputTree} {p : Prover}
    (hp : ofInputs m trees = .ok p) :
    (∀ T q : Columns, (∀ c ∈ T, c.length = p.traceLength) →
      (p.interpolate T >>= p.constraints) = .ok q → ∀ i < p.traceLength,
        ∃ v, m.evaluate (T.row i) (T.row ((i + 1) % p.traceLength)) (p.staticsAt i) = .ok v
          ∧ q.map (·[i * m.compositionFactor]?) = v.map some)
    ∧ ((∀ row statics next v : List Element, m.transition row statics = .ok next →
        m.evaluate row next statics = .ok v → ∀ y ∈ v, y = 0) →
      ∀ T q : Columns, p.trace = .ok T → (p.interpolate T >>= p.constraints) = .ok q →
        ∀ i, i + 1 < p.traceLength → ∀ column ∈ q,
          column[i * m.compositionFactor]? = some 0) := by
  obtain ⟨inputs, layout, hb⟩ := ofInputs_eq_ok hp
  obtain ⟨-, ⟨e, hfactor⟩, -⟩ := Machine.compositionFactor_spec hm
  refine ⟨fun T q hT hq i hi => hb.constraints_row hfactor hT hq hi, ?_⟩
  intro hzero T q htrace hq i hi column hcolumn
  obtain ⟨-, hT, hsteps⟩ := trace_steps hb.traceLength_pos htrace
  obtain ⟨v, hv, hentries⟩ := hb.constraints_row hfactor hT hq (Nat.lt_of_succ_lt hi)
  rw [Nat.mod_eq_of_lt hi] at hv
  have hstep := hsteps i hi
  rw [hb.machine_eq] at hstep
  have hmem : column[i * m.compositionFactor]? ∈ v.map some := by
    rw [← hentries]
    exact List.mem_map_of_mem hcolumn
  obtain ⟨y, hy, hval⟩ := List.mem_map.1 hmem
  rw [← hval, hzero _ _ _ v hstep hv y hy]

/-- A module whose rows are squares of the rows before, plus a cyclic register. -/
def squareText : List Char :=
  "(module (field prime 340282366920938463463374607393113505793)
    (static (input public vector (steps 4)) (cycle 1 2))
    (transition (span 1) (result vector 1)
      (vector (add (mul (get (load.trace 0) 0) (get (load.trace 0) 0)) (get (load.static 0) 1))))
    (evaluation (span 2) (result vector 1)
      (vector (sub (get (load.trace 1) 0)
        (add (mul (get (load.trace 0) 0) (get (load.trace 0) 0)) (get (load.static 0) 1))))))".toList

/-- Its input: two values of the input register. -/
def squareTrees : List InputTree :=
  [.list [.value 5, .value 6]]

/-- The result of its transition. -/
def squareExpr : Expr :=
  let x : Expr := .node (.get 0) .scalar [.node (.load .trace 0) (.vector 1) []]
  .node (.binary .add) .scalar [.node (.binary .mul) .scalar [x, x],
    .node (.get 1) .scalar [.node (.load .static 0) (.vector 2) []]]

def squareStep : Block :=
  ⟨[], [], .node .vector (.vector 1) [squareExpr]⟩

def squareConstraint : Block :=
  ⟨[], [], .node .vector (.vector 1) [.node (.binary .sub) .scalar
    [.node (.get 0) .scalar [.node (.load .trace 1) (.vector 1) []], squareExpr]]⟩

/-- Its constraint columns are zero at the first seven of the eight rows of its trace, and at the
last row they hold the constraint of that row and the first. -/
theorem constraints_on_trace_square :
    ∃ s m p T q v, compile squareText { sharing := { enabled := false } } = .ok s
      ∧ Machine.ofSchema s {} = .ok m ∧ ofInputs m squareTrees = .ok p ∧ p.trace = .ok T
      ∧ (p.interpolate T >>= p.constraints) = .ok q ∧ m.compositionFactor = 2
      ∧ m.evaluate (T.row 7) (T.row 0) (p.staticsAt 7) = .ok v ∧ q.map (·[14]?) = v.map some
      ∧ ∀ i < 7, ∀ column ∈ q, column[i * 2]? = some 0 := by
  have hcheck : ((compile squareText { sharing := { enabled := false } }).toOption.any fun s =>
      s.transition.body.block.toBody == squareStep.toBody
      && s.evaluation.body.block.toBody == squareConstraint.toBody
      && (Machine.ofSchema s {}).toOption.any fun m =>
        m.traceWidth == 1 && m.statics.length == 2 && m.constraintCount == 1
        && m.compositionFactor == 2
        && (ofInputs m squareTrees).toOption.any fun p =>
          p.traceLength == 8 && p.trace.toOption.any fun _ => true) = true := by
    unfold squareText
    rewrite [String.toList_ofList]
    decide +kernel
  simp only [Option.any_eq_true, Bool.and_eq_true, beq_iff_eq, toOption_eq_some, and_true] at hcheck
  obtain ⟨s, hs, ⟨htransition, hevaluation⟩, m, hm, ⟨⟨⟨hwidth, hstatics⟩, hcount⟩, hfactor⟩, p, hp,
    hlength, T, hT⟩ := hcheck
  obtain ⟨inputs, layout, hb⟩ := ofInputs_eq_ok hp
  obtain ⟨-, rules, ext, -, -, hassemble⟩ := Machine.ofSchema_eq_ok hm
  have hstep : m.transitionBlock = squareStep := by
    rw [hassemble, ← Block.toBody_block squareStep, ← htransition, Block.toBody_block]
    rfl
  have hconstraint : m.evaluationBlock = squareConstraint := by
    rw [hassemble, ← Block.toBody_block squareConstraint, ← hevaluation, Block.toBody_block]
    rfl
  -- What the two blocks compute, for all rows and static values.
  have hrow (x : Element) : [x].length = m.traceWidth := hwidth.symm
  have hvalues (k k' : Element) : [k, k'].length = m.statics.length := hstatics.symm
  have htransitions (x k k' : Element) : m.transition [x] [k, k'] = .ok [x * x + k'] := by
    rw [Machine.transition_eq (hrow x) (hvalues k k'), hstep, hwidth]
    rfl
  have hevaluates (x y k k' : Element) :
      m.evaluate [x] [y] [k, k'] = .ok [y - (x * x + k')] := by
    rw [Machine.evaluate_eq (hrow x) (hrow y) (hvalues k k'), hconstraint, hcount]
    rfl
  have hzero : ∀ row statics next v : List Element, m.transition row statics = .ok next →
      m.evaluate row next statics = .ok v → ∀ y ∈ v, y = 0 := by
    intro row statics next v hnext hv y hy
    obtain ⟨hlen, hlen', -⟩ := Machine.transition_eq_ok hnext
    obtain ⟨x, rfl⟩ := List.length_eq_one_iff.1 (hlen.trans hwidth)
    obtain ⟨k, k', rfl⟩ := List.length_eq_two.1 (hlen'.trans hstatics)
    rw [htransitions] at hnext
    obtain rfl := Except.ok.inj hnext
    rw [hevaluates] at hv
    obtain rfl := Except.ok.inj hv
    rw [List.mem_singleton.1 hy, sub_self]
  obtain ⟨hTlength, hTcolumns, -⟩ := trace_steps hb.traceLength_pos hT
  rw [hb.machine_eq, hwidth] at hTlength
  obtain ⟨column, rfl⟩ := List.length_eq_one_iff.1 hTlength
  have hcolumn : column.length = 8 := hlength ▸ hTcolumns column (List.mem_singleton_self _)
  have hpolys : p.interpolate [column] = .ok [Transform.interpolate column] := by
    refine if_pos ⟨?_, ?_⟩
    · exact hTcolumns column (List.mem_singleton_self _)
    · rw [hb.machine_eq, hwidth]
      rfl
  have hpolynomials : p.checkPolynomials [Transform.interpolate column] = .ok () := by
    refine if_pos ⟨?_, ?_⟩
    · rw [hb.machine_eq, hwidth]
      rfl
    · rw [hlength, List.all_cons, Transform.length_interpolate (by decide) (k := 3) hcolumn]
      rfl
  obtain ⟨q, hq⟩ := exists_constraints hpolynomials fun row next statics hr hn hk => by
    obtain ⟨x, rfl⟩ := List.length_eq_one_iff.1 hr
    obtain ⟨y, rfl⟩ := List.length_eq_one_iff.1 hn
    obtain ⟨k, k', rfl⟩ := List.length_eq_two.1 (hk.trans (hb.length_statics.trans hstatics))
    rw [hb.machine_eq]
    exact ⟨_, hevaluates x y k k'⟩
  have hq' : (p.interpolate [column] >>= p.constraints) = .ok q := by
    rw [hpolys]
    exact hq
  obtain ⟨hall, hvanish⟩ := constraints_on_trace hm hp
  obtain ⟨v, hv, hlast⟩ := hall [column] q hTcolumns hq' 7 (by rw [hlength]; decide)
  rw [hlength] at hv
  rw [hfactor] at hlast
  refine ⟨s, m, p, [column], q, v, hs, hm, hp, hT, hq', hfactor, hv, hlast, fun i hi c hc => ?_⟩
  rw [← hfactor]
  exact hvanish hzero [column] q hT hq' i (by rw [hlength]; omega) c hc

end Prover

end Arithmetization
