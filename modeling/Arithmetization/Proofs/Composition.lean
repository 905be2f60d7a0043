import Arithmetization.Proofs.Agreement
import Arithmetization.Proofs.ProcedurePolynomials

/-!
The composition domain determines the constraints.

Along the trace every place that the evaluation procedure reads is a polynomial in one variable,
of a degree below the trace length (`Place.along`), so a constraint of degree `d` becomes one of
degree at most `d * (N - 1)`. The composition factor is no less than `d`, and the composition
domain therefore has more points than this polynomial has degree: its values there determine it,
and the verifier's constraints at any point of the field are the values of the polynomials that
interpolate the prover's constraint columns (`Prover.constraints_determine`).
-/

set_option autoImplicit false

namespace Arithmetization

open Polynomial

/-! ## The composition factor -/

theorem Degree.le_compositionFactor (d : Nat) : d ≤ Degree.compositionFactor d := by
  unfold Degree.compositionFactor
  split
  case isTrue h => exact h
  case isFalse h =>
    have hlt : d - 1 < 2 ^ ((d - 1).log2 + 1) := Nat.lt_log2_self
    rw [Nat.one_shiftLeft]
    omega

/-- The composition factor is a power of two that the degree of no constraint exceeds. -/
theorem Machine.compositionFactor_spec {s : Schema} {mo : MachineOptions} {m : Machine}
    (hm : ofSchema s mo = .ok m) :
    m.constraintCount = s.constraints.length ∧ (∃ e, m.compositionFactor = 2 ^ e)
      ∧ ∀ d ∈ s.constraints, d ≤ m.compositionFactor := by
  obtain ⟨-, rules, ext, -, -, rfl⟩ := ofSchema_eq_ok hm
  refine ⟨rfl, ?_, fun d hd => (Degree.le_maxOf hd).trans (Degree.le_compositionFactor _)⟩
  change ∃ e, Degree.compositionFactor s.maxDegree = 2 ^ e
  unfold Degree.compositionFactor
  split
  case isTrue => exact ⟨0, rfl⟩
  case isFalse => exact ⟨_, Nat.one_shiftLeft _⟩

/-! ## Places along the trace -/

namespace Place

/-- A place as a polynomial: columns have their polynomials, which the next row has at the point one
step further. -/
noncomputable def along (g : Element) (polys : List (List Element)) (statics : List Element[X]) :
    Place → Element[X]
  | .trace 0 column => Transform.toPoly (polys.getD column [])
  | .trace 1 column => (Transform.toPoly (polys.getD column [])).comp (X * C g)
  | .trace _ _ => 0
  | .static index => statics.getD index 0

theorem getD_map_eval (polys : List (List Element)) (column : Nat) (x : Element) :
    (polys.map (Transform.eval · x)).getD column 0 = Transform.eval (polys.getD column []) x := by
  rw [List.getD_eq_getElem?_getD, List.getD_eq_getElem?_getD, List.getElem?_map]
  cases polys[column]? with
  | none => rfl
  | some p => rfl

/-- At a point the polynomials have the values of the places there. -/
theorem eval_along (g : Element) (polys : List (List Element)) (statics : List Element[X])
    (x : Element) (place : Place) :
    (along g polys statics place).eval x =
      assign [polys.map (Transform.eval · x), polys.map (Transform.eval · (x * g))]
        (statics.map (Polynomial.eval x)) place := by
  match place with
  | .trace 0 column =>
    rw [along, Transform.eval_toPoly]
    exact (getD_map_eval polys column x).symm
  | .trace 1 column =>
    rw [along, eval_comp, eval_mul, eval_X, eval_C, Transform.eval_toPoly]
    exact (getD_map_eval polys column (x * g)).symm
  | .trace (row + 2) column =>
    rw [along, eval_zero]
    · rfl
    · omega
    · omega
  | .static index =>
    rw [along, assign, List.getD_eq_getElem?_getD, List.getD_eq_getElem?_getD, List.getElem?_map]
    cases statics[index]? with
    | none => exact eval_zero
    | some P => rfl

theorem natDegree_along_le {g : Element} {polys : List (List Element)} {statics : List Element[X]}
    {n : Nat} (hpolys : ∀ p ∈ polys, p.length = n + 1) (hstatics : ∀ P ∈ statics, P.natDegree ≤ n)
    (place : Place) : (along g polys statics place).natDegree ≤ n := by
  have hcolumn (column : Nat) : (Transform.toPoly (polys.getD column [])).natDegree ≤ n := by
    refine (Transform.natDegree_toPoly_le _).trans ?_
    rw [List.getD_eq_getElem?_getD]
    cases hc : polys[column]? with
    | none => exact Nat.zero_le _
    | some p =>
      rw [Option.getD_some, hpolys p (List.mem_of_getElem? hc)]
      exact le_refl n
  match place with
  | .trace 0 column => exact hcolumn column
  | .trace 1 column =>
    have hlinear : (X * C g : Element[X]).natDegree ≤ 1 :=
      natDegree_mul_C_le X g |>.trans natDegree_X_le
    calc ((Transform.toPoly (polys.getD column [])).comp (X * C g)).natDegree
        ≤ (Transform.toPoly (polys.getD column [])).natDegree * (X * C g : Element[X]).natDegree :=
          natDegree_comp_le
      _ ≤ n * 1 := Nat.mul_le_mul (hcolumn column) hlinear
      _ = n := Nat.mul_one n
  | .trace (row + 2) column =>
    rw [along]
    · exact natDegree_zero.le.trans (Nat.zero_le n)
    · omega
    · omega
  | .static index =>
    rw [along, List.getD_eq_getElem?_getD]
    cases hi : statics[index]? with
    | none => exact natDegree_zero.le.trans (Nat.zero_le n)
    | some P => exact hstatics P (List.mem_of_getElem? hi)

/-- A constraint along the trace, as a polynomial in one variable. -/
noncomputable def compose (f : Place → Element[X]) (p : BoundedPolynomial Place) : Element[X] :=
  MvPolynomial.aeval f p.poly

theorem eval_compose (f : Place → Element[X]) (p : BoundedPolynomial Place) (x : Element) :
    (compose f p).eval x = p.eval fun place => (f place).eval x := by
  have hmap := MvPolynomial.map_aeval (R := Element) f (Polynomial.evalRingHom x) p.poly
  rw [coe_evalRingHom] at hmap
  rw [compose, hmap, BoundedPolynomial.eval, MvPolynomial.eval, MvPolynomial.coe_eval₂Hom,
    MvPolynomial.coe_eval₂Hom]
  refine congrArg (fun φ => MvPolynomial.eval₂ φ _ p.poly) (RingHom.ext fun a => ?_)
  simp

end Place

/-! ## Evaluations -/

namespace Machine

/-- Where the evaluation procedure divides by constants only, all evaluations of inputs of the right
lengths have the values of one list of polynomials, of the recorded degrees, or one fault. -/
theorem evaluate_polynomials {text : List Char} {o : CompileOptions} {s : Schema}
    (hs : compile text o = .ok s) {mo : MachineOptions} {m : Machine} (hm : ofSchema s mo = .ok m)
    (hdiv : Degree.Context.DividesByConstants ⟨s.constants, s.functions, o.inverseCost⟩
      s.evaluation.body) :
    (∃ ps : List (BoundedPolynomial Place), ps.map BoundedPolynomial.degree = s.constraints
      ∧ ∀ row next statics : List Element, row.length = m.traceWidth → next.length = m.traceWidth →
        statics.length = m.statics.length → m.evaluate row next statics =
          .ok (ps.map (BoundedPolynomial.eval (Place.assign [row, next] statics))))
    ∨ ∃ fault, ∀ row next statics : List Element, row.length = m.traceWidth →
        next.length = m.traceWidth → statics.length = m.statics.length →
        m.evaluate row next statics = .error fault := by
  have hshaped := compile_wellShaped hs
  obtain ⟨tokens, draft, -, -, hbuild⟩ := compile_eq_ok hs
  obtain ⟨t, e, td, ed, -, -, hschema, -, hed, -⟩ := Draft.build_eq_ok hbuild
  obtain ⟨hfield, rules, ext, hrules, -, rfl⟩ := ofSchema_eq_ok hm
  have hlen := length_statics hshaped hfield hrules
  have hdegrees : s.constraints = ed.elements := by rw [hschema]
  have hrun := run_polynomials hshaped hshaped.count_pos hshaped.evaluation_checks hdiv
    (Degree.Context.procedure_eq_ok.1 hed).1 mo rules ext
  rw [← hdegrees] at hrun
  have hrows {row next : List Element} (hrow : row.length = s.traceWidth)
      (hnext : next.length = s.traceWidth) : ∀ r ∈ [row, next], r.length = s.traceWidth :=
    List.forall_mem_cons.2 ⟨hrow, List.forall_mem_singleton.2 hnext⟩
  rcases hrun with ⟨ps, hps, hok⟩ | ⟨fault, herror⟩
  · refine .inl ⟨ps, hps, fun row next statics hrow hnext hstatics => ?_⟩
    rw [evaluate_eq hrow hnext hstatics]
    have hvalues := hok [row, next] statics rfl (hrows hrow hnext) (Eq.trans hstatics hlen)
    change ((assemble s mo rules ext).run _ _ s.evaluation.body.block >>= _) = _
    rw [hvalues]
    have hcount : (ps.map (BoundedPolynomial.eval (Place.assign [row, next] statics))).length =
        s.constraints.length := by
      rw [← hps, List.length_map, List.length_map]
    change (checkWidth _ _ s.constraints.length >>= _) = _
    rw [checkWidth_eq_ok.2 hcount]
    rfl
  · refine .inr ⟨fault, fun row next statics hrow hnext hstatics => ?_⟩
    rw [evaluate_eq hrow hnext hstatics]
    have hfault := herror [row, next] statics rfl (hrows hrow hnext) (Eq.trans hstatics hlen)
    change ((assemble s mo rules ext).run _ _ s.evaluation.body.block >>= _) = _
    rw [hfault]
    rfl

end Machine

/-! ## Constraints over the composition domain -/

/-- A row of extended columns holds the values of their polynomials at one point. -/
theorem Columns.row_extend {k : Nat} (hk : k ≤ Element.twoAdicity) {columns : Columns}
    (h : ∀ c ∈ columns, c.length ≤ 2 ^ k) {j : Nat} (hj : j < 2 ^ k) :
    Columns.row (columns.map (Transform.extend (2 ^ k))) j =
      columns.map (Transform.eval · (Element.rootOfUnity k ^ j)) := by
  rw [row, List.map_map]
  refine List.map_congr_left fun c hc => ?_
  rw [Function.comp_apply, Transform.extend_eq hk (h c hc), List.getD_eq_getElem?_getD,
    List.getElem?_map, List.getElem?_range hj]
  rfl

namespace Place

/-- A constraint along the trace is what its values over the composition domain interpolate: the
domain is the trace length times a bound on the degree of the constraint. -/
theorem compose_eq_interpolant {a e : Nat} (hk : a + e ≤ Element.twoAdicity)
    {f : Place → Element[X]} (hf : ∀ place, (f place).natDegree ≤ 2 ^ a - 1)
    {p : BoundedPolynomial Place} (hp : p.degree ≤ 2 ^ e) (hcap : p.degree < Degree.cap)
    {column : List Element}
    (hcolumn : ∀ j < 2 ^ (a + e), column.getD j 0 =
      p.eval fun place => (f place).eval (Element.rootOfUnity (a + e) ^ j)) :
    compose f p = (Domain.ofOrder (a + e)).interpolant column := by
  have hdegree : (compose f p).natDegree ≤ p.degree * (2 ^ a - 1) :=
    MvPolynomial.aeval_natDegree_le p.poly (p.totalDegree_le hcap) f hf
  have hlt : p.degree * (2 ^ a - 1) < 2 ^ (a + e) := by
    have hpos : 0 < 2 ^ a := by positivity
    calc p.degree * (2 ^ a - 1) ≤ 2 ^ e * (2 ^ a - 1) := Nat.mul_le_mul_right _ hp
      _ < 2 ^ e * 2 ^ a := Nat.mul_lt_mul_of_pos_left (by omega) (by positivity)
      _ = 2 ^ (a + e) := by rw [mul_comm, ← pow_add]
  refine Domain.eq_interpolant hk ?_ fun j hj => ?_
  · exact degree_le_natDegree.trans_lt (by exact_mod_cast hdegree.trans_lt hlt)
  · rw [eval_compose, hcolumn j hj]

end Place

namespace Prover

/-- What constraints that were evaluated are made of: a row for every point of the domain. -/
theorem constraints_eq_ok {p : Prover} {polys q : Columns} (h : p.constraints polys = .ok q) :
    polys.length = p.machine.traceWidth ∧ (∀ c ∈ polys, c.length = p.traceLength)
      ∧ ∃ rows, List.Forall₂ (fun j row => p.machine.evaluate
          (Columns.row (polys.map (Transform.extend p.composition.size)) j)
          (Columns.row (polys.map (Transform.extend p.composition.size))
            ((j + p.machine.compositionFactor) % p.composition.size))
          (Columns.row ((p.statics.map Transform.interpolate).map
            (Transform.extend p.composition.size)) j) = .ok row)
          (List.range p.composition.size) rows
        ∧ q = Columns.ofRows p.machine.constraintCount rows := by
  obtain ⟨_, hcheck, h⟩ := bind_eq_ok.1 h
  obtain ⟨rows, hrows, h⟩ := bind_eq_ok.1 h
  obtain rfl := Except.ok.inj h
  unfold checkPolynomials at hcheck
  split at hcheck
  case isFalse => cases hcheck
  case isTrue hpolys =>
    rw [List.all_eq_true] at hpolys
    refine ⟨hpolys.1, fun c hc => beq_iff_eq.1 (hpolys.2 c hc), rows, ?_, rfl⟩
    rw [List.map_map]
    exact mapM_eq_ok.1 hrows

/-- The places that an evaluation reads, as polynomials along a trace with given polynomials. -/
noncomputable def places (p : Prover) (polys : Columns) : Place → Element[X] :=
  Place.along p.execution.generator polys (p.statics.map p.execution.interpolant)

theorem eval_places (p : Prover) (polys : Columns) (x : Element) :
    (fun place => (p.places polys place).eval x) =
      Place.assign [polys.map (Transform.eval · x),
        polys.map (Transform.eval · (x * p.execution.generator))] (p.interpolatedStatics x) := by
  funext place
  rw [places, Place.eval_along, List.map_map]
  rfl

namespace Built

variable {m : Machine} {trees : List InputTree} {p : Prover}
  {inputs : List (List Nat × List Element)} {layout : Layout}

/-- Rows over the composition domain: the values of the trace polynomials at a point and one step
further along the trace, and those of the static registers. -/
theorem constraint_rows (h : Built m trees p inputs layout) {e : Nat}
    (hfactor : m.compositionFactor = 2 ^ e) :
    ∃ a, a + e ≤ Element.twoAdicity ∧ layout.traceLength = 2 ^ a
      ∧ p.execution = Domain.ofOrder a ∧ p.composition = Domain.ofOrder (a + e)
      ∧ ∀ {polys q : Columns}, p.constraints polys = .ok q →
        polys.length = m.traceWidth ∧ (∀ c ∈ polys, c.length = 2 ^ a)
        ∧ ∃ rows, q = Columns.ofRows m.constraintCount rows ∧ rows.length = 2 ^ (a + e)
          ∧ ∀ (j : Nat) (row : List Element), rows[j]? = some row →
            ∀ x, x = Element.rootOfUnity (a + e) ^ j →
            m.evaluate (polys.map (Transform.eval · x))
              (polys.map (Transform.eval · (x * p.execution.generator)))
              (p.interpolatedStatics x) = .ok row := by
  obtain ⟨a, ha, hlength, hexecution⟩ := h.exists_order
  obtain ⟨b, hb, hsize, hcomposition⟩ := Domain.ofSize_eq_ok h.composition_eq
  obtain rfl : b = a + e := by
    rw [hlength, hfactor, ← pow_add] at hsize
    exact (Nat.pow_right_injective (le_refl 2) hsize).symm
  refine ⟨a, hb, hlength, hexecution, hcomposition, fun {polys q} hq => ?_⟩
  obtain ⟨hwidth, hpolys, rows, hrows, rfl⟩ := constraints_eq_ok hq
  rw [h.machine_eq] at hwidth hrows ⊢
  have htrace : p.traceLength = 2 ^ a := by rw [traceLength, hexecution]; rfl
  have hcomp : p.composition.size = 2 ^ (a + e) := by rw [hcomposition]; rfl
  have hle : 2 ^ a ≤ 2 ^ (a + e) := Nat.pow_le_pow_right (by decide) (Nat.le_add_right a e)
  have hpolys' : ∀ c ∈ polys, c.length = 2 ^ a := fun c hc => (hpolys c hc).trans htrace
  rw [hcomp] at hrows
  have hlen : rows.length = 2 ^ (a + e) := by
    rw [← hrows.length_eq, List.length_range]
  refine ⟨hwidth, hpolys', rows, rfl, hlen, fun j row hrow x hx => ?_⟩
  obtain ⟨hj, rfl⟩ := List.getElem?_eq_some_iff.1 hrow
  have hj' : j < 2 ^ (a + e) := hlen ▸ hj
  have hstep := (List.forall₂_iff_get.1 hrows).2 j (by rwa [List.length_range]) hj
  rw [List.get_eq_getElem, List.get_eq_getElem, List.getElem_range] at hstep
  have hlong : ∀ c ∈ polys, c.length ≤ 2 ^ (a + e) := fun c hc => (hpolys' c hc).trans_le hle
  have hstatics : ∀ c ∈ p.statics.map Transform.interpolate, c.length ≤ 2 ^ (a + e) := by
    intro c hc
    obtain ⟨c', hc', rfl⟩ := List.mem_map.1 hc
    rw [Transform.length_interpolate ha ((h.length_column c' hc').trans hlength)]
    exact hle
  -- Stepping through the composition domain by the factor is a step along the trace.
  have hnext : Element.rootOfUnity (a + e) ^ ((j + m.compositionFactor) % 2 ^ (a + e)) =
      x * p.execution.generator := by
    rw [(Element.rootOfUnity_isPrimitiveRoot hb).eq_orderOf, pow_mod_orderOf, pow_add, hfactor,
      Element.rootOfUnity_pow hb, hexecution, hx]
    rfl
  rw [Columns.row_extend hb hlong hj', Columns.row_extend hb hlong (Nat.mod_lt _ (by positivity)),
    Columns.row_extend hb hstatics hj', hnext, ← hx, List.map_map] at hstep
  rw [h.interpolatedStatics_eq]
  exact hstep

/-- The trace has at least eight rows, which leaves the composition factor far below the cap of
degrees. -/
theorem factor_lt_cap (h : Built m trees p inputs layout) {a e : Nat}
    (hlength : layout.traceLength = 2 ^ a) (hk : a + e ≤ Element.twoAdicity) :
    2 ^ e < Degree.cap := by
  have hmin : 2 ^ 3 ≤ layout.traceLength := (Layout.ofShapes_eq_ok h.layout_eq).2.1
  rw [hlength] at hmin
  have ha : 3 ≤ a := (Nat.pow_le_pow_iff_right (by decide)).1 hmin
  have hk' : a + e ≤ 32 := hk
  have he : 2 ^ e ≤ 2 ^ 29 := Nat.pow_le_pow_right (by decide) (by omega)
  exact he.trans_lt (by decide)

theorem natDegree_places_le (h : Built m trees p inputs layout) {a : Nat}
    (hlength : layout.traceLength = 2 ^ a) {polys : Columns}
    (hpolys : ∀ c ∈ polys, c.length = 2 ^ a) (place : Place) :
    (p.places polys place).natDegree ≤ 2 ^ a - 1 := by
  obtain ⟨k, hk, hsize, hexecution⟩ := h.exists_order
  have hpos : 0 < 2 ^ a := by positivity
  refine Place.natDegree_along_le (fun c hc => ?_) (fun P hP => ?_) place
  · rw [hpolys c hc]
    omega
  · obtain ⟨c, hc, rfl⟩ := List.mem_map.1 hP
    have hc' : c.length = 2 ^ k := (h.length_column c hc).trans hsize
    rw [hexecution, ← Domain.toPoly_interpolate hk hc', ← hlength, hsize,
      ← Transform.length_interpolate hk hc']
    exact Transform.natDegree_toPoly_le _

end Built

/-- Constraints can be evaluated where the machine has no fault at any point of the domain. -/
theorem exists_constraints_of_points {p : Prover} {polys : Columns}
    (hcheck : p.checkPolynomials polys = .ok ())
    (h : ∀ j < p.composition.size, ∃ v, p.machine.evaluate
      (Columns.row (polys.map (Transform.extend p.composition.size)) j)
      (Columns.row (polys.map (Transform.extend p.composition.size))
        ((j + p.machine.compositionFactor) % p.composition.size))
      (Columns.row (p.statics.map fun c => Transform.extend p.composition.size
        (Transform.interpolate c)) j) = .ok v) :
    ∃ q, p.constraints polys = .ok q := by
  obtain ⟨rows, hrows⟩ := exists_mapM_ok fun j hj => h j (List.mem_range.1 hj)
  exact ⟨_, bind_eq_ok.2 ⟨(), hcheck, bind_eq_ok.2 ⟨rows, hrows, rfl⟩⟩⟩

/-- So they can where it has none at all. -/
theorem exists_constraints {p : Prover} {polys : Columns}
    (hcheck : p.checkPolynomials polys = .ok ())
    (h : ∀ row next statics : List Element, row.length = polys.length → next.length = polys.length →
      statics.length = p.statics.length → ∃ v, p.machine.evaluate row next statics = .ok v) :
    ∃ q, p.constraints polys = .ok q := by
  refine exists_constraints_of_points hcheck fun j _ => h _ _ _ ?_ ?_ ?_ <;> simp [Columns.row]

/-- **The composition domain determines the constraints.** If the evaluation procedure divides by
constants only and a prover has evaluated the constraints of some trace polynomials over the
composition domain, then a verifier with the same public inputs gets, at every point of the field,
from the values of the trace polynomials there and one step further and from those of the secret
registers, the values of the polynomials that interpolate the prover's constraint columns. -/
theorem constraints_determine {text : List Char} {o : CompileOptions} {s : Schema}
    (hs : compile text o = .ok s) {mo : MachineOptions} {m : Machine}
    (hm : Machine.ofSchema s mo = .ok m)
    (hdiv : Degree.Context.DividesByConstants ⟨s.constants, s.functions, o.inverseCost⟩
      s.evaluation.body)
    {trees : List InputTree} {p : Prover} (hp : ofInputs m trees = .ok p) {polys q : Columns}
    (hq : p.constraints polys = .ok q) :
    ∃ inputs v, inputValues (m.inputs.zip trees) = .ok inputs
      ∧ Verifier.ofInputs m (inputs.map Prod.fst) (m.publicTrees trees) = .ok v
      ∧ ∀ x, v.constraintsAt x (polys.map (Transform.eval · x))
          (polys.map (Transform.eval · (x * p.execution.generator))) (p.interpolatedSecrets x) =
        .ok (q.map fun column => (p.composition.interpolant column).eval x) := by
  obtain ⟨inputs, layout, hb⟩ := ofInputs_eq_ok hp
  obtain ⟨hformed, hsecrets⟩ := Machine.statics_formed hs hm
  obtain ⟨hcount, ⟨e, hfactor⟩, hdegrees⟩ := Machine.compositionFactor_spec hm
  obtain ⟨v, hv, hmachine, -, hstatics⟩ := hb.exists_verifier hformed hsecrets
  obtain ⟨a, hk, hlength, hexecution, hcomposition, hconstraints⟩ := hb.constraint_rows hfactor
  obtain ⟨hwidth, hpolys, rows, rfl, hrows, hrow⟩ := hconstraints hq
  have hpoint (x : Element) : (polys.map (Transform.eval · x)).length = m.traceWidth := by
    rw [List.length_map, hwidth]
  have hwidths (x : Element) : (p.interpolatedStatics x).length = m.statics.length := by
    rw [interpolatedStatics, List.length_map, hb.length_statics]
  have hget {j : Nat} (hj : j < 2 ^ (a + e)) : ∃ row, rows[j]? = some row :=
    ⟨_, List.getElem?_eq_getElem (hrows ▸ hj)⟩
  refine ⟨inputs, v, hb.inputs_eq, hv, fun x => ?_⟩
  rw [Verifier.constraintsAt, hstatics x, hmachine]
  change m.evaluate _ _ _ = _
  rcases Machine.evaluate_polynomials hs hm hdiv with ⟨ps, hps, heval⟩ | ⟨fault, herror⟩
  · rw [heval _ _ _ (hpoint x) (hpoint _) (hwidths x), hcomposition]
    refine congrArg Except.ok (List.ext_getElem ?_ fun i hi hi' => ?_)
    · rw [List.length_map, List.length_map, Columns.ofRows, List.length_map, List.length_range,
        hcount, ← hps, List.length_map]
    rw [List.length_map] at hi
    have hdegree : ps[i].degree ≤ 2 ^ e := by
      rw [← hfactor]
      exact hdegrees _ (hps ▸ List.mem_map_of_mem (List.getElem_mem hi))
    have hcap : ps[i].degree < Degree.cap := hdegree.trans_lt (hb.factor_lt_cap hlength hk)
    have hcolumn : ∀ j < 2 ^ (a + e), (rows.map (·.getD i 0)).getD j 0 =
        ps[i].eval fun place => (p.places polys place).eval (Element.rootOfUnity (a + e) ^ j) := by
      intro j hj
      obtain ⟨row, hj'⟩ := hget hj
      have hvalue := hrow j row hj' _ rfl
      rw [heval _ _ _ (hpoint _) (hpoint _) (hwidths _), ← p.eval_places polys] at hvalue
      rw [List.getD_eq_getElem?_getD, List.getElem?_map, hj', ← Except.ok.inj hvalue]
      rw [Option.map_some, Option.getD_some, List.getD_eq_getElem?_getD, List.getElem?_map,
        List.getElem?_eq_getElem hi]
      rfl
    have hcompose := Place.compose_eq_interpolant hk (hb.natDegree_places_le hlength hpolys) hdegree
      hcap hcolumn
    have hright : ((Columns.ofRows m.constraintCount rows).map fun column =>
        ((Domain.ofOrder (a + e)).interpolant column).eval x)[i] =
          (Place.compose (p.places polys) ps[i]).eval x := by
      rw [hcompose]
      simp only [Columns.ofRows, List.getElem_map, List.getElem_range]
    rw [List.getElem_map, hright, Place.eval_compose, eval_places]
  · -- The prover evaluated the row at the first point without a fault.
    obtain ⟨row, hfirst⟩ := hget (j := 0) (by positivity)
    have hok := hrow 0 row hfirst _ rfl
    rw [herror _ _ _ (hpoint _) (hpoint _) (hwidths _)] at hok
    cases hok

/-- A module with secret and public inputs, a cycle, and masks of a secret and a public register. -/
def maskedText : List Char :=
  "(module (field prime 340282366920938463463374607393113505793) (const scalar 3)
    (static (input secret vector (steps 4)) (input public vector (steps 4)) (cycle 1 2)
      (mask 0 5) (mask 2 1))
    (transition (span 1) (result vector 1)
      (vector (mul (get (load.trace 0) 0) (get (load.static 0) 0))))
    (evaluation (span 2) (result vector 1)
      (vector (sub (get (load.trace 1) 0)
        (mul (div (get (load.trace 0) 0) (load.const 0))
          (add (mul (get (load.static 0) 0) (get (load.static 0) 3))
            (mul (get (load.static 0) 1) (get (load.static 0) 4))))))))".toList

/-- Its inputs: two values for each of the two input registers. -/
def maskedTrees : List InputTree :=
  [.list [.value 1, .value 5], .list [.value 3, .value 4]]

/-- A trace polynomial that is not constant. -/
def maskedPolys : Columns :=
  [[0, 1, 0, 0, 0, 0, 0, 0]]

/-- Its constraint, of degree three, is determined by the 32 points of the composition domain. -/
theorem constraints_determine_masked :
    ∃ s m p q v, compile maskedText { sharing := { enabled := false } } = .ok s
      ∧ Machine.ofSchema s {} = .ok m ∧ ofInputs m maskedTrees = .ok p
      ∧ p.constraints maskedPolys = .ok q
      ∧ Verifier.ofInputs m [[2], [2]] [.list [.value 3, .value 4]] = .ok v
      ∧ ∀ x, v.constraintsAt x (maskedPolys.map (Transform.eval · x))
          (maskedPolys.map (Transform.eval · (x * p.execution.generator)))
          (p.interpolatedSecrets x) =
        .ok (q.map fun column => (p.composition.interpolant column).eval x) := by
  have hcheck : ((compile maskedText { sharing := { enabled := false } }).toOption.any fun s =>
      (((Degree.Context.exact ⟨s.constants, s.functions, 16⟩
            (Degree.Context.exactCallees ⟨s.constants, s.functions, 16⟩ s.functions.length)
            []).block s.evaluation.body.block).toOption.any fun _ => true)
      && (Machine.ofSchema s {}).toOption.any fun m =>
        ((m.evaluate [0] [0] [0, 0, 0, 0, 0]).toOption.any fun _ => true)
        && m.traceWidth == 1 && m.statics.length == 5
        && ((inputValues (m.inputs.zip maskedTrees)).toOption.any fun inputs =>
          inputs.map Prod.fst == [[2], [2]])
        && m.inputs.map InputSlot.secret == [true, false]
        && (ofInputs m maskedTrees).toOption.any fun p =>
          p.traceLength == 8) = true := by
    unfold maskedText
    rewrite [String.toList_ofList]
    decide +kernel
  simp only [Option.any_eq_true, Bool.and_eq_true, beq_iff_eq, toOption_eq_some, and_true] at hcheck
  obtain ⟨s, hs, ⟨d, hd⟩, m, hm, ⟨⟨⟨⟨⟨r, hr⟩, hwidth⟩, hcount⟩, inputs, hinputs, hshapes⟩, hsecret⟩,
    p, hp, hlength⟩ := hcheck
  have hdiv : Degree.Context.DividesByConstants ⟨s.constants, s.functions, 16⟩ s.evaluation.body :=
    ⟨d, hd⟩
  obtain ⟨inputs', layout, hb⟩ := ofInputs_eq_ok hp
  have hpolys : p.checkPolynomials maskedPolys = .ok () := by
    refine if_pos ⟨?_, ?_⟩
    · rw [hb.machine_eq, hwidth]
      rfl
    · rw [hlength]
      rfl
  -- One evaluation that succeeds is enough: the procedure has the same fault everywhere, or none.
  have hevaluates : ∀ row next statics : List Element, row.length = maskedPolys.length →
      next.length = maskedPolys.length → statics.length = p.statics.length →
      ∃ v, p.machine.evaluate row next statics = .ok v := by
    intro row next statics hrow hnext hstatics
    rw [hb.machine_eq]
    rcases Machine.evaluate_polynomials hs hm hdiv with ⟨ps, -, hok⟩ | ⟨fault, herror⟩
    · exact ⟨_, hok row next statics (hrow.trans hwidth.symm) (hnext.trans hwidth.symm)
        (hstatics.trans hb.length_statics)⟩
    · rw [herror [0] [0] [0, 0, 0, 0, 0] hwidth.symm hwidth.symm hcount.symm] at hr
      cases hr
  obtain ⟨q, hq⟩ := exists_constraints hpolys hevaluates
  obtain ⟨inputs'', v, hinputs'', hv, hvalues⟩ := constraints_determine hs hm hdiv hp hq
  obtain rfl := Except.ok.inj (hinputs.symm.trans hinputs'')
  have hpublic : m.publicTrees maskedTrees = [.list [.value 3, .value 4]] := by
    obtain ⟨slot, slots, hslots, hslot, hrest⟩ := List.map_eq_cons_iff.1 hsecret
    obtain ⟨slot', slots', rfl, hslot', -⟩ := List.map_eq_cons_iff.1 hrest
    simp [Machine.publicTrees, maskedTrees, hslots, hslot, hslot']
  rw [hshapes, hpublic] at hv
  exact ⟨s, m, p, q, v, hs, hm, hp, hq, hv, hvalues⟩

end Prover

end Arithmetization
