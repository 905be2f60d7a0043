import Arithmetization.Proofs.ExactDegrees

/-!
Procedures as polynomials.

A procedure reads the places of one or two trace rows and the static registers. Where it divides by
constants only, each element of its result is a polynomial in these places: all runs over rows of
the right length succeed with its values, or all stop with one fault (`Machine.run_polynomials`).
The degree that a schema records for the element bounds the degree of the polynomial
(`Machine.degrees_bound`).
-/

set_option autoImplicit false

namespace Arithmetization

/-- What a procedure can read: a column of a trace row, or a static register. -/
inductive Place where
  | trace (row column : Nat)
  | static (index : Nat)
deriving DecidableEq

namespace Place

/-- The values of all places of some rows and static values. -/
def assign (rows : List (List Element)) (statics : List Element) : Place → Element
  | .trace row column => (rows.getD row []).getD column 0
  | .static index => statics.getD index 0

/-- The places of a trace row. -/
def row (width i : Nat) : List Place :=
  (List.range width).map (.trace i)

/-- The places of the static registers. -/
def statics (count : Nat) : List Place :=
  (List.range count).map .static

theorem map_range_getD (xs : List Element) : (List.range xs.length).map (xs.getD · 0) = xs := by
  refine List.ext_getElem (by simp) fun i h h' => ?_
  rw [List.getElem_map, List.getElem_range, List.getD_eq_getElem _ _ h']

/-- Rows of one length are read back from their places. -/
theorem map_row_assign {rows : List (List Element)} {width : Nat}
    (h : ∀ row ∈ rows, row.length = width) (statics : List Element) :
    ((List.range rows.length).map fun i => (row width i).map (assign rows statics)) = rows := by
  refine List.ext_getElem (by simp) fun i hi hi' => ?_
  rw [List.getElem_map, List.getElem_range, row, List.map_map, ← h rows[i] (List.getElem_mem hi')]
  have hget : ∀ c, (assign rows statics ∘ Place.trace i) c = rows[i].getD c 0 := by
    intro c
    rw [Function.comp_apply, assign, List.getD_eq_getElem _ _ hi']
  rw [List.map_congr_left fun c _ => hget c, map_range_getD]

theorem map_statics_assign (rows : List (List Element)) (values : List Element) :
    (statics values.length).map (assign rows values) = values := by
  rw [statics, List.map_map]
  exact map_range_getD values

end Place

namespace Degree.Context

/-- What the runs of a procedure load: its places. -/
theorem tracks_procedure {s : Schema} (hs : s.WellShaped) (cost span : Nat) :
    Tracks ⟨s.constants, s.functions.map Function.signature,
        .procedure span s.traceWidth s.registers.row?, .trap⟩
      ⟨s.constants, s.functions, cost⟩
      (exactCallees ⟨s.constants, s.functions, cost⟩ s.functions.length) []
      (Run.callees s.constants (s.functions.map (·.body.block)))
      (fun x => (List.range span).map fun i => (Place.row s.traceWidth i).map x)
      (fun x => (Place.statics s.registers.size).map x) (fun _ => []) where
  constants_eq := rfl
  proper := hs.proper
  trace {i u} h := by
    obtain ⟨hi, rfl⟩ := Env.load_trace h
    have hlen : (Place.row s.traceWidth i).length = s.traceWidth := by simp [Place.row]
    refine ⟨Place.row s.traceWidth i, ⟨by rw [hlen]; exact hs.width_pos, by rw [hlen]⟩,
      fun x => ?_⟩
    rw [List.getElem?_map, List.getElem?_range hi, Option.map_some]
  static {i u} h := by
    obtain ⟨hsize, rfl⟩ := Env.load_static h
    have hlen : (Place.statics s.registers.size).length = s.registers.size := by
      simp [Place.statics]
    exact ⟨_, ⟨by rw [hlen]; exact hsize, by rw [hlen]⟩, fun x => rfl⟩
  param h := by cases h
  call hc hc' := callees_run hs.proper hs.checked hc hc'

end Degree.Context

namespace Machine

open BoundedPolynomial (eval)

/-- **The result of a procedure is polynomial.** All runs over rows and static values of the right
lengths have the values of one list of polynomials, of the degrees inferred, or one fault. -/
theorem run_polynomials {s : Schema} (hs : s.WellShaped) {cost span n : Nat} (hn : 0 < n) {b : Body}
    (hb : b.block.Checks ⟨s.constants, s.functions.map Function.signature,
      .procedure span s.traceWidth s.registers.row?, .trap⟩ (.vector n)) {d : Degree}
    (hdiv : Degree.Context.DividesByConstants ⟨s.constants, s.functions, cost⟩ b)
    (hd : Degree.Context.body ⟨s.constants, s.functions, cost⟩ b [] = .ok d) (mo : MachineOptions)
    (rules : List StaticRule) (ext : Nat) :
    (∃ ps : List (BoundedPolynomial Place), ps.map BoundedPolynomial.degree = d.elements
      ∧ ∀ (rows : List (List Element)) (statics : List Element), rows.length = span →
        (∀ row ∈ rows, row.length = s.traceWidth) → statics.length = s.registers.size →
        (assemble s mo rules ext).run rows statics b.block
          = .ok (ps.map (eval (Place.assign rows statics))))
    ∨ ∃ fault, ∀ (rows : List (List Element)) (statics : List Element), rows.length = span →
        (∀ row ∈ rows, row.length = s.traceWidth) → statics.length = s.registers.size →
        (assemble s mo rules ext).run rows statics b.block = .error fault := by
  have hexact := hdiv.exact_eq_ok hs.checked hb.formed hd
  have hruns := (Degree.Context.tracks_procedure hs cost span).block hb hexact
  have hheld := @Degree.Context.body_fits ⟨s.constants, s.functions, cost⟩ hs.proper hs.checked
    _ _ _ _ _ hb
  obtain ⟨ds, rfl, -⟩ := (hheld.fits hd).of_vector hn
  -- a run over given rows is the run over the values of their places
  have hrun : ∀ (rows : List (List Element)) (statics : List Element), rows.length = span →
      (∀ row ∈ rows, row.length = s.traceWidth) → statics.length = s.registers.size →
      (assemble s mo rules ext).run rows statics b.block
        = (Run.block s.constants (Run.callees s.constants (s.functions.map (·.body.block)))
            ((List.range span).map fun i =>
              (Place.row s.traceWidth i).map (Place.assign rows statics))
            ((Place.statics s.registers.size).map (Place.assign rows statics)) [] b.block
          >>= Value.asVector) := by
    intro rows statics hspan hrows hstatics
    rw [← hspan, Place.map_row_assign hrows, ← hstatics, Place.map_statics_assign]
    rfl
  rcases hruns with ⟨v, ⟨t, ht, hv⟩, hok⟩ | ⟨fault, -, herror⟩
  · dsimp only at hok
    cases t with
    | scalar p => cases ht
    | matrix rows => cases ht
    | vector ps =>
      refine .inl ⟨ps, Tensor.vector.inj ht, fun rows statics hspan hrows hstatics => ?_⟩
      rw [hrun rows statics hspan hrows hstatics, hok, hv]
      rfl
  · dsimp only at herror
    refine .inr ⟨fault, fun rows statics hspan hrows hstatics => ?_⟩
    rw [hrun rows statics hspan hrows hstatics, herror]
    rfl

/-- One polynomial for one place of the result. -/
theorem exists_polynomial {s : Schema} (hs : s.WellShaped) {cost span n : Nat} (hn : 0 < n)
    {b : Body} (hb : b.block.Checks ⟨s.constants, s.functions.map Function.signature,
      .procedure span s.traceWidth s.registers.row?, .trap⟩ (.vector n)) {d : Degree}
    (hdiv : Degree.Context.DividesByConstants ⟨s.constants, s.functions, cost⟩ b)
    (hd : Degree.Context.body ⟨s.constants, s.functions, cost⟩ b [] = .ok d) (mo : MachineOptions)
    (rules : List StaticRule) (ext : Nat) {i k : Nat} (hk : d.elements[i]? = some k)
    (hcap : k < Degree.cap) :
    ∃ P : MvPolynomial Place Element, P.totalDegree ≤ k
      ∧ ∀ (rows : List (List Element)) (statics v : List Element), rows.length = span →
        (∀ row ∈ rows, row.length = s.traceWidth) → statics.length = s.registers.size →
        (assemble s mo rules ext).run rows statics b.block = .ok v →
        v[i]? = some (MvPolynomial.eval (Place.assign rows statics) P) := by
  rcases run_polynomials hs hn hb hdiv hd mo rules ext with ⟨ps, hps, hrun⟩ | ⟨fault, hrun⟩
  · rw [← hps, List.getElem?_map] at hk
    obtain ⟨p, hp, rfl⟩ := Option.map_eq_some_iff.1 hk
    refine ⟨p.poly, p.totalDegree_le hcap, fun rows statics v hspan hrows hstatics hv => ?_⟩
    rw [hrun rows statics hspan hrows hstatics] at hv
    obtain rfl := Except.ok.inj hv
    rw [List.getElem?_map, hp, Option.map_some, eval]
  · -- no run succeeds, so any polynomial will do
    refine ⟨0, by simp, fun rows statics v hspan hrows hstatics hv => ?_⟩
    rw [hrun rows statics hspan hrows hstatics] at hv
    cases hv

/-- What a transition that succeeds has run. -/
theorem transition_eq_ok {m : Machine} {row statics v : List Element}
    (h : m.transition row statics = .ok v) :
    row.length = m.traceWidth ∧ statics.length = m.statics.length
      ∧ m.run [row] statics m.transitionBlock = .ok v := by
  obtain ⟨_, hrow, h⟩ := bind_eq_ok.1 h
  obtain ⟨_, hstatics, h⟩ := bind_eq_ok.1 h
  obtain ⟨w, hw, h⟩ := bind_eq_ok.1 h
  obtain ⟨-, -, h⟩ := bind_eq_ok.1 h
  obtain rfl := Except.ok.inj h
  exact ⟨checkWidth_eq_ok.1 hrow, checkWidth_eq_ok.1 hstatics, hw⟩

/-- What an evaluation that succeeds has run. -/
theorem evaluate_eq_ok {m : Machine} {row next statics v : List Element}
    (h : m.evaluate row next statics = .ok v) :
    row.length = m.traceWidth ∧ next.length = m.traceWidth ∧ statics.length = m.statics.length
      ∧ m.run [row, next] statics m.evaluationBlock = .ok v := by
  obtain ⟨_, hrow, h⟩ := bind_eq_ok.1 h
  obtain ⟨_, hnext, h⟩ := bind_eq_ok.1 h
  obtain ⟨_, hstatics, h⟩ := bind_eq_ok.1 h
  obtain ⟨w, hw, h⟩ := bind_eq_ok.1 h
  obtain ⟨-, -, h⟩ := bind_eq_ok.1 h
  obtain rfl := Except.ok.inj h
  exact ⟨checkWidth_eq_ok.1 hrow, checkWidth_eq_ok.1 hnext, checkWidth_eq_ok.1 hstatics, hw⟩

/-- **Recorded degrees bound.** In a procedure that divides by constants only, an element of the
result whose recorded degree is below the cap is a polynomial of no greater total degree in the
trace rows and the static registers, on all inputs on which the procedure succeeds. -/
theorem degrees_bound {text : List Char} {o : CompileOptions} {s : Schema}
    (hs : compile text o = .ok s) {mo : MachineOptions} {m : Machine} (hm : ofSchema s mo = .ok m) :
    (Degree.Context.DividesByConstants ⟨s.constants, s.functions, o.inverseCost⟩ s.transition.body →
      ∀ i d : Nat, s.transitionDegree.elements[i]? = some d → d < Degree.cap →
        ∃ P : MvPolynomial Place Element, P.totalDegree ≤ d
          ∧ ∀ row statics v, m.transition row statics = .ok v →
            v[i]? = some (MvPolynomial.eval (Place.assign [row] statics) P))
    ∧ (Degree.Context.DividesByConstants ⟨s.constants, s.functions, o.inverseCost⟩
        s.evaluation.body →
      ∀ i d : Nat, s.constraints[i]? = some d → d < Degree.cap →
        ∃ P : MvPolynomial Place Element, P.totalDegree ≤ d
          ∧ ∀ row next statics v, m.evaluate row next statics = .ok v →
            v[i]? = some (MvPolynomial.eval (Place.assign [row, next] statics) P)) := by
  have hshaped := compile_wellShaped hs
  obtain ⟨tokens, draft, -, -, hbuild⟩ := compile_eq_ok hs
  obtain ⟨t, e, td, ed, -, -, hschema, htd, hed, -⟩ := Draft.build_eq_ok hbuild
  obtain ⟨hfield, rules, ext, hrules, -, rfl⟩ := ofSchema_eq_ok hm
  have hlen := length_statics hshaped hfield hrules
  refine ⟨fun hdiv i d hi hcap => ?_, fun hdiv i d hi hcap => ?_⟩
  · have hdegree : s.transitionDegree = td := by rw [hschema]
    rw [hdegree] at hi
    obtain ⟨P, hP, heval⟩ := exists_polynomial hshaped hshaped.width_pos hshaped.transition_checks
      hdiv (Degree.Context.procedure_eq_ok.1 htd).1 mo rules ext hi hcap
    refine ⟨P, hP, fun row statics v hv => ?_⟩
    obtain ⟨hrow, hstatics, hrun⟩ := transition_eq_ok hv
    exact heval [row] statics v rfl (List.forall_mem_singleton.2 hrow) (hstatics.trans hlen) hrun
  · have hdegree : s.constraints = ed.elements := by rw [hschema]
    rw [hdegree] at hi
    obtain ⟨P, hP, heval⟩ := exists_polynomial hshaped hshaped.count_pos hshaped.evaluation_checks
      hdiv (Degree.Context.procedure_eq_ok.1 hed).1 mo rules ext hi hcap
    refine ⟨P, hP, fun row next statics v hv => ?_⟩
    obtain ⟨hrow, hnext, hstatics, hrun⟩ := evaluate_eq_ok hv
    exact heval [row, next] statics v rfl
      (List.forall_mem_cons.2 ⟨hrow, List.forall_mem_singleton.2 hnext⟩) (hstatics.trans hlen) hrun

/-- A module whose constraint divides by a constant, inside a function. -/
def cubicText : List Char :=
  "(module (field prime 340282366920938463463374607393113505793) (const scalar 3)
    (function (result scalar) (param scalar) (param scalar)
      (div (mul (load.param 0) (load.param 0)) (load.param 1)))
    (static (cycle 1 2))
    (transition (span 1) (result vector 1)
      (vector (exp (get (load.trace 0) 0) (load.const 0))))
    (evaluation (span 2) (result vector 1)
      (local scalar) (store.local 0 (call 0 (get (load.trace 0) 0) (load.const 0)))
      (vector (sub (get (load.trace 1) 0) (mul (load.local 0) (get (load.static 0) 0))))))".toList

/-- Its constraint is a polynomial of degree three. -/
theorem degrees_bound_cubic :
    ∃ s m, compile cubicText { sharing := { enabled := false } } = .ok s ∧ ofSchema s {} = .ok m
      ∧ Degree.Context.DividesByConstants ⟨s.constants, s.functions, 16⟩ s.evaluation.body
      ∧ ∃ P : MvPolynomial Place Element, P.totalDegree ≤ 3
        ∧ ∀ row next statics v, m.evaluate row next statics = .ok v →
          v[0]? = some (MvPolynomial.eval (Place.assign [row, next] statics) P) := by
  have hcheck : ((compile cubicText { sharing := { enabled := false } }).toOption.any fun s =>
      ((ofSchema s {}).toOption.any fun _ => true) && s.constraints == [3]
        && ((Degree.Context.exact ⟨s.constants, s.functions, 16⟩
            (Degree.Context.exactCallees ⟨s.constants, s.functions, 16⟩ s.functions.length)
            []).block s.evaluation.body.block).toOption.any fun _ => true) = true := by
    unfold cubicText
    rewrite [String.toList_ofList]
    decide +kernel
  simp only [Option.any_eq_true, Bool.and_eq_true, beq_iff_eq, toOption_eq_some, and_true] at hcheck
  obtain ⟨s, hs, ⟨⟨m, hm⟩, hconstraints⟩, d, hd⟩ := hcheck
  have hdiv : Degree.Context.DividesByConstants ⟨s.constants, s.functions, 16⟩ s.evaluation.body :=
    ⟨d, hd⟩
  refine ⟨s, m, hs, hm, hdiv, ?_⟩
  exact (degrees_bound hs hm).2 hdiv 0 3 (by rw [hconstraints]; rfl) (by decide)

end Machine

end Arithmetization
