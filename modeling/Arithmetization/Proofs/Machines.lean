import Arithmetization.Compile
import Arithmetization.Proofs.DegreeShapes

/-!
Machines of schemas that compile.

A schema that compiles can be made ready to run unless it breaks a limit or an option is out of
range: everything that its expressions refer to exists, and every written number is an element of
the field. The machine then takes a row to the next row, and two rows to their constraints, or it
divides by zero; nothing else goes wrong (`Machine.safe`).
-/

set_option autoImplicit false

namespace Arithmetization

/-- Every statement of a block that has a result has one, over the locals of its time. -/
theorem Evaluator.exists_expr_of_block {ε α : Type} {ev : Evaluator ε α} {b : Block} {a : α}
    (h : ev.block b = .ok a) : ∀ e ∈ b.exprs, ∃ ρ v, ev.expr ρ e = .ok v := by
  obtain ⟨σ, hσ, ha⟩ := bind_eq_ok.1 h
  have hstores : ∀ {ss : List Assign} {ρ : List (Option α)}, ev.stores ρ ss = .ok σ →
      ∀ s ∈ ss, ∃ ρ v, ev.expr ρ s.value = .ok v := by
    intro ss
    induction ss with
    | nil => exact fun _ s hs => (by cases hs)
    | cons t ss ih =>
      intro ρ hss s hs
      obtain ⟨v, hv, hss⟩ := stores_cons_eq_ok.1 hss
      rcases List.mem_cons.1 hs with rfl | hs
      · exact ⟨ρ, v, hv⟩
      · exact ih hss s hs
  intro e he
  rcases List.mem_append.1 he with he | he
  · obtain ⟨s, hs, rfl⟩ := List.mem_map.1 he
    exact hstores hσ s hs
  · exact ⟨σ, a, List.mem_singleton.1 he ▸ ha⟩

/-! ## References -/

namespace Run

variable {Γ : Env}

/-- What a node that checks refers to exists. -/
theorem resolveNode_eq_ok (hproper : ∀ c ∈ Γ.constants, c.isProper = true) {op : Op}
    {args : List Expr} {shape : Shape} {shapes : List Shape}
    (hrule : Γ.rule op args shapes = some shape) :
    resolveNode Γ.constants Γ.signatures.length op args = .ok () := by
  cases op with
  | load source i =>
    cases source with
    | const =>
      obtain ⟨c, hc, -⟩ := Option.map_eq_some_iff.1 (Env.rule_load.1 hrule).2
      exact if_pos (List.getElem?_eq_some_iff.1 hc).1
    | _ => rfl
  | binary bop =>
    cases bop with
    | exp =>
      obtain ⟨s, t, -, hpower⟩ := Env.rule_binary.1 hrule
      obtain ⟨-, hnumber, -⟩ := Rule.power_eq_ok.1 hpower
      obtain ⟨n, hn⟩ := exponent_eq_ok hproper hnumber
      rw [resolveNode, hn]
      rfl
    | _ => rfl
  | call f =>
    obtain ⟨signature, hsignature, -, -⟩ := Env.rule_call.1 hrule
    exact if_pos (List.getElem?_eq_some_iff.1 hsignature).1
  | _ => rfl

/-- What an expression that checks refers to exists. -/
theorem resolve_eq_ok (hproper : ∀ c ∈ Γ.constants, c.isProper = true) {ρ : List (Option Shape)}
    {e : Expr} (he : e.Sized) {s : Shape} (h : Γ.checker.expr ρ e = .ok s) :
    resolve Γ.constants Γ.signatures.length e = .ok () := by
  induction e using Expr.induction generalizing s with
  | node op shape args ih =>
    obtain ⟨htakes, hargs⟩ := Expr.sized_node.1 he
    rw [resolve, Expr.fold_node, ← resolve]
    cases hop : op.local? with
    | some i =>
      obtain rfl := Op.local?_eq_some.1 hop
      obtain rfl := List.length_eq_zero_iff.1 htakes
      rfl
    | none =>
      rw [Evaluator.expr_node ρ hop] at h
      obtain ⟨-, shapes, hshapes, hrule⟩ := Env.checker_node_eq_ok.1 h
      refine bind_eq_ok.2 ⟨(), forM_eq_ok.2 fun r hr => ?_, resolveNode_eq_ok hproper hrule⟩
      obtain ⟨a, ha, rfl⟩ := List.mem_map.1 hr
      obtain ⟨t, -, ht⟩ := ok_of_mem_of_mapM hshapes (List.mem_map_of_mem ha)
      exact ih a ha (hargs a ha) ht

theorem resolveBlock_eq_ok (hproper : ∀ c ∈ Γ.constants, c.isProper = true) {b : Block} {s : Shape}
    (hb : b.Checks Γ s) : resolveBlock Γ.constants Γ.signatures.length b = .ok () := by
  refine forM_eq_ok.2 fun e he => ?_
  obtain ⟨ρ, v, hv⟩ := Evaluator.exists_expr_of_block hb.checks e he
  exact resolve_eq_ok hproper (hb.formed.sized e he) hv

theorem resolveFunctions_eq_ok {constants : List Literal}
    (hproper : ∀ c ∈ constants, c.isProper = true) {functions : List Function}
    (h : FunctionsCheck constants functions) :
    resolveFunctions constants (functions.map (·.body.block)) = .ok () := by
  refine forM_eq_ok.2 fun ⟨b, i⟩ hbi => ?_
  rw [List.mem_zipIdx_iff_getElem?, List.getElem?_map] at hbi
  obtain ⟨f, hf, rfl⟩ := Option.map_eq_some_iff.1 hbi
  have hresolve := resolveBlock_eq_ok
    (Γ := ⟨constants, (functions.take i).map Function.signature, .function f.params, .trap⟩) hproper
    (h i f hf)
  have hlen : ((functions.take i).map Function.signature).length = i := by
    have := (List.getElem?_eq_some_iff.1 hf).1
    rw [List.length_map, List.length_take, Nat.min_eq_left (Nat.le_of_lt this)]
  rwa [hlen] at hresolve

end Run

/-! ## Static registers -/

namespace RegisterSet

/-- Whether a register is secret, from the secrecy of those before it. -/
def flag (flags : List Bool) : Register → Bool
  | .input r => r.secret
  | .cycle _ => false
  | .mask source _ => flags.getD source false

theorem secrecy_eq (set : RegisterSet) : set.secrecy = grow flag set.registers := rfl

theorem length_secrecy (set : RegisterSet) : set.secrecy.length = set.size := by
  rw [secrecy_eq, length_grow, size]

end RegisterSet

namespace StaticRule

theorem ofSource_eq_ok {source : CycleSource} (h : source.Below Word.modulus) :
    ∃ c, CyclicColumn.ofSource source = .ok c := by
  have hvalues : ∃ vs, CyclicColumn.sourceValues source = .ok vs := by
    cases source with
    | values vs =>
      refine ⟨vs.map Element.ofNat, mapM_eq_ok.2 (List.forall₂_map_right_iff.2 ?_)⟩
      exact List.forall₂_same.2 fun v hv => if_pos (h v hv)
    | prng seed count => exact ⟨_, rfl⟩
    | power base count =>
      refine ⟨(Element.ofNat base).powers count, ?_⟩
      have hbase : CyclicColumn.fieldElement base = .ok (.ofNat base) := if_pos h
      rw [CyclicColumn.sourceValues, hbase]
      rfl
  obtain ⟨vs, hvs⟩ := hvalues
  exact ⟨_, by rw [CyclicColumn.ofSource, hvs]; rfl⟩

/-- Admissible registers have rules, one for each. -/
theorem ofRegistersFrom_eq_ok {rs : List (Register × Bool)} (inputs : Nat)
    (h : ∀ r ∈ rs, ∃ earlier, r.1.Admissible Word.modulus earlier) :
    ∃ rules, ofRegistersFrom inputs rs = .ok rules ∧ rules.length = rs.length := by
  induction rs generalizing inputs with
  | nil => exact ⟨[], rfl, rfl⟩
  | cons r rs ih =>
    rw [List.forall_mem_cons] at h
    obtain ⟨⟨earlier, hr⟩, hrs⟩ := h
    obtain ⟨r, secret⟩ := r
    cases r with
    | input reg =>
      obtain ⟨rules, hrules, hlen⟩ := ih (inputs + 1) hrs
      refine ⟨.input inputs secret :: rules, ?_, congrArg Nat.succ hlen⟩
      rw [ofRegistersFrom, hrules]
      rfl
    | cycle source =>
      obtain ⟨rules, hrules, hlen⟩ := ih inputs hrs
      obtain ⟨c, hc⟩ := ofSource_eq_ok hr.2
      refine ⟨.cycle c :: rules, ?_, congrArg Nat.succ hlen⟩
      rw [ofRegistersFrom, hc, hrules]
      rfl
    | mask source value =>
      obtain ⟨rules, hrules, hlen⟩ := ih inputs hrs
      have hvalue : CyclicColumn.fieldElement value = .ok (.ofNat value) := if_pos hr.2
      refine ⟨.mask source (.ofNat value) secret :: rules, ?_, congrArg Nat.succ hlen⟩
      rw [ofRegistersFrom, hvalue, hrules]
      rfl

theorem ofRegisters_eq_ok {set : RegisterSet} (h : set.Admissible Word.modulus) :
    ∃ rules, ofRegisters set = .ok rules ∧ rules.length = set.size := by
  have hadm : ∀ r ∈ set.registers.zip set.secrecy,
      ∃ earlier, r.1.Admissible Word.modulus earlier := by
    rintro ⟨r, secret⟩ hr
    obtain ⟨i, hi⟩ := List.getElem?_of_mem (List.of_mem_zip hr).1
    exact ⟨i, h hi⟩
  obtain ⟨rules, hrules, hlen⟩ := ofRegistersFrom_eq_ok 0 hadm
  refine ⟨rules, hrules, ?_⟩
  rw [hlen, List.length_zip, set.length_secrecy, RegisterSet.size, Nat.min_self]

end StaticRule

/-! ## Machines -/

/-- A schema that compiles has one constraint for every element of its evaluation. -/
theorem length_constraints {text : List Char} {o : CompileOptions} {s : Schema}
    (h : compile text o = .ok s) : s.constraints.length = s.evaluation.width := by
  have hs := compile_wellShaped h
  obtain ⟨tokens, d, -, -, hbuild⟩ := compile_eq_ok h
  obtain ⟨t, e, td, ed, -, -, rfl, -, hed, -⟩ := Draft.build_eq_ok hbuild
  have hheld := @Degree.Context.body_fits
    ⟨d.constants, d.functions.map (Function.share o.sharing), o.inverseCost⟩ hs.proper hs.checked
    _ _ _ _ _ hs.evaluation_checks
  have hfits := hheld.fits (Degree.Context.procedure_eq_ok.1 hed).1
  obtain ⟨xs, rfl, hlen⟩ := hfits.of_vector hs.count_pos
  exact hlen

namespace Machine

/-- A well-shaped schema has a rule for every register. -/
theorem length_statics {s : Schema} (hs : s.WellShaped) (hfield : s.modulus = Word.modulus)
    {rules : List StaticRule} (h : StaticRule.ofRegisters s.registers = .ok rules) :
    rules.length = s.registers.size := by
  have hadmissible : s.registers.Admissible Word.modulus := hfield ▸ hs.admissible
  obtain ⟨rules', hrules', hlen⟩ := StaticRule.ofRegisters_eq_ok hadmissible
  obtain rfl := Except.ok.inj (h.symm.trans hrules')
  exact hlen

/-- The machine of a schema, given the rules of its registers and its extension factor. -/
def assemble (s : Schema) (o : MachineOptions) (statics : List StaticRule) (extensionFactor : Nat) :
    Machine where
  constants := s.constants
  functions := s.functions.map (·.body.block)
  transitionBlock := s.transition.body.block
  evaluationBlock := s.evaluation.body.block
  statics := statics
  inputs := InputSlot.ofRegisters s.registers
  secrets := s.registers.secrets
  traceWidth := s.traceWidth
  constraintCount := s.constraints.length
  maxDegree := s.maxDegree
  compositionFactor := s.compositionFactor
  extensionFactor := extensionFactor
  limits := o.limits
  serial := o.serial

/-- What making a well-shaped schema ready comes down to: its limits and the extension factor. -/
theorem ofSchema_eq {s : Schema} (hs : s.WellShaped) (hfield : s.modulus = Word.modulus)
    (o : MachineOptions) :
    ∃ statics, StaticRule.ofRegisters s.registers = .ok statics
      ∧ statics.length = s.registers.size
      ∧ ofSchema s o =
        if s.violations o.limits = [] then assemble s o statics <$> o.extension s.compositionFactor
        else .error (.limits (s.violations o.limits)) := by
  have hadmissible : s.registers.Admissible Word.modulus := hfield ▸ hs.admissible
  obtain ⟨statics, hstatics, hlen⟩ := StaticRule.ofRegisters_eq_ok hadmissible
  refine ⟨statics, hstatics, hlen, ?_⟩
  -- every reference of the functions and of both procedures exists
  have hfunctions := Run.resolveFunctions_eq_ok hs.proper hs.checked
  have htransition := Run.resolveBlock_eq_ok hs.proper hs.transition_checks
  have hevaluation := Run.resolveBlock_eq_ok hs.proper hs.evaluation_checks
  dsimp only at htransition hevaluation
  rw [List.length_map, ← List.length_map (f := fun f : Function => f.body.block)]
    at htransition hevaluation
  unfold ofSchema
  by_cases hlimits : s.violations o.limits = []
  · simp only [hfield, hlimits, ne_eq, not_true_eq_false, if_false, if_true, List.isEmpty_nil,
      Bool.not_true, Bool.false_eq_true]
    rw [hfunctions, htransition, hevaluation, hstatics]
    cases o.extension s.compositionFactor <;> rfl
  · have hsome : (s.violations o.limits).isEmpty = false := List.isEmpty_eq_false_iff.2 hlimits
    simp only [hfield, hsome, ne_eq, not_true_eq_false, if_false, Bool.not_false, if_true,
      if_neg hlimits]
    rfl

/-- The parts of a machine that was made. -/
theorem ofSchema_eq_ok {s : Schema} {o : MachineOptions} {m : Machine} (h : ofSchema s o = .ok m) :
    s.modulus = Word.modulus ∧ ∃ statics extensionFactor,
      StaticRule.ofRegisters s.registers = .ok statics
        ∧ o.extension s.compositionFactor = .ok extensionFactor
        ∧ m = assemble s o statics extensionFactor := by
  unfold ofSchema at h
  dsimp only at h
  split at h
  · cases h
  next hfield =>
  split at h
  · cases h
  obtain ⟨-, -, h⟩ := bind_eq_ok.1 h
  obtain ⟨-, -, h⟩ := bind_eq_ok.1 h
  obtain ⟨-, -, h⟩ := bind_eq_ok.1 h
  obtain ⟨statics, hstatics, h⟩ := bind_eq_ok.1 h
  obtain ⟨ext, hext, h⟩ := bind_eq_ok.1 h
  exact ⟨not_not.1 hfield, statics, ext, hstatics, hext, (Except.ok.inj h).symm⟩

/-! ## Runs -/

/-- What a procedure reads fits its environment. -/
theorem fits_procedure {s : Schema} (hs : s.WellShaped) {rows : List (List Element)}
    {statics : List Element} (hrows : ∀ row ∈ rows, row.length = s.traceWidth)
    (hstatics : statics.length = s.registers.size) :
    Run.Fits ⟨s.constants, s.functions.map Function.signature,
        .procedure rows.length s.traceWidth s.registers.row?, .trap⟩
      (Run.callees s.constants (s.functions.map (·.body.block))) rows statics [] where
  trap := rfl
  proper := hs.proper
  load {source i u} h := by
    cases source with
    | const => exact Run.load_const hs.proper h _
    | trace =>
      obtain ⟨hi, rfl⟩ := Env.load_trace h
      refine ⟨.vector rows[i], ?_, ?_⟩
      · simp only [Run.load, List.getElem?_eq_getElem hi]
      · have hlen := hrows rows[i] (List.getElem_mem hi)
        rw [← hlen]
        exact Tensor.fits_vector (hlen ▸ hs.width_pos)
    | static =>
      obtain ⟨hsize, rfl⟩ := Env.load_static h
      refine ⟨.vector statics, rfl, ?_⟩
      rw [← hstatics] at hsize ⊢
      exact Tensor.fits_vector hsize
    | param => cases h
    | «local» => cases h
  call h := Run.callees_safe hs.proper hs.checked h

/-- Running a procedure that yields a vector. -/
theorem run_safe {s : Schema} (hs : s.WellShaped) (o : MachineOptions) (rules : List StaticRule)
    (ext : Nat) (rows : List (List Element)) {statics : List Element}
    (hrows : ∀ row ∈ rows, row.length = s.traceWidth) (hstatics : statics.length = s.registers.size)
    {b : Block} {n : Nat} (hn : 0 < n)
    (hb : b.Checks ⟨s.constants, s.functions.map Function.signature,
      .procedure rows.length s.traceWidth s.registers.row?, .trap⟩ (.vector n)) :
    Yields (· = .divisionByZero) (fun xs : List Element => xs.length = n)
      ((assemble s o rules ext).run rows statics b) := by
  refine Yields.bind ((fits_procedure hs hrows hstatics).block hb) fun v hv => ?_
  obtain ⟨xs, rfl, hlen⟩ := hv.of_vector hn
  exact Yields.ok hlen

theorem checkWidth_eq_ok {what : String} {xs : List Element} {n : Nat} :
    checkWidth what xs n = .ok () ↔ xs.length = n := by
  unfold checkWidth
  split
  · next h => exact ⟨fun _ => h, fun _ => rfl⟩
  · next h => exact ⟨fun h' => (by cases h'), fun h' => absurd h' h⟩

/-- On a row of the right length a transition is a run whose result is measured. -/
theorem transition_eq {m : Machine} {row statics : List Element}
    (hrow : row.length = m.traceWidth) (hstatics : statics.length = m.statics.length) :
    m.transition row statics =
      (m.run [row] statics m.transitionBlock >>= fun next =>
        checkWidth "transition result" next m.traceWidth >>= fun _ => pure next) := by
  rw [transition, checkWidth_eq_ok.2 hrow, checkWidth_eq_ok.2 hstatics]
  rfl

/-- On rows of the right length so is an evaluation. -/
theorem evaluate_eq {m : Machine} {row next statics : List Element}
    (hrow : row.length = m.traceWidth) (hnext : next.length = m.traceWidth)
    (hstatics : statics.length = m.statics.length) :
    m.evaluate row next statics =
      (m.run [row, next] statics m.evaluationBlock >>= fun values =>
        checkWidth "evaluation result" values m.constraintCount >>= fun _ => pure values) := by
  rw [evaluate, checkWidth_eq_ok.2 hrow, checkWidth_eq_ok.2 hnext, checkWidth_eq_ok.2 hstatics]
  rfl

/-- Measuring a result of the right length changes nothing. -/
theorem checkWidth_yields {E : RunFault → Prop} {what : String} {n : Nat}
    {r : Except RunFault (List Element)} (h : Yields E (fun v : List Element => v.length = n) r) :
    Yields E (fun v : List Element => v.length = n)
      (r >>= fun v => checkWidth what v n >>= fun _ => pure v) := by
  refine Yields.bind h fun v hv => ?_
  rw [checkWidth_eq_ok.2 hv]
  exact Yields.ok hv

theorem extension_eq_error {o : MachineOptions} {factor : Nat} {fault : RunFault}
    (h : o.extension factor = .error fault) :
    ∃ least greatest got, fault = .extensionFactor least greatest got := by
  unfold MachineOptions.extension at h
  dsimp only at h
  split at h
  · cases h
  · split at h
    · cases h
    · exact ⟨_, _, _, (Except.error.inj h).symm⟩

/-- **Machines are safe.** Making a schema that compiles ready to run fails only for a limit or for
the extension factor, and what a machine is asked for on rows and static values of the right lengths
it computes, at the right length, unless it has to divide by zero. -/
theorem safe {text : List Char} {o : CompileOptions} {s : Schema} (hs : compile text o = .ok s)
    (hfield : s.modulus = Word.modulus) (mo : MachineOptions) :
    (∀ fault, ofSchema s mo = .error fault →
      (∃ faults, fault = .limits faults)
        ∨ ∃ least greatest got, fault = .extensionFactor least greatest got)
    ∧ ∀ m, ofSchema s mo = .ok m →
      (∀ row statics : List Element,
        row.length = m.traceWidth → statics.length = m.statics.length →
        (∃ v, m.transition row statics = .ok v ∧ v.length = m.traceWidth)
          ∨ m.transition row statics = .error .divisionByZero)
      ∧ ∀ row next statics : List Element,
        row.length = m.traceWidth → next.length = m.traceWidth →
        statics.length = m.statics.length →
        (∃ v, m.evaluate row next statics = .ok v ∧ v.length = m.constraintCount)
          ∨ m.evaluate row next statics = .error .divisionByZero := by
  have hshaped := compile_wellShaped hs
  obtain ⟨rules, -, hrules, hmake⟩ := ofSchema_eq hshaped hfield mo
  rw [hmake]
  refine ⟨fun fault hfault => ?_, fun m hm => ?_⟩
  · split at hfault
    · cases hext : mo.extension s.compositionFactor with
      | error e =>
        rw [hext] at hfault
        obtain rfl := Except.error.inj hfault
        exact .inr (extension_eq_error hext)
      | ok ext =>
        rw [hext] at hfault
        cases hfault
    · exact .inl ⟨_, (Except.error.inj hfault).symm⟩
  · split at hm
    · obtain ⟨ext, -, rfl⟩ := map_eq_ok.1 hm
      refine ⟨fun row statics hrow hstatics => ?_, fun row next statics hrow hnext hstatics => ?_⟩
      · have hrun := run_safe hshaped mo rules ext [row] (List.forall_mem_singleton.2 hrow)
          (hstatics.trans hrules) hshaped.width_pos hshaped.transition_checks
        rw [transition_eq hrow hstatics]
        rcases yields_iff.1 (checkWidth_yields hrun) with ⟨v, hlen, hv⟩ | ⟨-, rfl, he⟩
        exacts [.inl ⟨v, hv, hlen⟩, .inr he]
      · have hrun := run_safe hshaped mo rules ext [row, next]
          (List.forall_mem_cons.2 ⟨hrow, List.forall_mem_singleton.2 hnext⟩)
          (hstatics.trans hrules) hshaped.count_pos hshaped.evaluation_checks
        -- the machine counts recorded degrees: there is one for every element of the result
        rw [← length_constraints hs] at hrun
        rw [evaluate_eq hrow hnext hstatics]
        rcases yields_iff.1 (checkWidth_yields hrun) with ⟨v, hlen, hv⟩ | ⟨-, rfl, he⟩
        exacts [.inl ⟨v, hv, hlen⟩, .inr he]
    · cases hm

/-- A module whose transition divides, inside a function, by the second register of a row. -/
def quotientText : List Char :=
  "(module (field prime 340282366920938463463374607393113505793) (const scalar 3)
    (function (result scalar) (param vector 2)
      (div (get (load.param 0) 0) (get (load.param 0) 1)))
    (static (cycle 1 2) (mask 0 1))
    (transition (span 1) (result vector 2)
      (local scalar) (store.local 0 (call 0 (load.trace 0)))
      (vector (load.local 0) (exp (load.local 0) (load.const 0))))
    (evaluation (span 2) (result vector 1)
      (vector (sub (get (load.trace 1) 0) (get (load.static 0) 1)))))".toList

/-- Its machine is safe on a row where the divisor is zero. -/
theorem safe_quotient :
    ∃ s m, compile quotientText { sharing := { enabled := false } } = .ok s
      ∧ s.modulus = Word.modulus ∧ ofSchema s {} = .ok m
      ∧ ((∃ v, m.transition [.ofNat 5, 0] [1, 0] = .ok v ∧ v.length = m.traceWidth)
        ∨ m.transition [.ofNat 5, 0] [1, 0] = .error .divisionByZero) := by
  have hcheck : ((compile quotientText { sharing := { enabled := false } }).toOption.any fun s =>
      s.modulus == Word.modulus && ((ofSchema s {}).toOption.any fun m =>
        m.traceWidth == 2 && m.statics.length == 2)) = true := by
    unfold quotientText
    rewrite [String.toList_ofList]
    decide +kernel
  simp only [Option.any_eq_true, Bool.and_eq_true, beq_iff_eq, toOption_eq_some] at hcheck
  obtain ⟨s, hs, hmodulus, m, hm, hwidth, hstatics⟩ := hcheck
  refine ⟨s, m, hs, hmodulus, hm, ?_⟩
  exact ((safe hs hmodulus {}).2 m hm).1 _ _ hwidth.symm hstatics.symm

end Machine

end Arithmetization
