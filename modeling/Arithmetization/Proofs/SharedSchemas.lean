import Arithmetization.Proofs.Machines

/-!
Schemas with their expressions shared.

Sharing keeps the result of a block, whatever evaluates it (`Evaluator.share_refines`). In a module
the blocks that are called are shared as well, so a block with sharing meets better callees too. The
functions are taken in order, each over those before it. Two things follow: a text compiles with
sharing as it does without (`compile_map_share`), to the same schema but for its bodies or with the
same faults, and the machine with sharing computes whatever the machine without computes.
-/

set_option autoImplicit false

namespace Arithmetization

/-! ## Blocks over shared functions -/

/-- A body that is shared, in a better evaluator. -/
theorem Evaluator.share_body_refines {ε α : Type} {ev ev' : Evaluator ε α} (h : Simulates ev ev')
    (h' : Simulates ev' ev') (hstrict : ev'.Strict) {b : Body} (hb : b.block.Formed)
    (options : SharingOptions) :
    Refines (ev.block b.block) (ev'.block (b.share options).block) := by
  rw [Body.block_share]
  split
  · exact (h.block b.block).trans (share_refines h' hstrict hb options.minWeight)
  · exact h.block b.block

theorem FunctionsCheck.formed {constants : List Literal} {functions : List Function}
    (h : FunctionsCheck constants functions) {f : Function} (hf : f ∈ functions) :
    f.body.block.Formed := by
  obtain ⟨i, hi⟩ := List.getElem?_of_mem hf
  exact (h i f hi).formed

namespace Run

theorem share_refines {constants : List Literal} {cs cs' : List Callee} (h : CalleesRefine cs cs')
    (rows : List (List Element)) (statics : List Element) (params : List Value) {b : Body}
    (hb : b.block.Formed) (options : SharingOptions) :
    Refines (block constants cs rows statics params b.block)
      (block constants cs' rows statics params (b.share options).block) := by
  rw [block_eq, block_eq]
  exact Evaluator.share_body_refines (simulates h rows statics params)
    (simulates (.refl _) rows statics params) (strict rows statics params) hb options

/-- Every function computes at least what it computed before its body was shared. -/
theorem callees_share_refines {constants : List Literal} {functions : List Function}
    (h : FunctionsCheck constants functions) (options : SharingOptions) :
    CalleesRefine (callees constants (functions.map (·.body.block)))
      (callees constants ((functions.map (Function.share options)).map (·.body.block))) := by
  induction functions using List.reverseRecOn with
  | nil => exact .nil
  | append_singleton functions f ih =>
    simp only [callees_eq, List.map_append, List.map_singleton, grow_append]
    refine List.rel_append (ih h.init) (.cons (fun args => ?_) .nil)
    exact share_refines (ih h.init) [] [] args h.last.formed options

end Run

namespace Degree.Context

/-- The context with the bodies of all functions shared. -/
def share (cx : Context) (options : SharingOptions) : Context :=
  { cx with functions := cx.functions.map (Function.share options) }

theorem share_refines (cx cx' : Context) (hconstants : cx'.constants = cx.constants)
    (hcost : cx'.inverseCost = cx.inverseCost) {cs cs' : List Callee} (h : CalleesRefine cs cs')
    (params : List Degree) {b : Body} (hb : b.block.Formed) (options : SharingOptions) :
    Refines (cx.block cs params b.block) (cx'.block cs' params (b.share options).block) := by
  have hshared : (b.share options).block.Formed := by
    rw [Body.block_share]
    split
    · exact hb.share _
    · exact hb
  rw [block_eq cs params hb.sized, block_eq cs' params hshared.sized]
  exact Evaluator.share_body_refines (simulates hconstants hcost h params)
    (simulates rfl rfl (.refl _) params) (strict cs' params) hb options

variable {cx : Context}

/-- Every function has at least the degrees that it had before its body was shared. -/
theorem callees_share_refines (h : FunctionsCheck cx.constants cx.functions)
    (options : SharingOptions) (depth : Nat) :
    CalleesRefine (cx.callees depth) ((cx.share options).callees depth) := by
  induction depth with
  | zero =>
    refine List.forall₂_iff_get.2 ⟨by simp [callees, share], fun i hi hi' args d hd => ?_⟩
    simp [callees] at hd
  | succ depth ih =>
    refine List.forall₂_map_left_iff.2 (List.forall₂_map_right_iff.2
      (List.forall₂_map_right_iff.2 (List.forall₂_same.2 fun f hf args => ?_)))
    exact share_refines cx (cx.share options) rfl rfl ih args (h.formed hf) options

/-- Sharing keeps degrees. -/
theorem body_share_refines (h : FunctionsCheck cx.constants cx.functions) {b : Body}
    (hb : b.block.Formed) (options : SharingOptions) (params : List Degree) :
    Refines (cx.body b params) ((cx.share options).body (b.share options) params) := by
  have hcallees := callees_share_refines h options cx.functions.length
  have hlen : (cx.share options).functions.length = cx.functions.length := List.length_map ..
  rw [body, body, hlen]
  exact share_refines cx (cx.share options) rfl rfl hcallees params hb options

theorem procedure_share_refines (h : FunctionsCheck cx.constants cx.functions) {b : Body}
    (hb : b.block.Formed) (options : SharingOptions) :
    Refines (cx.procedure b) ((cx.share options).procedure (b.share options)) :=
  procedure_refines (body_share_refines h hb options [])

/-- Sharing keeps the degree of a body among functions that stay as they are. -/
theorem body_share_self (cx : Context) {b : Body} (hb : b.block.Formed) (options : SharingOptions)
    (params : List Degree) : Refines (cx.body b params) (cx.body (b.share options) params) :=
  share_refines cx cx rfl rfl (.refl _) params hb options

end Degree.Context

/-! ## Schemas -/

/-- A schema with its repeated subexpressions shared. -/
def Schema.share (options : SharingOptions) (s : Schema) : Schema :=
  { s with
    functions := s.functions.map (Function.share options)
    transition := s.transition.share options
    evaluation := s.evaluation.share options }

section NotEnabled

variable {plain : SharingOptions} (hplain : plain.enabled = false)

include hplain

theorem Body.share_plain (b : Body) : b.share plain = b := by
  rw [share, hplain]
  rfl

theorem Function.share_plain : Function.share plain = id := by
  funext f
  rw [share, f.body.share_plain hplain]
  rfl

theorem Procedure.share_plain (p : Procedure) : p.share plain = p := by
  rw [share, p.body.share_plain hplain]

end NotEnabled

theorem Schema.violations_share (options : SharingOptions) (s : Schema) (limits : Limits) :
    (s.share options).violations limits = s.violations limits := rfl

/-- Once the degrees of a draft are known, only its limits decide whether it can be built. -/
theorem Draft.build_eq {d : Draft} {o : CompileOptions} {t e : Procedure} {td ed : Degree}
    {s : Schema} (ht : d.transition = some t) (he : d.evaluation = some e)
    (hs : s = ⟨d.modulus, d.constants, d.functions.map (Function.share o.sharing), d.registers,
      t.share o.sharing, e.share o.sharing, td, ed.elements⟩)
    (htd : Degree.Context.procedure ⟨s.constants, s.functions, o.inverseCost⟩ s.transition.body
      = .ok td)
    (hed : Degree.Context.procedure ⟨s.constants, s.functions, o.inverseCost⟩ s.evaluation.body
      = .ok ed) :
    d.build o
      = if s.violations o.limits = [] then .ok s else .error (s.violations o.limits) := by
  subst hs
  have htd' : Degree.Context.procedure ⟨d.constants, d.functions.map fun f =>
      { f with body := f.body.share o.sharing }, o.inverseCost⟩ (t.body.share o.sharing)
      = .ok td := htd
  have hed' : Degree.Context.procedure ⟨d.constants, d.functions.map fun f =>
      { f with body := f.body.share o.sharing }, o.inverseCost⟩ (e.body.share o.sharing)
      = .ok ed := hed
  simp only [build, ht, he, htd', hed']
  split
  · next hnil => exact (if_pos hnil).symm
  · next hne => exact (if_neg hne).symm

/-- A draft with a procedure that memory cannot hold is not built, whatever its limits are. -/
theorem Draft.build_stops {d : Draft} {t e : Procedure} (ht : d.transition = some t)
    (he : d.evaluation = some e)
    (hshaped : WellShaped d.modulus d.constants d.functions d.registers t e)
    (hwide : 2 ^ 61 ≤ t.width ∨ 2 ^ 61 ≤ e.width) (o : CompileOptions) :
    d.build o = .error [.stop .capacity] := by
  have hs := hshaped.share o.sharing
  let cx : Degree.Context := ⟨d.constants, d.functions.map fun f =>
    { f with body := f.body.share o.sharing }, o.inverseCost⟩
  by_cases hwidth : t.width < 2 ^ 61
  · obtain ⟨td, htd, -⟩ : ∃ td, cx.procedure (t.body.share o.sharing) = .ok td ∧ _ :=
      Degree.Context.procedure_fits hs.proper hs.checked hs.transition_checks hwidth hwidth
    have hed : cx.procedure (e.body.share o.sharing) = .error (.stop .capacity) :=
      Degree.Context.procedure_stops hs.proper hs.checked hs.evaluation_checks
        (hwide.resolve_left (Nat.not_le.2 hwidth))
    simp only [build, ht, he, htd, hed, cx]
  · have htd : cx.procedure (t.body.share o.sharing) = .error (.stop .capacity) :=
      Degree.Context.procedure_stops hs.proper hs.checked hs.transition_checks
        (Nat.not_lt.1 hwidth)
    simp only [build, ht, he, htd, cx]

/-- A draft that is well shaped is built with sharing as it is without: memory holds neither, both
break the same limits, or both keep them and the schemas are the same but for their bodies. -/
theorem Draft.build_share {d : Draft} {plain : SharingOptions} (hplain : plain.enabled = false)
    (hd : ∀ {t e}, d.transition = some t → d.evaluation = some e →
      WellShaped d.modulus d.constants d.functions d.registers t e)
    (o : CompileOptions) (options : SharingOptions) :
    d.build { o with sharing := options }
      = (d.build { o with sharing := plain }).map (Schema.share options) := by
  cases ht : d.transition with
  | none =>
    rw [build, build, ht]
    rfl
  | some t =>
    cases he : d.evaluation with
    | none =>
      rw [build, build, ht, he]
      rfl
    | some e =>
      have hshaped := hd ht he
      by_cases hwide : 2 ^ 61 ≤ t.width ∨ 2 ^ 61 ≤ e.width
      · rw [build_stops ht he hshaped hwide, build_stops ht he hshaped hwide]
        rfl
      obtain ⟨hwidth, hcount⟩ := not_or.1 hwide
      rw [Nat.not_le] at hwidth hcount
      -- every part of a well-shaped module has a degree, and sharing keeps it
      let cx : Degree.Context := ⟨d.constants, d.functions, o.inverseCost⟩
      obtain ⟨td, htd, -⟩ := cx.procedure_fits hshaped.proper hshaped.checked
        hshaped.transition_checks hwidth hwidth
      obtain ⟨ed, hed, -⟩ := cx.procedure_fits hshaped.proper hshaped.checked
        hshaped.evaluation_checks hwidth hcount
      have htd' := Degree.Context.procedure_share_refines hshaped.checked
        hshaped.transition_checks.formed options td htd
      have hed' := Degree.Context.procedure_share_refines hshaped.checked
        hshaped.evaluation_checks.formed options ed hed
      have hs : (⟨d.modulus, d.constants, d.functions, d.registers, t, e, td, ed.elements⟩ : Schema)
          = ⟨d.modulus, d.constants, d.functions.map (Function.share plain), d.registers,
            t.share plain, e.share plain, td, ed.elements⟩ := by
        rw [Function.share_plain hplain, Procedure.share_plain hplain,
          Procedure.share_plain hplain, List.map_id]
      rw [build_eq (o := { o with sharing := options }) ht he rfl htd' hed',
        build_eq (o := { o with sharing := plain }) ht he hs htd hed, apply_ite (Except.map _)]
      rfl

/-- **Sharing keeps acceptance.** A text compiles with sharing as it does without: to the same
schema but for its bodies, or with the same faults. -/
theorem compile_map_share (text : List Char) (o : CompileOptions) {plain : SharingOptions}
    (hplain : plain.enabled = false) (options : SharingOptions) :
    compile text { o with sharing := options }
      = (compile text { o with sharing := plain }).map (Schema.share options) := by
  unfold compile
  cases Token.scan text with
  | error f => rfl
  | ok tokens =>
    dsimp only [compileTokens]
    cases hparse : Grammar.parse tokens with
    | error fs => rfl
    | ok d =>
      exact Draft.build_share hplain (fun ht he => Grammar.parse_wellShaped hparse ht he) o options

theorem compile_share {text : List Char} {o : CompileOptions} {plain : SharingOptions}
    (hplain : plain.enabled = false) {s : Schema}
    (h : compile text { o with sharing := plain } = .ok s) (options : SharingOptions) :
    compile text { o with sharing := options } = .ok (s.share options) := by
  rw [compile_map_share text o hplain, h]
  rfl

namespace Machine

/-- What two machines compute, if one runs its blocks at least as well as the other. -/
theorem refines_of_run (m m' : Machine) (hwidth : m'.traceWidth = m.traceWidth)
    (hcount : m'.constraintCount = m.constraintCount) (hstatics : m'.statics = m.statics)
    {row next statics : List Element}
    (ht : Refines (m.run [row] statics m.transitionBlock)
      (m'.run [row] statics m'.transitionBlock))
    (he : Refines (m.run [row, next] statics m.evaluationBlock)
      (m'.run [row, next] statics m'.evaluationBlock)) :
    Refines (m.transition row statics) (m'.transition row statics)
      ∧ Refines (m.evaluate row next statics) (m'.evaluate row next statics) := by
  simp only [transition, evaluate, hwidth, hcount, hstatics]
  refine ⟨?_, ?_⟩
  · refine (Refines.refl _).bind fun _ => (Refines.refl _).bind fun _ => ?_
    exact ht.bind fun _ => .refl _
  · refine (Refines.refl _).bind fun _ => (Refines.refl _).bind fun _ =>
      (Refines.refl _).bind fun _ => ?_
    exact he.bind fun _ => .refl _

/-- Limits, register rules and options do not tell a shared schema from the schema itself. -/
theorem ofSchema_share {s : Schema} (hs : s.WellShaped) {mo : MachineOptions} {m : Machine}
    (h : ofSchema s mo = .ok m) (options : SharingOptions) :
    ∃ m', ofSchema (s.share options) mo = .ok m' := by
  obtain ⟨hfield, -⟩ := ofSchema_eq_ok h
  obtain ⟨rules, -, -, heq⟩ := ofSchema_eq hs hfield mo
  have hshared : (s.share options).WellShaped := hs.share options
  obtain ⟨rules', -, -, heq'⟩ := ofSchema_eq hshared hfield mo
  rw [heq] at h
  rw [heq', s.violations_share]
  split at h
  · next hlimits =>
    obtain ⟨ext, hext, -⟩ := map_eq_ok.1 h
    rw [if_pos hlimits]
    exact ⟨_, map_eq_ok.2 ⟨ext, hext, rfl⟩⟩
  · cases h

/-- **Sharing keeps what a machine computes.** Of one text compiled without sharing and with any
sharing, everything that the first machine computes the second computes too, so that the second
fails only where the first does. -/
theorem sharing_refines {text : List Char} {o : CompileOptions} {plain options : SharingOptions}
    (hplain : plain.enabled = false) {s s' : Schema} {mo mo' : MachineOptions} {m m' : Machine}
    (hs : compile text { o with sharing := plain } = .ok s)
    (hs' : compile text { o with sharing := options } = .ok s')
    (hm : ofSchema s mo = .ok m) (hm' : ofSchema s' mo' = .ok m')
    (row next statics : List Element) :
    (∀ v, m.transition row statics = .ok v → m'.transition row statics = .ok v)
      ∧ (∀ v, m.evaluate row next statics = .ok v → m'.evaluate row next statics = .ok v)
      ∧ (∀ fault, m'.transition row statics = .error fault →
          ∃ fault', m.transition row statics = .error fault')
      ∧ ∀ fault, m'.evaluate row next statics = .error fault →
          ∃ fault', m.evaluate row next statics = .error fault' := by
  obtain rfl : s.share options = s' :=
    Except.ok.inj ((compile_share hplain hs options).symm.trans hs')
  have hshaped := compile_wellShaped hs
  obtain ⟨-, rules, ext, hrules, -, rfl⟩ := ofSchema_eq_ok hm
  obtain ⟨-, rules', ext', hrules', -, rfl⟩ := ofSchema_eq_ok hm'
  obtain rfl : rules = rules' := Except.ok.inj (hrules.symm.trans hrules')
  have hcallees := Run.callees_share_refines hshaped.checked options
  have htransition : Refines ((assemble s mo rules ext).run [row] statics _)
      ((assemble (s.share options) mo' rules ext').run [row] statics _) :=
    (Run.share_refines hcallees [row] statics [] hshaped.transition_checks.formed options).bind
      fun _ => .refl _
  have hevaluate : Refines ((assemble s mo rules ext).run [row, next] statics _)
      ((assemble (s.share options) mo' rules ext').run [row, next] statics _) :=
    (Run.share_refines hcallees [row, next] statics [] hshaped.evaluation_checks.formed
      options).bind fun _ => .refl _
  have hrefines := refines_of_run (assemble s mo rules ext)
    (assemble (s.share options) mo' rules ext') rfl rfl rfl htransition hevaluate
  exact ⟨hrefines.1, hrefines.2, hrefines.1.error, hrefines.2.error⟩

/-- A module with a local that is stored twice and one that is never read, and with products that
occur again and again, also in a function. -/
def repeatedText : List Char :=
  "(module (field prime 340282366920938463463374607393113505793)
    (function (result scalar) (param scalar)
      (mul (add (load.param 0) 1) (add (load.param 0) 1)))
    (transition (span 1) (result vector 2)
      (local vector 2) (local scalar)
      (store.local 0 (load.trace 0))
      (store.local 1 (mul (get (load.trace 0) 0) (get (load.trace 0) 1)))
      (store.local 1 (add (load.local 1) (mul (get (load.trace 0) 0) (get (load.trace 0) 1))))
      (vector (call 0 (load.local 1))
        (add (load.local 1) (mul (get (load.trace 0) 0) (get (load.trace 0) 1)))))
    (evaluation (span 2) (result vector 1)
      (vector (mul (sub (get (load.trace 1) 0) 1) (sub (get (load.trace 1) 0) 1)))))".toList

/-- Its machine with sharing has the results of its machine without. -/
theorem sharing_refines_repeated :
    ∃ s s' m m', compile repeatedText { sharing := { enabled := false } } = .ok s
      ∧ compile repeatedText {} = .ok s' ∧ ofSchema s {} = .ok m ∧ ofSchema s' {} = .ok m'
      ∧ m'.transition [.ofNat 2, .ofNat 3] [] = .ok [.ofNat 169, .ofNat 18]
      ∧ m'.evaluate [.ofNat 2, .ofNat 3] [.ofNat 5, 0] [] = .ok [.ofNat 16] := by
  have hcheck : ((compile repeatedText { sharing := { enabled := false } }).toOption.any fun s =>
      (ofSchema s {}).toOption.any fun m =>
        (m.transition [.ofNat 2, .ofNat 3] []).toOption == some [.ofNat 169, .ofNat 18]
          && (m.evaluate [.ofNat 2, .ofNat 3] [.ofNat 5, 0] []).toOption == some [.ofNat 16])
        = true := by
    unfold repeatedText
    rewrite [String.toList_ofList]
    decide +kernel
  simp only [Option.any_eq_true, Bool.and_eq_true, beq_iff_eq, toOption_eq_some] at hcheck
  obtain ⟨s, hs, m, hm, htransition, hevaluate⟩ := hcheck
  have hs' := compile_share (o := {}) rfl hs {}
  obtain ⟨m', hm'⟩ := ofSchema_share (compile_wellShaped hs) hm {}
  have hrefines := sharing_refines (o := {}) rfl hs hs' hm hm' [.ofNat 2, .ofNat 3] [.ofNat 5, 0] []
  exact ⟨s, _, m, m', hs, hs', hm, hm', hrefines.1 _ htransition, hrefines.2.1 _ hevaluate⟩

end Machine

end Arithmetization
