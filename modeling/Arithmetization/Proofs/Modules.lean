import Arithmetization.Compile
import Arithmetization.Proofs.Elaboration
import Arithmetization.Proofs.Sections

/-!
What is known about a module that was accepted.

`WellShaped` collects it: constants are proper, every function checks against the functions before
it, the two procedures check against all of them, and every register was admissible where it was
declared. A text that parses is well shaped (`Grammar.parse_wellShaped`), and sharing keeps it so,
hence so is every schema that compiles (`compile_wellShaped`).
-/

set_option autoImplicit false

namespace Arithmetization

/-! ## Modules -/

theorem Env.load_trace {constants : List Literal} {signatures : List Signature} {span width : Nat}
    {statics : Option Nat} {overflow : Overflow} {i : Nat} {s : Shape}
    (h : (Env.mk constants signatures (.procedure span width statics) overflow).load .trace i
      = some s) :
    i < span ∧ s = .vector width := by
  simp only [Env.load] at h
  split at h
  · next hi => exact ⟨hi, (Option.some.inj h).symm⟩
  · cases h

/-- A procedure can load the static row only if there are static registers. -/
theorem Env.load_static {constants : List Literal} {signatures : List Signature}
    {span width : Nat} {set : RegisterSet} {overflow : Overflow} {i : Nat} {s : Shape}
    (h : (Env.mk constants signatures (.procedure span width set.row?) overflow).load .static i
      = some s) :
    0 < set.size ∧ s = .vector set.size := by
  unfold RegisterSet.row? at h
  by_cases hsize : set.size = 0
  · rw [if_pos hsize] at h
    cases h
  · rw [if_neg hsize] at h
    simp only [Env.load] at h
    split at h
    · exact ⟨Nat.pos_of_ne_zero hsize, (Option.some.inj h).symm⟩
    · cases h

/-- Every function checks against the functions before it. -/
def FunctionsCheck (constants : List Literal) (functions : List Function) : Prop :=
  ∀ (i : Nat) (f : Function), functions[i]? = some f →
    f.body.block.Checks ⟨constants, (functions.take i).map Function.signature,
      .function f.params, .trap⟩ f.result

/-- A function that another one may call stands before it. -/
theorem signature_of_take {functions : List Function} {f k : Nat} {signature : Signature}
    (h : ((functions.take f).map Function.signature)[k]? = some signature) :
    k < f ∧ (functions.map Function.signature)[k]? = some signature := by
  have hk : k < f := by
    have hlt := (List.getElem?_eq_some_iff.1 h).1
    rw [List.length_map, List.length_take] at hlt
    omega
  rw [List.map_take, List.getElem?_take_of_lt hk] at h
  exact ⟨hk, h⟩

/-- What is known about the parts of a module that was accepted. -/
structure WellShaped (modulus : Nat) (constants : List Literal) (functions : List Function)
    (registers : RegisterSet) (transition evaluation : Procedure) : Prop where
  proper : ∀ c ∈ constants, c.isProper = true
  checked : FunctionsCheck constants functions
  admissible : registers.Admissible modulus
  width_pos : 0 < transition.width
  count_pos : 0 < evaluation.width
  transition_checks : transition.body.block.Checks
    ⟨constants, functions.map Function.signature,
      .procedure 1 transition.width registers.row?, .trap⟩ (.vector transition.width)
  evaluation_checks : evaluation.body.block.Checks
    ⟨constants, functions.map Function.signature,
      .procedure 2 transition.width registers.row?, .trap⟩ (.vector evaluation.width)

theorem FunctionsCheck.snoc {constants : List Literal} {functions : List Function} {f : Function}
    (h : FunctionsCheck constants functions)
    (hf : f.body.block.Checks ⟨constants, functions.map Function.signature,
      .function f.params, .trap⟩ f.result) : FunctionsCheck constants (functions ++ [f]) := by
  intro i g hg
  rcases getElem?_concat_eq_some hg with hg | ⟨rfl, rfl⟩
  · have hlt : i < functions.length := (List.getElem?_eq_some_iff.1 hg).1
    rw [List.take_append_of_le_length (Nat.le_of_lt hlt)]
    exact h i g hg
  · rw [List.take_left]
    exact hf

theorem FunctionsCheck.init {constants : List Literal} {functions : List Function} {f : Function}
    (h : FunctionsCheck constants (functions ++ [f])) : FunctionsCheck constants functions := by
  intro i g hg
  have hlt := (List.getElem?_eq_some_iff.1 hg).1
  have hg' := h i g (by rw [List.getElem?_append_left hlt, hg])
  rwa [List.take_append_of_le_length (Nat.le_of_lt hlt)] at hg'

theorem FunctionsCheck.last {constants : List Literal} {functions : List Function} {f : Function}
    (h : FunctionsCheck constants (functions ++ [f])) :
    f.body.block.Checks ⟨constants, functions.map Function.signature, .function f.params, .trap⟩
      f.result := by
  have hf := h functions.length f List.getElem?_concat_length
  rwa [List.take_left] at hf

namespace Grammar

theorem function_checks {modulus : Nat} {constants : List Literal} {functions : List Function}
    {s : Form} {f : Function} (h : function modulus constants functions s = .ok f) :
    f.body.block.Checks ⟨constants, functions.map Function.signature, .function f.params, .trap⟩
      f.result := by
  obtain ⟨result, rest, -, -, -, -, hbody, hshape⟩ := function_eq_ok.1 h
  exact hshape ▸ body_checks hbody

theorem functions_check {modulus : Nat} {constants : List Literal} {ss : List Form}
    {fs : List Function}
    (h : ss.foldl (functionStep .trap modulus constants) ([], []) = (fs, [])) :
    FunctionsCheck constants fs := by
  refine (functions_eq_iff.1 h).invariant ?_ fun _ _ h => (by cases h)
  rintro s - fs fs' ⟨f, hf, rfl⟩ hfs
  exact hfs.snoc (function_checks hf)

/-- A procedure has the length that its header gives, and it is positive. -/
theorem procedure_checks {cx : Context} {kind : ProcedureKind} {width : Nat} {s : Form}
    {p : Procedure} (h : procedure cx kind width s = .ok p) :
    p.width = width ∧ 0 < width ∧ p.body.block.Checks cx.env (.vector p.width) := by
  obtain ⟨-, rfl, hpos, hbody, hshape⟩ := procedure_eq_ok.1 h
  exact ⟨rfl, hpos, hshape ▸ body_checks hbody⟩

/-- **A module form without faults is well shaped.** -/
theorem Sectioned.wellShaped {all : List Form} {modulus : Nat} {constants : List Literal}
    {functions : List Function} {registers : RegisterSet} {t e : Procedure}
    (h : Sectioned all modulus constants functions registers t e) :
    WellShaped modulus constants functions registers t e := by
  obtain ⟨tf, -, -, htproc⟩ := h.transition
  obtain ⟨ef, -, -, heproc⟩ := h.evaluation
  obtain ⟨-, hwidth, htransition⟩ := procedure_checks htproc
  obtain ⟨-, hcount, hevaluation⟩ := procedure_checks heproc
  refine ⟨fun c hc => ?_, functions_check h.functions_eq, ?_, hwidth, hcount, htransition,
    hevaluation⟩
  · obtain ⟨f, -, hf⟩ := exists_mem_right (constants_eq_iff.1 h.constants_eq).flip hc
    exact (literal_eq_ok.1 hf).2.1
  · rcases h.static with ⟨-, rfl⟩ | ⟨s, -, hregisters⟩
    · exact fun h => (by cases h)
    · exact (registers_admissible hregisters).2

/-- A module that parses has both procedures. -/
theorem parse_procedures {tokens : List Token} {d : Draft} (h : parse tokens = .ok d) :
    ∃ t e, d.transition = some t ∧ d.evaluation = some e := by
  obtain ⟨f, -, -, hsections⟩ := parse_eq_ok.1 h
  exact sections_procedures hsections

theorem parse_wellShaped {tokens : List Token} {d : Draft} {t e : Procedure}
    (h : parse tokens = .ok d) (ht : d.transition = some t) (he : d.evaluation = some e) :
    WellShaped d.modulus d.constants d.functions d.registers t e := by
  obtain ⟨f, -, -, hsections⟩ := parse_eq_ok.1 h
  exact (Sectioned.of_sections hsections ht he).wellShaped

end Grammar

/-! ## Schemas -/

/-- A schema whose parts are well shaped. -/
def Schema.WellShaped (s : Schema) : Prop :=
  Arithmetization.WellShaped s.modulus s.constants s.functions s.registers s.transition s.evaluation

/-- A function with its repeated subexpressions shared. -/
def Function.share (options : SharingOptions) (f : Function) : Function :=
  { f with body := f.body.share options }

/-- A procedure with its repeated subexpressions shared. -/
def Procedure.share (options : SharingOptions) (p : Procedure) : Procedure :=
  { p with body := p.body.share options }

theorem map_signature_share (options : SharingOptions) (functions : List Function) :
    (functions.map (Function.share options)).map Function.signature
      = functions.map Function.signature := by
  rw [List.map_map]
  rfl

theorem FunctionsCheck.share {constants : List Literal} {functions : List Function}
    (h : FunctionsCheck constants functions) (options : SharingOptions) :
    FunctionsCheck constants (functions.map (Function.share options)) := by
  intro i f hf
  rw [List.getElem?_map] at hf
  obtain ⟨g, hg, rfl⟩ := Option.map_eq_some_iff.1 hf
  rw [← List.map_take, map_signature_share]
  exact (h i g hg).share_body options

theorem WellShaped.share {modulus : Nat} {constants : List Literal} {functions : List Function}
    {registers : RegisterSet} {t e : Procedure}
    (h : WellShaped modulus constants functions registers t e) (options : SharingOptions) :
    WellShaped modulus constants (functions.map (Function.share options)) registers
      (t.share options) (e.share options) where
  proper := h.proper
  checked := h.checked.share options
  admissible := h.admissible
  width_pos := h.width_pos
  count_pos := h.count_pos
  transition_checks := by
    rw [map_signature_share]
    exact h.transition_checks.share_body options
  evaluation_checks := by
    rw [map_signature_share]
    exact h.evaluation_checks.share_body options

/-- What building a schema from a draft does. -/
theorem Draft.build_eq_ok {d : Draft} {o : CompileOptions} {s : Schema} (h : d.build o = .ok s) :
    ∃ t e transitionDegree evaluationDegree,
      d.transition = some t ∧ d.evaluation = some e
      ∧ s = ⟨d.modulus, d.constants, d.functions.map (Function.share o.sharing), d.registers,
          t.share o.sharing, e.share o.sharing, transitionDegree, evaluationDegree.elements⟩
      ∧ Degree.Context.procedure ⟨s.constants, s.functions, o.inverseCost⟩ s.transition.body
          = .ok transitionDegree
      ∧ Degree.Context.procedure ⟨s.constants, s.functions, o.inverseCost⟩ s.evaluation.body
          = .ok evaluationDegree
      ∧ s.violations o.limits = [] := by
  unfold Draft.build at h
  split at h
  · next t e ht he =>
    dsimp only at h
    split at h
    · cases h
    · cases h
    · next td ed htd hed =>
      split at h
      · next hviolations =>
        obtain rfl := Except.ok.inj h
        exact ⟨t, e, td, ed, ht, he, rfl, htd, hed, hviolations⟩
      · cases h
  · cases h

theorem compile_eq_ok {text : List Char} {o : CompileOptions} {s : Schema}
    (h : compile text o = .ok s) :
    ∃ tokens d, Token.scan text = .ok tokens ∧ Grammar.parse tokens = .ok d
      ∧ d.build o = .ok s := by
  unfold compile at h
  split at h
  · next tokens hscan =>
    obtain ⟨d, hd, hbuild⟩ := bind_eq_ok.1 h
    exact ⟨tokens, d, hscan, hd, hbuild⟩
  · cases h

/-- **A schema that compiles is well shaped.** -/
theorem compile_wellShaped {text : List Char} {o : CompileOptions} {s : Schema}
    (h : compile text o = .ok s) : s.WellShaped := by
  obtain ⟨tokens, d, -, hparse, hbuild⟩ := compile_eq_ok h
  obtain ⟨t, e, td, ed, ht, he, rfl, -⟩ := Draft.build_eq_ok hbuild
  exact (Grammar.parse_wellShaped hparse ht he).share o.sharing

end Arithmetization
