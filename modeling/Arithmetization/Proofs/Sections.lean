import Arithmetization.Proofs.Declarations

/-!
Sections of a module.

A module form is `Sectioned` if each of its sections is accepted among what the sections before it
declare. This is exactly when it is accepted (`Grammar.sections_eq_ok`), so that a module that is
accepted has both procedures, and whatever is said of accepted modules is said of these parts.
-/

set_option autoImplicit false

namespace Arithmetization.Grammar

open Form

/-! ## Fields and headers -/

theorem field_eq_ok {s : Form} {m : Nat} :
    field s = .ok m ↔ (∃ x, s.bare = .list [x, .sym "prime", .int m]) ∧ 3 ≤ m := by
  constructor
  · intro h
    unfold field at h
    split at h
    · next x p f hitems =>
      obtain ⟨n, hn, h⟩ := bind_eq_ok.1 h
      split at h
      · cases h
      next hge =>
      obtain rfl := pure_eq_ok.1 h
      refine ⟨⟨x.bare, ?_⟩, Nat.not_lt.1 hge⟩
      cases s with
      | list items pos =>
        obtain rfl : items = [x, .sym "prime" p, f] := hitems
        rw [bare_list, List.map_cons, List.map_cons, List.map_singleton, int_eq_ok.1 hn]
        rfl
      | _ => cases hitems
    · cases h
  · rintro ⟨⟨x, hx⟩, hm⟩
    obtain ⟨items, pos, rfl, hitems⟩ := bare_eq_list.1 hx
    obtain ⟨g, rest, rfl, -, hrest⟩ := List.map_eq_cons_iff.1 hitems
    obtain ⟨g₁, rest₁, rfl, hg₁, hrest₁⟩ := List.map_eq_cons_iff.1 hrest
    obtain ⟨g₂, rfl, hg₂⟩ := List.map_eq_singleton_iff.1 hrest₁
    obtain ⟨p, rfl⟩ := bare_eq_sym.1 hg₁
    refine bind_eq_ok.2 ⟨m, int_eq_ok.2 hg₂, ?_⟩
    rw [if_neg (Nat.not_lt.2 hm)]
    rfl

theorem header_sound {kind : ProcedureKind} {s : Form} {width : Nat}
    (h : header kind s = .ok width) :
    (∃ x extra rest, s.bare = .list (x :: .list (.sym "span" :: .int kind.span :: extra)
      :: .list [.sym "result", .sym "vector", .int width] :: rest))
    ∧ 0 < width ∧ width < Shape.lengthBound := by
  unfold header at h
  obtain ⟨-, h⟩ | ⟨hspan, h⟩ := ite_eq_iff.1 h
  · cases h
  simp only [Bool.not_eq_true', Bool.not_eq_false] at hspan
  split at hspan
  swap
  · cases hspan
  next p n q extra spanPos hsecond =>
  obtain rfl := beq_iff_eq.1 hspan
  split at h
  swap
  · cases h
  next r hthird =>
  split at h
  swap
  · cases h
  next hhead =>
  obtain ⟨shape, hshape, h⟩ := bind_eq_ok.1 h
  split at h
  swap
  · cases h
  next hvector =>
  -- the type in the second clause can only be that of a vector
  obtain rfl := pure_eq_ok.1 h
  obtain ⟨w, hw, rfl⟩ := (Shape.isVector_iff shape).1 hvector
  obtain ⟨hargs, hwritable⟩ := type_eq_ok.1 hshape
  rw [Shape.sexps_vector hw] at hargs
  refine ⟨?_, hw, hwritable.rows_lt⟩
  obtain ⟨q', args, resultPos, rfl⟩ := head?_eq_some.1 hhead
  have hresult : (Form.list (.sym "result" q' :: args) resultPos).bare
      = .list [.sym "result", .sym "vector", .int w] := by
    rw [bare_list, List.map_cons]
    exact congrArg (fun xs => Sexp.list (.sym "result" :: xs)) hargs
  cases s with
  | list items pos =>
    rcases items with _ | ⟨x, _ | ⟨y, _ | ⟨z, rest⟩⟩⟩
    · cases hsecond
    · cases hsecond
    · cases hthird
    · obtain rfl := Option.some.inj hsecond
      obtain rfl := Option.some.inj hthird
      refine ⟨x.bare, extra.map bare, rest.map bare, ?_⟩
      rw [bare_list, List.map_cons, List.map_cons, List.map_cons, hresult, bare_list]
      rfl
  | _ => cases hsecond

theorem header_accepted {kind : ProcedureKind} {s : Form} {width : Nat} {x : Sexp}
    {extra xs : List Sexp}
    (hs : s.bare = .list (x :: .list (.sym "span" :: .int kind.span :: extra)
      :: .list [.sym "result", .sym "vector", .int width] :: xs))
    (hpos : 0 < width) (hwidth : width < Shape.lengthBound) : header kind s = .ok width := by
  obtain ⟨items, pos, rfl, hitems⟩ := bare_eq_list.1 hs
  obtain ⟨g, args, rfl, -, hargs⟩ := List.map_eq_cons_iff.1 hitems
  obtain ⟨span, rest, rfl, hspan, hrest⟩ := List.map_eq_cons_iff.1 hargs
  obtain ⟨result, body, rfl, hresult, -⟩ := List.map_eq_cons_iff.1 hrest
  obtain ⟨q, spanArgs, spanPos, rfl, hspanArgs⟩ := bare_eq_clause.1 hspan
  obtain ⟨n, more, rfl, hn, -⟩ := List.map_eq_cons_iff.1 hspanArgs
  obtain ⟨q', rfl⟩ := bare_eq_int.1 hn
  obtain ⟨p', args, resultPos, rfl, htype⟩ := bare_eq_clause.1 hresult
  have hvector : type resultPos args = .ok (.vector width) := by
    refine type_eq_ok.2 ⟨?_, Shape.writable_vector hwidth⟩
    rw [Shape.sexps_vector hpos]
    exact htype
  have hspanOk : (kind.span == kind.span) = true := beq_self_eq_true _
  have hisVector : (Shape.vector width).isVector = true :=
    (Shape.isVector_iff _).2 ⟨width, hpos, rfl⟩
  show (if (!(kind.span == kind.span)) = true then _ else _) = _
  rw [hspanOk]
  show (type resultPos args >>= fun shape => _) = _
  rw [hvector]
  show (if (Shape.vector width).isVector = true then _ else _) = _
  rw [if_pos hisVector]
  rfl

/-- **A header is accepted exactly as it is written**, except that anything may follow the number in
the clause of the span. -/
theorem header_eq_ok {kind : ProcedureKind} {s : Form} {width : Nat} :
    header kind s = .ok width ↔
      (∃ x extra rest, s.bare = .list (x :: .list (.sym "span" :: .int kind.span :: extra)
        :: .list [.sym "result", .sym "vector", .int width] :: rest))
      ∧ 0 < width ∧ width < Shape.lengthBound := by
  refine ⟨header_sound, ?_⟩
  rintro ⟨⟨x, extra, rest, hs⟩, hpos, hwidth⟩
  exact header_accepted hs hpos hwidth

/-! ## Modules -/

theorem single_required_eq {name : String} {pos : Position} {all : List Form}
    {form : Option Form} :
    single name true pos all = (form, []) ↔ ∃ f, sectionsOf name all = [f] ∧ form = some f := by
  rw [single]
  rcases sectionsOf name all with _ | ⟨f, _ | ⟨g, rest⟩⟩
  · simp
  · simp [eq_comm]
  · simp

theorem single_optional_eq {name : String} {pos : Position} {all : List Form}
    {form : Option Form} :
    single name false pos all = (form, []) ↔ sectionsOf name all = form.toList := by
  rw [single]
  rcases sectionsOf name all with _ | ⟨f, _ | ⟨g, rest⟩⟩
  · cases form <;> simp
  · cases form <;> simp
  · cases form <;> simp

theorem map_bare_sectionsOf (name : String) (all : List Form) :
    (sectionsOf name all).map bare = (all.map bare).filter (fun x => x.head? = some name) := by
  rw [List.filter_map, sectionsOf]
  congr 1
  refine List.filter_congr fun f _ => ?_
  rw [Function.comp_apply, head?_bare]

/-- The sections of a module are those of the given parts. -/
structure Sectioned (all : List Form) (modulus : Nat) (constants : List Literal)
    (functions : List Function) (registers : RegisterSet) (t e : Procedure) : Prop where
  known : ∀ f ∈ all, isSection f = true
  field : ∃ f, sectionsOf "field" all = [f] ∧ Grammar.field f = .ok modulus
  constants_eq : (sectionsOf "const" all).foldl (constantStep modulus) ([], []) = (constants, [])
  functions_eq : (sectionsOf "function" all).foldl (functionStep .trap modulus constants) ([], [])
    = (functions, [])
  static : sectionsOf "static" all = [] ∧ registers = .empty
    ∨ ∃ f, sectionsOf "static" all = [f] ∧ Grammar.registers modulus f = .ok registers
  transition : ∃ f, sectionsOf "transition" all = [f] ∧ header .transition f = .ok t.width
    ∧ procedure ⟨modulus, constants, functions, .procedure 1 t.width registers.row?, .trap⟩
        .transition t.width f = .ok t
  evaluation : ∃ f, sectionsOf "evaluation" all = [f] ∧ header .evaluation f = .ok e.width
    ∧ procedure ⟨modulus, constants, functions, .procedure 2 t.width registers.row?, .trap⟩
        .evaluation e.width f = .ok e

/-! ### The parts one after the other -/

def modulusOf (form : Option Form) : Nat × List Fault :=
  match form.map field with
  | some (.ok m) => (m, [])
  | some (.error f) => (noModulus, [f])
  | none => (noModulus, [])

def registersOf (modulus : Nat) (form : Option Form) : Option RegisterSet × List Fault :=
  match form with
  | some s => split (registers modulus s)
  | none => (none, [])

def transitionOf (cx : Nat → Context) (form : Option Form) :
    Option Nat × Option Procedure × List Fault :=
  match form with
  | some s => transition cx s
  | none => (none, none, [])

def evaluationOf (cx : Nat → Context) (width : Option Nat) (form : Option Form) :
    Option Procedure × List Fault :=
  match form with
  | some s => evaluation cx width s
  | none => (none, [])

/-- The static row that as many registers as are declared make up. -/
def staticRow (form : Option Form) : Option Nat :=
  if (form.map (·.operands.length)).getD 0 = 0 then none
  else some ((form.map (·.operands.length)).getD 0)

/-- The parts of a module by name. -/
theorem sections_eq (pos : Position) (all : List Form) (o : Overflow) :
    sections pos all o =
      let unknown := (all.filter (!isSection ·)).map fun f => Fault.parse .sectionForm f.pos
      let fieldForm := single "field" true pos all
      let modulus := modulusOf fieldForm.1
      let constants := (sectionsOf "const" all).foldl (constantStep modulus.1) ([], [])
      let functions :=
        (sectionsOf "function" all).foldl (functionStep o modulus.1 constants.1) ([], [])
      let staticForm := single "static" false pos all
      let registers := registersOf modulus.1 staticForm.1
      let transitionForm := single "transition" true pos all
      let transition := transitionOf (fun width => ⟨modulus.1, constants.1, functions.1,
        .procedure 1 width (staticRow staticForm.1), o⟩) transitionForm.1
      let evaluationForm := single "evaluation" true pos all
      let evaluation := evaluationOf (fun width => ⟨modulus.1, constants.1, functions.1,
        .procedure 2 width (staticRow staticForm.1), o⟩) transition.1 evaluationForm.1
      let faults := unknown ++ fieldForm.2 ++ modulus.2 ++ constants.2 ++ functions.2
        ++ staticForm.2 ++ registers.2 ++ transitionForm.2 ++ transition.2.2 ++ evaluationForm.2
        ++ evaluation.2
      if faults.isEmpty then
        .ok ⟨modulus.1, constants.1, functions.1, registers.1.getD .empty, transition.2.1,
          evaluation.1⟩
      else .error (settled faults) :=
  rfl

theorem modulusOf_eq {f : Form} {m : Nat} : modulusOf (some f) = (m, []) ↔ field f = .ok m := by
  rw [modulusOf, Option.map_some]
  cases field f with
  | ok n => simp
  | error fault => simp

/-- A part without faults has an answer, if there is no refusal without one. -/
theorem split_eq {α : Type} {x : Except (List Fault) α}
    (hx : ∀ faults, x = .error faults → faults ≠ []) {answer : Option α} :
    split x = (answer, []) ↔ ∃ a, x = .ok a ∧ answer = some a := by
  cases x with
  | ok a => simp [split, eq_comm]
  | error faults => simp [split, hx faults rfl]

theorem registersOf_none {modulus : Nat} {set : Option RegisterSet} :
    registersOf modulus none = (set, []) ↔ set = none := by
  simp [registersOf, eq_comm]

theorem registersOf_some {modulus : Nat} {s : Form} {set : Option RegisterSet} :
    registersOf modulus (some s) = (set, []) ↔
      ∃ r, registers modulus s = .ok r ∧ set = some r :=
  split_eq fun _ => registers_error_ne_nil

theorem transitionOf_eq {cx : Nat → Context} {s : Form} {width : Option Nat}
    {answer : Option Procedure} :
    transitionOf cx (some s) = (width, answer, []) ↔
      ∃ t, width = some t.width ∧ answer = some t ∧ header .transition s = .ok t.width
        ∧ procedure (cx t.width) .transition t.width s = .ok t := by
  show transition cx s = _ ↔ _
  unfold transition
  cases hheader : header .transition s with
  | error f => simp
  | ok w =>
    dsimp only
    rw [Prod.mk.injEq, Prod.eta, split_eq fun _ => procedure_error_ne_nil]
    constructor
    · rintro ⟨rfl, t, ht, rfl⟩
      obtain ⟨-, rfl, -⟩ := procedure_eq_ok.1 ht
      exact ⟨t, rfl, rfl, rfl, ht⟩
    · rintro ⟨t, rfl, rfl, hw, ht⟩
      obtain rfl := Except.ok.inj hw
      exact ⟨rfl, t, ht, rfl⟩

theorem evaluationOf_eq {cx : Nat → Context} {width : Nat} {s : Form}
    {answer : Option Procedure} :
    evaluationOf cx (some width) (some s) = (answer, []) ↔
      ∃ e, answer = some e ∧ header .evaluation s = .ok e.width
        ∧ procedure (cx width) .evaluation e.width s = .ok e := by
  show evaluation cx (some width) s = _ ↔ _
  unfold evaluation
  cases hheader : header .evaluation s with
  | error f => simp
  | ok w =>
    dsimp only
    rw [split_eq fun _ => procedure_error_ne_nil]
    constructor
    · rintro ⟨e, he, rfl⟩
      obtain ⟨-, rfl, -⟩ := procedure_eq_ok.1 he
      exact ⟨e, rfl, rfl, he⟩
    · rintro ⟨e, rfl, hw, he⟩
      obtain rfl := Except.ok.inj hw
      exact ⟨e, he, rfl⟩

/-- The static row is as long as the set that was declared. -/
theorem staticRow_eq {modulus : Nat} {form : Option Form} {set : Option RegisterSet}
    (h : registersOf modulus form = (set, [])) : staticRow form = (set.getD .empty).row? := by
  cases form with
  | none =>
    rw [registersOf_none.1 h]
    rfl
  | some s =>
    obtain ⟨r, hr, rfl⟩ := registersOf_some.1 h
    have hsize := (registers_admissible hr).1
    rw [staticRow, RegisterSet.row?, Option.getD_some, hsize]
    rfl

/-- A module without a static section has no registers. -/
theorem registersOf_sections {modulus : Nat} {pos : Position} {all : List Form}
    {set : RegisterSet} :
    (∃ form r, single "static" false pos all = (form, []) ∧ registersOf modulus form = (r, [])
        ∧ r.getD .empty = set) ↔
      sectionsOf "static" all = [] ∧ set = .empty
        ∨ ∃ f, sectionsOf "static" all = [f] ∧ registers modulus f = .ok set := by
  constructor
  · rintro ⟨form, r, hform, hr, rfl⟩
    have hsections := single_optional_eq.1 hform
    cases form with
    | none =>
      rw [registersOf_none.1 hr]
      exact .inl ⟨hsections, rfl⟩
    | some f =>
      obtain ⟨r', hr', rfl⟩ := registersOf_some.1 hr
      exact .inr ⟨f, hsections, hr'⟩
  · rintro (⟨hnil, rfl⟩ | ⟨f, hf, hset⟩)
    · exact ⟨none, none, single_optional_eq.2 hnil, rfl, rfl⟩
    · exact ⟨some f, some set, single_optional_eq.2 hf, registersOf_some.2 ⟨_, hset, rfl⟩, rfl⟩

section

variable {pos : Position} {all : List Form} {d : Draft} {t e : Procedure}

/-- The sections of a module that is accepted are all accepted. -/
theorem exists_sectioned (h : sections pos all = .ok d) :
    ∃ t e, d.transition = some t ∧ d.evaluation = some e
      ∧ Sectioned all d.modulus d.constants d.functions d.registers t e := by
  rw [sections_eq] at h
  extract_lets unknown fieldForm modulus constants functions staticForm registers transitionForm
    transition evaluationForm evaluation faults at h
  obtain ⟨hfaults, h⟩ | ⟨-, h⟩ := ite_eq_iff.1 h
  swap
  · cases h
  obtain rfl := Except.ok.inj h
  simp only [faults, List.isEmpty_iff, List.append_eq_nil_iff] at hfaults
  obtain ⟨⟨⟨⟨⟨⟨⟨⟨⟨⟨hnone, hfield⟩, hmodulus⟩, hconstants⟩, hfunctions⟩, hstatic⟩, hregisters⟩,
    htransition⟩, htfaults⟩, hevaluation⟩, hefaults⟩ := hfaults
  -- without a fault each part is what its own inversion says
  obtain ⟨ff, hff, hfieldForm⟩ := single_required_eq.1 (Prod.ext rfl hfield)
  obtain ⟨tf, htf, htransitionForm⟩ := single_required_eq.1 (Prod.ext rfl htransition)
  obtain ⟨ef, hef, hevaluationForm⟩ := single_required_eq.1 (Prod.ext rfl hevaluation)
  have hregistersOf : registersOf modulus.1 staticForm.1 = (registers.1, []) :=
    Prod.ext rfl hregisters
  dsimp only
  have hmodulusOf : modulusOf (some ff) = (modulus.1, []) := by
    rw [← hfieldForm]
    exact Prod.ext rfl hmodulus
  have htransitionOf : transitionOf (fun width => ⟨modulus.1, constants.1, functions.1,
      .procedure 1 width (staticRow staticForm.1), .trap⟩) (some tf)
        = (transition.1, transition.2.1, []) := by
    rw [← htransitionForm]
    exact Prod.ext rfl (Prod.ext rfl htfaults)
  have hevaluationOf : evaluationOf (fun width => ⟨modulus.1, constants.1, functions.1,
      .procedure 2 width (staticRow staticForm.1), .trap⟩) transition.1 (some ef)
        = (evaluation.1, []) := by
    rw [← hevaluationForm]
    exact Prod.ext rfl hefaults
  rw [staticRow_eq hregistersOf] at htransitionOf hevaluationOf
  obtain ⟨t, hwidth, ht, htheader, htproc⟩ := transitionOf_eq.1 htransitionOf
  -- the evaluation is looked at only where the transition gives the length of a row
  rw [hwidth] at hevaluationOf
  obtain ⟨e, he, heheader, heproc⟩ := evaluationOf_eq.1 hevaluationOf
  exact ⟨t, e, ht, he, by simpa [unknown, List.filter_eq_nil_iff] using hnone,
    ⟨ff, hff, modulusOf_eq.1 hmodulusOf⟩, Prod.ext rfl hconstants, Prod.ext rfl hfunctions,
    registersOf_sections.1 ⟨_, _, Prod.ext rfl hstatic, hregistersOf, rfl⟩,
    ⟨tf, htf, htheader, htproc⟩, ⟨ef, hef, heheader, heproc⟩⟩

/-- A module is accepted if its sections are, each among what the others declare. -/
theorem Sectioned.sections (h : Sectioned all d.modulus d.constants d.functions d.registers t e)
    (ht : d.transition = some t) (he : d.evaluation = some e) (pos : Position) :
    Grammar.sections pos all = .ok d := by
  rw [sections_eq]
  extract_lets unknown fieldForm modulus constants functions staticForm registers transitionForm
    transition evaluationForm evaluation faults
  obtain ⟨ff, hff, hfield⟩ := h.field
  obtain ⟨tf, htf, htheader, htproc⟩ := h.transition
  obtain ⟨ef, hef, heheader, heproc⟩ := h.evaluation
  obtain ⟨sf, set, hstaticForm, hregistersOf, hset⟩ :
      ∃ sf set, staticForm = (sf, []) ∧ registersOf d.modulus sf = (set, [])
        ∧ set.getD .empty = d.registers := registersOf_sections.2 h.static
  -- each part in turn is what was declared, so none of them adds a fault
  have hunknown : unknown = [] := by simpa [unknown, List.filter_eq_nil_iff] using h.known
  have hfieldForm : fieldForm = (some ff, []) := single_required_eq.2 ⟨ff, hff, rfl⟩
  have hmodulus : modulus = (d.modulus, []) := by
    show modulusOf fieldForm.1 = _
    rw [hfieldForm]
    exact modulusOf_eq.2 hfield
  have hconstants : constants = (d.constants, []) := by
    show (sectionsOf "const" all).foldl (constantStep modulus.1) ([], []) = _
    rw [hmodulus]
    exact h.constants_eq
  have hfunctions : functions = (d.functions, []) := by
    show (sectionsOf "function" all).foldl (functionStep .trap modulus.1 constants.1) ([], []) = _
    rw [hmodulus, hconstants]
    exact h.functions_eq
  have hregisters : registers = (set, []) := by
    show registersOf modulus.1 staticForm.1 = _
    rw [hmodulus, hstaticForm]
    exact hregistersOf
  have hrow : staticRow staticForm.1 = d.registers.row? := by
    rw [hstaticForm, staticRow_eq hregistersOf, hset]
  have htransitionForm : transitionForm = (some tf, []) := single_required_eq.2 ⟨tf, htf, rfl⟩
  have htransition : transition = (some t.width, some t, []) := by
    show transitionOf (fun width => ⟨modulus.1, constants.1, functions.1,
      .procedure 1 width (staticRow staticForm.1), .trap⟩) transitionForm.1 = _
    rw [htransitionForm, transitionOf_eq, hmodulus, hconstants, hfunctions, hrow]
    exact ⟨t, rfl, rfl, htheader, htproc⟩
  have hevaluationForm : evaluationForm = (some ef, []) := single_required_eq.2 ⟨ef, hef, rfl⟩
  have hevaluation : evaluation = (some e, []) := by
    show evaluationOf (fun width => ⟨modulus.1, constants.1, functions.1,
      .procedure 2 width (staticRow staticForm.1), .trap⟩) transition.1 evaluationForm.1 = _
    rw [hevaluationForm, htransition, evaluationOf_eq, hmodulus, hconstants, hfunctions, hrow]
    exact ⟨e, rfl, heheader, heproc⟩
  have hfaults : faults = [] := by
    simp only [faults, hunknown, hfieldForm, hmodulus, hconstants, hfunctions, hstaticForm,
      hregisters, htransitionForm, htransition, hevaluationForm, hevaluation, List.append_nil]
  rw [hfaults, hmodulus, hconstants, hfunctions, hregisters, htransition, hevaluation, hset]
  dsimp only
  rw [← ht, ← he]
  rfl

/-- **A module is accepted exactly if its sections are**, each among what the others declare. -/
theorem sections_eq_ok :
    Grammar.sections pos all = .ok d ↔ ∃ t e, d.transition = some t ∧ d.evaluation = some e
      ∧ Sectioned all d.modulus d.constants d.functions d.registers t e := by
  refine ⟨exists_sectioned, ?_⟩
  rintro ⟨t, e, ht, he, h⟩
  exact h.sections ht he pos

/-- A module without faults has both procedures. -/
theorem sections_procedures (h : Grammar.sections pos all = .ok d) :
    ∃ t e, d.transition = some t ∧ d.evaluation = some e := by
  obtain ⟨t, e, ht, he, -⟩ := sections_eq_ok.1 h
  exact ⟨t, e, ht, he⟩

theorem Sectioned.of_sections (h : Grammar.sections pos all = .ok d) (ht : d.transition = some t)
    (he : d.evaluation = some e) :
    Sectioned all d.modulus d.constants d.functions d.registers t e := by
  obtain ⟨t', e', ht', he', hparts⟩ := sections_eq_ok.1 h
  obtain rfl := Option.some.inj (ht.symm.trans ht')
  obtain rfl := Option.some.inj (he.symm.trans he')
  exact hparts

end

theorem parse_eq_ok {tokens : List Token} {d : Draft} :
    parse tokens = .ok d ↔ ∃ f, Form.read tokens = .ok [f] ∧ f.head? = some "module"
      ∧ sections f.pos f.operands = .ok d := by
  unfold parse
  split
  · next hread => simp [hread]
  · next hread => simp [hread]
  · next f hread =>
    split
    · next hhead => simp [hread, hhead]
    · next hhead => simp [hread, hhead]
  · next f rest hmore hread => simp [hread, mt hmore]

end Arithmetization.Grammar
