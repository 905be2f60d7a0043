import Arithmetization.Proofs.Canonical
import Mathlib.Data.List.Flatten

/-!
Modules that can be written.

What a module that was read from a text guarantees of its parts after sharing: its registers may be
declared again (`Grammar.Sectioned.declarable`), and its functions and procedures are legible
(`Grammar.Sectioned.functions_sound`, `Grammar.Sectioned.legible`). Conversely, the canonical forms
of registers that may be declared are accepted (`Grammar.registers_accepted`).
-/

set_option autoImplicit false

namespace Arithmetization

/-! ## Registers -/

/-- Each register may be declared after those before it. -/
def RegisterBuilder.AllowsAll (b : RegisterBuilder) : List Register → Prop
  | [] => True
  | r :: rs => b.Allows r ∧ (b.push r).AllowsAll rs

/-- The registers of a set may be declared in their order, are legible, and pass together. -/
structure RegisterSet.Declarable (modulus : Nat) (set : RegisterSet) : Prop where
  allows : (RegisterBuilder.empty modulus).AllowsAll set.registers
  legible : ∀ r ∈ set.registers, r.Legible modulus
  build : (RegisterBuilder.mk modulus set.registers).build = .ok set

namespace Sexp

/-- The byte strings of a form are not empty, as those of a text are. -/
def Seeded (x : Sexp) : Prop :=
  ∀ bytes, TokenKind.hex bytes ∈ x.kinds → bytes ≠ []

/-- The byte strings of an item are among those of the list. -/
theorem Seeded.item {x : Sexp} {xs : List Sexp} (h : (Sexp.list xs).Seeded) (hx : x ∈ xs) :
    x.Seeded := by
  intro bytes hbytes
  refine h bytes ?_
  rw [kinds_list]
  exact List.mem_cons_of_mem _ (List.mem_append_left _ (List.mem_flatMap.2 ⟨x, hx, hbytes⟩))

end Sexp

namespace Grammar

open Form

/-- A cycle that was read from a text has a seed to write, a count in range, or numbers below the
modulus. -/
theorem Cycle.legible {xs : List Sexp} {source : CycleSource} (h : Cycle xs source)
    (hseeded : ∀ x ∈ xs, x.Seeded) {modulus : Nat} (hbelow : source.Below modulus) :
    (Register.cycle source).Legible modulus := by
  cases h with
  | prng hcount =>
    have hhex := (hseeded _ (List.mem_singleton.2 rfl)).item
      (List.mem_cons_of_mem _ (List.mem_cons_of_mem _ (List.mem_cons_self ..)))
    exact ⟨hhex _ (List.mem_singleton.2 rfl), hcount⟩
  | power hcount => exact ⟨hbelow, hcount⟩
  | values => exact hbelow

/-- A declaration that is accepted adds a legible register. -/
theorem Declaration.legible {b : RegisterBuilder} {x : Sexp} {r : Register}
    (h : Declaration b x (b.push r)) (hseeded : x.Seeded) : r.Legible b.modulus := by
  have hpush : ∀ r', b.push r = b.push r' → r' = r := fun r' h =>
    (List.cons.inj (List.append_cancel_left (RegisterBuilder.mk.inj h).2)).1.symm
  generalize hb' : b.push r = b' at h
  cases h with
  | input hx hy hb =>
    obtain ⟨rank, -, rfl⟩ := RegisterBuilder.input_eq_ok.1 hb
    rw [← hpush _ hb']
    exact ⟨hx.parent_lt, hy.steps_lt⟩
  | cycle hxs hb =>
    obtain ⟨hallows, rfl⟩ := RegisterBuilder.cycle_eq_ok.1 hb
    rw [← hpush _ hb']
    refine hxs.legible (fun x hx => ?_) (RegisterBuilder.outside?_eq_none hallows.1)
    exact hseeded.item (List.mem_cons_of_mem _ hx)
  | mask hsource hvalue hb =>
    obtain ⟨-, rfl⟩ := RegisterBuilder.mask_eq_ok.1 hb
    rw [← hpush _ hb']
    exact ⟨hsource, hvalue⟩

/-- What is written for the binding of an input is read as that binding. -/
theorem binding_sexp {r : InputRegister} (hscalar : r.scalar = true → r.parent = none)
    (hparent : ∀ p ∈ r.parent, p < indexBound) : Binding r.bindingSexp (r.scalar, r.parent) := by
  unfold InputRegister.bindingSexp
  by_cases hr : r.scalar = true
  · rw [if_pos hr, hscalar hr, hr]
    exact .scalar
  rw [if_neg hr, eq_false_of_ne_true hr]
  cases hp : r.parent with
  | none => exact .vector
  | some p => exact .parent (hparent p hp)

theorem pattern_sexp {r : InputRegister} (hsteps : ∀ n ∈ r.steps, n < indexBound) :
    Pattern r.patternSexp r.steps := by
  unfold InputRegister.patternSexp
  cases hn : r.steps with
  | none => exact .filled
  | some n => exact .steps (hsteps n hn)

/-- A source without values has no form, but its period would not be a power of two. -/
theorem cycle_sexps {source : CycleSource} {modulus : Nat}
    (hlegible : (Register.cycle source).Legible modulus)
    (hperiod : isPowerOfTwo source.period = true) : Cycle source.sexps source := by
  cases source with
  | values vs =>
    cases vs with
    | nil => cases hperiod
    | cons v vs => exact .values
  | prng seed count => exact .prng hlegible.2
  | power base count => exact .power hlegible.2

/-- **The canonical form of a register is accepted** where the register may be declared. -/
theorem register_accepted {b : RegisterBuilder} {f : Form} {r : Register} (hf : f.bare = r.sexp)
    (hallows : b.Allows r) (hlegible : r.Legible b.modulus) : register b f = .ok (b.push r) := by
  rw [register_eq_ok, hf]
  cases r with
  | input r =>
    exact .input (binding_sexp hallows.2.1 hlegible.1) (pattern_sexp hlegible.2)
      (RegisterBuilder.input_eq_ok.2 ⟨r.rank, hallows, rfl⟩)
  | cycle source =>
    exact .cycle (cycle_sexps hlegible hallows.2) (RegisterBuilder.cycle_eq_ok.2 ⟨hallows, rfl⟩)
  | mask source value =>
    exact .mask hlegible.1 hlegible.2 (RegisterBuilder.mask_eq_ok.2 ⟨hallows, rfl⟩)

/-- Declarations one after the other. -/
theorem Runs.registers_sound {fs : List Form} (hseeded : ∀ f ∈ fs, f.bare.Seeded)
    {b b' : RegisterBuilder} (h : Runs (fun b f b' => register b f = .ok b') b fs b') :
    ∃ rs, b' = ⟨b.modulus, b.registers ++ rs⟩ ∧ b.AllowsAll rs ∧ ∀ r ∈ rs, r.Legible b.modulus := by
  induction h with
  | nil b => exact ⟨[], by rw [List.append_nil], trivial, by simp⟩
  | cons h _ ih =>
    rw [List.forall_mem_cons] at hseeded
    obtain ⟨r, hallows, rfl⟩ := register_allows h
    obtain ⟨rs, rfl, hall, hrest⟩ := ih hseeded.2
    have hlegible := (register_eq_ok.1 h).legible hseeded.1
    refine ⟨r :: rs, ?_, ⟨hallows, hall⟩, List.forall_mem_cons.2 ⟨hlegible, hrest⟩⟩
    simp [RegisterBuilder.push]

/-- Canonical forms one after the other declare the registers they were made from. -/
theorem runs_registers {fs : List Form} {rs : List Register}
    (hfs : fs.map bare = rs.map Register.sexp) {b : RegisterBuilder} (hallows : b.AllowsAll rs)
    (hlegible : ∀ r ∈ rs, r.Legible b.modulus) :
    Runs (fun b f b' => register b f = .ok b') b fs ⟨b.modulus, b.registers ++ rs⟩ := by
  induction rs generalizing fs b with
  | nil =>
    obtain rfl := List.map_eq_nil_iff.1 hfs
    rw [List.append_nil]
    exact .nil b
  | cons r rs ih =>
    obtain ⟨f, rest, rfl, hf, hrest⟩ := List.map_eq_cons_iff.1 hfs
    rw [List.forall_mem_cons] at hlegible
    have hruns := ih hrest hallows.2 hlegible.2
    rw [RegisterBuilder.push, List.append_assoc, List.singleton_append] at hruns
    exact .cons (register_accepted hf hallows.1 hlegible.1) hruns

/-- Registers that were read from a text may be declared again. -/
theorem registers_sound {modulus : Nat} {s : Form} (hseeded : s.bare.Seeded) {set : RegisterSet}
    (h : registers modulus s = .ok set) : set.Declarable modulus := by
  have hoperands : ∀ f ∈ s.operands, f.bare.Seeded := by
    intro f hf
    cases s with
    | list items pos =>
      rw [bare_list] at hseeded
      exact hseeded.item (List.mem_map_of_mem (List.mem_of_mem_tail hf))
    | _ => cases hf
  obtain ⟨b, hbuild, hrun⟩ := registers_eq_ok.1 h
  obtain ⟨rs, rfl, hallows, hlegible⟩ := hrun.registers_sound hoperands
  obtain rfl := RegisterBuilder.eq_of_build hbuild
  exact ⟨hallows, hlegible, hbuild⟩

/-- Registers that may be declared are read again from their canonical forms. -/
theorem registers_accepted {modulus : Nat} {set : RegisterSet} (h : set.Declarable modulus)
    {s : Form} (hs : s.operands.map bare = set.registers.map Register.sexp) :
    registers modulus s = .ok set :=
  registers_eq_ok.2 ⟨_, h.build, runs_registers hs h.allows h.legible⟩

/-! ## Functions and procedures -/

/-- What is known of a form that was read from a text: its numbers and byte strings were written in
the text, and it is not too long. -/
structure Scanned (x : Sexp) : Prop where
  size_le : x.kinds.length ≤ Shape.lengthBound
  int_lt : ∀ n, TokenKind.int n ∈ x.kinds → n < Token.intBound
  seeded : x.Seeded

/-- The shapes that a scope offers can be written. -/
def Scope.Writable : Scope → Prop
  | .function params => ∀ s ∈ params, s.Writable
  | .procedure _ width statics =>
    width < Shape.lengthBound ∧ ∀ n ∈ statics, n < Shape.lengthBound

/-- All that a body may load, call or read has a shape that can be written, if constants, results
and the scope have. -/
theorem Context.writable_env {cx : Context} (hoverflow : cx.overflow ≠ .exact)
    (hconstants : ∀ c ∈ cx.constants, c.shape.Writable)
    (hresults : ∀ f ∈ cx.functions, f.result.Writable) (hscope : cx.scope.Writable) :
    cx.env.Writable := by
  obtain ⟨modulus, constants, functions, scope, overflow⟩ := cx
  refine ⟨hoverflow, ?_, ?_⟩
  · intro source i s h
    cases source with
    | const =>
      obtain ⟨c, hc, rfl⟩ := Option.map_eq_some_iff.1 h
      exact hconstants c (List.mem_of_getElem? hc)
    | trace =>
      cases scope with
      | function params => cases h
      | procedure span width statics =>
        obtain ⟨-, rfl⟩ := Env.load_trace h
        exact Shape.writable_vector hscope.1
    | static =>
      simp only [Context.env, Env.load] at h
      split at h
      · next n =>
        split at h
        · obtain rfl := Option.some.inj h
          exact Shape.writable_vector (hscope.2 n rfl)
        · cases h
      · cases h
    | param =>
      cases scope with
      | function params => exact hscope s (List.mem_of_getElem? h)
      | procedure span width statics => cases h
    | «local» => cases h
  · intro f signature h
    simp only [Context.env, List.getElem?_map] at h
    obtain ⟨g, hg, rfl⟩ := Option.map_eq_some_iff.1 h
    exact hresults g (List.mem_of_getElem? hg)

/-- **A body that is accepted can be written after sharing.** -/
theorem body_legible {cx : Context} (hΓ : cx.env.Writable) {pos : Position} {items : List Form}
    (hitems : ((items.map bare).flatMap Sexp.kinds).length ≤ Shape.lengthBound) {b : Body}
    (h : body cx pos items = .ok b) (o : SharingOptions) : (b.share o).Legible cx.modulus := by
  obtain ⟨hlegible, hsize⟩ := (body_denotes h).legible hΓ hitems
  have hchecks := body_checks h
  refine ⟨Body.legible_share hlegible hchecks.readsStored o, ?_⟩
  exact Nat.le_trans (Body.length_locals_share_le hchecks.formed o) (Nat.le_trans hsize hitems)

/-- A list of some items of a list is no longer than that list. -/
theorem length_kinds_le_of_sublist {s : Form} {items : List Form} (h : items.Sublist s.items)
    (hne : items ≠ []) : (Sexp.list (items.map bare)).kinds.length ≤ s.bare.kinds.length := by
  cases s with
  | list all pos =>
    rw [bare_list, Sexp.length_kinds_list, Sexp.length_kinds_list]
    exact Nat.add_le_add_right ((h.map bare).flatMap Sexp.kinds).length_le 2
  | _ => exact absurd (List.sublist_nil.1 h) hne

/-- The statements of a section have no more tokens than the section. -/
theorem body_legible_of_sublist {cx : Context} (hΓ : cx.env.Writable) {pos : Position} {s : Form}
    (hs : Scanned s.bare) {items : List Form} (hitems : items.Sublist s.items) {b : Body}
    (h : body cx pos items = .ok b) (o : SharingOptions) : (b.share o).Legible cx.modulus := by
  refine body_legible hΓ ?_ h o
  by_cases hne : items = []
  · rw [hne]
    exact Nat.zero_le _
  · have hle := length_kinds_le_of_sublist hitems hne
    have hsize := hs.size_le
    rw [Sexp.length_kinds_list] at hle
    omega

/-- A function is written with the types that were read for it. -/
theorem function_legible {modulus : Nat} {constants : List Literal} {functions : List Function}
    (hconstants : ∀ c ∈ constants, c.shape.Writable) (hresults : ∀ f ∈ functions, f.result.Writable)
    {s : Form} (hs : Scanned s.bare) {f : Function}
    (h : function modulus constants functions s = .ok f) (o : SharingOptions) :
    (f.share o).Legible modulus := by
  obtain ⟨result, rest, hoperands, -, hresult, hparams, hbody, -⟩ := function_eq_ok.1 h
  have htypes : ∀ p ∈ f.params, p.Writable := by
    intro p hp
    obtain ⟨g, -, hg⟩ := exists_mem_right (mapM_eq_ok.1 hparams).flip hp
    exact (type_eq_ok.1 hg).2
  have hsublist : (rest.dropWhile isParam).Sublist s.items := by
    refine (List.dropWhile_sublist _).trans ?_
    have htail : (result :: rest).Sublist s.items := hoperands ▸ List.tail_sublist s.items
    exact (List.sublist_cons_self _ _).trans htail
  refine ⟨htypes, (type_eq_ok.1 hresult).2, ?_⟩
  have hΓ : (Context.mk modulus constants functions (.function f.params) .trap).env.Writable :=
    Context.writable_env (fun h => (by cases h)) hconstants hresults htypes
  exact body_legible_of_sublist hΓ hs hsublist hbody o

theorem procedure_legible {cx : Context} (hΓ : cx.env.Writable) {kind : ProcedureKind}
    {width : Nat} (hwidth : width < Shape.lengthBound) {s : Form} (hs : Scanned s.bare)
    {p : Procedure} (h : procedure cx kind width s = .ok p) (o : SharingOptions) :
    (p.share o).Legible cx.modulus := by
  obtain ⟨-, rfl, -, hbody, -⟩ := procedure_eq_ok.1 h
  refine ⟨hwidth, ?_⟩
  exact body_legible_of_sublist hΓ hs (List.drop_sublist _ _) hbody o

/-! ## Sections -/

section

variable {all : List Form} {modulus : Nat} {constants : List Literal} {functions : List Function}
  {registers : RegisterSet} {t e : Procedure}

theorem scanned_of_sectionsOf (hall : ∀ f ∈ all, Scanned f.bare) (name : String) :
    ∀ s ∈ sectionsOf name all, Scanned s.bare :=
  fun s hs => hall s (List.mem_filter.1 hs).1

/-- The modulus is a number that was written in the text. -/
theorem Sectioned.modulus_bounds (h : Sectioned all modulus constants functions registers t e)
    (hall : ∀ f ∈ all, Scanned f.bare) : 3 ≤ modulus ∧ modulus < Token.intBound := by
  obtain ⟨f, hf, hfield⟩ := h.field
  obtain ⟨⟨x, hx⟩, hge⟩ := field_eq_ok.1 hfield
  have hscanned := scanned_of_sectionsOf hall "field" f (hf ▸ List.mem_singleton.2 rfl)
  refine ⟨hge, hscanned.int_lt modulus ?_⟩
  rw [hx, Sexp.kinds_list]
  simp [Sexp.kinds]

/-- Constants are below the modulus, and no larger than the section that they were read from. -/
theorem Sectioned.constants_sound (h : Sectioned all modulus constants functions registers t e)
    (hall : ∀ f ∈ all, Scanned f.bare) :
    ∀ c ∈ constants, Literal.Below modulus c ∧ c.shape.Writable := by
  intro c hc
  obtain ⟨f, hf, hliteral⟩ := exists_mem_right (constants_eq_iff.1 h.constants_eq).flip hc
  obtain ⟨hoperands, hproper, hbelow⟩ := literal_eq_ok.1 hliteral
  refine ⟨hbelow, Literal.writable hproper ?_⟩
  have hne : f.operands ≠ [] := by
    intro hnil
    rw [hnil] at hliteral
    cases hliteral
  have hscanned := scanned_of_sectionsOf hall "const" f hf
  rw [← hoperands]
  exact Nat.le_trans (length_kinds_le_of_sublist (List.tail_sublist _) hne) hscanned.size_le

/-- The induction is along the run: a function is legible since those that it may call are. -/
theorem Sectioned.functions_sound (h : Sectioned all modulus constants functions registers t e)
    (hall : ∀ f ∈ all, Scanned f.bare) :
    ∀ f ∈ functions, ∀ o, (f.share o).Legible modulus := by
  have hconstants := fun c hc => (h.constants_sound hall c hc).2
  refine (functions_eq_iff.1 h.functions_eq).invariant
    (P := fun fs => ∀ f ∈ fs, ∀ o, (f.share o).Legible modulus) ?_ (by simp)
  rintro s hs fs _ ⟨f, hf, rfl⟩ hfs g hg o
  rcases List.mem_append.1 hg with hg | hg
  · exact hfs g hg o
  · have hscanned := scanned_of_sectionsOf hall "function" s hs
    rw [List.mem_singleton.1 hg]
    exact function_legible hconstants (fun g hg => (hfs g hg {}).result) hscanned hf o

/-- The registers may be declared again, and the static row can be written. -/
theorem Sectioned.declarable (h : Sectioned all modulus constants functions registers t e)
    (hall : ∀ f ∈ all, Scanned f.bare) :
    registers.Declarable modulus ∧ ∀ n ∈ registers.row?, n < Shape.lengthBound := by
  rcases h.static with ⟨-, rfl⟩ | ⟨s, hs, hregisters⟩
  · exact ⟨⟨trivial, by simp [RegisterSet.empty], rfl⟩,
      by simp [RegisterSet.row?, RegisterSet.empty, RegisterSet.size]⟩
  · have hscanned := scanned_of_sectionsOf hall "static" s (hs ▸ List.mem_singleton.2 rfl)
    refine ⟨registers_sound hscanned.seeded hregisters, fun n hn => ?_⟩
    have hsize := (registers_admissible hregisters).1
    unfold RegisterSet.row? at hn
    split at hn
    · cases hn
    next hpos =>
    obtain rfl := Option.some.inj hn
    -- a set that is not empty has no more registers than its section has tokens
    have hne : s.operands ≠ [] := by
      intro hnil
      rw [hnil] at hsize
      exact hpos hsize
    have hle := length_kinds_le_of_sublist (List.tail_sublist s.items) hne
    have hitems := Sexp.length_le_length_flatMap_kinds (s.items.tail.map bare)
    have hbound := hscanned.size_le
    rw [Sexp.length_kinds_list] at hle
    rw [List.length_map] at hitems
    rw [hsize]
    show s.items.tail.length < _
    omega

/-- **An accepted module is legible after sharing.** -/
theorem Sectioned.legible (h : Sectioned all modulus constants functions registers t e)
    (hall : ∀ f ∈ all, Scanned f.bare) (o : SharingOptions) :
    (t.share o).Legible modulus ∧ (e.share o).Legible modulus := by
  obtain ⟨tf, htf, htheader, htproc⟩ := h.transition
  obtain ⟨ef, hef, heheader, heproc⟩ := h.evaluation
  have hconstants := fun c hc => (h.constants_sound hall c hc).2
  have hresults : ∀ f ∈ functions, f.result.Writable := fun f hf =>
    (h.functions_sound hall f hf {}).result
  have hscope : ∀ span, (Scope.procedure span t.width registers.row?).Writable := fun _ =>
    ⟨(header_sound htheader).2.2, (h.declarable hall).2⟩
  have hΓ : ∀ span, (Context.mk modulus constants functions
      (.procedure span t.width registers.row?) .trap).env.Writable := fun span =>
    Context.writable_env (fun h => (by cases h)) hconstants hresults (hscope span)
  have htscanned := scanned_of_sectionsOf hall "transition" tf (htf ▸ List.mem_singleton.2 rfl)
  have hescanned := scanned_of_sectionsOf hall "evaluation" ef (hef ▸ List.mem_singleton.2 rfl)
  exact ⟨procedure_legible (hΓ 1) (header_sound htheader).2.2 htscanned htproc o,
    procedure_legible (hΓ 2) (header_sound heheader).2.2 hescanned heproc o⟩

end

end Grammar

end Arithmetization
