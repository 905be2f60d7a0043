import Arithmetization.Proofs.Rendering
import Arithmetization.Proofs.LegibleModules

/-!
Forms of a schema are accepted.

A part that was written in its canonical form is read back as the part it was written from, up to
nodes of its body that nothing uses (`Function.Same`, `Procedure.Same`). Section by section this
gives a draft of the whole schema (`Grammar.sections_accepted`). The procedures may be written in
any form that denotes them (`Grammar.ProcedureForm`), of which the canonical one is an instance.
-/

set_option autoImplicit false

namespace Arithmetization

/-! ## Parts that agree -/

/-- Functions that differ at most in the nodes that their bodies do not use. -/
structure Function.Same (f g : Function) : Prop where
  params_eq : f.params = g.params
  result_eq : f.result = g.result
  block_eq : f.body.block = g.body.block

/-- Procedures that differ at most in the nodes that their bodies do not use. -/
structure Procedure.Same (p q : Procedure) : Prop where
  kind_eq : p.kind = q.kind
  width_eq : p.width = q.width
  block_eq : p.body.block = q.body.block

theorem Procedure.Same.sexp_eq {p q : Procedure} (h : p.Same q) : p.sexp = q.sexp := by
  rw [sexp, sexp, h.kind_eq, h.width_eq, h.block_eq]

theorem map_signature_of_same {fs gs : List Function} (h : List.Forall₂ Function.Same fs gs) :
    fs.map Function.signature = gs.map Function.signature := by
  induction h with
  | nil => rfl
  | cons hfg _ ih =>
    rw [List.map_cons, List.map_cons, ih, Function.signature, hfg.params_eq, hfg.result_eq]
    rfl

namespace Grammar

open Form

/-! ## Forms of parts are accepted -/

theorem Denotes.head_ne_param {cx : Context} {ρ : List (Option Shape)} {x : Sexp} {e : Expr}
    (h : Denotes cx ρ x e) (ys : List Sexp) : x ≠ .list (.sym "param" :: ys) := by
  cases h with
  | number _ => simp
  | @node op s xs args _ _ _ =>
    cases op with
    | literal value => cases value <;> simp [Op.sexps, Literal.sexps]
    | load source i => cases source <;> simp [Op.sexps, Source.keyword]
    | binary op => cases op <;> simp [Op.sexps, BinaryOp.keyword]
    | unary op => cases op <;> simp [Op.sexps, UnaryOp.keyword]
    | _ => simp [Op.sexps]

/-- No statement of a body looks like the declaration of a parameter. -/
theorem DenotesBlock.head_ne_param {cx : Context} {xs : List Sexp} {b : Block}
    (h : DenotesBlock cx xs b) {x : Sexp} (hx : x ∈ xs) (ys : List Sexp) :
    x ≠ .list (.sym "param" :: ys) := by
  have hstatements : ∀ {xs : List Sexp} {p : Progress}, Statements cx xs p → ∀ x ∈ xs,
      x ≠ .list (.sym "param" :: ys) := by
    intro xs p h
    induction h with
    | nil => simp
    | declare _ _ ih =>
      rw [List.forall_mem_append, List.forall_mem_singleton]
      exact ⟨ih, by simp⟩
    | store _ _ _ _ ih =>
      rw [List.forall_mem_append, List.forall_mem_singleton]
      exact ⟨ih, by simp⟩
  cases h with
  | result hxs he =>
    rcases List.mem_append.1 hx with hx | hx
    · exact hstatements hxs x hx
    · rw [List.mem_singleton.1 hx]
      exact he.head_ne_param ys

theorem body_accepted {cx : Context} {xs : List Sexp} {blk : Block} (h : DenotesBlock cx xs blk)
    {s : Shape} (hchecks : blk.Checks cx.env s) (pos : Position) {items : List Form}
    (hitems : items.map bare = xs) :
    ∃ b, body cx pos items = .ok b ∧ b.block = blk ∧ b.resultShape = s := by
  obtain ⟨b, hb, rfl⟩ := h.accepted pos hitems
  exact ⟨b, hb, rfl, Except.ok.inj ((body_checks hb).checks.symm.trans hchecks.checks)⟩

theorem procedure_accepted {cx : Context} {kind : ProcedureKind} {s : Form} {xs : List Sexp}
    {p : Procedure}
    (hs : s.bare = .list (.sym kind.keyword :: .list [.sym "span", .int kind.span]
      :: .list [.sym "result", .sym "vector", .int p.width] :: xs))
    (hkind : p.kind = kind) (hpos : 0 < p.width) (hdenotes : DenotesBlock cx xs p.body.block)
    (hchecks : p.body.block.Checks cx.env (.vector p.width)) :
    ∃ q, procedure cx kind p.width s = .ok q ∧ q.Same p := by
  obtain ⟨items, pos, rfl, hitems⟩ := bare_eq_list.1 hs
  have hbody : (items.drop 3).map bare = xs := by
    rw [List.map_drop, hitems]
    rfl
  obtain ⟨b, hb, hblock, hshape⟩ := body_accepted hdenotes hchecks pos hbody
  exact ⟨⟨kind, p.width, b⟩, procedure_eq_ok.2 ⟨rfl, rfl, hpos, hb, hshape⟩, hkind.symm, rfl,
    hblock⟩

theorem types_accepted {name : String} {fs : List Form} {ts : List Shape}
    (hfs : fs.map bare = ts.map (Shape.clause name)) (hts : ∀ t ∈ ts, t.Writable) :
    fs.mapM (fun f => type f.pos f.operands) = .ok ts := by
  rw [mapM_eq_ok]
  induction ts generalizing fs with
  | nil =>
    rw [List.map_eq_nil_iff.1 hfs]
    exact .nil
  | cons t ts ih =>
    obtain ⟨f, rest, rfl, hf, hrest⟩ := List.map_eq_cons_iff.1 hfs
    obtain ⟨p, args, pos, rfl, hargs⟩ := bare_eq_clause.1 hf
    rw [List.forall_mem_cons] at hts
    exact .cons (type_eq_ok.2 ⟨hargs, hts.1⟩) (ih hrest hts.2)

/-- A list falls apart where the first item without a property stands. -/
theorem takeWhile_dropWhile_append {α : Type} {p : α → Bool} {xs ys : List α}
    (hxs : ∀ x ∈ xs, p x = true) (hys : ∀ y ∈ ys.head?, p y = false) :
    (xs ++ ys).takeWhile p = xs ∧ (xs ++ ys).dropWhile p = ys := by
  rw [List.takeWhile_append_of_pos hxs, List.dropWhile_append_of_pos hxs]
  cases ys with
  | nil => exact ⟨List.append_nil _, rfl⟩
  | cons y ys =>
    have hy : ¬ p y = true := by simp [hys y rfl]
    rw [List.takeWhile_cons_of_neg hy, List.dropWhile_cons_of_neg hy, List.append_nil]
    exact ⟨rfl, rfl⟩

theorem function_accepted {modulus : Nat} {constants : List Literal} {functions : List Function}
    {s : Form} {xs : List Sexp} {f : Function}
    (hs : s.bare = .list (.sym "function" :: f.result.clause "result"
      :: (f.params.map (Shape.clause "param") ++ xs)))
    (hresult : f.result.Writable) (hparams : ∀ p ∈ f.params, p.Writable)
    (hdenotes : DenotesBlock ⟨modulus, constants, functions, .function f.params, .trap⟩ xs
      f.body.block)
    (hchecks : f.body.block.Checks
      (Context.mk modulus constants functions (.function f.params) .trap).env f.result) :
    ∃ g, function modulus constants functions s = .ok g ∧ g.Same f := by
  obtain ⟨p, args, pos, rfl, hargs⟩ := bare_eq_clause.1 hs
  obtain ⟨r, rest, rfl, hr, hrest⟩ := List.map_eq_cons_iff.1 hargs
  obtain ⟨q, rargs, rpos, rfl, hrargs⟩ := bare_eq_clause.1 hr
  obtain ⟨ps, items, rfl, hps, hitems⟩ := List.map_eq_append_iff.1 hrest
  have hisParam : ∀ g ∈ ps, isParam g = true := by
    intro g hg
    have hmem : g.bare ∈ f.params.map (Shape.clause "param") := hps ▸ List.mem_map_of_mem hg
    obtain ⟨t, -, ht⟩ := List.mem_map.1 hmem
    obtain ⟨_, _, _, rfl, -⟩ := bare_eq_clause.1 ht.symm
    rfl
  -- the parameters end where the body starts: no statement looks like one
  have hstop : ∀ g ∈ items.head?, isParam g = false := by
    intro g hg
    by_contra hparam
    have hhead : g.head? = some "param" := of_decide_eq_true (eq_true_of_ne_false hparam)
    obtain ⟨_, gargs, _, rfl⟩ := head?_eq_some.1 hhead
    have hmem := List.mem_map_of_mem (f := bare) (List.mem_of_mem_head? hg)
    rw [hitems] at hmem
    refine hdenotes.head_ne_param hmem (gargs.map bare) ?_
    rw [bare_list]
    rfl
  obtain ⟨htake, hdrop⟩ := takeWhile_dropWhile_append hisParam hstop
  obtain ⟨b, hb, hblock, hshape⟩ := body_accepted hdenotes hchecks pos hitems
  refine ⟨⟨f.params, f.result, b⟩, function_eq_ok.2 ⟨_, _, rfl, rfl, type_eq_ok.2 ⟨hrargs, hresult⟩,
    ?_, ?_, hshape⟩, rfl, rfl, hblock⟩
  · rw [htake]
    exact types_accepted hps hparams
  · rw [hdrop]
    exact hb

theorem constants_accepted {modulus : Nat} {fs : List Form} {cs : List Literal}
    (hfs : fs.map bare = cs.map fun c => .list (.sym "const" :: Literal.sexps c))
    (hcs : ∀ c ∈ cs, c.isProper = true ∧ Literal.Below modulus c) :
    fs.foldl (constantStep modulus) ([], []) = (cs, []) := by
  rw [constants_eq_iff]
  induction cs generalizing fs with
  | nil =>
    obtain rfl := List.map_eq_nil_iff.1 hfs
    exact .nil
  | cons c cs ih =>
    obtain ⟨f, rest, rfl, hf, hrest⟩ := List.map_eq_cons_iff.1 hfs
    obtain ⟨p, args, pos, rfl, hargs⟩ := bare_eq_clause.1 hf
    rw [List.forall_mem_cons] at hcs
    exact .cons (literal_eq_ok.2 ⟨hargs, hcs.1⟩) (ih hrest hcs.2)

theorem functions_accepted {modulus : Nat} {constants : List Literal}
    {functions : List Function} (hchecks : FunctionsCheck constants functions)
    (hlegible : ∀ f ∈ functions, f.Legible modulus) {ss : List Form}
    (hss : ss.map bare = functions.map Function.sexp) :
    ∃ fs, Runs (AddsFunction modulus constants) [] ss fs
      ∧ List.Forall₂ Function.Same fs functions := by
  induction functions using List.reverseRecOn generalizing ss with
  | nil =>
    obtain rfl := List.map_eq_nil_iff.1 hss
    exact ⟨[], .nil _, .nil⟩
  | append_singleton functions f ih =>
    rw [List.map_append] at hss
    obtain ⟨ss, last, rfl, hinit, hlast⟩ := List.map_eq_append_iff.1 hss
    obtain ⟨s, rfl, hs⟩ := List.map_eq_singleton_iff.1 hlast
    rw [List.forall_mem_append, List.forall_mem_singleton] at hlegible
    obtain ⟨hfunctions, hf⟩ := hlegible
    obtain ⟨fs, hfs, hsame⟩ := ih hchecks.init hfunctions hinit
    -- the functions read so far have the signatures of those that were written
    have hblock : f.body.block.Checks
        (Context.mk modulus constants fs (.function f.params) .trap).env f.result := by
      rw [Context.env, map_signature_of_same hsame]
      exact hchecks.last
    obtain ⟨hdenotes, -⟩ := hblock.denotes hf.body.block hf.body.bound
    obtain ⟨g, hg, hgf⟩ := function_accepted hs hf.result hf.params hdenotes hblock
    exact ⟨fs ++ [g], hfs.snoc ⟨g, hg, rfl⟩, List.rel_append hsame (.cons hgf .nil)⟩

end Grammar

/-! ## Sections by their heads -/

theorem filter_head? (head : String) {xs : List Sexp} (h : ∀ x ∈ xs, x.head? = some head)
    (name : String) :
    xs.filter (fun x => x.head? = some name) = if head = name then xs else [] := by
  split
  · next heq =>
    subst heq
    rw [List.filter_eq_self]
    intro x hx
    simp [h x hx]
  · next hne =>
    rw [List.filter_eq_nil_iff]
    intro x hx
    simp [h x hx, hne]

theorem RegisterSet.head?_sexps {set : RegisterSet} : ∀ x ∈ set.sexps, x.head? = some "static" := by
  unfold RegisterSet.sexps
  split
  · simp
  · simp [Sexp.head?]

section

variable {modulus : Nat} {constants : List Literal} {functions : List Function}
  {registers : RegisterSet} {tx ex : Sexp}

/-- The sections of one kind. -/
theorem filter_moduleSexps (ht : tx.head? = some "transition") (he : ex.head? = some "evaluation")
    (name : String) :
    (moduleSexps modulus constants functions registers tx ex).filter
        (fun x => x.head? = some name)
      = (if "field" = name then [.list [.sym "field", .sym "prime", .int modulus]] else [])
        ++ ((if "const" = name then
              constants.map fun c => .list (.sym "const" :: Literal.sexps c) else [])
          ++ (if "function" = name then functions.map Function.sexp else [])
          ++ (if "static" = name then registers.sexps else [])
          ++ ((if "transition" = name then [tx] else [])
            ++ (if "evaluation" = name then [ex] else []))) := by
  have hsplit : moduleSexps modulus constants functions registers tx ex
      = [.list [.sym "field", .sym "prime", .int modulus]]
        ++ (constants.map (fun c => .list (.sym "const" :: Literal.sexps c))
          ++ functions.map Function.sexp ++ registers.sexps ++ ([tx] ++ [ex])) := rfl
  rw [hsplit]
  simp only [List.filter_append]
  rw [filter_head? "field", filter_head? "const", filter_head? "function",
    filter_head? "static" RegisterSet.head?_sexps, filter_head? "transition",
    filter_head? "evaluation"]
  · simpa using he
  · simpa using ht
  · simp [Function.sexp, Sexp.head?]
  · simp [Sexp.head?]
  · simp [Sexp.head?]

theorem head?_of_mem_moduleSexps (ht : tx.head? = some "transition")
    (he : ex.head? = some "evaluation") {x : Sexp}
    (hx : x ∈ moduleSexps modulus constants functions registers tx ex) :
    ∃ name ∈ Grammar.sectionNames, x.head? = some name := by
  simp only [moduleSexps, List.mem_cons, List.mem_append, List.mem_map, List.not_mem_nil,
    or_false] at hx
  rcases hx with rfl | ((⟨c, -, rfl⟩ | ⟨f, -, rfl⟩) | hx) | rfl | rfl
  · exact ⟨"field", by decide, rfl⟩
  · exact ⟨"const", by decide, rfl⟩
  · exact ⟨"function", by decide, rfl⟩
  · exact ⟨"static", by decide, RegisterSet.head?_sexps x hx⟩
  · exact ⟨"transition", by decide, ht⟩
  · exact ⟨"evaluation", by decide, he⟩

end

namespace Grammar

open Form

theorem isSection_of_bare {f : Form} {name : String} (hname : name ∈ sectionNames)
    (h : f.bare.head? = some name) : isSection f = true := by
  rw [isSection, ← head?_bare, h]
  exact List.contains_iff_mem.2 hname

/-! ## Modules are accepted -/

/-- A form of a procedure: a header, and statements that denote its block. -/
structure ProcedureForm (modulus : Nat) (Γ : Env) (kind : ProcedureKind) (x : Sexp)
    (p : Procedure) : Prop where
  kind_eq : p.kind = kind
  width_pos : 0 < p.width
  width_lt : p.width < Shape.lengthBound
  checks : p.body.block.Checks Γ (.vector p.width)
  form : ∃ xs, x = .list (.sym kind.keyword :: .list [.sym "span", .int kind.span]
      :: .list [.sym "result", .sym "vector", .int p.width] :: xs)
    ∧ ∀ cx : Context, cx.modulus = modulus → cx.env = Γ → DenotesBlock cx xs p.body.block

namespace ProcedureForm

variable {modulus : Nat} {Γ : Env} {kind : ProcedureKind} {x : Sexp} {p : Procedure}

theorem head? (h : ProcedureForm modulus Γ kind x p) : x.head? = some kind.keyword := by
  obtain ⟨xs, rfl, -⟩ := h.form
  rfl

theorem accepted (h : ProcedureForm modulus Γ kind x p) {cx : Context}
    (hmodulus : cx.modulus = modulus) (henv : cx.env = Γ) {s : Form} (hs : s.bare = x) :
    header kind s = .ok p.width ∧ ∃ q, procedure cx kind p.width s = .ok q ∧ q.Same p := by
  obtain ⟨xs, hx, hdenotes⟩ := h.form
  rw [hx] at hs
  exact ⟨header_accepted hs h.width_pos h.width_lt,
    procedure_accepted hs h.kind_eq h.width_pos (hdenotes cx hmodulus henv) (henv ▸ h.checks)⟩

/-- The canonical form of a procedure is one of its forms. -/
theorem of_legible (hkind : p.kind = kind) (hpos : 0 < p.width) (hlegible : p.Legible modulus)
    (hchecks : p.body.block.Checks Γ (.vector p.width)) :
    ProcedureForm modulus Γ kind p.sexp p := by
  subst hkind
  refine ⟨rfl, hpos, hlegible.width_lt, hchecks, _, rfl, ?_⟩
  rintro cx rfl rfl
  exact (hchecks.denotes hlegible.body.block hlegible.body.bound).1

end ProcedureForm

end Grammar

/-- A draft of the parts of a schema: all of them agree, up to the nodes that no body uses. -/
structure Draft.Restores (d : Draft) (s : Schema) : Prop where
  modulus_eq : d.modulus = s.modulus
  constants_eq : d.constants = s.constants
  registers_eq : d.registers = s.registers
  functions : List.Forall₂ Function.Same d.functions s.functions
  transition : ∃ p, d.transition = some p ∧ p.Same s.transition
  evaluation : ∃ p, d.evaluation = some p ∧ p.Same s.evaluation

/-- The parts of a schema can be declared, its procedures with the given forms. -/
structure Schema.Declarable (s : Schema) (tx ex : Sexp) : Prop where
  modulus_ge : 3 ≤ s.modulus
  constants : ∀ c ∈ s.constants, c.isProper = true ∧ Literal.Below s.modulus c
  checked : FunctionsCheck s.constants s.functions
  functions : ∀ f ∈ s.functions, f.Legible s.modulus
  registers : s.registers.Declarable s.modulus
  transition : Grammar.ProcedureForm s.modulus ⟨s.constants, s.functions.map Function.signature,
    .procedure 1 s.transition.width s.registers.row?, .trap⟩ .transition tx s.transition
  evaluation : Grammar.ProcedureForm s.modulus ⟨s.constants, s.functions.map Function.signature,
    .procedure 2 s.transition.width s.registers.row?, .trap⟩ .evaluation ex s.evaluation

namespace Grammar

open Form

/-- Each section of a module form is found under its name. -/
theorem map_bare_sectionsOf_module {modulus : Nat} {constants : List Literal}
    {functions : List Function} {registers : RegisterSet} {tx ex : Sexp}
    (ht : tx.head? = some "transition") (he : ex.head? = some "evaluation") {all : List Form}
    (hall : all.map bare = moduleSexps modulus constants functions registers tx ex) :
    (sectionsOf "field" all).map bare = [.list [.sym "field", .sym "prime", .int modulus]]
      ∧ (sectionsOf "const" all).map bare
          = constants.map (fun c => .list (.sym "const" :: Literal.sexps c))
      ∧ (sectionsOf "function" all).map bare = functions.map Function.sexp
      ∧ (sectionsOf "static" all).map bare = registers.sexps
      ∧ (sectionsOf "transition" all).map bare = [tx]
      ∧ (sectionsOf "evaluation" all).map bare = [ex] := by
  simp only [map_bare_sectionsOf, hall, filter_moduleSexps ht he]
  simp

/-- **A form with the sections of a schema is accepted.** -/
theorem sections_accepted {s : Schema} {tx ex : Sexp} (h : s.Declarable tx ex) (pos : Position)
    {all : List Form} (hall : all.map bare
      = moduleSexps s.modulus s.constants s.functions s.registers tx ex) :
    ∃ d, sections pos all = .ok d ∧ d.Restores s := by
  obtain ⟨hfield, hconst, hfunction, hstatic, htransition, hevaluation⟩ :=
    map_bare_sectionsOf_module h.transition.head? h.evaluation.head? hall
  obtain ⟨ff, hff, hfbare⟩ := List.map_eq_singleton_iff.1 hfield
  obtain ⟨tf, htf, htbare⟩ := List.map_eq_singleton_iff.1 htransition
  obtain ⟨ef, hef, hebare⟩ := List.map_eq_singleton_iff.1 hevaluation
  have hconstants : (sectionsOf "const" all).foldl (constantStep s.modulus) ([], [])
      = (s.constants, []) := constants_accepted hconst h.constants
  obtain ⟨fs, hfs, hsame⟩ := functions_accepted h.checked h.functions hfunction
  -- functions that were read again have the signatures that the procedures were checked with
  have henv : ∀ span, (Context.mk s.modulus s.constants fs
      (.procedure span s.transition.width s.registers.row?) .trap).env
        = ⟨s.constants, s.functions.map Function.signature,
            .procedure span s.transition.width s.registers.row?, .trap⟩ := fun span => by
    rw [Context.env, map_signature_of_same hsame]
  obtain ⟨htheader, t, ht, htsame⟩ := h.transition.accepted rfl (henv 1) htbare
  obtain ⟨heheader, e, he, hesame⟩ := h.evaluation.accepted rfl (henv 2) hebare
  refine ⟨⟨s.modulus, s.constants, fs, s.registers, some t, some e⟩,
    Sectioned.sections ?_ rfl rfl pos, rfl, rfl, rfl, hsame, ⟨t, rfl, htsame⟩, ⟨e, rfl, hesame⟩⟩
  refine ⟨?_, ⟨ff, hff, field_eq_ok.2 ⟨⟨_, hfbare⟩, h.modulus_ge⟩⟩, hconstants,
    functions_eq_iff.2 hfs, ?_, ?_, ?_⟩
  · intro f hf
    have hmem : f.bare ∈ moduleSexps s.modulus s.constants s.functions s.registers tx ex :=
      hall ▸ List.mem_map_of_mem hf
    obtain ⟨name, hname, hhead⟩ :=
      head?_of_mem_moduleSexps h.transition.head? h.evaluation.head? hmem
    exact isSection_of_bare hname hhead
  · unfold RegisterSet.sexps at hstatic
    split at hstatic
    · next hempty =>
      have hnil : s.registers.registers = [] := List.isEmpty_iff.1 hempty
      refine .inl ⟨List.map_eq_nil_iff.1 hstatic, ?_⟩
      show s.registers = ⟨[]⟩
      rw [← hnil]
    · obtain ⟨sf, hsf, hsbare⟩ := List.map_eq_singleton_iff.1 hstatic
      obtain ⟨p, args, q, rfl, hargs⟩ := bare_eq_clause.1 hsbare
      exact .inr ⟨_, hsf, registers_accepted h.registers hargs⟩
  · rw [htsame.width_eq]
    exact ⟨tf, htf, htheader, ht⟩
  · rw [htsame.width_eq, hesame.width_eq]
    exact ⟨ef, hef, heheader, he⟩

end Grammar

end Arithmetization
