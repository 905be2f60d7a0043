import Arithmetization.Proofs.Sections
import Arithmetization.Proofs.Statements

/-!
The grammar of modules.

Everything outside expressions is written in one of a few ways: types, literals, declarations of
registers, statements, headers and sections. The productions below say which, and a module is made
of one field, constants, functions, at most one list of registers, one transition and one
evaluation, in any order.

An accepted module is made like this but for one thing (`Grammar.parse_conforms`): in the header of
a procedure anything may follow the number in the clause `(span n)`. It is a module of the grammar
exactly if nothing does.
-/

set_option autoImplicit false

namespace Arithmetization.Grammar

open Form

/-! ## Productions -/

/-- `scalar`, `vector n` or `matrix r c`. -/
inductive IsType : List Sexp → Prop
  | scalar : IsType [.sym "scalar"]
  | vector (n : Nat) : IsType [.sym "vector", .int n]
  | matrix (r c : Nat) : IsType [.sym "matrix", .int r, .int c]

/-- `scalar v`, `vector v+` or `matrix (v+)+`. -/
inductive IsConstant : List Sexp → Prop
  | scalar (v : Nat) : IsConstant [.sym "scalar", .int v]
  | vector {vs : List Nat} (hvs : vs ≠ []) : IsConstant (.sym "vector" :: vs.map .int)
  | matrix {rows : List (List Nat)} (hne : rows ≠ []) (hrows : ∀ row ∈ rows, row ≠ []) :
      IsConstant (.sym "matrix" :: rows.map fun row => .list (row.map .int))

/-- `(input public|secret [binary] binding pattern)`, `(cycle ..)` or `(mask source value)`. -/
inductive IsRegister : Sexp → Prop
  | input (secret binary : Bool) {x y : Sexp} {r : Bool × Option Nat} {steps : Option Nat}
      (hx : Binding x r) (hy : Pattern y steps) :
      IsRegister (.list (.sym "input" :: .sym (if secret then "secret" else "public")
        :: ((if binary then [.sym "binary"] else []) ++ [x, y])))
  | cycle {xs : List Sexp} {source : CycleSource} (hxs : Cycle xs source) :
      IsRegister (.list (.sym "cycle" :: xs))
  | mask (source value : Nat) : IsRegister (.list [.sym "mask", .int source, .int value])

/-- An expression of some context. How expressions are written is left to `Denotes`. -/
def IsExpr (x : Sexp) : Prop :=
  ∃ cx ρ e, Denotes cx ρ x e

/-- `(local T)` or `(store.local i expr)`. -/
inductive IsStatement : Sexp → Prop
  | declare {ts : List Sexp} (hts : IsType ts) : IsStatement (.list (.sym "local" :: ts))
  | store (i : Nat) {x : Sexp} (hx : IsExpr x) : IsStatement (.list [.sym "store.local", .int i, x])

/-- Statements and a result. -/
inductive IsBody : List Sexp → Prop
  | mk {xs : List Sexp} {x : Sexp} (hxs : ∀ y ∈ xs, IsStatement y) (hx : IsExpr x) :
      IsBody (xs ++ [x])

/-- `(function (result T) (param T)* body)`. -/
inductive IsFunction : Sexp → Prop
  | mk {ts : List Sexp} {params body : List Sexp} (hts : IsType ts)
      (hparams : ∀ x ∈ params, ∃ ts, IsType ts ∧ x = .list (.sym "param" :: ts))
      (hbody : IsBody body) :
      IsFunction (.list (.sym "function" :: .list (.sym "result" :: ts) :: (params ++ body)))

/-- `(transition (span 1) (result vector n) body)` or `(evaluation (span 2) (result vector n) body)`
for a given way of writing the clause of the span. -/
inductive IsProcedure (span : Nat → Sexp → Prop) (kind : ProcedureKind) : Sexp → Prop
  | mk {x : Sexp} (width : Nat) {body : List Sexp} (hspan : span kind.span x)
      (hbody : IsBody body) :
      IsProcedure span kind (.list (.sym kind.keyword :: x
        :: .list [.sym "result", .sym "vector", .int width] :: body))

/-- A module: its sections, in any order. -/
inductive IsModule (span : Nat → Sexp → Prop) : Sexp → Prop
  | mk (m : Nat) {constants functions statics sections : List Sexp} {t e : Sexp}
      (hconstants : ∀ x ∈ constants, ∃ xs, IsConstant xs ∧ x = .list (.sym "const" :: xs))
      (hfunctions : ∀ x ∈ functions, IsFunction x) (hone : statics.length ≤ 1)
      (hstatics : ∀ x ∈ statics, ∃ xs, (∀ y ∈ xs, IsRegister y) ∧ x = .list (.sym "static" :: xs))
      (ht : IsProcedure span .transition t) (he : IsProcedure span .evaluation e)
      (hsections : sections.Perm (.list [.sym "field", .sym "prime", .int m]
        :: (constants ++ (functions ++ (statics ++ [t, e]))))) :
      IsModule span (.list (.sym "module" :: sections))

/-- The clause of a span as the grammar has it. -/
def Exactly (n : Nat) (x : Sexp) : Prop :=
  x = .list [.sym "span", .int n]

/-- A clause of a span that may go on after the number. -/
def AtLeast (n : Nat) (x : Sexp) : Prop :=
  ∃ extra, x = .list (.sym "span" :: .int n :: extra)

/-! ## Parts of sections -/

theorem bare_of_head? {f : Form} {name : String} (h : f.head? = some name) :
    f.bare = .list (.sym name :: f.operands.map bare) := by
  obtain ⟨p, args, pos, rfl⟩ := head?_eq_some.1 h
  rw [bare_list]
  rfl

theorem isType_sexps {s : Shape} (h : s.Writable) : IsType s.sexps := by
  rcases h.valid.cases with rfl | ⟨n, hn, rfl⟩ | ⟨r, c, hr, hc, rfl⟩
  · exact .scalar
  · rw [Shape.sexps_vector hn]
    exact .vector n
  · rw [Shape.sexps_matrix hr hc]
    exact .matrix r c

/-- A clause that holds a type. -/
theorem isType_of_clause {f : Form} {s : Shape} (h : type f.pos f.operands = .ok s) :
    IsType (f.operands.map bare) := by
  obtain ⟨hsexps, hwritable⟩ := type_eq_ok.1 h
  rw [hsexps]
  exact isType_sexps hwritable

theorem isConstant_sexps {value : Literal} (h : value.isProper = true) :
    IsConstant (Literal.sexps value) := by
  cases value with
  | scalar v => exact .scalar v
  | vector vs => exact .vector (by simpa [Literal.isProper] using h)
  | matrix rows =>
    simp only [Literal.isProper, Bool.and_eq_true, Bool.not_eq_true', bne_iff_ne, List.all_eq_true,
      beq_iff_eq] at h
    obtain ⟨⟨hne, hcols⟩, hrows⟩ := h
    refine .matrix (by simpa using hne) fun row hrow hnil => hcols ?_
    rw [← hrows row hrow, hnil]
    rfl

theorem Declaration.isRegister {b b' : RegisterBuilder} {x : Sexp} (h : Declaration b x b') :
    IsRegister x := by
  cases h with
  | input hx hy _ => exact .input _ _ hx hy
  | cycle hxs _ => exact .cycle hxs
  | mask _ _ _ => exact .mask _ _

theorem Statements.isStatement {cx : Context} {xs : List Sexp} {p : Progress}
    (h : Statements cx xs p) : ∀ x ∈ xs, IsStatement x := by
  induction h with
  | nil => simp
  | declare _ hs ih =>
    intro x hx
    rcases List.mem_append.1 hx with hx | hx
    · exact ih x hx
    · rw [List.mem_singleton.1 hx]
      exact .declare (isType_sexps hs)
  | store _ _ he _ ih =>
    intro x hx
    rcases List.mem_append.1 hx with hx | hx
    · exact ih x hx
    · rw [List.mem_singleton.1 hx]
      exact .store _ ⟨cx, _, _, he⟩

theorem DenotesBlock.isBody {cx : Context} {xs : List Sexp} {b : Block} (h : DenotesBlock cx xs b) :
    IsBody xs := by
  cases h with
  | result hstatements he => exact .mk hstatements.isStatement ⟨cx, _, _, he⟩

theorem isFunction_of_ok {modulus : Nat} {constants : List Literal} {functions : List Function}
    {s : Form} (hhead : s.head? = some "function") {f : Function}
    (h : function modulus constants functions s = .ok f) : IsFunction s.bare := by
  obtain ⟨result, rest, hoperands, hresult, htype, hparams, hbody, -⟩ := function_eq_ok.1 h
  rw [bare_of_head? hhead, hoperands, List.map_cons, bare_of_head? hresult,
    ← List.takeWhile_append_dropWhile (p := isParam) (l := rest), List.map_append]
  refine .mk (isType_of_clause htype) ?_ (body_denotes hbody).isBody
  intro x hx
  obtain ⟨p, hp, rfl⟩ := List.mem_map.1 hx
  have hisParam : isParam p = true := List.mem_takeWhile_imp hp
  have hparam : p.head? = some "param" := of_decide_eq_true hisParam
  obtain ⟨s, -, hs⟩ := ok_of_mem_of_mapM hparams hp
  exact ⟨_, isType_of_clause hs, bare_of_head? hparam⟩

theorem isProcedure_of_ok {cx : Context} {kind : ProcedureKind} {s : Form}
    (hhead : s.head? = some kind.keyword) {width : Nat} (hheader : header kind s = .ok width)
    {p : Procedure} (h : procedure cx kind width s = .ok p) : IsProcedure AtLeast kind s.bare := by
  obtain ⟨⟨x, extra, rest, hs⟩, -⟩ := header_eq_ok.1 hheader
  obtain ⟨-, -, -, hbody, -⟩ := procedure_eq_ok.1 h
  obtain ⟨items, pos, rfl, hitems⟩ := bare_eq_list.1 hs
  have hrest : (items.drop 3).map bare = rest := by
    rw [List.map_drop, hitems]
    rfl
  have hx : x = .sym kind.keyword := by
    have hbare := bare_of_head? hhead
    rw [hs, Sexp.list.injEq, List.cons.injEq] at hbare
    exact hbare.1
  rw [hs, hx]
  exact .mk width ⟨extra, rfl⟩ (hrest ▸ (body_denotes hbody).isBody)

/-! ## Modules -/

/-- A list falls apart into its parts by key. -/
theorem perm_flatMap_filter {α : Type} {key : α → Option String} {names : List String}
    (hnames : names.Nodup) {xs : List α} (h : ∀ x ∈ xs, ∃ name ∈ names, key x = some name) :
    xs.Perm (names.flatMap fun name => xs.filter fun x => key x = some name) := by
  induction names generalizing xs with
  | nil =>
    have hnil : xs = [] := by
      refine List.eq_nil_iff_forall_not_mem.2 fun x hx => ?_
      obtain ⟨name, hname, -⟩ := h x hx
      cases hname
    rw [hnil]
    exact .nil
  | cons name names ih =>
    rw [List.nodup_cons] at hnames
    -- the items with another key have one of the other names
    have hothers : ∀ x ∈ xs.filter fun x => !decide (key x = some name),
        ∃ name' ∈ names, key x = some name' := by
      intro x hx
      obtain ⟨hmem, hkey⟩ := List.mem_filter.1 hx
      obtain ⟨name', hname', hx'⟩ := h x hmem
      rcases List.mem_cons.1 hname' with rfl | hname'
      · simp [hx'] at hkey
      · exact ⟨name', hname', hx'⟩
    have hrest := ih hnames.2 hothers
    have hfilter : (names.flatMap fun name' =>
        (xs.filter fun x => !decide (key x = some name)).filter fun x => key x = some name')
          = names.flatMap fun name' => xs.filter fun x => key x = some name' := by
      refine List.flatMap_congr fun name' hname' => ?_
      rw [List.filter_filter]
      refine List.filter_congr fun x _ => ?_
      by_cases hx : key x = some name'
      · have hne : name' ≠ name := fun heq => hnames.1 (heq ▸ hname')
        simp [hx, hne]
      · simp [hx]
    rw [hfilter] at hrest
    rw [List.flatMap_cons]
    exact (List.filter_append_perm _ xs).symm.trans (hrest.append_left _)

/-- The sections of an accepted module, kind by kind. -/
theorem perm_sections {all : List Form} (h : ∀ f ∈ all, isSection f = true) :
    (all.map bare).Perm (sectionNames.flatMap fun name => (sectionsOf name all).map bare) := by
  have hkeys : ∀ x ∈ all.map bare, ∃ name ∈ sectionNames, x.head? = some name := by
    intro x hx
    obtain ⟨f, hf, rfl⟩ := List.mem_map.1 hx
    have hknown := h f hf
    unfold isSection at hknown
    split at hknown
    · next name hname => exact ⟨name, List.contains_iff_mem.1 hknown, by rw [head?_bare, hname]⟩
    · cases hknown
  have hperm := perm_flatMap_filter (by decide) hkeys
  rwa [List.flatMap_congr fun name _ => (map_bare_sectionsOf name all).symm] at hperm

theorem head?_of_mem_sectionsOf {name : String} {all : List Form} {f : Form}
    (h : f ∈ sectionsOf name all) : f.head? = some name :=
  of_decide_eq_true (List.mem_filter.1 h).2

section

variable {all : List Form} {modulus : Nat} {constants : List Literal} {functions : List Function}
  {registers : RegisterSet} {t e : Procedure}

theorem Sectioned.isConstant (h : Sectioned all modulus constants functions registers t e) :
    ∀ x ∈ (sectionsOf "const" all).map bare,
      ∃ xs, IsConstant xs ∧ x = .list (.sym "const" :: xs) := by
  intro x hx
  obtain ⟨f, hf, rfl⟩ := List.mem_map.1 hx
  obtain ⟨value, -, hvalue⟩ := exists_mem_right (constants_eq_iff.1 h.constants_eq) hf
  obtain ⟨hsexps, hproper, -⟩ := literal_eq_ok.1 hvalue
  refine ⟨_, isConstant_sexps hproper, ?_⟩
  rw [bare_of_head? (head?_of_mem_sectionsOf hf), hsexps]

theorem Sectioned.isFunction (h : Sectioned all modulus constants functions registers t e) :
    ∀ x ∈ (sectionsOf "function" all).map bare, IsFunction x := by
  intro x hx
  obtain ⟨f, hf, rfl⟩ := List.mem_map.1 hx
  obtain ⟨_, _, fn, hfn, -⟩ := (functions_eq_iff.1 h.functions_eq).exists_next f hf
  exact isFunction_of_ok (head?_of_mem_sectionsOf hf) hfn

theorem Sectioned.isStatic (h : Sectioned all modulus constants functions registers t e) :
    ∀ x ∈ (sectionsOf "static" all).map bare,
      ∃ xs, (∀ y ∈ xs, IsRegister y) ∧ x = .list (.sym "static" :: xs) := by
  intro x hx
  obtain ⟨f, hf, rfl⟩ := List.mem_map.1 hx
  refine ⟨_, ?_, bare_of_head? (head?_of_mem_sectionsOf hf)⟩
  obtain ⟨hnone, -⟩ | ⟨g, hg, hregisters⟩ := h.static
  · rw [hnone] at hf
    cases hf
  · rw [hg] at hf
    obtain rfl := List.mem_singleton.1 hf
    obtain ⟨b, -, hrun⟩ := registers_eq_ok.1 hregisters
    intro y hy
    obtain ⟨r, hr, rfl⟩ := List.mem_map.1 hy
    obtain ⟨_, _, hregister⟩ := hrun.exists_next r hr
    exact (register_eq_ok.1 hregister).isRegister

/-- **The sections of a module that is accepted** are those of the grammar, except for what may
follow the number in a span. -/
theorem Sectioned.isModule (h : Sectioned all modulus constants functions registers t e) :
    IsModule AtLeast (.list (.sym "module" :: all.map bare)) := by
  obtain ⟨ff, hff, hfield⟩ := h.field
  obtain ⟨tf, htf, htheader, htproc⟩ := h.transition
  obtain ⟨ef, hef, heheader, heproc⟩ := h.evaluation
  have hfhead : ff.head? = some "field" := head?_of_mem_sectionsOf (hff ▸ List.mem_singleton.2 rfl)
  have hthead : tf.head? = some "transition" :=
    head?_of_mem_sectionsOf (htf ▸ List.mem_singleton.2 rfl)
  have hehead : ef.head? = some "evaluation" :=
    head?_of_mem_sectionsOf (hef ▸ List.mem_singleton.2 rfl)
  have hffbare : ff.bare = .list [.sym "field", .sym "prime", .int modulus] := by
    obtain ⟨⟨x, hx⟩, -⟩ := field_eq_ok.1 hfield
    have hbare := bare_of_head? hfhead
    rw [hx, Sexp.list.injEq, List.cons.injEq] at hbare
    rw [hx, hbare.1]
  have hone : ((sectionsOf "static" all).map bare).length ≤ 1 := by
    obtain ⟨hnone, -⟩ | ⟨g, hg, -⟩ := h.static
    · simp [hnone]
    · simp [hg]
  have hparts := perm_sections h.known
  simp only [sectionNames, List.flatMap_cons, List.flatMap_nil, hff, htf, hef, List.map_singleton,
    List.append_nil, List.singleton_append, hffbare] at hparts
  exact .mk modulus h.isConstant h.isFunction hone h.isStatic
    (isProcedure_of_ok hthead htheader htproc) (isProcedure_of_ok hehead heheader heproc) hparts

end

/-! ## Spans -/

/-- What follows the number in the span of a procedure. -/
def afterSpan : Sexp → List Sexp
  | .list (.sym name :: .list (.sym "span" :: .int _ :: extra) :: _) =>
    if name = "transition" ∨ name = "evaluation" then extra else []
  | _ => []

theorem afterSpan_eq_nil {name : String} (hname : ¬(name = "transition" ∨ name = "evaluation"))
    (xs : List Sexp) : afterSpan (.list (.sym name :: xs)) = [] := by
  unfold afterSpan
  split
  · next heq =>
    cases heq
    exact if_neg hname
  · rfl

theorem afterSpan_procedure (kind : ProcedureKind) (n : Nat) (extra rest : List Sexp) :
    afterSpan (.list (.sym kind.keyword :: .list (.sym "span" :: .int n :: extra) :: rest))
      = extra := by
  rw [afterSpan]
  refine if_pos ?_
  cases kind
  · exact .inl rfl
  · exact .inr rfl

theorem IsProcedure.afterSpan_eq {kind : ProcedureKind} {x : Sexp}
    (h : IsProcedure Exactly kind x) : afterSpan x = [] := by
  cases h with
  | mk width hspan hbody =>
    rw [hspan]
    exact afterSpan_procedure kind kind.span [] _

theorem IsProcedure.exactly {kind : ProcedureKind} {x : Sexp} (h : IsProcedure AtLeast kind x)
    (hx : afterSpan x = []) : IsProcedure Exactly kind x := by
  cases h with
  | mk width hspan hbody =>
    obtain ⟨extra, rfl⟩ := hspan
    rw [afterSpan_procedure] at hx
    rw [hx]
    exact .mk width rfl hbody

/-- In a module of the grammar nothing follows the number in a span. -/
theorem IsModule.afterSpan_eq {sections : List Sexp}
    (h : IsModule Exactly (.list (.sym "module" :: sections))) :
    ∀ x ∈ sections, afterSpan x = [] := by
  intro x hx
  cases h with
  | mk m hconstants hfunctions hone hstatics ht he hsections =>
    have hmem := hsections.mem_iff.1 hx
    simp only [List.mem_cons, List.mem_append, List.not_mem_nil, or_false] at hmem
    rcases hmem with rfl | hmem | hmem | hmem | rfl | rfl
    · exact afterSpan_eq_nil (by decide) _
    · obtain ⟨xs, -, rfl⟩ := hconstants x hmem
      exact afterSpan_eq_nil (by decide) _
    · cases hfunctions x hmem
      exact afterSpan_eq_nil (by decide) _
    · obtain ⟨xs, -, rfl⟩ := hstatics x hmem
      exact afterSpan_eq_nil (by decide) _
    · exact ht.afterSpan_eq
    · exact he.afterSpan_eq

theorem IsModule.exactly {sections : List Sexp}
    (h : IsModule AtLeast (.list (.sym "module" :: sections)))
    (hends : ∀ x ∈ sections, afterSpan x = []) :
    IsModule Exactly (.list (.sym "module" :: sections)) := by
  cases h with
  | mk m hconstants hfunctions hone hstatics ht he hsections =>
    refine .mk m hconstants hfunctions hone hstatics (ht.exactly (hends _ ?_))
      (he.exactly (hends _ ?_)) hsections
    · exact hsections.mem_iff.2 (by simp)
    · exact hsections.mem_iff.2 (by simp)

/-! ## Accepted modules -/

/-- **What is accepted conforms to the grammar, except after a span.** The one form of an accepted
token stream is a module whose sections are those of the grammar, with no item more and none less in
any of their headers, types, literals, declarations and statements, but for the clause of a span:
its number may be followed by anything. It is a module of the grammar exactly if no number is. -/
theorem parse_conforms {tokens : List Token} {d : Draft} (h : parse tokens = .ok d) :
    ∃ f, read tokens = .ok [f] ∧ IsModule AtLeast f.bare
      ∧ (IsModule Exactly f.bare ↔ ∀ s ∈ f.operands, afterSpan s.bare = []) := by
  obtain ⟨f, hread, hhead, hd⟩ := parse_eq_ok.1 h
  obtain ⟨t, e, ht, he⟩ := sections_procedures hd
  have hmodule := (Sectioned.of_sections hd ht he).isModule
  refine ⟨f, hread, ?_⟩
  rw [bare_of_head? hhead]
  refine ⟨hmodule, fun hexact => ?_, fun hends => ?_⟩
  · exact List.forall_mem_map.1 hexact.afterSpan_eq
  · exact hmodule.exactly (List.forall_mem_map.2 hends)

/-- A module with every kind of section, clauses in several of the ways they may be written, and
sections in another order than that of the grammar. -/
def varietyText : List Char :=
  "(module
    (static (input secret binary vector filled) (input public (parent 0) 8)
      (cycle 1 2 3 4) (cycle (power 3 8)) (cycle (prng blake3 0xff 4)) (mask 2 1))
    (evaluation (span 2) (result vector 1)
      (local scalar) (store.local 0 (get (load.trace 0) 0)) (local vector 1)
      (store.local 1 (vector (load.local 0)))
      (sub (load.trace 1) (load.local 1)))
    (field prime 340282366920938463463374607393113505793)
    (const scalar 5) (const vector 1 2) (const matrix (1 2) (3 4))
    (function (result scalar) (param scalar) (param matrix 2 2) (load.param 0))
    (transition (span 1) (result vector 1)
      (vector (call 0 (get (load.static 0) 2) (load.const 2)))))".toList

/-- This module is one of the grammar. -/
theorem parse_conforms_variety :
    ∃ tokens d f, Token.scan varietyText = .ok tokens ∧ parse tokens = .ok d
      ∧ read tokens = .ok [f] ∧ IsModule Exactly f.bare := by
  have hcheck : ((Token.scan varietyText).toOption.any fun tokens =>
      (parse tokens).toOption.isSome && (read tokens).toOption.any fun fs =>
        fs.all fun f => f.operands.all fun s => (afterSpan s.bare).isEmpty) = true := by
    unfold varietyText
    rewrite [String.toList_ofList]
    decide +kernel
  simp only [Option.any_eq_true, Bool.and_eq_true, Option.isSome_iff_exists, List.all_eq_true,
    List.isEmpty_iff, toOption_eq_some] at hcheck
  obtain ⟨tokens, hscan, ⟨d, hd⟩, fs, hfs, hends⟩ := hcheck
  obtain ⟨f, hread, -, hexact⟩ := parse_conforms hd
  obtain rfl : fs = [f] := Except.ok.inj (hfs.symm.trans hread)
  exact ⟨tokens, d, f, hscan, hd, hread, hexact.2 (hends f (List.mem_singleton.2 rfl))⟩

/-- A module whose transition says `(span 1 2)`. -/
def longSpanText : List Char :=
  "(module (field prime 97)
    (transition (span 1 2) (result vector 1) (load.trace 0))
    (evaluation (span 2) (result vector 1) (sub (load.trace 1) (load.trace 0))))".toList

/-- This module is accepted although it is none of the grammar. -/
theorem parse_longSpan_accepted :
    ∃ tokens d f, Token.scan longSpanText = .ok tokens ∧ parse tokens = .ok d
      ∧ read tokens = .ok [f] ∧ ¬IsModule Exactly f.bare := by
  have hcheck : ((Token.scan longSpanText).toOption.any fun tokens =>
      (parse tokens).toOption.isSome && (read tokens).toOption.any fun fs =>
        fs.any fun f => f.operands.any fun s => !(afterSpan s.bare).isEmpty) = true := by
    unfold longSpanText
    rewrite [String.toList_ofList]
    decide +kernel
  simp only [Option.any_eq_true, Bool.and_eq_true, Option.isSome_iff_exists, List.any_eq_true,
    Bool.not_eq_true', List.isEmpty_eq_false_iff, toOption_eq_some] at hcheck
  obtain ⟨tokens, hscan, ⟨d, hd⟩, fs, hfs, f, hf, s, hs, hextra⟩ := hcheck
  obtain ⟨g, hread, hhead, -⟩ := parse_eq_ok.1 hd
  obtain rfl : fs = [g] := Except.ok.inj (hfs.symm.trans hread)
  obtain rfl := List.mem_singleton.1 hf
  refine ⟨tokens, d, f, hscan, hd, hread, fun hmodule => hextra ?_⟩
  rw [bare_of_head? hhead] at hmodule
  exact hmodule.afterSpan_eq _ (List.mem_map_of_mem hs)

end Arithmetization.Grammar
