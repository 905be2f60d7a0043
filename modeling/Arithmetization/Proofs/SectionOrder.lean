import Arithmetization.Compile
import Arithmetization.Proofs.FormGrammar
import Arithmetization.Proofs.Placement
import Arithmetization.Schema.Text

/-!
The order of sections.

A module is what its sections declare, and these are looked up by kind. So two modules with the same
sections denote the same draft as long as the constants, which are numbered, keep their order among
themselves and the functions, which are numbered and may call those before them, keep theirs. The
sections need to be the same only up to the places of their tokens (`Form.Alike`), and then the
drafts agree in all their nodes (`Grammar.parse_reordered`).
-/

set_option autoImplicit false

namespace Arithmetization.Grammar

open Form

/-- Whether two lists of sections differ in places, and in order only between kinds or within a kind
that has one section at most. -/
structure Reordered (all all' : List Form) : Prop where
  perm : (all.map bare).Perm (all'.map bare)
  constants : (sectionsOf "const" all).map bare = (sectionsOf "const" all').map bare
  functions : (sectionsOf "function" all).map bare = (sectionsOf "function" all').map bare

namespace Reordered

variable {all all' : List Form}

theorem symm (h : Reordered all all') : Reordered all' all :=
  ⟨h.perm.symm, h.constants.symm, h.functions.symm⟩

theorem of_map_bare (h : all.map bare = all'.map bare) : Reordered all all' where
  perm := h ▸ .refl _
  constants := by rw [map_bare_sectionsOf, map_bare_sectionsOf, h]
  functions := by rw [map_bare_sectionsOf, map_bare_sectionsOf, h]

theorem perm_sectionsOf (h : Reordered all all') (name : String) :
    ((sectionsOf name all).map bare).Perm ((sectionsOf name all').map bare) := by
  rw [map_bare_sectionsOf, map_bare_sectionsOf]
  exact h.perm.filter _

theorem sectionsOf_eq_nil (h : Reordered all all') {name : String}
    (hname : sectionsOf name all = []) : sectionsOf name all' = [] := by
  have hperm := h.perm_sectionsOf name
  rw [hname, List.map_nil, List.nil_perm, List.map_eq_nil_iff] at hperm
  exact hperm

/-- The one section of a kind is alike in both. -/
theorem sectionsOf_eq_singleton (h : Reordered all all') {name : String} {f : Form}
    (hname : sectionsOf name all = [f]) : ∃ g, sectionsOf name all' = [g] ∧ f.Alike g := by
  have hperm := h.perm_sectionsOf name
  rw [hname, List.map_singleton, List.singleton_perm, eq_comm, List.map_eq_singleton_iff] at hperm
  obtain ⟨g, hg, hbare⟩ := hperm
  exact ⟨g, hg, hbare.symm⟩

/-- A form that is known among some sections is known among the others. -/
theorem known (h : Reordered all all') (hall : ∀ f ∈ all, isSection f = true) :
    ∀ f ∈ all', isSection f = true := by
  intro f hf
  have hmem : f.bare ∈ all.map bare := h.perm.mem_iff.2 (List.mem_map_of_mem hf)
  obtain ⟨g, hg, hbare⟩ := List.mem_map.1 hmem
  have hknown := hall g hg
  have hhead : g.head? = f.head? := Alike.head? hbare
  rwa [isSection, hhead] at hknown

end Reordered

/-! ## Modules -/

section

variable {all all' : List Form} {modulus : Nat} {constants : List Literal}
  {functions : List Function} {registers : RegisterSet} {t e : Procedure}

/-- **What sections declare does not depend on their order.** -/
theorem Sectioned.reordered (h : Sectioned all modulus constants functions registers t e)
    (hall : Reordered all all') : Sectioned all' modulus constants functions registers t e where
  known := hall.known h.known
  field := by
    obtain ⟨f, hf, hfield⟩ := h.field
    obtain ⟨g, hg, hfg⟩ := hall.sectionsOf_eq_singleton hf
    refine ⟨g, hg, ?_⟩
    rw [field_eq_ok] at hfield ⊢
    rwa [← hfg]
  constants_eq := by
    have hrun := (foldl_eq_iff (constantStep_eq_iff modulus)).1 h.constants_eq
    refine (foldl_eq_iff (constantStep_eq_iff modulus)).2 ⟨rfl, hrun.2.alike ?_
      (forall₂_alike.2 hall.constants)⟩
    rintro cs _ f g ⟨c, hc, rfl⟩ hfg
    exact ⟨c, literal_alike hfg.operands modulus _ _ c hc, rfl⟩
  functions_eq := by
    have hrun := functions_eq_iff.1 h.functions_eq
    refine functions_eq_iff.2 (hrun.alike ?_ (forall₂_alike.2 hall.functions))
    rintro fs _ f g ⟨fn, hfn, rfl⟩ hfg
    exact ⟨fn, function_alike hfg modulus constants fs fn hfn, rfl⟩
  static := by
    obtain ⟨hnone, hregisters⟩ | ⟨f, hf, hregisters⟩ := h.static
    · exact .inl ⟨hall.sectionsOf_eq_nil hnone, hregisters⟩
    · obtain ⟨g, hg, hfg⟩ := hall.sectionsOf_eq_singleton hf
      exact .inr ⟨g, hg, registers_alike hfg modulus _ hregisters⟩
  transition := by
    obtain ⟨f, hf, hheader, hprocedure⟩ := h.transition
    obtain ⟨g, hg, hfg⟩ := hall.sectionsOf_eq_singleton hf
    exact ⟨g, hg, header_alike hfg _ _ hheader, procedure_alike hfg _ _ _ hprocedure⟩
  evaluation := by
    obtain ⟨f, hf, hheader, hprocedure⟩ := h.evaluation
    obtain ⟨g, hg, hfg⟩ := hall.sectionsOf_eq_singleton hf
    exact ⟨g, hg, header_alike hfg _ _ hheader, procedure_alike hfg _ _ _ hprocedure⟩

theorem sections_reordered (hall : Reordered all all') (pos pos' : Position) :
    Refines (sections pos all) (sections pos' all') := by
  intro d hd
  obtain ⟨t, e, ht, he, hparts⟩ := sections_eq_ok.1 hd
  exact sections_eq_ok.2 ⟨t, e, ht, he, hparts.reordered hall⟩

end

/-- Whether two token streams are those of modules with the same sections. -/
def SameSections (tokens tokens' : List Token) : Prop :=
  ∃ f f', read tokens = .ok [f] ∧ read tokens' = .ok [f'] ∧ f.head? = some "module"
    ∧ f'.head? = some "module" ∧ Reordered f.operands f'.operands

theorem SameSections.symm {tokens tokens' : List Token} (h : SameSections tokens tokens') :
    SameSections tokens' tokens := by
  obtain ⟨f, f', hread, hread', hhead, hhead', hsections⟩ := h
  exact ⟨f', f, hread', hread, hhead', hhead, hsections.symm⟩

theorem SameSections.parse {tokens tokens' : List Token} (h : SameSections tokens tokens') :
    Refines (Grammar.parse tokens) (Grammar.parse tokens') := by
  intro d hd
  obtain ⟨f, f', hread, hread', -, hhead', hsections⟩ := h
  obtain ⟨g, hg, -, hd⟩ := parse_eq_ok.1 hd
  obtain rfl : f = g := by simpa using hread.symm.trans hg
  exact parse_eq_ok.2 ⟨f', hread', hhead', sections_reordered hsections _ _ d hd⟩

/-- A module whose tokens are of the same kinds has the same sections. -/
theorem sameSections_of_kinds {tokens tokens' : List Token}
    (h : (upToEof tokens).map Token.kind = (upToEof tokens').map Token.kind) {d : Draft}
    (hd : parse tokens = .ok d) : SameSections tokens tokens' := by
  obtain ⟨f, hread, hhead, -⟩ := parse_eq_ok.1 hd
  have hkinds : (upToEof tokens').map Token.kind = [f.bare].flatMap Sexp.kinds := by
    rw [← h, ← kinds_of_read hread]
    rfl
  obtain ⟨fs, hfs, hread'⟩ := read_flatMap_kinds hkinds
    (by simpa using height_of_read hread (List.mem_singleton.2 rfl))
  obtain ⟨g, rfl, hg⟩ := List.map_eq_singleton_iff.1 hfs
  have hfg : f.Alike g := hg.symm
  exact ⟨f, g, hread, hread', hhead, hfg.head? ▸ hhead, .of_map_bare (forall₂_alike.1 hfg.operands)⟩

theorem parse_refines {tokens tokens' : List Token}
    (h : (upToEof tokens).map Token.kind = (upToEof tokens').map Token.kind
      ∨ SameSections tokens tokens') : Refines (parse tokens) (parse tokens') := by
  intro d hd
  obtain hkinds | hsections := h
  · exact (sameSections_of_kinds hkinds hd).parse d hd
  · exact hsections.parse d hd

/-- **The schema depends on the kinds of the tokens and on the order within a kind of section.** If
two token streams have the same kinds of tokens, or are those of modules with the same sections up
to the places of the tokens, where constants and functions stand in the same order among themselves,
then both are parsed to the same draft or neither is parsed. Texts with such tokens compile to the
same schema, so to the same text and the same commitment. -/
theorem parse_reordered {tokens tokens' : List Token}
    (h : (upToEof tokens).map Token.kind = (upToEof tokens').map Token.kind
      ∨ SameSections tokens tokens') :
    (∀ d, parse tokens = .ok d ↔ parse tokens' = .ok d)
      ∧ ∀ text text', Token.scan text = .ok tokens → Token.scan text' = .ok tokens' → ∀ o,
          (∀ s, compile text o = .ok s ↔ compile text' o = .ok s)
            ∧ ∀ s s', compile text o = .ok s → compile text' o = .ok s' →
                s.text = s'.text ∧ s.commitment = s'.commitment := by
  have hparse := parse_refines h
  have hparse' := parse_refines (h.imp Eq.symm SameSections.symm)
  refine ⟨fun d => ⟨hparse d, hparse' d⟩, ?_⟩
  intro text text' hscan hscan' o
  have hcompile : ∀ s, compile text o = .ok s ↔ compile text' o = .ok s := by
    intro s
    rw [compile, compile, hscan, hscan']
    exact ⟨hparse.bind (fun _ => .refl _) s, hparse'.bind (fun _ => .refl _) s⟩
  refine ⟨hcompile, fun s s' hs hs' => ?_⟩
  obtain rfl : s = s' := Except.ok.inj (((hcompile s).1 hs).symm.trans hs')
  exact ⟨rfl, rfl⟩

/-! ### A module read in two orders -/

/-- The tokens of a module, all at one place. -/
def tokensAt (pos : Position) (sections : List Sexp) : List Token :=
  ((Sexp.list (.sym "module" :: sections)).kinds ++ [TokenKind.eof]).map (⟨·, pos⟩)

theorem read_tokensAt (pos : Position) (sections : List Sexp)
    (h : (Sexp.list (.sym "module" :: sections)).height ≤ maxDepth) :
    ∃ f, read (tokensAt pos sections) = .ok [f] ∧ f.head? = some "module"
      ∧ f.operands.map bare = sections := by
  have hkinds : (tokensAt pos sections).map Token.kind
      = (Sexp.list (.sym "module" :: sections)).kinds ++ [.eof] := by
    rw [tokensAt, List.map_map]
    exact List.map_id _
  obtain ⟨f, hf, hread⟩ := read_kinds hkinds h
  obtain ⟨p, args, pos', rfl, hargs⟩ := bare_eq_clause.1 hf
  exact ⟨_, hread, rfl, hargs⟩

/-- Declarations, the second function among them a call of the first. -/
def declarationSexps : List Sexp :=
  [.list [.sym "field", .sym "prime", .int 97],
    .list [.sym "const", .sym "scalar", .int 5],
    .list [.sym "const", .sym "vector", .int 1, .int 2],
    .list [.sym "function", .list [.sym "result", .sym "scalar"],
      .list [.sym "param", .sym "scalar"],
      .list [.sym "mul", .list [.sym "load.param", .int 0], .list [.sym "load.const", .int 0]]],
    .list [.sym "function", .list [.sym "result", .sym "scalar"],
      .list [.sym "param", .sym "scalar"],
      .list [.sym "call", .int 0, .list [.sym "load.param", .int 0]]]]

/-- Procedures that refer to these declarations. -/
def procedureSexps : List Sexp :=
  [.list [.sym "evaluation", .list [.sym "span", .int 2],
      .list [.sym "result", .sym "vector", .int 2],
      .list [.sym "sub", .list [.sym "load.trace", .int 1], .list [.sym "load.const", .int 1]]],
    .list [.sym "transition", .list [.sym "span", .int 1],
      .list [.sym "result", .sym "vector", .int 2],
      .list [.sym "vector", .int 3, .list [.sym "call", .int 1,
        .list [.sym "get", .list [.sym "load.trace", .int 0], .int 0]]]]]

/-- The module denotes one draft whether its procedures stand at the end or at the beginning. -/
theorem parse_reordered_swapped :
    ∃ d, parse (tokensAt ⟨1, 1⟩ (declarationSexps ++ procedureSexps)) = .ok d
      ∧ parse (tokensAt ⟨2, 5⟩ (procedureSexps ++ declarationSexps)) = .ok d := by
  have hparse : (parse (tokensAt ⟨1, 1⟩ (declarationSexps ++ procedureSexps))).toOption.isSome
      = true := by decide +kernel
  obtain ⟨d, hd⟩ := Option.isSome_iff_exists.1 hparse
  rw [toOption_eq_some] at hd
  obtain ⟨f, hread, hhead, hf⟩ := read_tokensAt ⟨1, 1⟩ (declarationSexps ++ procedureSexps)
    (by decide +kernel)
  obtain ⟨g, hread', hhead', hg⟩ := read_tokensAt ⟨2, 5⟩ (procedureSexps ++ declarationSexps)
    (by decide +kernel)
  have hsections : Reordered f.operands g.operands := by
    refine ⟨?_, ?_, ?_⟩
    · rw [hf, hg]
      exact List.perm_append_comm
    · rw [map_bare_sectionsOf, map_bare_sectionsOf, hf, hg]
      rfl
    · rw [map_bare_sectionsOf, map_bare_sectionsOf, hf, hg]
      rfl
  have hsame := (parse_reordered (.inr ⟨f, g, hread, hread', hhead, hhead', hsections⟩)).1 d
  exact ⟨d, hd, hsame.1 hd⟩

end Arithmetization.Grammar
