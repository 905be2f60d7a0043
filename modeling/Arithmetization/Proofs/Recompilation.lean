import Arithmetization.Proofs.RoundTrip

/-!
Compiling a canonical text again.

A draft that restores a schema has its functions and procedures but for nodes that nothing uses.
Inference looks only at what is used, and sharing keeps degrees, so once the draft is shared again
it has the degrees of the schema (`Degree.Context.body_restored`). Limits look at nothing else but
widths and registers: the draft can be built again (`Draft.Restores.build_eq_ok`). What is left is
whether the canonical text is read at all. It is, unless it has too many tokens or nests too deep;
the canonical text of a module may, though its source did not (`Schema.recompiles`,
`Schema.recompiles_nested`).
-/

set_option autoImplicit false

namespace Arithmetization

/-! ## Degrees of what is restored -/

namespace Degree.Context

variable {constants : List Literal} {fs gs : List Function} {cost : Nat}

/-- Functions that are the same but for unused nodes have the same degrees, also once they are
shared. -/
theorem callees_restored (h : List.Forall₂ Function.Same fs gs) (hfs : FunctionsCheck constants fs)
    (options : SharingOptions) (depth : Nat) :
    CalleesRefine (callees ⟨constants, gs, cost⟩ depth)
      (callees ⟨constants, fs.map (Function.share options), cost⟩ depth) := by
  induction depth with
  | zero =>
    apply List.forall₂_iff_get.2
    refine ⟨?_, fun i hi hi' args d hd => ?_⟩
    · rw [callees, callees, List.length_mapIdx, List.length_mapIdx, List.length_map, h.length_eq]
    · -- no call may be made at this depth
      simp [callees] at hd
  | succ depth ih =>
    apply List.forall₂_map_left_iff.2
    apply List.forall₂_map_right_iff.2
    apply List.forall₂_map_right_iff.2
    apply List.forall₂_iff_get.2
    refine ⟨h.length_eq.symm, fun i hi hi' args => ?_⟩
    have hsame : (fs.get ⟨i, hi'⟩).Same (gs.get ⟨i, hi⟩) := (List.forall₂_iff_get.1 h).2 i hi' hi
    have hformed := hfs.formed (List.get_mem fs ⟨i, hi'⟩)
    rw [← hsame.block_eq]
    exact share_refines ⟨constants, gs, cost⟩ ⟨constants, fs.map (Function.share options), cost⟩
      rfl rfl ih args hformed options

/-- A procedure that is the same but for unused nodes, among such functions. -/
theorem procedure_restored (h : List.Forall₂ Function.Same fs gs)
    (hfs : FunctionsCheck constants fs) {b b' : Body} (hblock : b.block = b'.block)
    (hb : b.block.Formed) (options : SharingOptions) :
    Refines (procedure ⟨constants, gs, cost⟩ b')
      (procedure ⟨constants, fs.map (Function.share options), cost⟩ (b.share options)) := by
  have hlength : (fs.map (Function.share options)).length = gs.length := by
    rw [List.length_map, h.length_eq]
  have hcallees : CalleesRefine (callees ⟨constants, gs, cost⟩ gs.length) _ :=
    callees_restored h hfs options gs.length
  apply procedure_refines
  rw [body, body, ← hblock]
  dsimp only
  rw [hlength]
  exact share_refines ⟨constants, gs, cost⟩ ⟨constants, fs.map (Function.share options), cost⟩
    rfl rfl hcallees [] hb options

end Degree.Context

/-! ## Building again -/

/-- The declarations and the degrees of two schemas are the same. -/
structure Schema.Alike (s s' : Schema) : Prop where
  modulus_eq : s'.modulus = s.modulus
  constants_eq : s'.constants = s.constants
  signatures_eq : s'.functions.map Function.signature = s.functions.map Function.signature
  registers_eq : s'.registers = s.registers
  width_eq : s'.traceWidth = s.traceWidth
  degree_eq : s'.transitionDegree = s.transitionDegree
  constraints_eq : s'.constraints = s.constraints

/-- Limits look at declarations and degrees only. -/
theorem Schema.Alike.violations_eq {s s' : Schema} (h : s.Alike s') (limits : Limits) :
    s'.violations limits = s.violations limits := by
  rw [violations, violations, maxDegree, maxDegree, h.width_eq, h.registers_eq, h.constraints_eq]

/-- **What was built once can be built again**, from any draft that restores it. -/
theorem Draft.Restores.build_eq_ok {text : List Char} {o : CompileOptions} {s : Schema}
    (hs : compile text o = .ok s) {d : Draft} (h : d.Restores s)
    (hd : ∀ {t e}, d.transition = some t → d.evaluation = some e →
      WellShaped d.modulus d.constants d.functions d.registers t e) :
    ∃ s', d.build o = .ok s' ∧ s.Alike s' := by
  obtain ⟨t, ht, htsame⟩ := h.transition
  obtain ⟨e, he, hesame⟩ := h.evaluation
  have hshaped := hd ht he
  obtain ⟨tokens, source, -, -, hbuild⟩ := compile_eq_ok hs
  obtain ⟨t₀, e₀, td, ed, -, -, hschema, htd, hed, hlimits⟩ := Draft.build_eq_ok hbuild
  -- Both procedures have the degrees that they had in the schema.
  have hchecked := hshaped.checked
  rw [h.constants_eq] at hchecked
  have htd' := Degree.Context.procedure_restored h.functions hchecked htsame.block_eq
    hshaped.transition_checks.formed o.sharing td htd
  have hed' := Degree.Context.procedure_restored h.functions hchecked hesame.block_eq
    hshaped.evaluation_checks.formed o.sharing ed hed
  rw [← h.constants_eq] at htd' hed'
  let s' : Schema := ⟨d.modulus, d.constants, d.functions.map (Function.share o.sharing),
    d.registers, t.share o.sharing, e.share o.sharing, td, ed.elements⟩
  have halike : s.Alike s' := by
    refine ⟨h.modulus_eq, h.constants_eq, ?_, h.registers_eq, htsame.width_eq, ?_, ?_⟩
    · rw [← map_signature_of_same h.functions, List.map_map]
      rfl
    · rw [hschema]
    · rw [hschema]
  have hlimits' : s'.violations o.limits = [] := by
    rw [halike.violations_eq, hlimits]
  exact ⟨s', (Draft.build_eq ht he rfl htd' hed').trans (if_pos hlimits'), halike⟩

/-! ## Compiling again -/

namespace Schema

section

variable {text : List Char} {o : CompileOptions} {s : Schema} (h : compile text o = .ok s)

include h

theorem exists_compile_text (hlexemes : Text.lexemes s.text.toList ≤ Token.maxCount)
    (hnesting : Text.nesting s.text.toList ≤ Form.maxDepth) :
    ∃ s', compile s.text.toList o = .ok s' ∧ s.Alike s' := by
  obtain ⟨hlegible, hdeclarable⟩ := compile_declarable h
  obtain ⟨tokens, hscan, hparse, -⟩ := Grammar.parse_writes hdeclarable hlegible.writes hlexemes
  obtain ⟨d, hd, hrestores⟩ := hparse hnesting
  obtain ⟨s', hbuild, halike⟩ := hrestores.build_eq_ok h fun ht he =>
    Grammar.parse_wellShaped hd ht he
  refine ⟨s', ?_, halike⟩
  rw [compile, hscan]
  change (Grammar.parse tokens >>= fun d => d.build o) = _
  rw [hd]
  exact hbuild

theorem compile_text_long (hlexemes : Token.maxCount < Text.lexemes s.text.toList) :
    ∃ pos, compile s.text.toList o = .error [.lex .tooManyTokens pos] := by
  have hwrites := (compile_declarable h).1.writes
  rw [hwrites.lexemes_eq] at hlexemes
  obtain ⟨pos, hscan⟩ := hwrites.reads_form.scan_eq_error hlexemes
  exact ⟨pos, by rw [compile, hscan]⟩

theorem compile_text_deep (hlexemes : Text.lexemes s.text.toList ≤ Token.maxCount)
    (hnesting : Form.maxDepth < Text.nesting s.text.toList) :
    compile s.text.toList o = .error [.limit .parseDepth] := by
  obtain ⟨hlegible, hdeclarable⟩ := compile_declarable h
  obtain ⟨tokens, hscan, -, hdeep⟩ := Grammar.parse_writes hdeclarable hlegible.writes hlexemes
  rw [compile, hscan]
  change (Grammar.parse tokens >>= fun d => d.build o) = _
  rw [hdeep hnesting]
  rfl

end

/-- **Compiling a canonical text again.** The canonical text of a schema that compiles, compiled
under the same options, gives a schema with the same declarations and degrees if it has at most
`Token.maxCount` lexemes and nests at most `Form.maxDepth` deep. With more lexemes it is refused as
having too many tokens, and otherwise with more nesting for its depth. -/
theorem recompiles {text : List Char} {o : CompileOptions} {s : Schema}
    (h : compile text o = .ok s) :
    (Text.lexemes s.text.toList ≤ Token.maxCount → Text.nesting s.text.toList ≤ Form.maxDepth →
      ∃ s', compile s.text.toList o = .ok s' ∧ s.Alike s')
    ∧ (Token.maxCount < Text.lexemes s.text.toList →
      ∃ pos, compile s.text.toList o = .error [.lex .tooManyTokens pos])
    ∧ (Text.lexemes s.text.toList ≤ Token.maxCount → Form.maxDepth < Text.nesting s.text.toList →
      compile s.text.toList o = .error [.limit .parseDepth]) :=
  ⟨exists_compile_text h, compile_text_long h, compile_text_deep h⟩

/-- The canonical text of a module with all kinds of declarations compiles again. -/
theorem recompiles_spelled :
    ∃ s s', compile spelledText { sharing := { enabled := false } } = .ok s
      ∧ compile s.text.toList { sharing := { enabled := false } } = .ok s' ∧ s.Alike s'
      ∧ s'.constraints = [1, 2] := by
  have hcheck : ((compile spelledText { sharing := { enabled := false } }).toOption.any fun s =>
      s.sexp.kinds.length ≤ Token.maxCount && s.sexp.height ≤ Form.maxDepth
        && s.constraints == [1, 2]) = true := by
    unfold spelledText
    rewrite [String.toList_ofList]
    decide +kernel
  simp only [Option.any_eq_true, Bool.and_eq_true, decide_eq_true_eq, beq_iff_eq,
    toOption_eq_some] at hcheck
  obtain ⟨s, hs, ⟨hlength, hheight⟩, hconstraints⟩ := hcheck
  obtain ⟨s', hs', halike⟩ := (recompiles hs).1 (lexemes_text hs ▸ hlength)
    (nesting_text hs ▸ hheight)
  exact ⟨s, s', hs, hs', halike, halike.constraints_eq.trans hconstraints⟩

/-- **A canonical text that does not compile.** A number below 1021 negations compiles, but its
canonical text, in which the number takes a list of its own, nests too deep. -/
theorem recompiles_nested :
    ∃ s, compile (nestedText 1021).toList { sharing := { enabled := false } } = .ok s
      ∧ compile s.text.toList { sharing := { enabled := false } }
        = .error [.limit .parseDepth] := by
  obtain ⟨s, hs, hsexp⟩ := compile_nestedText (n := 1021) (by decide) (by decide)
  rw [nestedSchema_sexp] at hsexp
  have hlexemes : Text.lexemes s.text.toList ≤ Token.maxCount := by
    rw [lexemes_text hs, hsexp, length_kinds_nestedSexp, length_kinds_negated]
    decide
  have hnesting : Form.maxDepth < Text.nesting s.text.toList := by
    rw [nesting_text hs, hsexp, height_nestedSexp, height_negated]
    decide
  exact ⟨s, hs, compile_text_deep hs hlexemes hnesting⟩

end Schema

end Arithmetization
