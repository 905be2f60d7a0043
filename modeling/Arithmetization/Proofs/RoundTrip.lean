import Arithmetization.Proofs.Restoration
import Arithmetization.Proofs.SharedSchemas

/-!
Reading a canonical text again.

A schema that compiles is legible and can be declared in its canonical form (`compile_declarable`),
so its canonical text spells that form, and the form is accepted if the text does not nest too deep.
A text nests as deep as its form is high, because no list in a form of a schema is empty
(`Schema.Declarable.full`). The canonical form may be higher than the source was: a number that
stands bare in a source takes a list of its own. So the limit on depth can be kept by a source and
broken by its canonical text (`compile_nestedText`, `height_negated`).
-/

set_option autoImplicit false

namespace Arithmetization

/-! ## Forms without empty lists -/

namespace Sexp

@[simp] theorem full_int (n : Nat) : (Sexp.int n).Full := .int n

@[simp] theorem full_hex (bytes : List UInt8) : (Sexp.hex bytes).Full := .hex bytes

@[simp] theorem full_sym (name : String) : (Sexp.sym name).Full := .sym name

@[simp] theorem full_list {items : List Sexp} :
    (Sexp.list items).Full ↔ items ≠ [] ∧ ∀ x ∈ items, x.Full := by
  constructor
  · rintro (_ | _ | _ | ⟨hne, h⟩)
    exact ⟨hne, h⟩
  · exact fun h => .list h.1 h.2

end Sexp

theorem Shape.full_sexps (s : Shape) : ∀ x ∈ s.sexps, x.Full := by
  unfold sexps
  split
  · simp
  · split <;> simp

theorem Tensor.Fits.row_ne_nil {α : Type} {rows : List (List α)} {s : Shape}
    (h : (Tensor.matrix rows).Fits s) : ∀ row ∈ rows, row ≠ [] := by
  rintro row hrow rfl
  obtain ⟨-, hcols, -, hlen⟩ := h
  rw [← hlen [] hrow] at hcols
  exact Nat.lt_irrefl 0 hcols

theorem Literal.full_sexps {value : Literal} (h : value.isProper = true) :
    ∀ x ∈ value.sexps, x.Full := by
  have hfits := Tensor.fits_of_isProper h
  cases value with
  | scalar x => simp [sexps]
  | vector xs => simp [sexps]
  | matrix rows =>
    have hrows : ∀ row ∈ rows, row ≠ [] := hfits.row_ne_nil
    simpa [sexps] using hrows

namespace Grammar

variable {cx : Context} {ρ : List (Option Shape)}

theorem Denotes.full {x : Sexp} {e : Expr} (h : Denotes cx ρ x e) : x.Full := by
  refine Denotes.induction (P := fun x _ => x.Full) (fun _ => .int _) ?_ h
  intro op s xs args hargs _ hshape
  have hxs : ∀ x ∈ xs, x.Full := by
    intro x hx
    obtain ⟨a, -, -, hfull⟩ := exists_mem_right hargs hx
    exact hfull
  cases op with
  | literal value =>
    rw [Env.shapeOf_of_local? rfl, Env.rule_literal] at hshape
    refine Sexp.full_list.2 ⟨?_, Literal.full_sexps hshape.2.1⟩
    cases value <;> simp [Op.sexps, Literal.sexps]
  | matrix widths =>
    rw [Env.shapeOf_of_local? rfl, Env.rule_matrix] at hshape
    have hlen : xs.length = (args.map Expr.shape).length := by
      rw [List.length_map, hargs.length_eq]
    -- a grid has columns, so none of its rows is empty
    have hrows := (Tensor.fits_chunks hshape.1 hlen hshape.2).row_ne_nil
    simp only [Op.sexps, Sexp.full_list, List.forall_mem_cons, List.forall_mem_map]
    exact ⟨by simp, .sym _, fun row hrow =>
      ⟨hrows row hrow, fun x hx => hxs x (Tensor.subset_of_mem_chunks hrow hx)⟩⟩
  | load source i => simp [Op.sexps]
  | segment row first last => simp [Op.sexps]
  | get i => simpa [Op.sexps, or_imp, forall_and] using hxs
  | slice first last => simpa [Op.sexps, or_imp, forall_and] using hxs
  | _ => simpa [Op.sexps] using hxs

theorem Statements.full {xs : List Sexp} {p : Progress} (h : Statements cx xs p) :
    ∀ x ∈ xs, x.Full := by
  induction h with
  | nil => simp
  | declare _ _ ih =>
    rw [List.forall_mem_append]
    exact ⟨ih, by simpa using Shape.full_sexps _⟩
  | store _ _ he _ ih =>
    rw [List.forall_mem_append]
    exact ⟨ih, by simpa using he.full⟩

theorem DenotesBlock.full {xs : List Sexp} {b : Block} (h : DenotesBlock cx xs b) :
    ∀ x ∈ xs, x.Full := by
  cases h with
  | result hxs he =>
    rw [List.forall_mem_append, List.forall_mem_singleton]
    exact ⟨hxs.full, he.full⟩

theorem ProcedureForm.full {modulus : Nat} {constants : List Literal} {functions : List Function}
    {scope : Scope} {kind : ProcedureKind} {x : Sexp} {p : Procedure}
    (h : ProcedureForm modulus ⟨constants, functions.map Function.signature, scope, .trap⟩ kind x
      p) : x.Full := by
  obtain ⟨xs, rfl, hdenotes⟩ := h.form
  have hxs := (hdenotes ⟨modulus, constants, functions, scope, .trap⟩ rfl rfl).full
  simpa using hxs

end Grammar

theorem Function.Legible.full {modulus : Nat} {constants : List Literal}
    {functions : List Function} {f : Function} (h : f.Legible modulus)
    (hchecks : f.body.block.Checks ⟨constants, functions.map Function.signature,
      .function f.params, .trap⟩ f.result) : f.sexp.Full := by
  have hblock : f.body.block.Checks
      (Grammar.Context.mk modulus constants functions (.function f.params) .trap).env f.result :=
    hchecks
  have hxs := (hblock.denotes h.body.block h.body.bound).1.full
  have hresult := f.result.full_sexps
  have hparams := fun p (_ : p ∈ f.params) => Shape.full_sexps p
  simp only [sexp, Shape.clause, Sexp.full_list, List.forall_mem_cons, List.forall_mem_append,
    List.forall_mem_map]
  simp
  exact ⟨hresult, hparams, hxs⟩

theorem Register.full_sexp (r : Register) : r.sexp.Full := by
  cases r with
  | input r =>
    have hbinding : r.bindingSexp.Full := by
      unfold InputRegister.bindingSexp
      split
      · exact .sym _
      · split <;> simp
    have hpattern : r.patternSexp.Full := by
      unfold InputRegister.patternSexp
      split <;> simp
    have hbinary : ∀ x ∈ (if r.binary then [Sexp.sym "binary"] else []), x.Full := by
      split <;> simp
    simp only [sexp, Sexp.full_list, List.forall_mem_cons, List.forall_mem_append]
    exact ⟨by simp, .sym _, .sym _, hbinary, hbinding, hpattern, by simp⟩
  | cycle source => cases source <;> simp [sexp, CycleSource.sexps]
  | mask source value => simp [sexp]

theorem RegisterSet.full_sexps (set : RegisterSet) : ∀ x ∈ set.sexps, x.Full := by
  unfold sexps
  split
  · simp
  · simpa using fun r _ => Register.full_sexp r

/-- No list in a form of a schema is empty. -/
theorem Schema.Declarable.full {s : Schema} {tx ex : Sexp} (h : s.Declarable tx ex) :
    (Sexp.list (.sym "module"
      :: moduleSexps s.modulus s.constants s.functions s.registers tx ex)).Full := by
  have hconstants : ∀ c ∈ s.constants, (Sexp.list (.sym "const" :: Literal.sexps c)).Full := by
    intro c hc
    simpa using Literal.full_sexps (h.constants c hc).1
  have hfunctions : ∀ f ∈ s.functions, f.sexp.Full := by
    intro f hf
    obtain ⟨i, hi⟩ := List.mem_iff_getElem?.1 hf
    have hchecks := h.checked i f hi
    exact (h.functions f hf).full hchecks
  refine Sexp.full_list.2 ⟨by simp, ?_⟩
  simp only [moduleSexps, List.forall_mem_cons, List.forall_mem_append, List.forall_mem_map]
  exact ⟨.sym _, by simp, ⟨⟨hconstants, hfunctions⟩, s.registers.full_sexps⟩,
    h.transition.full, h.evaluation.full, by simp⟩

/-! ## Texts of a schema -/

section

variable {text : String} {x : Sexp}

theorem Text.Writes.reads_form (h : Text.Writes text [x]) : Token.Reads text.toList x.kinds [] := by
  have hreads := Token.Spells.reads h
  rwa [List.flatMap_singleton] at hreads

theorem Text.Writes.lexemes_eq (h : Text.Writes text [x]) :
    Text.lexemes text.toList = x.kinds.length :=
  h.reads_form.lexemes_eq

theorem Text.Writes.nesting_eq (h : Text.Writes text [x]) (hfull : x.Full) :
    Text.nesting text.toList = x.height := by
  rw [h.reads_form.nesting_eq, hfull.nestingFrom_eq, Nat.zero_add]

end

namespace Grammar

open Form

/-- **A text that spells a form of a schema** is read back as a draft of this schema, unless it
nests too deep. -/
theorem parse_writes {s : Schema} {tx ex : Sexp} (h : s.Declarable tx ex) {text : String}
    (hwrites : Text.Writes text [.list (.sym "module"
      :: moduleSexps s.modulus s.constants s.functions s.registers tx ex)])
    (hlexemes : Text.lexemes text.toList ≤ Token.maxCount) :
    ∃ tokens, Token.scan text.toList = .ok tokens
      ∧ (Text.nesting text.toList ≤ maxDepth → ∃ d, parse tokens = .ok d ∧ d.Restores s)
      ∧ (maxDepth < Text.nesting text.toList → parse tokens = .error [.limit .parseDepth]) := by
  rw [hwrites.lexemes_eq] at hlexemes
  -- the form is as high as the text nests
  rw [hwrites.nesting_eq h.full]
  obtain ⟨tokens, hkinds, hscan⟩ := hwrites.reads_form.scan hlexemes
  refine ⟨tokens, hscan, fun hle => ?_, fun hlt => ?_⟩
  · obtain ⟨f, hf, hread⟩ := read_kinds hkinds hle
    obtain ⟨p, args, pos, rfl, hargs⟩ := bare_eq_clause.1 hf
    obtain ⟨d, hd, hrestores⟩ := sections_accepted h pos hargs
    exact ⟨d, parse_eq_ok.2 ⟨_, hread, rfl, hd⟩, hrestores⟩
  · rw [parse, read_kinds_error hkinds hlt]

/-! ## Schemas that compile -/

theorem Scanned.item {x : Sexp} {xs : List Sexp} (h : Scanned (.list xs)) (hx : x ∈ xs) :
    Scanned x := by
  have hkinds : ∀ k ∈ x.kinds, k ∈ (Sexp.list xs).kinds := by
    intro k hk
    rw [Sexp.kinds_list]
    exact List.mem_cons_of_mem _ (List.mem_append_left _ (List.mem_flatMap.2 ⟨x, hx, hk⟩))
  refine ⟨?_, fun n hn => h.int_lt n (hkinds _ hn), h.seeded.item hx⟩
  have hsize := h.size_le
  have hle := Sexp.length_kinds_le_of_mem hx
  rw [Sexp.length_kinds_list] at hsize
  omega

theorem Scanned.operand {f g : Form} (h : Scanned f.bare) (hg : g ∈ f.operands) :
    Scanned g.bare := by
  cases f with
  | list items pos =>
    rw [bare_list] at h
    exact h.item (List.mem_map_of_mem (List.mem_of_mem_tail hg))
  | _ => cases hg

/-- **A form that is read from a text** has numbers and byte strings as they can be written. -/
theorem scanned_of_read {text : List Char} {tokens : List Token} {f : Form}
    (hscan : Token.scan text = .ok tokens) (hread : Form.read tokens = .ok [f]) :
    Scanned f.bare := by
  obtain ⟨hplain, hlen⟩ := Token.scan_plain hscan
  have hkinds : f.bare.kinds = (upToEof tokens).map Token.kind := by
    rw [← kinds_of_read hread, List.flatMap_singleton]
  have hsublist : (upToEof tokens).Sublist tokens := List.takeWhile_sublist _
  have hmem : ∀ k ∈ f.bare.kinds, Token.Plain k := by
    intro k hk
    rw [hkinds] at hk
    obtain ⟨t, ht, rfl⟩ := List.mem_map.1 hk
    exact hplain t (hsublist.subset ht)
  refine ⟨?_, fun n hn => hmem _ hn, fun bytes hbytes => hmem _ hbytes⟩
  have hbound : Token.maxCount + 1 ≤ Shape.lengthBound := by decide
  rw [hkinds, List.length_map]
  exact Nat.le_trans hsublist.length_le (Nat.le_trans hlen hbound)

end Grammar

/-- **A schema that compiles is legible and can be declared** in its canonical form. -/
theorem compile_declarable {text : List Char} {o : CompileOptions} {s : Schema}
    (h : compile text o = .ok s) :
    s.Legible ∧ s.Declarable s.transition.sexp s.evaluation.sexp := by
  have hshaped := compile_wellShaped h
  obtain ⟨tokens, d, hscan, hparse, hbuild⟩ := compile_eq_ok h
  obtain ⟨t, e, td, ed, ht, he, rfl, -⟩ := Draft.build_eq_ok hbuild
  obtain ⟨f, hread, -, hsections⟩ := Grammar.parse_eq_ok.1 hparse
  have hsectioned := Grammar.Sectioned.of_sections hsections ht he
  have hscanned : ∀ g ∈ f.operands, Grammar.Scanned g.bare := fun g hg =>
    (Grammar.scanned_of_read hscan hread).operand hg
  obtain ⟨hge, hlt⟩ := hsectioned.modulus_bounds hscanned
  -- the source was scanned, so nothing in it is too large to be written again
  have hconstants := hsectioned.constants_sound hscanned
  have hfunctions : ∀ f ∈ d.functions.map (Function.share o.sharing), f.Legible d.modulus := by
    intro f hf
    obtain ⟨g, hg, rfl⟩ := List.mem_map.1 hf
    exact hsectioned.functions_sound hscanned g hg o.sharing
  have hregisters := (hsectioned.declarable hscanned).1
  obtain ⟨htlegible, helegible⟩ := hsectioned.legible hscanned o.sharing
  obtain ⟨_, -, -, htproc⟩ := hsectioned.transition
  obtain ⟨_, -, -, heproc⟩ := hsectioned.evaluation
  refine ⟨⟨hlt, fun c hc => (hconstants c hc).1, hfunctions, hregisters.legible, htlegible,
    helegible⟩, ⟨hge, fun c hc => ⟨hshaped.proper c hc, (hconstants c hc).1⟩, hshaped.checked,
      hfunctions, hregisters, ?_, ?_⟩⟩
  · exact .of_legible (Grammar.procedure_eq_ok.1 htproc).1 hshaped.width_pos htlegible
      hshaped.transition_checks
  · exact .of_legible (Grammar.procedure_eq_ok.1 heproc).1 hshaped.count_pos helegible
      hshaped.evaluation_checks

section

variable {text : List Char} {o : CompileOptions} {s : Schema}

theorem Schema.lexemes_text (h : compile text o = .ok s) :
    Text.lexemes s.text.toList = s.sexp.kinds.length :=
  (compile_declarable h).1.writes.lexemes_eq

theorem Schema.nesting_text (h : compile text o = .ok s) :
    Text.nesting s.text.toList = s.sexp.height :=
  (compile_declarable h).1.writes.nesting_eq (compile_declarable h).2.full

end

/-- **Rendering is inverted by scanning and parsing.** The canonical text of a schema that compiles,
unless it has too many tokens, is scanned, and parsing it restores the schema if at most `maxDepth`
parentheses are open at once, those of the module form among them. A text that nests deeper is
refused. -/
theorem Schema.parse_text {text : List Char} {o : CompileOptions} {s : Schema}
    (h : compile text o = .ok s) (hlexemes : Text.lexemes s.text.toList ≤ Token.maxCount) :
    ∃ tokens, Token.scan s.text.toList = .ok tokens
      ∧ (Text.nesting s.text.toList ≤ Form.maxDepth →
          ∃ d, Grammar.parse tokens = .ok d ∧ d.Restores s)
      ∧ (Form.maxDepth < Text.nesting s.text.toList →
          Grammar.parse tokens = .error [.limit .parseDepth]) := by
  obtain ⟨hlegible, hdeclarable⟩ := compile_declarable h
  exact Grammar.parse_writes hdeclarable hlegible.writes hlexemes

/-- A module with literals and vectors that are built, bare and written-out scalars, a function, all
kinds of static registers, and a seed that starts with a zero digit. -/
def spelledText : List Char :=
  "(module (field prime 340282366920938463463374607393113505793)
    (const scalar 7) (const matrix (1 2) (3 4))
    (function (result scalar) (param vector 2) (mul (get (load.param 0) 0) (load.const 0)))
    (static (input public vector filled) (input secret binary (parent 0) (steps 2))
      (cycle (prng blake3 0x0f 4)) (mask 1 5))
    (transition (span 1) (result vector 2)
      (local vector 2)
      (store.local 0 (vector 1 2))
      (prod (load.const 1) (add (load.local 0) (slice (load.trace 0) 0 1))))
    (evaluation (span 2) (result vector 2)
      (vector (call 0 (add (load.trace 1) (load.trace 0)))
        (exp (call 0 (add (load.trace 1) (load.trace 0))) 2))))".toList

/-- Its canonical text gives back its constants and its registers. -/
theorem Schema.parse_text_spelled :
    ∃ s tokens d, compile spelledText { sharing := { enabled := false } } = .ok s
      ∧ Text.lexemes s.text.toList ≤ Token.maxCount
      ∧ Text.nesting s.text.toList ≤ Form.maxDepth
      ∧ Token.scan s.text.toList = .ok tokens ∧ Grammar.parse tokens = .ok d ∧ d.Restores s
      ∧ d.constants = [.scalar 7, .matrix [[1, 2], [3, 4]]] ∧ d.registers.size = 4 := by
  have hcheck : ((compile spelledText { sharing := { enabled := false } }).toOption.any fun s =>
      s.sexp.kinds.length ≤ Token.maxCount && s.sexp.height ≤ Form.maxDepth
        && s.constants == [.scalar 7, .matrix [[1, 2], [3, 4]]] && s.registers.size == 4)
          = true := by
    unfold spelledText
    rewrite [String.toList_ofList]
    decide +kernel
  simp only [Option.any_eq_true, Bool.and_eq_true, decide_eq_true_eq, beq_iff_eq,
    toOption_eq_some] at hcheck
  obtain ⟨s, hs, ⟨⟨hlength, hheight⟩, hconstants⟩, hregisters⟩ := hcheck
  have hlexemes : Text.lexemes s.text.toList ≤ Token.maxCount :=
    Schema.lexemes_text hs ▸ hlength
  have hnesting : Text.nesting s.text.toList ≤ Form.maxDepth := Schema.nesting_text hs ▸ hheight
  obtain ⟨tokens, hscan, hparse, -⟩ := Schema.parse_text hs hlexemes
  obtain ⟨d, hd, hrestores⟩ := hparse hnesting
  exact ⟨s, tokens, d, hs, hlexemes, hnesting, hscan, hd, hrestores,
    hrestores.constants_eq.trans hconstants, by rw [hrestores.registers_eq, hregisters]⟩

/-! ## The deepest texts -/

/-- A number below so many negations. -/
def negated : Nat → Expr
  | 0 => .node (.literal (.scalar 1)) .scalar []
  | n + 1 => .node (.unary .neg) .scalar [negated n]

/-- The same as it may be written in a source, with a bare number. -/
def negatedSexp : Nat → Sexp
  | 0 => .int 1
  | n + 1 => .list [.sym "neg", negatedSexp n]

def negatedText : Nat → String
  | 0 => Text.number 1
  | n + 1 => Text.form ["neg", negatedText n]

theorem negated_checks (Γ : Env) (ρ : List (Option Shape)) (n : Nat) :
    (negated n).Checks Γ ρ .scalar := by
  induction n with
  | zero => exact .node rfl .nil rfl
  | succ n ih => exact .node rfl (.cons ih .nil) rfl

theorem negated_shape (n : Nat) : (negated n).shape = .scalar := by
  cases n <;> rfl

theorem negated_denotes {cx : Grammar.Context} (hmodulus : 1 < cx.modulus)
    (ρ : List (Option Shape)) (n : Nat) : Grammar.Denotes cx ρ (negatedSexp n) (negated n) := by
  induction n with
  | zero => exact .number hmodulus
  | succ n ih =>
    show Grammar.Denotes cx ρ (.list ((Op.unary .neg).sexps [negatedSexp n])) _
    refine .node (.cons ih .nil) trivial ?_
    show some (negated n).shape = _
    rw [negated_shape]

theorem writes_negatedText (n : Nat) : Text.Writes (negatedText n) [negatedSexp n] := by
  induction n with
  | zero => exact Text.writes_number (by decide)
  | succ n ih => exact Text.writes_clause rfl (.single ih)

theorem height_negatedSexp (n : Nat) : (negatedSexp n).height = n := by
  induction n with
  | zero => rfl
  | succ n ih => simp [negatedSexp, Sexp.height, Sexp.heightAll, ih]

theorem length_kinds_negatedSexp (n : Nat) : (negatedSexp n).kinds.length = 3 * n + 1 := by
  induction n with
  | zero => rfl
  | succ n ih =>
    simp [negatedSexp, Sexp.kinds, Sexp.kindsAll, ih]
    omega

/-- In its canonical form the number takes a list of its own. -/
theorem height_negated (n : Nat) : (negated n).sexp.height = n + 1 := by
  induction n with
  | zero => rfl
  | succ n ih => simp [negated, Expr.sexp_node, Op.sexps, Sexp.height, Sexp.heightAll, ih]

theorem length_kinds_negated (n : Nat) : (negated n).sexp.kinds.length = 3 * n + 4 := by
  induction n with
  | zero => rfl
  | succ n ih =>
    simp [negated, Expr.sexp_node, Op.sexps, Sexp.kinds, Sexp.kindsAll, ih]
    omega

/-- The form of a procedure of kind `kind` with the result `x` and no statement before it. -/
def resultSexp (kind : ProcedureKind) (width : Nat) (x : Sexp) : Sexp :=
  .list [.sym kind.keyword, .list [.sym "span", .int kind.span],
    .list [.sym "result", .sym "vector", .int width], x]

theorem Grammar.ProcedureForm.of_result {modulus : Nat} {Γ : Env} {kind : ProcedureKind}
    {width : Nat} (hpos : 0 < width) (hlt : width < Shape.lengthBound) {x : Sexp} {e : Expr}
    (hchecks : e.Checks Γ [] (.vector width))
    (hdenotes : ∀ cx : Context, cx.modulus = modulus → cx.env = Γ → Denotes cx [] x e) :
    ProcedureForm modulus Γ kind (resultSexp kind width x)
      ⟨kind, width, Block.toBody ⟨[], [], e⟩⟩ := by
  refine ⟨rfl, hpos, hlt, ?_, [x], rfl, fun cx hmodulus henv => ?_⟩
  · rw [Block.toBody_block]
    refine ⟨⟨?_, by simp⟩, hchecks.checks⟩
    simpa [Block.exprs] using hchecks.sized
  · rw [Block.toBody_block]
    exact .result .nil (hdenotes cx hmodulus henv)

/-- A module whose transition is a number below `n` negations. -/
def nestedSchema (n : Nat) : Schema where
  modulus := 3
  constants := []
  functions := []
  registers := .empty
  transition := ⟨.transition, 1, Block.toBody ⟨[], [], .node .vector (.vector 1) [negated n]⟩⟩
  evaluation := ⟨.evaluation, 1, Block.toBody ⟨[], [], .node (.load .trace 0) (.vector 1) []⟩⟩
  transitionDegree := .vector [0]
  constraints := [1]

/-- A source of this module. -/
def nestedText (n : Nat) : String :=
  Text.form ["module", Text.form ["field", "prime", Text.number 3],
    Text.form ["transition", Text.form ["span", Text.number 1],
      Text.form ["result", "vector", Text.number 1], Text.form ["vector", negatedText n]],
    Text.form ["evaluation", Text.form ["span", Text.number 2],
      Text.form ["result", "vector", Text.number 1], Text.form ["load.trace", Text.number 0]]]

def nestedTransition (x : Sexp) : Sexp :=
  resultSexp .transition 1 (.list [.sym "vector", x])

def nestedEvaluation : Sexp :=
  resultSexp .evaluation 1 (.list [.sym "load.trace", .int 0])

/-- The form of the module in which `x` stands for the number below the negations. -/
def nestedSexp (x : Sexp) : Sexp :=
  .list (.sym "module" :: moduleSexps 3 [] [] .empty (nestedTransition x) nestedEvaluation)

theorem nestedSexp_eq (x : Sexp) :
    nestedSexp x = .list [.sym "module", .list [.sym "field", .sym "prime", .int 3],
      nestedTransition x, nestedEvaluation] :=
  rfl

theorem height_nestedSexp (x : Sexp) : (nestedSexp x).height = x.height + 3 := by
  rw [nestedSexp_eq]
  simp only [nestedTransition, nestedEvaluation, resultSexp, Sexp.height, Sexp.heightAll]
  omega

theorem length_kinds_nestedSexp (x : Sexp) :
    (nestedSexp x).kinds.length = x.kinds.length + 39 := by
  rw [nestedSexp_eq]
  simp only [nestedTransition, nestedEvaluation, resultSexp, Sexp.kinds, Sexp.kindsAll,
    List.length_append, List.length_cons, List.length_nil]
  omega

theorem nestedSchema_sexp (n : Nat) : (nestedSchema n).sexp = nestedSexp (negated n).sexp := by
  have hprocedure : ∀ (kind : ProcedureKind) (e : Expr),
      (Procedure.mk kind 1 (Block.toBody ⟨[], [], e⟩)).sexp = resultSexp kind 1 e.sexp := by
    intro kind e
    rw [Procedure.sexp, Block.toBody_block]
    rfl
  have htransition : (nestedSchema n).transition.sexp = nestedTransition (negated n).sexp := by
    rw [nestedSchema, hprocedure, Expr.sexp_node]
    rfl
  have hevaluation : (nestedSchema n).evaluation.sexp = nestedEvaluation := by
    rw [nestedSchema, hprocedure, Expr.sexp_node]
    rfl
  rw [Schema.sexp, htransition, hevaluation]
  rfl

theorem nestedSchema_declarable {n : Nat} (hn : 0 < n) :
    (nestedSchema n).Declarable (nestedTransition (negatedSexp n)) nestedEvaluation where
  modulus_ge := Nat.le_refl 3
  constants := by simp [nestedSchema]
  checked := by
    intro i f hf
    cases hf
  functions := by simp [nestedSchema]
  registers := ⟨trivial, by simp [nestedSchema, RegisterSet.empty], rfl⟩
  transition := by
    refine .of_result Nat.one_pos (by decide) (.node rfl (.cons (negated_checks _ _ n) .nil) rfl) ?_
    intro cx hmodulus henv
    have hbelow : 1 < cx.modulus := by
      rw [hmodulus]
      exact (by decide : 1 < 3)
    show Grammar.Denotes cx [] (.list (Op.vector.sexps [negatedSexp n])) _
    refine .node (.cons (negated_denotes hbelow [] n) .nil) ⟨_, List.mem_singleton.2 rfl, ?_⟩ ?_
    · cases n with
      | zero => cases hn
      | succ n => rfl
    · show (Rule.concat cx.env.overflow [(negated n).shape]).toOption = _
      rw [negated_shape, henv]
      rfl
  evaluation := by
    refine .of_result Nat.one_pos (by decide) (.node rfl .nil rfl) ?_
    intro cx _ henv
    show Grammar.Denotes cx [] (.list ((Op.load .trace 0).sexps [])) _
    refine .node .nil (show 0 < Grammar.indexBound by decide) ?_
    rw [henv]
    rfl

theorem writes_nestedText (n : Nat) :
    Text.Writes (nestedText n) [nestedSexp (negatedSexp n)] := by
  have hnumber : ∀ k < 4, Text.Writes (Text.number k) [.int k] := fun k hk =>
    Text.writes_number (Nat.lt_trans hk (by decide))
  have hfield : Text.Writes (Text.form ["field", "prime", Text.number 3])
      [.list [.sym "field", .sym "prime", .int 3]] :=
    Text.writes_clause rfl (.cons (Text.writes_symbol rfl) (.single (hnumber 3 (by decide))))
  have hspan : ∀ k < 4, Text.Writes (Text.form ["span", Text.number k])
      [.list [.sym "span", .int k]] := fun k hk =>
    Text.writes_clause rfl (.single (hnumber k hk))
  have hwidth : Text.Writes (Text.form ["result", "vector", Text.number 1])
      [.list [.sym "result", .sym "vector", .int 1]] :=
    Text.writes_clause rfl (.cons (Text.writes_symbol rfl) (.single (hnumber 1 (by decide))))
  have htransition : Text.Writes _ [nestedTransition (negatedSexp n)] :=
    Text.writes_clause rfl (.cons (hspan 1 (by decide)) (.cons hwidth
      (.single (Text.writes_clause rfl (.single (writes_negatedText n))))))
  have hevaluation : Text.Writes _ [nestedEvaluation] :=
    Text.writes_clause rfl (.cons (hspan 2 (by decide)) (.cons hwidth
      (.single (Text.writes_clause rfl (.single (hnumber 0 (by decide)))))))
  exact Text.writes_clause rfl (.cons hfield (.cons htransition (.single hevaluation)))

/-- A draft of the module can be built: both degrees are those of the blocks, which are restored. -/
theorem Draft.Restores.build_nested {d : Draft} {n : Nat} (hn : 0 < n)
    (h : d.Restores (nestedSchema n)) :
    ∃ s, d.build { sharing := { enabled := false } } = .ok s
      ∧ s.sexp = (nestedSchema n).sexp := by
  have hdeclarable := nestedSchema_declarable hn
  obtain ⟨t, ht, htsame⟩ := h.transition
  obtain ⟨e, he, hesame⟩ := h.evaluation
  have hfunctions : d.functions = [] := List.forall₂_nil_right_iff.1 h.functions
  have htchecks := hdeclarable.transition.checks
  rw [← htsame.block_eq] at htchecks
  obtain ⟨td, htd, -⟩ : ∃ td, Degree.Context.procedure ⟨[], [], 16⟩ t.body = .ok td
      ∧ td.Fits (.vector 1) :=
    Degree.Context.procedure_fits (by simp) hdeclarable.checked htchecks
      (show 1 < 2 ^ 61 by decide) (by decide)
  have hed : Degree.Context.procedure ⟨[], [], 16⟩ e.body = .ok (.vector [1]) := by
    refine Degree.Context.procedure_eq_ok.2 ⟨?_, rfl⟩
    rw [Degree.Context.body, hesame.block_eq]
    show Degree.Context.block _ _ [] (Block.toBody _).block = _
    rw [Block.toBody_block]
    rfl
  have hschema : Schema.mk 3 [] [] .empty t e td [1]
      = ⟨d.modulus, d.constants, d.functions.map (Function.share { enabled := false }), d.registers,
          t.share { enabled := false }, e.share { enabled := false }, td,
          (Tensor.vector [1]).elements⟩ := by
    rw [h.modulus_eq, h.constants_eq, h.registers_eq, hfunctions, Procedure.share_plain rfl,
      Procedure.share_plain rfl]
    rfl
  have hlimits : (Schema.mk 3 [] [] .empty t e td [1]).violations {} = [] := by
    rw [Schema.violations, Schema.traceWidth, htsame.width_eq]
    rfl
  have hbuild := Draft.build_eq (o := { sharing := { enabled := false } })
    (s := ⟨3, [], [], .empty, t, e, td, [1]⟩) ht he hschema htd hed
  refine ⟨⟨3, [], [], .empty, t, e, td, [1]⟩, hbuild.trans (if_pos hlimits), ?_⟩
  rw [Schema.sexp, htsame.sexp_eq, hesame.sexp_eq]
  rfl

/-- **The module compiles** if its source does not nest too deep. -/
theorem compile_nestedText {n : Nat} (hn : 0 < n) (hdepth : n + 3 ≤ Form.maxDepth) :
    ∃ s, compile (nestedText n).toList { sharing := { enabled := false } } = .ok s
      ∧ s.sexp = (nestedSchema n).sexp := by
  have hdeclarable := nestedSchema_declarable hn
  have hwrites := writes_nestedText n
  have hlexemes : Text.lexemes (nestedText n).toList ≤ Token.maxCount := by
    rw [hwrites.lexemes_eq, length_kinds_nestedSexp, length_kinds_negatedSexp]
    unfold Form.maxDepth at hdepth
    unfold Token.maxCount
    omega
  have hnesting : Text.nesting (nestedText n).toList ≤ Form.maxDepth := by
    rw [hwrites.nesting_eq hdeclarable.full, height_nestedSexp, height_negatedSexp]
    exact hdepth
  obtain ⟨tokens, hscan, hparse, -⟩ := Grammar.parse_writes hdeclarable hwrites hlexemes
  obtain ⟨d, hd, hrestores⟩ := hparse hnesting
  obtain ⟨s, hbuild, hsexp⟩ := hrestores.build_nested hn
  refine ⟨s, ?_, hsexp⟩
  rw [compile, hscan]
  show (Grammar.parse tokens >>= fun d => d.build _) = _
  rw [hd]
  exact hbuild

/-- **A canonical text that nests one level deeper is refused**: its source compiles, as a bare
number there stands where the canonical text has a list of its own. -/
theorem Schema.parse_text_nested :
    ∃ s, compile (nestedText 1021).toList { sharing := { enabled := false } } = .ok s
      ∧ Text.lexemes s.text.toList ≤ Token.maxCount
      ∧ Text.nesting s.text.toList = 1 + 1024
      ∧ ∃ tokens, Token.scan s.text.toList = .ok tokens
        ∧ Grammar.parse tokens = .error [.limit .parseDepth] := by
  -- 1021 negations lie inside the module, the transition and the vector: the source nests 1024
  -- deep, and its canonical text one deeper
  obtain ⟨s, hs, hsexp⟩ := compile_nestedText (n := 1021) (by decide) (by decide)
  rw [nestedSchema_sexp] at hsexp
  have hlexemes : Text.lexemes s.text.toList ≤ Token.maxCount := by
    rw [Schema.lexemes_text hs, hsexp, length_kinds_nestedSexp, length_kinds_negated]
    decide
  have hnesting : Text.nesting s.text.toList = 1 + 1024 := by
    rw [Schema.nesting_text hs, hsexp, height_nestedSexp, height_negated]
  obtain ⟨hlegible, hdeclarable⟩ := compile_declarable hs
  obtain ⟨tokens, hscan, -, hdeep⟩ :=
    Grammar.parse_writes hdeclarable hlegible.writes hlexemes
  refine ⟨s, hs, hlexemes, hnesting, tokens, hscan, hdeep ?_⟩
  rw [hnesting]
  decide

end Arithmetization
