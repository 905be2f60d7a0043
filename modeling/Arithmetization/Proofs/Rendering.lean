import Arithmetization.Proofs.Canonical

/-!
Canonical texts.

The canonical text of a legible schema spells the tokens of its canonical form
(`Schema.Legible.writes`). A text is put together from words with blanks between them and from
lines with an indentation in front, so there is one lemma for each of the two and one for each kind
of word.
-/

set_option autoImplicit false

namespace Arithmetization

namespace Text

open Token (Spells isSymbol intBound)

/-- The text spells the tokens of the forms. -/
def Writes (text : String) (xs : List Sexp) : Prop :=
  Spells text.toList (xs.flatMap Sexp.kinds)

/-- Words that spell the tokens of the forms together. -/
inductive Words : List String → List Sexp → Prop
  | nil : Words [] []
  | cons {w : String} {ws : List String} {xs ys : List Sexp} (hw : Writes w xs)
      (hws : Words ws ys) : Words (w :: ws) (xs ++ ys)

namespace Words

variable {ws vs : List String} {xs ys : List Sexp}

theorem single {w : String} (h : Writes w xs) : Words [w] xs := by
  have hwords := Words.cons h .nil
  rwa [List.append_nil] at hwords

theorem append (h : Words ws xs) (h' : Words vs ys) : Words (ws ++ vs) (xs ++ ys) := by
  induction h with
  | nil => exact h'
  | cons hw _ ih =>
    rw [List.cons_append, List.append_assoc]
    exact .cons hw ih

/-- One word for each form. -/
theorem map {α : Type} {l : List α} {f : α → String} {g : α → Sexp}
    (h : ∀ a ∈ l, Writes (f a) [g a]) : Words (l.map f) (l.map g) := by
  induction l with
  | nil => exact .nil
  | cons a l ih =>
    rw [List.forall_mem_cons] at h
    exact .cons h.1 (ih h.2)

theorem spells (h : Words ws xs) :
    ∃ kss, List.Forall₂ (fun w ks => Spells w.toList ks) ws kss
      ∧ kss.flatten = xs.flatMap Sexp.kinds := by
  induction h with
  | nil => exact ⟨[], .nil, rfl⟩
  | cons hw _ ih =>
    obtain ⟨kss, hkss, hflatten⟩ := ih
    refine ⟨_ :: kss, .cons hw hkss, ?_⟩
    rw [List.flatten_cons, hflatten, List.flatMap_append]

end Words

theorem writes_words {ws : List String} {xs : List Sexp} (h : Words ws xs) :
    Writes (words ws) xs := by
  obtain ⟨kss, hkss, hflatten⟩ := h.spells
  have hwords := Token.spells_words hkss
  rwa [hflatten] at hwords

theorem writes_form {ws : List String} {xs : List Sexp} (h : Words ws xs) :
    Writes (form ws) [.list xs] := by
  obtain ⟨kss, hkss, hflatten⟩ := h.spells
  rw [Writes, List.flatMap_singleton, Sexp.kinds_list, ← hflatten]
  exact Token.spells_form hkss

theorem writes_symbol {name : String} (h : isSymbol name.toList = true) :
    Writes name [.sym name] :=
  Token.spells_symbol h

/-- A list that starts with a symbol. -/
theorem writes_clause {name : String} (hname : isSymbol name.toList = true) {ws : List String}
    {xs : List Sexp} (h : Words ws xs) :
    Writes (form (name :: ws)) [.list (.sym name :: xs)] :=
  writes_form (.cons (writes_symbol hname) h)

theorem writes_number {n : Nat} (h : n < intBound) : Writes (number n) [.int n] :=
  Token.spells_number h

theorem writes_hex {bytes : List UInt8} (h : bytes ≠ []) :
    Writes ("0x" ++ hexText bytes) [.hex bytes] :=
  Token.spells_hex h

/-- Numbers below the modulus of a module and indexes are not too large. -/
theorem writes_index {n : Nat} (h : n < Grammar.indexBound) : Writes (number n) [.int n] :=
  writes_number (Nat.lt_trans h (by decide))

/-! ## Lines -/

/-- A text that spells the tokens of the forms and does not run into what comes before it. -/
structure Follows (text : String) (xs : List Sexp) : Prop where
  writes : Writes text xs
  delimited : Delimited text.toList

namespace Follows

variable {t u : String} {xs ys : List Sexp}

theorem nil : Follows "" [] :=
  ⟨.nil, delimited_nil⟩

theorem append (h : Follows t xs) (h' : Follows u ys) : Follows (t ++ u) (xs ++ ys) := by
  constructor
  · rw [Writes, String.toList_append, List.flatMap_append]
    exact h.writes.append h'.writes h'.delimited
  · rw [String.toList_append]
    exact h.delimited.append h'.delimited

/-- Texts one after the other, one for each form. -/
theorem join {α : Type} {l : List α} {f : α → String} {g : α → Sexp}
    (h : ∀ a ∈ l, Follows (f a) [g a]) : Follows (String.join (l.map f)) (l.map g) := by
  induction l with
  | nil => exact .nil
  | cons a l ih =>
    rw [List.forall_mem_cons] at h
    rw [List.map_cons, String.join_cons]
    exact h.1.append (ih h.2)

end Follows

/-- Blanks in front of a text. -/
theorem follows_blanks {blanks t : String} {xs : List Sexp} (hne : blanks.toList ≠ [])
    (hblanks : blanks.toList.all isBlank = true) (h : Writes t xs) :
    Follows (blanks ++ t) xs := by
  rw [List.all_eq_true] at hblanks
  have hspells : ∀ cs : List Char, (∀ c ∈ cs, isBlank c = true) →
      Spells (cs ++ t.toList) (xs.flatMap Sexp.kinds) := by
    intro cs hcs
    induction cs with
    | nil => exact h
    | cons c cs ih =>
      rw [List.forall_mem_cons] at hcs
      exact (ih hcs.2).blank hcs.1
  constructor
  · rw [Writes, String.toList_append]
    exact hspells _ hblanks
  · rw [String.toList_append]
    cases hchars : blanks.toList with
    | nil => exact absurd hchars hne
    | cons c cs => exact delimited_cons (.inr (hblanks c (hchars ▸ List.mem_cons_self ..)))

/-- A line break and the indentation of a section. -/
theorem follows_line {t : String} {xs : List Sexp} (h : Writes t xs) :
    Follows ("\n  " ++ t) xs :=
  follows_blanks (by decide) rfl h

theorem follows_inner {t : String} {xs : List Sexp} (h : Writes t xs) :
    Follows (inner ++ t) xs :=
  follows_blanks (by decide) rfl h

/-- A symbol and what follows it, in parentheses. -/
theorem Follows.paren {t name : String} {xs : List Sexp} (h : Follows t xs)
    (hname : isSymbol name.toList = true) :
    Writes ("(" ++ name ++ t ++ ")") [.list (.sym name :: xs)] := by
  have hchars : ("(" ++ name ++ t ++ ")").toList = '(' :: ((name.toList ++ t.toList) ++ [')']) := by
    rw [String.toList_append, String.toList_append, String.toList_append]
    rfl
  rw [Writes, hchars, List.flatMap_singleton, Sexp.kinds_list, List.flatMap_cons]
  exact ((Token.spells_symbol hname).append h.writes h.delimited).paren

/-- A section: a line that opens it, and lines inside it. -/
theorem Follows.enclosed {opening name t : String} {xs : List Sexp} (h : Follows t xs)
    (hopening : opening = "\n  " ++ ("(" ++ name)) (hname : isSymbol name.toList = true) :
    Follows (opening ++ t ++ ")") [.list (.sym name :: xs)] := by
  have hline := follows_line (h.paren hname)
  subst hopening
  simp only [String.append_assoc] at hline ⊢
  exact hline

/-- A symbol, a blank and another text. -/
theorem writes_after (name : String) (hname : isSymbol name.toList = true) {t : String}
    {xs : List Sexp} (h : Writes t xs) : Writes (name ++ " " ++ t) (.sym name :: xs) := by
  have hchars : (name ++ " " ++ t).toList = name.toList ++ ' ' :: t.toList := by
    rw [String.toList_append, String.toList_append, List.append_assoc]
    rfl
  rw [Writes, hchars, List.flatMap_cons]
  exact (Token.spells_symbol hname).spaced h

end Text

open Text

/-! ## Types, literals and expressions -/

theorem Shape.Writable.writes {s : Shape} (h : s.Writable) : Writes s.text s.sexps := by
  have hrows : Writes (number s.rows) [.int s.rows] := writes_index h.rows_lt
  have hcols : Writes (number s.cols) [.int s.cols] := writes_index h.cols_lt
  unfold Shape.text Shape.sexps
  by_cases hscalar : s.isScalar = true
  · rw [if_pos hscalar, if_pos hscalar]
    exact writes_symbol rfl
  rw [if_neg hscalar, if_neg hscalar]
  by_cases hvector : s.isVector = true
  · rw [if_pos hvector, if_pos hvector]
    exact writes_after "vector" rfl hrows
  · rw [if_neg hvector, if_neg hvector]
    have hboth : Writes (words [number s.rows, number s.cols]) [.int s.rows, .int s.cols] :=
      writes_words (.cons hrows (.single hcols))
    have htext : s!"matrix {s.rows} {s.cols}"
        = "matrix" ++ " " ++ words [number s.rows, number s.cols] := by
      rw [words, String.intercalate_cons_cons, String.intercalate_singleton, ← String.append_assoc,
        ← String.append_assoc]
      rfl
    rw [htext]
    exact writes_after "matrix" rfl hboth

section

variable {modulus : Nat} (hmodulus : modulus ≤ Token.intBound)
include hmodulus

theorem Literal.Below.writes {value : Literal} (h : Literal.Below modulus value) :
    Writes (Literal.text value) (Literal.sexps value) := by
  have hnumber : ∀ x ∈ value.elements, Writes (number x) [.int x] := fun x hx =>
    writes_number (Nat.lt_of_lt_of_le (h x hx) hmodulus)
  cases value with
  | scalar x => exact writes_after "scalar" rfl (hnumber x (List.mem_singleton.2 rfl))
  | vector xs => exact writes_after "vector" rfl (writes_words (.map hnumber))
  | matrix rows =>
    have hrow : ∀ row ∈ rows, Writes (form (row.map number)) [.list (row.map .int)] := by
      intro row hrow
      exact writes_form (.map fun x hx => hnumber x (List.mem_flatten.2 ⟨row, hrow, hx⟩))
    exact writes_after "matrix" rfl (writes_words (.map hrow))

/-- **The canonical text of an expression spells its canonical form.** -/
theorem Expr.Legible.writes {locals : List Shape} (hbound : locals.length ≤ Grammar.indexBound)
    {e : Expr} (h : e.Legible modulus locals) : Writes e.text [e.sexp] := by
  induction e using Expr.induction with
  | node op s args ih =>
    obtain ⟨⟨-, hop⟩, hargs⟩ := Expr.legible_node.1 h
    have htexts : ∀ a ∈ args, Writes a.text [a.sexp] := fun a ha => ih a ha (hargs a ha)
    have hall : Words (args.map Expr.text) (args.map Expr.sexp) := .map htexts
    rw [Expr.sexp_node, Expr.text, Expr.fold_node, ← Expr.text]
    apply writes_form
    cases op with
    | literal value => exact .single (Literal.Below.writes hmodulus hop)
    | load source i =>
      have hi : i < Grammar.indexBound := by
        cases source with
        | «local» => exact Nat.lt_of_lt_of_le (List.getElem?_eq_some_iff.1 hop).1 hbound
        | _ => exact hop
      exact .cons (writes_symbol (by cases source <;> rfl)) (.single (writes_index hi))
    | segment row first last =>
      obtain ⟨hrow, hfirst, hlast⟩ := hop
      have htrace : Writes (form [Source.trace.keyword, number row])
          [.list [.sym Source.trace.keyword, .int row]] :=
        writes_clause rfl (.single (writes_index hrow))
      exact .cons (writes_symbol rfl) (.cons htrace
        (.cons (writes_index hfirst) (.single (writes_index hlast))))
    | binary op => exact .cons (writes_symbol (by cases op <;> rfl)) hall
    | unary op => exact .cons (writes_symbol (by cases op <;> rfl)) hall
    | vector => exact .cons (writes_symbol rfl) hall
    | matrix widths =>
      refine .cons (writes_symbol rfl) ?_
      -- each row is a list of its own, of the texts of its elements
      rw [Tensor.chunks_map, Tensor.chunks_map, List.map_map, List.map_map]
      refine .map fun row hrow => ?_
      exact writes_form (.map fun a ha => htexts a (Tensor.subset_of_mem_chunks hrow ha))
    | get i => exact .cons (writes_symbol rfl) (hall.append (.single (writes_index hop)))
    | slice first last =>
      exact .cons (writes_symbol rfl) (hall.append
        (.cons (writes_index hop.1) (.single (writes_index hop.2.1))))
    | call f => exact .cons (writes_symbol rfl) (.cons (writes_index hop) hall)

/-! ## Sections -/

omit hmodulus in
theorem Shape.Writable.writes_clause {name : String} (hname : Token.isSymbol name.toList = true)
    {s : Shape} (h : s.Writable) : Writes (form [name, s.text]) [s.clause name] :=
  Text.writes_clause hname (.single h.writes)

/-- The statements of a body, up to the parenthesis that closes the section. -/
theorem Body.Legible.follows {b : Body} (h : b.Legible modulus) :
    ∃ t, b.text = t ++ ")" ∧ Follows t b.block.sexps := by
  obtain ⟨hblock, hbound⟩ := h
  have hlocals : ∀ s ∈ b.block.locals,
      Follows (inner ++ form ["local", s.text]) [s.clause "local"] := fun s hs =>
    follows_inner ((hblock.locals s hs).writes_clause rfl)
  have hstores : ∀ t ∈ b.block.stores,
      Follows (inner ++ form ["store.local", number t.target, t.value.text]) [t.sexp] := by
    intro t ht
    have htarget := (List.getElem?_eq_some_iff.1 (hblock.stores t ht)).1
    exact follows_inner (writes_clause rfl
      (.cons (writes_index (Nat.lt_of_lt_of_le htarget hbound))
        (.single ((hblock.value ht).writes hmodulus hbound))))
  refine ⟨_, rfl, ?_⟩
  rw [String.join_append, String.append_assoc]
  exact ((Follows.join hlocals).append (.join hstores)).append
    (follows_inner (hblock.result.writes hmodulus hbound))

theorem Function.Legible.follows {f : Function} (h : f.Legible modulus) :
    Follows f.text [f.sexp] := by
  obtain ⟨t, ht, hbody⟩ := h.body.follows hmodulus
  have hresult : Follows (inner ++ form ["result", f.result.text]) [f.result.clause "result"] :=
    follows_inner (h.result.writes_clause rfl)
  have hparams : Follows (String.join (f.params.map fun p => inner ++ form ["param", p.text]))
      (f.params.map (Shape.clause "param")) :=
    .join fun p hp => follows_inner ((h.params p hp).writes_clause rfl)
  have htext : f.text = "\n  (function" ++ (inner ++ form ["result", f.result.text]
      ++ (String.join (f.params.map fun p => inner ++ form ["param", p.text]) ++ t)) ++ ")" := by
    unfold Function.text
    simp only [ht, String.append_assoc]
  rw [htext]
  exact (hresult.append (hparams.append hbody)).enclosed rfl rfl

theorem Procedure.Legible.follows {p : Procedure} (h : p.Legible modulus) :
    Follows p.text [p.sexp] := by
  obtain ⟨t, ht, hbody⟩ := h.body.follows hmodulus
  have hspan : Follows (inner ++ form ["span", number p.kind.span])
      [.list [.sym "span", .int p.kind.span]] := by
    refine follows_inner (writes_clause rfl (.single (writes_index ?_)))
    cases p.kind <;> decide
  have hresult : Follows (inner ++ form ["result", "vector", number p.width])
      [.list [.sym "result", .sym "vector", .int p.width]] :=
    follows_inner (writes_clause rfl
      (.cons (writes_symbol rfl) (.single (writes_index h.width_lt))))
  have htext : p.text = "\n  (" ++ p.kind.keyword ++ (inner ++ form ["span", number p.kind.span]
      ++ (inner ++ form ["result", "vector", number p.width] ++ t)) ++ ")" := by
    unfold Procedure.text
    simp only [ht, String.append_assoc]
  rw [htext]
  exact (hspan.append (hresult.append hbody)).enclosed (by cases p.kind <;> rfl)
    (by cases p.kind <;> rfl)

theorem Register.Legible.writes {r : Register} (h : r.Legible modulus) :
    Writes r.text [r.sexp] := by
  cases r with
  | input r =>
    obtain ⟨hparent, hsteps⟩ := h
    have hsecret : Words ["input", if r.secret then "secret" else "public"]
        [.sym "input", .sym (if r.secret then "secret" else "public")] :=
      .cons (writes_symbol rfl) (.single (writes_symbol (by cases r.secret <;> rfl)))
    have hbinary : Words (if r.binary then ["binary"] else [])
        (if r.binary then [.sym "binary"] else []) := by
      cases r.binary with
      | true => exact .single (writes_symbol rfl)
      | false => exact .nil
    have hbinding : Writes r.binding [r.bindingSexp] := by
      unfold InputRegister.binding InputRegister.bindingSexp
      split
      · exact writes_symbol rfl
      · cases hp : r.parent with
        | none => exact writes_symbol rfl
        | some p =>
          exact writes_clause rfl (.single (writes_index (hparent p hp)))
    have hpattern : Writes r.pattern [r.patternSexp] := by
      unfold InputRegister.pattern InputRegister.patternSexp
      cases hn : r.steps with
      | none => exact writes_symbol rfl
      | some n =>
        exact writes_clause rfl (.single (writes_index (hsteps n hn)))
    exact writes_form ((hsecret.append hbinary).append (.cons hbinding (.single hpattern)))
  | cycle source =>
    refine writes_clause rfl ?_
    cases source with
    | values vs => exact .map fun v hv => writes_number (Nat.lt_of_lt_of_le (h v hv) hmodulus)
    | prng seed count =>
      exact .single (writes_clause rfl (.cons (writes_symbol rfl)
        (.cons (writes_hex h.1) (.single (writes_index h.2)))))
    | power base count =>
      exact .single (writes_clause rfl
        (.cons (writes_number (Nat.lt_of_lt_of_le h.1 hmodulus)) (.single (writes_index h.2))))
  | mask source value =>
    exact writes_clause rfl (.cons (writes_index h.1)
      (.single (writes_number (Nat.lt_of_lt_of_le h.2 hmodulus))))

theorem RegisterSet.follows {set : RegisterSet} (h : ∀ r ∈ set.registers, r.Legible modulus) :
    Follows set.text set.sexps := by
  unfold RegisterSet.text RegisterSet.sexps
  split
  · exact .nil
  · have hlines : Follows (String.join (set.registers.map fun r => inner ++ r.text))
        (set.registers.map Register.sexp) :=
      .join fun r hr => follows_inner ((h r hr).writes hmodulus)
    exact hlines.enclosed rfl rfl

end

/-- **The canonical text spells the canonical form.** -/
theorem Schema.Legible.writes {s : Schema} (h : s.Legible) : Writes s.text [s.sexp] := by
  have hmodulus := Nat.le_of_lt h.modulus_lt
  have hfield : Follows ("\n  " ++ form ["field", "prime", number s.modulus])
      [.list [.sym "field", .sym "prime", .int s.modulus]] :=
    follows_line (writes_clause rfl (.cons (writes_symbol rfl)
      (.single (writes_number h.modulus_lt))))
  have hconstants : Follows
      (String.join (s.constants.map fun c => "\n  (const " ++ Literal.text c ++ ")"))
      (s.constants.map fun c => .list (.sym "const" :: Literal.sexps c)) := by
    refine .join fun c hc => ?_
    have htext : "\n  (const " ++ Literal.text c ++ ")"
        = "\n  " ++ form ["const", Literal.text c] := by
      rw [form, words, String.intercalate_cons_cons, String.intercalate_singleton]
      simp only [← String.append_assoc]
      rfl
    rw [htext]
    exact follows_line (writes_clause rfl
      (.single (Literal.Below.writes hmodulus (h.constants c hc))))
  have hfunctions : Follows (String.join (s.functions.map Function.text))
      (s.functions.map Function.sexp) :=
    .join fun f hf => (h.functions f hf).follows hmodulus
  have hregisters := RegisterSet.follows hmodulus h.registers
  have hprocedures := (h.transition.follows hmodulus).append (h.evaluation.follows hmodulus)
  have hopening : "(module\n  " = "(" ++ "module" ++ "\n  " := rfl
  have htext : s.text = "(" ++ "module" ++ ("\n  " ++ form ["field", "prime", number s.modulus]
      ++ (String.join (s.constants.map fun c => "\n  (const " ++ Literal.text c ++ ")")
        ++ String.join (s.functions.map Function.text) ++ s.registers.text
        ++ (s.transition.text ++ s.evaluation.text))) ++ ")" := by
    unfold Schema.text
    rw [hopening]
    simp only [String.append_assoc]
  rw [htext]
  have hsections := ((hconstants.append hfunctions).append hregisters).append hprocedures
  exact (hfield.append hsections).paren rfl

end Arithmetization
