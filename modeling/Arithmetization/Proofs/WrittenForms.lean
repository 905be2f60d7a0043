import Arithmetization.Grammar.Expr
import Arithmetization.Proofs.Reading
import Arithmetization.Proofs.Tensors

/-!
Written forms.

Types, literals and the keywords of expressions have one written form each, and they are read from
this form and from nothing else: for atoms (`Grammar.index_eq_ok`, `Grammar.element_eq_ok`), types
(`Grammar.type_eq_ok`) and literals (`Grammar.literal_eq_ok`) accepting is an equivalence. What is
said about expressions and statements later is said about written forms, so the functions that read
these small parts are not looked at again.
-/

set_option autoImplicit false

namespace Arithmetization

/-! ## Written forms -/

namespace Shape

/-- Shapes that a type can name: their lengths are not too long to be written. -/
structure Writable (s : Shape) : Prop where
  valid : s.Valid
  rows_lt : s.rows < lengthBound
  cols_lt : s.cols < lengthBound

theorem writable_scalar : scalar.Writable :=
  ⟨fun _ => rfl, by decide, by decide⟩

theorem writable_vector {n : Nat} (hn : n < lengthBound) : (vector n).Writable :=
  ⟨fun _ => rfl, hn, Nat.zero_lt_of_lt hn⟩

theorem writable_matrix {r c : Nat} (hr : 0 < r) (hrows : r < lengthBound)
    (hcols : c < lengthBound) : (matrix r c).Writable :=
  ⟨fun h => absurd h (Nat.ne_of_gt hr), hrows, hcols⟩

/-- The written form of a type. -/
def sexps (s : Shape) : List Sexp :=
  if s.isScalar then [.sym "scalar"]
  else if s.isVector then [.sym "vector", .int s.rows]
  else [.sym "matrix", .int s.rows, .int s.cols]

theorem sexps_vector {n : Nat} (hn : 0 < n) : (vector n).sexps = [.sym "vector", .int n] := by
  rw [sexps, if_neg (by simp [isScalar, vector]; omega), if_pos ((isVector_iff _).2 ⟨n, hn, rfl⟩)]
  rfl

theorem sexps_matrix {r c : Nat} (hr : 0 < r) (hc : 0 < c) :
    (matrix r c).sexps = [.sym "matrix", .int r, .int c] := by
  rw [sexps, if_neg (by simp [isScalar, matrix]; omega),
    if_neg (by simp [isVector, matrix]; omega)]
  rfl

theorem Valid.cases {s : Shape} (h : s.Valid) :
    s = scalar ∨ (∃ n, 0 < n ∧ s = vector n) ∨ ∃ r c, 0 < r ∧ 0 < c ∧ s = matrix r c := by
  obtain ⟨rows, cols⟩ := s
  by_cases hrows : rows = 0
  · subst hrows
    obtain rfl : cols = 0 := h rfl
    exact .inl rfl
  by_cases hcols : cols = 0
  · subst hcols
    exact .inr (.inl ⟨rows, Nat.pos_of_ne_zero hrows, rfl⟩)
  · exact .inr (.inr ⟨rows, cols, Nat.pos_of_ne_zero hrows, Nat.pos_of_ne_zero hcols, rfl⟩)

end Shape

/-- The written form of a literal. -/
def Literal.sexps : Literal → List Sexp
  | .scalar x => [.sym "scalar", .int x]
  | .vector xs => .sym "vector" :: xs.map .int
  | .matrix rows => .sym "matrix" :: rows.map fun row => .list (row.map .int)

/-- All numbers of a literal are below a modulus. -/
def Literal.Below (modulus : Nat) (value : Literal) : Prop :=
  ∀ x ∈ value.elements, x < modulus

/-- The written form of an operator over the written forms of its operands. -/
def Op.sexps (op : Op) (args : List Sexp) : List Sexp :=
  match op with
  | .literal value => Literal.sexps value
  | .load source i => [.sym source.keyword, .int i]
  | .segment row first last =>
    [.sym "slice", .list [.sym Source.trace.keyword, .int row], .int first, .int last]
  | .binary op => .sym op.keyword :: args
  | .unary op => .sym op.keyword :: args
  | .vector => .sym "vector" :: args
  | .matrix widths => .sym "matrix" :: (Tensor.chunks widths args).map .list
  | .get i => .sym "get" :: (args ++ [.int i])
  | .slice first last => .sym "slice" :: (args ++ [.int first, .int last])
  | .call f => .sym "call" :: .int f :: args

/-- Whether a form is a number. -/
def Sexp.isInt : Sexp → Bool
  | .int _ => true
  | _ => false

/-- Forms that are written in a given way, one by one. -/
theorem Form.map_bare_eq {fs : List Form} {xs : List Sexp} :
    fs.map bare = xs ↔ List.Forall₂ (fun x f => bare f = x) xs fs := by
  rw [← List.forall₂_eq_eq_eq, List.forall₂_map_left_iff]
  exact ⟨fun h => h.flip, fun h => h.flip⟩

theorem Form.isInt_bare (f : Form) : f.bare.isInt = f.isInt := by
  cases f <;> rfl

/-! ## Atoms, types and literals -/

namespace Grammar

open Form

theorem int_eq_ok {expected : Expected} {f : Form} {n : Nat} :
    int expected f = .ok n ↔ f.bare = .int n := by
  rw [bare_eq_int]
  constructor
  · intro h
    cases f with
    | int m pos =>
      obtain rfl := Except.ok.inj h
      exact ⟨pos, rfl⟩
    | _ => cases h
  · rintro ⟨pos, rfl⟩
    rfl

theorem index_eq_ok {f : Form} {n : Nat} :
    index f = .ok n ↔ f.bare = .int n ∧ n < indexBound := by
  rw [index, bind_eq_ok]
  simp only [int_eq_ok]
  constructor
  · rintro ⟨m, hm, h⟩
    split at h
    · next hlt =>
      obtain rfl := pure_eq_ok.1 h
      exact ⟨hm, hlt⟩
    · cases h
  · rintro ⟨hf, hlt⟩
    exact ⟨n, hf, by rw [if_pos hlt]; rfl⟩

theorem element_eq_ok {modulus : Nat} {f : Form} {n : Nat} :
    element modulus f = .ok n ↔ f.bare = .int n ∧ n < modulus := by
  rw [element, bind_eq_ok]
  simp only [int_eq_ok]
  constructor
  · rintro ⟨m, hm, h⟩
    split at h
    · next hlt =>
      obtain rfl := pure_eq_ok.1 h
      exact ⟨hm, hlt⟩
    · cases h
  · rintro ⟨hf, hlt⟩
    exact ⟨n, hf, by rw [if_pos hlt]; rfl⟩

theorem length_eq_ok {f : Form} {n : Nat} :
    length f = .ok n ↔ f.bare = .int n ∧ 0 < n ∧ n < Shape.lengthBound := by
  rw [length, bind_eq_ok]
  simp only [index_eq_ok]
  constructor
  · rintro ⟨m, ⟨hm, hlt⟩, h⟩
    split at h
    · cases h
    · next hne =>
      obtain rfl := pure_eq_ok.1 h
      exact ⟨hm, Nat.pos_of_ne_zero hne, hlt⟩
  · rintro ⟨hf, hpos, hlt⟩
    exact ⟨n, ⟨hf, hlt⟩, by rw [if_neg (Nat.ne_of_gt hpos)]; rfl⟩

/-- **A type is read from its written form and from nothing else.** -/
theorem type_eq_ok {pos : Position} {fs : List Form} {s : Shape} :
    type pos fs = .ok s ↔ fs.map bare = s.sexps ∧ s.Writable := by
  constructor
  · intro h
    unfold type at h
    split at h
    · obtain rfl := Except.ok.inj h
      exact ⟨rfl, fun _ => rfl, by decide, by decide⟩
    · obtain ⟨n, hn, hs⟩ := bind_eq_ok.1 h
      obtain ⟨hf, hpos, hlt⟩ := length_eq_ok.1 hn
      rw [← pure_eq_ok.1 hs, Shape.sexps_vector hpos, List.map_cons, List.map_cons, hf]
      exact ⟨rfl, fun _ => rfl, hlt, Nat.lt_of_le_of_lt (Nat.zero_le _) hlt⟩
    · obtain ⟨r, hr, hs⟩ := bind_eq_ok.1 h
      obtain ⟨c, hc, hs⟩ := bind_eq_ok.1 hs
      obtain ⟨hrf, hrpos, hrlt⟩ := length_eq_ok.1 hr
      obtain ⟨hcf, hcpos, hclt⟩ := length_eq_ok.1 hc
      rw [← pure_eq_ok.1 hs, Shape.sexps_matrix hrpos hcpos, List.map_cons, List.map_cons,
        List.map_cons, hrf, hcf]
      exact ⟨rfl, fun hzero => absurd hzero (Nat.ne_of_gt hrpos), hrlt, hclt⟩
    · cases h
  · rintro ⟨hfs, hs⟩
    rcases hs.valid.cases with rfl | ⟨n, hn, rfl⟩ | ⟨r, c, hr, hc, rfl⟩
    · obtain ⟨f, _, rfl, hf, hnil⟩ := List.map_eq_cons_iff.1 hfs
      obtain ⟨p, rfl⟩ := bare_eq_sym.1 hf
      rw [List.map_eq_nil_iff.1 hnil]
      rfl
    · rw [Shape.sexps_vector hn] at hfs
      obtain ⟨f, fs₁, rfl, hf, hfs₁⟩ := List.map_eq_cons_iff.1 hfs
      obtain ⟨g, fs₂, rfl, hg, hnil⟩ := List.map_eq_cons_iff.1 hfs₁
      obtain ⟨p, rfl⟩ := bare_eq_sym.1 hf
      rw [List.map_eq_nil_iff.1 hnil, type, length_eq_ok.2 ⟨hg, hn, hs.rows_lt⟩]
      rfl
    · rw [Shape.sexps_matrix hr hc] at hfs
      obtain ⟨f, fs₁, rfl, hf, hfs₁⟩ := List.map_eq_cons_iff.1 hfs
      obtain ⟨g, fs₂, rfl, hg, hfs₂⟩ := List.map_eq_cons_iff.1 hfs₁
      obtain ⟨g', fs₃, rfl, hg', hnil⟩ := List.map_eq_cons_iff.1 hfs₂
      obtain ⟨p, rfl⟩ := bare_eq_sym.1 hf
      rw [List.map_eq_nil_iff.1 hnil, type, length_eq_ok.2 ⟨hg, hr, hs.rows_lt⟩,
        length_eq_ok.2 ⟨hg', hc, hs.cols_lt⟩]
      rfl

/-- Reading a list item by item, where each item has one written form. -/
theorem mapM_eq_ok_of_written {α : Type} {g : Form → Except Fault α} {written : α → Sexp}
    {P : α → Prop} (h : ∀ f a, g f = .ok a ↔ f.bare = written a ∧ P a) {fs : List Form}
    {as : List α} : fs.mapM g = .ok as ↔ fs.map bare = as.map written ∧ ∀ a ∈ as, P a := by
  rw [mapM_eq_ok]
  simp only [h]
  constructor
  · intro hall
    induction hall with
    | nil => exact ⟨rfl, by simp⟩
    | cons ha _ ih =>
      rw [List.map_cons, List.map_cons, ha.1, ih.1, List.forall_mem_cons]
      exact ⟨rfl, ha.2, ih.2⟩
  · rintro ⟨hfs, has⟩
    induction fs generalizing as with
    | nil =>
      rw [List.map_eq_nil_iff.1 hfs.symm]
      exact .nil
    | cons f fs ih =>
      obtain ⟨a, as, rfl, ha, hrest⟩ := List.map_eq_cons_iff.1 hfs.symm
      rw [List.forall_mem_cons] at has
      exact .cons ⟨ha.symm, has.1⟩ (ih hrest.symm has.2)

theorem mapM_element_eq_ok {modulus : Nat} {fs : List Form} {xs : List Nat} :
    fs.mapM (element modulus) = .ok xs ↔ fs.map bare = xs.map .int ∧ ∀ x ∈ xs, x < modulus :=
  mapM_eq_ok_of_written fun _ _ => element_eq_ok

theorem literalRow_eq_ok {modulus : Nat} {f : Form} {xs : List Nat} :
    literalRow modulus f = .ok xs ↔ f.bare = .list (xs.map .int) ∧ ∀ x ∈ xs, x < modulus := by
  cases f with
  | list items pos => rw [literalRow, mapM_element_eq_ok, bare_list, Sexp.list.injEq]
  | _ => exact ⟨fun h => (by cases h), fun h => (by cases h.1)⟩

theorem sexps_of_literal {modulus : Nat} {pos : Position} {fs : List Form} {value : Literal}
    (h : literal modulus pos fs = .ok value) :
    fs.map bare = Literal.sexps value ∧ value.isProper = true ∧ Literal.Below modulus value := by
  unfold literal at h
  split at h
  · obtain ⟨n, hn, hvalue⟩ := bind_eq_ok.1 h
    rw [← pure_eq_ok.1 hvalue]
    obtain ⟨hf, hlt⟩ := element_eq_ok.1 hn
    refine ⟨?_, rfl, by simpa [Literal.Below, Tensor.elements]⟩
    rw [List.map_cons, List.map_cons, hf]
    rfl
  · obtain ⟨xs, hxs, hvalue⟩ := bind_eq_ok.1 h
    rw [← pure_eq_ok.1 hvalue]
    obtain ⟨hfs, hlt⟩ := mapM_element_eq_ok.1 hxs
    refine ⟨?_, ?_, hlt⟩
    · rw [List.map_cons, hfs]
      rfl
    · cases xs with
      | nil => cases hfs
      | cons x xs => rfl
  · obtain ⟨rows, hrows, hvalue⟩ := bind_eq_ok.1 h
    obtain ⟨hfs, hlt⟩ := (mapM_eq_ok_of_written fun _ _ => literalRow_eq_ok).1 hrows
    dsimp only at hvalue
    split at hvalue
    · next hproper =>
      rw [← pure_eq_ok.1 hvalue]
      refine ⟨?_, hproper, fun x hx => ?_⟩
      · rw [List.map_cons, hfs]
        rfl
      · obtain ⟨row, hrow, hx⟩ := List.mem_flatten.1 hx
        exact hlt row hrow x hx
    · cases hvalue
  · cases h

theorem literal_of_sexps {modulus : Nat} {fs : List Form} {value : Literal}
    (hfs : fs.map bare = Literal.sexps value) (hproper : value.isProper = true)
    (hbelow : Literal.Below modulus value) (pos : Position) :
    literal modulus pos fs = .ok value := by
  cases value with
  | scalar x =>
    obtain ⟨f, fs₁, rfl, hf, hfs₁⟩ := List.map_eq_cons_iff.1 hfs
    obtain ⟨g, rfl, hg⟩ := List.map_eq_singleton_iff.1 hfs₁
    obtain ⟨p, rfl⟩ := bare_eq_sym.1 hf
    rw [literal, element_eq_ok.2 ⟨hg, hbelow x (by simp [Tensor.elements])⟩]
    rfl
  | vector xs =>
    obtain ⟨f, fs₁, rfl, hf, hfs₁⟩ := List.map_eq_cons_iff.1 hfs
    obtain ⟨p, rfl⟩ := bare_eq_sym.1 hf
    have hmap := mapM_element_eq_ok.2 ⟨hfs₁, hbelow⟩
    cases fs₁ with
    | nil =>
      rw [List.map_eq_nil_iff.1 hfs₁.symm] at hproper
      cases hproper
    | cons g fs₁ =>
      rw [literal, hmap]
      rfl
  | matrix rows =>
    obtain ⟨f, fs₁, rfl, hf, hfs₁⟩ := List.map_eq_cons_iff.1 hfs
    obtain ⟨p, rfl⟩ := bare_eq_sym.1 hf
    have hmap : fs₁.mapM (literalRow modulus) = .ok rows :=
      (mapM_eq_ok_of_written fun _ _ => literalRow_eq_ok).2
        ⟨hfs₁, fun row hrow x hx => hbelow x (List.mem_flatten.2 ⟨row, hrow, hx⟩)⟩
    cases fs₁ with
    | nil =>
      rw [List.map_eq_nil_iff.1 hfs₁.symm] at hproper
      cases hproper
    | cons g fs₁ =>
      rw [literal, hmap]
      show (if _ then _ else _) = _
      rw [if_pos hproper]
      rfl

/-- **A literal is read from its written form and from nothing else.** -/
theorem literal_eq_ok {modulus : Nat} {pos : Position} {fs : List Form} {value : Literal} :
    literal modulus pos fs = .ok value ↔
      fs.map bare = Literal.sexps value ∧ value.isProper = true ∧ Literal.Below modulus value := by
  refine ⟨sexps_of_literal, ?_⟩
  rintro ⟨hfs, hproper, hbelow⟩
  exact literal_of_sexps hfs hproper hbelow pos

end Grammar

/-! ## Keywords -/

theorem BinaryOp.ofKeyword?_eq_some {name : String} {op : BinaryOp} :
    ofKeyword? name = some op ↔ name = op.keyword := by
  constructor
  · intro h
    unfold ofKeyword? at h
    split at h <;> cases h <;> rfl
  · rintro rfl
    exact ofKeyword?_keyword op

theorem UnaryOp.ofKeyword?_eq_some {name : String} {op : UnaryOp} :
    ofKeyword? name = some op ↔ name = op.keyword := by
  constructor
  · intro h
    unfold ofKeyword? at h
    split at h <;> cases h <;> rfl
  · rintro rfl
    exact ofKeyword?_keyword op

theorem Source.ofKeyword?_eq_some {name : String} {source : Source} :
    ofKeyword? name = some source ↔ name = source.keyword := by
  constructor
  · intro h
    unfold ofKeyword? at h
    split at h <;> cases h <;> rfl
  · rintro rfl
    exact ofKeyword?_keyword source

namespace Grammar

/-- The symbol of a head. -/
def Head.keyword : Head → String
  | .binary op => op.keyword
  | .unary op => op.keyword
  | .scalar => "scalar"
  | .vector => "vector"
  | .matrix => "matrix"
  | .get => "get"
  | .slice => "slice"
  | .call => "call"
  | .load source => source.keyword

theorem Head.ofSymbol?_keyword (head : Head) : ofSymbol? head.keyword = some head := by
  cases head with
  | binary op => cases op <;> rfl
  | unary op => cases op <;> rfl
  | load source => cases source <;> rfl
  | _ => rfl

theorem Head.eq_keyword {name : String} {head : Head} (h : ofSymbol? name = some head) :
    name = head.keyword := by
  unfold ofSymbol? at h
  split at h
  · next hop =>
    cases h
    exact BinaryOp.ofKeyword?_eq_some.1 hop
  · next hop =>
    cases h
    exact UnaryOp.ofKeyword?_eq_some.1 hop
  · next hsource =>
    cases h
    exact Source.ofKeyword?_eq_some.1 hsource
  · split at h <;> cases h <;> rfl

end Grammar

/-! ## Which lists are literals -/

namespace Grammar

open Form

/-- A vector that is no literal has an item that is no number. -/
theorem isLiteral_vector_eq_false {fs : List Form} (hne : fs ≠ []) :
    isLiteral .vector fs = false ↔ ∃ x ∈ fs.map bare, x.isInt = false := by
  rw [isLiteral, List.isEmpty_eq_false_iff.2 hne, Bool.not_false, Bool.true_and, List.all_eq_false]
  constructor
  · rintro ⟨f, hf, hint⟩
    refine ⟨f.bare, List.mem_map_of_mem hf, ?_⟩
    rw [isInt_bare]
    exact eq_false_of_ne_true hint
  · rintro ⟨x, hx, hint⟩
    obtain ⟨f, hf, rfl⟩ := List.mem_map.1 hx
    rw [isInt_bare] at hint
    exact ⟨f, hf, ne_true_of_eq_false hint⟩

/-- A matrix that is no literal has an element that is no number. -/
theorem isLiteral_matrix_eq_false {rows : List Form} (hne : rows ≠ []) {xss : List (List Sexp)}
    (hrows : rows.map bare = xss.map .list) :
    isLiteral .matrix rows = false ↔ ∃ x ∈ xss.flatten, x.isInt = false := by
  rw [isLiteral, List.isEmpty_eq_false_iff.2 hne, Bool.not_false, Bool.true_and, List.all_eq_false]
  constructor
  · rintro ⟨row, hrow, hint⟩
    obtain ⟨xs, hxs, hbare⟩ := List.mem_map.1 (hrows ▸ List.mem_map_of_mem hrow)
    obtain ⟨items, pos, rfl, rfl⟩ := bare_eq_list.1 hbare.symm
    obtain ⟨g, hg, hint⟩ := List.all_eq_false.1 (eq_false_of_ne_true hint)
    refine ⟨g.bare, List.mem_flatten.2 ⟨_, hxs, List.mem_map_of_mem hg⟩, ?_⟩
    rw [isInt_bare]
    exact eq_false_of_ne_true hint
  · rintro ⟨x, hx, hint⟩
    obtain ⟨xs, hxs, hx⟩ := List.mem_flatten.1 hx
    obtain ⟨row, hrow, hbare⟩ := List.mem_map.1 (hrows.symm ▸ List.mem_map_of_mem hxs)
    obtain ⟨items, pos, rfl, rfl⟩ := bare_eq_list.1 hbare
    obtain ⟨g, hg, rfl⟩ := List.mem_map.1 hx
    rw [isInt_bare] at hint
    exact ⟨_, hrow, fun hall => ne_true_of_eq_false hint (List.all_eq_true.1 hall g hg)⟩

theorem all_isInt {fs : List Form} {xs : List Nat} (h : fs.map bare = xs.map .int) :
    fs.all Form.isInt = true := by
  refine List.all_eq_true.2 fun f hf => ?_
  obtain ⟨x, -, hx⟩ := List.mem_map.1 (h ▸ List.mem_map_of_mem hf)
  rw [← isInt_bare, ← hx]
  rfl

/-- The written form of a literal is taken for one. -/
theorem isLiteral_of_sexps {value : Literal} (hproper : value.isProper = true) {fs : List Form}
    (hfs : fs.map bare = Literal.sexps value) :
    ∃ name p args head, fs = .sym name p :: args ∧ Head.ofSymbol? name = some head
      ∧ isLiteral head args = true := by
  cases value with
  | scalar x =>
    obtain ⟨f, args, rfl, hf, -⟩ := List.map_eq_cons_iff.1 hfs
    obtain ⟨p, rfl⟩ := bare_eq_sym.1 hf
    exact ⟨_, p, args, .scalar, rfl, rfl, rfl⟩
  | vector xs =>
    obtain ⟨f, args, rfl, hf, hargs⟩ := List.map_eq_cons_iff.1 hfs
    obtain ⟨p, rfl⟩ := bare_eq_sym.1 hf
    refine ⟨_, p, args, .vector, rfl, rfl, ?_⟩
    have hne : args.isEmpty = false := by
      rw [← List.isEmpty_map (f := bare), hargs, List.isEmpty_map]
      simpa [Literal.isProper] using hproper
    rw [isLiteral, hne, all_isInt hargs]
    rfl
  | matrix rows =>
    obtain ⟨f, args, rfl, hf, hargs⟩ := List.map_eq_cons_iff.1 hfs
    obtain ⟨p, rfl⟩ := bare_eq_sym.1 hf
    refine ⟨_, p, args, .matrix, rfl, rfl, ?_⟩
    have hne : args.isEmpty = false := by
      rw [← List.isEmpty_map (f := bare), hargs, List.isEmpty_map]
      simp only [Literal.isProper, Bool.and_eq_true] at hproper
      simpa using hproper.1.1
    have hall : args.all (fun row => row.isList && row.items.all Form.isInt) = true := by
      refine List.all_eq_true.2 fun f hf => ?_
      obtain ⟨row, -, hrow⟩ := List.mem_map.1 (hargs ▸ List.mem_map_of_mem hf)
      obtain ⟨items, pos, rfl, hitems⟩ := bare_eq_list.1 hrow.symm
      exact all_isInt hitems
    rw [isLiteral, hne, hall]
    rfl

end Grammar

end Arithmetization
