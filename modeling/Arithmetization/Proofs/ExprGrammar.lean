import Arithmetization.Proofs.Overflows

/-!
The typed grammar of expressions.

`Grammar.Derives cx locals stored x e` says that the form `x` is an expression in the context `cx`,
where locals of the shapes `locals` are declared and those marked in `stored` may be read, and that
it stands for the tree `e`. There is one rule for each form of the grammar; its premises are what
the form has to be, which shapes its operands must have and what it may refer to.

The rules are those of `Denotes`, which has one rule for all operators and leaves the shapes to a
function. Each form of the grammar is the written form of an operator (`Grammar.Derives.denotes`),
and each operator is written in one of these forms (`Grammar.Denotes.derives`).

The rules know no largest length, but a machine adds the lengths of the parts of a vector in a word.
An expression is accepted exactly when it can be derived with vectors that can be counted
(`Grammar.Countable`): a machine that is stopped by an overflow accepts these and no others, and one
that goes round agrees with it up to the first overflow. The result is `Grammar.expr_exact`, and
`Grammar.expr_exact_long` is an expression that is lost to an overflow.
-/

set_option autoImplicit false

namespace Arithmetization

namespace Grammar

open Form

/-! ## Rules -/

/-- What a load may name where it stands, and the shape of what it names. -/
inductive Loads (cx : Context) (locals : Array Shape) (stored : Array Bool) :
    Source → Nat → Shape → Prop
  | const {i : Nat} {c : Literal} (hc : cx.constants[i]? = some c) :
      Loads cx locals stored .const i c.shape
  | local {i : Nat} {s : Shape} (hdeclared : locals[i]? = some s)
      (hstored : stored[i]? = some true) : Loads cx locals stored .local i s
  | trace {span width i : Nat} {statics : Option Nat}
      (hscope : cx.scope = .procedure span width statics) (hi : i < span) :
      Loads cx locals stored .trace i (.vector width)
  | static {span width n : Nat} (hscope : cx.scope = .procedure span width (some n)) :
      Loads cx locals stored .static 0 (.vector n)
  | param {params : List Shape} {i : Nat} {s : Shape} (hscope : cx.scope = .function params)
      (hi : params[i]? = some s) : Loads cx locals stored .param i s

/-- A number known before any run: a literal, or a constant of the module. -/
inductive Known : Op → Prop
  | number (n : Nat) : Known (.literal (.scalar n))
  | const (i : Nat) : Known (.load .const i)

/-- The form `x` is an expression and stands for the tree `e`. -/
inductive Derives (cx : Context) (locals : Array Shape) (stored : Array Bool) : Sexp → Expr → Prop
  | number {n : Nat} (hn : n < cx.modulus) :
      Derives cx locals stored (.int n) (.node (.literal (.scalar n)) .scalar [])
  | scalar {n : Nat} (hn : n < cx.modulus) :
      Derives cx locals stored (.list [.sym "scalar", .int n])
        (.node (.literal (.scalar n)) .scalar [])
  | numbers {ns : List Nat} (hne : ns ≠ []) (hns : ∀ n ∈ ns, n < cx.modulus) :
      Derives cx locals stored (.list (.sym "vector" :: ns.map .int))
        (.node (.literal (.vector ns)) (.vector ns.length) [])
  | table {rows : List (List Nat)} {cols : Nat} (hne : rows ≠ []) (hcols : 0 < cols)
      (hrows : ∀ row ∈ rows, row.length = cols) (hns : ∀ row ∈ rows, ∀ n ∈ row, n < cx.modulus) :
      Derives cx locals stored (.list (.sym "matrix" :: rows.map fun row => .list (row.map .int)))
        (.node (.literal (.matrix rows)) (.matrix rows.length cols) [])
  | load {source : Source} {i : Nat} {s : Shape} (hi : i < 2 ^ 64)
      (hload : Loads cx locals stored source i s) :
      Derives cx locals stored (.list [.sym source.keyword, .int i]) (.node (.load source i) s [])
  | elementwise {op : BinaryOp} {l r : Sexp} {el er : Expr} {s : Shape}
      (hop : Rule.IsElementwise op)
      (hl : Derives cx locals stored l el) (hr : Derives cx locals stored r er)
      (hs : Shape.Broadcasts el.shape er.shape s) :
      Derives cx locals stored (.list [.sym op.keyword, l, r]) (.node (.binary op) s [el, er])
  | power {l r : Sexp} {el er : Expr} (hl : Derives cx locals stored l el)
      (hr : Derives cx locals stored r er) (hknown : Known er.op) (hscalar : er.shape = .scalar) :
      Derives cx locals stored (.list [.sym "exp", l, r]) (.node (.binary .exp) el.shape [el, er])
  | product {l r : Sexp} {el er : Expr} {s : Shape} (hl : Derives cx locals stored l el)
      (hr : Derives cx locals stored r er) (hs : Shape.Multiplies el.shape er.shape s) :
      Derives cx locals stored (.list [.sym "prod", l, r]) (.node (.binary .prod) s [el, er])
  | unary {op : UnaryOp} {x : Sexp} {e : Expr} (hx : Derives cx locals stored x e) :
      Derives cx locals stored (.list [.sym op.keyword, x]) (.node (.unary op) e.shape [e])
  /-- A vector of numbers only is a literal. -/
  | vector {xs : List Sexp} {es : List Expr} (hxs : List.Forall₂ (Derives cx locals stored) xs es)
      (hint : ∃ x ∈ xs, x.isInt = false) (hparts : ∀ e ∈ es, e.shape.IsPart) :
      Derives cx locals stored (.list (.sym "vector" :: xs))
        (.node .vector (.vector (es.map fun e => e.shape.size).sum) es)
  /-- A matrix of numbers only is a literal. -/
  | matrix {rows : List (List Sexp)} {cols : Nat} {es : List Expr}
      (hxs : List.Forall₂ (Derives cx locals stored) rows.flatten es)
      (hint : ∃ x ∈ rows.flatten, x.isInt = false) (hcols : 0 < cols)
      (hrows : ∀ row ∈ rows, row.length = cols) (hscalars : ∀ e ∈ es, e.shape = .scalar) :
      Derives cx locals stored (.list (.sym "matrix" :: rows.map .list))
        (.node (.matrix (rows.map List.length)) (.matrix rows.length cols) es)
  | get {x : Sexp} {e : Expr} {i n : Nat} (hi : i < 2 ^ 64) (hx : Derives cx locals stored x e)
      (hvector : e.shape = .vector n) (hlt : i < n) :
      Derives cx locals stored (.list [.sym "get", x, .int i]) (.node (.get i) .scalar [e])
  | slice {x : Sexp} {e : Expr} {first last n : Nat} (hfirst : first < 2 ^ 64)
      (hlast : last < 2 ^ 64) (hx : Derives cx locals stored x e)
      (hrow : ∀ row, e.op ≠ .load .trace row) (hvector : e.shape = .vector n)
      (hle : first ≤ last) (hlt : last < n) :
      Derives cx locals stored (.list [.sym "slice", x, .int first, .int last])
        (.node (.slice first last) (.vector (last - first + 1)) [e])
  /-- A slice of a trace row is a segment of it and has no operand. -/
  | segment {row first last n : Nat} (hi : row < 2 ^ 64) (hfirst : first < 2 ^ 64)
      (hlast : last < 2 ^ 64) (hload : Loads cx locals stored .trace row (.vector n))
      (hle : first ≤ last) (hlt : last < n) :
      Derives cx locals stored
        (.list [.sym "slice", .list [.sym "load.trace", .int row], .int first, .int last])
        (.node (.segment row first last) (.vector (last - first + 1)) [])
  | call {f : Nat} {callee : Function} {xs : List Sexp} {es : List Expr} (hf : f < 2 ^ 64)
      (hcallee : cx.functions[f]? = some callee)
      (hxs : List.Forall₂ (Derives cx locals stored) xs es)
      (hshapes : es.map Expr.shape = callee.signature.params) :
      Derives cx locals stored (.list (.sym "call" :: .int f :: xs))
        (.node (.call f) callee.signature.result es)

variable {cx : Context} {b : Builder}

theorem loads_iff {o : Overflow} {source : Source} {i : Nat} {s : Shape} :
    Loads cx b.locals b.stored source i s ↔
      (cx.under o).env.shapeOf b.shapes (.load source i) [] = some s := by
  -- what may be loaded depends on the scope, so it has to be a variable of its own
  obtain ⟨modulus, constants, functions, scope, overflow⟩ := cx
  constructor
  · intro h
    cases h with
    | const hc => exact Option.map_eq_some_iff.2 ⟨_, hc, rfl⟩
    | «local» hdeclared hstored => exact Builder.getD_shapes.2 ⟨hdeclared, hstored⟩
    | trace hscope hi =>
      obtain rfl : scope = _ := hscope
      exact if_pos hi
    | static hscope =>
      obtain rfl : scope = _ := hscope
      rfl
    | param hscope hi =>
      obtain rfl : scope = _ := hscope
      exact hi
  · intro h
    cases source with
    | const =>
      obtain ⟨c, hc, rfl⟩ := Option.map_eq_some_iff.1 h
      exact .const hc
    | «local» =>
      obtain ⟨hdeclared, hstored⟩ := Builder.getD_shapes.1 h
      exact .local hdeclared hstored
    | trace =>
      cases scope with
      | function params => cases h
      | procedure span width statics =>
        obtain ⟨hi, hs⟩ | ⟨-, hs⟩ := ite_eq_iff.1 h
        · obtain rfl := Option.some.inj hs
          exact .trace rfl hi
        · cases hs
    | static =>
      rcases scope with params | ⟨span, width, _ | n⟩
      · cases h
      · cases h
      · obtain ⟨rfl, hs⟩ | ⟨-, hs⟩ := ite_eq_iff.1 h
        · obtain rfl := Option.some.inj hs
          exact .static rfl
        · cases hs
    | param =>
      cases scope with
      | function params => exact .param rfl h
      | procedure span width statics => cases h

theorem isSome_exponent?_iff {e : Expr} : e.exponent?.isSome = true ↔ Known e.op := by
  obtain ⟨op, shape, args⟩ := e
  constructor
  · intro h
    unfold Expr.exponent? at h
    split at h
    · next heq =>
      cases heq
      exact .number _
    · next heq =>
      cases heq
      exact .const _
    · cases h
  · intro h
    change Known op at h
    cases h <;> rfl

/-- The rule of a matrix: rows of one length, each element a scalar. -/
theorem rule_matrix_iff {Γ : Env} {widths : List Nat} {es : List Expr} {s : Shape} :
    Γ.rule (.matrix widths) es (es.map Expr.shape) = some s ↔
      es.length = widths.sum ∧ widths ≠ [] ∧ ∃ cols, 0 < cols ∧ (∀ w ∈ widths, w = cols)
        ∧ (∀ e ∈ es, e.shape = .scalar) ∧ s = .matrix widths.length cols := by
  rw [Env.rule_matrix, List.length_map]
  refine and_congr_right fun hlen => ?_
  have hsum : (es.map Expr.shape).length = widths.sum := by rw [List.length_map, hlen]
  -- the shapes are cut into rows of these lengths
  generalize hrows : Tensor.chunks widths (es.map Expr.shape) = rows
  have hwidths : rows.map List.length = widths := by
    rw [← hrows, Tensor.map_length_chunks hsum.ge]
  have hflatten : rows.flatten = es.map Expr.shape := by rw [← hrows, Tensor.flatten_chunks hsum]
  rw [Rule.grid_eq_ok, hflatten, List.forall_mem_map, ← hwidths, List.length_map, Ne, Ne,
    List.map_eq_nil_iff]
  simp only [List.forall_mem_map]

/-! ## What is derived is denoted -/

/-- A form over operands, from the shape that the rules give it. -/
theorem denotes_of_rule (op : Op) (hlocal : op.local? = none) {ρ : List (Option Shape)}
    {xs : List Sexp} {es : List Expr} {s : Shape} (hxs : List.Forall₂ (Denotes cx ρ) xs es)
    (hop : op.Admits cx.modulus xs es) (hrule : cx.env.rule op es (es.map Expr.shape) = some s) :
    Denotes cx ρ (.list (op.sexps xs)) (.node op s es) :=
  .node hxs hop (by rwa [Env.shapeOf_of_local? hlocal])

theorem denotes_literal {value : Literal} (hproper : value.isProper = true)
    (hbelow : Literal.Below cx.modulus value) (ρ : List (Option Shape)) :
    Denotes cx ρ (.list (Literal.sexps value)) (.node (.literal value) value.shape []) :=
  denotes_of_rule (.literal value) rfl .nil hbelow (Env.rule_literal.2 ⟨rfl, hproper, rfl⟩)

theorem denotes_table {rows : List (List Nat)} {cols : Nat} (hne : rows ≠ []) (hcols : 0 < cols)
    (hrows : ∀ row ∈ rows, row.length = cols) (hns : ∀ row ∈ rows, ∀ n ∈ row, n < cx.modulus)
    (ρ : List (Option Shape)) :
    Denotes cx ρ (.list (.sym "matrix" :: rows.map fun row => .list (row.map .int)))
      (.node (.literal (.matrix rows)) (.matrix rows.length cols) []) := by
  have hhead : (rows.head?.map List.length).getD 0 = cols := by
    obtain ⟨row, rest, rfl⟩ := List.exists_cons_of_ne_nil hne
    exact hrows row (List.mem_cons_self ..)
  have hshape : Tensor.shape (.matrix rows) = .matrix rows.length cols := by
    rw [Tensor.shape, hhead]
  have hproper : Literal.isProper (.matrix rows) = true := by
    rw [Literal.isProper, hhead]
    simpa [hne, Nat.ne_of_gt hcols] using hrows
  have hbelow : Literal.Below cx.modulus (.matrix rows) := by
    intro n hn
    obtain ⟨row, hrow, hn⟩ := List.mem_flatten.1 hn
    exact hns row hrow n hn
  rw [← hshape]
  exact denotes_literal hproper hbelow ρ

theorem denotes_binary {op : BinaryOp} {ρ : List (Option Shape)} {l r : Sexp} {el er : Expr}
    {s : Shape} (hl : Denotes cx ρ l el) (hr : Denotes cx ρ r er)
    (hs : Rule.binary op el.shape er.shape er.exponent?.isSome = .ok s) :
    Denotes cx ρ (.list [.sym op.keyword, l, r]) (.node (.binary op) s [el, er]) :=
  denotes_of_rule (.binary op) rfl (.cons hl (.cons hr .nil)) trivial ((hr.rule_binary el).2 hs)

theorem denotes_vector {ρ : List (Option Shape)} {xs : List Sexp} {es : List Expr}
    (hxs : List.Forall₂ (Denotes (cx.under .exact) ρ) xs es) (hint : ∃ x ∈ xs, x.isInt = false)
    (hparts : ∀ e ∈ es, e.shape.IsPart) :
    Denotes (cx.under .exact) ρ (.list (.sym "vector" :: xs))
      (.node .vector (.vector (es.map fun e => e.shape.size).sum) es) := by
  have hsizes : (es.map Expr.shape).map Shape.size = es.map fun e => e.shape.size := List.map_map
  have hshapes : ∀ s ∈ es.map Expr.shape, s.IsPart := List.forall_mem_map.2 hparts
  refine denotes_of_rule .vector rfl hxs hint
    (Env.rule_vector.2 (Rule.concat_eq_ok_iff.2 ⟨hshapes, _, Overflow.keep_exact _, ?_, ?_⟩))
  · refine Shape.sum_size_pos ?_ hshapes
    intro hnil
    obtain rfl := List.map_eq_nil_iff.1 hnil
    obtain ⟨x, hx, -⟩ := hint
    cases hxs
    cases hx
  · rw [hsizes]

theorem denotes_matrix {ρ : List (Option Shape)} {rows : List (List Sexp)} {cols : Nat}
    {es : List Expr} (hxs : List.Forall₂ (Denotes cx ρ) rows.flatten es)
    (hint : ∃ x ∈ rows.flatten, x.isInt = false) (hcols : 0 < cols)
    (hrows : ∀ row ∈ rows, row.length = cols) (hscalars : ∀ e ∈ es, e.shape = .scalar) :
    Denotes cx ρ (.list (.sym "matrix" :: rows.map .list))
      (.node (.matrix (rows.map List.length)) (.matrix rows.length cols) es) := by
  have hnode : Denotes cx ρ (.list ((Op.matrix (rows.map List.length)).sexps rows.flatten))
      (.node (.matrix (rows.map List.length)) (.matrix rows.length cols) es) := by
    refine denotes_of_rule _ rfl hxs hint
      (rule_matrix_iff.2 ⟨?_, ?_, cols, hcols, List.forall_mem_map.2 hrows, hscalars, ?_⟩)
    · rw [← hxs.length_eq, List.length_flatten]
    · intro hnil
      obtain rfl := List.map_eq_nil_iff.1 hnil
      obtain ⟨x, hx, -⟩ := hint
      cases hx
    · rw [List.length_map]
  rwa [Op.sexps, Tensor.chunks_flatten] at hnode

/-- **What is derived is denoted**, if lengths are counted exactly: each form of the grammar is the
written form of an operator. -/
theorem Derives.denotes {x : Sexp} {e : Expr} (h : Derives cx b.locals b.stored x e) :
    Denotes (cx.under .exact) b.shapes x e := by
  refine @Derives.rec cx b.locals b.stored (fun x e _ => Denotes (cx.under .exact) b.shapes x e)
    (fun xs es _ => List.Forall₂ (Denotes (cx.under .exact) b.shapes) xs es)
    ?number ?scalar ?numbers ?table ?load ?elementwise ?power ?product ?unary ?vector ?matrix ?get
    ?slice ?segment ?call .nil ?operands x e h
  case number =>
    intro n hn
    exact .number hn
  case scalar =>
    intro n hn
    have hbelow : Literal.Below (cx.under .exact).modulus (.scalar n) := fun m hm =>
      List.mem_singleton.1 hm ▸ hn
    exact denotes_literal (by rfl) hbelow _
  case numbers =>
    intro ns hne hns
    have hbelow : Literal.Below (cx.under .exact).modulus (.vector ns) := hns
    exact denotes_literal (by simpa [Literal.isProper] using hne) hbelow _
  case table =>
    intro rows cols hne hcols hrows hns
    exact @denotes_table (cx.under .exact) rows cols hne hcols hrows hns _
  case load =>
    -- the only form that may read a local
    intro source i s hi hload
    exact @Denotes.node _ _ (.load source i) _ _ _ .nil hi (loads_iff.1 hload)
  case elementwise =>
    intro op l r el er s hop _ _ hs hl hr
    exact denotes_binary hl hr (Rule.binary_eq_ok.2 (.inl ⟨hop, hs⟩))
  case power =>
    intro l r el er _ _ hknown hscalar hl hr
    exact denotes_binary hl hr
      (Rule.binary_eq_ok.2 (.inr (.inl ⟨rfl, isSome_exponent?_iff.2 hknown, hscalar, rfl⟩)))
  case product =>
    intro l r el er s _ _ hs hl hr
    exact denotes_binary hl hr (Rule.binary_eq_ok.2 (.inr (.inr ⟨rfl, hs⟩)))
  case unary =>
    intro op x e _ hx
    exact denotes_of_rule (.unary op) rfl (.cons hx .nil) trivial (Env.rule_unary.2 rfl)
  case vector =>
    intro xs es _ hint hparts hxs
    exact denotes_vector hxs hint hparts
  case matrix =>
    intro rows cols es _ hint hcols hrows hscalars hxs
    exact denotes_matrix hxs hint hcols hrows hscalars
  case get =>
    intro x e i n hi _ hvector hlt hx
    exact denotes_of_rule (.get i) rfl (.cons hx .nil) hi
      (Env.rule_get.2 ⟨_, rfl, Rule.element_eq_ok.2 ⟨n, hvector, hlt, rfl⟩⟩)
  case slice =>
    intro x e first last n hfirst hlast _ hrow hvector hle hlt hx
    refine denotes_of_rule (.slice first last) rfl (.cons hx .nil) ⟨hfirst, hlast, ?_⟩
      (Env.rule_slice.2 ⟨_, rfl, Rule.slice_eq_ok.2 ⟨n, hvector, hle, hlt, rfl⟩⟩)
    exact fun a ha row => List.mem_singleton.1 ha ▸ hrow row
  case segment =>
    intro row first last n hi hfirst hlast hload hle hlt
    exact denotes_of_rule (.segment row first last) rfl .nil ⟨hi, hfirst, hlast⟩
      (Env.rule_segment.2 ⟨rfl, _, loads_iff.1 hload, Rule.slice_eq_ok.2 ⟨n, rfl, hle, hlt, rfl⟩⟩)
  case call =>
    intro f callee xs es hf hcallee _ hshapes hxs
    have hsignature : (cx.under .exact).env.signatures[f]? = some callee.signature := by
      rw [Context.env, List.getElem?_map, Context.functions_under, hcallee]
      rfl
    exact denotes_of_rule (.call f) rfl hxs hf (Env.rule_call.2 ⟨_, hsignature, hshapes, rfl⟩)
  case operands =>
    intro x e xs es _ _ hx hxs
    exact .cons hx hxs

/-! ## What is denoted is derived -/

theorem derives_literal {value : Literal} (hproper : value.isProper = true)
    (hbelow : Literal.Below cx.modulus value) (locals : Array Shape) (stored : Array Bool) :
    Derives cx locals stored (.list (Literal.sexps value))
      (.node (.literal value) value.shape []) := by
  cases value with
  | scalar n => exact .scalar (hbelow n (List.mem_singleton.2 rfl))
  | vector ns => exact .numbers (by simpa [Literal.isProper] using hproper) hbelow
  | matrix rows =>
    simp only [Literal.isProper, Bool.and_eq_true, Bool.not_eq_true', List.isEmpty_eq_false_iff,
      bne_iff_ne, List.all_eq_true, beq_iff_eq] at hproper
    obtain ⟨⟨hne, hcols⟩, hrows⟩ := hproper
    refine .table hne (Nat.pos_of_ne_zero hcols) hrows ?_
    exact fun row hrow n hn => hbelow n (List.mem_flatten.2 ⟨row, hrow, hn⟩)

theorem derives_binary {op : BinaryOp} {locals : Array Shape} {stored : Array Bool} {l r : Sexp}
    {el er : Expr} {s : Shape} (hl : Derives cx locals stored l el)
    (hr : Derives cx locals stored r er)
    (h : Rule.binary op el.shape er.shape er.exponent?.isSome = .ok s) :
    Derives cx locals stored (.list [.sym op.keyword, l, r]) (.node (.binary op) s [el, er]) := by
  rcases Rule.binary_eq_ok.1 h with ⟨hop, hs⟩ | ⟨rfl, hknown, hscalar, rfl⟩ | ⟨rfl, hs⟩
  · exact .elementwise hop hl hr hs
  · exact .power hl hr (isSome_exponent?_iff.1 hknown) hscalar
  · exact .product hl hr hs

/-- A matrix over operands that are derived, cut into rows of the given lengths. -/
theorem derives_matrix {widths : List Nat} {locals : Array Shape} {stored : Array Bool}
    {xs : List Sexp} {es : List Expr} {s : Shape}
    (hxs : List.Forall₂ (Derives cx locals stored) xs es) (hint : ∃ x ∈ xs, x.isInt = false)
    {Γ : Env} (h : Γ.rule (.matrix widths) es (es.map Expr.shape) = some s) :
    Derives cx locals stored (.list ((Op.matrix widths).sexps xs))
      (.node (.matrix widths) s es) := by
  obtain ⟨hlen, -, cols, hcols, hwidths, hscalars, rfl⟩ := rule_matrix_iff.1 h
  have hsum : xs.length = widths.sum := hxs.length_eq.trans hlen
  rw [Op.sexps]
  generalize hrows : Tensor.chunks widths xs = rows
  obtain rfl : rows.flatten = xs := by rw [← hrows, Tensor.flatten_chunks hsum]
  obtain rfl : rows.map List.length = widths := by rw [← hrows, Tensor.map_length_chunks hsum.ge]
  rw [List.length_map]
  exact .matrix hxs hint hcols (List.forall_mem_map.1 hwidths) hscalars

/-- **What is denoted is derived**, if lengths are counted exactly: each operator is written in one
of the forms of the grammar. -/
theorem Denotes.derives {x : Sexp} {e : Expr} (h : Denotes (cx.under .exact) b.shapes x e) :
    Derives cx b.locals b.stored x e := by
  refine h.induction (P := Derives cx b.locals b.stored) ?_ ?_
  · exact fun hn => .number hn
  intro op s xs args hargs hop hshape
  have htakes := Env.takes_of_shapeOf hshape
  have hderives := hargs.imp fun _ _ h => h.2
  cases op with
  | literal value =>
    obtain rfl := List.length_eq_zero_iff.1 htakes
    rw [Env.shapeOf_of_local? rfl] at hshape
    obtain ⟨-, hproper, rfl⟩ := Env.rule_literal.1 hshape
    exact @derives_literal cx value hproper hop _ _
  | load source i =>
    obtain rfl := List.length_eq_zero_iff.1 htakes
    exact .load hop (loads_iff.2 hshape)
  | segment row first last =>
    obtain rfl := List.length_eq_zero_iff.1 htakes
    rw [Env.shapeOf_of_local? rfl] at hshape
    obtain ⟨-, t, ht, hs⟩ := Env.rule_segment.1 hshape
    obtain ⟨n, rfl, hle, hlt, rfl⟩ := Rule.slice_eq_ok.1 hs
    exact .segment hop.1 hop.2.1 hop.2.2 (loads_iff.2 ht) hle hlt
  | binary op =>
    -- the exponent of a power is known from what its form denotes, so both facts are needed
    obtain ⟨el, er, rfl⟩ := List.length_eq_two.1 htakes
    obtain ⟨l, r, rfl, hl, hr⟩ := forall₂_two hargs.flip
    exact derives_binary hl.2 hr.2 ((hr.1.rule_binary el).1 hshape)
  | unary op =>
    obtain ⟨e, rfl⟩ := List.length_eq_one_iff.1 htakes
    obtain ⟨x, rfl, hx⟩ := forall₂_one hargs.flip
    obtain rfl := Option.some.inj hshape
    exact .unary hx.2
  | vector =>
    rw [Env.shapeOf_of_local? rfl] at hshape
    obtain ⟨hparts, n, hn, -, rfl⟩ := Rule.concat_eq_ok_iff.1 (Env.rule_vector.1 hshape)
    obtain rfl := Except.ok.inj ((Overflow.keep_exact _).symm.trans hn)
    rw [List.forall_mem_map] at hparts
    rw [List.map_map]
    exact .vector hderives hop hparts
  | matrix widths =>
    rw [Env.shapeOf_of_local? rfl] at hshape
    exact derives_matrix hderives hop hshape
  | get i =>
    obtain ⟨e, rfl⟩ := List.length_eq_one_iff.1 htakes
    obtain ⟨x, rfl, hx⟩ := forall₂_one hargs.flip
    obtain ⟨n, hvector, hlt, rfl⟩ := Rule.element_eq_ok.1 (toOption_eq_some.1 hshape)
    exact .get hop hx.2 hvector hlt
  | slice first last =>
    obtain ⟨e, rfl⟩ := List.length_eq_one_iff.1 htakes
    obtain ⟨x, rfl, hx⟩ := forall₂_one hargs.flip
    obtain ⟨n, hvector, hle, hlt, rfl⟩ := Rule.slice_eq_ok.1 (toOption_eq_some.1 hshape)
    exact .slice hop.1 hop.2.1 hx.2 (hop.2.2 e (List.mem_singleton.2 rfl)) hvector hle hlt
  | call f =>
    rw [Env.shapeOf_of_local? rfl] at hshape
    obtain ⟨signature, hsignature, hshapes, rfl⟩ := Env.rule_call.1 hshape
    rw [Context.env, List.getElem?_map] at hsignature
    obtain ⟨callee, hcallee, rfl⟩ := Option.map_eq_some_iff.1 hsignature
    exact .call hop hcallee hderives hshapes

/-! ## Lengths in range -/

/-- Every vector that is put together in an expression has a length that can be counted. -/
def Countable : Expr → Prop :=
  Expr.fold fun op shape _ parts => (op = .vector → shape.rows < 2 ^ 64) ∧ ∀ p ∈ parts, p

theorem countable_node {op : Op} {s : Shape} {args : List Expr} :
    Countable (.node op s args) ↔
      (op = .vector → s.rows < 2 ^ 64) ∧ ∀ a ∈ args, Countable a := by
  rw [Countable, Expr.fold_node, List.forall_mem_map]

/-- What an overflow does matters only where vectors are put together. -/
theorem shapeOf_under {ρ : List (Option Shape)} {op : Op} (hop : op ≠ .vector) (args : List Expr)
    (o o' : Overflow) :
    (cx.under o).env.shapeOf ρ op args = (cx.under o').env.shapeOf ρ op args := by
  unfold Env.shapeOf
  split
  · rfl
  · unfold Env.rule
    split
    case h_6 => exact absurd rfl hop
    all_goals rfl

/-- A machine that is stopped by an overflow gives a vector its length as long as it can be
counted. -/
theorem shapeOf_trap_iff {ρ : List (Option Shape)} {op : Op} {args : List Expr} {s : Shape} :
    (cx.under .trap).env.shapeOf ρ op args = some s ↔
      (cx.under .exact).env.shapeOf ρ op args = some s ∧ (op = .vector → s.rows < 2 ^ 64) := by
  by_cases hop : op = .vector
  · subst hop
    rw [Env.shapeOf_of_local? rfl, Env.shapeOf_of_local? rfl, Env.rule_vector, Env.rule_vector]
    constructor
    · intro h
      obtain ⟨hparts, n, hn, hpos, rfl⟩ := Rule.concat_eq_ok_iff.1 h
      obtain ⟨hlt, rfl⟩ := Overflow.keep_trap_eq_ok.1 hn
      exact ⟨Rule.concat_eq_ok_iff.2 ⟨hparts, _, Overflow.keep_exact _, hpos, rfl⟩, fun _ => hlt⟩
    · rintro ⟨h, hlt⟩
      obtain ⟨hparts, n, hn, hpos, rfl⟩ := Rule.concat_eq_ok_iff.1 h
      obtain rfl := Except.ok.inj ((Overflow.keep_exact _).symm.trans hn)
      exact Rule.concat_eq_ok_iff.2 ⟨hparts, _, Overflow.keep_of_lt _ (hlt rfl), hpos, rfl⟩
  · rw [shapeOf_under hop args .trap .exact]
    exact (and_iff_left fun h => absurd h hop).symm

/-- **Forms that are accepted before an overflow** are those that stand for trees of countable
vectors. -/
theorem denotes_trap_iff {ρ : List (Option Shape)} {x : Sexp} {e : Expr} :
    Denotes (cx.under .trap) ρ x e ↔ Denotes (cx.under .exact) ρ x e ∧ Countable e := by
  constructor
  · intro h
    refine h.induction (P := fun x e => Denotes (cx.under .exact) ρ x e ∧ Countable e) ?_ ?_
    · intro n hn
      exact ⟨.number hn, countable_node.2 ⟨fun h => (by cases h), by simp⟩⟩
    · intro op s xs args hargs hop hshape
      obtain ⟨hshape, hlt⟩ := shapeOf_trap_iff.1 hshape
      refine ⟨.node (hargs.imp fun _ _ h => h.2.1) hop hshape, countable_node.2 ⟨hlt, ?_⟩⟩
      intro a ha
      obtain ⟨x, -, hx⟩ := exists_mem_right hargs.flip ha
      exact hx.2.2
  · rintro ⟨h, hcount⟩
    refine h.induction (P := fun x e => Countable e → Denotes (cx.under .trap) ρ x e) ?_ ?_ hcount
    · exact fun hn _ => .number hn
    · intro op s xs args hargs hop hshape hcount
      obtain ⟨hlt, hall⟩ := countable_node.1 hcount
      refine .node ?_ hop (shapeOf_trap_iff.2 ⟨hshape, hlt⟩)
      exact ((List.forall₂_and_left _ _).2 ⟨hall, hargs.flip⟩).flip.imp fun _ _ h => h.2.2 h.1

/-! ## Exactness -/

/-- A form that is derived with countable vectors is accepted as its tree, whatever an overflow
does. -/
theorem Derives.accepted {f : Form} {e : Expr} (h : Derives cx b.locals b.stored f.bare e)
    (hcount : Countable e) (o : Overflow) :
    ∃ a id, expr (cx.under o) b f = .ok ({ b with arena := a }, id)
      ∧ b.arena.Stores a [e] [id] := by
  obtain ⟨a, id, ha, hstores⟩ := (denotes_trap_iff.2 ⟨h.denotes, hcount⟩).accepted f b rfl rfl
  rcases expr_stops cx o f b with hstop | hsame
  · rw [hstop] at ha
    cases ha
  · exact ⟨a, id, hsame ▸ ha, hstores⟩

/-- **Expressions are exactly those of the typed grammar, as long as vectors can be counted.** Where
an overflow stops the run, a form is accepted if and only if it can be derived with vectors of fewer
than `2 ^ 64` elements, and a form that can only be derived with longer ones stops the run. Where
lengths go round, the outcome is the same unless such a run would be stopped. What is accepted is
the tree that the form stands for, of the shape that was derived, and all that was there before
stays; nothing is assumed of these nodes, locals and stores. -/
theorem expr_exact (cx : Context) (b : Builder) (f : Form) :
    ((∃ r, expr (cx.under .trap) b f = .ok r) ↔
        ∃ e, Derives cx b.locals b.stored f.bare e ∧ Countable e)
    ∧ (∀ e, Derives cx b.locals b.stored f.bare e → ¬Countable e →
        expr (cx.under .trap) b f = .error (.stop .overflow))
    ∧ (expr (cx.under .trap) b f = .error (.stop .overflow)
        ∨ expr (cx.under .trap) b f = expr (cx.under .wrap) b f)
    ∧ ∀ o b' id e, expr (cx.under o) b f = .ok (b', id) →
        Derives cx b.locals b.stored f.bare e → Countable e →
        b'.arena.expr id = e ∧ b'.arena.shape id = e.shape ∧ id < b'.arena.size
        ∧ b'.locals = b.locals ∧ b'.stored = b.stored ∧ b'.stores = b.stores
        ∧ b.arena.size ≤ b'.arena.size
        ∧ ∀ i < b.arena.size,
          b'.arena.get i = b.arena.get i ∧ b'.arena.expr i = b.arena.expr i := by
  -- what is accepted stands for a tree of countable vectors
  have hderived : ∀ b' id, expr (cx.under .trap) b f = .ok (b', id) →
      Derives cx b.locals b.stored f.bare (b'.arena.expr id) ∧ Countable (b'.arena.expr id) := by
    intro b' id h
    obtain ⟨a, ha, rfl⟩ := expr_eq_ok.1 h
    obtain ⟨hexact, hcount⟩ := denotes_trap_iff.1 ha.denotes
    exact ⟨hexact.derives, hcount⟩
  refine ⟨⟨?_, ?_⟩, ?_, expr_stops cx .wrap f b, ?_⟩
  · rintro ⟨⟨b', id⟩, h⟩
    exact ⟨_, hderived b' id h⟩
  · rintro ⟨e, he, hcount⟩
    obtain ⟨a, id, h, -⟩ := he.accepted hcount .trap
    exact ⟨_, h⟩
  · intro e he hcount
    -- with exact lengths the form is accepted, so nothing but an overflow can be in the way
    obtain ⟨a, id, ha, hstores⟩ := he.denotes.accepted f b rfl rfl
    rcases expr_stops cx .exact f b with hstop | hsame
    · exact hstop
    · have htree : a.expr id = e := by simpa using hstores.trees
      exact absurd (htree ▸ (hderived _ id (hsame.trans ha)).2) hcount
  · intro o b' id e h he hcount
    -- accepting is a function, so the tree is the one that the derivation gives
    obtain ⟨a, id', h', hstores⟩ := he.accepted hcount o
    obtain ⟨rfl, rfl⟩ := Prod.mk.inj (Except.ok.inj (h.symm.trans h'))
    have hlt := hstores.lt id (List.mem_singleton.2 rfl)
    have htree : a.expr id = e := by simpa using hstores.trees
    refine ⟨htree, ?_, hlt, rfl, rfl, rfl, hstores.grows.size_le, ?_⟩
    · rw [← (a.expr_op_shape hlt).2, htree]
    · intro i hi
      exact ⟨hstores.grows.get_eq i hi, hstores.grows.expr_eq i hi⟩

/-- A procedure of a module with one constant. -/
def powerContext : Context :=
  ⟨97, [.scalar 3], [], .procedure 1 2 none, .trap⟩

/-- An element of a segment of a trace row, raised to a constant. -/
theorem expr_exact_power :
    ∃ r, expr powerContext .empty
        (.list [.sym "exp" ⟨1, 2⟩,
          .list [.sym "get" ⟨1, 7⟩,
            .list [.sym "slice" ⟨1, 12⟩, .list [.sym "load.trace" ⟨1, 19⟩, .int 0 ⟨1, 30⟩] ⟨1, 18⟩,
              .int 0 ⟨1, 33⟩, .int 1 ⟨1, 35⟩] ⟨1, 11⟩,
            .int 1 ⟨1, 38⟩] ⟨1, 6⟩,
          .list [.sym "load.const" ⟨1, 42⟩, .int 0 ⟨1, 53⟩] ⟨1, 41⟩] ⟨1, 1⟩) = .ok r
      ∧ r.1.arena.shape r.2 = .scalar
      ∧ r.1.arena.expr r.2 = .node (.binary .exp) .scalar
          [.node (.get 1) .scalar [.node (.segment 0 0 1) (.vector 2) []],
            .node (.load .const 0) .scalar []] := by
  have hsegment : Derives powerContext #[] #[]
      (.list [.sym "slice", .list [.sym "load.trace", .int 0], .int 0, .int 1])
      (.node (.segment 0 0 1) (.vector 2) []) :=
    .segment (by decide) (by decide) (by decide) (.trace rfl (by decide)) (by decide) (by decide)
  have hconst : Derives powerContext #[] #[]
      (.list [.sym "load.const", .int 0]) (.node (.load .const 0) .scalar []) :=
    @Derives.load _ _ _ .const 0 .scalar (by decide) (.const (c := .scalar 3) rfl)
  have hpower := Derives.power (.get (show 1 < 2 ^ 64 by decide) hsegment rfl (by decide)) hconst
    (.const 0) rfl
  have hcount : Countable (.node (.binary .exp) .scalar
      [.node (.get 1) .scalar [.node (.segment 0 0 1) (.vector 2) []],
        .node (.load .const 0) .scalar []]) := by
    simp [countable_node]
  refine Exists.elim ((expr_exact powerContext .empty _).1.2 ?_) fun r hr => ⟨r, hr, ?_⟩
  · exact ⟨_, hpower, hcount⟩
  · obtain ⟨htree, hshape, -⟩ :=
      (expr_exact powerContext .empty _).2.2.2 .trap r.1 r.2 _ hr hpower hcount
    exact ⟨hshape, htree⟩

/-- A function of two vectors that together have `2 ^ 64 + 2` elements. -/
def longContext (o : Overflow) : Context :=
  ⟨97, [], [], .function [.vector 18446744073709551615, .vector 3], o⟩

/-- `(vector (load.param 0) (load.param 1))` -/
def longVector : Form :=
  .list [.sym "vector" ⟨1, 2⟩, .list [.sym "load.param" ⟨1, 10⟩, .int 0 ⟨1, 21⟩] ⟨1, 9⟩,
    .list [.sym "load.param" ⟨1, 25⟩, .int 1 ⟨1, 36⟩] ⟨1, 24⟩] ⟨1, 1⟩

/-- **A vector that cannot be counted** is derived, but a machine stops at its length, or goes round
and takes it to have two elements. -/
theorem expr_exact_long :
    (∃ e, Derives (longContext .trap) #[] #[] longVector.bare e
        ∧ e.shape = .vector 18446744073709551618)
    ∧ expr (longContext .trap) .empty longVector = .error (.stop .overflow)
    ∧ ∃ r, expr (longContext .wrap) .empty longVector = .ok r
        ∧ r.1.arena.shape r.2 = .vector 2 := by
  have hfirst : Derives (longContext .trap) #[] #[] (.list [.sym "load.param", .int 0])
      (.node (.load .param 0) (.vector 18446744073709551615) []) :=
    @Derives.load _ _ _ .param 0 _ (by decide) (.param rfl rfl)
  have hsecond : Derives (longContext .trap) #[] #[] (.list [.sym "load.param", .int 1])
      (.node (.load .param 1) (.vector 3) []) :=
    @Derives.load _ _ _ .param 1 _ (by decide) (.param rfl rfl)
  refine ⟨⟨_, .vector (.cons hfirst (.cons hsecond .nil)) ?_ ?_, rfl⟩, rfl, _, rfl, rfl⟩
  · exact ⟨_, List.mem_cons_self .., rfl⟩
  · intro e he
    rcases List.mem_pair.1 he with rfl | rfl
    · exact .inr ⟨_, by decide, rfl⟩
    · exact .inr ⟨_, by decide, rfl⟩

end Grammar

end Arithmetization
