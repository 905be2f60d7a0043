import Arithmetization.Proofs.NormalForm
import Arithmetization.Proofs.Safety
import Arithmetization.Proofs.Statements

/-!
Blocks that can be written.

Not every block can be written so that it is read again: a number may be too large, a load may claim
another shape than its local has, and a slice of a trace row would be read as a segment. `Legible`
rules this out, node by node. What the grammar accepts is legible (`Grammar.DenotesBlock.legible`),
and sharing keeps it so (`Block.Legible.share`): a hoisted expression gets a local of its own shape,
and renumbering moves a local together with its shape.
-/

set_option autoImplicit false

namespace Arithmetization

open Grammar (indexBound)

/-! ## Lengths that can be written -/

namespace Sexp

theorem length_kinds_pos (x : Sexp) : 0 < x.kinds.length := by
  cases x with
  | list items => simp [kinds_list]
  | _ => simp [kinds]

theorem length_kinds_le_of_mem {x : Sexp} {xs : List Sexp} (hx : x ∈ xs) :
    x.kinds.length ≤ (xs.flatMap kinds).length := by
  obtain ⟨us, vs, rfl⟩ := List.append_of_mem hx
  simp only [List.flatMap_append, List.flatMap_cons, List.length_append]
  omega

theorem length_le_length_flatMap_kinds (xs : List Sexp) :
    xs.length ≤ (xs.flatMap kinds).length := by
  induction xs with
  | nil => simp
  | cons x xs ih =>
    have hx := x.length_kinds_pos
    rw [List.flatMap_cons, List.length_cons, List.length_append]
    omega

theorem length_kinds_list (xs : List Sexp) :
    (Sexp.list xs).kinds.length = (xs.flatMap kinds).length + 2 := by
  rw [kinds_list, List.length_cons, List.length_append, List.length_singleton]

/-- Lists around parts of a list only add tokens. -/
theorem length_flatMap_kinds_flatten (xss : List (List Sexp)) :
    (xss.flatten.flatMap kinds).length ≤ ((xss.map Sexp.list).flatMap kinds).length := by
  induction xss with
  | nil => simp
  | cons xs xss ih =>
    rw [List.flatten_cons, List.flatMap_append, List.map_cons, List.flatMap_cons,
      List.length_append, List.length_append, length_kinds_list]
    omega

end Sexp

/-- The lengths of a literal are smaller than its written form. -/
theorem Literal.writable {value : Literal} (hproper : value.isProper = true)
    (hlen : (Sexp.list (Literal.sexps value)).kinds.length ≤ Shape.lengthBound) :
    value.shape.Writable := by
  have hfits := Tensor.fits_of_isProper hproper
  have hitems := Sexp.length_le_length_flatMap_kinds (Literal.sexps value)
  rw [Sexp.length_kinds_list] at hlen
  cases value with
  | scalar x => exact Shape.writable_scalar
  | vector xs =>
    rw [Literal.sexps, List.length_cons, List.length_map] at hitems
    apply Shape.writable_vector
    rw [Literal.sexps] at hlen
    omega
  | matrix rows =>
    have hcols := hfits.head_cols
    rw [Literal.sexps] at hitems hlen
    rw [List.length_cons, List.length_map] at hitems
    cases rows with
    | nil => exact absurd hfits.1 (Nat.lt_irrefl 0)
    | cons row rows =>
      have hrow : (Sexp.list (row.map Sexp.int)) ∈
          Sexp.sym "matrix" :: (row :: rows).map fun row => Sexp.list (row.map Sexp.int) := by simp
      have hmem := Sexp.length_kinds_le_of_mem hrow
      have hints := Sexp.length_le_length_flatMap_kinds (row.map Sexp.int)
      rw [Sexp.length_kinds_list] at hmem
      rw [List.length_map] at hints
      exact Shape.writable_matrix (Nat.succ_pos _) (by omega)
        (show row.length < _ by omega)

/-! ### The rules of shapes -/

namespace Rule

variable {s t u : Shape}

theorem writable_binary {op : BinaryOp} {known : Bool} (hs : s.Writable) (ht : t.Writable)
    (h : Rule.binary op s t known = .ok u) : u.Writable := by
  rcases Rule.binary_eq_ok.1 h with ⟨-, hu⟩ | ⟨-, -, -, rfl⟩ | ⟨-, hu⟩
  · cases hu with
    | same => exact hs
    | scalarRight => exact hs
    | scalarLeft => exact ht
  · exact hs
  · cases hu with
    | vectors => exact Shape.writable_scalar
    | matrixVector => exact Shape.writable_vector hs.rows_lt
    | matrices hr => exact Shape.writable_matrix hr hs.rows_lt ht.cols_lt

theorem writable_slice {first last : Nat} (hs : s.Writable) (h : Rule.slice s first last = .ok u) :
    u.Writable := by
  obtain ⟨n, rfl, hle, hlt, rfl⟩ := Rule.slice_eq_ok.1 h
  have hn : n < Shape.lengthBound := hs.rows_lt
  apply Shape.writable_vector
  omega

theorem writable_concat {o : Overflow} (ho : o ≠ .exact) {parts : List Shape}
    (h : Rule.concat o parts = .ok u) : u.Writable := by
  obtain ⟨-, n, hn, -, rfl⟩ := Rule.concat_eq_ok_iff.1 h
  exact Shape.writable_vector (Overflow.lt_of_keep ho hn)

theorem writable_element {i : Nat} (h : Rule.element s i = .ok u) : u.Writable := by
  obtain ⟨n, -, -, rfl⟩ := Rule.element_eq_ok.1 h
  exact Shape.writable_scalar

theorem writable_grid {rows : List (List Shape)} (hrows : rows.length < Shape.lengthBound)
    (hcols : ∀ row ∈ rows, row.length < Shape.lengthBound) (h : Rule.grid rows = .ok u) :
    u.Writable := by
  obtain ⟨hne, cols, -, hall, -, rfl⟩ := Rule.grid_eq_ok.1 h
  obtain ⟨row, hrow⟩ := List.exists_mem_of_ne_nil _ hne
  refine Shape.writable_matrix (List.length_pos_of_ne_nil hne) hrows ?_
  rw [← hall row hrow]
  exact hcols row hrow

end Rule

/-- All shapes that `Γ` offers can be written, and vectors are counted by a machine. -/
structure Env.Writable (Γ : Env) : Prop where
  machine : Γ.overflow ≠ .exact
  load : ∀ {source : Source} {i : Nat} {s : Shape}, Γ.load source i = some s → s.Writable
  result : ∀ {f : Nat} {signature : Signature}, Γ.signatures[f]? = some signature →
    signature.result.Writable

section

variable {Γ : Env} {ρ : List (Option Shape)} {op : Op} {xs : List Sexp} {args : List Expr}
  {s : Shape}

/-- The written form of a node holds those of its operands. -/
theorem Env.length_kinds_le (hlen : xs.length = args.length)
    (h : Γ.shapeOf ρ op args = some s) :
    (xs.flatMap Sexp.kinds).length + 2 ≤ (Sexp.list (op.sexps xs)).kinds.length := by
  have htakes := Env.takes_of_shapeOf h
  rw [← hlen] at htakes
  rw [Sexp.length_kinds_list]
  cases op with
  | literal value =>
    obtain rfl := List.length_eq_zero_iff.1 htakes
    simp
  | load source i =>
    obtain rfl := List.length_eq_zero_iff.1 htakes
    simp
  | segment row first last =>
    obtain rfl := List.length_eq_zero_iff.1 htakes
    simp
  | matrix widths =>
    have hsum : xs.length = widths.sum := by
      rw [Env.shapeOf_of_local? rfl, Env.rule_matrix, List.length_map] at h
      exact hlen.trans h.1
    have hflatten := Sexp.length_flatMap_kinds_flatten (Tensor.chunks widths xs)
    rw [Tensor.flatten_chunks hsum] at hflatten
    rw [Op.sexps, List.flatMap_cons, List.length_append]
    omega
  | _ =>
    simp only [Op.sexps, List.flatMap_cons, List.flatMap_append, List.length_append]
    omega

/-- **The shape of a node can be written** if those of its operands can and its written form is no
longer than a length can count. -/
theorem Env.Writable.of_shapeOf (hΓ : Γ.Writable)
    (hρ : ∀ {i t}, ρ.getD i none = some t → t.Writable)
    (hargs : ∀ a ∈ args, a.shape.Writable) (hlen : xs.length = args.length)
    (hkinds : (Sexp.list (op.sexps xs)).kinds.length ≤ Shape.lengthBound)
    (h : Γ.shapeOf ρ op args = some s) : s.Writable := by
  have htakes := Env.takes_of_shapeOf h
  have hmore := Env.length_kinds_le hlen h
  have hitems := Sexp.length_le_length_flatMap_kinds xs
  cases hlocal : op.local? with
  | some i =>
    obtain rfl := Op.local?_eq_some.1 hlocal
    obtain rfl := List.length_eq_zero_iff.1 htakes
    exact hρ h
  | none =>
    rw [Env.shapeOf_of_local? hlocal] at h
    have hshapes : ∀ t ∈ args.map Expr.shape, t.Writable := List.forall_mem_map.2 hargs
    cases op with
    | literal value =>
      obtain ⟨hnil, hproper, rfl⟩ := Env.rule_literal.1 h
      obtain rfl := List.map_eq_nil_iff.1 hnil
      exact Literal.writable hproper hkinds
    | load source i => exact hΓ.load (Env.rule_load.1 h).2
    | segment row first last =>
      obtain ⟨-, t, ht, hs⟩ := Env.rule_segment.1 h
      exact Rule.writable_slice (hΓ.load ht) hs
    | binary op =>
      obtain ⟨a, b, hab, hs⟩ := Env.rule_binary.1 h
      rw [hab, List.forall_mem_cons, List.forall_mem_cons] at hshapes
      exact Rule.writable_binary hshapes.1 hshapes.2.1 hs
    | unary op => exact hshapes s (Env.rule_unary.1 h ▸ List.mem_singleton.2 rfl)
    | vector => exact Rule.writable_concat hΓ.machine (Env.rule_vector.1 h)
    | matrix widths =>
      -- rows and elements are counted by the tokens of the written form
      obtain ⟨hsum, hgrid⟩ := Env.rule_matrix.1 h
      have hwidths := Sexp.length_le_length_flatMap_kinds ((Op.matrix widths).sexps xs)
      have hlists : (Tensor.chunks widths (args.map Expr.shape)).map List.length = widths :=
        Tensor.map_length_chunks (Nat.le_of_eq hsum.symm)
      have hforms : (Tensor.chunks widths xs).map List.length = widths :=
        Tensor.map_length_chunks (by rw [List.length_map] at hsum; omega)
      rw [Op.sexps, List.length_cons, List.length_map, ← List.length_map List.length, hforms]
        at hwidths
      rw [Sexp.length_kinds_list, Op.sexps] at hkinds
      refine Rule.writable_grid ?_ (fun row hrow => ?_) hgrid
      · rw [← List.length_map List.length, hlists]
        omega
      · have hmem : row.length ≤ (args.map Expr.shape).length := by
          rw [← Tensor.flatten_chunks hsum, List.length_flatten]
          exact List.le_sum_of_mem (List.mem_map_of_mem hrow)
        rw [List.length_map] at hmem
        rw [Sexp.length_kinds_list, Op.sexps] at hmore
        omega
    | get i =>
      obtain ⟨a, -, hs⟩ := Env.rule_get.1 h
      exact Rule.writable_element hs
    | slice first last =>
      obtain ⟨a, ha, hs⟩ := Env.rule_slice.1 h
      exact Rule.writable_slice (hshapes a (ha ▸ List.mem_singleton.2 rfl)) hs
    | call f =>
      obtain ⟨signature, hsignature, -, rfl⟩ := Env.rule_call.1 h
      exact hΓ.result hsignature

end

/-! ## Legible expressions -/

/-- The numbers of a node can be written, a local is loaded with its declared shape, and a slice is
not one of a trace row. -/
def Op.Legible (modulus : Nat) (locals : List Shape) (s : Shape) (args : List Expr) : Op → Prop
  | .literal value => Literal.Below modulus value
  | .load .local i => locals[i]? = some s
  | .load _ i => i < indexBound
  | .segment row first last => row < indexBound ∧ first < indexBound ∧ last < indexBound
  | .get i => i < indexBound
  | .slice first last =>
    first < indexBound ∧ last < indexBound ∧ ∀ a ∈ args, ∀ row, a.op ≠ .load .trace row
  | .call f => f < indexBound
  | _ => True

/-- Every node can be written, and so can its shape. -/
def Expr.Legible (modulus : Nat) (locals : List Shape) (e : Expr) : Prop :=
  ∀ t ∈ e.subterms, t.shape.Writable ∧ t.op.Legible modulus locals t.shape t.args

section

variable {modulus : Nat} {locals locals' : List Shape}

theorem Op.Legible.mono {op : Op} {s : Shape} {args args' : List Expr}
    (h : op.Legible modulus locals s args)
    (hlocals : ∀ (i : Nat) (t : Shape), locals[i]? = some t → locals'[i]? = some t)
    (hargs : ∀ a' ∈ args', ∀ row, a'.op = .load .trace row → ∃ a ∈ args, a.op = .load .trace row) :
    op.Legible modulus locals' s args' := by
  cases op with
  | load source i =>
    cases source with
    | «local» => exact hlocals i s h
    | _ => exact h
  | slice first last =>
    refine ⟨h.1, h.2.1, fun a' ha' row hrow => ?_⟩
    obtain ⟨a, ha, hop⟩ := hargs a' ha' row hrow
    exact h.2.2 a ha row hop
  | _ => exact h

namespace Expr

theorem legible_node {op : Op} {s : Shape} {args : List Expr} :
    (Expr.node op s args).Legible modulus locals ↔
      (s.Writable ∧ op.Legible modulus locals s args)
        ∧ ∀ a ∈ args, a.Legible modulus locals := by
  constructor
  · intro h
    exact ⟨h _ (mem_subterms_self _), fun a ha t ht => h t (mem_subterms_arg ha ht)⟩
  · rintro ⟨hop, hargs⟩ t ht
    rcases mem_subterms_node.1 ht with rfl | ⟨a, ha, ht⟩
    · exact hop
    · exact hargs a ha t ht

theorem Legible.mono {e : Expr} (h : e.Legible modulus locals)
    (hlocals : ∀ (i : Nat) (t : Shape), locals[i]? = some t → locals'[i]? = some t) :
    e.Legible modulus locals' := by
  intro t ht
  obtain ⟨hs, hop⟩ := h t ht
  exact ⟨hs, hop.mono hlocals fun a ha row hrow => ⟨a, ha, hrow⟩⟩

theorem Legible.shape {e : Expr} (h : e.Legible modulus locals) : e.shape.Writable :=
  (h e (mem_subterms_self e)).1

theorem Legible.subterm {e x : Expr} (h : e.Legible modulus locals) (hx : x ∈ e.subterms) :
    x.Legible modulus locals := by
  induction e using Expr.induction with
  | node op s args ih =>
    rcases mem_subterms_node.1 hx with rfl | ⟨a, ha, hx⟩
    · exact h
    · exact ih a ha ((legible_node.1 h).2 a ha) hx

/-! ## Reading a local instead -/

theorem Legible.readInstead {p : Expr → Bool} {fresh : Nat} {e : Expr}
    (h : e.Legible modulus locals)
    (hlocals : ∀ (i : Nat) (t : Shape), locals[i]? = some t → locals'[i]? = some t)
    (hfresh : ∀ x, p x = true → locals'[fresh]? = some x.shape) :
    (e.readInstead p fresh).Legible modulus locals' := by
  induction e using Expr.induction with
  | node op s args ih =>
    obtain ⟨⟨hs, hop⟩, hargs⟩ := legible_node.1 h
    rw [readInstead_node]
    by_cases hp : p (.node op s args) = true
    · rw [if_pos hp]
      exact legible_node.2 ⟨⟨hs, hfresh _ hp⟩, by simp⟩
    · rw [if_neg hp]
      refine legible_node.2 ⟨⟨hs, hop.mono hlocals fun a' ha' row hrow => ?_⟩, fun a' ha' => ?_⟩
      · -- a trace row among the new operands was one among the old ones
        obtain ⟨⟨op', s', args'⟩, ha, rfl⟩ := List.mem_map.1 ha'
        refine ⟨_, ha, ?_⟩
        rw [readInstead_node] at hrow
        split at hrow
        · cases hrow
        · exact hrow
      · obtain ⟨a, ha, rfl⟩ := List.mem_map.1 ha'
        exact ih a ha (hargs a ha)

/-! ## Renumbering -/

open Block (renumber renumberOp renumberExpr renumberExpr_node)

/-- A kept local has its shape at its new number. -/
theorem getElem?_renumber {kept : List Nat} {i : Nat} (hi : i ∈ kept) {s : Shape}
    (hs : locals[i]? = some s) :
    (kept.map fun l => locals.getD l default)[renumber kept i]? = some s := by
  rw [Block.renumber_eq hi, List.getElem?_map,
    List.getElem?_eq_getElem (List.idxOf_lt_length_of_mem hi), List.getElem_idxOf, Option.map_some,
    List.getD_eq_getElem?_getD, hs]
  rfl

theorem Legible.renumber {kept : List Nat} {e : Expr} (h : e.Legible modulus locals)
    (hreads : ∀ l ∈ e.reads, l ∈ kept) :
    (renumberExpr kept e).Legible modulus (kept.map fun l => locals.getD l default) := by
  induction e using Expr.induction with
  | node op s args ih =>
    obtain ⟨⟨hs, hop⟩, hargs⟩ := legible_node.1 h
    rw [renumberExpr_node]
    refine legible_node.2 ⟨⟨hs, ?_⟩, fun a' ha' => ?_⟩
    · cases hlocal : op.local? with
      | some i =>
        obtain rfl := Op.local?_eq_some.1 hlocal
        exact getElem?_renumber (hreads i (mem_reads_node.2 (.inl rfl))) hop
      | none =>
        rw [Block.renumberOp_of_local? kept hlocal]
        cases op with
        | load source i =>
          cases source with
          | «local» => cases hlocal
          | _ => exact hop
        | slice first last =>
          refine ⟨hop.1, hop.2.1, fun a' ha' row hrow => ?_⟩
          obtain ⟨⟨op', s', args'⟩, ha, rfl⟩ := List.mem_map.1 ha'
          refine hop.2.2 _ ha row ?_
          rw [renumberExpr_node] at hrow
          cases hlocal' : op'.local? with
          | some j =>
            rw [Op.local?_eq_some.1 hlocal'] at hrow
            cases hrow
          | none =>
            rw [Block.renumberOp_of_local? kept hlocal'] at hrow
            exact hrow
        | _ => exact hop
    · obtain ⟨a, ha, rfl⟩ := List.mem_map.1 ha'
      exact ih a ha (hargs a ha) fun l hl => hreads l (mem_reads_node.2 (.inr ⟨a, ha, hl⟩))

end Expr

end

/-! ## Blocks -/

/-- A list keeps its entries when more are added. -/
theorem getElem?_append_of_eq_some {α : Type} {xs ys : List α} {i : Nat} {x : α}
    (h : xs[i]? = some x) : (xs ++ ys)[i]? = some x := by
  rw [List.getElem?_append_left (List.getElem?_eq_some_iff.1 h).1, h]

namespace Block

/-- Every expression and every declaration can be written, and every store has the shape of its
local. -/
structure Legible (modulus : Nat) (b : Block) : Prop where
  locals : ∀ s ∈ b.locals, s.Writable
  exprs : ∀ e ∈ b.exprs, e.Legible modulus b.locals
  stores : ∀ s ∈ b.stores, b.locals[s.target]? = some s.value.shape

variable {modulus : Nat} {b : Block}

theorem Legible.value (h : b.Legible modulus) {s : Assign} (hs : s ∈ b.stores) :
    s.value.Legible modulus b.locals :=
  h.exprs _ (List.mem_append_left _ (List.mem_map_of_mem hs))

theorem Legible.result (h : b.Legible modulus) : b.result.Legible modulus b.locals :=
  h.exprs _ (List.mem_append_right _ (List.mem_singleton.2 rfl))

/-- A round adds a local of the shape of the shared expression. -/
theorem Legible.hoisting (h : b.Legible modulus) (step : Hoisting b) :
    step.block.Legible modulus := by
  have hlocals : ∀ (i : Nat) (t : Shape), b.locals[i]? = some t →
      step.block.locals[i]? = some t := fun i t ht => getElem?_append_of_eq_some ht
  have hfresh : step.block.locals[b.locals.length]? = some step.shared.shape :=
    List.getElem?_concat_length
  have hinstead : ∀ {e : Expr} (σ : List Nat), e ∈ b.exprs →
      (e.readInstead (step.occurs σ) b.locals.length).Legible modulus step.block.locals := by
    intro e σ he
    refine (h.exprs e he).readInstead hlocals fun x hx => ?_
    rw [(step.occurs_spec hx).1]
    exact hfresh
  have hstore : ∀ t ∈ step.block.stores, t.value.Legible modulus step.block.locals
      ∧ step.block.locals[t.target]? = some t.value.shape := by
    intro t ht
    -- a store of the new block stood before, is the new one, or is an old one that now reads it
    rcases List.mem_append.1 ht with ht | ht
    · have hmem : t ∈ b.stores := step.stores_eq ▸ List.mem_append_left _ ht
      exact ⟨(h.value hmem).mono hlocals, hlocals _ _ (h.stores t hmem)⟩
    rcases List.mem_cons.1 ht with rfl | ht
    · obtain ⟨e, he, hx⟩ := step.exists_mem_exprs
      exact ⟨((h.exprs e he).subterm hx).mono hlocals, hfresh⟩
    · obtain ⟨s, hs, σ, rfl⟩ := mem_readStores ht
      have hmem : s ∈ b.stores := step.stores_eq ▸ List.mem_append_right _ hs
      refine ⟨hinstead σ (List.mem_append_left _ (List.mem_map_of_mem hmem)), ?_⟩
      rw [Expr.shape_readInstead]
      exact hlocals _ _ (h.stores s hmem)
  refine ⟨fun s hs => ?_, fun e he => ?_, fun t ht => (hstore t ht).2⟩
  · rcases List.mem_append.1 hs with hs | hs
    · exact h.locals s hs
    · obtain ⟨e, he, hx⟩ := step.exists_mem_exprs
      rw [List.mem_singleton.1 hs]
      exact ((h.exprs e he).subterm hx).shape
  rcases List.mem_append.1 he with he | he
  · obtain ⟨t, ht, rfl⟩ := List.mem_map.1 he
    exact (hstore t ht).1
  · rw [List.mem_singleton.1 he]
    exact hinstead _ (List.mem_append_right _ (List.mem_singleton.2 rfl))

/-- The normal form keeps the shape of each local that it keeps. -/
theorem Legible.normalize (h : b.Legible modulus) (hreads : b.ReadsStored) :
    b.normalize.Legible modulus := by
  have hexpr : ∀ {e : Expr}, e ∈ b.exprs →
      (renumberExpr b.kept e).Legible modulus b.normalize.locals := by
    intro e he
    exact (h.exprs e he).renumber fun l hl => hreads.mem_kept (mem_reads_of_mem_exprs he hl)
  refine ⟨fun s hs => ?_, fun e he => ?_, fun t ht => ?_⟩
  · obtain ⟨l, hl, rfl⟩ := List.mem_map.1 hs
    -- a kept local is the target of a store, so it is declared
    obtain ⟨t, ht, rfl⟩ := List.mem_map.1 (mem_kept.1 hl).1
    rw [List.getD_eq_getElem?_getD, h.stores t ht]
    exact (h.value ht).shape
  · rcases List.mem_append.1 he with he | he
    · obtain ⟨t', ht', rfl⟩ := List.mem_map.1 he
      obtain ⟨t, ht, rfl⟩ := List.mem_map.1 ht'
      exact hexpr (List.mem_append_left _ (List.mem_map_of_mem (List.mem_filter.1 ht).1))
    · rw [List.mem_singleton.1 he]
      exact hexpr (List.mem_append_right _ (List.mem_singleton.2 rfl))
  · obtain ⟨s, hs, rfl⟩ := List.mem_map.1 ht
    obtain ⟨hmem, hkept⟩ := List.mem_filter.1 hs
    rw [Expr.shape_renumberExpr]
    exact Expr.getElem?_renumber (List.contains_iff_mem.1 hkept) (h.stores s hmem)

/-- **Sharing keeps a block legible.** -/
theorem Legible.share (h : b.Legible modulus) (hreads : b.ReadsStored) (minWeight : Nat) :
    (b.share minWeight).Legible modulus := by
  obtain ⟨hlegible, hstored⟩ : (hoistAll (max minWeight 2) b.operations b).Legible modulus
      ∧ (hoistAll (max minWeight 2) b.operations b).ReadsStored :=
    hoistAll_induction (motive := fun b => b.Legible modulus ∧ b.ReadsStored)
      (fun step h => ⟨h.1.hoisting step, h.2.hoisting step⟩) ⟨h, hreads⟩
  exact hlegible.normalize hstored

/-! ### How many locals there are -/

theorem length_locals_hoistAll (minWeight rounds : Nat) (b : Block) :
    (hoistAll minWeight rounds b).locals.length ≤ b.locals.length + rounds := by
  induction rounds generalizing b with
  | zero => exact Nat.le_refl _
  | succ rounds ih =>
    rw [hoistAll]
    split
    · exact Nat.le_add_right _ _
    · next target s hcandidate =>
      -- a round adds one local
      obtain ⟨step, hstep⟩ := exists_hoisting hcandidate
      have hround := ih (b.hoist (Classes.ofBlock b) target s)
      have hlocals : (b.hoist (Classes.ofBlock b) target s).locals.length
          = b.locals.length + 1 := by
        rw [hstep, Hoisting.block, List.length_append, List.length_singleton]
      omega

theorem length_kept_le {b : Block} (h : ∀ s ∈ b.stores, s.target < b.locals.length) :
    b.kept.length ≤ b.locals.length := by
  have hsub : b.kept ⊆ List.range b.locals.length := by
    intro l hl
    obtain ⟨s, hs, rfl⟩ := List.mem_map.1 (mem_kept.1 hl).1
    exact List.mem_range.2 (h s hs)
  have hle := (List.subperm_of_subset b.nodup_kept hsub).length_le
  rwa [List.length_range] at hle

/-- Sharing adds at most one local for each operation. -/
theorem length_locals_share {b : Block} (h : b.Formed) (minWeight : Nat) :
    (b.share minWeight).locals.length ≤ b.locals.length + b.operations := by
  have hformed : (hoistAll (max minWeight 2) b.operations b).Formed :=
    hoistAll_induction (fun step h => h.hoisting step) h
  rw [share, length_locals_normalize]
  exact Nat.le_trans (length_kept_le hformed.target_lt) (length_locals_hoistAll _ _ b)

end Block

namespace Body

variable {modulus : Nat} {b : Body}

theorem legible_share (h : b.block.Legible modulus) (hreads : b.block.ReadsStored)
    (o : SharingOptions) : (b.share o).block.Legible modulus := by
  rw [block_share]
  split
  · exact h.share hreads o.minWeight
  · exact h

theorem length_locals_share_le (h : b.block.Formed) (o : SharingOptions) :
    (b.share o).block.locals.length ≤ b.block.locals.length + b.block.operations := by
  rw [block_share]
  split
  · exact Block.length_locals_share h o.minWeight
  · exact Nat.le_add_right _ _

end Body

/-! ## What is accepted is legible -/

/-- What holds of the statements of an accepted body. -/
structure Progress.Legible (modulus : Nat) (xs : List Sexp) (p : Progress) : Prop where
  length_eq : p.shapes.length = p.locals.length
  readable : ∀ {i : Nat} {s : Shape}, p.shapes.getD i none = some s → p.locals[i]? = some s
  locals : ∀ s ∈ p.locals, s.Writable
  stores : ∀ t ∈ p.stores,
    t.value.Legible modulus p.locals ∧ p.locals[t.target]? = some t.value.shape
  size_le : p.locals.length + (p.stores.map fun t => t.value.operations).sum
    ≤ (xs.flatMap Sexp.kinds).length

/-- After a store its local may be read with its declared shape. -/
theorem getElem?_of_getD_set {ρ : List (Option Shape)} {locals : List Shape}
    (hρ : ∀ {i : Nat} {s : Shape}, ρ.getD i none = some s → locals[i]? = some s) {target : Nat}
    (htarget : target < ρ.length) {s : Shape} (hs : locals[target]? = some s) {i : Nat} {t : Shape}
    (h : (ρ.set target (some s)).getD i none = some t) : locals[i]? = some t := by
  by_cases hi : target = i
  · subst hi
    rw [Evaluator.getD_set_self htarget] at h
    rw [← Option.some.inj h]
    exact hs
  · rw [Evaluator.getD_set_ne hi] at h
    exact hρ h

namespace Progress.Legible

variable {modulus : Nat} {xs : List Sexp} {p : Progress}

theorem declare (h : p.Legible modulus xs) {s : Shape} (hs : s.Writable) :
    Progress.Legible modulus (xs ++ [.list (.sym "local" :: s.sexps)])
      ⟨p.locals ++ [s], p.shapes ++ [none], p.stores⟩ := by
  have hmore : ∀ (i : Nat) (t : Shape), p.locals[i]? = some t →
      (p.locals ++ [s])[i]? = some t := fun i t ht => getElem?_append_of_eq_some ht
  refine ⟨?_, ?_, ?_, ?_, ?_⟩
  · simp only [List.length_append, List.length_singleton, h.length_eq]
  · intro i t ht
    -- the new local may not be read yet
    by_cases hi : i < p.shapes.length
    · rw [List.getD_append _ _ _ _ hi] at ht
      exact hmore i t (h.readable ht)
    · rw [List.getD_append_right _ _ _ _ (Nat.not_lt.1 hi), List.getD_eq_getElem?_getD] at ht
      cases hlast : i - p.shapes.length <;> simp [hlast] at ht
  · intro t ht
    rcases List.mem_append.1 ht with ht | ht
    · exact h.locals t ht
    · rwa [List.mem_singleton.1 ht]
  · intro t ht
    obtain ⟨hvalue, htarget⟩ := h.stores t ht
    exact ⟨hvalue.mono hmore, hmore _ _ htarget⟩
  · have hsize := h.size_le
    rw [List.flatMap_append, List.length_append, List.length_append, List.flatMap_singleton,
      Sexp.length_kinds_list, List.length_singleton]
    dsimp only
    omega

theorem store (h : p.Legible modulus xs) {x : Sexp} {e : Expr} {target : Nat}
    (he : e.Legible modulus p.locals) (hops : e.operations ≤ x.kinds.length)
    (hlocal : p.locals[target]? = some e.shape) :
    Progress.Legible modulus (xs ++ [.list [.sym "store.local", .int target, x]])
      ⟨p.locals, p.shapes.set target (some e.shape), p.stores ++ [⟨target, e⟩]⟩ := by
  have htarget : target < p.shapes.length := by
    rw [h.length_eq]
    exact (List.getElem?_eq_some_iff.1 hlocal).1
  refine ⟨?_, fun ht => getElem?_of_getD_set h.readable htarget hlocal ht, h.locals, ?_, ?_⟩
  · rw [List.length_set]
    exact h.length_eq
  · intro t ht
    rcases List.mem_append.1 ht with ht | ht
    · exact h.stores t ht
    · rw [List.mem_singleton.1 ht]
      exact ⟨he, hlocal⟩
  · have hsize := h.size_le
    have hx : x.kinds.length
        ≤ ([Sexp.sym "store.local", .int target, x].flatMap Sexp.kinds).length :=
      Sexp.length_kinds_le_of_mem (by simp)
    rw [List.flatMap_append, List.length_append, List.flatMap_singleton, Sexp.length_kinds_list,
      List.map_append, List.sum_append, List.map_singleton, List.sum_singleton]
    dsimp only
    omega

end Progress.Legible

namespace Grammar

variable {cx : Context} {ρ : List (Option Shape)} {locals : List Shape}

/-- The operands are written inside the node. -/
theorem sum_le_length_kinds {xs : List Sexp} {args : List Expr} {f : Expr → Nat}
    (h : List.Forall₂ (fun x a => f a ≤ x.kinds.length) xs args) :
    (args.map f).sum ≤ (xs.flatMap Sexp.kinds).length := by
  induction h with
  | nil => simp
  | cons hx _ ih =>
    rw [List.map_cons, List.sum_cons, List.flatMap_cons, List.length_append]
    omega

/-- An operation is written as a list of its own. -/
theorem Denotes.operations_le {x : Sexp} {e : Expr} (h : Denotes cx ρ x e) :
    e.operations ≤ x.kinds.length := by
  refine Denotes.induction (P := fun x e => e.operations ≤ x.kinds.length) ?_ ?_ h
  · intro n _
    simp [Expr.operations_node, Op.isTrivial]
  · intro op s xs args hargs _ hshape
    have hlen := Env.length_kinds_le hargs.length_eq hshape
    have hsum := sum_le_length_kinds (hargs.imp fun _ _ h => h.2)
    rw [Expr.operations_node]
    split <;> omega

/-- **What is denoted is legible**: a form of moderate size stands for an expression of which every
node can be written. -/
theorem Denotes.legible (hΓ : cx.env.Writable)
    (hρ : ∀ {i : Nat} {s : Shape}, ρ.getD i none = some s → locals[i]? = some s)
    (hlocals : ∀ s ∈ locals, s.Writable) {x : Sexp} {e : Expr} (h : Denotes cx ρ x e)
    (hkinds : x.kinds.length ≤ Shape.lengthBound) : e.Legible cx.modulus locals := by
  revert hkinds
  refine Denotes.induction (P := fun x e => x.kinds.length ≤ Shape.lengthBound →
    e.Legible cx.modulus locals) ?_ ?_ h
  · intro n hn _
    refine Expr.legible_node.2 ⟨⟨Shape.writable_scalar, ?_⟩, by simp⟩
    simpa [Op.Legible, Literal.Below, Tensor.elements] using hn
  · intro op s xs args hargs hop hshape hkinds
    have hlen := hargs.length_eq
    have hmore := Env.length_kinds_le hlen hshape
    -- the operands are written inside the form, so none of them is larger
    have hlegible : ∀ a ∈ args, a.Legible cx.modulus locals := by
      intro a ha
      obtain ⟨x, hx, -, ih⟩ := exists_mem_right hargs.flip ha
      have := Sexp.length_kinds_le_of_mem hx
      exact ih (by omega)
    have hs : s.Writable :=
      hΓ.of_shapeOf (fun ht => hlocals _ (List.mem_of_getElem? (hρ ht)))
        (fun a ha => (hlegible a ha).shape) hlen hkinds hshape
    refine Expr.legible_node.2 ⟨⟨hs, ?_⟩, hlegible⟩
    cases op with
    | load source i =>
      cases source with
      | «local» =>
        obtain rfl := List.length_eq_zero_iff.1 (Env.takes_of_shapeOf hshape)
        exact hρ hshape
      | _ => exact hop
    | binary op => trivial
    | unary op => trivial
    | vector => trivial
    | matrix widths => trivial
    | _ => exact hop

theorem Statements.legible (hΓ : cx.env.Writable) {xs : List Sexp} {p : Progress}
    (h : Statements cx xs p) (hkinds : (xs.flatMap Sexp.kinds).length ≤ Shape.lengthBound) :
    p.Legible cx.modulus xs := by
  induction h with
  | nil => exact ⟨rfl, fun h => (by cases h), by simp, by simp, by simp⟩
  | declare _ hs ih =>
    rw [List.flatMap_append, List.length_append] at hkinds
    exact (ih (by omega)).declare hs
  | @store xs p x e target _ htarget he hlocal ih =>
    rw [List.flatMap_append, List.length_append, List.flatMap_singleton, Sexp.length_kinds_list]
      at hkinds
    have hx : x.kinds.length
        ≤ ([Sexp.sym "store.local", .int target, x].flatMap Sexp.kinds).length :=
      Sexp.length_kinds_le_of_mem (by simp)
    have hp := ih (by omega)
    exact hp.store (he.legible hΓ hp.readable hp.locals (by omega)) he.operations_le hlocal

/-- **An accepted body is legible**, and it has no more locals and operations than tokens. -/
theorem DenotesBlock.legible (hΓ : cx.env.Writable) {xs : List Sexp} {b : Block}
    (h : DenotesBlock cx xs b) (hkinds : (xs.flatMap Sexp.kinds).length ≤ Shape.lengthBound) :
    b.Legible cx.modulus ∧ b.locals.length + b.operations ≤ (xs.flatMap Sexp.kinds).length := by
  cases h with
  | @result xs p x e hxs he =>
    rw [List.flatMap_append, List.length_append, List.flatMap_singleton] at hkinds ⊢
    have hp := hxs.legible hΓ (by omega)
    have hresult := he.legible hΓ hp.readable hp.locals (by omega)
    refine ⟨⟨hp.locals, fun y hy => ?_, fun t ht => (hp.stores t ht).2⟩, ?_⟩
    · rcases List.mem_append.1 hy with hy | hy
      · obtain ⟨t, ht, rfl⟩ := List.mem_map.1 hy
        exact (hp.stores t ht).1
      · rwa [List.mem_singleton.1 hy]
    · have hsize := hp.size_le
      have hops := he.operations_le
      rw [Block.operations_eq]
      dsimp only
      omega

end Grammar

end Arithmetization
