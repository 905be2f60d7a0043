import Arithmetization.Proofs.Denotation

/-!
Which expressions are accepted.

`Grammar.expr` reads a form and appends nodes to a body in the making. It accepts exactly the forms
whose nodes can be appended, with these nodes, and changes nothing else in the body
(`Grammar.expr_eq_ok`). This is the only place where the function is looked into: whether a form is
accepted, what it then denotes, which nodes it leaves and that its place in the text does not matter
all follow from the equivalence.

Each direction goes through the keywords once. What is accepted is appended, by induction over the
form; what is appended is accepted, by induction over the nodes, with one lemma for each operator.
-/

set_option autoImplicit false

namespace Arithmetization

/-! ## Bodies in the making -/

namespace Builder

variable {b b' : Builder}

/-- The shapes of the locals that may be read. -/
def shapes (b : Builder) : List (Option Shape) :=
  List.zipWith (fun s stored => if stored then some s else none) b.locals.toList b.stored.toList

theorem getD_shapes {i : Nat} {s : Shape} :
    b.shapes.getD i none = some s ↔ b.locals[i]? = some s ∧ b.stored[i]? = some true := by
  rw [shapes, List.getD_eq_getElem?_getD, List.getElem?_zipWith, Array.getElem?_toList,
    Array.getElem?_toList]
  cases b.locals[i]? with
  | none => simp
  | some t =>
    cases b.stored[i]? with
    | none => simp
    | some stored => cases stored <;> simp

theorem readable_eq_ok {i : Nat} {s : Shape} :
    b.readable i = .ok s ↔ b.shapes.getD i none = some s := by
  rw [getD_shapes, readable]
  cases b.locals[i]? with
  | none => simp
  | some t =>
    cases b.stored[i]? with
    | none => simp
    | some stored => cases stored <;> simp

theorem onArena_eq (b : Builder) (step : Arena → Except Fault (Arena × Nat)) :
    b.onArena step = (step b.arena).map fun p => ({ b with arena := p.1 }, p.2) := by
  unfold onArena
  dsimp only
  cases step b.arena <;> rfl

theorem onArena_eq_ok {step : Arena → Except Fault (Arena × Nat)} {id : Nat} :
    b.onArena step = .ok (b', id) ↔
      ∃ a, step b.arena = .ok (a, id) ∧ b' = { b with arena := a } := by
  rw [onArena_eq]
  constructor
  · intro h
    obtain ⟨⟨a, i⟩, hstep, hp⟩ := map_eq_ok.1 h
    cases hp
    exact ⟨a, hstep, rfl⟩
  · rintro ⟨a, hstep, rfl⟩
    rw [hstep]
    rfl

end Builder

theorem Arena.place_eq_ok {a : Arena} {op : Op} {args : List Nat} {r : Except ShapeFault Shape}
    {a' : Arena} {id : Nat} :
    a.place op args r = .ok (a', id) ↔
      ∃ shape, r = .ok shape ∧ a.push op shape args = (a', id) := by
  cases r with
  | error cause => exact ⟨fun h => (by cases h), fun ⟨_, h, _⟩ => (by cases h)⟩
  | ok shape =>
    constructor
    · exact fun h => ⟨shape, rfl, Except.ok.inj h⟩
    · rintro ⟨s, hs, h⟩
      obtain rfl := Except.ok.inj hs
      exact congrArg _ h

theorem Arena.vector_eq_ok {o : Overflow} {a a' : Arena} {args : List Nat} {id : Nat} :
    Arena.vector o a args = .ok (a', id) ↔
      ∃ shape, Rule.concat o (args.map a.shape) = .ok shape
        ∧ a.push .vector shape args = (a', id) := by
  rw [Arena.vector, bind_eq_ok]
  exact exists_congr fun shape => and_congr_right fun _ => pure_eq_ok

/-- A slice of what is no trace row. -/
theorem Arena.slice_eq {a : Arena} {j first last : Nat}
    (hrow : ∀ row, (a.get j).op ≠ .load .trace row) {s : Shape}
    (hs : Rule.slice (a.shape j) first last = .ok s) :
    a.slice j first last = .ok (a.push (.slice first last) s [j]) := by
  unfold Arena.slice
  dsimp only
  split
  · next row hload => exact absurd hload (hrow row)
  · rw [hs]
    rfl

namespace Grammar

open Form

theorem located_eq_ok {α : Type} {pos : Position} {x : Except Fault α} {a : α} :
    located pos x = .ok a ↔ x = .ok a := by
  cases x with
  | error f => exact ⟨fun h => (by cases h), fun h => (by cases h)⟩
  | ok y => exact Iff.rfl

/-- A load is accepted if what it names has a shape where it stands. -/
theorem loadShape_eq_ok {cx : Context} {b : Builder} {source : Source} {i : Nat} {s : Shape} :
    loadShape cx b source i = .ok s ↔
      cx.env.shapeOf b.shapes (.load source i) [] = some s := by
  obtain ⟨modulus, constants, functions, scope, overflow⟩ := cx
  cases source with
  | «local» => exact Builder.readable_eq_ok
  | const =>
    rw [Env.shapeOf_load (by decide)]
    simp only [loadShape, Env.load, Context.env]
    cases constants[i]? <;> simp
  | trace =>
    rw [Env.shapeOf_load (by decide)]
    cases scope with
    | function params => simp [loadShape, Env.load, Context.env]
    | procedure span width statics =>
      by_cases hi : i < span <;> simp [loadShape, Env.load, Context.env, hi]
  | static =>
    rw [Env.shapeOf_load (by decide)]
    cases scope with
    | function params => simp [loadShape, Env.load, Context.env]
    | procedure span width statics =>
      cases statics with
      | none => simp [loadShape, Env.load, Context.env]
      | some n => by_cases hi : i = 0 <;> simp [loadShape, Env.load, Context.env, hi]
  | param =>
    rw [Env.shapeOf_load (by decide)]
    cases scope with
    | procedure span width statics => simp [loadShape, Env.load, Context.env]
    | function params =>
      simp only [loadShape, Env.load, Context.env]
      cases params[i]? <;> simp

/-! ## What is accepted is appended -/

/-- A form that appends the nodes it stands for and changes nothing else. -/
def Appending (cx : Context) (f : Form) : Prop :=
  ∀ b b' id, expr cx b f = .ok (b', id) →
    ∃ a, Appends cx b.shapes b.arena f.bare a id ∧ b' = { b with arena := a }

variable {cx : Context} {b b' : Builder}

theorem exprs_appends {fs : List Form} (hfs : ∀ f ∈ fs, Appending cx f) {ids : List Nat}
    (h : exprs cx b fs = .ok (b', ids)) :
    ∃ a, Operands (Appends cx b.shapes) b.arena (fs.map bare) a ids
      ∧ b' = { b with arena := a } := by
  induction fs generalizing b ids with
  | nil =>
    rw [exprs_nil] at h
    cases h
    exact ⟨_, .nil _, rfl⟩
  | cons f fs ih =>
    rw [List.forall_mem_cons] at hfs
    rw [exprs_cons] at h
    obtain ⟨⟨b₁, id⟩, hid, h⟩ := bind_eq_ok.1 h
    obtain ⟨⟨b₂, rest⟩, hrest, h⟩ := bind_eq_ok.1 h
    cases h
    obtain ⟨a₁, hfirst, rfl⟩ := hfs.1 b b₁ id hid
    obtain ⟨a, hothers, rfl⟩ := ih hfs.2 hrest
    exact ⟨a, .cons hfirst hothers, rfl⟩

/-- The rows of a matrix are lists, and their elements are read one after the other. -/
theorem exprRows_appends {rows : List Form} (hrows : ∀ f ∈ rows, ∀ g ∈ f.items, Appending cx g)
    {ids : List (List Nat)} (h : exprRows cx b rows = .ok (b', ids)) :
    ∃ (xss : List (List Sexp)) (a : Arena), rows.map bare = xss.map .list
      ∧ xss.map List.length = ids.map List.length
      ∧ Operands (Appends cx b.shapes) b.arena xss.flatten a ids.flatten
      ∧ b' = { b with arena := a } := by
  induction rows generalizing b ids with
  | nil =>
    rw [exprRows_nil] at h
    cases h
    exact ⟨[], _, rfl, rfl, .nil _, rfl⟩
  | cons f rows ih =>
    cases f with
    | list items pos =>
      rw [exprRows_cons] at h
      obtain ⟨⟨b₁, row⟩, hrow, h⟩ := bind_eq_ok.1 h
      obtain ⟨⟨b₂, rest⟩, hrest, h⟩ := bind_eq_ok.1 h
      cases h
      rw [List.forall_mem_cons] at hrows
      have hitems : ∀ g ∈ items, Appending cx g := hrows.1
      obtain ⟨a₁, hfirst, rfl⟩ := exprs_appends hitems hrow
      obtain ⟨xss, a, hbare, hlengths, hothers, rfl⟩ := ih hrows.2 hrest
      refine ⟨items.map bare :: xss, a, ?_, ?_, hfirst.append hothers, rfl⟩
      · rw [List.map_cons, List.map_cons, hbare, bare_list]
      · rw [List.map_cons, List.map_cons, hlengths, hfirst.length_eq]
    | _ => rw [exprRows] at h <;> cases h

/-- A node over operands that were appended, placed with the shape that its rule gives. -/
theorem appends_place (op : Op) (hlocal : op.local? = none) {xs : List Sexp} {a : Arena}
    {ids : List Nat} (hargs : Operands (Appends cx b.shapes) (cx.env.withRow b.arena op) xs a ids)
    (hop : op.Admits cx.modulus xs (ids.map a.expr)) {r : Except ShapeFault Shape} {id : Nat}
    (hplace : Builder.onArena { b with arena := a } (·.place op ids r) = .ok (b', id))
    (hrule : ∀ s, r = .ok s → cx.env.rule op (ids.map a.expr) (ids.map a.shape) = some s) :
    ∃ a', Appends cx b.shapes b.arena (.list (op.sexps xs)) a' id
      ∧ b' = { b with arena := a' } := by
  obtain ⟨a', ha', rfl⟩ := Builder.onArena_eq_ok.1 hplace
  obtain ⟨s, hs, hpush⟩ := Arena.place_eq_ok.1 ha'
  obtain ⟨rfl, rfl⟩ := Prod.mk.inj hpush
  refine ⟨_, .node op hargs hop ?_, rfl⟩
  rw [hargs.shapeOf hlocal]
  exact hrule s hs

/-- A slice, which is a segment if its operand is a trace row. -/
theorem appends_slice {x : Sexp} {a : Arena} {j : Nat}
    (hx : Appends cx b.shapes b.arena x a j) {m n : Nat} (hm : m < indexBound) (hn : n < indexBound)
    {id : Nat} (h : Builder.onArena { b with arena := a } (·.slice j m n) = .ok (b', id)) :
    ∃ a', Appends cx b.shapes b.arena (.list [.sym "slice", x, .int m, .int n]) a' id
      ∧ b' = { b with arena := a' } := by
  obtain ⟨a', ha', rfl⟩ := Builder.onArena_eq_ok.1 h
  unfold Arena.slice at ha'
  dsimp only at ha'
  split at ha'
  · next row hload =>
    -- the row was loaded for the slice, but the segment has no operand
    obtain ⟨rfl, hrow, t, ht, rfl, rfl⟩ := hx.of_load hload
    rw [Arena.shape, Arena.get_push_self] at ha'
    rw [Env.shapeOf_load (by decide)] at ht
    have hnone : Operands (Appends cx b.shapes) (cx.env.withRow b.arena (.segment row m n)) []
        (b.arena.push (.load .trace row) t []).1 [] := by
      rw [Env.withRow_segment ht]
      exact .nil _
    refine appends_place (.segment row m n) rfl hnone ⟨hrow, hm, hn⟩
      (Builder.onArena_eq_ok.2 ⟨a', ha', rfl⟩) fun s hs => ?_
    exact Env.rule_segment.2 ⟨rfl, t, ht, hs⟩
  · next hload =>
    refine appends_place (.slice m n) rfl (.cons hx (.nil _)) ⟨hm, hn, ?_⟩
      (Builder.onArena_eq_ok.2 ⟨a', ha', rfl⟩) fun s hs => toOption_eq_some.2 hs
    intro e he row hrow
    obtain rfl := List.mem_singleton.1 he
    exact hload row ((a.expr_op_shape hx.lt).1.symm.trans hrow)

/-- A matrix has rows of the widths that are written, each shape in the place of its element. -/
theorem rule_rows {Γ : Env} {a : Arena} {rows : List (List Nat)} {args : List Expr} {s : Shape} :
    Γ.rule (.matrix (rows.map List.length)) args (rows.flatten.map a.shape) = some s ↔
      Rule.grid (rows.map (·.map a.shape)) = .ok s := by
  have hchunks : Tensor.chunks (rows.map List.length) (rows.flatten.map a.shape)
      = rows.map (·.map a.shape) := by
    have h := Tensor.chunks_flatten (rows.map (·.map a.shape))
    rw [List.map_map] at h
    simpa only [Function.comp_def, List.length_map, List.map_flatten] using h
  rw [Env.rule_matrix, hchunks, List.length_map, List.length_flatten, and_iff_right rfl]

/-- A list form, if the forms inside it and inside its items append the nodes they stand for. -/
theorem appending_list {items : List Form} (pos : Position)
    (hitems : ∀ f ∈ items, Appending cx f ∧ ∀ g ∈ f.items, Appending cx g) :
    Appending cx (.list items pos) := by
  intro b b' id h
  rw [bare_list]
  rw [expr.eq_def] at h
  split at h
  · next heq => cases heq
  · next name namePos args pos' heq =>
    cases heq
    have hargs : ∀ f ∈ args, Appending cx f := fun f hf => (hitems f (List.mem_cons_of_mem _ hf)).1
    split at h
    · cases h
    next head hhead =>
    obtain rfl := Head.eq_keyword hhead
    split at h
    · -- a literal of several numbers
      obtain ⟨value, hvalue, h⟩ := bind_eq_ok.1 h
      obtain ⟨hfs, hproper, hbelow⟩ := literal_eq_ok.1 hvalue
      rw [hfs]
      refine appends_place (.literal value) rfl (.nil _) hbelow (located_eq_ok.1 h) ?_
      rintro s hs
      rw [if_pos hproper] at hs
      rw [← Except.ok.inj hs]
      exact if_pos hproper
    next hliteral =>
    rw [Bool.not_eq_true] at hliteral
    split at h
    · -- a binary operator
      next op l r =>
      obtain ⟨⟨b₁, i⟩, hl, h⟩ := bind_eq_ok.1 h
      obtain ⟨⟨b₂, j⟩, hr, h⟩ := bind_eq_ok.1 h
      obtain ⟨a₁, hleft, rfl⟩ := hargs l (by simp) b b₁ i hl
      obtain ⟨a₂, hright, rfl⟩ := hargs r (by simp) _ b₂ j hr
      have hboth := Operands.cons hleft (.cons hright (.nil a₂))
      refine appends_place (.binary op) rfl hboth trivial (located_eq_ok.1 h) fun s hs => ?_
      rw [← hboth.shapeOf rfl]
      exact (hright.shapeOf_binary (hboth.stores.lt i (by simp))).2 hs
    · -- a unary operator
      next op x =>
      obtain ⟨⟨b₁, i⟩, hread, h⟩ := bind_eq_ok.1 h
      obtain ⟨a, hx, rfl⟩ := hargs x (by simp) b b₁ i hread
      exact appends_place (.unary op) rfl (.cons hx (.nil a)) trivial (r := .ok (a.shape i)) h
        fun s hs => congrArg some (Except.ok.inj hs)
    · -- a vector
      obtain ⟨⟨b₁, ids⟩, hread, h⟩ := bind_eq_ok.1 h
      obtain ⟨a, hids, rfl⟩ := exprs_appends hargs hread
      have hne : args ≠ [] := by
        rintro rfl
        cases hids
        cases h
      obtain ⟨a', ha', rfl⟩ := Builder.onArena_eq_ok.1 (located_eq_ok.1 h)
      obtain ⟨s, hs, hpush⟩ := Arena.vector_eq_ok.1 ha'
      obtain ⟨rfl, rfl⟩ := Prod.mk.inj hpush
      refine ⟨_, .node .vector hids ((isLiteral_vector_eq_false hne).1 hliteral) ?_, rfl⟩
      rw [hids.shapeOf rfl]
      exact Env.rule_vector.2 hs
    · -- a matrix
      obtain ⟨⟨b₁, ids⟩, hread, h⟩ := bind_eq_ok.1 h
      have hne : args ≠ [] := by
        rintro rfl
        rw [exprRows_nil] at hread
        cases hread
        cases h
      obtain ⟨xss, a, hbare, hlengths, hids, rfl⟩ :=
        exprRows_appends (fun f hf => (hitems f (List.mem_cons_of_mem _ hf)).2) hread
      have hmatrix := appends_place (.matrix (ids.map List.length)) rfl hids
        ((isLiteral_matrix_eq_false hne hbare).1 hliteral) (located_eq_ok.1 h)
        fun s hs => rule_rows.2 hs
      rw [Op.sexps, ← hlengths, Tensor.chunks_flatten, ← hbare] at hmatrix
      exact hmatrix
    · -- an element of a vector
      next source i =>
      obtain ⟨⟨b₁, j⟩, hread, h⟩ := bind_eq_ok.1 h
      obtain ⟨k, hk, h⟩ := bind_eq_ok.1 h
      obtain ⟨hi, hlt⟩ := index_eq_ok.1 hk
      obtain ⟨a, hx, rfl⟩ := hargs source (by simp) b b₁ j hread
      rw [List.map_cons, List.map_cons, List.map_cons, hi]
      exact appends_place (.get k) rfl (.cons hx (.nil a)) hlt (located_eq_ok.1 h)
        fun s hs => toOption_eq_some.2 hs
    · -- a slice or a segment
      next source first last =>
      obtain ⟨⟨b₁, j⟩, hread, h⟩ := bind_eq_ok.1 h
      obtain ⟨m, hm, h⟩ := bind_eq_ok.1 h
      obtain ⟨n, hn, h⟩ := bind_eq_ok.1 h
      obtain ⟨hfirst, hmlt⟩ := index_eq_ok.1 hm
      obtain ⟨hlast, hnlt⟩ := index_eq_ok.1 hn
      obtain ⟨a, hx, rfl⟩ := hargs source (by simp) b b₁ j hread
      rw [List.map_cons, List.map_cons, List.map_cons, List.map_cons, hfirst, hlast]
      exact appends_slice hx hmlt hnlt (located_eq_ok.1 h)
    · -- a call of a function that is declared already
      next f args' =>
      obtain ⟨k, hk, h⟩ := bind_eq_ok.1 h
      obtain ⟨hf, hlt⟩ := index_eq_ok.1 hk
      split at h
      · cases h
      next callee hcallee =>
      obtain ⟨⟨b₁, ids⟩, hread, h⟩ := bind_eq_ok.1 h
      obtain ⟨a, hids, rfl⟩ := exprs_appends (fun g hg => hargs g (List.mem_cons_of_mem _ hg)) hread
      rw [List.map_cons, List.map_cons, hf]
      refine appends_place (.call k) rfl hids hlt (located_eq_ok.1 h) fun s hs => ?_
      have hsignature : cx.env.signatures[k]? = some callee.signature := by
        rw [Context.env, List.getElem?_map, hcallee]
        rfl
      exact Option.bind_eq_some_iff.2 ⟨_, hsignature, toOption_eq_some.2 hs⟩
    · -- a load
      next source i =>
      obtain ⟨k, hk, h⟩ := bind_eq_ok.1 h
      obtain ⟨hi, hlt⟩ := index_eq_ok.1 hk
      obtain ⟨s, hs, h⟩ := bind_eq_ok.1 (located_eq_ok.1 h)
      obtain ⟨a, ha, rfl⟩ := Builder.onArena_eq_ok.1 h
      obtain ⟨rfl, rfl⟩ := Prod.mk.inj (Except.ok.inj ha)
      rw [List.map_cons, List.map_cons, hi]
      exact ⟨_, .node (.load source k) (.nil _) hlt (loadShape_eq_ok.1 hs), rfl⟩
    · cases h
  · cases h

/-- **What is accepted is appended.** The induction carries a form together with the items inside
it, since the rows of a matrix are looked at two levels down. -/
theorem appending (cx : Context) (f : Form) : Appending cx f := by
  suffices h : Appending cx f ∧ ∀ g ∈ f.items, Appending cx g from h.1
  induction f using Form.induction with
  | int value pos =>
    refine ⟨?_, fun g hg => (by cases hg)⟩
    intro b b' id h
    rw [expr_int] at h
    obtain ⟨n, hn, h⟩ := bind_eq_ok.1 h
    obtain ⟨hvalue, hlt⟩ := element_eq_ok.1 hn
    obtain ⟨a, ha, rfl⟩ := Builder.onArena_eq_ok.1 h
    obtain ⟨rfl, rfl⟩ := Prod.mk.inj (Except.ok.inj ha)
    rw [hvalue]
    exact ⟨_, .number hlt, rfl⟩
  | hex bytes pos | sym name pos =>
    refine ⟨?_, fun g hg => (by cases hg)⟩
    intro b b' id h
    rw [expr] at h <;> cases h
  | list items pos ih => exact ⟨appending_list pos ih, fun g hg => (ih g hg).1⟩

/-! ## What is appended is accepted -/

variable {ρ : List (Option Shape)}

/-- Every form that is written like `x` is read with the given outcome. -/
def ReadAs (cx : Context) (ρ : List (Option Shape)) (a : Arena) (x : Sexp) (a' : Arena) (id : Nat) :
    Prop :=
  ∀ (f : Form) (b : Builder), f.bare = x → b.shapes = ρ → b.arena = a →
    expr cx b f = .ok ({ b with arena := a' }, id)

theorem exprs_of_operands {a a' : Arena} {xs : List Sexp} {ids : List Nat}
    (h : Operands (ReadAs cx ρ) a xs a' ids) {fs : List Form} (hfs : fs.map bare = xs)
    (hρ : b.shapes = ρ) (ha : b.arena = a) :
    exprs cx b fs = .ok ({ b with arena := a' }, ids) := by
  induction h generalizing fs b with
  | nil a =>
    rw [List.map_eq_nil_iff.1 hfs, exprs_nil, ← ha]
  | @cons a a₁ a' x xs id ids hx _ ih =>
    obtain ⟨f, fs, rfl, hf, hrest⟩ := List.map_eq_cons_iff.1 hfs
    rw [exprs_cons]
    exact bind_eq_ok.2 ⟨_, hx f b hf hρ ha,
      bind_eq_ok.2 ⟨_, ih (b := { b with arena := a₁ }) hrest hρ rfl, rfl⟩⟩

theorem exprRows_of_operands {xss : List (List Sexp)} {a a' : Arena} {ids : List Nat}
    (h : Operands (ReadAs cx ρ) a xss.flatten a' ids) {rows : List Form}
    (hrows : rows.map bare = xss.map .list) (hρ : b.shapes = ρ) (ha : b.arena = a) :
    ∃ idss, exprRows cx b rows = .ok ({ b with arena := a' }, idss) ∧ idss.flatten = ids
      ∧ idss.map List.length = xss.map List.length := by
  induction xss generalizing rows a ids b with
  | nil =>
    cases h
    refine ⟨[], ?_, rfl, rfl⟩
    rw [List.map_eq_nil_iff.1 hrows, exprRows_nil, ← ha]
  | cons xs xss ih =>
    obtain ⟨f, rows, rfl, hf, hrest⟩ := List.map_eq_cons_iff.1 hrows
    obtain ⟨items, pos, rfl, hitems⟩ := bare_eq_list.1 hf
    obtain ⟨a₁, row, others, rfl, hrow, hothers⟩ := h.of_append
    obtain ⟨idss, hread, rfl, hlengths⟩ := ih (b := { b with arena := a₁ }) hothers hrest hρ rfl
    refine ⟨row :: idss, ?_, rfl, ?_⟩
    · rw [exprRows_cons]
      exact bind_eq_ok.2 ⟨_, exprs_of_operands hrow hitems hρ ha, bind_eq_ok.2 ⟨_, hread, rfl⟩⟩
    · rw [List.map_cons, List.map_cons, hlengths, hrow.length_eq]

theorem exists_of_head (head : Head) {f : Form} {xs : List Sexp}
    (h : f.bare = .list (.sym head.keyword :: xs)) :
    ∃ p args pos, f = .list (.sym head.keyword p :: args) pos ∧ args.map bare = xs :=
  bare_eq_clause.1 h

theorem onArena_place {a : Arena} {op : Op} {ids : List Nat} {r : Except ShapeFault Shape}
    {s : Shape} (hr : r = .ok s) :
    Builder.onArena { b with arena := a } (·.place op ids r)
      = .ok ({ b with arena := (a.push op s ids).1 }, a.size) := by
  subst hr
  rfl

/-! ### One lemma for each operator -/

theorem readAs_number {a : Arena} {n : Nat} (hn : n < cx.modulus) :
    ReadAs cx ρ a (.int n) (a.push (.literal (.scalar n)) .scalar []).1 a.size := by
  rintro f b hf - rfl
  obtain ⟨pos, rfl⟩ := bare_eq_int.1 hf
  rw [expr_int]
  exact bind_eq_ok.2 ⟨n, element_eq_ok.2 ⟨rfl, hn⟩, onArena_place rfl⟩

theorem readAs_literal {a : Arena} {value : Literal} (hproper : value.isProper = true)
    (hbelow : Literal.Below cx.modulus value) :
    ReadAs cx ρ a (.list (Literal.sexps value)) (a.push (.literal value) value.shape []).1
      a.size := by
  rintro f b hf - rfl
  obtain ⟨items, pos, rfl, hitems⟩ := bare_eq_list.1 hf
  have hvalue : literal cx.modulus pos items = .ok value :=
    literal_eq_ok.2 ⟨hitems, hproper, hbelow⟩
  obtain ⟨name, p, args, head, rfl, hhead, hliteral⟩ := isLiteral_of_sexps hproper hitems
  simp only [expr, hhead, hliteral, if_true]
  exact bind_eq_ok.2 ⟨value, hvalue, located_eq_ok.2 (onArena_place (if_pos hproper))⟩

theorem readAs_load {a : Arena} {source : Source} {i : Nat} (hi : i < indexBound) {s : Shape}
    (h : cx.env.shapeOf ρ (.load source i) [] = some s) :
    ReadAs cx ρ a (.list [.sym source.keyword, .int i]) (a.push (.load source i) s []).1
      a.size := by
  rintro f b hf rfl rfl
  obtain ⟨p, args, pos, rfl, hargs⟩ := exists_of_head (.load source) hf
  obtain ⟨g, rfl, hg⟩ := forall₂_one (map_bare_eq.1 hargs)
  simp only [expr, Head.ofSymbol?_keyword, isLiteral, Bool.false_eq_true, if_false]
  refine bind_eq_ok.2 ⟨i, index_eq_ok.2 ⟨hg, hi⟩, located_eq_ok.2 ?_⟩
  exact bind_eq_ok.2 ⟨s, loadShape_eq_ok.2 h, rfl⟩

theorem readAs_binary {op : BinaryOp} {l r : Sexp} {a a₁ a₂ : Arena} {i j : Nat} {s : Shape}
    (hl : ReadAs cx ρ a l a₁ i) (hr : ReadAs cx ρ a₁ r a₂ j)
    (hrule : Rule.binary op (a₂.shape i) (a₂.shape j) (a₂.isExponent j) = .ok s) :
    ReadAs cx ρ a (.list [.sym op.keyword, l, r]) (a₂.push (.binary op) s [i, j]).1 a₂.size := by
  intro f b hf hρ ha
  obtain ⟨p, args, pos, rfl, hargs⟩ := exists_of_head (.binary op) hf
  obtain ⟨g, g', rfl, hg, hg'⟩ := forall₂_two (map_bare_eq.1 hargs)
  simp only [expr, Head.ofSymbol?_keyword, isLiteral, Bool.false_eq_true, if_false]
  refine bind_eq_ok.2 ⟨_, hl g b hg hρ ha, ?_⟩
  refine bind_eq_ok.2 ⟨_, hr g' { b with arena := a₁ } hg' hρ rfl, ?_⟩
  exact located_eq_ok.2 (onArena_place hrule)

theorem readAs_unary {op : UnaryOp} {x : Sexp} {a a₁ : Arena} {i : Nat}
    (hx : ReadAs cx ρ a x a₁ i) :
    ReadAs cx ρ a (.list [.sym op.keyword, x]) (a₁.push (.unary op) (a₁.shape i) [i]).1
      a₁.size := by
  intro f b hf hρ ha
  obtain ⟨p, args, pos, rfl, hargs⟩ := exists_of_head (.unary op) hf
  obtain ⟨g, rfl, hg⟩ := forall₂_one (map_bare_eq.1 hargs)
  simp only [expr, Head.ofSymbol?_keyword, isLiteral, Bool.false_eq_true, if_false]
  exact bind_eq_ok.2 ⟨_, hx g b hg hρ ha, rfl⟩

theorem readAs_vector {xs : List Sexp} {a a₁ : Arena} {ids : List Nat} {s : Shape}
    (h : Operands (ReadAs cx ρ) a xs a₁ ids) (hint : ∃ x ∈ xs, x.isInt = false)
    (hrule : Rule.concat cx.overflow (ids.map a₁.shape) = .ok s) :
    ReadAs cx ρ a (.list (.sym "vector" :: xs)) (a₁.push .vector s ids).1 a₁.size := by
  intro f b hf hρ ha
  obtain ⟨p, args, pos, rfl, rfl⟩ := exists_of_head .vector hf
  have hne : args ≠ [] := by
    rintro rfl
    obtain ⟨x, hx, -⟩ := hint
    cases hx
  simp only [expr, Head.ofSymbol?_keyword, (isLiteral_vector_eq_false hne).2 hint,
    Bool.false_eq_true, if_false]
  refine bind_eq_ok.2 ⟨_, exprs_of_operands h rfl hρ ha, located_eq_ok.2 ?_⟩
  exact Builder.onArena_eq_ok.2 ⟨_, Arena.vector_eq_ok.2 ⟨s, hrule, rfl⟩, rfl⟩

theorem readAs_matrix {widths : List Nat} {xs : List Sexp} {args : List Expr} {a a₁ : Arena}
    {ids : List Nat} {s : Shape} (h : Operands (ReadAs cx ρ) a xs a₁ ids)
    (hint : ∃ x ∈ xs, x.isInt = false)
    (hrule : cx.env.rule (.matrix widths) args (ids.map a₁.shape) = some s) :
    ReadAs cx ρ a (.list (.sym "matrix" :: (Tensor.chunks widths xs).map .list))
      (a₁.push (.matrix widths) s ids).1 a₁.size := by
  intro f b hf hρ ha
  obtain ⟨p, rows, pos, rfl, hrows⟩ := exists_of_head .matrix hf
  have hxs : xs.length = widths.sum := by
    rw [h.length_eq, ← List.length_map, (Env.rule_matrix.1 hrule).1]
  rw [← Tensor.flatten_chunks hxs] at h hint
  have hne : rows ≠ [] := by
    rintro rfl
    rw [List.map_eq_nil_iff.1 hrows.symm] at hint
    obtain ⟨x, hx, -⟩ := hint
    cases hx
  obtain ⟨idss, hread, rfl, hlengths⟩ := exprRows_of_operands h hrows hρ ha
  rw [Tensor.map_length_chunks (Nat.le_of_eq hxs.symm)] at hlengths
  subst hlengths
  simp only [expr, Head.ofSymbol?_keyword, (isLiteral_matrix_eq_false hne hrows).2 hint,
    Bool.false_eq_true, if_false]
  exact bind_eq_ok.2 ⟨_, hread, located_eq_ok.2 (onArena_place (rule_rows.1 hrule))⟩

theorem readAs_get {i : Nat} (hi : i < indexBound) {x : Sexp} {a a₁ : Arena} {j : Nat}
    (hx : ReadAs cx ρ a x a₁ j) {s : Shape} (hrule : Rule.element (a₁.shape j) i = .ok s) :
    ReadAs cx ρ a (.list [.sym "get", x, .int i]) (a₁.push (.get i) s [j]).1 a₁.size := by
  intro f b hf hρ ha
  obtain ⟨p, args, pos, rfl, hargs⟩ := exists_of_head .get hf
  obtain ⟨source, g, rfl, hsource, hg⟩ := forall₂_two (map_bare_eq.1 hargs)
  simp only [expr, Head.ofSymbol?_keyword, isLiteral, Bool.false_eq_true, if_false]
  refine bind_eq_ok.2 ⟨_, hx source b hsource hρ ha, bind_eq_ok.2 ⟨i, index_eq_ok.2 ⟨hg, hi⟩, ?_⟩⟩
  exact located_eq_ok.2 (onArena_place hrule)

/-- A slice, or a segment in its place. -/
theorem readAs_slice {first last : Nat} (hfirst : first < indexBound) (hlast : last < indexBound)
    {x : Sexp} {a a₁ a₂ : Arena} {j id : Nat} (hx : ReadAs cx ρ a x a₁ j)
    (hslice : a₁.slice j first last = .ok (a₂, id)) :
    ReadAs cx ρ a (.list [.sym "slice", x, .int first, .int last]) a₂ id := by
  intro f b hf hρ ha
  obtain ⟨p, args, pos, rfl, hargs⟩ := exists_of_head .slice hf
  obtain ⟨source, rest, rfl, hsource, hrest⟩ := List.map_eq_cons_iff.1 hargs
  obtain ⟨g, g', rfl, hg, hg'⟩ := forall₂_two (map_bare_eq.1 hrest)
  simp only [expr, Head.ofSymbol?_keyword, isLiteral, Bool.false_eq_true, if_false]
  refine bind_eq_ok.2 ⟨_, hx source b hsource hρ ha, ?_⟩
  refine bind_eq_ok.2 ⟨first, index_eq_ok.2 ⟨hg, hfirst⟩, ?_⟩
  refine bind_eq_ok.2 ⟨last, index_eq_ok.2 ⟨hg', hlast⟩, located_eq_ok.2 ?_⟩
  exact Builder.onArena_eq_ok.2 ⟨a₂, hslice, rfl⟩

/-- The segment of a trace row is written as a slice of it; the row itself is loaded first. -/
theorem readAs_segment {a : Arena} {row first last : Nat} (hrow : row < indexBound)
    (hfirst : first < indexBound) (hlast : last < indexBound) {t s : Shape}
    (ht : cx.env.load .trace row = some t) (hs : Rule.slice t first last = .ok s) :
    ReadAs cx ρ a (.list ((Op.segment row first last).sexps []))
      ((cx.env.withRow a (.segment row first last)).push (.segment row first last) s []).1
      (cx.env.withRow a (.segment row first last)).size := by
  rw [Env.withRow_segment ht]
  rw [← Env.shapeOf_load (ρ := ρ) (by decide)] at ht
  refine readAs_slice hfirst hlast (readAs_load hrow ht) ?_
  rw [Arena.slice, Arena.shape, Arena.get_push_self]
  dsimp only
  rw [hs]
  rfl

theorem readAs_call {k : Nat} (hk : k < indexBound) {xs : List Sexp} {a a₁ : Arena}
    {ids : List Nat} {s : Shape} (h : Operands (ReadAs cx ρ) a xs a₁ ids) {callee : Function}
    (hcallee : cx.functions[k]? = some callee)
    (hrule : Rule.call k callee.signature (ids.map a₁.shape) = .ok s) :
    ReadAs cx ρ a (.list (.sym "call" :: .int k :: xs)) (a₁.push (.call k) s ids).1 a₁.size := by
  intro f b hf hρ ha
  obtain ⟨p, args, pos, rfl, hargs⟩ := exists_of_head .call hf
  obtain ⟨g, args, rfl, hg, hrest⟩ := List.map_eq_cons_iff.1 hargs
  simp only [expr, Head.ofSymbol?_keyword, isLiteral, Bool.false_eq_true, if_false]
  refine bind_eq_ok.2 ⟨k, index_eq_ok.2 ⟨hg, hk⟩, ?_⟩
  rw [hcallee]
  exact bind_eq_ok.2 ⟨_, exprs_of_operands h hrest hρ ha, located_eq_ok.2 (onArena_place hrule)⟩

/-! ## All forms -/

/-- **What is appended is accepted.** -/
theorem Appends.readAs {a a' : Arena} {x : Sexp} {id : Nat} (h : Appends cx ρ a x a' id) :
    ReadAs cx ρ a x a' id := by
  refine h.induction (P := ReadAs cx ρ) readAs_number ?_
  intro a a' s xs ids op hargs hop hshape
  -- that the operands were appended gives the shape of the node, that they are read its acceptance
  have hall : Operands (Appends cx ρ) (cx.env.withRow a op) xs a' ids :=
    hargs.imp fun _ _ _ _ h => h.1
  have hread : Operands (ReadAs cx ρ) (cx.env.withRow a op) xs a' ids :=
    hargs.imp fun _ _ _ _ h => h.2
  have htakes := Env.takes_of_shapeOf hshape
  rw [List.length_map] at htakes
  cases op with
  | literal value =>
    obtain rfl := List.length_eq_zero_iff.1 htakes
    rw [hall.shapeOf rfl] at hshape
    cases hread
    obtain ⟨-, hproper, rfl⟩ := Env.rule_literal.1 hshape
    exact readAs_literal hproper hop
  | load source i =>
    obtain rfl := List.length_eq_zero_iff.1 htakes
    cases hread
    exact readAs_load hop hshape
  | segment row first last =>
    obtain rfl := List.length_eq_zero_iff.1 htakes
    rw [hall.shapeOf rfl] at hshape
    cases hread
    obtain ⟨-, t, ht, hslice⟩ := Env.rule_segment.1 hshape
    exact readAs_segment hop.1 hop.2.1 hop.2.2 ht hslice
  | binary op =>
    obtain ⟨i, j, rfl⟩ := List.length_eq_two.1 htakes
    rcases hargs with _ | ⟨⟨-, hl⟩, _ | ⟨⟨hright, hr⟩, _ | _⟩⟩
    exact readAs_binary hl hr ((hright.shapeOf_binary (hall.stores.lt i (by simp))).1 hshape)
  | unary op =>
    obtain ⟨i, rfl⟩ := List.length_eq_one_iff.1 htakes
    rw [hall.shapeOf rfl] at hshape
    rcases hread with _ | ⟨hx, _ | _⟩
    rw [← Option.some.inj hshape]
    exact readAs_unary hx
  | vector =>
    rw [hall.shapeOf rfl] at hshape
    exact readAs_vector hread hop (toOption_eq_some.1 hshape)
  | matrix widths =>
    rw [hall.shapeOf rfl] at hshape
    exact readAs_matrix hread hop hshape
  | get i =>
    obtain ⟨j, rfl⟩ := List.length_eq_one_iff.1 htakes
    rw [hall.shapeOf rfl] at hshape
    rcases hread with _ | ⟨hx, _ | _⟩
    exact readAs_get hop hx (toOption_eq_some.1 hshape)
  | slice first last =>
    obtain ⟨j, rfl⟩ := List.length_eq_one_iff.1 htakes
    rw [hall.shapeOf rfl] at hshape
    rcases hread with _ | ⟨hx, _ | _⟩
    -- a slice of a trace row would be read as a segment
    have hrow : ∀ row, (a'.get j).op ≠ .load .trace row := by
      intro row hrow
      have hop' := (a'.expr_op_shape (hall.stores.lt j (by simp))).1
      exact hop.2.2 _ (List.mem_singleton.2 rfl) row (hop'.trans hrow)
    exact readAs_slice hop.1 hop.2.1 hx (Arena.slice_eq hrow (toOption_eq_some.1 hshape))
  | call k =>
    rw [hall.shapeOf rfl] at hshape
    obtain ⟨signature, hsignature, hrule⟩ := Option.bind_eq_some_iff.1 hshape
    rw [Context.env, List.getElem?_map] at hsignature
    obtain ⟨callee, hcallee, rfl⟩ := Option.map_eq_some_iff.1 hsignature
    exact readAs_call hop hread hcallee (toOption_eq_some.1 hrule)

/-- **An expression is accepted exactly if its nodes can be appended**, and then these nodes are all
that is added to the body. -/
theorem expr_eq_ok {f : Form} {id : Nat} :
    expr cx b f = .ok (b', id) ↔
      ∃ a, Appends cx b.shapes b.arena f.bare a id ∧ b' = { b with arena := a } := by
  refine ⟨appending cx f b b' id, ?_⟩
  rintro ⟨a, ha, rfl⟩
  exact ha.readAs f b rfl rfl rfl

/-- A form that is accepted as a given tree, after any others, without a change to the rest of the
body. -/
def Accepts (cx : Context) (ρ : List (Option Shape)) (x : Sexp) (e : Expr) : Prop :=
  ∀ (f : Form) (b : Builder), f.bare = x → b.shapes = ρ →
    ∃ a id, expr cx b f = .ok ({ b with arena := a }, id) ∧ b.arena.Stores a [e] [id]

/-- **What denotes a tree is accepted as that tree.** -/
theorem Denotes.accepted {x : Sexp} {e : Expr} (h : Denotes cx ρ x e) : Accepts cx ρ x e := by
  rintro f b rfl rfl
  obtain ⟨a, id, ha, hstores⟩ := h.appends b.arena
  exact ⟨a, id, expr_eq_ok.2 ⟨a, ha, rfl⟩, hstores⟩

end Grammar

end Arithmetization
