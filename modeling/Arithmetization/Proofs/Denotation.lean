import Arithmetization.Proofs.Typing
import Arithmetization.Proofs.WrittenForms

/-!
Which forms denote which expressions.

`Grammar.Denotes cx ρ x e` says that the form `x` stands for the tree `e` where the locals that may
be read have the shapes `ρ`. It has two rules: a bare number is a scalar literal, and a list is the
written form of an operator (`Op.sexps`) over forms that stand for its operands, provided that the
numbers in it can be written, that the spelling is not taken by another operator, and that the
operator has a shape over these operands.

`Grammar.Appends cx ρ a x a' id` says the same of nodes: with `a` there before, reading `x` leaves
the arena `a'`, in which `x` is the node `id`. Its rules are those of `Denotes`, with the operands
read one after the other. The last node appended is the tree that the form denotes
(`Grammar.Appends.denotes`), and what denotes a tree can be appended to any arena
(`Grammar.Denotes.appends`). What is said of trees is said by `Denotes`, and what is said of all
nodes, used or not, by `Appends`.
-/

set_option autoImplicit false

namespace Arithmetization

/-! ## Denotation -/

/-- The shape of an operator over given operands, where the locals that may be read have the shapes
`ρ`. -/
def Env.shapeOf (Γ : Env) (ρ : List (Option Shape)) : Op → List Expr → Option Shape
  | .load .local i, [] => ρ.getD i none
  | op, args => Γ.rule op args (args.map Expr.shape)

theorem Env.shapeOf_of_local? {Γ : Env} {ρ : List (Option Shape)} {op : Op} (h : op.local? = none)
    (args : List Expr) : Γ.shapeOf ρ op args = Γ.rule op args (args.map Expr.shape) := by
  unfold shapeOf
  split
  · cases h
  · rfl

theorem Env.takes_of_shapeOf {Γ : Env} {ρ : List (Option Shape)} {op : Op} {args : List Expr}
    {s : Shape} (h : Γ.shapeOf ρ op args = some s) : op.Takes args.length := by
  unfold shapeOf at h
  split at h
  · rfl
  · have htakes := takes_of_rule h
    rwa [List.length_map] at htakes

/-- A load that is not from a local has the shape that the environment gives it. -/
theorem Env.shapeOf_load {Γ : Env} {ρ : List (Option Shape)} {source : Source}
    (h : source ≠ .local) (i : Nat) : Γ.shapeOf ρ (.load source i) [] = Γ.load source i := by
  cases source with
  | «local» => exact absurd rfl h
  | _ => rfl

/-- The numbers in the written form of an operator can be written, and the form is not that of
another operator: vectors and matrices of numbers only are literals, and a slice of a trace row is a
segment. -/
def Op.Admits (modulus : Nat) (xs : List Sexp) (args : List Expr) : Op → Prop
  | .literal value => Literal.Below modulus value
  | .load _ i => i < Grammar.indexBound
  | .segment row first last =>
    row < Grammar.indexBound ∧ first < Grammar.indexBound ∧ last < Grammar.indexBound
  | .binary _ => True
  | .unary _ => True
  | .vector => ∃ x ∈ xs, x.isInt = false
  | .matrix _ => ∃ x ∈ xs, x.isInt = false
  | .get i => i < Grammar.indexBound
  | .slice first last =>
    first < Grammar.indexBound ∧ last < Grammar.indexBound
      ∧ ∀ a ∈ args, ∀ row, a.op ≠ .load .trace row
  | .call f => f < Grammar.indexBound

namespace Grammar

/-- What the expressions of a context can refer to. -/
def Context.env (cx : Context) : Env :=
  ⟨cx.constants, cx.functions.map Function.signature, cx.scope, cx.overflow⟩

/-- The form `x` stands for the tree `e`. -/
inductive Denotes (cx : Context) (ρ : List (Option Shape)) : Sexp → Expr → Prop
  | number {n : Nat} (hn : n < cx.modulus) :
      Denotes cx ρ (.int n) (.node (.literal (.scalar n)) .scalar [])
  | node {op : Op} {s : Shape} {xs : List Sexp} {args : List Expr}
      (hargs : List.Forall₂ (Denotes cx ρ) xs args) (hop : op.Admits cx.modulus xs args)
      (hshape : cx.env.shapeOf ρ op args = some s) :
      Denotes cx ρ (.list (op.sexps xs)) (.node op s args)

namespace Denotes

variable {cx : Context} {ρ : List (Option Shape)}

theorem induction {P : Sexp → Expr → Prop}
    (number : ∀ {n}, n < cx.modulus → P (.int n) (.node (.literal (.scalar n)) .scalar []))
    (node : ∀ {op s xs args}, List.Forall₂ (fun x a => Denotes cx ρ x a ∧ P x a) xs args →
      op.Admits cx.modulus xs args → cx.env.shapeOf ρ op args = some s →
      P (.list (op.sexps xs)) (.node op s args))
    {x : Sexp} {e : Expr} (h : Denotes cx ρ x e) : P x e := by
  refine @Denotes.rec cx ρ (fun x e _ => P x e)
    (fun xs args _ => List.Forall₂ (fun x a => Denotes cx ρ x a ∧ P x a) xs args)
    number ?_ .nil ?_ x e h
  · exact fun _ hop hshape hargs => node hargs hop hshape
  · exact fun hx _ hPx hrest => .cons ⟨hx, hPx⟩ hrest

/-- A load has one written form, and the shape of what it names. -/
theorem of_load {x : Sexp} {e : Expr} (h : Denotes cx ρ x e) {source : Source} {i : Nat}
    (hop : e.op = .load source i) :
    x = .list [.sym source.keyword, .int i] ∧ i < indexBound
      ∧ cx.env.shapeOf ρ (.load source i) [] = some e.shape := by
  cases h with
  | number _ => cases hop
  | node _ hadmits hshape =>
    obtain rfl : _ = Op.load source i := hop
    obtain rfl := List.length_eq_zero_iff.1 (Env.takes_of_shapeOf hshape)
    exact ⟨rfl, hadmits, hshape⟩

/-- A scalar that may stand above a power is a number. -/
theorem isNumber {x : Sexp} {e : Expr} (h : Denotes cx ρ x e) (hscalar : e.shape = .scalar) :
    cx.env.isNumber e.exponent? = e.exponent?.isSome := by
  obtain ⟨op, shape, args⟩ := e
  unfold Expr.exponent?
  split
  · rfl
  · next i _ _ hop =>
    cases hop
    obtain ⟨-, -, hshape⟩ := h.of_load rfl
    rw [Env.shapeOf_load (by decide), hscalar] at hshape
    simp [Env.isNumber, hshape]
  · rfl

/-- The rule of a binary operator asks of an exponent only whether it is known. -/
theorem rule_binary {op : BinaryOp} {x : Sexp} {er : Expr} (h : Denotes cx ρ x er) (el : Expr)
    {s : Shape} :
    cx.env.rule (.binary op) [el, er] [el.shape, er.shape] = some s ↔
      Rule.binary op el.shape er.shape er.exponent?.isSome = .ok s := by
  have hrule : cx.env.rule (.binary op) [el, er] [el.shape, er.shape] = some s ↔
      Rule.binary op el.shape er.shape (cx.env.isNumber er.exponent?) = .ok s := toOption_eq_some
  rw [hrule]
  -- only a power looks at its exponent, and only at one that is a scalar
  cases op with
  | exp =>
    simp only [Rule.binary, Rule.power_eq_ok]
    refine and_congr_right fun hscalar => ?_
    rw [h.isNumber hscalar]
  | _ => exact Iff.rfl

end Denotes

end Grammar

/-! ## Operands in an arena -/

theorem Arena.isExponent_eq {a : Arena} {id : Nat} (h : id < a.size) :
    a.isExponent id = (a.expr id).exponent?.isSome := by
  have hop := (a.expr_op_shape h).1
  rcases hexpr : a.expr id with ⟨op, shape, args⟩
  rw [hexpr] at hop
  rw [Arena.isExponent, ← hop]
  rcases op with (_ | _ | _) | ⟨⟨⟩, _⟩ | _ | _ | _ | _ | _ | _ | _ | _ <;> rfl

namespace Grammar

/-- Forms that are read one after the other, each in the arena that the one before it has left. -/
inductive Operands (R : Arena → Sexp → Arena → Nat → Prop) :
    Arena → List Sexp → Arena → List Nat → Prop
  | nil (a : Arena) : Operands R a [] a []
  | cons {a a₁ a' : Arena} {x : Sexp} {xs : List Sexp} {id : Nat} {ids : List Nat}
      (h : R a x a₁ id) (hs : Operands R a₁ xs a' ids) : Operands R a (x :: xs) a' (id :: ids)

namespace Operands

variable {R : Arena → Sexp → Arena → Nat → Prop} {a a' a'' : Arena} {xs ys : List Sexp}
  {ids ids' : List Nat}

theorem imp {R' : Arena → Sexp → Arena → Nat → Prop}
    (hR : ∀ a x a' id, R a x a' id → R' a x a' id) (h : Operands R a xs a' ids) :
    Operands R' a xs a' ids := by
  induction h with
  | nil a => exact .nil a
  | cons h _ ih => exact .cons (hR _ _ _ _ h) ih

theorem append (h : Operands R a xs a' ids) (h' : Operands R a' ys a'' ids') :
    Operands R a (xs ++ ys) a'' (ids ++ ids') := by
  induction h with
  | nil _ => exact h'
  | cons h _ ih => exact .cons h (ih h')

theorem of_append (h : Operands R a (xs ++ ys) a' ids) :
    ∃ a₁ ids₁ ids₂, ids = ids₁ ++ ids₂ ∧ Operands R a xs a₁ ids₁ ∧ Operands R a₁ ys a' ids₂ := by
  induction xs generalizing a ids with
  | nil => exact ⟨a, [], ids, rfl, .nil a, h⟩
  | cons x xs ih =>
    cases h with
    | cons hx hrest =>
      obtain ⟨a₁, ids₁, ids₂, rfl, hxs, hys⟩ := ih hrest
      exact ⟨a₁, _, ids₂, rfl, .cons hx hxs, hys⟩

/-- What reading each form keeps, reading all of them keeps. -/
theorem invariant {P : Arena → Prop} (h : Operands R a xs a' ids)
    (hstep : ∀ a x a' id, R a x a' id → P a → P a') (ha : P a) : P a' := by
  induction h with
  | nil _ => exact ha
  | cons h _ ih => exact ih (hstep _ _ _ _ h ha)

theorem length_eq (h : Operands R a xs a' ids) : xs.length = ids.length := by
  induction h with
  | nil _ => rfl
  | cons _ _ ih => rw [List.length_cons, List.length_cons, ih]

end Operands

end Grammar

/-! ## Nodes -/

/-- The arena in which the operands of an operator are read. A segment is written as a slice of its
trace row, and the row is loaded first although the segment does not use it. -/
def Env.withRow (Γ : Env) (a : Arena) : Op → Arena
  | .segment row _ _ =>
    match Γ.load .trace row with
    | some s => (a.push (.load .trace row) s []).1
    | none => a
  | _ => a

theorem Env.withRow_segment {Γ : Env} {row : Nat} {s : Shape} (h : Γ.load .trace row = some s)
    (a : Arena) (first last : Nat) :
    Γ.withRow a (.segment row first last) = (a.push (.load .trace row) s []).1 := by
  simp only [withRow, h]

theorem Env.grows_withRow (Γ : Env) (a : Arena) (op : Op) : a.Grows (Γ.withRow a op) := by
  unfold withRow
  split
  · split
    · exact a.grows_push _ _ _
    · exact .refl a
  · exact .refl a

namespace Grammar

/-- Reading the form `x` with the nodes of `a` there appends nodes up to `a'`, and `x` stands for
the node `id` of these. -/
inductive Appends (cx : Context) (ρ : List (Option Shape)) : Arena → Sexp → Arena → Nat → Prop
  | number {a : Arena} {n : Nat} (hn : n < cx.modulus) :
      Appends cx ρ a (.int n) (a.push (.literal (.scalar n)) .scalar []).1 a.size
  | node {a a' : Arena} {s : Shape} {xs : List Sexp} {ids : List Nat} (op : Op)
      (hargs : Operands (Appends cx ρ) (cx.env.withRow a op) xs a' ids)
      (hop : op.Admits cx.modulus xs (ids.map a'.expr))
      (hshape : cx.env.shapeOf ρ op (ids.map a'.expr) = some s) :
      Appends cx ρ a (.list (op.sexps xs)) (a'.push op s ids).1 a'.size

variable {cx : Context} {ρ : List (Option Shape)}

theorem Appends.induction {P : Arena → Sexp → Arena → Nat → Prop}
    (number : ∀ {a n}, n < cx.modulus →
      P a (.int n) (a.push (.literal (.scalar n)) .scalar []).1 a.size)
    (node : ∀ {a a' s xs ids op},
      Operands (fun a x a' id => Appends cx ρ a x a' id ∧ P a x a' id) (cx.env.withRow a op) xs a'
        ids →
      op.Admits cx.modulus xs (ids.map a'.expr) →
      cx.env.shapeOf ρ op (ids.map a'.expr) = some s →
      P a (.list (op.sexps xs)) (a'.push op s ids).1 a'.size)
    {a a' : Arena} {x : Sexp} {id : Nat} (h : Appends cx ρ a x a' id) : P a x a' id := by
  refine @Appends.rec cx ρ (fun a x a' id _ => P a x a' id)
    (fun a xs a' ids _ =>
      Operands (fun a x a' id => Appends cx ρ a x a' id ∧ P a x a' id) a xs a' ids)
    number ?_ .nil ?_ a x a' id h
  · exact fun _ _ hop hshape hargs => node hargs hop hshape
  · exact fun hx _ hPx hrest => .cons ⟨hx, hPx⟩ hrest

/-- Operands that are stored and denoted one by one are so together: what is appended later does not
change their trees. -/
theorem Operands.denotes {a a' : Arena} {xs : List Sexp} {ids : List Nat}
    (h : Operands (fun a x a' id => a.Stores a' [a'.expr id] [id] ∧ Denotes cx ρ x (a'.expr id))
      a xs a' ids) :
    a.Stores a' (ids.map a'.expr) ids
      ∧ List.Forall₂ (Denotes cx ρ) xs (ids.map a'.expr) := by
  induction h with
  | nil a => exact ⟨.nil a, .nil⟩
  | @cons a a₁ a' x xs id ids h _ ih =>
    obtain ⟨hstores, hdenotes⟩ := h
    have hall := hstores.cons ih.1
    refine ⟨⟨hall.grows, hall.lt, rfl⟩, .cons ?_ ih.2⟩
    rw [ih.1.grows.expr_eq id (hstores.lt id (List.mem_singleton.2 rfl))]
    exact hdenotes

theorem Appends.stores_denotes {a a' : Arena} {x : Sexp} {id : Nat} (h : Appends cx ρ a x a' id) :
    a.Stores a' [a'.expr id] [id] ∧ Denotes cx ρ x (a'.expr id) := by
  refine h.induction (P := fun a x a' id => a.Stores a' [a'.expr id] [id]
    ∧ Denotes cx ρ x (a'.expr id)) ?_ ?_
  · intro a n hn
    refine ⟨⟨a.grows_push _ _ _, by simp, rfl⟩, ?_⟩
    rw [Arena.expr_push_self]
    exact .number hn
  · intro a a' s xs ids op hargs hop hshape
    obtain ⟨hstores, hdenotes⟩ := (hargs.imp fun _ _ _ _ h => h.2).denotes
    have hnode := (hstores.push op s).of_grows (cx.env.grows_withRow a op)
    refine ⟨⟨hnode.grows, hnode.lt, rfl⟩, ?_⟩
    rw [Arena.expr_push_self]
    exact .node hdenotes hop hshape

/-- **The node that is appended for a form is the last one of its tree**, and nothing that was there
before changes. -/
theorem Appends.stores {a a' : Arena} {x : Sexp} {id : Nat} (h : Appends cx ρ a x a' id) :
    a.Stores a' [a'.expr id] [id] :=
  h.stores_denotes.1

/-- **A form denotes the tree of the node that is appended for it.** -/
theorem Appends.denotes {a a' : Arena} {x : Sexp} {id : Nat} (h : Appends cx ρ a x a' id) :
    Denotes cx ρ x (a'.expr id) :=
  h.stores_denotes.2

theorem Appends.lt {a a' : Arena} {x : Sexp} {id : Nat} (h : Appends cx ρ a x a' id) :
    id < a'.size :=
  h.stores.lt id (List.mem_singleton.2 rfl)

theorem Operands.stores {a a' : Arena} {xs : List Sexp} {ids : List Nat}
    (h : Operands (Appends cx ρ) a xs a' ids) : a.Stores a' (ids.map a'.expr) ids :=
  (h.imp fun _ _ _ _ h => h.stores_denotes).denotes.1

/-- The shape of a node over operands that were appended. -/
theorem Operands.shapeOf {a a' : Arena} {xs : List Sexp} {ids : List Nat}
    (h : Operands (Appends cx ρ) a xs a' ids) {op : Op} (hop : op.local? = none) :
    cx.env.shapeOf ρ op (ids.map a'.expr)
      = cx.env.rule op (ids.map a'.expr) (ids.map a'.shape) := by
  rw [Env.shapeOf_of_local? hop, Arena.map_shape_expr h.stores.lt]

/-- A load is one node. -/
theorem Appends.of_load {a a' : Arena} {x : Sexp} {id : Nat} (h : Appends cx ρ a x a' id)
    {source : Source} {i : Nat} (hop : (a'.get id).op = .load source i) :
    x = .list [.sym source.keyword, .int i] ∧ i < indexBound
      ∧ ∃ s, cx.env.shapeOf ρ (.load source i) [] = some s
        ∧ a' = (a.push (.load source i) s []).1 ∧ id = a.size := by
  cases h with
  | number _ =>
    rw [Arena.get_push_self] at hop
    cases hop
  | node op hargs hadmits hshape =>
    rw [Arena.get_push_self] at hop
    obtain rfl : op = .load source i := hop
    have hnone := Env.takes_of_shapeOf hshape
    rw [List.length_map] at hnone
    obtain rfl := List.length_eq_zero_iff.1 hnone
    cases hargs
    exact ⟨rfl, hadmits, _, hshape, rfl, rfl⟩

/-- The shape of a binary operator over the last node that was appended and an earlier one. -/
theorem Appends.shapeOf_binary {a a' : Arena} {x : Sexp} {i j : Nat} (h : Appends cx ρ a x a' j)
    (hi : i < a'.size) {op : BinaryOp} {s : Shape} :
    cx.env.shapeOf ρ (.binary op) [a'.expr i, a'.expr j] = some s ↔
      Rule.binary op (a'.shape i) (a'.shape j) (a'.isExponent j) = .ok s := by
  rw [← (a'.expr_op_shape hi).2, ← (a'.expr_op_shape h.lt).2, Arena.isExponent_eq h.lt]
  exact h.denotes.rule_binary (a'.expr i)

/-- **What denotes a tree can be appended to any arena**, and then it is that tree. -/
theorem Denotes.appends {x : Sexp} {e : Expr} (h : Denotes cx ρ x e) (a : Arena) :
    ∃ a' id, Appends cx ρ a x a' id ∧ a.Stores a' [e] [id] := by
  refine h.induction (P := fun x e => ∀ a, ∃ a' id, Appends cx ρ a x a' id
    ∧ a.Stores a' [e] [id]) ?_ ?_ a
  · exact fun hn a => ⟨_, _, .number hn, (Arena.Stores.nil a).push _ _⟩
  · intro op s xs args hargs hop hshape a
    have hall : ∀ a, ∃ a' ids, Operands (Appends cx ρ) a xs a' ids ∧ a.Stores a' args ids := by
      clear hop hshape
      induction hargs with
      | nil => exact fun a => ⟨a, [], .nil a, .nil a⟩
      | cons hx _ ih =>
        intro a
        obtain ⟨a₁, id, hid, hfirst⟩ := hx.2 a
        obtain ⟨a', ids, hids, hrest⟩ := ih a₁
        exact ⟨a', id :: ids, .cons hid hids, hfirst.cons hrest⟩
    obtain ⟨a', ids, hids, hstores⟩ := hall (cx.env.withRow a op)
    have hnode := (hstores.push op s).of_grows (cx.env.grows_withRow a op)
    refine ⟨_, _, .node op hids ?_ ?_, hnode⟩
    · rwa [hstores.trees]
    · rwa [hstores.trees]

end Grammar

end Arithmetization
