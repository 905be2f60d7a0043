import Arithmetization.Proofs.Statements

/-!
What the grammar accepts checks.

The grammar decides shapes node by node while it reads, and the checker goes over finished trees.
Both apply the same rules to the same operands, so a tree that a form denotes checks with the shape
that is written at its root. For statements the invariant is that checking the stores so far gives
the shapes of the locals that may be read. A body without faults then checks as a whole
(`Grammar.body_checks`), with the shape that is written at its result.
-/

set_option autoImplicit false

namespace Arithmetization

/-- An expression of shape `s` over locals of the given shapes. -/
structure Expr.Checks (Γ : Env) (ρ : List (Option Shape)) (e : Expr) (s : Shape) : Prop where
  sized : e.Sized
  checks : Γ.checker.expr ρ e = .ok s

namespace Expr.Checks

variable {Γ : Env} {ρ : List (Option Shape)}

theorem load_local {i : Nat} {s : Shape} (h : ρ.getD i none = some s) :
    (Expr.node (.load .local i) s []).Checks Γ ρ s where
  sized := Expr.sized_node.2 ⟨rfl, by simp⟩
  checks := by rw [Evaluator.expr_local, Evaluator.read_eq_ok.2 h]

/-- A node over operands that check, with the shape that the rules give. -/
theorem node {op : Op} (hop : op.local? = none) {s : Shape} {args : List Expr} {shapes : List Shape}
    (hargs : List.Forall₂ (fun a t => a.Checks Γ ρ t) args shapes)
    (hrule : Γ.rule op args shapes = some s) : (Expr.node op s args).Checks Γ ρ s where
  sized := by
    refine Expr.sized_node.2 ⟨hargs.length_eq ▸ Env.takes_of_rule hrule, fun a ha => ?_⟩
    obtain ⟨t, -, ht⟩ := exists_mem_right hargs ha
    exact ht.sized
  checks := by
    rw [Evaluator.expr_node ρ hop]
    refine Env.checker_node_eq_ok.2 ⟨rfl, shapes, mapM_eq_ok.2 ?_, hrule⟩
    exact List.forall₂_map_left_iff.2 (hargs.imp fun _ _ h => h.checks)

end Expr.Checks

namespace Grammar

variable {cx : Context}

/-- **What a form denotes checks**, with the shape that is written at its root. -/
theorem Denotes.checks {ρ : List (Option Shape)} {x : Sexp} {e : Expr} (h : Denotes cx ρ x e) :
    e.Checks cx.env ρ e.shape := by
  refine h.induction (P := fun _ e => e.Checks cx.env ρ e.shape) ?_ ?_
  · intro n _
    exact .node rfl .nil rfl
  · intro op s xs args hargs _ hshape
    cases hlocal : op.local? with
    | some i =>
      obtain rfl := Op.local?_eq_some.1 hlocal
      obtain rfl := List.length_eq_zero_iff.1 (Env.takes_of_shapeOf hshape)
      exact .load_local hshape
    | none =>
      rw [Env.shapeOf_of_local? hlocal] at hshape
      refine .node hlocal (List.forall₂_map_right_iff.2 (List.forall₂_same.2 fun a ha => ?_)) hshape
      obtain ⟨_, -, -, hchecks⟩ := exists_mem_right hargs.flip ha
      exact hchecks

/-- Checking the stores so far gives the shapes of the locals that may be read. -/
theorem Statements.checks {xs : List Sexp} {p : Progress} (h : Statements cx xs p) :
    (∀ t ∈ p.stores, t.value.Sized ∧ t.target < p.locals.length)
      ∧ cx.env.checker.stores (List.replicate p.locals.length none) p.stores = .ok p.shapes := by
  induction h with
  | nil => exact ⟨by simp, rfl⟩
  | @declare xs p s _ _ ih =>
    obtain ⟨hstores, hchecks⟩ := ih
    simp only [List.length_append, List.length_singleton]
    refine ⟨fun t ht => ?_, ?_⟩
    · exact ⟨(hstores t ht).1, Nat.lt_succ_of_lt (hstores t ht).2⟩
    · rw [List.replicate_succ']
      refine Evaluator.Simulates.stores_append_one cx.env.simulates none (fun t ht => ?_) hchecks
      rw [List.length_replicate]
      exact (hstores t ht).2
  | @store xs p x e target _ _ he hlocal ih =>
    obtain ⟨hstores, hchecks⟩ := ih
    refine ⟨fun t ht => ?_, ?_⟩
    · rcases List.mem_append.1 ht with ht | ht
      · exact hstores t ht
      · rw [List.mem_singleton.1 ht]
        exact ⟨he.checks.sized, (List.getElem?_eq_some_iff.1 hlocal).1⟩
    · rw [Evaluator.stores_append]
      exact bind_eq_ok.2 ⟨p.shapes, hchecks,
        Evaluator.stores_cons_eq_ok.2 ⟨e.shape, he.checks.checks, rfl⟩⟩

/-- **A block that forms denote checks.** -/
theorem DenotesBlock.checks {xs : List Sexp} {blk : Block} (h : DenotesBlock cx xs blk) :
    blk.Checks cx.env blk.result.shape := by
  cases h with
  | @result xs p x e hxs he =>
    obtain ⟨hstores, hchecks⟩ := hxs.checks
    refine ⟨⟨fun y hy => ?_, fun t ht => (hstores t ht).2⟩, ?_⟩
    · rcases List.mem_append.1 hy with hy | hy
      · obtain ⟨t, ht, rfl⟩ := List.mem_map.1 hy
        exact (hstores t ht).1
      · rw [List.mem_singleton.1 hy]
        exact he.checks.sized
    · exact bind_eq_ok.2 ⟨p.shapes, hchecks, he.checks.checks⟩

/-- The shape that is written at the result of a body is that of the result. -/
theorem shape_result {pos : Position} {items : List Form} {b : Body}
    (h : body cx pos items = .ok b) : b.block.result.shape = b.resultShape := by
  obtain ⟨_, _, _, a, _, -, -, ha, rfl⟩ := body_eq_ok.1 h
  exact (a.expr_op_shape ha.lt).2

/-- **A body that the grammar accepts checks**, with the shape that is written at its result. -/
theorem body_checks {pos : Position} {items : List Form} {b : Body}
    (h : body cx pos items = .ok b) : b.block.Checks cx.env b.resultShape := by
  rw [← shape_result h]
  exact (body_denotes h).checks

end Grammar

end Arithmetization
