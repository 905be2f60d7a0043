import Arithmetization.Proofs.NormalForm

/-!
Nodes stand on earlier nodes, and functions on earlier functions.

Operands are followed by number and calls by index, and nothing in a number says that following it
comes to an end. It does if every operand has a smaller number than its node and every call in a
function is of a function with a smaller index: this is `Grounded`, for arenas, bodies and modules.

Only a push makes a node, so this has to be shown of pushes alone (`Arena.Grounded.push`). The
grammar appends a node over nodes that it has just appended, and a function is looked up among those
that are complete (`Grammar.Appends.grounded`), so a module that was accepted is grounded
(`Grammar.parse_grounded`). Nodes that no statement uses, such as the trace row under a segment, are
grounded like all others.
-/

set_option autoImplicit false

namespace Arithmetization

/-- The function that a node calls. -/
@[simp] def Op.callee? : Op → Option Nat
  | .call f => some f
  | _ => none

/-- The operator with another index, if it is a load. -/
def Op.mapLoad (f : Source → Nat → Nat) : Op → Op
  | .load source i => .load source (f source i)
  | op => op

theorem Expr.mapLoads_node (f : Source → Nat → Nat) (op : Op) (shape : Shape) (args : List Expr) :
    mapLoads f (.node op shape args) = .node (op.mapLoad f) shape (args.map (mapLoads f)) := by
  rw [mapLoads, fold_node, ← mapLoads]
  cases op <;> rfl

/-! ## Grounded arenas -/

namespace Arena

/-- Operands stand before the nodes that use them, and the functions called are among the first
`n`. -/
structure Grounded (n : Nat) (a : Arena) : Prop where
  backward : a.Backward
  calls : ∀ id < a.size, ∀ f ∈ (a.get id).op.callee?, f < n

variable {n : Nat} {a : Arena}

theorem grounded_empty (n : Nat) : empty.Grounded n :=
  ⟨backward_empty, fun _ h => (by cases h)⟩

theorem Grounded.mono (h : a.Grounded n) {m : Nat} (hnm : n ≤ m) : a.Grounded m :=
  ⟨h.backward, fun id hid f hf => Nat.lt_of_lt_of_le (h.calls id hid f hf) hnm⟩

/-- A node over earlier nodes that calls one of the first `n` functions, or none. -/
theorem Grounded.push (h : a.Grounded n) {op : Op} (shape : Shape) {args : List Nat}
    (hargs : ∀ i ∈ args, i < a.size) (hop : ∀ f ∈ op.callee?, f < n) :
    (a.push op shape args).1.Grounded n := by
  refine ⟨h.backward.push op shape hargs, ?_⟩
  intro id hid f hf
  rw [size_push] at hid
  rcases Nat.lt_succ_iff_lt_or_eq.1 hid with hid | rfl
  · rw [get_push_of_lt a op shape args hid] at hf
    exact h.calls id hid f hf
  · rw [get_push_self] at hf
    exact hop f hf

/-- The row under a segment is a load, which has no operands. -/
theorem Grounded.withRow (h : a.Grounded n) (Γ : Env) (op : Op) : (Γ.withRow a op).Grounded n := by
  unfold Env.withRow
  split
  · split
    · exact h.push _ (by simp) (by simp)
    · exact h
  · exact h

end Arena

/-! ## Trees of grounded arenas -/

namespace Expr

/-- All calls are of the first `n` functions. -/
def Grounded (n : Nat) : Expr → Prop :=
  fold fun op _ _ rs => (∀ f ∈ op.callee?, f < n) ∧ ∀ r ∈ rs, r

variable {n : Nat}

theorem grounded_node {op : Op} {shape : Shape} {args : List Expr} :
    Grounded n (.node op shape args) ↔
      (∀ f ∈ op.callee?, f < n) ∧ ∀ a ∈ args, a.Grounded n := by
  rw [Grounded, fold_node, ← Grounded]
  simp only [List.mem_map, forall_exists_index, and_imp, forall_apply_eq_imp_iff₂]

theorem Grounded.subterm {x e : Expr} (he : e.Grounded n) (hx : x ∈ e.subterms) :
    x.Grounded n := by
  induction e using Expr.induction with
  | node op shape args ih =>
    rcases mem_subterms_node.1 hx with rfl | ⟨a, ha, hx⟩
    · exact he
    · exact ih a ha ((grounded_node.1 he).2 a ha) hx

theorem Grounded.readInstead {e : Expr} (he : e.Grounded n) (p : Expr → Bool) (fresh : Nat) :
    (e.readInstead p fresh).Grounded n := by
  induction e using Expr.induction with
  | node op shape args ih =>
    obtain ⟨hop, hargs⟩ := grounded_node.1 he
    rw [readInstead_node]
    split
    · exact grounded_node.2 ⟨by simp, by simp⟩
    · refine grounded_node.2 ⟨hop, fun a ha => ?_⟩
      obtain ⟨a', ha', rfl⟩ := List.mem_map.1 ha
      exact ih a' ha' (hargs a' ha')

/-- Other indices of loads call nothing else. -/
theorem Grounded.mapLoads {e : Expr} (he : e.Grounded n) (f : Source → Nat → Nat) :
    (e.mapLoads f).Grounded n := by
  induction e using Expr.induction with
  | node op shape args ih =>
    obtain ⟨hop, hargs⟩ := grounded_node.1 he
    have hargs' : ∀ a ∈ args.map (Expr.mapLoads f), a.Grounded n := by
      intro a ha
      obtain ⟨a', ha', rfl⟩ := List.mem_map.1 ha
      exact ih a' ha' (hargs a' ha')
    rw [mapLoads_node]
    refine grounded_node.2 ⟨?_, hargs'⟩
    cases op with
    | load source i => simp [Op.mapLoad]
    | _ => exact hop

end Expr

namespace Arena

variable {n : Nat} {a : Arena}

theorem Backward.of_push {op : Op} {shape : Shape} {args : List Nat}
    (h : (a.push op shape args).1.Backward) : a.Backward := by
  intro id hid
  have hargs := h id (by rw [size_push]; exact Nat.lt_succ_of_lt hid)
  rwa [get_push_of_lt a op shape args hid] at hargs

/-- In a backward arena the tree of a node is the node over the trees of its operands. -/
theorem Backward.expr_eq (ha : a.Backward) {id : Nat} (h : id < a.size) :
    a.expr id = .node (a.get id).op (a.get id).shape ((a.get id).args.map a.expr) := by
  induction a using push_induction with
  | empty => cases h
  | push a op shape args ih =>
    have hargs := ha id h
    rw [size_push] at h
    -- operands stand before the last node, so their trees were there without it
    have htrees : ∀ ids : List Nat, (∀ k ∈ ids, k < id) →
        ids.map (a.push op shape args).1.expr = ids.map a.expr := by
      intro ids hids
      refine List.map_congr_left fun k hk => ?_
      exact a.expr_push_of_lt op shape args (Nat.lt_of_lt_of_le (hids k hk) (Nat.lt_succ_iff.1 h))
    rcases Nat.lt_succ_iff_lt_or_eq.1 h with h | rfl
    · rw [get_push_of_lt a op shape args h] at hargs ⊢
      rw [expr_push_of_lt a op shape args h, htrees _ hargs]
      exact ih ha.of_push h
    · rw [get_push_self] at hargs ⊢
      rw [expr_push_self, htrees _ hargs]

theorem Grounded.expr (h : a.Grounded n) {id : Nat} (hid : id < a.size) :
    (a.expr id).Grounded n := by
  induction id using Nat.strongRecOn with
  | ind id ih =>
    rw [h.backward.expr_eq hid]
    refine Expr.grounded_node.2 ⟨h.calls id hid, fun e he => ?_⟩
    obtain ⟨k, hk, rfl⟩ := List.mem_map.1 he
    have hlt := h.backward id hid k hk
    exact ih k hlt (Nat.lt_trans hlt hid)

theorem Grounded.insertAll {es : List Expr} (hes : ∀ e ∈ es, ∀ a : Arena, a.Grounded n →
    (a.insert e).1.Grounded n) (h : a.Grounded n) : (a.insertAll es).1.Grounded n := by
  induction es generalizing a with
  | nil =>
    rw [Arena.insertAll]
    exact h
  | cons e es ih =>
    rw [List.forall_mem_cons] at hes
    rw [Arena.insertAll]
    exact ih hes.2 (hes.1 a h)

/-- Storing a tree pushes its nodes, operands first. -/
theorem Grounded.insert (h : a.Grounded n) {e : Expr} (he : e.Grounded n) :
    (a.insert e).1.Grounded n := by
  induction e using Expr.induction generalizing a with
  | node op shape args ih =>
    obtain ⟨hop, hargs⟩ := Expr.grounded_node.1 he
    have hall := h.insertAll fun e he a ha => ih e he ha (hargs e he)
    have hstores : a.Stores (a.insertAll args).1 args (a.insertAll args).2 :=
      insertAll_stores (fun e _ => insert_stores e) a
    rw [Arena.insert]
    exact hall.push shape hstores.lt hop

end Arena

/-- A body over a grounded arena that has its statements. -/
structure Body.Grounded (n : Nat) (b : Body) : Prop where
  arena : b.arena.Grounded n
  value_lt : ∀ s ∈ b.stores, s.value < b.arena.size
  result_lt : b.result < b.arena.size

theorem Body.Grounded.mono {n m : Nat} {b : Body} (h : b.Grounded n) (hnm : n ≤ m) :
    b.Grounded m :=
  ⟨h.arena.mono hnm, h.value_lt, h.result_lt⟩

/-- Every function calls functions before it. -/
def FunctionsGrounded (functions : List Function) : Prop :=
  ∀ (i : Nat) (f : Function), functions[i]? = some f → f.body.Grounded i

theorem FunctionsGrounded.snoc {functions : List Function} {f : Function}
    (h : FunctionsGrounded functions) (hf : f.body.Grounded functions.length) :
    FunctionsGrounded (functions ++ [f]) := by
  intro i g hg
  rcases getElem?_concat_eq_some hg with hg | ⟨rfl, rfl⟩
  · exact h i g hg
  · exact hf

/-- Every function calls functions before it, and the procedures call functions of the module. -/
structure Draft.Grounded (d : Draft) : Prop where
  functions : FunctionsGrounded d.functions
  procedures : ∀ p ∈ d.transition.toList ++ d.evaluation.toList,
    p.body.Grounded d.functions.length

/-- Of a grounded module, every body is grounded among all functions. -/
theorem Draft.Grounded.body {d : Draft} (h : d.Grounded) {b : Body} (hb : b ∈ d.bodies) :
    b.Grounded d.functions.length := by
  rcases List.mem_append.1 hb with hb | hb
  · obtain ⟨f, hf, rfl⟩ := List.mem_map.1 hb
    obtain ⟨i, hi⟩ := List.getElem?_of_mem hf
    exact (h.functions i f hi).mono (Nat.le_of_lt (List.getElem?_eq_some_iff.1 hi).1)
  · obtain ⟨p, hp, rfl⟩ := List.mem_map.1 hb
    exact h.procedures p hp

/-! ## Sharing -/

namespace Block

variable {n : Nat} {b : Block}

/-- All calls are of the first `n` functions. -/
def Grounded (n : Nat) (b : Block) : Prop :=
  ∀ e ∈ b.exprs, e.Grounded n

theorem Grounded.value (h : b.Grounded n) {s : Assign} (hs : s ∈ b.stores) :
    s.value.Grounded n :=
  h _ (List.mem_append_left _ (List.mem_map_of_mem hs))

theorem Grounded.result (h : b.Grounded n) : b.result.Grounded n :=
  h _ (List.mem_append_right _ (List.mem_singleton.2 rfl))

/-- A round calls what was called before, for it stores an expression that was there. -/
theorem Grounded.hoisting (h : b.Grounded n) (step : Hoisting b) : step.block.Grounded n := by
  intro e he
  obtain he | rfl | ⟨e', he', p, rfl⟩ := step.mem_exprs he
  · exact h e he
  · obtain ⟨e, he, hmem⟩ := step.exists_mem_exprs
    exact (h e he).subterm hmem
  · exact (h e' he').readInstead p b.locals.length

theorem Grounded.normalize (h : b.Grounded n) : b.normalize.Grounded n := by
  intro e he
  rcases List.mem_append.1 he with he | he
  · obtain ⟨t, ht, rfl⟩ := List.mem_map.1 he
    obtain ⟨s, hs, rfl⟩ := List.mem_map.1 ht
    exact (h.value (List.mem_filter.1 hs).1).mapLoads _
  · rw [List.mem_singleton.1 he]
    exact h.result.mapLoads _

theorem Grounded.share (h : b.Grounded n) (minWeight : Nat) : (b.share minWeight).Grounded n :=
  (hoistAll_induction (fun step hb => hb.hoisting step) h).normalize

theorem Grounded.insertStores {ss : List Assign} (hss : ∀ s ∈ ss, s.value.Grounded n) {a : Arena}
    (h : a.Grounded n) : (Block.insertStores a ss).1.Grounded n := by
  induction ss generalizing a with
  | nil => exact h
  | cons s ss ih =>
    rw [List.forall_mem_cons] at hss
    rw [Block.insertStores]
    exact ih hss.2 (h.insert hss.1)

theorem Grounded.toBody (h : b.Grounded n) : b.toBody.Grounded n := by
  have hstores := Grounded.insertStores (fun s hs => h.value hs) (Arena.grounded_empty n)
  obtain ⟨-, hlt, -⟩ := insertStores_spec b.stores .empty
  refine ⟨hstores.insert h.result, fun s hs => ?_, Arena.insert_lt _ _⟩
  exact Nat.lt_of_lt_of_le (hlt s hs) (Arena.grows_insert _ _).size_le

end Block

theorem Body.Grounded.block {n : Nat} {b : Body} (h : b.Grounded n) : b.block.Grounded n := by
  intro e he
  rw [Body.block_eq] at he
  rcases List.mem_append.1 he with he | he
  · obtain ⟨t, ht, rfl⟩ := List.mem_map.1 he
    obtain ⟨s, hs, rfl⟩ := List.mem_map.1 ht
    exact h.arena.expr (h.value_lt s hs)
  · rw [List.mem_singleton.1 he]
    exact h.arena.expr h.result_lt

/-- **Sharing keeps a body grounded**, whatever the options. -/
theorem Body.Grounded.share {n : Nat} {b : Body} (h : b.Grounded n) (options : SharingOptions) :
    (b.share options).Grounded n := by
  unfold Body.share
  split
  · exact (h.block.share options.minWeight).toBody
  · exact h

/-- A module with its repeated subexpressions shared. -/
def Draft.share (options : SharingOptions) (d : Draft) : Draft :=
  { d with
    functions := d.functions.map (Function.share options)
    transition := d.transition.map (Procedure.share options)
    evaluation := d.evaluation.map (Procedure.share options) }

theorem Draft.Grounded.share {d : Draft} (h : d.Grounded) (options : SharingOptions) :
    (d.share options).Grounded := by
  refine ⟨fun i f hf => ?_, fun p hp => ?_⟩
  · have hf' : (d.functions.map (Function.share options))[i]? = some f := hf
    rw [List.getElem?_map] at hf'
    obtain ⟨g, hg, rfl⟩ := Option.map_eq_some_iff.1 hf'
    exact (h.functions i g hg).share options
  · have hlen : (d.share options).functions.length = d.functions.length := List.length_map ..
    have hp' : p ∈ (d.transition.toList ++ d.evaluation.toList).map (Procedure.share options) := by
      rw [List.map_append, ← Option.toList_map, ← Option.toList_map]
      exact hp
    obtain ⟨q, hq, rfl⟩ := List.mem_map.1 hp'
    rw [hlen]
    exact (h.procedures q hq).share options

/-! ## The grammar -/

/-- A call that has a shape is of a function that is declared. -/
theorem Env.callee_lt {Γ : Env} {ρ : List (Option Shape)} {op : Op} {args : List Expr} {s : Shape}
    (h : Γ.shapeOf ρ op args = some s) : ∀ f ∈ op.callee?, f < Γ.signatures.length := by
  cases op with
  | call f =>
    rw [Env.shapeOf_of_local? rfl] at h
    obtain ⟨signature, hsignature, -, -⟩ := Env.rule_call.1 h
    simpa using (List.getElem?_eq_some_iff.1 hsignature).1
  | _ => simp

namespace Grammar

variable {cx : Context}

/-- **Every form appends grounded nodes**: operands are appended before the node over them, and a
function is called only if it is complete. -/
theorem Appends.grounded {ρ : List (Option Shape)} {a a' : Arena} {x : Sexp} {id : Nat}
    (h : Appends cx ρ a x a' id) (ha : a.Grounded cx.functions.length) :
    a'.Grounded cx.functions.length := by
  revert ha
  refine h.induction (P := fun a _ a' _ => a.Grounded cx.functions.length →
    a'.Grounded cx.functions.length) ?_ ?_
  · intro a n _ ha
    exact ha.push _ (by simp) (by simp)
  · intro a a' s xs ids op hargs _ hshape ha
    have hoperands : a'.Grounded cx.functions.length :=
      hargs.invariant (fun _ _ _ _ h => h.2) (ha.withRow cx.env op)
    have hlt := (hargs.imp fun _ _ _ _ h => h.1).stores.lt
    have hcallee := Env.callee_lt hshape
    rw [Context.env, List.length_map] at hcallee
    exact hoperands.push s hlt hcallee

theorem Does.grounded {b b' : Builder} {x : Sexp} (h : Does cx b x b')
    (hb : b.arena.Grounded cx.functions.length) : b'.arena.Grounded cx.functions.length := by
  cases h with
  | declare _ => exact hb
  | store _ hx hstore =>
    obtain ⟨-, rfl⟩ := Builder.store_eq_ok.1 hstore
    exact hx.grounded hb

/-- **A body calls the functions of its context.** -/
theorem body_grounded {pos : Position} {items : List Form} {b : Body}
    (h : body cx pos items = .ok b) : b.Grounded cx.functions.length := by
  obtain ⟨xs, x, b₁, a, id, -, hrun, ha, rfl⟩ := body_eq_ok.1 h
  have hsound := (hrun.denotes Builder.sound_empty).1
  have harena : b₁.arena.Grounded cx.functions.length :=
    hrun.invariant (fun _ _ _ _ h => h.grounded) (Arena.grounded_empty _)
  refine ⟨ha.grounded harena, fun s hs => ?_, ha.lt⟩
  exact Nat.lt_of_lt_of_le (hsound.value_lt s hs) ha.stores.grows.size_le

/-- A function may call the functions before it, for it is not among them while it is read. -/
theorem functions_grounded {modulus : Nat} {constants : List Literal} {ss : List Form}
    {fs : List Function} (h : Runs (AddsFunction modulus constants) [] ss fs) :
    FunctionsGrounded fs := by
  refine h.invariant ?_ fun _ _ h => (by cases h)
  rintro s - fs _ ⟨f, hf, rfl⟩ hfs
  obtain ⟨result, rest, -, -, -, -, hbody, -⟩ := function_eq_ok.1 hf
  exact hfs.snoc (body_grounded hbody)

/-- **A module that was accepted is grounded.** -/
theorem parse_grounded {tokens : List Token} {d : Draft} (h : parse tokens = .ok d) :
    d.Grounded := by
  obtain ⟨f, -, -, hsections⟩ := parse_eq_ok.1 h
  obtain ⟨t, e, ht, he, hparts⟩ := sections_eq_ok.1 hsections
  obtain ⟨tf, -, -, htransition⟩ := hparts.transition
  obtain ⟨ef, -, -, hevaluation⟩ := hparts.evaluation
  refine ⟨functions_grounded (functions_eq_iff.1 hparts.functions_eq), fun p hp => ?_⟩
  rw [ht, he, Option.toList_some, Option.toList_some, List.mem_append, List.mem_singleton,
    List.mem_singleton] at hp
  rcases hp with rfl | rfl
  · exact body_grounded (procedure_eq_ok.1 htransition).2.2.2.1
  · exact body_grounded (procedure_eq_ok.1 hevaluation).2.2.2.1

end Grammar

end Arithmetization
