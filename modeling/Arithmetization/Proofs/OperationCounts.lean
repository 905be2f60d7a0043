import Arithmetization.Proofs.Counts
import Arithmetization.Proofs.Measures
import Arithmetization.Report.Operations

/-!
What counting operations gives.

Counts are added node by node, and each sum may leave its range. Where counts do not go round, a
count is right or there is none: it is the sum over all nodes (`OpCounts.counts`), and it is missing
if a node by itself cannot be counted (`OpCounts.failures`) or if the sum is out of range
(`OpCounts.block_packs`). Both are measures, so what is known of measures holds of counts.

A machine that is stopped by an overflow and one whose counts go round agree on what the first one
counts (`OpCounts.body_refines`).
-/

set_option autoImplicit false

namespace Arithmetization

namespace OpCounts

/-- What is counted. -/
inductive Kind where
  | add
  | mul
  | inv

def of (c : OpCounts) : Kind → Nat
  | .add => c.add
  | .mul => c.mul
  | .inv => c.inv

/-- The counts with the given numbers. -/
def ofKinds (κ : Kind → Nat) : OpCounts :=
  ⟨κ .add, κ .mul, κ .inv⟩

@[simp] theorem of_ofKinds (κ : Kind → Nat) (k : Kind) : (ofKinds κ).of k = κ k := by
  cases k <;> rfl

theorem of_empty (k : Kind) : of {} k = 0 := by
  cases k <;> rfl

/-- Counts are told apart by their numbers. -/
theorem eq_of_forall_of {a b : OpCounts} (h : ∀ k, a.of k = b.of k) : a = b := by
  obtain ⟨add, mul, inv⟩ := a
  obtain ⟨add', mul', inv'⟩ := b
  simp only [mk.injEq]
  exact ⟨h .add, h .mul, h .inv⟩

instance : LE OpCounts :=
  ⟨fun a b => a.add ≤ b.add ∧ a.mul ≤ b.mul ∧ a.inv ≤ b.inv⟩

theorem le_iff {a b : OpCounts} : a ≤ b ↔ ∀ k, a.of k ≤ b.of k := by
  constructor
  · rintro ⟨hadd, hmul, hinv⟩ k
    cases k <;> assumption
  · intro h
    exact ⟨h .add, h .mul, h .inv⟩

theorem le_refl (a : OpCounts) : a ≤ a :=
  le_iff.2 fun _ => Nat.le_refl _

theorem le_trans {a b c : OpCounts} (hab : a ≤ b) (hbc : b ≤ c) : a ≤ c :=
  le_iff.2 fun k => (le_iff.1 hab k).trans (le_iff.1 hbc k)

/-! ## Sums -/

theorem plus_eq_ok {o : Overflow} {x y : Except Stop OpCounts} {c : OpCounts} :
    plus o x y = .ok c ↔
      ∃ a b, x = .ok a ∧ y = .ok b ∧ ∀ k, o.keep (a.of k + b.of k) = .ok (c.of k) := by
  simp only [plus, bind_eq_ok, pure_eq_ok]
  constructor
  · rintro ⟨a, ha, b, hb, i, hi, j, hj, l, hl, rfl⟩
    refine ⟨a, b, ha, hb, fun k => ?_⟩
    cases k with
    | add => exact hi
    | mul => exact hj
    | inv => exact hl
  · rintro ⟨a, b, ha, hb, h⟩
    exact ⟨a, ha, b, hb, c.add, h .add, c.mul, h .mul, c.inv, h .inv, rfl⟩

/-- Counting gives the numbers `κ`, unless there are `failures` or one of the numbers is out of
range. -/
def Packs (o : Overflow) (x : Except Stop OpCounts) (failures : Nat) (κ : Kind → Nat) : Prop :=
  ∀ c, (x = .ok c ∧ ∀ k, o.Holds (c.of k)) ↔ failures = 0 ∧ ∀ k, c.of k = κ k ∧ o.Holds (κ k)

variable {o : Overflow}

theorem packs_empty (o : Overflow) : Packs o (.ok {}) 0 fun _ => 0 := by
  intro c
  constructor
  · rintro ⟨hc, hholds⟩
    obtain rfl := Except.ok.inj hc
    refine ⟨rfl, fun k => ⟨of_empty k, ?_⟩⟩
    have hk := hholds k
    rwa [of_empty] at hk
  · rintro ⟨-, hc⟩
    refine ⟨congrArg Except.ok ?_, fun k => (hc k).1 ▸ (hc k).2⟩
    exact eq_of_forall_of fun k => (of_empty k).trans (hc k).1.symm

/-- Numbers add up, and so do failures. -/
theorem Packs.plus (ho : o ≠ .wrap) {x y : Except Stop OpCounts} {m n : Nat} {κ μ : Kind → Nat}
    (hx : Packs o x m κ) (hy : Packs o y n μ) :
    Packs o (OpCounts.plus o x y) (m + n) fun k => κ k + μ k := by
  intro c
  rw [plus_eq_ok]
  simp only [Overflow.keep_eq_ok ho]
  constructor
  · rintro ⟨⟨a, b, rfl, rfl, hc⟩, -⟩
    -- a sum in range has both parts in range
    have ha := (hx a).1 ⟨rfl, fun k => (hc k).1.mono (Nat.le_add_right ..)⟩
    have hb := (hy b).1 ⟨rfl, fun k => (hc k).1.mono (Nat.le_add_left ..)⟩
    refine ⟨by omega, fun k => ?_⟩
    rw [← (ha.2 k).1, ← (hb.2 k).1]
    exact ⟨(hc k).2, (hc k).1⟩
  · rintro ⟨hzero, hc⟩
    have ha := (hx (ofKinds κ)).2 ⟨by omega, fun k =>
      ⟨of_ofKinds κ k, (hc k).2.mono (Nat.le_add_right ..)⟩⟩
    have hb := (hy (ofKinds μ)).2 ⟨by omega, fun k =>
      ⟨of_ofKinds μ k, (hc k).2.mono (Nat.le_add_left ..)⟩⟩
    refine ⟨⟨ofKinds κ, ofKinds μ, ha.1, hb.1, fun k => ?_⟩, fun k => (hc k).1 ▸ (hc k).2⟩
    rw [of_ofKinds, of_ofKinds]
    exact ⟨(hc k).2, (hc k).1⟩

/-- What counting gives in many places. -/
theorem packs_total (ho : o ≠ .wrap) {α : Type} {f : α → Except Stop OpCounts} {z : α → Nat}
    {κ : Kind → α → Nat} {xs : List α} (h : ∀ x ∈ xs, Packs o (f x) (z x) (κ · x)) :
    Packs o (total o (xs.map f)) (xs.map z).sum fun k => (xs.map (κ k)).sum := by
  -- the sum so far is carried along
  have hfold : ∀ (xs : List α) (x : Except Stop OpCounts) (m : Nat) (μ : Kind → Nat),
      (∀ x ∈ xs, Packs o (f x) (z x) (κ · x)) → Packs o x m μ →
      Packs o ((xs.map f).foldl (plus o) x) (m + (xs.map z).sum)
        fun k => μ k + (xs.map (κ k)).sum := by
    intro xs
    induction xs with
    | nil => exact fun _ _ _ _ hx => hx
    | cons y ys ih =>
      intro x m μ hall hx
      rw [List.forall_mem_cons] at hall
      have hrest := ih _ _ _ hall.2 (hx.plus ho hall.1)
      simpa only [List.map_cons, List.foldl_cons, List.sum_cons, Nat.add_assoc] using hrest
  have hall := hfold xs _ _ _ h (packs_empty o)
  simp only [Nat.zero_add] at hall
  exact hall

/-- A total that does not go round is in range. -/
theorem holds_total (ho : o ≠ .wrap) {xs : List (Except Stop OpCounts)} {c : OpCounts}
    (h : total o xs = .ok c) (k : Kind) : o.Holds (c.of k) := by
  obtain rfl | ⟨ys, y, rfl⟩ := List.eq_nil_or_concat xs
  · obtain rfl := Except.ok.inj h
    rw [of_empty]
    exact fun _ => by decide
  · -- what is kept last is the total
    rw [total, List.concat_eq_append, List.foldl_append] at h
    obtain ⟨a, b, -, -, hc⟩ := plus_eq_ok.1 h
    obtain ⟨hholds, heq⟩ := (Overflow.keep_eq_ok ho).1 (hc k)
    rwa [heq]

/-! ## Nodes -/

variable (o) (constants : List Literal) (cs : List (Except Stop OpCounts))

/-- Of its operands a node sees the shapes and the numbers above a power. -/
theorem node_congr (op : Op) (s : Shape) {args args' : List Expr}
    (h : args.map Expr.outline = args'.map Expr.outline) :
    node o constants cs op s args = node o constants cs op s args' := by
  have houtline : args[1]?.map Expr.outline = args'[1]?.map Expr.outline := by
    rw [← List.getElem?_map, ← List.getElem?_map, h]
  have hshape : args[1]?.map Expr.shape = args'[1]?.map Expr.shape := by
    have hfst := congrArg (Option.map Prod.fst) houtline
    rwa [Option.map_map, Option.map_map] at hfst
  have hexponent : args[1]?.bind Expr.exponent? = args'[1]?.bind Expr.exponent? := by
    have hsnd := congrArg (Option.bind · Prod.snd) houtline
    rwa [Option.bind_map, Option.bind_map] at hsnd
  simp only [node, exponent, hshape, hexponent]

/-- Only a call looks at the callees. -/
theorem node_callees (cs' : List (Except Stop OpCounts)) {op : Op} (h : ∀ f, op ≠ .call f)
    (shape : Shape) (args : List Expr) :
    node o constants cs op shape args = node o constants cs' op shape args := by
  cases op with
  | call f => exact absurd rfl (h f)
  | binary op => cases op <;> rfl
  | unary op => cases op <;> rfl
  | _ => rfl

theorem node_call (f : Nat) (shape : Shape) (args : List Expr) :
    node o constants cs (.call f) shape args
      = o.keep shape.size >>= fun _ => cs.getD f (.ok {}) := rfl

theorem node_local (l : Nat) (shape : Shape) (args : List Expr) :
    node o constants cs (.load .local l) shape args
      = o.keep shape.size >>= fun _ => .ok {} := rfl

/-- The elements of every value are counted. -/
theorem keep_of_node {op : Op} {shape : Shape} {args : List Expr} {c : OpCounts}
    (h : node o constants cs op shape args = .ok c) : ∃ n, o.keep shape.size = .ok n := by
  obtain ⟨n, hn, -⟩ := bind_eq_ok.1 h
  exact ⟨n, hn⟩

/-- The number of nodes that cannot be counted by themselves. -/
def failures : Measure where
  node op s args := if (node o constants cs op s args).isOk then 0 else 1
  read s := if (o.keep s.size).isOk then 0 else 1
  node_read l s args := by
    rw [node_local]
    cases o.keep s.size <;> rfl
  node_congr op s _ _ h := by rw [node_congr o constants cs op s h]

/-- A number of a count, and `0` if there is none. -/
def countOf (k : Kind) : Except Stop OpCounts → Nat
  | .ok c => c.of k
  | .error _ => 0

/-- The operations of one kind. -/
def counts (k : Kind) : Measure where
  node op s args := countOf k (node o constants cs op s args)
  read _ := 0
  node_read l s args := by
    rw [node_local]
    cases o.keep s.size with
    | ok n => exact of_empty k
    | error e => rfl
  node_congr op s _ _ h := by rw [node_congr o constants cs op s h]

theorem node_packs (op : Op) (s : Shape) (args : List Expr) :
    Packs o (node o constants cs op s args) ((failures o constants cs).node op s args)
      fun k => (counts o constants cs k).node op s args := by
  intro c
  show _ ↔ (if (node o constants cs op s args).isOk then 0 else 1) = 0
    ∧ ∀ k, c.of k = countOf k (node o constants cs op s args)
      ∧ o.Holds (countOf k (node o constants cs op s args))
  cases node o constants cs op s args with
  | error e => exact ⟨fun h => (by cases h.1), fun h => (by cases h.1)⟩
  | ok d =>
    constructor
    · rintro ⟨hd, hholds⟩
      obtain rfl := Except.ok.inj hd
      exact ⟨rfl, fun k => ⟨rfl, hholds k⟩⟩
    · rintro ⟨-, hc⟩
      refine ⟨congrArg Except.ok ?_, fun k => (hc k).1 ▸ (hc k).2⟩
      exact eq_of_forall_of fun k => (hc k).1.symm

/-! ## Expressions and blocks -/

theorem expr_node (op : Op) (shape : Shape) (args : List Expr) :
    expr o constants cs (.node op shape args)
      = plus o (total o (args.map (expr o constants cs)))
          (node o constants cs op shape args) := by
  rw [expr, Expr.fold_node]

variable {o}

theorem expr_packs (ho : o ≠ .wrap) (e : Expr) :
    Packs o (expr o constants cs e) ((failures o constants cs).expr e)
      fun k => (counts o constants cs k).expr e := by
  induction e using Expr.induction with
  | node op shape args ih =>
    have hargs := packs_total ho ih
    have hnode := node_packs o constants cs op shape args
    simp only [Measure.expr_node, Nat.add_comm (Measure.node _ _ _ _)]
    rw [expr_node]
    exact hargs.plus ho hnode

/-- **Counts of a block.** They are sums over its nodes, unless one of them is out of range. -/
theorem block_packs (ho : o ≠ .wrap) (b : Block) :
    Packs o (block o constants cs b) ((failures o constants cs).block b)
      fun k => (counts o constants cs k).block b := by
  simp only [Measure.block_eq_sum]
  exact packs_total ho fun e (_ : e ∈ b.exprs) => expr_packs constants cs ho e

theorem block_eq_ok (ho : o ≠ .wrap) {b : Block} {c : OpCounts} :
    block o constants cs b = .ok c ↔
      (failures o constants cs).block b = 0
        ∧ ∀ k, c.of k = (counts o constants cs k).block b
          ∧ o.Holds ((counts o constants cs k).block b) := by
  rw [← block_packs constants cs ho b c]
  exact (and_iff_left_of_imp fun h => holds_total ho h).symm

/-! ## Functions -/

theorem getD_callees_zero (o : Overflow) (functions : List Function) (f : Nat) :
    (callees o constants functions 0).getD f (.ok {}) = .ok {} := by
  rw [callees, List.getD_eq_getElem?_getD, List.getElem?_map]
  cases functions[f]? <;> rfl

theorem getD_callees_succ (o : Overflow) (functions : List Function) (depth f : Nat) :
    (callees o constants functions (depth + 1)).getD f (.ok {})
      = (functions[f]?.map fun g =>
          block o constants (callees o constants functions depth) g.body.block).getD (.ok {}) := by
  rw [callees, List.getD_eq_getElem?_getD, List.getElem?_map]

/-! ## Counting comes to an end -/

/-- Counts were found, or an overflow stopped the run. -/
def Ends (o : Overflow) (x : Except Stop OpCounts) : Prop :=
  (∃ c, x = .ok c) ∨ o = .trap ∧ x = .error .overflow

theorem Ends.bind {α : Type} {x : Except Stop α} {f : α → Except Stop OpCounts}
    (hx : (∃ a, x = .ok a) ∨ o = .trap ∧ x = .error .overflow) (hf : ∀ a, Ends o (f a)) :
    Ends o (x >>= f) := by
  rcases hx with ⟨a, rfl⟩ | ⟨ho, rfl⟩
  · exact hf a
  · exact .inr ⟨ho, rfl⟩

theorem keep_ends (o : Overflow) (n : Nat) :
    (∃ m, o.keep n = .ok m) ∨ o = .trap ∧ o.keep n = .error .overflow := by
  by_cases hn : n < Overflow.bound
  · exact .inl ⟨n, o.keep_of_lt hn⟩
  cases o with
  | trap => exact .inr ⟨rfl, Overflow.keep_trap_of_le (Nat.not_lt.1 hn)⟩
  | wrap => exact .inl ⟨_, Overflow.keep_wrap n⟩
  | exact => exact .inl ⟨n, Overflow.keep_exact n⟩

theorem Ends.plus {x y : Except Stop OpCounts} (hx : Ends o x) (hy : Ends o y) :
    Ends o (OpCounts.plus o x y) :=
  .bind hx fun _ => .bind hy fun _ => .bind (keep_ends o _) fun _ => .bind (keep_ends o _) fun _ =>
    .bind (keep_ends o _) fun _ => .inl ⟨_, rfl⟩

theorem total_ends {xs : List (Except Stop OpCounts)} (h : ∀ x ∈ xs, Ends o x) :
    Ends o (total o xs) := by
  have hfold : ∀ (xs : List (Except Stop OpCounts)) (x : Except Stop OpCounts),
      (∀ x ∈ xs, Ends o x) → Ends o x → Ends o (xs.foldl (plus o) x) := by
    intro xs
    induction xs with
    | nil => exact fun _ _ hx => hx
    | cons y ys ih =>
      intro x hall hx
      rw [List.forall_mem_cons] at hall
      exact ih _ hall.2 (hx.plus hall.1)
  exact hfold xs _ h (.inl ⟨_, rfl⟩)

section

variable {cs : List (Except Stop OpCounts)} (hcs : ∀ f, Ends o (cs.getD f (.ok {})))

include hcs

theorem node_ends (op : Op) (shape : Shape) (args : List Expr) :
    Ends o (node o constants cs op shape args) := by
  refine .bind (keep_ends o _) fun n => ?_
  have hdone : ∀ c : OpCounts, Ends o (.ok c) := fun c => .inl ⟨c, rfl⟩
  cases op with
  | call f => exact hcs f
  | binary op =>
    cases op with
    | exp => exact .bind (keep_ends o _) fun _ => hdone _
    | prod => exact .bind (keep_ends o _) fun _ => .bind (keep_ends o _) fun _ => hdone _
    | _ => exact hdone _
  | unary op => cases op <;> exact hdone _
  | _ => exact hdone _

theorem block_ends (b : Block) : Ends o (block o constants cs b) := by
  have hexpr : ∀ e, Ends o (expr o constants cs e) := by
    intro e
    induction e using Expr.induction with
    | node op shape args ih =>
      rw [expr_node]
      exact (total_ends (List.forall_mem_map.2 ih)).plus (node_ends constants hcs op shape args)
  exact total_ends (List.forall_mem_map.2 fun e _ => hexpr e)

end

/-- **Counting has a result**, or it is stopped by an overflow. -/
theorem body_ends (o : Overflow) (functions : List Function) (b : Body) :
    Ends o (body o constants functions b) := by
  -- by the depth of calls; a function that is called too deep counts nothing
  have hcallees : ∀ depth f, Ends o ((callees o constants functions depth).getD f (.ok {})) := by
    intro depth
    induction depth with
    | zero => exact fun f => .inl ⟨_, getD_callees_zero constants o functions f⟩
    | succ depth ih =>
      intro f
      rw [getD_callees_succ]
      cases functions[f]? with
      | none => exact .inl ⟨_, rfl⟩
      | some g => exact block_ends constants ih g.body.block
  exact block_ends constants (hcallees _) b.block

/-! ## All machines -/

theorem plus_refines {x x' y y' : Except Stop OpCounts} (hx : Refines x x') (hy : Refines y y')
    (o : Overflow) : Refines (plus .trap x y) (plus o x' y') := by
  intro c hc
  obtain ⟨a, b, ha, hb, h⟩ := plus_eq_ok.1 hc
  exact plus_eq_ok.2 ⟨a, b, hx a ha, hy b hb, fun k => Overflow.keep_refines o _ _ (h k)⟩

theorem total_refines {xs ys : List (Except Stop OpCounts)} (h : List.Forall₂ Refines xs ys)
    (o : Overflow) : Refines (total .trap xs) (total o ys) := by
  have hfold : ∀ {x y : Except Stop OpCounts}, Refines x y →
      Refines (xs.foldl (plus .trap) x) (ys.foldl (plus o) y) := by
    induction h with
    | nil => exact fun hxy => hxy
    | cons hx _ ih => exact fun hxy => ih (plus_refines hxy hx o)
  exact hfold (.refl _)

theorem node_refines {cs cs' : List (Except Stop OpCounts)}
    (h : ∀ f, Refines (cs.getD f (.ok {})) (cs'.getD f (.ok {}))) (o : Overflow) (op : Op)
    (shape : Shape) (args : List Expr) :
    Refines (node .trap constants cs op shape args) (node o constants cs' op shape args) := by
  have hmul : ∀ m n, Refines (Overflow.mul .trap m n) (o.mul m n) := fun m n =>
    Overflow.keep_refines o _
  unfold node
  refine Refines.bind (Overflow.keep_refines o _) fun n => ?_
  cases op with
  | call f => exact h f
  | binary op =>
    cases op with
    | exp => exact Refines.bind (hmul _ _) fun _ => .refl _
    | prod => exact Refines.bind (hmul _ _) fun _ => Refines.bind (hmul _ _) fun _ => .refl _
    | _ => exact .refl _
  | unary op => cases op <;> exact .refl _
  | _ => exact .refl _

theorem block_refines {cs cs' : List (Except Stop OpCounts)}
    (h : ∀ f, Refines (cs.getD f (.ok {})) (cs'.getD f (.ok {}))) (o : Overflow) (b : Block) :
    Refines (block .trap constants cs b) (block o constants cs' b) := by
  have hexpr : ∀ e, Refines (expr .trap constants cs e) (expr o constants cs' e) := by
    intro e
    induction e using Expr.induction with
    | node op shape args ih =>
      rw [expr_node, expr_node]
      refine plus_refines (total_refines ?_ o) (node_refines constants h o op shape args) o
      exact List.forall₂_map_left_iff.2 (List.forall₂_map_right_iff.2 (List.forall₂_same.2 ih))
  refine total_refines ?_ o
  exact List.forall₂_map_left_iff.2 (List.forall₂_map_right_iff.2
    (List.forall₂_same.2 fun e _ => hexpr e))

/-- **What a machine counts before an overflow**, all machines count. -/
theorem body_refines (functions : List Function) (b : Body) (o : Overflow) :
    Refines (body .trap constants functions b) (body o constants functions b) := by
  have hcallees : ∀ depth f,
      Refines ((callees .trap constants functions depth).getD f (.ok {}))
        ((callees o constants functions depth).getD f (.ok {})) := by
    intro depth
    induction depth with
    | zero =>
      intro f
      rw [getD_callees_zero, getD_callees_zero]
      exact .refl _
    | succ depth ih =>
      intro f
      rw [getD_callees_succ, getD_callees_succ]
      cases functions[f]? with
      | none =>
        rw [Option.map_none, Option.map_none]
        exact .refl _
      | some g => exact block_refines constants ih o g.body.block
  rw [body, body]
  exact block_refines constants (hcallees _) o b.block

end OpCounts

end Arithmetization
