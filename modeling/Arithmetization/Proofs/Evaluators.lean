import Arithmetization.Degree.Inference
import Arithmetization.Machine.Program
import Arithmetization.Proofs.Occurrences
import Arithmetization.Proofs.Outcomes
import Mathlib.Data.List.GetD

/-!
Evaluators of blocks.

Running a block and inferring its degrees are one walk: the stores one after the other, each into
its local, then the result; an expression node by node, operands first. They differ only in what a
node does with the results of its operands. An `Evaluator` is that difference, and what is said
about all evaluators holds of both: `Run.block_eq` and `Degree.Context.block_eq` say that the two
are evaluators.

What later proofs need of a node is in `Evaluator.Simulates` and `Evaluator.Strict`: better
operands give a better result, and a result needs all of its operands, the exponent of a power
apart, which is looked at and never evaluated.
-/

set_option autoImplicit false

namespace Arithmetization

/-! ## Numbers of operands -/

/-- Whether an operator is written with this number of operands. -/
def Op.Takes : Op → Nat → Prop
  | .literal _, n => n = 0
  | .load _ _, n => n = 0
  | .segment _ _ _, n => n = 0
  | .binary _, n => n = 2
  | .unary _, n => n = 1
  | .get _, n => n = 1
  | .slice _ _, n => n = 1
  | .vector, _ => True
  | .matrix _, _ => True
  | .call _, _ => True

/-- A literal, load or segment has no operands. -/
theorem Op.Takes.eq_nil {op : Op} {args : List Expr} (h : op.Takes args.length)
    (ht : op.isTrivial = true) : args = [] := by
  cases op with
  | literal value => exact List.length_eq_zero_iff.1 h
  | load source index => exact List.length_eq_zero_iff.1 h
  | segment row first last => exact List.length_eq_zero_iff.1 h
  | _ => cases ht

namespace Expr

/-- Every operator has the number of operands that it takes. -/
def Sized : Expr → Prop :=
  fold fun op _ args rs => op.Takes args.length ∧ ∀ r ∈ rs, r

theorem sized_node {op : Op} {shape : Shape} {args : List Expr} :
    Sized (.node op shape args) ↔ op.Takes args.length ∧ ∀ a ∈ args, Sized a := by
  rw [Sized, fold_node, ← Sized]
  simp only [List.mem_map, forall_exists_index, and_imp, forall_apply_eq_imp_iff₂]

end Expr

theorem Op.local?_eq_some {op : Op} {i : Nat} : op.local? = some i ↔ op = .load .local i := by
  constructor
  · intro h
    unfold Op.local? at h
    split at h
    · rw [Option.some.inj h]
    · cases h
  · rintro rfl
    rfl

/-! ## Evaluators -/

/-- How a node that reads no local gets its result from those of its operands, and the fault of
reading a local that has none. -/
structure Evaluator (ε α : Type) where
  node : Op → Shape → List Expr → List (Except ε α) → Except ε α
  unset : Nat → ε

namespace Evaluator

variable {ε α : Type}

/-- What a local holds. -/
def read (ev : Evaluator ε α) (locals : List (Option α)) (i : Nat) : Except ε α :=
  match locals.getD i none with
  | some v => .ok v
  | none => .error (ev.unset i)

/-- The result of an expression. -/
def expr (ev : Evaluator ε α) (locals : List (Option α)) : Expr → Except ε α :=
  Expr.fold fun op shape args results =>
    match op.local? with
    | some i => ev.read locals i
    | none => ev.node op shape args results

/-- The locals after some stores. -/
def stores (ev : Evaluator ε α) : List (Option α) → List Assign → Except ε (List (Option α))
  | locals, [] => .ok locals
  | locals, s :: rest => do
    let v ← ev.expr locals s.value
    ev.stores (locals.set s.target (some v)) rest

/-- The result of a block. -/
def block (ev : Evaluator ε α) (b : Block) : Except ε α := do
  let locals ← ev.stores (List.replicate b.locals.length none) b.stores
  ev.expr locals b.result

variable {ev ev' : Evaluator ε α}

theorem read_eq_ok {locals : List (Option α)} {i : Nat} {v : α} :
    ev.read locals i = .ok v ↔ locals.getD i none = some v := by
  unfold read
  cases locals.getD i none with
  | none => exact ⟨fun h => (by cases h), fun h => (by cases h)⟩
  | some w => rw [Except.ok.injEq, Option.some.injEq]

theorem expr_local (ev : Evaluator ε α) (locals : List (Option α)) (i : Nat) (shape : Shape)
    (args : List Expr) : ev.expr locals (.node (.load .local i) shape args) = ev.read locals i := by
  rw [expr, Expr.fold_node]
  rfl

theorem expr_node (locals : List (Option α)) {op : Op} (h : op.local? = none) (shape : Shape)
    (args : List Expr) :
    ev.expr locals (.node op shape args) = ev.node op shape args (args.map (ev.expr locals)) := by
  rw [expr, Expr.fold_node, h]

theorem stores_cons_eq_ok {locals locals' : List (Option α)} {s : Assign} {ss : List Assign} :
    ev.stores locals (s :: ss) = .ok locals' ↔
      ∃ v, ev.expr locals s.value = .ok v ∧
        ev.stores (locals.set s.target (some v)) ss = .ok locals' := by
  rw [stores, bind_eq_ok]

theorem stores_append (locals : List (Option α)) (xs ys : List Assign) :
    ev.stores locals (xs ++ ys) = (ev.stores locals xs >>= fun l => ev.stores l ys) := by
  induction xs generalizing locals with
  | nil => rfl
  | cons x xs ih =>
    rw [List.cons_append, stores, stores]
    cases ev.expr locals x.value with
    | error e => rfl
    | ok v => exact ih _

/-- An expression depends on the locals that it reads and on no others. -/
theorem expr_congr {ρ ρ' : List (Option α)} {e : Expr}
    (h : ∀ l ∈ e.reads, ρ.getD l none = ρ'.getD l none) : ev.expr ρ e = ev.expr ρ' e := by
  induction e using Expr.induction with
  | node op shape args ih =>
    cases hop : op.local? with
    | some i =>
      rw [Op.local?_eq_some.1 hop, expr_local, expr_local, read, read,
        h i (Expr.mem_reads_node.2 (.inl hop))]
    | none =>
      rw [expr_node ρ hop, expr_node ρ' hop]
      congr 1
      refine List.map_congr_left fun a ha => ih a ha fun l hl => h l ?_
      exact Expr.mem_reads_node.2 (.inr ⟨a, ha, hl⟩)

/-! ## Monotone nodes -/

/-- Better results of the operands give a better result, also in another evaluator. Of the operands
themselves a node sees only whether they can be exponents. -/
def Simulates (ev ev' : Evaluator ε α) : Prop :=
  ∀ {op shape args args' rs rs'}, op.local? = none →
    args.map Expr.exponent? = args'.map Expr.exponent? → List.Forall₂ Refines rs rs' →
    Refines (ev.node op shape args rs) (ev'.node op shape args' rs')

/-- A result needs the results of all operands that are no literals, loads or segments. -/
def Strict (ev : Evaluator ε α) : Prop :=
  ∀ {op shape args v} {f : Expr → Except ε α}, op.Takes args.length →
    ev.node op shape args (args.map f) = .ok v →
    ∀ a ∈ args, a.op.isTrivial = false → ∃ w, f a = .ok w

theorem getD_set_self {ρ : List (Option α)} {i : Nat} (hi : i < ρ.length) (x : Option α) :
    (ρ.set i x).getD i none = x := by
  rw [List.getD_eq_getElem?_getD, List.getElem?_set_self hi, Option.getD_some]

theorem getD_set_ne {ρ : List (Option α)} {i j : Nat} (hij : i ≠ j) (x : Option α) :
    (ρ.set i x).getD j none = ρ.getD j none := by
  rw [List.getD_eq_getElem?_getD, List.getElem?_set_ne hij, ← List.getD_eq_getElem?_getD]

/-- `ρ'` has all the values that `ρ` has. -/
def Above (ρ ρ' : List (Option α)) : Prop :=
  ∀ i v, ρ.getD i none = some v → ρ'.getD i none = some v

theorem Above.refl (ρ : List (Option α)) : Above ρ ρ :=
  fun _ _ h => h

theorem Above.append (ρ ext : List (Option α)) : Above ρ (ρ ++ ext) := by
  intro i v h
  have hi : i < ρ.length := by
    by_contra hge
    rw [List.getD_eq_default _ _ (Nat.not_lt.1 hge)] at h
    cases h
  rw [List.getD_append _ _ _ _ hi, h]

theorem Above.set {ρ ρ' : List (Option α)} (h : Above ρ ρ') (hlen : ρ.length ≤ ρ'.length)
    (i : Nat) (v : α) : Above (ρ.set i (some v)) (ρ'.set i (some v)) := by
  intro j w hj
  by_cases hij : i = j
  · subst hij
    by_cases hlt : i < ρ.length
    · rw [getD_set_self hlt] at hj
      rw [getD_set_self (Nat.lt_of_lt_of_le hlt hlen), hj]
    · rw [List.getD_eq_default _ _ (by rw [List.length_set]; exact Nat.not_lt.1 hlt)] at hj
      cases hj
  · rw [getD_set_ne hij] at hj ⊢
    exact h j w hj

/-- More values in the locals, and a better evaluator, give a better result. -/
theorem Simulates.expr (h : Simulates ev ev') {ρ ρ' : List (Option α)} (hρ : Above ρ ρ')
    (e : Expr) : Refines (ev.expr ρ e) (ev'.expr ρ' e) := by
  induction e using Expr.induction with
  | node op shape args ih =>
    cases hop : op.local? with
    | some i =>
      rw [Op.local?_eq_some.1 hop, expr_local, expr_local]
      intro v hv
      exact read_eq_ok.2 (hρ i v (read_eq_ok.1 hv))
    | none =>
      rw [expr_node ρ hop, expr_node ρ' hop]
      exact h hop rfl (List.forall₂_map_left_iff.2 (List.forall₂_map_right_iff.2
        (List.forall₂_same.2 ih)))

theorem Simulates.stores (h : Simulates ev ev') (ss : List Assign) {ρ ρ' : List (Option α)}
    (hρ : Above ρ ρ') (hlen : ρ.length ≤ ρ'.length) {σ : List (Option α)}
    (hs : ev.stores ρ ss = .ok σ) :
    ∃ σ', ev'.stores ρ' ss = .ok σ' ∧ Above σ σ' := by
  induction ss generalizing ρ ρ' with
  | nil =>
    obtain rfl := Except.ok.inj hs
    exact ⟨ρ', rfl, hρ⟩
  | cons s ss ih =>
    obtain ⟨v, hv, hs⟩ := stores_cons_eq_ok.1 hs
    obtain ⟨σ', hσ', habove⟩ := ih (hρ.set hlen s.target v)
      (by rw [List.length_set, List.length_set]; exact hlen) hs
    exact ⟨σ', stores_cons_eq_ok.2 ⟨v, h.expr hρ s.value v hv, hσ'⟩, habove⟩

/-- A better evaluator gives a better result of a block. -/
theorem Simulates.block (h : Simulates ev ev') (b : Block) :
    Refines (ev.block b) (ev'.block b) := by
  intro v hv
  obtain ⟨ρ, hρ, hv⟩ := bind_eq_ok.1 hv
  obtain ⟨ρ', hρ', habove⟩ := h.stores b.stores (.refl _) (Nat.le_refl _) hρ
  exact bind_eq_ok.2 ⟨ρ', hρ', h.expr habove b.result v hv⟩

end Evaluator

/-- Functions of which each refines the one in its place. -/
def CalleesRefine {ε α : Type} (cs cs' : List (List α → Except ε α)) : Prop :=
  List.Forall₂ (fun c c' => ∀ args, Refines (c args) (c' args)) cs cs'

namespace CalleesRefine

variable {ε α : Type} {cs cs' : List (List α → Except ε α)}

theorem refl (cs : List (List α → Except ε α)) : CalleesRefine cs cs :=
  List.forall₂_same.2 fun _ _ _ => Refines.refl _

theorem get? (h : CalleesRefine cs cs') {i : Nat} {c : List α → Except ε α}
    (hc : cs[i]? = some c) : ∃ c', cs'[i]? = some c' ∧ ∀ args, Refines (c args) (c' args) := by
  obtain ⟨hi, rfl⟩ := List.getElem?_eq_some_iff.1 hc
  have hi' : i < cs'.length := h.length_eq ▸ hi
  exact ⟨cs'[i], List.getElem?_eq_getElem hi', h.get hi hi'⟩

end CalleesRefine

/-! ## Running is an evaluator -/

/-- Equal exponents in the second place. -/
theorem exponent_congr {args args' : List Expr}
    (h : args.map Expr.exponent? = args'.map Expr.exponent?) :
    args[1]?.bind Expr.exponent? = args'[1]?.bind Expr.exponent? := by
  have hjoin : ∀ as : List Expr, as[1]?.bind Expr.exponent? = (as.map Expr.exponent?)[1]?.join := by
    intro as
    rw [List.getElem?_map]
    cases as[1]? <;> rfl
  rw [hjoin, hjoin, h]

namespace Run

/-- The evaluator of runs over given rows, static values and parameters. -/
def evaluator (constants : List Literal) (callees : List Callee) (rows : List (List Element))
    (statics : List Element) (params : List Value) : Evaluator RunFault Value where
  node op _ args results := node constants callees ⟨rows, statics, params, []⟩ op args results
  unset i := .shape (.localUnset i)

variable {constants : List Literal} {callees : List Callee}

/-- Only a read of a local looks at the locals of a frame. -/
theorem node_locals {op : Op} (h : op.local? = none) (rows : List (List Element))
    (statics : List Element) (params : List Value) (locals : List (Option Value))
    (args : List Expr) (rs : List (Except RunFault Value)) :
    node constants callees ⟨rows, statics, params, locals⟩ op args rs
      = node constants callees ⟨rows, statics, params, []⟩ op args rs := by
  cases op with
  | load source index =>
    cases source with
    | «local» => cases h
    | _ => rfl
  | binary bop => cases bop <;> rcases rs with _ | ⟨a, _ | ⟨b, _ | ⟨c, rs⟩⟩⟩ <;> rfl
  | unary uop => rcases rs with _ | ⟨a, _ | ⟨b, rs⟩⟩ <;> rfl
  | get index => rcases rs with _ | ⟨a, _ | ⟨b, rs⟩⟩ <;> rfl
  | slice first last => rcases rs with _ | ⟨a, _ | ⟨b, rs⟩⟩ <;> rfl
  | _ => rfl

theorem expr_eq (f : Frame) (e : Expr) :
    expr constants callees f e
      = (evaluator constants callees f.rows f.statics f.params).expr f.locals e := by
  induction e using Expr.induction with
  | node op shape args ih =>
    rw [expr, Expr.fold_node, ← expr]
    cases hop : op.local? with
    | some i =>
      rw [Op.local?_eq_some.1 hop, Evaluator.expr_local, Evaluator.read]
      show load constants f .local i = _
      unfold load
      cases f.locals.getD i none <;> rfl
    | none =>
      rw [Evaluator.expr_node _ hop, node_locals hop, List.map_congr_left ih]
      rfl

theorem stores_eq (f : Frame) (ss : List Assign) :
    stores constants callees f ss
      = ((evaluator constants callees f.rows f.statics f.params).stores f.locals ss).map
          fun locals => { f with locals } := by
  induction ss generalizing f with
  | nil => rfl
  | cons s ss ih =>
    rw [stores, Evaluator.stores, expr_eq]
    cases (evaluator constants callees f.rows f.statics f.params).expr f.locals s.value with
    | error e => rfl
    | ok v => exact ih _

/-- Running a block is evaluating it. -/
theorem block_eq (rows : List (List Element)) (statics : List Element) (params : List Value)
    (b : Block) :
    block constants callees rows statics params b
      = (evaluator constants callees rows statics params).block b := by
  rw [block, stores_eq, Evaluator.block]
  dsimp only
  cases (evaluator constants callees rows statics params).stores
      (List.replicate b.locals.length none) b.stores with
  | error e => rfl
  | ok locals => exact expr_eq _ _

/-- A run with better callees is better. -/
theorem simulates {cs cs' : List Callee} (h : CalleesRefine cs cs') (rows : List (List Element))
    (statics : List Element) (params : List Value) :
    Evaluator.Simulates (evaluator constants cs rows statics params)
      (evaluator constants cs' rows statics params) := by
  intro op shape args args' rs rs' hop hexp hrs
  show Refines (node constants cs _ op args rs) (node constants cs' _ op args' rs')
  have hexponent : exponent constants args = exponent constants args' := by
    rw [exponent, exponent, exponent_congr hexp]
  cases op with
  | literal value => exact .refl _
  | load source index => exact .refl _
  | segment row first last => exact .refl _
  | binary bop =>
    cases bop with
    | exp =>
      cases hrs with
      | nil => exact .refl _
      | cons ha _ =>
        -- the exponent is looked up, not run, so the second operand does not matter here
        simp only [node, hexponent]
        exact (Refines.refl _).bind fun e => ha.bind fun v => .refl _
    | _ =>
      rcases hrs with _ | ⟨ha, _ | ⟨hb, _ | ⟨hc, hrs⟩⟩⟩
      · exact .refl _
      · exact .refl _
      · exact ha.bind fun v => hb.bind fun w => .refl _
      · exact .refl _
  | unary uop =>
    rcases hrs with _ | ⟨ha, _ | ⟨hb, hrs⟩⟩
    · exact .refl _
    · exact ha.bind fun v => .refl _
    · exact .refl _
  | vector => exact (Refines.mapM hrs).bind fun vs => .refl _
  | matrix widths =>
    refine Refines.bind (Refines.mapM (hrs.imp fun r r' hr => ?_)) fun xs => .refl _
    exact hr.bind fun v => .refl _
  | get index =>
    rcases hrs with _ | ⟨ha, _ | ⟨hb, hrs⟩⟩
    · exact .refl _
    · exact ha.bind fun v => .refl _
    · exact .refl _
  | slice first last =>
    rcases hrs with _ | ⟨ha, _ | ⟨hb, hrs⟩⟩
    · exact .refl _
    · exact ha.bind fun v => .refl _
    · exact .refl _
  | call index =>
    refine (Refines.mapM hrs).bind fun vs => ?_
    intro v hv
    cases hc : cs[index]? with
    | none =>
      rw [hc] at hv
      cases hv
    | some c =>
      obtain ⟨c', hc', hrefines⟩ := h.get? hc
      rw [hc] at hv
      rw [hc']
      exact hrefines vs v hv

/-- An operand in the place of the exponent is a literal or a load. -/
theorem isTrivial_of_exponent {l r : Expr} {e : Nat}
    (h : exponent constants [l, r] = .ok e) : r.op.isTrivial = true := by
  obtain ⟨op, shape, args⟩ := r
  cases op with
  | literal value => rfl
  | load source index => rfl
  | _ => cases h

/-- A run fails when an operand that it needs fails. -/
theorem strict (rows : List (List Element)) (statics : List Element) (params : List Value) :
    (evaluator constants callees rows statics params).Strict := by
  intro op shape args v f htakes hok a ha hnt
  change node constants callees _ op args (args.map f) = .ok v at hok
  -- the operands of an operator with a fixed number of them, by name
  cases op with
  | literal value => rw [htakes.eq_nil rfl] at ha; cases ha
  | load source index => rw [htakes.eq_nil rfl] at ha; cases ha
  | segment row first last => rw [htakes.eq_nil rfl] at ha; cases ha
  | binary bop =>
    obtain ⟨l, r, rfl⟩ := List.length_eq_two.1 htakes
    cases bop with
    | exp =>
      obtain ⟨e, he, hok⟩ := bind_eq_ok.1 hok
      obtain ⟨w, hw, -⟩ := bind_eq_ok.1 hok
      rcases List.mem_cons.1 ha with rfl | ha
      · exact ⟨w, hw⟩
      · -- the exponent is never run, but it is one of the operands that are left out
        rw [List.mem_singleton.1 ha, isTrivial_of_exponent he] at hnt
        cases hnt
    | _ =>
      obtain ⟨w₁, hw₁, hok⟩ := bind_eq_ok.1 hok
      obtain ⟨w₂, hw₂, -⟩ := bind_eq_ok.1 hok
      rcases List.mem_cons.1 ha with rfl | ha
      · exact ⟨w₁, hw₁⟩
      · exact ⟨w₂, List.mem_singleton.1 ha ▸ hw₂⟩
  | unary uop =>
    obtain ⟨x, rfl⟩ := List.length_eq_one_iff.1 htakes
    obtain ⟨w, hw, -⟩ := bind_eq_ok.1 hok
    exact ⟨w, List.mem_singleton.1 ha ▸ hw⟩
  | vector =>
    obtain ⟨ws, hws, -⟩ := bind_eq_ok.1 hok
    obtain ⟨w, -, hw⟩ := ok_of_mem_of_mapM hws (List.mem_map_of_mem ha)
    exact ⟨w, hw⟩
  | matrix widths =>
    obtain ⟨ws, hws, -⟩ := bind_eq_ok.1 hok
    obtain ⟨w, -, hw⟩ := ok_of_mem_of_mapM hws (List.mem_map_of_mem ha)
    obtain ⟨w', hw', -⟩ := bind_eq_ok.1 hw
    exact ⟨w', hw'⟩
  | get index =>
    obtain ⟨x, rfl⟩ := List.length_eq_one_iff.1 htakes
    obtain ⟨w, hw, -⟩ := bind_eq_ok.1 hok
    exact ⟨w, List.mem_singleton.1 ha ▸ hw⟩
  | slice first last =>
    obtain ⟨x, rfl⟩ := List.length_eq_one_iff.1 htakes
    obtain ⟨w, hw, -⟩ := bind_eq_ok.1 hok
    exact ⟨w, List.mem_singleton.1 ha ▸ hw⟩
  | call index =>
    obtain ⟨ws, hws, -⟩ := bind_eq_ok.1 hok
    obtain ⟨w, -, hw⟩ := ok_of_mem_of_mapM hws (List.mem_map_of_mem ha)
    exact ⟨w, hw⟩

end Run

/-! ## Inference is an evaluator -/

namespace Degree.Context

variable {cx : Context}

/-- The evaluator of degrees under given degrees of the parameters. -/
def evaluator (cx : Context) (callees : List Callee) (params : List Degree) :
    Evaluator Fault Degree where
  node op shape args results := do
    let ds ← results.mapM id
    cx.node callees [] params op shape args ds
  unset i := .undefined (.localUnset i) none

/-- Only a read of a local looks at the degrees of the locals. -/
theorem node_locals {op : Op} (h : op.local? = none) (callees : List Callee)
    (locals : List (Option Degree)) (params : List Degree) (shape : Shape) (args : List Expr)
    (ds : List Degree) :
    cx.node callees locals params op shape args ds =
      cx.node callees [] params op shape args ds := by
  cases op with
  | load source index =>
    cases source with
    | «local» => cases h
    | _ => rfl
  | binary bop => cases bop <;> rcases ds with _ | ⟨a, _ | ⟨b, _ | ⟨c, ds⟩⟩⟩ <;> rfl
  | unary uop => cases uop <;> rcases ds with _ | ⟨a, _ | ⟨b, ds⟩⟩ <;> rfl
  | get index => rcases ds with _ | ⟨a, _ | ⟨b, ds⟩⟩ <;> rfl
  | slice first last => rcases ds with _ | ⟨a, _ | ⟨b, ds⟩⟩ <;> rfl
  | _ => rfl

theorem expr_eq (callees : List Callee) (locals : List (Option Degree)) (params : List Degree)
    {e : Expr} (he : e.Sized) :
    cx.expr callees locals params e = (cx.evaluator callees params).expr locals e := by
  induction e using Expr.induction with
  | node op shape args ih =>
    obtain ⟨htakes, hargs⟩ := Expr.sized_node.1 he
    rw [expr, Expr.fold_node, ← expr]
    cases hop : op.local? with
    | some i =>
      obtain rfl := Op.local?_eq_some.1 hop
      obtain rfl := htakes.eq_nil rfl
      rw [Evaluator.expr_local, Evaluator.read, List.map_nil, List.mapM_nil]
      show cx.node callees locals params (.load .local i) shape [] [] = _
      simp only [node]
      cases locals.getD i none <;> rfl
    | none =>
      rw [Evaluator.expr_node _ hop, List.map_congr_left fun a ha => ih a ha (hargs a ha)]
      simp only [node_locals hop callees locals]
      rfl

theorem stores_eq (callees : List Callee) (params : List Degree) {ss : List Assign}
    (hss : ∀ s ∈ ss, s.value.Sized) (locals : List (Option Degree)) :
    cx.stores callees params locals ss = (cx.evaluator callees params).stores locals ss := by
  induction ss generalizing locals with
  | nil => rfl
  | cons s ss ih =>
    rw [stores, Evaluator.stores, expr_eq callees locals params (hss s (List.mem_cons_self ..))]
    congr 1
    funext d
    exact ih (fun t ht => hss t (List.mem_cons_of_mem _ ht)) _

/-- Inferring the degree of a block is evaluating it. -/
theorem block_eq (callees : List Callee) (params : List Degree) {b : Block}
    (hb : ∀ e ∈ b.exprs, e.Sized) :
    cx.block callees params b = (cx.evaluator callees params).block b := by
  have hstores : ∀ s ∈ b.stores, s.value.Sized := fun s hs =>
    hb _ (List.mem_append_left _ (List.mem_map_of_mem hs))
  have hresult : b.result.Sized := hb _ (List.mem_append_right _ (List.mem_singleton.2 rfl))
  rw [block, Evaluator.block, stores_eq callees params hstores]
  congr 1
  funext locals
  exact expr_eq callees locals params hresult

/-- Inference with better callees is better. -/
theorem simulates {cx' : Context} (hconst : cx'.constants = cx.constants)
    (hcost : cx'.inverseCost = cx.inverseCost) {cs cs' : List Callee} (h : CalleesRefine cs cs')
    (params : List Degree) :
    Evaluator.Simulates (cx.evaluator cs params) (cx'.evaluator cs' params) := by
  intro op shape args args' rs rs' hop hexp hrs
  refine Refines.bind (Refines.mapM hrs) fun ds => ?_
  have hexponent : cx'.exponent args' = cx.exponent args := by
    rw [exponent, exponent, exponent_congr hexp, hconst]
  have hinverse : cx'.inverse = cx.inverse := by
    funext d
    rw [inverse, inverse, hcost]
  intro d hd
  -- but for the exponent, the cost of an inverse and the callees, both sides are one expression
  cases op with
  | binary bop =>
    cases bop <;> rcases ds with _ | ⟨a, _ | ⟨b, _ | ⟨c, ds⟩⟩⟩ <;>
      simp only [node, hexponent, hinverse] at hd ⊢ <;> exact hd
  | unary uop =>
    cases uop <;> rcases ds with _ | ⟨a, _ | ⟨b, ds⟩⟩ <;>
      simp only [node, hinverse] at hd ⊢ <;> exact hd
  | call index =>
    simp only [node] at hd ⊢
    cases hc : cs[index]? with
    | none =>
      rw [hc] at hd
      cases hd
    | some c =>
      obtain ⟨c', hc', hrefines⟩ := h.get? hc
      rw [hc] at hd
      rw [hc']
      exact hrefines ds d hd
  | get index => rcases ds with _ | ⟨a, _ | ⟨b, ds⟩⟩ <;> exact hd
  | slice first last => rcases ds with _ | ⟨a, _ | ⟨b, ds⟩⟩ <;> exact hd
  | load source index => cases source <;> exact hd
  | _ => exact hd

/-- Inference fails when an operand fails. -/
theorem strict (callees : List Callee) (params : List Degree) :
    (cx.evaluator callees params).Strict := by
  intro op shape args v f _ hok a ha _
  obtain ⟨ds, hds, -⟩ := bind_eq_ok.1 hok
  obtain ⟨d, -, hd⟩ := ok_of_mem_of_mapM hds (List.mem_map_of_mem ha)
  exact ⟨d, hd⟩

end Degree.Context

end Arithmetization
