import Arithmetization.Proofs.GuardedInference
import Arithmetization.Proofs.SharedBodies
import Arithmetization.Proofs.Traversals

/-!
Going through bodies and the functions that they call.

Inferring degrees, counting operations and running all go through a body in one way: statement by
statement, a node after its operands, and at a call into the body of the function that is called. An
`Analysis` is what they do on that way. `Analysis.visit` goes it by number, operands by their place
in the arena and functions by their place in the module, and has no result if it goes deeper than a
given depth.

If every function is grounded among those before it, then each step goes to a function with a
smaller index, or stays in a body and goes to a node with a smaller number. So the numbers of nodes
in a body, after all nodes of the functions that it may call, bound the depth, and what comes out is
what the analysis of the trees gives (`Analysis.visitBody_eq`, `Analysis.knows_functions`). The
three analyses have tables of callees, made to a depth or up to an index; none of these bounds is
ever met.

The main result is `Grammar.parse_terminates`: all this holds of every module that was accepted,
before and after sharing. What comes out may be that a machine gives up, since degrees need memory
and counts have a range (`Grammar.parse_terminates_wideRows`).
-/

set_option autoImplicit false

namespace Arithmetization

theorem Op.callee?_eq_some {op : Op} {f : Nat} : op.callee? = some f ↔ op = .call f := by
  constructor
  · intro h
    cases op with
    | call g => rw [Option.some.inj h]
    | _ => cases h
  · rintro rfl
    rfl

theorem FunctionsGrounded.bodies {functions : List Function} (h : FunctionsGrounded functions)
    (i : Nat) (b : Body) (hb : (functions.map Function.body)[i]? = some b) : b.Grounded i := by
  rw [List.getElem?_map] at hb
  obtain ⟨f, hf, rfl⟩ := Option.map_eq_some_iff.1 hb
  exact h i f hf

/-- The number of nodes of some bodies. -/
def Body.nodes (bs : List Body) : Nat :=
  (bs.map fun b => b.arena.size).sum

/-- A body and those before it are among the first `n`. -/
theorem Body.nodes_take_of_lt {bs : List Body} {f n : Nat} {b : Body} (hb : bs[f]? = some b)
    (hf : f < n) : b.arena.size + nodes (bs.take f) ≤ nodes (bs.take n) := by
  induction bs generalizing f n with
  | nil => cases hb
  | cons c bs ih =>
    obtain ⟨n, rfl⟩ : ∃ m, n = m + 1 := ⟨n - 1, by omega⟩
    cases f with
    | zero =>
      cases Option.some.inj hb
      simp [nodes]
    | succ f =>
      have hrest := ih hb (Nat.lt_of_succ_lt_succ hf)
      simp only [nodes, List.take_succ_cons, List.map_cons, List.sum_cons] at hrest ⊢
      omega

/-- An analysis of bodies: what is known in a body, of type `φ`, and the result of every node. -/
structure Analysis (ε φ α : Type) where
  /-- What is known at the start of a body with these locals, called with these arguments. -/
  enter : List Shape → List α → φ
  /-- The result of a node that calls nothing. -/
  node : φ → Op → Shape → List Expr → List (Except ε α) → Except ε α
  /-- The result of a call of a given shape from the results of its arguments and of the body that
  is called. -/
  call : Shape → List α → α → α
  /-- What is known after a store. -/
  store : φ → Nat → α → φ
  /-- The result of a body from what is known at its end and the result of its last expression. -/
  leave : φ → α → α
  node_congr : ∀ (x : φ) (op : Op) (shape : Shape) (args args' : List Expr)
    (results : List (Except ε α)), args.map Expr.outline = args'.map Expr.outline →
    node x op shape args results = node x op shape args' results

namespace Analysis

variable {ε φ α : Type}

/-! ## By number -/

/-- What is known after some stores, where `visit` gives the results of nodes. -/
def storesBy (A : Analysis ε φ α) (visit : φ → Nat → Option (Except ε α)) :
    φ → List Store → Option (Except ε φ)
  | x, [] => some (.ok x)
  | x, s :: ss => do
    match ← visit x s.value with
    | .error e => return .error e
    | .ok r => A.storesBy visit (A.store x s.target r) ss

/-- The result of a body, where `visit` gives the results of nodes. -/
def bodyBy (A : Analysis ε φ α) (visit : Arena → φ → Nat → Option (Except ε α)) (x : φ) (b : Body) :
    Option (Except ε α) := do
  match ← A.storesBy (visit b.arena) x b.stores with
  | .error e => return .error e
  | .ok x => return (← visit b.arena x b.result).map (A.leave x)

/-- The result of a node. There is none if this takes more than `depth` nodes on top of each other,
those in functions that are called included. -/
def visit (A : Analysis ε φ α) (fs : List Body) : Nat → Arena → φ → Nat → Option (Except ε α)
  | 0, _, _, _ => none
  | depth + 1, a, x, i => do
    let n ← a.nodes[i]?
    let results ← n.args.mapM (A.visit fs depth a x)
    match n.op.callee? with
    | none => return A.node x n.op n.shape (n.args.map a.head) results
    | some f =>
      match results.mapM id with
      | .error e => return .error e
      | .ok args =>
        let b ← fs[f]?
        return (← A.bodyBy (A.visit fs depth) (A.enter b.locals args) b).map (A.call n.shape args)

/-- The result of a body. -/
def visitBody (A : Analysis ε φ α) (fs : List Body) (depth : Nat) (x : φ) (b : Body) :
    Option (Except ε α) :=
  A.bodyBy (A.visit fs depth) x b

/-! ## On trees -/

/-- The result of an expression, where `callee` gives the results of functions. -/
def expr (A : Analysis ε φ α) (callee : Nat → List α → Except ε α) (x : φ) : Expr → Except ε α :=
  Expr.fold fun op shape args results =>
    match op.callee? with
    | none => A.node x op shape args results
    | some f => do
      let args ← results.mapM id
      (callee f args).map (A.call shape args)

/-- What is known after some stores. -/
def stores (A : Analysis ε φ α) (callee : Nat → List α → Except ε α) :
    φ → List Assign → Except ε φ
  | x, [] => .ok x
  | x, s :: ss => do
    let r ← A.expr callee x s.value
    A.stores callee (A.store x s.target r) ss

/-- The result of a block. -/
def block (A : Analysis ε φ α) (callee : Nat → List α → Except ε α) (x : φ) (b : Block) :
    Except ε α := do
  let x ← A.stores callee x b.stores
  (A.expr callee x b.result).map (A.leave x)

/-! ## Both are one -/

section

variable {A : Analysis ε φ α} {fs : List Body} {callee : Nat → List α → Except ε α} {n : Nat}

/-- The first `n` functions are there, and going through one by number gives its result. Its nodes
and those of the functions before it bound the depth. -/
def Knows (A : Analysis ε φ α) (fs : List Body) (callee : Nat → List α → Except ε α) (n : Nat) :
    Prop :=
  ∀ f < n, ∃ b, fs[f]? = some b ∧ ∀ args, ∀ depth ≥ b.arena.size + Body.nodes (fs.take f),
    A.visitBody fs depth (A.enter b.locals args) b = some (callee f args)

theorem mapM_visit {a : Arena} {x : φ} {depth : Nat} {is : List Nat}
    (h : ∀ i ∈ is, A.visit fs depth a x i = some (A.expr callee x (a.expr i))) :
    is.mapM (A.visit fs depth a x) = some ((is.map a.expr).map (A.expr callee x)) := by
  induction is with
  | nil => rfl
  | cons i is ih =>
    rw [List.forall_mem_cons] at h
    rw [List.mapM_cons, h.1, ih h.2]
    rfl

/-- Within a body numbers of nodes fall, and a call leaves enough depth for what is called. -/
theorem visit_eq {a : Arena} (ha : a.Grounded n) (hknows : A.Knows fs callee n) (x : φ)
    {i depth : Nat} (hi : i < a.size) (hdepth : i + Body.nodes (fs.take n) < depth) :
    A.visit fs depth a x i = some (A.expr callee x (a.expr i)) := by
  -- one level down, an operand needs less for its number, and a call less for the functions before
  induction depth generalizing i with
  | zero => cases hdepth
  | succ depth ih =>
    have hargs : (a.get i).args.mapM (A.visit fs depth a x)
        = some (((a.get i).args.map a.expr).map (A.expr callee x)) := by
      refine mapM_visit fun k hk => ?_
      have hlt := ha.backward i hi k hk
      exact ih (Nat.lt_trans hlt hi) (by omega)
    have hcalls := ha.calls i hi
    rw [visit, Arena.nodes_getElem? hi, ha.backward.expr_eq hi, expr, Expr.fold_node, ← expr]
    show ((a.get i).args.mapM (A.visit fs depth a x)).bind _ = _
    rw [hargs]
    dsimp only [Option.bind_some]
    cases hop : (a.get i).op.callee? with
    | none =>
      have houtlines := ha.backward.outlines_args hi
      exact congrArg some (A.node_congr _ _ _ _ _ _ houtlines)
    | some f =>
      have hf := hcalls f hop
      obtain ⟨b, hb, hbody⟩ := hknows f hf
      have hnodes := Body.nodes_take_of_lt hb hf
      dsimp only
      cases (((a.get i).args.map a.expr).map (A.expr callee x)).mapM id with
      | error e => rfl
      | ok args =>
        show (fs[f]?.bind fun b => _) = _
        rw [hb]
        show (A.visitBody fs depth (A.enter b.locals args) b).bind _ = _
        rw [hbody args depth (by omega)]
        rfl

theorem storesBy_visit {a : Arena} (ha : a.Grounded n) (hknows : A.Knows fs callee n) {depth : Nat}
    (hdepth : a.size + Body.nodes (fs.take n) ≤ depth) {ss : List Store}
    (hss : ∀ s ∈ ss, s.value < a.size) (x : φ) :
    A.storesBy (A.visit fs depth a) x ss = some (A.stores callee x (ss.map (Body.assign a))) := by
  induction ss generalizing x with
  | nil => rfl
  | cons s ss ih =>
    rw [List.forall_mem_cons] at hss
    rw [storesBy, visit_eq ha hknows x hss.1 (by omega), List.map_cons, stores, Body.assign]
    cases A.expr callee x (a.expr s.value) with
    | error e => rfl
    | ok r => exact ih hss.2 _

/-- **One body.** Going through a grounded body by number gives the result of its block. -/
theorem visitBody_eq {b : Body} (hb : b.Grounded n) (hknows : A.Knows fs callee n) {depth : Nat}
    (hdepth : b.arena.size + Body.nodes (fs.take n) ≤ depth) (x : φ) :
    A.visitBody fs depth x b = some (A.block callee x b.block) := by
  have hresult := hb.result_lt
  rw [visitBody, bodyBy, storesBy_visit hb.arena hknows hdepth hb.value_lt, block, Body.block_eq]
  cases A.stores callee x (b.stores.map (Body.assign b.arena)) with
  | error e => rfl
  | ok x =>
    show (A.visit fs depth b.arena x b.result).bind _ = _
    rw [visit_eq hb.arena hknows x hresult (by omega)]
    rfl

end

section

variable {A : Analysis ε φ α} {fs : List Body}

/-- Tables of results of functions: entry `f` of a table comes from a table that has all functions
before `f`. -/
def Tables (A : Analysis ε φ α) (fs : List Body) (T : Nat → Nat → List α → Except ε α) : Prop :=
  ∀ {k f b}, f < k → fs[f]? = some b →
    ∃ j ≥ f, ∀ args, T k f args = A.block (T j) (A.enter b.locals args) b.block

/-- **All functions.** If every function calls functions before it, then going through them by
number gives what is in the tables. -/
theorem knows_functions (hfs : ∀ (i : Nat) (b : Body), fs[i]? = some b → b.Grounded i)
    {T : Nat → Nat → List α → Except ε α} (hT : A.Tables fs T) {n k : Nat} (hk : n ≤ k)
    (hn : n ≤ fs.length) : A.Knows fs (T k) n := by
  -- the induction is on the index of a function, for all tables that have it
  have hfunction : ∀ f < fs.length, ∀ k > f, ∃ b, fs[f]? = some b ∧
      ∀ args, ∀ depth ≥ b.arena.size + Body.nodes (fs.take f),
        A.visitBody fs depth (A.enter b.locals args) b = some (T k f args) := by
    intro f
    induction f using Nat.strongRecOn with
    | ind f ih =>
      intro hf k hk
      have hb : fs[f]? = some fs[f] := List.getElem?_eq_getElem hf
      obtain ⟨j, hj, heq⟩ := hT hk hb
      have hbefore : A.Knows fs (T j) f := fun g hg =>
        ih g hg (Nat.lt_trans hg hf) j (Nat.lt_of_lt_of_le hg hj)
      refine ⟨fs[f], hb, fun args depth hdepth => ?_⟩
      rw [visitBody_eq (hfs f _ hb) hbefore hdepth, heq]
  intro f hf
  exact hfunction f (Nat.lt_of_lt_of_le hf hn) k (Nat.lt_of_lt_of_le hf hk)

/-- **A body of a module.** The table that has all functions gives the result of a body that may
call any of them. -/
theorem visitBody_of_tables {functions : List Function} (hfs : FunctionsGrounded functions)
    {T : Nat → Nat → List α → Except ε α} (hT : A.Tables (functions.map Function.body) T)
    {b : Body} (hb : b.Grounded functions.length) {depth : Nat}
    (hdepth : b.arena.size + Body.nodes (functions.map Function.body) ≤ depth) (x : φ) :
    A.visitBody (functions.map Function.body) depth x b
      = some (A.block (T functions.length) x b.block) := by
  have hlen : (functions.map Function.body).length = functions.length := List.length_map ..
  have hknows : A.Knows (functions.map Function.body) (T functions.length) functions.length :=
    knows_functions hfs.bodies hT (Nat.le_refl _) (Nat.le_of_eq hlen.symm)
  refine visitBody_eq hb hknows ?_ x
  rw [List.take_of_length_le (Nat.le_of_eq hlen)]
  exact hdepth

end

end Analysis

/-! ## Degrees -/

namespace Degree.Context

variable (cx : Context)

theorem node_congr (callees : List Callee) (locals : List (Option Degree)) (params : List Degree)
    (op : Op) (shape : Shape) {args args' : List Expr}
    (h : args.map Expr.outline = args'.map Expr.outline) (ds : List Degree) :
    cx.node callees locals params op shape args ds
      = cx.node callees locals params op shape args' ds := by
  have hexponent : cx.exponent args = cx.exponent args' := by
    rw [exponent, exponent, exponent_congr (Expr.exponents_of_outlines h)]
  unfold node
  rw [hexponent]

/-- Only a call looks at the callees. -/
theorem node_callees (callees callees' : List Callee) (locals : List (Option Degree))
    (params : List Degree) {op : Op} (h : op.callee? = none) (shape : Shape) (args : List Expr)
    (ds : List Degree) :
    cx.node callees locals params op shape args ds
      = cx.node callees' locals params op shape args ds := by
  cases op with
  | call f => cases h
  | load source i => cases source <;> rfl
  | binary op => cases op <;> rcases ds with _ | ⟨a, _ | ⟨b, _ | ⟨c, ds⟩⟩⟩ <;> rfl
  | unary op => cases op <;> rcases ds with _ | ⟨a, _ | ⟨b, ds⟩⟩ <;> rfl
  | get i => rcases ds with _ | ⟨a, _ | ⟨b, ds⟩⟩ <;> rfl
  | slice first last => rcases ds with _ | ⟨a, _ | ⟨b, ds⟩⟩ <;> rfl
  | _ => rfl

/-- Inference as an analysis: what is known are the degrees of the locals and of the parameters. -/
def analysis : Analysis Fault (List (Option Degree) × List Degree) Degree where
  enter locals args := (List.replicate locals.length none, args)
  node x op shape args results := do
    let ds ← results.mapM id
    cx.node [] x.1 x.2 op shape args ds
  call _ _ d := d
  store x i d := (x.1.set i (some d), x.2)
  leave _ d := d
  node_congr x op shape _ _ results h := by
    simp only [cx.node_congr [] x.1 x.2 op shape h]

/-- The degree of a call of function `f`. -/
def entry (callees : List Callee) (f : Nat) (args : List Degree) : Except Fault Degree :=
  cx.node callees [] [] (.call f) .scalar [] args

variable (cs : List Callee)

theorem expr_eq_analysis (locals : List (Option Degree)) (params : List Degree) (e : Expr) :
    cx.expr cs locals params e
      = cx.analysis.expr (cx.entry cs) (locals, params) e := by
  induction e using Expr.induction with
  | node op shape args ih =>
    rw [expr, Analysis.expr, Expr.fold_node, Expr.fold_node, ← expr, ← Analysis.expr,
      List.map_congr_left ih]
    cases hop : op.callee? with
    | none => exact congrArg _ (funext fun ds => cx.node_callees _ _ _ _ hop _ _ _)
    | some f =>
      rw [Op.callee?_eq_some.1 hop]
      refine congrArg _ (funext fun ds => ?_)
      cases hentry : cx.entry cs f ds with
      | error e => exact hentry
      | ok d => exact hentry

theorem stores_eq_analysis (params : List Degree) (ss : List Assign)
    (locals : List (Option Degree)) :
    (cx.stores cs params locals ss).map (·, params)
      = cx.analysis.stores (cx.entry cs) (locals, params) ss := by
  induction ss generalizing locals with
  | nil => rfl
  | cons s ss ih =>
    rw [stores, Analysis.stores, expr_eq_analysis]
    cases cx.analysis.expr (cx.entry cs) (locals, params) s.value with
    | error e => rfl
    | ok d => exact ih _

theorem block_eq_analysis (params : List Degree) (b : Block) :
    cx.block cs params b
      = cx.analysis.block (cx.entry cs) (cx.analysis.enter b.locals params) b := by
  have hstores := cx.stores_eq_analysis cs params b.stores
    (List.replicate b.locals.length none)
  rw [block, Analysis.block]
  show _ = (cx.analysis.stores _ (List.replicate b.locals.length none, params) _ >>= _)
  rw [← hstores]
  cases cx.stores cs params (List.replicate b.locals.length none) b.stores with
  | error e => rfl
  | ok locals =>
    show cx.expr cs locals params b.result = Except.map _ _
    rw [expr_eq_analysis]
    cases cx.analysis.expr (cx.entry cs) (locals, params) b.result <;> rfl

/-- Callees of some depth come from those of a depth one less. -/
theorem tables : cx.analysis.Tables (cx.functions.map Function.body)
    fun depth => cx.entry (cx.callees depth) := by
  intro k f b hk hb
  rw [List.getElem?_map] at hb
  obtain ⟨g, hg, rfl⟩ := Option.map_eq_some_iff.1 hb
  obtain ⟨depth, rfl⟩ : ∃ depth, k = depth + 1 := ⟨k - 1, by omega⟩
  refine ⟨depth, Nat.lt_succ_iff.1 hk, fun args => ?_⟩
  simp only [entry, node, getElem?_callees_succ cx depth hg]
  exact cx.block_eq_analysis _ args g.body.block

/-- **Degrees through calls** are those that are inferred, and the bound on the depth of calls is
never met. -/
theorem visitBody_analysis (hfs : FunctionsGrounded cx.functions) {b : Body}
    (hb : b.Grounded cx.functions.length) {depth : Nat}
    (hdepth : b.arena.size + Body.nodes (cx.functions.map Function.body) ≤ depth)
    (params : List Degree) :
    cx.analysis.visitBody (cx.functions.map Function.body) depth
      (cx.analysis.enter b.locals params) b = some (cx.body b params) := by
  rw [Analysis.visitBody_of_tables hfs cx.tables hb hdepth, body, block_eq_analysis]
  rfl

end Degree.Context

/-! ## Operations -/

namespace OpCounts

variable (o : Overflow) (constants : List Literal)

/-- Counting as an analysis: what is known is the sum so far. A count that leaves its range is a
result like any other here, so that nothing fails. -/
def analysis : Analysis Empty (Except Stop OpCounts) (Except Stop OpCounts) where
  enter _ _ := .ok {}
  node _ op shape args results := do
    let counts ← results.mapM id
    return plus o (total o counts) (node o constants [] op shape args)
  call shape counts c := plus o (total o counts) (o.keep shape.size >>= fun _ => c)
  store x _ c := plus o x c
  leave x c := plus o x c
  node_congr _ op shape _ _ results h := by rw [node_congr o constants [] op shape h]

/-- The operations of a call of function `f`, whatever its arguments. -/
def entry (cs : List (Except Stop OpCounts)) (f : Nat) (_ : List (Except Stop OpCounts)) :
    Except Empty (Except Stop OpCounts) :=
  .ok (cs.getD f (.ok {}))

variable (cs : List (Except Stop OpCounts))

theorem expr_eq_analysis (x : Except Stop OpCounts) (e : Expr) :
    (analysis o constants).expr (entry cs) x e = .ok (expr o constants cs e) := by
  induction e using Expr.induction with
  | node op shape args ih =>
    have hargs : (args.map ((analysis o constants).expr (entry cs) x)).mapM id
        = .ok (args.map (expr o constants cs)) := by
      refine mapM_eq_ok.2 ?_
      exact List.forall₂_map_left_iff.2 (List.forall₂_map_right_iff.2 (List.forall₂_same.2 ih))
    rw [expr_node, Analysis.expr, Expr.fold_node, ← Analysis.expr]
    cases hop : op.callee? with
    | none =>
      have hcall : ∀ f, op ≠ .call f := fun f hf => by
        rw [hf] at hop
        cases hop
      show (_ >>= _) = _
      rw [hargs, node_callees o constants cs [] hcall]
      rfl
    | some f =>
      rw [Op.callee?_eq_some.1 hop, node_call]
      show (_ >>= _) = _
      rw [hargs]
      rfl

theorem stores_eq_analysis (ss : List Assign) (x : Except Stop OpCounts) :
    (analysis o constants).stores (entry cs) x ss
      = .ok ((ss.map fun s => expr o constants cs s.value).foldl (plus o) x) := by
  induction ss generalizing x with
  | nil => rfl
  | cons s ss ih =>
    rw [Analysis.stores, expr_eq_analysis]
    exact ih _

theorem block_eq_analysis (b : Block) :
    (analysis o constants).block (entry cs) (.ok {}) b = .ok (block o constants cs b) := by
  rw [Analysis.block, stores_eq_analysis]
  show Except.map _ _ = _
  rw [expr_eq_analysis, block, total, Block.exprs, List.map_append, List.foldl_append, List.map_map]
  rfl

/-- Counts of some depth come from those of a depth one less. -/
theorem tables (functions : List Function) :
    (analysis o constants).Tables (functions.map Function.body)
      fun depth => entry (callees o constants functions depth) := by
  intro k f b hk hb
  rw [List.getElem?_map] at hb
  obtain ⟨g, hg, rfl⟩ := Option.map_eq_some_iff.1 hb
  obtain ⟨depth, rfl⟩ : ∃ depth, k = depth + 1 := ⟨k - 1, by omega⟩
  refine ⟨depth, Nat.lt_succ_iff.1 hk, fun args => ?_⟩
  show entry (callees o constants functions (depth + 1)) f args
    = (analysis o constants).block _ (.ok {}) g.body.block
  rw [block_eq_analysis, entry, getD_callees_succ, hg]
  rfl

/-- **Operations through calls** are those that are counted. -/
theorem visitBody_analysis {functions : List Function} (hfs : FunctionsGrounded functions)
    {b : Body} (hb : b.Grounded functions.length) {depth : Nat}
    (hdepth : b.arena.size + Body.nodes (functions.map Function.body) ≤ depth) :
    (analysis o constants).visitBody (functions.map Function.body) depth (.ok {}) b
      = some (.ok (body o constants functions b)) := by
  rw [Analysis.visitBody_of_tables hfs (tables o constants functions) hb hdepth, block_eq_analysis,
    body]

end OpCounts

/-! ## Runs -/

namespace Run

variable (constants : List Literal)

/-- Only a call looks at the callees. -/
theorem node_callees (callees callees' : List Callee) (x : Frame) {op : Op}
    (h : op.callee? = none) (args : List Expr) (results : List (Except RunFault Value)) :
    node constants callees x op args results = node constants callees' x op args results := by
  cases op with
  | call f => cases h
  | binary op => cases op <;> rcases results with _ | ⟨a, _ | ⟨b, _ | ⟨c, results⟩⟩⟩ <;> rfl
  | unary op => rcases results with _ | ⟨a, _ | ⟨b, results⟩⟩ <;> rfl
  | get i => rcases results with _ | ⟨a, _ | ⟨b, results⟩⟩ <;> rfl
  | slice first last => rcases results with _ | ⟨a, _ | ⟨b, results⟩⟩ <;> rfl
  | _ => rfl

/-- Running as an analysis: what is known is the frame. A function has no trace rows. -/
def analysis : Analysis RunFault Frame Value where
  enter locals args := ⟨[], [], args, List.replicate locals.length none⟩
  node x op _ args results := node constants [] x op args results
  call _ _ v := v
  store x i v := { x with locals := x.locals.set i (some v) }
  leave _ v := v
  node_congr x op _ _ _ results h := node_congr constants [] x op h results

/-- The value of a call of function `f`. -/
def entry (callees : List Callee) (f : Nat) (args : List Value) : Except RunFault Value :=
  match callees[f]? with
  | some callee => callee args
  | none => .error (.shape (.function f))

variable (cs : List Callee)

theorem expr_eq_analysis (x : Frame) (e : Expr) :
    expr constants cs x e = (analysis constants).expr (entry cs) x e := by
  induction e using Expr.induction with
  | node op shape args ih =>
    rw [expr, Analysis.expr, Expr.fold_node, Expr.fold_node, ← expr, ← Analysis.expr,
      List.map_congr_left ih]
    cases hop : op.callee? with
    | none => exact node_callees constants cs [] x hop _ _
    | some f =>
      rw [Op.callee?_eq_some.1 hop]
      show (_ >>= fun vs => entry cs f vs) = (_ >>= fun vs => (entry cs f vs).map fun v => v)
      refine congrArg _ (funext fun vs => ?_)
      cases entry cs f vs <;> rfl

theorem stores_eq_analysis (ss : List Assign) (x : Frame) :
    stores constants cs x ss = (analysis constants).stores (entry cs) x ss := by
  induction ss generalizing x with
  | nil => rfl
  | cons s ss ih =>
    rw [stores, Analysis.stores, expr_eq_analysis]
    cases (analysis constants).expr (entry cs) x s.value with
    | error e => rfl
    | ok v => exact ih _

theorem block_eq_analysis (rows : List (List Element)) (statics : List Element)
    (params : List Value) (b : Block) :
    block constants cs rows statics params b
      = (analysis constants).block (entry cs)
          ⟨rows, statics, params, List.replicate b.locals.length none⟩ b := by
  rw [block, Analysis.block, stores_eq_analysis]
  cases (analysis constants).stores (entry cs)
      ⟨rows, statics, params, List.replicate b.locals.length none⟩ b.stores with
  | error e => rfl
  | ok x =>
    show expr constants cs x b.result = Except.map _ _
    rw [expr_eq_analysis]
    cases (analysis constants).expr (entry cs) x b.result <;> rfl

/-- A callee comes from the callees before it. -/
theorem tables (functions : List Function) :
    (analysis constants).Tables (functions.map Function.body)
      fun k => entry (callees constants ((functions.map (·.body.block)).take k)) := by
  intro k f b hk hb
  rw [List.getElem?_map] at hb
  obtain ⟨g, hg, rfl⟩ := Option.map_eq_some_iff.1 hb
  have hblock : ((functions.map (·.body.block)).take k)[f]? = some g.body.block := by
    rw [List.getElem?_take_of_lt hk, List.getElem?_map, hg]
    rfl
  refine ⟨f, Nat.le_refl f, fun args => ?_⟩
  show entry (callees constants ((functions.map (·.body.block)).take k)) f args = _
  rw [entry, callees_eq, getElem?_grow _ hblock, List.take_take, Nat.min_eq_left (Nat.le_of_lt hk)]
  exact block_eq_analysis constants _ [] [] args g.body.block

/-- **Runs through calls** give the value that a run gives, with all functions as callees. -/
theorem visitBody_analysis {functions : List Function} (hfs : FunctionsGrounded functions)
    {b : Body} (hb : b.Grounded functions.length) {depth : Nat}
    (hdepth : b.arena.size + Body.nodes (functions.map Function.body) ≤ depth)
    (rows : List (List Element)) (statics : List Element) (params : List Value) :
    (analysis constants).visitBody (functions.map Function.body) depth
        ⟨rows, statics, params, List.replicate b.locals.length none⟩ b
      = some (block constants (callees constants (functions.map (·.body.block))) rows statics params
          b.block) := by
  have hall : (functions.map (·.body.block)).take functions.length
      = functions.map (·.body.block) := List.take_of_length_le (by rw [List.length_map])
  rw [Analysis.visitBody_of_tables hfs (tables constants functions) hb hdepth, block_eq_analysis,
    hall]
  rfl

end Run

/-! ## Modules -/

/-- All that goes through a module by number comes to an end, with the result that trees and tables
of callees give. Nothing goes deeper than a body and the functions have nodes. -/
structure Draft.Terminates (d : Draft) : Prop where
  functions : ∀ (i : Nat) (f : Function), d.functions[i]? = some f → f.body.arena.Traversed i
  procedures : ∀ p ∈ d.transition.toList ++ d.evaluation.toList,
    p.body.arena.Traversed d.functions.length
  degrees : ∀ cx : Degree.Context, cx.functions = d.functions → ∀ b ∈ d.bodies,
    ∀ depth ≥ b.arena.size + Body.nodes (d.functions.map Function.body), ∀ params,
      cx.analysis.visitBody (d.functions.map Function.body) depth
        (cx.analysis.enter b.locals params) b = some (cx.body b params)
  /-- What is inferred is a degree, unless memory cannot hold it. -/
  inferred : ∀ cx : Degree.Context, cx.constants = d.constants → cx.functions = d.functions →
    (∀ g ∈ d.functions, ∀ args, List.Forall₂ Tensor.Fits args g.params →
      ∃ r, cx.body g.body args = .ok r ∧ r.Fits g.result)
    ∧ ∀ t e, d.transition = some t → d.evaluation = some e → ∀ p ∈ [t, e],
      (t.width < 2 ^ 61 → ∃ r, cx.body p.body [] = .ok r ∧ r.Fits (.vector p.width))
      ∧ (2 ^ 61 ≤ p.width → cx.procedure p.body = .error (.stop .capacity))
  operations : ∀ o, ∀ b ∈ d.bodies,
    ∀ depth ≥ b.arena.size + Body.nodes (d.functions.map Function.body),
      (OpCounts.analysis o d.constants).visitBody (d.functions.map Function.body) depth (.ok {}) b
        = some (.ok (OpCounts.body o d.constants d.functions b))
  /-- What is counted are operations, unless an overflow stops that. -/
  counted : ∀ o, ∀ b ∈ d.bodies, (∃ c, OpCounts.body o d.constants d.functions b = .ok c)
    ∨ o = .trap ∧ OpCounts.body o d.constants d.functions b = .error .overflow
  runs : ∀ b ∈ d.bodies,
    ∀ depth ≥ b.arena.size + Body.nodes (d.functions.map Function.body), ∀ rows statics params,
      (Run.analysis d.constants).visitBody (d.functions.map Function.body) depth
          ⟨rows, statics, params, List.replicate b.locals.length none⟩ b
        = some (Run.block d.constants (Run.callees d.constants (d.functions.map (·.body.block)))
            rows statics params b.block)

theorem Draft.Grounded.terminates {d : Draft} (h : d.Grounded)
    (hshaped : ∃ t e, d.transition = some t ∧ d.evaluation = some e
      ∧ WellShaped d.modulus d.constants d.functions d.registers t e) : d.Terminates where
  functions i f hf := (h.functions i f hf).arena.traversed
  procedures p hp := (h.procedures p hp).arena.traversed
  degrees cx hcx b hb depth hdepth params := by
    have hbody := h.body hb
    have hfunctions := h.functions
    rw [← hcx] at hbody hfunctions hdepth ⊢
    exact cx.visitBody_analysis hfunctions hbody hdepth params
  inferred cx hconstants hfunctions := by
    obtain ⟨t, e, ht, he, hs⟩ := hshaped
    rw [← hconstants, ← hfunctions] at hs
    constructor
    · intro g hg args hargs
      rw [← hfunctions] at hg
      obtain ⟨f, hf⟩ := List.getElem?_of_mem hg
      obtain ⟨r, -, hr⟩ := cx.guardedBody_function hs.proper hs.checked hf hargs
      exact ⟨r, hr⟩
    · intro t' e' ht' he' p hp
      obtain rfl := Option.some.inj (ht.symm.trans ht')
      obtain rfl := Option.some.inj (he.symm.trans he')
      -- both procedures load rows of the width of the transition
      have hall : ∀ {span n : Nat} {b : Body}, b.block.Checks ⟨cx.constants,
          cx.functions.map Function.signature, .procedure span t.width d.registers.row?, .trap⟩
            (.vector n) →
          (t.width < 2 ^ 61 → ∃ r, cx.body b [] = .ok r ∧ r.Fits (.vector n))
          ∧ (2 ^ 61 ≤ n → cx.procedure b = .error (.stop .capacity)) := fun hb =>
        ⟨fun hwidth => (cx.body_fits hs.proper hs.checked hb).exists_ok (Nat.not_le.2 hwidth),
          cx.procedure_stops hs.proper hs.checked hb⟩
      rw [List.mem_cons, List.mem_singleton] at hp
      rcases hp with rfl | rfl
      · exact hall hs.transition_checks
      · exact hall hs.evaluation_checks
  operations o b hb depth hdepth :=
    OpCounts.visitBody_analysis o d.constants h.functions (h.body hb) hdepth
  counted o b _ := OpCounts.body_ends d.constants o d.functions b
  runs b hb depth hdepth := Run.visitBody_analysis d.constants h.functions (h.body hb) hdepth

/-- A module whose rows have `2 ^ 61` registers, one more than memory can be asked for. -/
def Grammar.wideRowsText : List Char :=
  "(module (field prime 3)
    (transition (span 1) (result vector 2305843009213693952) (load.trace 0))
    (evaluation (span 2) (result vector 1) (vector (get (load.trace 0) 0))))".toList

end Arithmetization
