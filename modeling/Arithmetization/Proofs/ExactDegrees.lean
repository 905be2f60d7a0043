import Arithmetization.Proofs.BoundedPolynomials
import Arithmetization.Proofs.SharedSchemas

/-!
Inferred degrees are degrees.

Inference charges a fixed cost for a division by something that depends on a register, since the
result is then no polynomial. Where every divisor is constant its result is exact: each element of
the result of a procedure is one polynomial in the registers, whose total degree the inferred degree
bounds, and every run that succeeds has the value of that polynomial. That every divisor is constant
is said by an inference that refuses any other, in functions too, under the degrees of the arguments
of each call (`Degree.Context.DividesByConstants`).
-/

set_option autoImplicit false

namespace Arithmetization

/-- A node with the shape that the rules give it. -/
def Expr.Ruled (Γ : Env) : Expr → Prop
  | .node op shape args => op.local? = none → ∃ shapes, Γ.rule op args shapes = some shape

/-- In a block that checks, every node has the shape that the rules give it. -/
theorem Block.Checks.ruled {Γ : Env} {b : Block} {s : Shape} (hb : b.Checks Γ s) :
    ∀ e ∈ b.exprs, ∀ x ∈ e.subterms, x.Ruled Γ := by
  have hexpr : ∀ (e : Expr) {ρ : List (Option Shape)} {t : Shape}, e.Sized →
      Γ.checker.expr ρ e = .ok t → ∀ x ∈ e.subterms, x.Ruled Γ := by
    intro e
    induction e using Expr.induction with
    | node op shape args ih =>
      intro ρ t he ht x hx
      obtain ⟨htakes, hargs⟩ := Expr.sized_node.1 he
      cases hop : op.local? with
      | some i =>
        -- a read of a local has no operands
        obtain rfl := Op.local?_eq_some.1 hop
        obtain rfl := List.length_eq_zero_iff.1 htakes
        rcases Expr.mem_subterms_node.1 hx with rfl | ⟨a, ha, -⟩
        · exact fun h => (by cases h)
        · cases ha
      | none =>
        rw [Evaluator.expr_node ρ hop] at ht
        obtain ⟨-, shapes, hshapes, hrule⟩ := Env.checker_node_eq_ok.1 ht
        rcases Expr.mem_subterms_node.1 hx with rfl | ⟨a, ha, hx⟩
        · exact fun _ => ⟨shapes, hrule⟩
        · obtain ⟨u, -, hu⟩ := ok_of_mem_of_mapM hshapes (List.mem_map_of_mem ha)
          exact ih a ha (hargs a ha) hu x hx
  intro e he
  obtain ⟨ρ, t, ht⟩ := Evaluator.exists_expr_of_block hb.checks e he
  exact hexpr e (hb.formed.sized e he) ht

namespace Degree

/-! ## Inference that refuses to divide -/

/-- What a node divides by. -/
def divisor? : Op → List Degree → Option Degree
  | .binary .div, [_, b] => some b
  | .unary .inv, [a] => some a
  | _, _ => none

namespace Context

/-- Inference that accepts constant divisors only. -/
def exact (cx : Context) (callees : List Callee) (params : List Degree) :
    Evaluator Fault Degree where
  node op shape args results := do
    let ds ← results.mapM id
    if (divisor? op ds).all isConstant then cx.node callees [] params op shape args ds
    else .error (.shape .degreeShapes none)
  unset i := .undefined (.localUnset i) none

/-- The functions as callees of that inference. -/
def exactCallees (cx : Context) : Nat → List Callee
  | 0 => cx.callees 0
  | depth + 1 => cx.functions.map fun f args =>
    (cx.exact (cx.exactCallees depth) args).block f.body.block

/-- Every division in a body, and in the functions that it calls, is by something of degree zero. -/
def DividesByConstants (cx : Context) (b : Body) : Prop :=
  ∃ d, (cx.exact (cx.exactCallees cx.functions.length) []).block b.block = .ok d

variable {cx : Context}

theorem exact_node_eq_ok {callees : List Callee} {params : List Degree} {op : Op} {shape : Shape}
    {args : List Expr} {results : List (Except Fault Degree)} {d : Degree} :
    (cx.exact callees params).node op shape args results = .ok d ↔
      ∃ ds, results.mapM id = .ok ds ∧ (divisor? op ds).all isConstant = true
        ∧ cx.node callees [] params op shape args ds = .ok d := by
  unfold exact
  dsimp only
  rw [bind_eq_ok]
  constructor
  · rintro ⟨ds, hds, h⟩
    split at h
    · next hdiv => exact ⟨ds, hds, hdiv, h⟩
    · cases h
  · rintro ⟨ds, hds, hdiv, h⟩
    exact ⟨ds, hds, by rw [if_pos hdiv, h]⟩

/-- What this inference accepts, inference accepts with the same degree. -/
theorem exact_simulates {cs cs' : List Callee} (h : CalleesRefine cs cs') (params : List Degree) :
    Evaluator.Simulates (cx.exact cs params) (cx.evaluator cs' params) := by
  intro op shape args args' rs rs' hop hexp hrs
  have hsame : Refines ((cx.exact cs params).node op shape args rs)
      ((cx.evaluator cs params).node op shape args rs) := by
    intro d hd
    obtain ⟨ds, hds, -, hd⟩ := exact_node_eq_ok.1 hd
    exact bind_eq_ok.2 ⟨ds, hds, hd⟩
  exact hsame.trans (simulates rfl rfl h params hop hexp hrs)

theorem exactCallees_refine (h : FunctionsCheck cx.constants cx.functions) (depth : Nat) :
    CalleesRefine (cx.exactCallees depth) (cx.callees depth) := by
  induction depth with
  | zero => exact .refl _
  | succ depth ih =>
    refine List.forall₂_map_left_iff.2 (List.forall₂_map_right_iff.2
      (List.forall₂_same.2 fun f hf args => ?_))
    dsimp only
    rw [block_eq _ args (h.formed hf).sized]
    exact Evaluator.Simulates.block (exact_simulates ih args) f.body.block

/-- The degree that inference finds, found without dividing by anything but constants. -/
theorem DividesByConstants.exact_eq_ok {b : Body} (h : cx.DividesByConstants b)
    (hfunctions : FunctionsCheck cx.constants cx.functions) (hb : b.block.Formed) {d : Degree}
    (hd : cx.body b [] = .ok d) :
    (cx.exact (cx.exactCallees cx.functions.length) []).block b.block = .ok d := by
  obtain ⟨d', hd'⟩ := h
  have hrefines := Evaluator.Simulates.block
    (exact_simulates (exactCallees_refine hfunctions cx.functions.length) []) b.block d' hd'
  rw [← block_eq _ [] hb.sized] at hrefines
  obtain rfl := Except.ok.inj (hrefines.symm.trans hd)
  exact hd'

theorem eq_zero_of_isConstant {d : Degree} (h : isConstant d = true) : ∀ n ∈ d.elements, n = 0 := by
  rw [isConstant, beq_iff_eq, top] at h
  intro n hn
  have hle : n ≤ maxOf d.elements := le_maxOf hn
  omega

/-! ## Nodes -/

variable {σ : Type}

open BoundedPolynomial (eval)

/-- What the runs of a family load and call, in terms of what inference knows of it: rows and static
values are variables, parameters are polynomials of the degrees of the parameters, and a function
takes polynomials to a polynomial. -/
structure Tracks (Γ : Env) (cx : Context) (callees : List Callee) (params : List Degree)
    (runs : List Arithmetization.Callee) (rows : (σ → Element) → List (List Element))
    (statics : (σ → Element) → List Element) (values : (σ → Element) → List Value) : Prop where
  constants_eq : Γ.constants = cx.constants
  proper : ∀ c ∈ cx.constants, c.isProper = true
  trace : ∀ {i s}, Γ.load .trace i = some s → ∃ ps : List σ,
    (Tensor.vector ps).Fits s ∧ ∀ x, (rows x)[i]? = some (ps.map x)
  static : ∀ {i s}, Γ.load .static i = some s → ∃ ps : List σ,
    (Tensor.vector ps).Fits s ∧ ∀ x, statics x = ps.map x
  param : ∀ {i : Nat} {d : Degree}, params[i]? = some d → ∃ t : Tensor (BoundedPolynomial σ),
    t.map BoundedPolynomial.degree = d ∧ ∀ x, (values x)[i]? = some (t.map (eval x))
  call : ∀ {f : Nat} {c c'}, callees[f]? = some c → runs[f]? = some c' →
    ∀ (ts : List (Tensor (BoundedPolynomial σ))) {d},
      c (ts.map (·.map BoundedPolynomial.degree)) = .ok d →
      Runs d fun x => c' (ts.map (·.map (eval x)))

/-- The bounded polynomials behind a step that may depend on them. -/
theorem Runs.bind {a d : Degree} {f : (σ → Element) → Except RunFault Value}
    {k : (σ → Element) → Value → Except RunFault Value} (hf : Runs a f)
    (hk : ∀ t : Tensor (BoundedPolynomial σ), t.map BoundedPolynomial.degree = a →
      Runs d fun x => k x (t.map (eval x))) : Runs d fun x => f x >>= k x := by
  refine Uniform.bind hf fun v hv => ?_
  obtain ⟨t, ht, hv⟩ := hv
  refine (hk t ht).congr fun x => ?_
  rw [hv x]

/-- The bounded polynomials behind the operands of a node. -/
theorem operands_run {ds : List Degree} {gs : List ((σ → Element) → Except RunFault Value)}
    (hgs : List.Forall₂ (fun d g => Runs d g) ds gs) :
    Uniform (fun _ => True)
      (fun vs : (σ → Element) → List Value => ∃ ts : List (Tensor (BoundedPolynomial σ)),
        ts.map (·.map BoundedPolynomial.degree) = ds ∧ ∀ x, vs x = ts.map (·.map (eval x)))
      fun x => (gs.map (· x)).mapM id := by
  have hlist : List.Forall₂ (fun S g => Uniform (fun _ => True) S g) (ds.map Bounds) gs :=
    List.forall₂_map_left_iff.2 hgs
  refine (Uniform.mapM hlist).imp ?_
  rintro vs ⟨ws, hws, hvs⟩
  rw [List.forall₂_map_left_iff] at hws
  have hts : ∃ ts : List (Tensor (BoundedPolynomial σ)),
      ts.map (·.map BoundedPolynomial.degree) = ds
        ∧ ∀ x, ws.map (· x) = ts.map (·.map (eval x)) := by
    clear hvs hlist hgs
    induction hws with
    | nil => exact ⟨[], rfl, fun _ => rfl⟩
    | cons h _ ih =>
      obtain ⟨t, ht, hw⟩ := h
      obtain ⟨ts, hts, hws⟩ := ih
      refine ⟨t :: ts, congrArg₂ _ ht hts, fun x => ?_⟩
      rw [List.map_cons, List.map_cons, hw x, hws x]
  obtain ⟨ts, hts, hmap⟩ := hts
  exact ⟨ts, hts, fun x => (hvs x).trans (hmap x)⟩

/-- A constant, whose elements have degree zero. -/
theorem literal_runs {l : Literal} (h : l.isProper = true) :
    Runs (σ := σ) (zero l.shape) fun _ => .ok (.ofLiteral l) := by
  have hok := Runs.ok (σ := σ) (l.map fun n => .const (.ofNat n))
  simp only [Tensor.map_map, BoundedPolynomial.eval_const] at hok
  have hzero : l.map (fun n => (BoundedPolynomial.const (σ := σ) (.ofNat n)).degree) =
      zero l.shape :=
    Tensor.map_eq_uniform (Tensor.fits_of_isProper h) fun _ _ => rfl
  rwa [hzero] at hok

/-- A vector of variables. -/
theorem vars_run {ps : List σ} {s : Shape} (h : (Tensor.vector ps).Fits s) :
    Runs (.uniform s 1) fun x => .ok (.vector (ps.map x)) := by
  have hok := Runs.ok (.vector (ps.map BoundedPolynomial.var))
  have hfits : (Tensor.vector (ps.map BoundedPolynomial.var)).Fits s :=
    (Tensor.fits_map (f := BoundedPolynomial.var)).2 h
  rw [Tensor.map_eq_uniform hfits (y := 1) (by simp [Tensor.elements, BoundedPolynomial.var])]
    at hok
  simpa only [Tensor.map, List.map_map, Function.comp_def, BoundedPolynomial.eval_var] using hok

variable {Γ : Env} {callees : List Callee} {params : List Degree}
  {runs : List Arithmetization.Callee} {rows : (σ → Element) → List (List Element)}
  {statics : (σ → Element) → List Element} {values : (σ → Element) → List Value}

theorem Tracks.load (h : Tracks Γ cx callees params runs rows statics values) {source : Source}
    {i : Nat} {shape : Shape} (hsource : (Op.load source i).local? = none)
    (hload : Γ.load source i = some shape) {args : List Expr} {ds : List Degree} {d : Degree}
    (hd : cx.node callees [] params (.load source i) shape args ds = .ok d) :
    Runs d fun x => Run.load cx.constants ⟨rows x, statics x, values x, []⟩ source i := by
  cases source with
  | «local» => cases hsource
  | const =>
    obtain rfl := Except.ok.inj hd
    obtain ⟨c, hc, rfl⟩ := Option.map_eq_some_iff.1 hload
    rw [h.constants_eq] at hc
    refine (literal_runs (h.proper c (List.mem_of_getElem? hc))).congr fun x => ?_
    simp only [Run.load, hc]
  | trace =>
    obtain ⟨-, rfl⟩ := filled_eq_ok.1 hd
    obtain ⟨ps, hfits, hrow⟩ := h.trace hload
    refine (vars_run hfits).congr fun x => ?_
    simp only [Run.load, hrow x]
  | static =>
    obtain rfl := Except.ok.inj hd
    obtain ⟨ps, hfits, hrow⟩ := h.static hload
    refine (vars_run hfits).congr fun x => ?_
    simp only [Run.load, hrow x]
  | param =>
    simp only [node] at hd
    cases hparam : params[i]? with
    | none =>
      rw [hparam] at hd
      cases hd
    | some d' =>
      rw [hparam] at hd
      obtain rfl := Except.ok.inj hd
      obtain ⟨t, rfl, ht⟩ := h.param hparam
      refine (Runs.ok t).congr fun x => ?_
      simp only [Run.load, ht x]

theorem Tracks.segment (h : Tracks Γ cx callees params runs rows statics values)
    {row first last : Nat} {s u : Shape} (hrow : Γ.load .trace row = some s)
    (hu : Rule.slice s first last = .ok u) :
    Runs (.uniform u 1)
      fun x => Run.segment ⟨rows x, statics x, values x, []⟩ row first last := by
  obtain ⟨n, rfl, hle, hlt, rfl⟩ := Rule.slice_eq_ok.1 hu
  obtain ⟨ps, hfits, hps⟩ := h.trace hrow
  obtain ⟨qs, hqs, hlen⟩ := hfits.of_vector (Nat.zero_lt_of_lt hlt)
  obtain rfl := Tensor.vector.inj hqs
  have hsegment : (Tensor.vector ((ps.drop first).take (last + 1 - first))).Fits
      (.vector (last - first + 1)) := by
    have hlength : ((ps.drop first).take (last + 1 - first)).length = last - first + 1 := by
      rw [List.length_take, List.length_drop]
      omega
    have hfits := @Tensor.fits_vector _ ((ps.drop first).take (last + 1 - first)) (by omega)
    rwa [hlength] at hfits
  refine (vars_run hsegment).congr fun x => ?_
  rw [Run.segment]
  simp only [hps x, Value.segment?, List.length_map]
  rw [if_pos ⟨hle, by omega⟩, List.map_take, List.map_drop]

/-- The number above a power, which inference cuts off at the cap. -/
theorem exponent_run {args : List Expr} {e : Nat} (h : cx.exponent args = .ok e) :
    ∃ n, e = min n cap ∧ Run.exponent cx.constants args = .ok n := by
  unfold exponent at h
  unfold Run.exponent
  generalize args[1]?.bind Expr.exponent? = above at h ⊢
  rcases above with _ | (n | i)
  · cases h
  · exact ⟨n, (Except.ok.inj h).symm, rfl⟩
  · simp only [Expr.Exponent.value?] at h
    cases hc : cx.constants[i]? with
    | none =>
      rw [hc] at h
      cases h
    | some c =>
      rw [hc, Option.bind_some] at h
      cases hn : c.scalar? with
      | none =>
        rw [hn] at h
        cases h
      | some n =>
        rw [hn] at h
        refine ⟨n, (Except.ok.inj h).symm, ?_⟩
        simp only [hc, hn]

/-- A quotient by a constant. -/
theorem quotient_runs (cx : Context) (p : BoundedPolynomial σ) {q : BoundedPolynomial σ}
    (hq : q.degree = 0) :
    ElementRuns (addCapped p.degree (cx.inverse q.degree))
      fun x => do return eval x p * (← Value.inverse (eval x q)) := by
  have hinverse : cx.inverse q.degree = 0 := by rw [inverse, if_pos hq]
  rw [hinverse]
  refine Uniform.bind (inverse_runs hq) fun w hw => ?_
  obtain ⟨r, hr, rfl⟩ := hw
  refine Uniform.ok ⟨p.mul r, ?_, funext fun x => BoundedPolynomial.eval_mul x p r⟩
  show addCapped p.degree r.degree = _
  rw [hr]

/-- Operators on two values, the power apart. -/
theorem binary_runs {op : BinaryOp} (hop : op ≠ .exp) {t u : Tensor (BoundedPolynomial σ)}
    (hdiv : op = .div → ∀ q ∈ u.elements, q.degree = 0) {shape : Shape} {args : List Expr}
    {d : Degree} (hd : cx.node callees [] params (.binary op) shape args
      [t.map BoundedPolynomial.degree, u.map BoundedPolynomial.degree] = .ok d) :
    Runs d fun x => Run.binary op (t.map (eval x)) (u.map (eval x)) := by
  cases op with
  | exp => exact absurd rfl hop
  | prod => exact product_runs hd
  | add =>
    simp only [Run.binary, Value.add]
    refine zipWith_runs (g := fun y z => .ok (y + z)) (fun p _ q _ => ?_) hd
    simp only [← BoundedPolynomial.eval_add]
    exact ElementRuns.ok (p.add q)
  | sub =>
    simp only [Run.binary, Value.sub]
    refine zipWith_runs (g := fun y z => .ok (y - z)) (fun p _ q _ => ?_) hd
    simp only [← BoundedPolynomial.eval_sub]
    exact ElementRuns.ok (p.sub q)
  | mul =>
    simp only [Run.binary, Value.mul]
    refine zipWith_runs (g := fun y z => .ok (y * z)) (fun p _ q _ => ?_) hd
    simp only [← BoundedPolynomial.eval_mul]
    exact ElementRuns.ok (p.mul q)
  | div =>
    simp only [Run.binary, Value.div]
    exact zipWith_runs (f := fun m n => addCapped m (cx.inverse n))
      (fun p _ q hq => quotient_runs cx p (hdiv rfl q hq)) hd

theorem pow_runs (t : Tensor (BoundedPolynomial σ)) (n : Nat) :
    Runs ((t.map BoundedPolynomial.degree).map (mulCapped · (min n cap)))
      fun x => .ok (Value.pow (t.map (eval x)) n) := by
  have hok := Runs.ok (t.map fun p => p.pow n)
  simp only [Tensor.map_map, BoundedPolynomial.eval_pow] at hok
  simp only [Value.pow, Tensor.map_map]
  exact hok

theorem unary_runs {op : UnaryOp} {t : Tensor (BoundedPolynomial σ)}
    (hinv : op = .inv → ∀ p ∈ t.elements, p.degree = 0) {shape : Shape} {args : List Expr}
    {d : Degree} (hd : cx.node callees [] params (.unary op) shape args
      [t.map BoundedPolynomial.degree] = .ok d) :
    Runs d fun x => Run.unary op (t.map (eval x)) := by
  cases op with
  | neg =>
    obtain rfl := Except.ok.inj hd
    have hok := Runs.ok (t.map fun p => p.neg)
    simp only [Tensor.map_map, BoundedPolynomial.eval_neg] at hok
    simp only [Run.unary, Value.neg, Tensor.map_map]
    exact hok
  | inv =>
    obtain rfl := Except.ok.inj hd
    have helements : ∀ p ∈ t.elements,
        ElementRuns (cx.inverse p.degree) fun x => Value.inverse (eval x p) := by
      intro p hp
      rw [inverse, if_pos (hinv rfl p hp)]
      exact inverse_runs (hinv rfl p hp)
    rw [Tensor.map_map]
    refine (runs_of_elements helements).congr fun x => ?_
    exact Tensor.mapM_map ..

/-- Operands of a matrix have to be scalars. -/
theorem scalars_run {ds : List Degree} {gs : List ((σ → Element) → Except RunFault Value)}
    (hgs : List.Forall₂ (fun d g => Runs d g) ds gs) :
    Uniform (fun _ => True)
      (fun vs : (σ → Element) → List Element => ∃ ps : List (BoundedPolynomial σ),
        ds.flatMap Tensor.elements = ps.map BoundedPolynomial.degree ∧ ∀ x, vs x = ps.map (eval x))
      fun x => (gs.map (· x)).mapM (fun r => r >>= Value.asScalar) := by
  have hscalar : ∀ {d : Degree} {g : (σ → Element) → Except RunFault Value}, Runs d g →
      Uniform (fun _ => True)
        (fun w => ∃ p : BoundedPolynomial σ, d = .scalar p.degree ∧ w = fun x => eval x p)
        fun x => g x >>= Value.asScalar := by
    intro d g hg
    refine Uniform.bind hg fun v hv => ?_
    obtain ⟨t, rfl, hv⟩ := hv
    cases t with
    | scalar p =>
      refine Uniform.congr (Uniform.ok ⟨p, rfl, rfl⟩) fun x => ?_
      rw [hv x]
      rfl
    | vector ps =>
      refine Uniform.congr (Uniform.error (e := .shape (.kind "scalar" "vector")) trivial)
        fun x => ?_
      rw [hv x]
      rfl
    | matrix rows =>
      refine Uniform.congr (Uniform.error (e := .shape (.kind "scalar" "matrix")) trivial)
        fun x => ?_
      rw [hv x]
      rfl
  induction hgs with
  | nil => exact Uniform.ok ⟨[], rfl, fun _ => rfl⟩
  | @cons d g ds gs hg _ ih =>
    have hmap : ∀ x, ((g :: gs).map (· x)).mapM (fun r => r >>= Value.asScalar)
        = ((g x >>= Value.asScalar) >>= fun y =>
          (gs.map (· x)).mapM (fun r => r >>= Value.asScalar) >>= fun ys => pure (y :: ys)) := by
      intro x
      rw [List.map_cons, List.mapM_cons]
    refine Uniform.congr ((hscalar hg).bind fun w hw => ih.bind fun vs hvs => ?_) hmap
    obtain ⟨p, rfl, rfl⟩ := hw
    obtain ⟨ps, hds, hvs⟩ := hvs
    refine Uniform.ok ⟨p :: ps, ?_, fun x => congrArg _ (hvs x)⟩
    rw [List.flatMap_cons, hds]
    rfl

/-- Elements of degree zero, for a degree that is constant. -/
theorem degree_eq_zero {t : Tensor (BoundedPolynomial σ)}
    (h : isConstant (t.map BoundedPolynomial.degree) = true) :
    ∀ p ∈ t.elements, p.degree = 0 := by
  intro p hp
  refine eq_zero_of_isConstant h p.degree ?_
  rw [Tensor.elements_map]
  exact List.mem_map_of_mem hp

/-- Operators on two operands. Only a quotient needs to know that the second is constant. -/
theorem binary_node {op : BinaryOp} {shape : Shape} {args : List Expr} {a b d : Degree}
    {f g : (σ → Element) → Except RunFault Value} (hf : Runs a f) (hg : Runs b g)
    (hdiv : (divisor? (.binary op) [a, b]).all isConstant = true)
    (hd : cx.node callees [] params (.binary op) shape args [a, b] = .ok d)
    (frame : (σ → Element) → Frame) :
    Runs d fun x => Run.node cx.constants runs (frame x) (.binary op) args [f x, g x] := by
  by_cases hexp : op = .exp
  · subst hexp
    obtain ⟨e, he, hd⟩ := bind_eq_ok.1 hd
    obtain rfl := Except.ok.inj hd
    -- a run looks the exponent up, inference cuts it off: the power is of the number itself
    obtain ⟨n, rfl, hn⟩ := exponent_run he
    simp only [Run.node_power hn]
    refine Runs.bind hf fun t ht => ?_
    subst ht
    exact pow_runs t n
  · simp only [Run.node_binary hexp]
    refine Runs.bind hf fun t ht => Runs.bind hg fun u hu => ?_
    subst ht hu
    refine binary_runs hexp (fun hop => ?_) hd
    subst hop
    exact degree_eq_zero hdiv

/-- **Every node.** Inference on degrees and a run on values are one operation on polynomials. -/
theorem Tracks.node (h : Tracks Γ cx callees params runs rows statics values) {op : Op}
    {args : List Expr} {shape : Shape} {shapes : List Shape} {ds : List Degree} {d : Degree}
    {gs : List ((σ → Element) → Except RunFault Value)} (hop : op.local? = none)
    (hrule : Γ.rule op args shapes = some shape)
    (hdiv : (divisor? op ds).all isConstant = true)
    (hd : cx.node callees [] params op shape args ds = .ok d)
    (hgs : List.Forall₂ (fun d g => Runs d g) ds gs) :
    Runs d fun x =>
      Run.node cx.constants runs ⟨rows x, statics x, values x, []⟩ op args (gs.map (· x)) := by
  have hops := operands_run hgs
  cases op with
  | literal value =>
    obtain ⟨-, hproper, rfl⟩ := Env.rule_literal.1 hrule
    obtain rfl := Except.ok.inj hd
    exact literal_runs hproper
  | load source i => exact h.load hop (Env.rule_load.1 hrule).2 hd
  | segment row first last =>
    obtain ⟨-, s, hs, hslice⟩ := Env.rule_segment.1 hrule
    obtain ⟨-, rfl⟩ := filled_eq_ok.1 hd
    exact h.segment hs hslice
  | binary bop =>
    -- inference has no degree for another number of operands than two
    rcases hgs with _ | @⟨a, f, _, _, hf, _ | @⟨b, g, _, _, hg, _ | ⟨-, -⟩⟩⟩
    · cases bop <;> cases hd
    · cases bop <;> cases hd
    · exact binary_node hf hg hdiv hd _
    · cases bop <;> cases hd
  | unary uop =>
    rcases hgs with _ | @⟨a, f, _, _, hf, _ | ⟨-, -⟩⟩
    · cases uop <;> cases hd
    · refine Runs.bind hf fun t ht => ?_
      subst ht
      refine unary_runs (fun huop => ?_) hd
      subst huop
      exact degree_eq_zero hdiv
    · cases uop <;> cases hd
  | vector =>
    obtain rfl := Except.ok.inj hd
    refine Uniform.bind hops fun vs hvs => ?_
    obtain ⟨ts, rfl, hvs⟩ := hvs
    refine (concat_runs ts).congr fun x => ?_
    rw [hvs x]
  | matrix widths =>
    obtain rfl := Except.ok.inj hd
    refine Uniform.bind (scalars_run hgs) fun vs hvs => ?_
    obtain ⟨ps, hds, hvs⟩ := hvs
    have hok := Runs.ok (.matrix (Tensor.chunks widths ps))
    simp only [Tensor.map, ← Tensor.chunks_map] at hok
    rw [hds]
    refine hok.congr fun x => ?_
    rw [hvs x]
    rfl
  | get i =>
    rcases hgs with _ | @⟨a, f, _, _, hf, _ | ⟨-, -⟩⟩
    · cases hd
    · obtain ⟨xs, hxs, hd⟩ := bind_eq_ok.1 hd
      obtain rfl := Except.ok.inj hd
      refine Runs.bind hf fun t ht => ?_
      subst ht
      exact get_runs hxs
    · cases hd
  | slice first last =>
    rcases hgs with _ | @⟨a, f, _, _, hf, _ | ⟨-, -⟩⟩
    · cases hd
    · obtain ⟨xs, hxs, hd⟩ := bind_eq_ok.1 hd
      obtain rfl := Except.ok.inj hd
      refine Runs.bind hf fun t ht => ?_
      subst ht
      exact slice_runs hxs
    · cases hd
  | call f =>
    simp only [Context.node] at hd
    cases hc : callees[f]? with
    | none =>
      rw [hc] at hd
      cases hd
    | some c =>
      rw [hc] at hd
      refine Uniform.bind hops fun vs hvs => ?_
      obtain ⟨ts, rfl, hvs⟩ := hvs
      -- a function without a callee is a fault in every run
      cases hc' : runs[f]? with
      | none => exact Uniform.error (e := RunFault.shape (.function f)) trivial
      | some c' =>
        refine (h.call hc hc' ts hd).congr fun x => ?_
        rw [hvs x]

/-! ## Blocks and functions -/

/-- **A block that divides by constants computes polynomials** of the degrees inferred for it. -/
theorem Tracks.block (h : Tracks Γ cx callees params runs rows statics values) {b : Block}
    {s : Shape} (hb : b.Checks Γ s) {d : Degree} (hd : (cx.exact callees params).block b = .ok d) :
    Runs d fun x => Run.block cx.constants runs (rows x) (statics x) (values x) b := by
  simp only [Run.block_eq]
  have habs : Evaluator.Abstracts (Expr.Ruled Γ) (fun _ => True) (Bounds (σ := σ))
      (cx.exact callees params)
      (fun x => Run.evaluator cx.constants runs (rows x) (statics x) (values x)) := by
    intro op shape args d r fs hop hruled hnode hargs
    obtain ⟨shapes, hrule⟩ := hruled hop
    obtain ⟨ds, hds, hdiv, hd⟩ := exact_node_eq_ok.1 hnode
    rw [mapM_eq_ok, List.forall₂_map_left_iff] at hds
    have hgs : List.Forall₂ (fun d g => Runs d g) ds (args.map fs) := by
      rw [List.forall₂_map_right_iff]
      have hmem := (List.forall₂_and_left args ds).2 ⟨fun a ha => ha, hds⟩
      exact (hmem.imp fun a d ⟨ha, had⟩ => hargs a ha d had).flip
    refine (h.node hop hrule hdiv hd hgs).congr fun x => ?_
    rw [List.map_map]
    rfl
  exact habs.block hb.ruled hd

/-- Callees of the functions up to one are callees of all functions. -/
theorem getElem?_callees_take {constants : List Literal} {bs : List Block} {n k : Nat}
    {c : Arithmetization.Callee} (h : (Run.callees constants (bs.take n))[k]? = some c) :
    (Run.callees constants bs)[k]? = some c := by
  rw [Run.callees_eq] at h ⊢
  have hk : k < n := by
    have hlt := (List.getElem?_eq_some_iff.1 h).1
    rw [length_grow, List.length_take] at hlt
    omega
  rw [← getElem?_grow_take _ hk, h]

/-- **Functions take polynomials to polynomials**, as deep as calls may nest. -/
theorem callees_run (hproper : ∀ c ∈ cx.constants, c.isProper = true)
    (hfunctions : FunctionsCheck cx.constants cx.functions) {depth f : Nat} {c : Callee}
    {c' : Arithmetization.Callee} (hc : (cx.exactCallees depth)[f]? = some c)
    (hc' : (Run.callees cx.constants (cx.functions.map (·.body.block)))[f]? = some c')
    (ts : List (Tensor (BoundedPolynomial σ))) {d : Degree}
    (hd : c (ts.map (·.map BoundedPolynomial.degree)) = .ok d) :
    Runs d fun x => c' (ts.map (·.map (eval x))) := by
  induction depth generalizing f c c' ts d with
  | zero =>
    simp only [exactCallees, Context.callees, List.getElem?_mapIdx] at hc
    obtain ⟨g, -, rfl⟩ := Option.map_eq_some_iff.1 hc
    cases hd
  | succ depth ih =>
    rw [exactCallees, List.getElem?_map] at hc
    obtain ⟨g, hg, rfl⟩ := Option.map_eq_some_iff.1 hc
    have hblock : (cx.functions.map (·.body.block))[f]? = some g.body.block := by
      rw [List.getElem?_map, hg, Option.map_some]
    rw [Run.callees_eq, getElem?_grow _ hblock] at hc'
    obtain rfl := Option.some.inj hc'
    refine Tracks.block (Γ := ⟨cx.constants, (cx.functions.take f).map Function.signature,
      .function g.params, .trap⟩) ⟨rfl, hproper, ?_, ?_, ?_, ?_⟩ (hfunctions f g hg) hd
    · exact fun h => (by cases h)
    · exact fun h => (by cases h)
    · intro i d hi
      rw [List.getElem?_map] at hi
      obtain ⟨t, ht, rfl⟩ := Option.map_eq_some_iff.1 hi
      exact ⟨t, rfl, fun x => by rw [List.getElem?_map, ht, Option.map_some]⟩
    · intro k c c' hc hc'
      exact ih hc (getElem?_callees_take hc')

end Context

end Degree

end Arithmetization
