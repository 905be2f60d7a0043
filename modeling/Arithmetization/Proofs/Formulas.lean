import Arithmetization.Proofs.ProcedurePolynomials

/-!
Elements as formulas.

Each element of the result of a body is computed from registers by additions, multiplications,
divisions and powers of single elements. Reading the body with formulas for values shows how: a read
of a local becomes the formulas that were stored, a call those of the body of the function, and
vectors that are built and taken apart leave nothing behind (`Formula.body`).

What inference finds for the elements are the degrees of these formulas (`Formula.body_reaches`).
There are formulas also where inference is stopped by rows that are too wide (`Formula.body_fits`).
-/

set_option autoImplicit false

namespace Arithmetization

/-- A scalar computed from registers. -/
inductive Formula where
  | number (n : Nat)
  | place (p : Place)
  | add (a b : Formula)
  | sub (a b : Formula)
  | mul (a b : Formula)
  | div (a b : Formula)
  | neg (a : Formula)
  | inv (a : Formula)
  | pow (a : Formula) (n : Nat)
deriving DecidableEq

namespace Formula

/-- The degree of a formula; an inverse of something that depends on a register costs `cost`. -/
def degree (cost : Nat) : Formula → Nat
  | .number _ => 0
  | .place _ => 1
  | .add a b => max (a.degree cost) (b.degree cost)
  | .sub a b => max (a.degree cost) (b.degree cost)
  | .mul a b => Degree.addCapped (a.degree cost) (b.degree cost)
  | .div a b => Degree.addCapped (a.degree cost) (if b.degree cost = 0 then 0 else cost)
  | .neg a => a.degree cost
  | .inv a => if a.degree cost = 0 then 0 else cost
  | .pow a n => Degree.mulCapped (a.degree cost) (min n Degree.cap)

/-- The value of a formula, given those of the registers; a run that succeeds never asks for the
inverse of zero. -/
def value (x : Place → Element) : Formula → Element
  | .number n => .ofNat n
  | .place p => x p
  | .add a b => a.value x + b.value x
  | .sub a b => a.value x - b.value x
  | .mul a b => a.value x * b.value x
  | .div a b => a.value x * (b.value x).inv
  | .neg a => -a.value x
  | .inv a => (a.value x).inv
  | .pow a n => (a.value x).pow n

section Equations

variable (cost : Nat) (x : Place → Element) (a b : Formula) (n : Nat)

@[simp] theorem degree_add : (add a b).degree cost = max (a.degree cost) (b.degree cost) := rfl

@[simp] theorem degree_sub : (sub a b).degree cost = max (a.degree cost) (b.degree cost) := rfl

@[simp] theorem degree_mul :
    (mul a b).degree cost = Degree.addCapped (a.degree cost) (b.degree cost) := rfl

@[simp] theorem degree_div :
    (div a b).degree cost
      = Degree.addCapped (a.degree cost) (if b.degree cost = 0 then 0 else cost) := rfl

@[simp] theorem degree_neg : (neg a).degree cost = a.degree cost := rfl

@[simp] theorem degree_inv : (inv a).degree cost = if a.degree cost = 0 then 0 else cost := rfl

@[simp] theorem degree_pow :
    (pow a n).degree cost = Degree.mulCapped (a.degree cost) (min n Degree.cap) := rfl

@[simp] theorem value_add : (add a b).value x = a.value x + b.value x := rfl

@[simp] theorem value_sub : (sub a b).value x = a.value x - b.value x := rfl

@[simp] theorem value_mul : (mul a b).value x = a.value x * b.value x := rfl

@[simp] theorem value_div : (div a b).value x = a.value x * (b.value x).inv := rfl

@[simp] theorem value_neg : (neg a).value x = -a.value x := rfl

@[simp] theorem value_inv : (inv a).value x = (a.value x).inv := rfl

@[simp] theorem value_pow : (pow a n).value x = (a.value x).pow n := rfl

end Equations

/-! ## Reading a body -/

/-- The formulas of the result of a function from those of its arguments. -/
abbrev Callee := List (Tensor Formula) → Except Fault (Tensor Formula)

/-- Combine formulas element by element. -/
def zipWith (f : Formula → Formula → Formula) (a b : Tensor Formula) :
    Except Fault (Tensor Formula) :=
  match Tensor.align a b with
  | some pairs => .ok (pairs.map fun (x, y) => f x y)
  | none => .error (.shape .degreeShapes none)

/-- A sum of products. -/
def dot (xs ys : List Formula) : Formula :=
  (xs.zip ys).foldl (fun acc (x, y) => .add acc (.mul x y)) (.number 0)

theorem dot_eq (xs ys : List Formula) :
    dot xs ys = (xs.zip ys).foldl (fun acc xy => .add acc (.mul xy.1 xy.2)) (.number 0) := rfl

/-- The product of vectors and matrices. -/
def product : Tensor Formula → Tensor Formula → Except Fault (Tensor Formula)
  | .vector xs, .vector ys => .ok (.scalar (dot xs ys))
  | .matrix rows, .vector ys => .ok (.vector (rows.map (dot · ys)))
  | .matrix rows, .matrix cols =>
    let width := (cols.head?.map List.length).getD 0
    .ok (.matrix (rows.map fun row =>
      (List.range width).map fun j => dot row (cols.map (·.getD j (.number 0)))))
  | _, _ => .error (.shape .degreeProduct none)

/-- The formulas of a node from those of its operands. -/
def node (constants : List Literal) (callees : List Callee) (params : List (Tensor Formula))
    (op : Op) (shape : Shape) (args : List Expr) (ts : List (Tensor Formula)) :
    Except Fault (Tensor Formula) :=
  match op, ts with
  | .literal value, _ => .ok (value.map .number)
  | .load .const i, _ =>
    match constants[i]? with
    | some c => .ok (c.map .number)
    | none => .error (.undefined (.const i) none)
  | .load .trace row, _ => .ok (.vector ((Place.row shape.rows row).map .place))
  | .load .static _, _ => .ok (.vector ((Place.statics shape.rows).map .place))
  | .load .param i, _ =>
    match params[i]? with
    | some t => .ok t
    | none => .error (.undefined (.paramUnbound i) none)
  | .segment row first last, _ =>
    .ok (.vector ((List.range' first (last + 1 - first)).map fun c => .place (.trace row c)))
  | .binary .add, [a, b] => zipWith .add a b
  | .binary .sub, [a, b] => zipWith .sub a b
  | .binary .mul, [a, b] => zipWith .mul a b
  | .binary .div, [a, b] => zipWith .div a b
  | .binary .exp, [a, _] =>
    match (args[1]?.bind Expr.exponent?).bind (·.value? constants) with
    | some n => .ok (a.map (.pow · n))
    | none => .error (.shape .exponent none)
  | .binary .prod, [a, b] => product a b
  | .unary .neg, [a] => .ok (a.map .neg)
  | .unary .inv, [a] => .ok (a.map .inv)
  | .vector, ts => .ok (.vector (ts.flatMap Tensor.elements))
  | .matrix widths, ts => .ok (.matrix (Tensor.chunks widths (ts.flatMap Tensor.elements)))
  | .get i, [.vector xs] => .ok (.scalar (xs.getD i (.number 0)))
  | .slice first last, [.vector xs] => .ok (.vector ((xs.drop first).take (last + 1 - first)))
  | .call f, ts =>
    match callees[f]? with
    | some callee => callee ts
    | none => .error (.undefined (.functionUndeclared f) none)
  | _, _ => .error (.shape .degreeShapes none)

/-- Reading with formulas for values, as an evaluator. -/
def evaluator (constants : List Literal) (callees : List Callee) (params : List (Tensor Formula)) :
    Evaluator Fault (Tensor Formula) where
  node op shape args results := do
    let ts ← results.mapM id
    node constants callees params op shape args ts
  unset i := .undefined (.localUnset i) none

/-- One more function, which sees those before it. -/
def callee (constants : List Literal) (earlier : List Callee) (f : Function) : Callee :=
  fun args => (evaluator constants earlier args).block f.body.block

/-- The formulas of the functions. -/
def callees (constants : List Literal) (functions : List Function) : List Callee :=
  grow (callee constants) functions

/-- The formulas of the elements of the result of a body. -/
def body (constants : List Literal) (functions : List Function) (b : Body) :
    Except Fault (Tensor Formula) :=
  (evaluator constants (callees constants functions) []).block b.block

/-! ## Degrees -/

variable {cost : Nat}

/-- Reading ends with formulas of the degrees `d`. -/
def Reaches (cost : Nat) (d : Degree) (r : Except Fault (Tensor Formula)) : Prop :=
  ∃ t, r = .ok t ∧ t.map (degree cost) = d

theorem Reaches.ok (t : Tensor Formula) : Reaches cost (t.map (degree cost)) (.ok t) :=
  ⟨t, rfl, rfl⟩

/-- Formulas have the shape of their degrees. -/
theorem Reaches.fits {d : Degree} {r : Except Fault (Tensor Formula)} {s : Shape}
    (h : Reaches cost d r) (hd : d.Fits s) : ∃ t, r = .ok t ∧ t.Fits s := by
  obtain ⟨t, ht, rfl⟩ := h
  exact ⟨t, ht, Tensor.fits_map.1 hd⟩

/-- Degrees are combined where formulas are. -/
theorem zipWith_reaches {f : Formula → Formula → Formula} {g : Nat → Nat → Nat}
    (hfg : ∀ x y, (f x y).degree cost = g (x.degree cost) (y.degree cost)) {t u : Tensor Formula}
    {d : Degree} (hd : Degree.zipWith g (t.map (degree cost)) (u.map (degree cost)) = .ok d) :
    Reaches cost d (zipWith f t u) := by
  unfold Degree.zipWith at hd
  unfold zipWith
  rw [Tensor.align_map] at hd
  cases hp : Tensor.align t u with
  | none =>
    rw [hp] at hd
    cases hd
  | some p =>
    rw [hp] at hd
    obtain rfl := Except.ok.inj hd
    refine ⟨_, rfl, ?_⟩
    rw [Tensor.map_map, Tensor.map_map]
    simp only [hfg]
    rfl

theorem degree_dot (xs ys : List Formula) :
    (dot xs ys).degree cost = Degree.dot (xs.map (degree cost)) (ys.map (degree cost)) := by
  -- the sum so far is carried along, and its degree with it
  have hstep : ∀ (pairs : List (Formula × Formula)) (acc : Formula),
      (pairs.foldl (fun acc xy => .add acc (.mul xy.1 xy.2)) acc).degree cost
        = (pairs.map fun xy => Degree.addCapped (xy.1.degree cost) (xy.2.degree cost)).foldl max
          (acc.degree cost) := by
    intro pairs
    induction pairs with
    | nil => exact fun acc => rfl
    | cons xy pairs ih =>
      intro acc
      rw [List.foldl_cons, ih]
      rfl
  rw [dot_eq, hstep, Degree.dot, Degree.maxOf, List.zipWith_map, List.zip_eq_zipWith,
    List.map_zipWith]
  rfl

theorem product_reaches {t u : Tensor Formula} {d : Degree}
    (hd : Degree.product (t.map (degree cost)) (u.map (degree cost)) = .ok d) :
    Reaches cost d (product t u) := by
  have hdot (xs ys : List Formula) : Degree.dot (xs.map (degree cost)) (ys.map (degree cost)) =
      (dot xs ys).degree cost := (degree_dot xs ys).symm
  cases t with
  | scalar x => cases hd
  | vector xs =>
    cases u with
    | scalar y => cases hd
    | matrix rows => cases hd
    | vector ys =>
      obtain rfl := Except.ok.inj hd
      rw [hdot]
      exact Reaches.ok (.scalar (dot xs ys))
  | matrix rows =>
    cases u with
    | scalar y => cases hd
    | vector ys =>
      obtain rfl := Except.ok.inj hd
      refine ⟨_, rfl, ?_⟩
      simp only [Tensor.map, List.map_map, Function.comp_def, hdot]
    | matrix cols =>
      obtain rfl := Except.ok.inj hd
      have hwidth : ((cols.map (·.map (degree cost))).head?.map List.length).getD 0
          = (cols.head?.map List.length).getD 0 := by
        cases cols <;> simp
      -- an entry that is missing is the number zero
      have hentry (row : List Formula) (j : Nat) : Degree.dot (row.map (degree cost))
          (cols.map fun col => (col.map (degree cost)).getD j 0)
            = (dot row (cols.map (·.getD j (.number 0)))).degree cost := by
        rw [degree_dot, List.map_map]
        congr 1
        refine List.map_congr_left fun col _ => ?_
        exact List.getD_map (l := col) (n := j) (d := .number 0) (degree cost)
      refine ⟨_, rfl, ?_⟩
      simp only [Tensor.map, List.map_map, Function.comp_def, hwidth, hentry]

/-- What formulas are read from, compared with what inference knows. -/
structure Matches (Γ : Env) (cx : Degree.Context) (callees : List Degree.Callee)
    (callees' : List Callee) (params : List (Tensor Formula)) : Prop where
  constants_eq : Γ.constants = cx.constants
  proper : ∀ c ∈ cx.constants, c.isProper = true
  trace : ∀ {i s}, Γ.load .trace i = some s → s.isVector = true
  static : ∀ {i s}, Γ.load .static i = some s → s.isVector = true
  call : ∀ {f : Nat} {signature : Signature} {c : Degree.Callee},
    Γ.signatures[f]? = some signature → callees[f]? = some c →
    ∃ c', callees'[f]? = some c' ∧ ∀ (ts : List (Tensor Formula)) {d : Degree},
      c (ts.map (·.map (degree cx.inverseCost))) = .ok d → Reaches cx.inverseCost d (c' ts)

variable {Γ : Env} {cx : Degree.Context} {cs : List Degree.Callee} {cs' : List Callee}
  {params : List (Tensor Formula)}

/-- Numbers have degree zero. -/
theorem number_reaches {l : Literal} (h : l.isProper = true) :
    Reaches cost (Degree.zero l.shape) (.ok (l.map .number)) := by
  refine ⟨_, rfl, ?_⟩
  rw [Tensor.map_map]
  exact Tensor.map_eq_uniform (Tensor.fits_of_isProper h) fun _ _ => rfl

/-- Registers have degree one. -/
theorem places_reach {ps : List Place} {s : Shape} (hs : s.isVector = true)
    (hlen : ps.length = s.rows) :
    Reaches cost (.uniform s 1) (.ok (.vector (ps.map .place))) := by
  obtain ⟨n, hn, rfl⟩ := (Shape.isVector_iff s).1 hs
  have hlen' : ps.length = n := hlen
  have hfits : (Tensor.vector ps).Fits (.vector n) := ⟨by omega, by rw [hlen']⟩
  refine ⟨_, rfl, ?_⟩
  rw [← Tensor.map_eq_uniform (f := fun p => (place p).degree cost) hfits fun _ _ => rfl]
  simp only [Tensor.map, List.map_map, Function.comp_def]

theorem Matches.isVector_row (h : Matches Γ cx cs cs' params) {op : Op} {args : List Expr}
    {shape : Shape} {shapes : List Shape} (hrow : op.loadsRow = true)
    (hrule : Γ.rule op args shapes = some shape) : shape.isVector = true := by
  cases op with
  | load source i =>
    cases source with
    | trace => exact h.trace (Env.rule_load.1 hrule).2
    | _ => cases hrow
  | segment row first last =>
    obtain ⟨-, s, -, hslice⟩ := Env.rule_segment.1 hrule
    obtain ⟨n, -, -, -, rfl⟩ := Rule.slice_eq_ok.1 hslice
    exact (Shape.isVector_iff _).2 ⟨_, Nat.succ_pos _, rfl⟩
  | _ => cases hrow

/-- Rows have the formulas of their registers, however wide they are. -/
theorem Matches.row (h : Matches Γ cx cs cs' params) {op : Op} {args : List Expr} {shape : Shape}
    {shapes : List Shape} (hrow : op.loadsRow = true) (hrule : Γ.rule op args shapes = some shape)
    (ts : List (Tensor Formula)) :
    Reaches cx.inverseCost (.uniform shape 1)
      (Formula.node cx.constants cs' params op shape args ts) := by
  have hvector := h.isVector_row hrow hrule
  cases op with
  | load source i =>
    cases source with
    | trace => exact places_reach hvector (by simp [Place.row])
    | _ => cases hrow
  | segment row first last =>
    obtain ⟨-, s, -, hslice⟩ := Env.rule_segment.1 hrule
    obtain ⟨n, -, hle, -, rfl⟩ := Rule.slice_eq_ok.1 hslice
    have hlen : ((List.range' first (last + 1 - first)).map (Place.trace row)).length
        = (Shape.vector (last - first + 1)).rows := by
      rw [List.length_map, List.length_range']
      exact (by omega : last + 1 - first = last - first + 1)
    have hreaches := @places_reach cx.inverseCost _ _ hvector hlen
    rwa [List.map_map] at hreaches
  | _ => cases hrow

/-- The degree of a row, if memory can hold it. -/
theorem node_row {op : Op} (hrow : op.loadsRow = true) {shape : Shape} {args : List Expr}
    {ps ds : List Degree} {d : Degree} (hd : cx.node cs [] ps op shape args ds = .ok d) :
    d = .uniform shape 1 := by
  cases op with
  | load source i =>
    cases source with
    | trace => exact (Degree.filled_eq_ok.1 hd).2
    | _ => cases hrow
  | segment row first last => exact (Degree.filled_eq_ok.1 hd).2
  | _ => cases hrow

theorem Matches.load (h : Matches Γ cx cs cs' params) {source : Source} {i : Nat} {shape : Shape}
    (hsource : (Op.load source i).local? = none) (hrow : (Op.load source i).loadsRow = false)
    (hload : Γ.load source i = some shape)
    {args : List Expr} {ds : List Degree} (ts : List (Tensor Formula)) {d : Degree}
    (hd : cx.node cs [] (params.map (·.map (degree cx.inverseCost))) (.load source i) shape args ds
      = .ok d) :
    Reaches cx.inverseCost d (node cx.constants cs' params (.load source i) shape args ts) := by
  cases source with
  | «local» => cases hsource
  | const =>
    obtain rfl := Except.ok.inj hd
    obtain ⟨c, hc, rfl⟩ := Option.map_eq_some_iff.1 hload
    rw [h.constants_eq] at hc
    simp only [node, hc]
    exact number_reaches (h.proper c (List.mem_of_getElem? hc))
  | trace => cases hrow
  | static =>
    obtain rfl := Except.ok.inj hd
    exact places_reach (h.static hload) (by simp [Place.statics])
  | param =>
    simp only [Degree.Context.node, List.getElem?_map] at hd
    cases hi : params[i]? with
    | none =>
      rw [hi] at hd
      cases hd
    | some t =>
      rw [hi] at hd
      obtain rfl := Except.ok.inj hd
      simp only [node, hi]
      exact Reaches.ok t

/-- Powers, whose exponent inference cuts off at the cap. -/
theorem power_reaches {args : List Expr} {t : Tensor Formula} {e : Nat}
    (he : cx.exponent args = .ok e) :
    Reaches cost ((t.map (degree cost)).map (Degree.mulCapped · e))
      (match (args[1]?.bind Expr.exponent?).bind (·.value? cx.constants) with
        | some n => .ok (t.map (.pow · n))
        | none => .error (.shape .exponent none)) := by
  unfold Degree.Context.exponent at he
  generalize args[1]?.bind Expr.exponent? = above at he ⊢
  cases above with
  | none => cases he
  | some x =>
    dsimp only at he
    rw [Option.bind_some]
    cases hn : x.value? cx.constants with
    | none =>
      rw [hn] at he
      cases he
    | some n =>
      rw [hn] at he
      obtain rfl := Except.ok.inj he
      refine ⟨_, rfl, ?_⟩
      rw [Tensor.map_map, Tensor.map_map]
      rfl

theorem binary_reaches {op : BinaryOp} {ds : List Degree} {args : List Expr} {shape : Shape}
    {t u : Tensor Formula} {d : Degree}
    (hd : cx.node cs [] ds (.binary op) shape args
      [t.map (degree cx.inverseCost), u.map (degree cx.inverseCost)] = .ok d) :
    Reaches cx.inverseCost d (node cx.constants cs' params (.binary op) shape args [t, u]) := by
  cases op with
  | add => exact zipWith_reaches (fun _ _ => rfl) hd
  | sub => exact zipWith_reaches (fun _ _ => rfl) hd
  | mul => exact zipWith_reaches (fun _ _ => rfl) hd
  | div =>
    exact zipWith_reaches (g := fun x y => Degree.addCapped x (cx.inverse y)) (fun _ _ => rfl) hd
  | prod => exact product_reaches hd
  | exp =>
    obtain ⟨e, he, hd⟩ := bind_eq_ok.1 hd
    obtain rfl := Except.ok.inj hd
    exact power_reaches he

theorem unary_reaches {op : UnaryOp} {ds : List Degree} {args : List Expr} {shape : Shape}
    {t : Tensor Formula} {d : Degree}
    (hd : cx.node cs [] ds (.unary op) shape args [t.map (degree cx.inverseCost)] = .ok d) :
    Reaches cx.inverseCost d (node cx.constants cs' params (.unary op) shape args [t]) := by
  cases op with
  | neg =>
    obtain rfl := Except.ok.inj hd
    refine ⟨_, rfl, ?_⟩
    rw [Tensor.map_map]
    rfl
  | inv =>
    obtain rfl := Except.ok.inj hd
    refine ⟨_, rfl, ?_⟩
    rw [Tensor.map_map, Tensor.map_map]
    rfl

theorem get_reaches {i : Nat} {ds : List Degree} {args : List Expr} {shape : Shape}
    {t : Tensor Formula} {d : Degree}
    (hd : cx.node cs [] ds (.get i) shape args [t.map (degree cx.inverseCost)] = .ok d) :
    Reaches cx.inverseCost d (node cx.constants cs' params (.get i) shape args [t]) := by
  cases t with
  | scalar x => cases hd
  | matrix rows => cases hd
  | vector xs =>
    obtain rfl := Except.ok.inj hd
    refine ⟨_, rfl, ?_⟩
    exact congrArg Tensor.scalar
      (List.getD_map (l := xs) (n := i) (d := .number 0) (degree cx.inverseCost)).symm

theorem slice_reaches {first last : Nat} {ds : List Degree} {args : List Expr} {shape : Shape}
    {t : Tensor Formula} {d : Degree}
    (hd : cx.node cs [] ds (.slice first last) shape args [t.map (degree cx.inverseCost)]
      = .ok d) :
    Reaches cx.inverseCost d (node cx.constants cs' params (.slice first last) shape args [t]) := by
  cases t with
  | scalar x => cases hd
  | matrix rows => cases hd
  | vector xs =>
    obtain rfl := Except.ok.inj hd
    refine ⟨_, rfl, ?_⟩
    rw [Tensor.map, List.map_take, List.map_drop]

/-- **Every node.** Inference computes the degrees of the formulas of a node. -/
theorem Matches.node (h : Matches Γ cx cs cs' params) {op : Op} {args : List Expr} {shape : Shape}
    {shapes : List Shape} (hop : op.local? = none) (hrule : Γ.rule op args shapes = some shape)
    {ts : List (Tensor Formula)} {d : Degree}
    (hd : cx.node cs [] (params.map (·.map (degree cx.inverseCost))) op shape args
      (ts.map (·.map (degree cx.inverseCost))) = .ok d) :
    Reaches cx.inverseCost d (Formula.node cx.constants cs' params op shape args ts) := by
  cases hrow : op.loadsRow with
  | true =>
    obtain rfl := node_row hrow hd
    exact h.row hrow hrule ts
  | false =>
  cases op with
  | literal value =>
    obtain ⟨-, hproper, rfl⟩ := Env.rule_literal.1 hrule
    obtain rfl := Except.ok.inj hd
    exact number_reaches hproper
  | load source i => exact h.load hop hrow (Env.rule_load.1 hrule).2 ts hd
  | segment row first last => cases hrow
  | binary op =>
    -- inference has no degree for another number of operands than two
    rcases ts with _ | ⟨t, _ | ⟨u, _ | ⟨v, ts⟩⟩⟩
    · cases op <;> cases hd
    · cases op <;> cases hd
    · exact binary_reaches hd
    · cases op <;> cases hd
  | unary op =>
    rcases ts with _ | ⟨t, _ | ⟨u, ts⟩⟩
    · cases op <;> cases hd
    · exact unary_reaches hd
    · cases op <;> cases hd
  | vector =>
    obtain rfl := Except.ok.inj hd
    refine ⟨_, rfl, ?_⟩
    rw [Tensor.map, List.map_flatMap, List.flatMap_map]
    simp only [Tensor.elements_map]
  | matrix widths =>
    obtain rfl := Except.ok.inj hd
    refine ⟨_, rfl, ?_⟩
    rw [Tensor.map, ← Tensor.chunks_map, List.map_flatMap, List.flatMap_map]
    simp only [Tensor.elements_map]
  | get i =>
    rcases ts with _ | ⟨t, _ | ⟨u, ts⟩⟩
    · cases hd
    · exact get_reaches hd
    · cases hd
  | slice first last =>
    rcases ts with _ | ⟨t, _ | ⟨u, ts⟩⟩
    · cases hd
    · exact slice_reaches hd
    · cases hd
  | call f =>
    obtain ⟨signature, hsignature, -, -⟩ := Env.rule_call.1 hrule
    simp only [Degree.Context.node] at hd
    cases hc : cs[f]? with
    | none =>
      rw [hc] at hd
      cases hd
    | some c =>
      rw [hc] at hd
      obtain ⟨c', hc', hcall⟩ := h.call hsignature hc
      simp only [Formula.node, hc']
      exact hcall ts hd

/-- Operands that all have formulas of the degrees that inference found. -/
theorem operands_reach {args : List Expr} {r : Expr → Except Fault Degree}
    {fs : Expr → Except Fault (Tensor Formula)} {ds : List Degree}
    (hds : (args.map r).mapM id = .ok ds)
    (hargs : ∀ x ∈ args, ∀ d, r x = .ok d → Reaches cost d (fs x)) :
    ∃ ts, (args.map fs).mapM id = .ok ts ∧ ts.map (·.map (degree cost)) = ds := by
  rw [mapM_eq_ok, List.forall₂_map_left_iff] at hds
  induction hds with
  | nil => exact ⟨[], rfl, rfl⟩
  | @cons x d xs ds hx _ ih =>
    rw [List.forall_mem_cons] at hargs
    obtain ⟨t, ht, rfl⟩ := hargs.1 d hx
    obtain ⟨ts, hts, rfl⟩ := ih hargs.2
    refine ⟨t :: ts, ?_, rfl⟩
    rw [mapM_eq_ok] at hts ⊢
    exact .cons ht hts

/-- **Inference computes the degrees of the formulas of a block.** -/
theorem Matches.block (h : Matches Γ cx cs cs' params) {b : Block} {s : Shape} (hb : b.Checks Γ s)
    {d : Degree} (hd : cx.block cs (params.map (·.map (degree cx.inverseCost))) b = .ok d) :
    Reaches cx.inverseCost d ((evaluator cx.constants cs' params).block b) := by
  rw [Degree.Context.block_eq cs _ hb.formed.sized] at hd
  have habs : Evaluator.Abstracts (Expr.Ruled Γ) (fun _ : Fault => False)
      (fun (d : Degree) (t : Unit → Tensor Formula) => (t ()).map (degree cx.inverseCost) = d)
      (cx.evaluator cs (params.map (·.map (degree cx.inverseCost))))
      (fun _ => evaluator cx.constants cs' params) := by
    intro op shape args d r fs hop hruled hnode hargs
    obtain ⟨shapes, hrule⟩ := hruled hop
    obtain ⟨ds, hds, hd⟩ := bind_eq_ok.1 hnode
    have hreach : ∀ x ∈ args, ∀ d, r x = .ok d → Reaches cx.inverseCost d (fs x ()) := by
      intro x hx d hd
      rcases hargs x hx d hd with ⟨t, hdegree, ht⟩ | ⟨-, hfalse, -⟩
      · exact ⟨t (), ht (), hdegree⟩
      · cases hfalse
    obtain ⟨ts, hts, rfl⟩ := operands_reach hds hreach
    obtain ⟨t, ht, hdegree⟩ := h.node hop hrule hd
    exact .inl ⟨fun _ => t, hdegree, fun _ => bind_eq_ok.2 ⟨ts, hts, ht⟩⟩
  rcases habs.block hb.ruled hd with ⟨t, hdegree, ht⟩ | ⟨-, hfalse, -⟩
  · exact ⟨t (), ht (), hdegree⟩
  · cases hfalse

/-- A node has formulas of its shape. Only rows stop inference, and every other node has formulas
since it has degrees. -/
theorem Matches.node_fits {wide : Prop} (h : Matches Γ cx cs cs' params)
    (hfits : cx.Fits wide Γ cs (params.map (·.map (degree cx.inverseCost)))) {op : Op}
    {args : List Expr} {shape : Shape} {shapes : List Shape} (hop : op.local? = none)
    (hrule : Γ.rule op args shapes = some shape) {ts : List (Tensor Formula)}
    (hts : List.Forall₂ Tensor.Fits ts shapes) :
    ∃ t, Formula.node cx.constants cs' params op shape args ts = .ok t ∧ t.Fits shape := by
  cases hrow : op.loadsRow with
  | true =>
    obtain ⟨n, -, rfl⟩ := (Shape.isVector_iff shape).1 (h.isVector_row hrow hrule)
    exact (h.row hrow hrule ts).fits (Tensor.fits_uniform (fun _ => rfl) 1)
  | false =>
    have hds : List.Forall₂ Tensor.Fits (ts.map (·.map (degree cx.inverseCost))) shapes :=
      List.forall₂_map_left_iff.2 (hts.imp fun _ _ => Tensor.fits_map.2)
    obtain ⟨d, hd, hdfits⟩ := hfits.node_ok hop hrow hrule hds
    exact (h.node hop hrule hd).fits hdfits

/-- **A block that checks has formulas** of the shape of the block. -/
theorem Matches.block_fits {wide : Prop} (h : Matches Γ cx cs cs' params)
    (hfits : cx.Fits wide Γ cs (params.map (·.map (degree cx.inverseCost)))) {b : Block} {s : Shape}
    (hb : b.Checks Γ s) :
    ∃ t, (evaluator cx.constants cs' params).block b = .ok t ∧ t.Fits s := by
  have habs : Evaluator.Abstracts (fun _ => True) (fun _ : Fault => False)
      (fun s (v : Unit → Tensor Formula) => (v ()).Fits s) Γ.checker
      (fun _ => evaluator cx.constants cs' params) := by
    refine Env.abstracts fun op args shape shapes gs hop hrule hgs => ?_
    have hyields : Yields (fun _ : Fault => False) (fun t : Tensor Formula => t.Fits shape)
        ((gs.map (· ())).mapM id >>= Formula.node cx.constants cs' params op shape args) := by
      refine Yields.bind (operands_fit hgs) fun ts hts => ?_
      obtain ⟨t, ht, htfits⟩ := h.node_fits hfits hop hrule hts
      exact yields_iff.2 (.inl ⟨t, htfits, ht⟩)
    exact hyields
  rcases habs.block (fun _ _ _ _ => trivial) hb.checks with ⟨t, htfits, ht⟩ | ⟨-, hfalse, -⟩
  · exact ⟨t (), ht (), htfits⟩
  · cases hfalse

/-- **Inference computes the degrees of the formulas of functions**, as deep as calls may nest. -/
theorem callees_reach (hproper : ∀ c ∈ cx.constants, c.isProper = true)
    (hfunctions : FunctionsCheck cx.constants cx.functions) {depth f : Nat} {c : Degree.Callee}
    (hc : (cx.callees depth)[f]? = some c) :
    ∃ c', (callees cx.constants cx.functions)[f]? = some c'
      ∧ ∀ (ts : List (Tensor Formula)) {d : Degree},
        c (ts.map (·.map (degree cx.inverseCost))) = .ok d → Reaches cx.inverseCost d (c' ts) := by
  induction depth generalizing f c with
  | zero =>
    -- no call may be made at this depth
    simp only [Degree.Context.callees, List.getElem?_mapIdx] at hc
    obtain ⟨g, hg, rfl⟩ := Option.map_eq_some_iff.1 hc
    refine ⟨_, getElem?_grow _ hg, fun ts d hd => ?_⟩
    cases hd
  | succ depth ih =>
    rw [Degree.Context.callees, List.getElem?_map] at hc
    obtain ⟨g, hg, rfl⟩ := Option.map_eq_some_iff.1 hc
    refine ⟨_, getElem?_grow _ hg, fun ts d hd => ?_⟩
    refine Matches.block (Γ := ⟨cx.constants, (cx.functions.take f).map Function.signature,
      .function g.params, .trap⟩) ⟨rfl, hproper, ?_, ?_, ?_⟩ (hfunctions f g hg) hd
    · exact fun h => (by cases h)
    · exact fun h => (by cases h)
    · intro k signature c hk hc
      obtain ⟨hkf, -⟩ := signature_of_take hk
      obtain ⟨c', hc', hcall⟩ := ih hc
      refine ⟨c', ?_, hcall⟩
      rw [getElem?_grow_take _ hkf]
      exact hc'

/-- What the formulas of a procedure are read from. -/
theorem Matches.of_procedure (cx : Degree.Context) (hproper : ∀ c ∈ cx.constants, c.isProper = true)
    (hfunctions : FunctionsCheck cx.constants cx.functions) (span : Nat) {width : Nat}
    (hwidth : 0 < width) (registers : RegisterSet) :
    Matches ⟨cx.constants, cx.functions.map Function.signature,
      .procedure span width registers.row?, .trap⟩ cx (cx.callees cx.functions.length)
      (callees cx.constants cx.functions) [] where
  constants_eq := rfl
  proper := hproper
  trace hu := by
    obtain ⟨-, rfl⟩ := Env.load_trace hu
    exact (Shape.isVector_iff _).2 ⟨width, hwidth, rfl⟩
  static hu := by
    obtain ⟨hsize, rfl⟩ := Env.load_static hu
    exact (Shape.isVector_iff _).2 ⟨_, hsize, rfl⟩
  call _ hc := callees_reach hproper hfunctions hc

/-- **Inference computes the degrees of the formulas of a procedure.** -/
theorem body_reaches (hproper : ∀ c ∈ cx.constants, c.isProper = true)
    (hfunctions : FunctionsCheck cx.constants cx.functions) {span width : Nat} (hwidth : 0 < width)
    {registers : RegisterSet} {b : Body} {s : Shape}
    (hb : b.block.Checks ⟨cx.constants, cx.functions.map Function.signature,
      .procedure span width registers.row?, .trap⟩ s) {d : Degree} (hd : cx.body b [] = .ok d) :
    Reaches cx.inverseCost d (body cx.constants cx.functions b) :=
  (Matches.of_procedure cx hproper hfunctions span hwidth registers).block hb hd

/-- **The body of a procedure has formulas** of the shape of its result, however wide its rows
are. -/
theorem body_fits {constants : List Literal} {functions : List Function}
    (hproper : ∀ c ∈ constants, c.isProper = true)
    (hfunctions : FunctionsCheck constants functions) {span width : Nat} (hwidth : 0 < width)
    {registers : RegisterSet} {b : Body} {s : Shape}
    (hb : b.block.Checks ⟨constants, functions.map Function.signature,
      .procedure span width registers.row?, .trap⟩ s) :
    ∃ t, body constants functions b = .ok t ∧ t.Fits s := by
  -- degrees at any cost serve
  let cx : Degree.Context := ⟨constants, functions, 0⟩
  have hknown : cx.Fits (2 ^ 61 ≤ width) _ _ _ :=
    Degree.Context.Fits.of_functions hproper hfunctions span width registers
  exact (Matches.of_procedure cx hproper hfunctions span hwidth registers).block_fits hknown hb

end Formula

end Arithmetization
