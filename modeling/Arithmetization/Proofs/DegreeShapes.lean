import Arithmetization.Proofs.Safety

/-!
Inferred degrees have the shapes of the values that they bound.

Inference walks a block as a run does and combines degrees where a run combines values. On a block
that checks it finds no fault, and its result has one degree for every element of the shape of the
block (`Degree.Context.body_fits`). Only rows that are too wide for memory stop it. Calls are
followed as deep as there are functions, which is deep enough since a function calls only functions
before it.
-/

set_option autoImplicit false

namespace Arithmetization

/-- The operation loads a row of the trace, or a part of one. -/
def Op.loadsRow : Op → Bool
  | .load .trace _ => true
  | .segment .. => true
  | _ => false

namespace Degree

theorem zipWith_fits (f : Nat → Nat → Nat) {a b : Degree} {op : BinaryOp} {s t u : Shape}
    (ha : a.Fits s) (hb : b.Fits t) (h : Rule.elementwise op s t = .ok u) :
    ∃ d, zipWith f a b = .ok d ∧ d.Fits u := by
  obtain ⟨p, hp, hfits, -⟩ := Tensor.exists_align ha hb h
  refine ⟨p.map fun xy => f xy.1 xy.2, ?_, Tensor.fits_map.2 hfits⟩
  rw [zipWith, hp]

theorem product_fits {a b : Degree} {s t u : Shape} (ha : a.Fits s) (hb : b.Fits t)
    (h : Rule.product s t = .ok u) : ∃ d, product a b = .ok d ∧ d.Fits u := by
  cases Rule.product_eq_ok.1 h with
  | vectors hn =>
    obtain ⟨xs, rfl, -⟩ := ha.of_vector hn
    obtain ⟨ys, rfl, -⟩ := hb.of_vector hn
    exact ⟨_, rfl, rfl⟩
  | matrixVector hr hk =>
    obtain ⟨rows, rfl, rfl, -⟩ := ha.of_matrix hr hk
    obtain ⟨ys, rfl, -⟩ := hb.of_vector hk
    refine ⟨_, rfl, ?_, ?_⟩
    · rwa [List.length_map]
    · rw [List.length_map]
  | matrices hr hk hc =>
    obtain ⟨rows, rfl, rfl, -⟩ := ha.of_matrix hr hk
    obtain ⟨cols, rfl, -, -⟩ := hb.of_matrix hk hc
    refine ⟨_, rfl, ?_, hc, ?_, ?_⟩
    · rwa [List.length_map]
    · rw [List.length_map]
      rfl
    · intro row hrow
      obtain ⟨row, -, rfl⟩ := List.mem_map.1 hrow
      rw [List.length_map, List.length_range, hb.head_cols]
      rfl

theorem le_maxOf {ds : List Nat} {d : Nat} (h : d ∈ ds) : d ≤ maxOf ds := by
  -- the maximum so far is carried along, so the induction bounds it too
  have hfold : ∀ (ds : List Nat) (top : Nat), top ≤ ds.foldl max top
      ∧ ∀ d ∈ ds, d ≤ ds.foldl max top := by
    intro ds
    induction ds with
    | nil => exact fun top => ⟨Nat.le_refl _, fun d hd => (by cases hd)⟩
    | cons e ds ih =>
      intro top
      obtain ⟨hstart, hrest⟩ := ih (max top e)
      rw [List.foldl_cons]
      refine ⟨by omega, fun d hd => ?_⟩
      rcases List.mem_cons.1 hd with rfl | hd
      · omega
      · exact hrest d hd
  exact (hfold ds 0).2 d h

/-! ## Degrees that memory may not hold -/

theorem canHold_vector {n : Nat} : canHold (.vector n) = true ↔ n < 2 ^ 61 := by
  by_cases hn : n = 0
  · subst hn
    decide
  · have hscalar : (Shape.vector n).isScalar = false := by simp [Shape.isScalar, Shape.vector, hn]
    have hvector : (Shape.vector n).isVector = true :=
      (Shape.isVector_iff _).2 ⟨n, Nat.pos_of_ne_zero hn, rfl⟩
    rw [canHold, hscalar, hvector]
    change decide (4 * n < 0x8000000000000000) = true ↔ _
    rw [decide_eq_true_eq]
    omega

theorem filled_eq_ok {s : Shape} {x : Nat} {d : Degree} :
    filled s x = .ok d ↔ canHold s = true ∧ d = .uniform s x := by
  unfold filled
  split
  · next h => simp [h, eq_comm]
  · next h => simp [h]

theorem kept_eq_ok {d d' : Degree} : kept d = .ok d' ↔ canHold d.shape = true ∧ d = d' := by
  unfold kept
  split
  · next h => simp [h]
  · next h => simp [h]

/-- A degree of the shape `s`. If rows are too `wide` for memory there may be none, and the run is
stopped. -/
abbrev Held (wide : Prop) (s : Shape) (r : Except Fault Degree) : Prop :=
  Yields (fun f => wide ∧ f = .stop .capacity) (fun d : Degree => d.Fits s) r

theorem held_of_ok {wide : Prop} {s : Shape} {r : Except Fault Degree}
    (h : ∃ d, r = .ok d ∧ d.Fits s) : Held wide s r := by
  obtain ⟨d, rfl, hd⟩ := h
  exact Yields.ok hd

theorem Held.fits {wide : Prop} {s : Shape} {r : Except Fault Degree} {d : Degree}
    (h : Held wide s r) (hd : r = .ok d) : d.Fits s := by
  rcases yields_iff.1 h with ⟨d', hfits, hd'⟩ | ⟨f, -, hf⟩
  · obtain rfl := Except.ok.inj (hd.symm.trans hd')
    exact hfits
  · cases hd.symm.trans hf

theorem Held.exists_ok {wide : Prop} {s : Shape} {r : Except Fault Degree} (h : Held wide s r)
    (hwide : ¬wide) : ∃ d, r = .ok d ∧ d.Fits s := by
  rcases yields_iff.1 h with ⟨d, hfits, hd⟩ | ⟨-, ⟨hw, -⟩, -⟩
  · exact ⟨d, hd, hfits⟩
  · exact absurd hw hwide

theorem filled_held {wide : Prop} {s : Shape} (hs : s.Valid) (h : canHold s = true ∨ wide)
    (x : Nat) : Held wide s (filled s x) := by
  unfold filled
  split
  · exact Yields.ok (Tensor.fits_uniform hs x)
  · next hnot => exact Uniform.error ⟨h.resolve_left hnot, rfl⟩

namespace Context

/-- What inference knows fits what `Γ` says of it. -/
structure Fits (wide : Prop) (Γ : Env) (cx : Context) (callees : List Callee)
    (params : List Degree) : Prop where
  trap : Γ.overflow = .trap
  held : ∀ {i s}, Γ.load .trace i = some s → ∃ n, s = .vector n ∧ (n < 2 ^ 61 ∨ wide)
  constants_eq : Γ.constants = cx.constants
  proper : ∀ c ∈ cx.constants, c.isProper = true
  valid : ∀ {source i s}, Γ.load source i = some s → s.Valid
  param : ∀ {i s}, Γ.load .param i = some s → ∃ d, params[i]? = some d ∧ d.Fits s
  call : ∀ {f : Nat} {signature : Signature}, Γ.signatures[f]? = some signature →
    ∃ c, callees[f]? = some c ∧ ∀ args : List Degree,
      List.Forall₂ Tensor.Fits args signature.params → ∃ d, c args = .ok d ∧ d.Fits signature.result

variable {wide : Prop} {Γ : Env} {cx : Context} {callees : List Callee} {params : List Degree}

theorem Fits.exponent (h : Fits wide Γ cx callees params) {args : List Expr}
    (hnumber : Γ.isNumber (args[1]?.bind Expr.exponent?) = true) :
    ∃ n, cx.exponent args = .ok n := by
  unfold Context.exponent
  rcases hexp : args[1]?.bind Expr.exponent? with _ | (n | i)
  · rw [hexp] at hnumber
    cases hnumber
  · exact ⟨_, rfl⟩
  · rw [hexp, Env.isNumber, beq_iff_eq] at hnumber
    obtain ⟨n, hn⟩ := Env.scalar_const (h.constants_eq ▸ h.proper) hnumber
    rw [h.constants_eq] at hn
    refine ⟨min n cap, ?_⟩
    simp only [Expr.Exponent.value?, hn]
    rfl

theorem Fits.load (h : Fits wide Γ cx callees params) {source : Source} {i : Nat} {shape : Shape}
    (hsource : (Op.load source i).local? = none) (hrow : (Op.load source i).loadsRow = false)
    (hload : Γ.load source i = some shape) (args : List Expr) (ds : List Degree) :
    ∃ d, cx.node callees [] params (.load source i) shape args ds = .ok d ∧ d.Fits shape := by
  have hvalid := h.valid hload
  cases source with
  | «local» => cases hsource
  | const => exact ⟨_, rfl, Tensor.fits_uniform hvalid 0⟩
  | trace => cases hrow
  | static => exact ⟨_, rfl, Tensor.fits_uniform hvalid 1⟩
  | param =>
    obtain ⟨d, hd, hfits⟩ := h.param hload
    refine ⟨d, ?_, hfits⟩
    simp only [Context.node, hd]

/-- Rows are all that may be too wide. -/
theorem Fits.row (h : Fits wide Γ cx callees params) {op : Op} {args : List Expr} {shape : Shape}
    {shapes : List Shape} (hrow : op.loadsRow = true) (hrule : Γ.rule op args shapes = some shape)
    (ds : List Degree) : Held wide shape (cx.node callees [] params op shape args ds) := by
  cases op with
  | load source i =>
    have hload := (Env.rule_load.1 hrule).2
    cases source with
    | trace =>
      obtain ⟨n, rfl, hn⟩ := h.held hload
      exact filled_held (h.valid hload) (hn.imp_left canHold_vector.2) 1
    | _ => cases hrow
  | segment row first last =>
    obtain ⟨-, t, ht, hslice⟩ := Env.rule_segment.1 hrule
    obtain ⟨n, rfl, hn⟩ := h.held ht
    obtain ⟨n', hvector, hle, hlt, rfl⟩ := Rule.slice_eq_ok.1 hslice
    obtain rfl : n = n' := congrArg Shape.rows hvector
    refine filled_held (fun _ => rfl) (hn.imp_left fun hn => canHold_vector.2 ?_) 1
    omega
  | _ => cases hrow

theorem Fits.binary (h : Fits wide Γ cx callees params) {op : BinaryOp} {args : List Expr}
    {s t shape : Shape} {a b : Degree} (ha : a.Fits s) (hb : b.Fits t)
    (hrule : Rule.binary op s t (Γ.isNumber (args[1]?.bind Expr.exponent?)) = .ok shape) :
    ∃ d, cx.node callees [] params (.binary op) shape args [a, b] = .ok d ∧ d.Fits shape := by
  cases op with
  | add => exact zipWith_fits _ ha hb hrule
  | sub => exact zipWith_fits _ ha hb hrule
  | mul => exact zipWith_fits _ ha hb hrule
  | div => exact zipWith_fits (fun x y => addCapped x (cx.inverse y)) ha hb hrule
  | prod => exact product_fits ha hb hrule
  | exp =>
    obtain ⟨-, hnumber, rfl⟩ := Rule.power_eq_ok.1 hrule
    obtain ⟨n, hn⟩ := h.exponent hnumber
    refine ⟨a.map (mulCapped · n), ?_, Tensor.fits_map.2 ha⟩
    simp only [Context.node, hn]
    rfl

/-- **Every node but rows.** Degrees are combined to the shape that the rules give. -/
theorem Fits.node_ok (h : Fits wide Γ cx callees params) {op : Op} {args : List Expr}
    {shape : Shape} {shapes : List Shape} {ds : List Degree} (hop : op.local? = none)
    (hrow : op.loadsRow = false) (hrule : Γ.rule op args shapes = some shape)
    (hds : List.Forall₂ Tensor.Fits ds shapes) :
    ∃ d, cx.node callees [] params op shape args ds = .ok d ∧ d.Fits shape := by
  cases op with
  | literal value =>
    obtain ⟨-, hproper, rfl⟩ := Env.rule_literal.1 hrule
    exact ⟨_, rfl, Tensor.fits_uniform (Tensor.fits_of_isProper hproper).valid 0⟩
  | load source i => exact h.load hop hrow (Env.rule_load.1 hrule).2 args ds
  | segment row first last => cases hrow
  | binary op =>
    obtain ⟨s, t, rfl, hbinary⟩ := Env.rule_binary.1 hrule
    obtain ⟨a, b, rfl, ha, hb⟩ := forall₂_two hds.flip
    exact h.binary ha hb hbinary
  | unary op =>
    obtain rfl := Env.rule_unary.1 hrule
    obtain ⟨a, rfl, ha⟩ := forall₂_one hds.flip
    cases op with
    | neg => exact ⟨_, rfl, ha⟩
    | inv => exact ⟨_, rfl, Tensor.fits_map.2 ha⟩
  | vector =>
    have hconcat := Env.rule_vector.1 hrule
    rw [h.trap] at hconcat
    exact ⟨_, rfl, (Tensor.concat_eq_ok hds hconcat).2⟩
  | matrix widths =>
    -- operands are scalars, so there are as many degrees as operands to cut into rows
    obtain ⟨hsum, hgrid⟩ := Env.rule_matrix.1 hrule
    refine ⟨_, rfl, Tensor.fits_chunks hsum ?_ hgrid⟩
    exact Tensor.length_scalars hds (Tensor.scalar_of_grid hsum hgrid)
  | get i =>
    obtain ⟨s, rfl, helement⟩ := Env.rule_get.1 hrule
    obtain ⟨a, rfl, ha⟩ := forall₂_one hds.flip
    obtain ⟨n, rfl, hlt, rfl⟩ := Rule.element_eq_ok.1 helement
    obtain ⟨xs, rfl, -⟩ := Tensor.Fits.of_vector ha (Nat.zero_lt_of_lt hlt)
    exact ⟨_, rfl, rfl⟩
  | slice first last =>
    obtain ⟨s, rfl, hslice⟩ := Env.rule_slice.1 hrule
    obtain ⟨a, rfl, ha⟩ := forall₂_one hds.flip
    obtain ⟨n, rfl, hle, hlt, rfl⟩ := Rule.slice_eq_ok.1 hslice
    obtain ⟨xs, rfl, rfl⟩ := Tensor.Fits.of_vector ha (Nat.zero_lt_of_lt hlt)
    refine ⟨_, rfl, ?_, ?_⟩
    · rw [List.length_take, List.length_drop]
      omega
    · rw [List.length_take, List.length_drop]
      congr 1
      omega
  | call f =>
    obtain ⟨signature, hsignature, rfl, rfl⟩ := Env.rule_call.1 hrule
    obtain ⟨c, hc, hfits⟩ := h.call hsignature
    obtain ⟨d, hd, hresult⟩ := hfits ds hds
    refine ⟨d, ?_, hresult⟩
    simp only [Context.node, hc]
    exact hd

theorem Fits.node (h : Fits wide Γ cx callees params) {op : Op} {args : List Expr} {shape : Shape}
    {shapes : List Shape} {ds : List Degree} (hop : op.local? = none)
    (hrule : Γ.rule op args shapes = some shape) (hds : List.Forall₂ Tensor.Fits ds shapes) :
    Held wide shape (cx.node callees [] params op shape args ds) := by
  cases hrow : op.loadsRow with
  | true => exact h.row hrow hrule ds
  | false => exact held_of_ok (h.node_ok hop hrow hrule hds)

/-- **A block that checks has a degree** of the shape of the block, unless its rows are too wide. -/
theorem Fits.block (h : Fits wide Γ cx callees params) {b : Block} {s : Shape}
    (hb : b.Checks Γ s) : Held wide s (cx.block callees params b) := by
  rw [block_eq callees params hb.formed.sized]
  have habs : Evaluator.Abstracts (fun _ => True) (fun f => wide ∧ f = .stop .capacity)
      (fun s (v : Unit → Degree) => (v ()).Fits s) Γ.checker
      (fun _ => cx.evaluator callees params) := by
    refine Env.abstracts fun op args shape shapes gs hop hrule hgs => ?_
    have hnode : Held wide shape
        ((gs.map (· ())).mapM id >>= fun ds => cx.node callees [] params op shape args ds) :=
      Yields.bind (operands_fit hgs) fun ds hds => h.node hop hrule hds
    exact hnode
  exact habs.block (fun _ _ _ _ => trivial) hb.checks

/-! ## Functions -/

theorem getElem?_callees_succ (cx : Context) (depth : Nat) {f : Nat} {g : Function}
    (hg : cx.functions[f]? = some g) :
    (cx.callees (depth + 1))[f]?
      = some fun args => cx.block (cx.callees depth) args g.body.block := by
  rw [callees, List.getElem?_map, hg]
  rfl

theorem valid_const {Γ : Env} (hproper : ∀ c ∈ Γ.constants, c.isProper = true) {i : Nat}
    {s : Shape} (h : Γ.load .const i = some s) : s.Valid := by
  obtain ⟨c, hc, rfl⟩ := Option.map_eq_some_iff.1 h
  exact (Tensor.fits_of_isProper (hproper c (List.mem_of_getElem? hc))).valid

theorem valid_function {constants : List Literal} {signatures : List Signature}
    {shapes : List Shape} (hproper : ∀ c ∈ constants, c.isProper = true)
    (hshapes : ∀ s ∈ shapes, s.Valid) {source : Source} {i : Nat} {s : Shape}
    (h : (Env.mk constants signatures (.function shapes) .trap).load source i = some s) :
    s.Valid := by
  cases source with
  | const => exact valid_const hproper h
  | param => exact hshapes s (List.mem_of_getElem? h)
  | trace => cases h
  | static => cases h
  | «local» => cases h

/-- What a function knows fits, given arguments of the shapes of its parameters. -/
theorem Fits.of_function (hproper : ∀ c ∈ cx.constants, c.isProper = true)
    {signatures : List Signature} {shapes : List Shape} {args : List Degree}
    (hargs : List.Forall₂ Tensor.Fits args shapes)
    (hcall : ∀ {k : Nat} {signature : Signature}, signatures[k]? = some signature →
      ∃ c, callees[k]? = some c ∧ ∀ args : List Degree,
        List.Forall₂ Tensor.Fits args signature.params →
          ∃ d, c args = .ok d ∧ d.Fits signature.result) :
    Fits wide ⟨cx.constants, signatures, .function shapes, .trap⟩ cx callees args where
  trap := rfl
  held h := by cases h
  constants_eq := rfl
  proper := hproper
  valid h := by
    refine valid_function hproper (fun s hs => ?_) h
    obtain ⟨a, -, ha⟩ := exists_mem_right hargs.flip hs
    exact Tensor.Fits.valid ha
  param {i s} hs := by
    obtain ⟨hi, rfl⟩ := List.getElem?_eq_some_iff.1 (show shapes[i]? = some s from hs)
    have hi' : i < args.length := hargs.length_eq ▸ hi
    exact ⟨args[i], List.getElem?_eq_getElem hi', hargs.get hi' hi⟩
  call := hcall

/-- **Every function has a degree** for arguments of the shapes of its parameters, if calls may nest
deeper than there are functions before it. -/
theorem callees_fit (hproper : ∀ c ∈ cx.constants, c.isProper = true)
    (hfunctions : FunctionsCheck cx.constants cx.functions) {depth f : Nat} (hf : f < depth)
    {signature : Signature}
    (hsignature : (cx.functions.map Function.signature)[f]? = some signature) :
    ∃ c, (cx.callees depth)[f]? = some c ∧ ∀ args : List Degree,
      List.Forall₂ Tensor.Fits args signature.params →
        ∃ d, c args = .ok d ∧ d.Fits signature.result := by
  induction depth generalizing f signature with
  | zero => cases hf
  | succ depth ih =>
    rw [List.getElem?_map] at hsignature
    obtain ⟨g, hg, rfl⟩ := Option.map_eq_some_iff.1 hsignature
    refine ⟨_, getElem?_callees_succ cx depth hg, fun args hargs => ?_⟩
    refine Held.exists_ok ((Fits.of_function hproper hargs fun hk => ?_).block (hfunctions f g hg))
      not_false
    -- a function before this one, so calls may nest deep enough for it
    obtain ⟨hkf, hk⟩ := signature_of_take hk
    exact ih (by omega) hk

/-- What a procedure can load has a shape. -/
theorem valid_procedure {constants : List Literal} {signatures : List Signature} {span width : Nat}
    {registers : RegisterSet} (hproper : ∀ c ∈ constants, c.isProper = true) {source : Source}
    {i : Nat} {s : Shape}
    (h : (Env.mk constants signatures (.procedure span width registers.row?) .trap).load source i =
      some s) :
    s.Valid := by
  cases source with
  | const => exact valid_const hproper h
  | trace =>
    obtain ⟨-, rfl⟩ := Env.load_trace h
    exact fun _ => rfl
  | static =>
    obtain ⟨-, rfl⟩ := Env.load_static h
    exact fun _ => rfl
  | param => cases h
  | «local» => cases h

/-- What a procedure knows fits. -/
theorem Fits.of_procedure (hproper : ∀ c ∈ cx.constants, c.isProper = true)
    {signatures : List Signature} {span width : Nat} {registers : RegisterSet}
    (hcall : ∀ {k : Nat} {signature : Signature}, signatures[k]? = some signature →
      ∃ c, callees[k]? = some c ∧ ∀ args : List Degree,
        List.Forall₂ Tensor.Fits args signature.params →
          ∃ d, c args = .ok d ∧ d.Fits signature.result) :
    Fits (2 ^ 61 ≤ width)
      ⟨cx.constants, signatures, .procedure span width registers.row?, .trap⟩ cx callees [] where
  trap := rfl
  held h := by
    obtain ⟨-, rfl⟩ := Env.load_trace h
    exact ⟨width, rfl, Nat.lt_or_ge _ _⟩
  constants_eq := rfl
  proper := hproper
  valid h := valid_procedure hproper h
  param h := by cases h
  call := hcall

/-- Calls from a procedure may nest deep enough for every function. -/
theorem Fits.of_functions (hproper : ∀ c ∈ cx.constants, c.isProper = true)
    (hfunctions : FunctionsCheck cx.constants cx.functions) (span width : Nat)
    (registers : RegisterSet) :
    Fits (2 ^ 61 ≤ width) ⟨cx.constants, cx.functions.map Function.signature,
      .procedure span width registers.row?, .trap⟩ cx (cx.callees cx.functions.length) [] := by
  refine Fits.of_procedure hproper fun hf => callees_fit hproper hfunctions ?_ hf
  have := (List.getElem?_eq_some_iff.1 hf).1
  rwa [List.length_map] at this

/-- **The body of a procedure has a degree** of the shape of its result, unless its rows are too
wide. -/
theorem body_fits (hproper : ∀ c ∈ cx.constants, c.isProper = true)
    (hfunctions : FunctionsCheck cx.constants cx.functions) {span width : Nat}
    {registers : RegisterSet} {b : Body} {s : Shape}
    (hb : b.block.Checks ⟨cx.constants, cx.functions.map Function.signature,
      .procedure span width registers.row?, .trap⟩ s) :
    Held (2 ^ 61 ≤ width) s (cx.body b []) :=
  (Fits.of_functions hproper hfunctions span width registers).block hb

theorem procedure_eq_ok {b : Body} {d : Degree} :
    cx.procedure b = .ok d ↔ cx.body b [] = .ok d ∧ canHold d.shape = true := by
  rw [procedure, bind_eq_ok]
  constructor
  · rintro ⟨d', hd, hkept⟩
    obtain ⟨hheld, rfl⟩ := kept_eq_ok.1 hkept
    exact ⟨hd, hheld⟩
  · rintro ⟨hd, hheld⟩
    exact ⟨d, hd, kept_eq_ok.2 ⟨hheld, rfl⟩⟩

theorem procedure_refines {cx cx' : Context} {b b' : Body}
    (h : Refines (cx.body b []) (cx'.body b' [])) : Refines (cx.procedure b) (cx'.procedure b') :=
  fun d hd => procedure_eq_ok.2 ((procedure_eq_ok.1 hd).imp_left (h d))

/-- **A procedure that memory can hold has a degree.** -/
theorem procedure_fits (hproper : ∀ c ∈ cx.constants, c.isProper = true)
    (hfunctions : FunctionsCheck cx.constants cx.functions) {span width n : Nat}
    {registers : RegisterSet} {b : Body}
    (hb : b.block.Checks ⟨cx.constants, cx.functions.map Function.signature,
      .procedure span width registers.row?, .trap⟩ (.vector n))
    (hwidth : width < 2 ^ 61) (hn : n < 2 ^ 61) :
    ∃ d, cx.procedure b = .ok d ∧ d.Fits (.vector n) := by
  obtain ⟨d, hd, hfits⟩ := (body_fits hproper hfunctions hb).exists_ok (Nat.not_le.2 hwidth)
  refine ⟨d, procedure_eq_ok.2 ⟨hd, ?_⟩, hfits⟩
  rw [hfits.shape_eq]
  exact canHold_vector.2 hn

/-- **A procedure that memory cannot hold stops the run.** -/
theorem procedure_stops (hproper : ∀ c ∈ cx.constants, c.isProper = true)
    (hfunctions : FunctionsCheck cx.constants cx.functions) {span width n : Nat}
    {registers : RegisterSet} {b : Body}
    (hb : b.block.Checks ⟨cx.constants, cx.functions.map Function.signature,
      .procedure span width registers.row?, .trap⟩ (.vector n)) (hn : 2 ^ 61 ≤ n) :
    cx.procedure b = .error (.stop .capacity) := by
  -- there is a degree, which is too long, or the rows were too wide for one already
  rcases yields_iff.1 (body_fits hproper hfunctions hb) with ⟨d, hfits, hd⟩ | ⟨f, ⟨-, rfl⟩, hd⟩
  · have hheld : canHold d.shape ≠ true := by
      rw [hfits.shape_eq, Ne, canHold_vector]
      exact Nat.not_lt.2 hn
    rw [procedure, hd]
    exact if_neg hheld
  · rw [procedure, hd]
    rfl

end Context

end Degree

end Arithmetization
