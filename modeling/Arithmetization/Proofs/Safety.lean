import Arithmetization.Machine.Basic
import Arithmetization.Proofs.Abstraction
import Arithmetization.Proofs.Modules

/-!
Well-shaped modules run safely.

The shape of a block, known before any run, describes every run: over loads that fit their shapes a
run ends with a value that fits the shape of the block, or it divides by zero. The proof is one node
at a time. The rules of shapes and the operations on values are two accounts of the same operators,
and each case below is their agreement on one of them.
-/

set_option autoImplicit false

namespace Arithmetization

/-! ## Outcomes of single runs -/

section Yields

variable {ε α β : Type}

/-- A value of which `P` holds, or an admitted fault. -/
abbrev Yields (E : ε → Prop) (P : β → Prop) (r : Except ε β) : Prop :=
  Uniform E (fun v : Unit → β => P (v ())) fun _ => r

variable {E : ε → Prop} {P : α → Prop} {P' : β → Prop}

theorem yields_iff {r : Except ε α} :
    Yields E P r ↔ (∃ v, P v ∧ r = .ok v) ∨ ∃ e, E e ∧ r = .error e := by
  constructor
  · rintro (⟨v, hv, h⟩ | ⟨e, he, h⟩)
    exacts [.inl ⟨v (), hv, h ()⟩, .inr ⟨e, he, h ()⟩]
  · rintro (⟨v, hv, h⟩ | ⟨e, he, h⟩)
    exacts [.inl ⟨fun _ => v, hv, fun _ => h⟩, .inr ⟨e, he, fun _ => h⟩]

theorem Yields.ok {v : α} (h : P v) : Yields E P (.ok v) :=
  Uniform.ok (v := fun _ => v) h

theorem Yields.bind {r : Except ε α} {g : α → Except ε β} (h : Yields E P r)
    (hg : ∀ v, P v → Yields E P' (g v)) : Yields E P' (r >>= g) :=
  Uniform.bind h fun v hv => hg (v ()) hv

/-- A rule that gives a shape describes a node, if it does so for operands that are described. -/
theorem Env.abstracts {ι : Type} {Γ : Env} {S : Shape → (ι → β) → Prop} {evs : ι → Evaluator ε β}
    (h : ∀ op args shape shapes (gs : List (ι → Except ε β)), op.local? = none →
      Γ.rule op args shapes = some shape → List.Forall₂ (fun s g => Uniform E (S s) g) shapes gs →
      Uniform E (S shape) fun i => (evs i).node op shape args (gs.map (· i))) :
    Evaluator.Abstracts (fun _ => True) E S Γ.checker evs := by
  intro op shape args s r fs hop _ hs hargs
  obtain ⟨rfl, shapes, hshapes, hrule⟩ := checker_node_eq_ok.1 hs
  rw [mapM_eq_ok, List.forall₂_map_left_iff] at hshapes
  have hgs : List.Forall₂ (fun s g => Uniform E (S s) g) shapes (args.map fs) := by
    rw [List.forall₂_map_right_iff]
    refine List.Forall₂.flip ?_
    clear hrule hs
    induction hshapes with
    | nil => exact .nil
    | cons hx _ ih =>
      rw [List.forall_mem_cons] at hargs
      exact .cons (hargs.1 _ hx) (ih hargs.2)
  refine (h op args s shapes (args.map fs) hop hrule hgs).congr fun i => ?_
  rw [List.map_map]
  rfl

/-- The results of operands that fit their shapes one by one. -/
theorem operands_fit {shapes : List Shape} {gs : List (Unit → Except ε (Tensor β))}
    (hgs : List.Forall₂ (fun s g => Uniform E (fun v : Unit → Tensor β => (v ()).Fits s) g)
      shapes gs) :
    Yields E (fun vs => List.Forall₂ Tensor.Fits vs shapes) ((gs.map (· ())).mapM id) := by
  have hlist : List.Forall₂ (fun S g => Uniform E S g)
      (shapes.map fun s (v : Unit → Tensor β) => (v ()).Fits s) gs :=
    List.forall₂_map_left_iff.2 hgs
  refine Uniform.imp (Uniform.mapM hlist) ?_
  rintro vs ⟨ws, hws, hvs⟩
  rw [hvs ()]
  rw [List.forall₂_map_left_iff] at hws
  exact List.forall₂_map_left_iff.2 hws.flip

end Yields

/-! ## Operations on values -/

namespace Value

/-- A value of a shape, unless there is a division by zero. -/
abbrev Safe (s : Shape) (r : Except RunFault Value) : Prop :=
  Yields (· = .divisionByZero) (fun v : Value => v.Fits s) r

theorem zipWith_safe {f : Element → Element → Except RunFault Element}
    (hf : ∀ x y, Yields (· = .divisionByZero) (fun _ => True) (f x y)) {a b : Value} {op : BinaryOp}
    {s t u : Shape} (ha : a.Fits s) (hb : b.Fits t) (h : Rule.elementwise op s t = .ok u) :
    Safe u (zipWith f a b) := by
  obtain ⟨p, hp, hfits, hrows⟩ := Tensor.exists_align ha hb h
  unfold zipWith
  rw [if_pos hrows, hp]
  refine (Uniform.tensor (R := fun _ _ => True) fun xy _ => hf xy.1 xy.2).imp ?_
  rintro v ⟨T, hT, hv⟩
  rw [hv ()]
  exact Tensor.fits_map.2 (hT.fits hfits)

theorem inverse_safe (x : Element) :
    Yields (· = .divisionByZero) (fun _ => True) (inverse x) := by
  unfold inverse
  split
  · exact Uniform.error rfl
  · exact Yields.ok trivial

theorem inv_safe {a : Value} {s : Shape} (ha : a.Fits s) : Safe s a.inv := by
  refine (Uniform.tensor (R := fun _ _ => True) fun x _ => inverse_safe x).imp ?_
  rintro v ⟨T, hT, hv⟩
  rw [hv ()]
  exact Tensor.fits_map.2 (hT.fits ha)

theorem prod_safe {a b : Value} {s t u : Shape} (ha : a.Fits s) (hb : b.Fits t)
    (h : Rule.product s t = .ok u) : Safe u (prod a b) := by
  cases Rule.product_eq_ok.1 h with
  | vectors hn =>
    obtain ⟨xs, rfl, hxs⟩ := ha.of_vector hn
    obtain ⟨ys, rfl, hys⟩ := hb.of_vector hn
    rw [prod, if_pos (hxs.trans hys.symm)]
    exact Yields.ok rfl
  | matrixVector hr hk =>
    obtain ⟨rows, rfl, rfl, hcols⟩ := ha.of_matrix hr hk
    obtain ⟨ys, rfl, hys⟩ := hb.of_vector hk
    have hall : rows.all (·.length == ys.length) = true := by
      simp only [List.all_eq_true, beq_iff_eq]
      intro row hrow
      rw [hcols row hrow, hys]
    rw [prod, if_pos hall]
    refine Yields.ok ⟨?_, ?_⟩
    · rwa [List.length_map]
    · rw [List.length_map]
  | matrices hr hk hc =>
    obtain ⟨rows, rfl, rfl, hcols⟩ := ha.of_matrix hr hk
    obtain ⟨cols, rfl, rfl, -⟩ := hb.of_matrix hk hc
    have hall : (rows.all (·.length == cols.length) && !cols.isEmpty) = true := by
      simp only [Bool.and_eq_true, List.all_eq_true, beq_iff_eq, Bool.not_eq_true',
        List.isEmpty_eq_false_iff]
      exact ⟨hcols, List.ne_nil_of_length_pos hk⟩
    rw [prod, if_pos hall, hb.head_cols]
    refine Yields.ok ⟨?_, hc, ?_, ?_⟩
    · rwa [List.length_map]
    · rw [List.length_map]
      rfl
    · intro row hrow
      obtain ⟨row, -, rfl⟩ := List.mem_map.1 hrow
      rw [List.length_map, List.length_range]
      rfl

theorem get_safe {a : Value} {s u : Shape} {i : Nat} (ha : a.Fits s)
    (h : Rule.element s i = .ok u) : Safe u (a.get i) := by
  obtain ⟨n, rfl, hi, rfl⟩ := Rule.element_eq_ok.1 h
  obtain ⟨xs, rfl, rfl⟩ := ha.of_vector (Nat.zero_lt_of_lt hi)
  simp only [Value.get, List.getElem?_eq_getElem hi]
  exact Yields.ok rfl

theorem segment?_eq_some {xs : List Element} {first last : Nat} (hle : first ≤ last)
    (hlt : last < xs.length) :
    ∃ ys, segment? xs first last = some ys ∧ ys.length = last - first + 1 := by
  refine ⟨_, if_pos ⟨hle, hlt⟩, ?_⟩
  rw [List.length_take, List.length_drop]
  omega

theorem slice_safe {a : Value} {s u : Shape} {first last : Nat} (ha : a.Fits s)
    (h : Rule.slice s first last = .ok u) : Safe u (a.slice first last) := by
  obtain ⟨n, rfl, hle, hlt, rfl⟩ := Rule.slice_eq_ok.1 h
  obtain ⟨xs, rfl, rfl⟩ := ha.of_vector (Nat.zero_lt_of_lt hlt)
  obtain ⟨ys, hys, hlen⟩ := segment?_eq_some hle hlt
  rw [slice, hys, ← hlen]
  exact Yields.ok (Tensor.fits_vector (by omega))

theorem part_eq_ok {a : Value} (ha : a.IsPart) : part a = .ok a.elements := by
  cases a with
  | matrix rows => cases ha
  | _ => rfl

theorem concat_safe {parts : List Value} {shapes : List Shape} {u : Shape}
    (hparts : List.Forall₂ Tensor.Fits parts shapes) (h : Rule.concat .trap shapes = .ok u) :
    Safe u (concat parts) := by
  obtain ⟨hpart, hfits⟩ := Tensor.concat_eq_ok hparts h
  have hmap : parts.mapM part = .ok (parts.map Tensor.elements) := by
    rw [mapM_eq_ok, List.forall₂_map_right_iff]
    exact List.forall₂_same.2 fun p hp => part_eq_ok (hpart p hp)
  rw [concat, hmap]
  exact Yields.ok hfits

end Value

namespace Run

/-- Operators on two values, the power apart. -/
theorem binary_safe {op : BinaryOp} (hop : op ≠ .exp) {a b : Value} {s t u : Shape} {known : Bool}
    (ha : a.Fits s) (hb : b.Fits t) (h : Rule.binary op s t known = .ok u) :
    Value.Safe u (binary op a b) := by
  cases op with
  | exp => exact absurd rfl hop
  | prod => exact Value.prod_safe ha hb h
  | add => exact Value.zipWith_safe (fun _ _ => Yields.ok trivial) ha hb h
  | sub => exact Value.zipWith_safe (fun _ _ => Yields.ok trivial) ha hb h
  | mul => exact Value.zipWith_safe (fun _ _ => Yields.ok trivial) ha hb h
  | div =>
    have hdiv : ∀ x y, Yields (· = .divisionByZero) (fun _ => True)
        (do return x * (← Value.inverse y)) :=
      fun x y => (Value.inverse_safe y).bind fun _ _ => Yields.ok trivial
    exact Value.zipWith_safe hdiv ha hb h

theorem unary_safe (op : UnaryOp) {a : Value} {s : Shape} (ha : a.Fits s) :
    Value.Safe s (unary op a) := by
  cases op with
  | neg => exact Yields.ok (Tensor.fits_map.2 ha)
  | inv => exact Value.inv_safe ha

/-! ## Nodes -/

/-- What a run can load and call fits what `Γ` says of it. -/
structure Fits (Γ : Env) (callees : List Callee) (rows : List (List Element))
    (statics : List Element) (params : List Value) : Prop where
  trap : Γ.overflow = .trap
  proper : ∀ c ∈ Γ.constants, c.isProper = true
  load : ∀ {source i s}, Γ.load source i = some s →
    ∃ v, Run.load Γ.constants ⟨rows, statics, params, []⟩ source i = .ok v ∧ v.Fits s
  call : ∀ {f : Nat} {signature : Signature}, Γ.signatures[f]? = some signature →
    ∃ c, callees[f]? = some c ∧ ∀ args : List Value,
      List.Forall₂ Tensor.Fits args signature.params → Value.Safe signature.result (c args)

variable {Γ : Env} {callees : List Callee} {rows : List (List Element)} {statics : List Element}
  {params : List Value}

/-- An exponent that is a number can be read off. -/
theorem exponent_eq_ok (hproper : ∀ c ∈ Γ.constants, c.isProper = true) {args : List Expr}
    (hnumber : Γ.isNumber (args[1]?.bind Expr.exponent?) = true) :
    ∃ n, Run.exponent Γ.constants args = .ok n := by
  unfold Run.exponent
  rcases hexp : args[1]?.bind Expr.exponent? with _ | (n | i)
  · rw [hexp] at hnumber
    cases hnumber
  · exact ⟨n, rfl⟩
  · rw [hexp, Env.isNumber, beq_iff_eq] at hnumber
    obtain ⟨n, hn⟩ := Env.scalar_const hproper hnumber
    exact ⟨n, by simp only [hn, Tensor.scalar?]⟩

theorem Fits.segment (h : Fits Γ callees rows statics params) {row first last : Nat}
    {s u : Shape} (hrow : Γ.load .trace row = some s) (hu : Rule.slice s first last = .ok u) :
    Value.Safe u (Run.segment ⟨rows, statics, params, []⟩ row first last) := by
  obtain ⟨n, rfl, hle, hlt, rfl⟩ := Rule.slice_eq_ok.1 hu
  obtain ⟨v, hv, hfits⟩ := h.load hrow
  unfold Run.load at hv
  unfold Run.segment
  dsimp only at hv ⊢
  split at hv
  · obtain rfl := Except.ok.inj hv
    obtain ⟨xs, hxs, rfl⟩ := hfits.of_vector (Nat.zero_lt_of_lt hlt)
    obtain rfl := Tensor.vector.inj hxs
    obtain ⟨ys, hys, hlen⟩ := Value.segment?_eq_some hle hlt
    rw [hys, ← hlen]
    exact Yields.ok (Tensor.fits_vector (by omega))
  · cases hv

/-- Operands that are scalars give one element each. -/
theorem scalars_safe {shapes : List Shape} {gs : List (Unit → Except RunFault Value)}
    (hscalar : ∀ s ∈ shapes, s = .scalar)
    (hgs : List.Forall₂ (fun s g => Uniform (· = .divisionByZero)
      (fun v : Unit → Value => (v ()).Fits s) g) shapes gs) :
    Yields (· = .divisionByZero) (fun xs : List Element => xs.length = shapes.length)
      ((gs.map (· ())).mapM fun r => do (← r).asScalar) := by
  have hgs' : ∀ g ∈ gs, Uniform (· = .divisionByZero) (fun _ : Unit → Element => True)
      fun i => g i >>= fun v => v.asScalar := by
    intro g hg
    obtain ⟨s, hs, hsafe⟩ := exists_mem_right hgs.flip hg
    refine Uniform.bind hsafe fun v hv => ?_
    rw [hscalar s hs] at hv
    obtain ⟨x, hx⟩ := Tensor.fits_scalar.1 hv
    refine Uniform.congr (Uniform.ok (v := fun _ => x) trivial) fun _ => ?_
    rw [hx]
    rfl
  rw [List.mapM_map]
  refine Uniform.imp (Uniform.list (R := fun _ _ => True) hgs') ?_
  rintro vs ⟨ws, hws, hvs⟩
  rw [hvs (), List.length_map, ← hws.length_eq, hgs.length_eq]

/-- Operators on two operands run both of them, in order, the power apart. -/
theorem node_binary {constants : List Literal} {f : Frame} {op : BinaryOp} (hop : op ≠ .exp)
    {args : List Expr} (r r' : Except RunFault Value) :
    node constants callees f (.binary op) args [r, r']
      = r >>= fun a => r' >>= fun b => binary op a b := by
  cases op with
  | exp => exact absurd rfl hop
  | _ => rfl

/-- A power runs its base only. -/
theorem node_power {constants : List Literal} {f : Frame} {args : List Expr} {n : Nat}
    (h : exponent constants args = .ok n) (r : Except RunFault Value)
    (rs : List (Except RunFault Value)) :
    node constants callees f (.binary .exp) args (r :: rs) = r >>= fun a => .ok (a.pow n) := by
  simp only [node, h]
  rfl

theorem Fits.binary (h : Fits Γ callees rows statics params) {op : BinaryOp} {args : List Expr}
    {s t u : Shape} {r r' : Except RunFault Value} (hr : Value.Safe s r) (hr' : Value.Safe t r')
    (hrule : Rule.binary op s t (Γ.isNumber (args[1]?.bind Expr.exponent?)) = .ok u) :
    Value.Safe u
      (node Γ.constants callees ⟨rows, statics, params, []⟩ (.binary op) args [r, r']) := by
  by_cases hexp : op = .exp
  · subst hexp
    obtain ⟨-, hnumber, rfl⟩ := Rule.power_eq_ok.1 hrule
    obtain ⟨n, hn⟩ := exponent_eq_ok h.proper hnumber
    rw [node_power hn]
    exact Yields.bind hr fun a ha => Yields.ok (Tensor.fits_map.2 ha)
  · rw [node_binary hexp]
    exact Yields.bind hr fun a ha => Yields.bind hr' fun b hb => binary_safe hexp ha hb hrule

/-- **Every node.** The operations on values agree with the rules of shapes. -/
theorem Fits.node (h : Fits Γ callees rows statics params) {op : Op} {args : List Expr}
    {shape : Shape} {shapes : List Shape} {gs : List (Unit → Except RunFault Value)}
    (hop : op.local? = none) (hrule : Γ.rule op args shapes = some shape)
    (hgs : List.Forall₂ (fun s g => Uniform (· = .divisionByZero)
      (fun v : Unit → Value => (v ()).Fits s) g) shapes gs) :
    Value.Safe shape
      (Run.node Γ.constants callees ⟨rows, statics, params, []⟩ op args (gs.map (· ()))) := by
  have hops := operands_fit hgs
  cases op with
  | literal value =>
    obtain ⟨-, hproper, rfl⟩ := Env.rule_literal.1 hrule
    exact Yields.ok (Tensor.fits_map.2 (Tensor.fits_of_isProper hproper))
  | load source i =>
    obtain ⟨v, hv, hfits⟩ := h.load (Env.rule_load.1 hrule).2
    rw [Run.node, hv]
    exact Yields.ok hfits
  | segment row first last =>
    obtain ⟨-, s, hs, hu⟩ := Env.rule_segment.1 hrule
    exact h.segment hs hu
  | binary bop =>
    obtain ⟨s, t, rfl, hbinary⟩ := Env.rule_binary.1 hrule
    obtain ⟨f, g, rfl, hf, hg⟩ := forall₂_two hgs
    exact h.binary hf hg hbinary
  | unary uop =>
    obtain rfl := Env.rule_unary.1 hrule
    obtain ⟨f, rfl, hf⟩ := forall₂_one hgs
    exact Yields.bind hf fun a ha => unary_safe uop ha
  | vector =>
    have hconcat := Env.rule_vector.1 hrule
    rw [h.trap] at hconcat
    exact hops.bind fun vs hvs => Value.concat_safe hvs hconcat
  | matrix widths =>
    -- the operands are scalars, so every one gives one element and the rows have their widths
    obtain ⟨hsum, hgrid⟩ := Env.rule_matrix.1 hrule
    refine Yields.bind (scalars_safe (Tensor.scalar_of_grid hsum hgrid) hgs) fun xs hxs => ?_
    exact Yields.ok (Tensor.fits_chunks hsum hxs hgrid)
  | get i =>
    obtain ⟨s, rfl, helement⟩ := Env.rule_get.1 hrule
    obtain ⟨f, rfl, hf⟩ := forall₂_one hgs
    exact Yields.bind hf fun a ha => Value.get_safe ha helement
  | slice first last =>
    obtain ⟨s, rfl, hslice⟩ := Env.rule_slice.1 hrule
    obtain ⟨f, rfl, hf⟩ := forall₂_one hgs
    exact Yields.bind hf fun a ha => Value.slice_safe ha hslice
  | call f =>
    obtain ⟨signature, hsignature, rfl, rfl⟩ := Env.rule_call.1 hrule
    obtain ⟨c, hc, hsafe⟩ := h.call hsignature
    refine hops.bind fun vs hvs => ?_
    rw [hc]
    exact hsafe vs hvs

/-! ## Blocks and functions -/

/-- **A block that checks runs safely.** -/
theorem Fits.block (h : Fits Γ callees rows statics params) {b : Block} {s : Shape}
    (hb : b.Checks Γ s) : Value.Safe s (Run.block Γ.constants callees rows statics params b) := by
  rw [block_eq]
  have habs : Evaluator.Abstracts (fun _ => True) (· = .divisionByZero)
      (fun s (v : Unit → Value) => (v ()).Fits s) Γ.checker
      (fun _ => evaluator Γ.constants callees rows statics params) :=
    Env.abstracts fun op args shape shapes gs hop hrule hgs => h.node hop hrule hgs
  exact habs.block (fun _ _ _ _ => trivial) hb.checks

/-- A function calls the functions before it. -/
def callee (constants : List Literal) (earlier : List Callee) (b : Block) : Callee :=
  fun args => Run.block constants earlier [] [] args b

theorem callees_eq (constants : List Literal) (bs : List Block) :
    Run.callees constants bs = grow (callee constants) bs := rfl

/-- A proper constant loads as a value of its shape. -/
theorem load_const (hproper : ∀ c ∈ Γ.constants, c.isProper = true) {i : Nat} {s : Shape}
    (h : Γ.load .const i = some s) (f : Frame) :
    ∃ v, Run.load Γ.constants f .const i = .ok v ∧ v.Fits s := by
  obtain ⟨c, hc, rfl⟩ := Option.map_eq_some_iff.1 h
  refine ⟨.ofLiteral c, ?_, ?_⟩
  · simp only [Run.load, hc]
  · exact Tensor.fits_map.2 (Tensor.fits_of_isProper (hproper c (List.mem_of_getElem? hc)))

/-- A call with arguments that fit the parameters. -/
theorem fits_function {constants : List Literal} (hproper : ∀ c ∈ constants, c.isProper = true)
    {signatures : List Signature} {shapes : List Shape}
    (hcall : ∀ {f : Nat} {signature : Signature}, signatures[f]? = some signature →
      ∃ c, callees[f]? = some c ∧ ∀ args : List Value,
        List.Forall₂ Tensor.Fits args signature.params → Value.Safe signature.result (c args))
    (hparams : List.Forall₂ Tensor.Fits params shapes) :
    Fits ⟨constants, signatures, .function shapes, .trap⟩ callees [] [] params where
  trap := rfl
  proper := hproper
  load {source i s} h := by
    cases source with
    | const => exact load_const hproper h _
    | param =>
      obtain ⟨hi, rfl⟩ := List.getElem?_eq_some_iff.1 (show shapes[i]? = some s from h)
      have hi' : i < params.length := hparams.length_eq ▸ hi
      refine ⟨params[i], ?_, hparams.get hi' hi⟩
      simp only [Run.load, List.getElem?_eq_getElem hi']
    | trace => cases h
    | static => cases h
    | «local» => cases h
  call := hcall

/-- **Every function runs safely** on arguments of the shapes of its parameters. -/
theorem callees_safe {constants : List Literal} (hproper : ∀ c ∈ constants, c.isProper = true)
    {functions : List Function} (hfunctions : FunctionsCheck constants functions) {f : Nat}
    {signature : Signature}
    (hf : (functions.map Function.signature)[f]? = some signature) :
    ∃ c, (Run.callees constants (functions.map (·.body.block)))[f]? = some c
      ∧ ∀ args : List Value, List.Forall₂ Tensor.Fits args signature.params →
        Value.Safe signature.result (c args) := by
  -- a function is run over the callees before it, so all functions before it are safe
  induction f using Nat.strongRecOn generalizing signature with
  | ind f ih =>
    rw [List.getElem?_map] at hf
    obtain ⟨g, hg, rfl⟩ := Option.map_eq_some_iff.1 hf
    have hblock : (functions.map (·.body.block))[f]? = some g.body.block := by
      rw [List.getElem?_map, hg, Option.map_some]
    refine ⟨_, getElem?_grow (callee constants) hblock, fun args hargs => ?_⟩
    refine (fits_function hproper (fun {k signature} hk => ?_) hargs).block (hfunctions f g hg)
    obtain ⟨hkf, hk⟩ := signature_of_take hk
    rw [getElem?_grow_take _ hkf]
    exact ih k hkf hk

end Run

end Arithmetization
