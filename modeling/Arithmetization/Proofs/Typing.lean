import Arithmetization.Grammar.Expr
import Arithmetization.Proofs.Sharing
import Arithmetization.Proofs.Tensors

/-!
Checking the shapes of a block.

The shape that the rules give to a node is computed from the shapes of its operands, just as its
value and its degree are, so checking is one more evaluator: `Env.checker`. It walks a block with
the shapes of the locals stored so far and stops at a node whose written shape is not the one that
the rules give. A block is well shaped if the checker has a result for it.

Since checking is an evaluator with monotone and strict nodes, a block that checks still checks,
with the same shape, after its subexpressions are shared (`Block.Checks.share`).
-/

set_option autoImplicit false

namespace Arithmetization

theorem toOption_eq_some {ε α : Type} {x : Except ε α} {a : α} :
    x.toOption = some a ↔ x = .ok a := by
  cases x with
  | error e => exact ⟨fun h => (by cases h), fun h => (by cases h)⟩
  | ok b => exact ⟨fun h => congrArg _ (Option.some.inj h), fun h => congrArg _ (Except.ok.inj h)⟩

/-- What the expressions of a body can refer to, and what happens to a vector that is too long to be
counted. -/
structure Env where
  constants : List Literal
  signatures : List Signature
  scope : Grammar.Scope
  overflow : Overflow

namespace Env

/-- The shape of a load that is not from a local. -/
def load (Γ : Env) : Source → Nat → Option Shape
  | .const, i => Γ.constants[i]?.map Tensor.shape
  | .trace, i =>
    match Γ.scope with
    | .procedure span traceWidth _ => if i < span then some (.vector traceWidth) else none
    | .function _ => none
  | .static, i =>
    match Γ.scope with
    | .procedure _ _ (some n) => if i = 0 then some (.vector n) else none
    | _ => none
  | .param, i =>
    match Γ.scope with
    | .function params => params[i]?
    | .procedure _ _ _ => none
  | .local, _ => none

/-- Whether an exponent is a number: a literal, or a constant that is a scalar. -/
def isNumber (Γ : Env) : Option Expr.Exponent → Bool
  | some (.number _) => true
  | some (.const i) => Γ.load .const i == some .scalar
  | none => false

/-- A constant of the shape of a scalar is one. -/
theorem scalar_const {Γ : Env} (hproper : ∀ c ∈ Γ.constants, c.isProper = true) {i : Nat}
    (h : Γ.load .const i = some .scalar) : ∃ n, Γ.constants[i]? = some (.scalar n) := by
  obtain ⟨c, hc, hshape⟩ := Option.map_eq_some_iff.1 h
  have hfits := Tensor.fits_of_isProper (hproper c (List.mem_of_getElem? hc))
  rw [hshape] at hfits
  obtain ⟨n, rfl⟩ := Tensor.fits_scalar.1 hfits
  exact ⟨n, hc⟩

/-- The shape that the rules give to a node over operands of the given shapes. -/
def rule (Γ : Env) (op : Op) (args : List Expr) (shapes : List Shape) : Option Shape :=
  match op, shapes with
  | .literal value, [] => if value.isProper then some value.shape else none
  | .load source i, [] => Γ.load source i
  | .segment row first last, [] =>
    (Γ.load .trace row).bind fun s => (Rule.slice s first last).toOption
  | .binary op, [a, b] =>
    (Rule.binary op a b (Γ.isNumber (args[1]?.bind Expr.exponent?))).toOption
  | .unary _, [a] => some a
  | .vector, parts => (Rule.concat Γ.overflow parts).toOption
  | .matrix widths, elements =>
    if elements.length = widths.sum then (Rule.grid (Tensor.chunks widths elements)).toOption
    else none
  | .get i, [a] => (Rule.element a i).toOption
  | .slice first last, [a] => (Rule.slice a first last).toOption
  | .call f, args => Γ.signatures[f]?.bind fun signature => (Rule.call f signature args).toOption
  | _, _ => none

/-- Checking as an evaluator: the result of a node is its written shape. -/
def checker (Γ : Env) : Evaluator Unit Shape where
  node op shape args results := do
    let shapes ← results.mapM id
    if Γ.rule op args shapes = some shape then .ok shape else .error ()
  unset _ := ()

variable {Γ : Env}

/-- A node checks if its operands do and the rules give it the shape that it has. -/
theorem checker_node_eq_ok {op : Op} {shape s : Shape} {args : List Expr}
    {results : List (Except Unit Shape)} :
    Γ.checker.node op shape args results = .ok s ↔
      s = shape ∧ ∃ shapes, results.mapM id = .ok shapes ∧ Γ.rule op args shapes = some shape := by
  unfold checker
  dsimp only
  rw [bind_eq_ok]
  constructor
  · rintro ⟨shapes, hshapes, h⟩
    split at h
    · next hrule => exact ⟨(Except.ok.inj h).symm, shapes, hshapes, hrule⟩
    · cases h
  · rintro ⟨rfl, shapes, hshapes, hrule⟩
    exact ⟨shapes, hshapes, by rw [if_pos hrule]⟩

/-! ### The rules, operator by operator -/

section Rules

variable {args : List Expr} {shapes : List Shape} {s : Shape}

theorem rule_literal {value : Literal} : Γ.rule (.literal value) args shapes = some s ↔
    shapes = [] ∧ value.isProper = true ∧ s = value.shape := by
  rw [eq_comm (a := s)]
  rcases shapes with _ | ⟨a, shapes⟩ <;> simp [rule]

theorem rule_load {source : Source} {i : Nat} : Γ.rule (.load source i) args shapes = some s ↔
    shapes = [] ∧ Γ.load source i = some s := by
  rcases shapes with _ | ⟨a, shapes⟩ <;> simp [rule]

theorem rule_segment {row first last : Nat} :
    Γ.rule (.segment row first last) args shapes = some s ↔
      shapes = [] ∧ ∃ t, Γ.load .trace row = some t ∧ Rule.slice t first last = .ok s := by
  rcases shapes with _ | ⟨a, shapes⟩ <;> simp [rule, Option.bind_eq_some_iff, toOption_eq_some]

theorem rule_binary {op : BinaryOp} : Γ.rule (.binary op) args shapes = some s ↔
    ∃ a b, shapes = [a, b]
      ∧ Rule.binary op a b (Γ.isNumber (args[1]?.bind Expr.exponent?)) = .ok s := by
  rcases shapes with _ | ⟨a, _ | ⟨b, _ | ⟨c, shapes⟩⟩⟩ <;> simp [rule, toOption_eq_some]

theorem rule_unary {op : UnaryOp} : Γ.rule (.unary op) args shapes = some s ↔ shapes = [s] := by
  rcases shapes with _ | ⟨a, _ | ⟨b, shapes⟩⟩ <;> simp [rule]

theorem rule_vector :
    Γ.rule .vector args shapes = some s ↔ Rule.concat Γ.overflow shapes = .ok s :=
  toOption_eq_some

theorem rule_matrix {widths : List Nat} : Γ.rule (.matrix widths) args shapes = some s ↔
    shapes.length = widths.sum ∧ Rule.grid (Tensor.chunks widths shapes) = .ok s := by
  simp [rule, toOption_eq_some]

theorem rule_get {i : Nat} : Γ.rule (.get i) args shapes = some s ↔
    ∃ a, shapes = [a] ∧ Rule.element a i = .ok s := by
  rcases shapes with _ | ⟨a, _ | ⟨b, shapes⟩⟩ <;> simp [rule, toOption_eq_some]

theorem rule_slice {first last : Nat} : Γ.rule (.slice first last) args shapes = some s ↔
    ∃ a, shapes = [a] ∧ Rule.slice a first last = .ok s := by
  rcases shapes with _ | ⟨a, _ | ⟨b, shapes⟩⟩ <;> simp [rule, toOption_eq_some]

theorem rule_call {f : Nat} : Γ.rule (.call f) args shapes = some s ↔
    ∃ signature, Γ.signatures[f]? = some signature
      ∧ shapes = signature.params ∧ s = signature.result := by
  simp [rule, Option.bind_eq_some_iff, toOption_eq_some, Rule.call_eq_ok]

end Rules

/-- The rules look at operands only for an exponent. -/
theorem rule_congr {op : Op} {args args' : List Expr} {shapes : List Shape}
    (h : args.map Expr.exponent? = args'.map Expr.exponent?) :
    Γ.rule op args shapes = Γ.rule op args' shapes := by
  unfold rule
  rw [exponent_congr h]

theorem simulates (Γ : Env) : Evaluator.Simulates Γ.checker Γ.checker := by
  intro op shape args args' rs rs' _ hexp hrs s hs
  obtain ⟨rfl, shapes, hshapes, hrule⟩ := checker_node_eq_ok.1 hs
  refine checker_node_eq_ok.2 ⟨rfl, shapes, ?_, rule_congr hexp ▸ hrule⟩
  exact Refines.mapM hrs shapes hshapes

theorem strict (Γ : Env) : Γ.checker.Strict := by
  intro op shape args s f _ hs a ha _
  obtain ⟨-, shapes, hshapes, -⟩ := checker_node_eq_ok.1 hs
  obtain ⟨t, -, ht⟩ := ok_of_mem_of_mapM hshapes (List.mem_map_of_mem ha)
  exact ⟨t, ht⟩

/-- A node that checks has the operands that its operator takes. -/
theorem takes_of_rule {op : Op} {args : List Expr} {shapes : List Shape} {s : Shape}
    (h : Γ.rule op args shapes = some s) : op.Takes shapes.length := by
  cases op with
  | vector => trivial
  | matrix widths => trivial
  | call f => trivial
  | literal value => exact congrArg List.length (rule_literal.1 h).1
  | load source i => exact congrArg List.length (rule_load.1 h).1
  | segment row first last => exact congrArg List.length (rule_segment.1 h).1
  | unary op => exact congrArg List.length (rule_unary.1 h)
  | get i =>
    obtain ⟨a, rfl, -⟩ := rule_get.1 h
    rfl
  | slice first last =>
    obtain ⟨a, rfl, -⟩ := rule_slice.1 h
    rfl
  | binary op =>
    obtain ⟨a, b, rfl, -⟩ := rule_binary.1 h
    rfl

end Env

/-- A block of shape `s` among what `Γ` offers. -/
structure Block.Checks (Γ : Env) (b : Block) (s : Shape) : Prop where
  formed : b.Formed
  checks : Γ.checker.block b = .ok s

/-- Sharing keeps the shape of a block. -/
theorem Block.Checks.share {Γ : Env} {b : Block} {s : Shape} (h : b.Checks Γ s) (minWeight : Nat) :
    (b.share minWeight).Checks Γ s where
  formed := h.formed.share minWeight
  checks := Evaluator.share_refines Γ.simulates Γ.strict h.formed minWeight s h.checks

theorem Block.Checks.share_body {Γ : Env} {b : Body} {s : Shape} (h : b.block.Checks Γ s)
    (options : SharingOptions) : (b.share options).block.Checks Γ s := by
  rw [Body.block_share]
  split
  · exact h.share options.minWeight
  · exact h

end Arithmetization
