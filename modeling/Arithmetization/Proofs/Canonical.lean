import Arithmetization.Proofs.Legible
import Arithmetization.Schema.Text

/-!
Canonical forms.

Each part of a schema has one canonical form. For an expression and for a block that check and are
legible, the canonical form denotes them (`Expr.Checks.denotes`, `Block.Checks.denotes`).
-/

set_option autoImplicit false

namespace Arithmetization

open Grammar (indexBound)

/-! ## Forms -/

/-- The form of an expression. -/
def Expr.sexp : Expr → Sexp :=
  fold fun op _ _ args => .list (op.sexps args)

theorem Expr.sexp_node (op : Op) (s : Shape) (args : List Expr) :
    (Expr.node op s args).sexp = .list (op.sexps (args.map sexp)) := by
  rw [sexp, fold_node]

theorem Expr.isInt_sexp (e : Expr) : e.sexp.isInt = false := by
  obtain ⟨op, s, args⟩ := e
  rw [sexp_node]
  rfl

/-- A clause that names a type, such as the declaration of a local. -/
def Shape.clause (name : String) (s : Shape) : Sexp :=
  .list (.sym name :: s.sexps)

def Assign.sexp (t : Assign) : Sexp :=
  .list [.sym "store.local", .int t.target, t.value.sexp]

/-- The forms of the statements of a block. -/
def Block.sexps (b : Block) : List Sexp :=
  b.locals.map (Shape.clause "local") ++ b.stores.map Assign.sexp ++ [b.result.sexp]

def Function.sexp (f : Function) : Sexp :=
  .list (.sym "function" :: f.result.clause "result"
    :: (f.params.map (Shape.clause "param") ++ f.body.block.sexps))

def Procedure.sexp (p : Procedure) : Sexp :=
  .list (.sym p.kind.keyword :: .list [.sym "span", .int p.kind.span]
    :: .list [.sym "result", .sym "vector", .int p.width] :: p.body.block.sexps)

namespace InputRegister

def bindingSexp (r : InputRegister) : Sexp :=
  if r.scalar then .sym "scalar"
  else
    match r.parent with
    | some p => .list [.sym "parent", .int p]
    | none => .sym "vector"

def patternSexp (r : InputRegister) : Sexp :=
  match r.steps with
  | some n => .list [.sym "steps", .int n]
  | none => .sym "filled"

end InputRegister

def CycleSource.sexps : CycleSource → List Sexp
  | .values vs => vs.map .int
  | .prng seed count => [.list [.sym "prng", .sym "blake3", .hex seed, .int count]]
  | .power base count => [.list [.sym "power", .int base, .int count]]

def Register.sexp : Register → Sexp
  | .input r =>
    .list (.sym "input" :: .sym (if r.secret then "secret" else "public")
      :: ((if r.binary then [.sym "binary"] else []) ++ [r.bindingSexp, r.patternSexp]))
  | .cycle source => .list (.sym "cycle" :: source.sexps)
  | .mask source value => .list [.sym "mask", .int source, .int value]

/-- The section of static registers; a module without any has none. -/
def RegisterSet.sexps (set : RegisterSet) : List Sexp :=
  if set.registers.isEmpty then [] else [.list (.sym "static" :: set.registers.map Register.sexp)]

/-- The sections of a module, given the forms of its procedures. -/
def moduleSexps (modulus : Nat) (constants : List Literal) (functions : List Function)
    (registers : RegisterSet) (transition evaluation : Sexp) : List Sexp :=
  .list [.sym "field", .sym "prime", .int modulus]
    :: (constants.map (fun c => .list (.sym "const" :: Literal.sexps c))
      ++ functions.map Function.sexp ++ registers.sexps ++ [transition, evaluation])

/-- The canonical form of a schema. -/
def Schema.sexp (s : Schema) : Sexp :=
  .list (.sym "module" :: moduleSexps s.modulus s.constants s.functions s.registers
    s.transition.sexp s.evaluation.sexp)

/-! ## Legible schemas -/

/-- A body whose block is legible and whose locals can all be numbered. -/
structure Body.Legible (modulus : Nat) (b : Body) : Prop where
  block : b.block.Legible modulus
  bound : b.block.locals.length ≤ indexBound

structure Function.Legible (modulus : Nat) (f : Function) : Prop where
  params : ∀ s ∈ f.params, s.Writable
  result : f.result.Writable
  body : f.body.Legible modulus

structure Procedure.Legible (modulus : Nat) (p : Procedure) : Prop where
  width_lt : p.width < Shape.lengthBound
  body : p.body.Legible modulus

/-- The numbers of a declaration can be written. -/
def Register.Legible (modulus : Nat) : Register → Prop
  | .input r => (∀ p ∈ r.parent, p < indexBound) ∧ ∀ n ∈ r.steps, n < indexBound
  | .cycle (.values vs) => ∀ v ∈ vs, v < modulus
  | .cycle (.prng seed count) => seed ≠ [] ∧ count < indexBound
  | .cycle (.power base count) => base < modulus ∧ count < indexBound
  | .mask source value => source < indexBound ∧ value < modulus

structure Schema.Legible (s : Schema) : Prop where
  modulus_lt : s.modulus < Token.intBound
  constants : ∀ c ∈ s.constants, Literal.Below s.modulus c
  functions : ∀ f ∈ s.functions, f.Legible s.modulus
  registers : ∀ r ∈ s.registers.registers, r.Legible s.modulus
  transition : s.transition.Legible s.modulus
  evaluation : s.evaluation.Legible s.modulus

/-! ## Canonical forms are accepted -/

section

variable {cx : Grammar.Context} {ρ : List (Option Shape)} {locals : List Shape}

/-- No vector or matrix is built from nothing. -/
theorem Env.args_ne_nil_of_rule {Γ : Env} {op : Op} (hop : op = .vector ∨ ∃ ns, op = .matrix ns)
    {args : List Expr} {s : Shape} (h : Γ.rule op args (args.map Expr.shape) = some s) :
    args ≠ [] := by
  rintro rfl
  rcases hop with rfl | ⟨ns, rfl⟩
  · cases h
  · obtain ⟨-, hgrid⟩ := Env.rule_matrix.1 h
    obtain ⟨hne, cols, hcols, hall, -, -⟩ := Rule.grid_eq_ok.1 hgrid
    obtain ⟨row, hrow⟩ := List.exists_mem_of_ne_nil _ hne
    have hnil := List.eq_nil_of_subset_nil (Tensor.subset_of_mem_chunks hrow)
    have hlen := hall row hrow
    rw [hnil, List.length_nil] at hlen
    omega

/-- The canonical forms of operands are no bare numbers, so no vector is taken for a literal. -/
theorem Op.Legible.admits {modulus : Nat} {op : Op} {s t : Shape} {args : List Expr}
    (h : op.Legible modulus locals s args) (hlocal : op.local? = none) {Γ : Env}
    (hrule : Γ.rule op args (args.map Expr.shape) = some t) :
    op.Admits modulus (args.map Expr.sexp) args := by
  have hforms : args ≠ [] → ∃ x ∈ args.map Expr.sexp, x.isInt = false := by
    intro hne
    obtain ⟨a, ha⟩ := List.exists_mem_of_ne_nil args hne
    exact ⟨a.sexp, List.mem_map_of_mem ha, a.isInt_sexp⟩
  cases op with
  | load source i =>
    cases source with
    | «local» => cases hlocal
    | _ => exact h
  | vector => exact hforms (Env.args_ne_nil_of_rule (.inl rfl) hrule)
  | matrix widths => exact hforms (Env.args_ne_nil_of_rule (.inr ⟨widths, rfl⟩) hrule)
  | _ => exact h

/-- **The canonical form denotes the expression** if it checks and is legible. -/
theorem Expr.Checks.denotes {e : Expr} {s : Shape} (h : e.Checks cx.env ρ s)
    (hlegible : e.Legible cx.modulus locals)
    (hρ : ∀ {i : Nat} {t : Shape}, ρ.getD i none = some t → locals[i]? = some t)
    (hbound : locals.length ≤ indexBound) : Grammar.Denotes cx ρ e.sexp e ∧ e.shape = s := by
  induction e using Expr.induction generalizing s with
  | node op t args ih =>
    obtain ⟨htakes, hsized⟩ := Expr.sized_node.1 h.sized
    obtain ⟨⟨-, hop⟩, hargs⟩ := Expr.legible_node.1 hlegible
    have hchecks := h.checks
    rw [Expr.sexp_node]
    cases hlocal : op.local? with
    | some i =>
      -- a load of a local has the shape that was stored, which is the declared one
      obtain rfl := Op.local?_eq_some.1 hlocal
      obtain rfl := List.length_eq_zero_iff.1 htakes
      rw [Evaluator.expr_local, Evaluator.read_eq_ok] at hchecks
      have hdeclared : locals[i]? = some t := hop
      obtain rfl : t = s := Option.some.inj (hdeclared.symm.trans (hρ hchecks))
      have hi := (List.getElem?_eq_some_iff.1 hdeclared).1
      exact ⟨.node .nil (Nat.lt_of_lt_of_le hi hbound) hchecks, rfl⟩
    | none =>
      rw [Evaluator.expr_node ρ hlocal] at hchecks
      obtain ⟨rfl, shapes, hshapes, hrule⟩ := Env.checker_node_eq_ok.1 hchecks
      have hdenotes : ∀ a ∈ args, Grammar.Denotes cx ρ a.sexp a
          ∧ cx.env.checker.expr ρ a = .ok a.shape := by
        intro a ha
        obtain ⟨u, -, hu⟩ := ok_of_mem_of_mapM hshapes (List.mem_map_of_mem ha)
        obtain ⟨hdenotes, rfl⟩ := ih a ha ⟨hsized a ha, hu⟩ (hargs a ha)
        exact ⟨hdenotes, hu⟩
      have hannotated : (args.map (cx.env.checker.expr ρ)).mapM id = .ok (args.map Expr.shape) := by
        rw [mapM_eq_ok, List.forall₂_map_left_iff, List.forall₂_map_right_iff, List.forall₂_same]
        exact fun a ha => (hdenotes a ha).2
      obtain rfl : args.map Expr.shape = shapes :=
        Except.ok.inj (hannotated.symm.trans hshapes)
      refine ⟨.node ?_ (hop.admits hlocal hrule) ?_, rfl⟩
      · rw [List.forall₂_map_left_iff, List.forall₂_same]
        exact fun a ha => (hdenotes a ha).1
      · rw [Env.shapeOf_of_local? hlocal]
        exact hrule

/-- Declarations are written first. -/
theorem Grammar.statements_locals (cx : Grammar.Context) {locals : List Shape}
    (h : ∀ s ∈ locals, s.Writable) :
    Statements cx (locals.map (Shape.clause "local"))
      ⟨locals, List.replicate locals.length none, []⟩ := by
  induction locals using List.reverseRecOn with
  | nil => exact .nil
  | append_singleton locals s ih =>
    rw [List.forall_mem_append, List.forall_mem_singleton] at h
    rw [List.map_append, List.length_append, List.length_singleton, List.replicate_succ']
    exact (ih h.1).declare h.2

namespace Block

variable {b : Block}

/-- The statements up to some store, and which locals may then be read. -/
theorem Legible.statements (h : b.Legible cx.modulus) (hformed : b.Formed)
    (hbound : b.locals.length ≤ indexBound) {ts : List Assign} (hts : ∀ t ∈ ts, t ∈ b.stores)
    (hstores : cx.env.checker.stores (List.replicate b.locals.length none) ts = .ok ρ) :
    Grammar.Statements cx (b.locals.map (Shape.clause "local") ++ ts.map Assign.sexp)
        ⟨b.locals, ρ, ts⟩
      ∧ ρ.length = b.locals.length
      ∧ ∀ {i : Nat} {s : Shape}, ρ.getD i none = some s → b.locals[i]? = some s := by
  induction ts using List.reverseRecOn generalizing ρ with
  | nil =>
    obtain rfl := Except.ok.inj hstores
    rw [List.map_nil, List.append_nil]
    refine ⟨Grammar.statements_locals cx h.locals, List.length_replicate, ?_⟩
    intro i s hs
    rw [List.getD_eq_getElem?_getD, List.getElem?_replicate] at hs
    split at hs <;> cases hs
  | append_singleton ts t ih =>
    rw [List.forall_mem_append, List.forall_mem_singleton] at hts
    rw [Evaluator.stores_append] at hstores
    obtain ⟨ρ₁, hρ₁, hlast⟩ := bind_eq_ok.1 hstores
    obtain ⟨hstatements, hlen, hread⟩ := ih hts.1 hρ₁
    obtain ⟨s, hs, hset⟩ := Evaluator.stores_cons_eq_ok.1 hlast
    obtain rfl := Except.ok.inj hset
    -- the value reads only what the stores before it have stored
    have hchecks : t.value.Checks cx.env ρ₁ s := ⟨hformed.sized_store hts.2, hs⟩
    obtain ⟨hdenotes, rfl⟩ := hchecks.denotes (h.value hts.2) hread hbound
    have hdeclared := h.stores t hts.2
    have htarget := (List.getElem?_eq_some_iff.1 hdeclared).1
    refine ⟨?_, by rw [List.length_set, hlen], ?_⟩
    · rw [List.map_append, ← List.append_assoc]
      exact hstatements.store (Nat.lt_of_lt_of_le htarget hbound) hdenotes hdeclared
    · intro i u hu
      exact getElem?_of_getD_set hread (by omega) hdeclared hu

/-- **The canonical form denotes the block** if it checks and is legible. -/
theorem Checks.denotes {s : Shape} (h : b.Checks cx.env s) (hlegible : b.Legible cx.modulus)
    (hbound : b.locals.length ≤ indexBound) :
    Grammar.DenotesBlock cx b.sexps b ∧ b.result.shape = s := by
  obtain ⟨ρ, hρ, hresult⟩ := bind_eq_ok.1 h.checks
  obtain ⟨hstatements, -, hread⟩ :=
    hlegible.statements h.formed hbound (fun t ht => ht) hρ
  have hchecks : b.result.Checks cx.env ρ s := ⟨h.formed.sized_result, hresult⟩
  obtain ⟨hdenotes, hshape⟩ := hchecks.denotes hlegible.result hread hbound
  exact ⟨.result hstatements hdenotes, hshape⟩

end Block

end

end Arithmetization
