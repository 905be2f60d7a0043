import Arithmetization.Expr.Op

/-!
Expressions as trees: an operator, the shape of its result and the operands. Every analysis of an
expression is one fold, so a fact about folds is a fact about all of them.
-/

set_option autoImplicit false

namespace Arithmetization

/-- An expression with the shape of every node written at the node. -/
inductive Expr where
  | node (op : Op) (shape : Shape) (args : List Expr)
deriving Repr

namespace Expr

variable {β : Type}

instance : Inhabited Expr := ⟨.node (.literal (.scalar 0)) .scalar []⟩

def op : Expr → Op
  | .node op _ _ => op

def shape : Expr → Shape
  | .node _ shape _ => shape

def args : Expr → List Expr
  | .node _ _ args => args

mutual

/-- Compute a result for every node from its operator, its shape, its operands and their results. -/
def fold (f : Op → Shape → List Expr → List β → β) : Expr → β
  | .node op shape args => f op shape args (foldAll f args)

/-- The results of a list of expressions. -/
def foldAll (f : Op → Shape → List Expr → List β → β) : List Expr → List β
  | [] => []
  | e :: es => fold f e :: foldAll f es

end

theorem foldAll_eq_map (f : Op → Shape → List Expr → List β → β) (es : List Expr) :
    foldAll f es = es.map (fold f) := by
  induction es with
  | nil => simp [foldAll]
  | cons e es ih => simp [foldAll, ih]

theorem fold_node (f : Op → Shape → List Expr → List β → β) (op : Op) (shape : Shape)
    (args : List Expr) : fold f (.node op shape args) = f op shape args (args.map (fold f)) := by
  rw [fold, foldAll_eq_map]

/-- To prove something of every expression, prove it of a node whose operands have it. -/
@[elab_as_elim]
theorem induction {P : Expr → Prop}
    (node : ∀ op shape args, (∀ a ∈ args, P a) → P (.node op shape args)) (e : Expr) : P e := by
  refine @Expr.rec P (fun es => ∀ a ∈ es, P a) ?_ ?_ ?_ e
  · exact fun op shape args h => node op shape args h
  · intro a h; cases h
  · intro a as ha has b hb
    cases hb with
    | head => exact ha
    | tail _ h => exact has b h

/-- The number of nodes. -/
def weight : Expr → Nat :=
  fold fun _ _ _ ws => ws.foldl (· + ·) 1

/-- The number of nodes that are no literal, load or segment. -/
def operations : Expr → Nat :=
  fold fun op _ _ ns => ns.foldl (· + ·) (if op.isTrivial then 0 else 1)

/-- The locals that an expression reads, with repetitions. -/
def reads : Expr → List Nat :=
  fold fun op _ _ rs => op.local?.toList ++ rs.flatten

/-- Replace the index of every load, keeping everything else. -/
def mapLoads (f : Source → Nat → Nat) : Expr → Expr :=
  fold fun op shape _ args =>
    match op with
    | .load source i => .node (.load source (f source i)) shape args
    | op => .node op shape args

/-- An exponent as an expression can give it: a number, or a constant of the module by its index. -/
inductive Exponent where
  | number (n : Nat)
  | const (index : Nat)
deriving DecidableEq, Repr

/-- The exponent that an expression stands for: a scalar literal or a load of a constant. -/
def exponent? : Expr → Option Exponent
  | .node (.literal (.scalar n)) _ _ => some (.number n)
  | .node (.load .const i) _ _ => some (.const i)
  | _ => none

/-- The number that an exponent stands for among the given constants. -/
def Exponent.value? (constants : List Literal) : Exponent → Option Nat
  | .number n => some n
  | .const i => constants[i]?.bind Tensor.scalar?

end Expr

end Arithmetization
