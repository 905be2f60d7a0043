import Arithmetization.Degree.Basic
import Arithmetization.Procedure.Basic

/-!
Inference of degrees. A body is read statement by statement; a call is read with the degrees of its
arguments. Dividing by something that depends on a register costs a fixed amount, since the result
is then no polynomial.
-/

set_option autoImplicit false

namespace Arithmetization

namespace Degree

/-- The degree of the result of a function from the degrees of its arguments. -/
abbrev Callee := List Degree → Except Fault Degree

/-- What inference knows about the module. -/
structure Context where
  constants : List Literal
  functions : List Function
  inverseCost : Nat

namespace Context

/-- The degree of an inverse. -/
def inverse (cx : Context) (d : Nat) : Nat :=
  if d = 0 then 0 else cx.inverseCost

/-- The number above a power. -/
def exponent (cx : Context) (args : List Expr) : Except Fault Nat :=
  match args[1]?.bind Expr.exponent? with
  | some e =>
    match e.value? cx.constants with
    | some n => .ok (min n cap)
    | none => .error (.shape .exponent none)
  | none => .error (.shape .exponent none)

/-- The degree of a node from the degrees of its operands. -/
def node (cx : Context) (callees : List Callee) (locals : List (Option Degree))
    (params : List Degree) (op : Op) (shape : Shape) (args : List Expr) (ds : List Degree) :
    Except Fault Degree :=
  match op, ds with
  | .literal _, _ => .ok (zero shape)
  | .load .const _, _ => .ok (zero shape)
  | .load .trace _, _ => filled shape 1
  -- as many as there are registers, which are a list themselves
  | .load .static _, _ => .ok (.uniform shape 1)
  | .load .local i, _ =>
    match locals.getD i none with
    | some d => .ok d
    | none => .error (.undefined (.localUnset i) none)
  | .load .param i, _ =>
    match params[i]? with
    | some d => .ok d
    | none => .error (.undefined (.paramUnbound i) none)
  | .segment _ _ _, _ => filled shape 1
  | .binary .add, [a, b] => zipWith max a b
  | .binary .sub, [a, b] => zipWith max a b
  | .binary .mul, [a, b] => zipWith addCapped a b
  | .binary .div, [a, b] => zipWith (fun x y => addCapped x (cx.inverse y)) a b
  | .binary .exp, [a, _] => do
    let e ← cx.exponent args
    return a.map (mulCapped · e)
  | .binary .prod, [a, b] => product a b
  | .unary .neg, [a] => .ok a
  | .unary .inv, [a] => .ok (a.map cx.inverse)
  | .vector, ds => .ok (.vector (ds.flatMap Tensor.elements))
  | .matrix widths, ds => .ok (.matrix (Tensor.chunks widths (ds.flatMap Tensor.elements)))
  | .get i, [a] => do return .scalar ((← vectorOf a).getD i 0)
  | .slice first last, [a] => do
    return .vector (((← vectorOf a).drop first).take (last + 1 - first))
  | .call f, ds =>
    match callees[f]? with
    | some callee => callee ds
    | none => .error (.undefined (.functionUndeclared f) none)
  -- a node with another number of operands is never made
  | _, _ => .error (.shape .degreeShapes none)

/-- The degree of an expression; operands are looked at in order, the first fault wins. -/
def expr (cx : Context) (callees : List Callee) (locals : List (Option Degree))
    (params : List Degree) : Expr → Except Fault Degree :=
  Expr.fold fun op shape args results => do
    let ds ← results.mapM id
    cx.node callees locals params op shape args ds

/-- The degrees of the locals after some stores. -/
def stores (cx : Context) (callees : List Callee) (params : List Degree) :
    List (Option Degree) → List Assign → Except Fault (List (Option Degree))
  | locals, [] => .ok locals
  | locals, s :: rest => do
    let d ← cx.expr callees locals params s.value
    cx.stores callees params (locals.set s.target (some d)) rest

/-- The degree of the result of a block. -/
def block (cx : Context) (callees : List Callee) (params : List Degree) (b : Block) :
    Except Fault Degree := do
  let locals ← cx.stores callees params (List.replicate b.locals.length none) b.stores
  cx.expr callees locals params b.result

/-- The functions as callees when calls may nest `depth` deep. A chain of calls that comes back to
no function is no longer than the list of functions. -/
def callees (cx : Context) : Nat → List Callee
  | 0 => cx.functions.mapIdx fun f _ _ => .error (.undefined (.functionUndeclared f) none)
  | depth + 1 =>
    let inner := cx.callees depth
    cx.functions.map fun f args => cx.block inner args f.body.block

/-- The degree of the result of a body with `params` bound to its parameters. -/
def body (cx : Context) (b : Body) (params : List Degree) : Except Fault Degree :=
  cx.block (cx.callees cx.functions.length) params b.block

/-- The degree of the result of a procedure. -/
def procedure (cx : Context) (b : Body) : Except Fault Degree :=
  cx.body b [] >>= kept

end Context

end Degree

end Arithmetization
