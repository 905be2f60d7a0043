import Arithmetization.Procedure.Basic
import Arithmetization.Value

/-!
Running blocks. An expression is evaluated in a frame, which holds all that it can load. Functions
see only the functions before them, so calls come to an end.
-/

set_option autoImplicit false

namespace Arithmetization

/-- All that an expression can load, besides constants. -/
structure Frame where
  rows : List (List Element)
  statics : List Element
  params : List Value
  locals : List (Option Value)

/-- The result of a function from its arguments. -/
abbrev Callee := List Value → Except RunFault Value

namespace Run

/-- The number above a power. -/
def exponent (constants : List Literal) (args : List Expr) : Except RunFault Nat :=
  match args[1]?.bind Expr.exponent? with
  | some (.number n) => .ok n
  | some (.const i) =>
    match constants[i]? with
    | some c =>
      match c.scalar? with
      | some n => .ok n
      | none => .error (.shape .exponent)
    | none => .error (.shape (.const i))
  | none => .error (.shape .exponent)

/-- A load from a frame. -/
def load (constants : List Literal) (f : Frame) (source : Source) (index : Nat) :
    Except RunFault Value :=
  match source with
  | .const =>
    match constants[index]? with
    | some c => .ok (.ofLiteral c)
    | none => .error (.shape (.const index))
  | .trace =>
    match f.rows[index]? with
    | some row => .ok (.vector row)
    | none => .error (.shape (.traceRow index))
  | .static => .ok (.vector f.statics)
  | .local =>
    match f.locals.getD index none with
    | some v => .ok v
    | none => .error (.shape (.localUnset index))
  | .param =>
    match f.params[index]? with
    | some v => .ok v
    | none => .error (.shape (.param index))

/-- The registers `first` to `last` of a trace row. -/
def segment (f : Frame) (row first last : Nat) : Except RunFault Value :=
  match f.rows[row]? with
  | some r =>
    match Value.segment? r first last with
    | some xs => .ok (.vector xs)
    | none => .error (.shape (.segment first last))
  | none => .error (.shape (.traceRow row))

/-- An operator on two values; powers are not among them, since their exponent is no value. -/
def binary : BinaryOp → Value → Value → Except RunFault Value
  | .add => Value.add
  | .sub => Value.sub
  | .mul => Value.mul
  | .div => Value.div
  | .prod => Value.prod
  | .exp => fun _ _ => .error (.shape .exponent)

def unary : UnaryOp → Value → Except RunFault Value
  | .neg => fun a => .ok a.neg
  | .inv => Value.inv

/-- The value of a node from the results of its operands, which are looked at in order. -/
def node (constants : List Literal) (callees : List Callee) (f : Frame) (op : Op)
    (args : List Expr) (results : List (Except RunFault Value)) : Except RunFault Value :=
  match op, results with
  | .literal value, _ => .ok (.ofLiteral value)
  | .load source index, _ => load constants f source index
  | .segment row first last, _ => segment f row first last
  | .binary .exp, a :: _ => do
    let e ← exponent constants args
    return (← a).pow e
  | .binary op, [a, b] => do binary op (← a) (← b)
  | .binary _, _ => .error (.shape .twoOperands)
  | .unary op, [a] => do unary op (← a)
  | .vector, parts => do Value.concat (← parts.mapM id)
  | .matrix widths, elements => do
    let xs ← elements.mapM fun r => do (← r).asScalar
    return .matrix (Tensor.chunks widths xs)
  | .get index, [a] => do (← a).get index
  | .slice first last, [a] => do (← a).slice first last
  | .call index, args => do
    let values ← args.mapM id
    match callees[index]? with
    | some callee => callee values
    | none => .error (.shape (.function index))
  | _, _ => .error (.shape .oneOperand)

/-- The value of an expression. -/
def expr (constants : List Literal) (callees : List Callee) (f : Frame) :
    Expr → Except RunFault Value :=
  Expr.fold fun op _ args results => node constants callees f op args results

/-- The frame after some stores. -/
def stores (constants : List Literal) (callees : List Callee) :
    Frame → List Assign → Except RunFault Frame
  | f, [] => .ok f
  | f, s :: rest => do
    let v ← expr constants callees f s.value
    stores constants callees { f with locals := f.locals.set s.target (some v) } rest

/-- The value of a block: its stores one after the other, then its result. -/
def block (constants : List Literal) (callees : List Callee) (rows : List (List Element))
    (statics : List Element) (params : List Value) (b : Block) : Except RunFault Value := do
  let f ←
    stores constants callees ⟨rows, statics, params, List.replicate b.locals.length none⟩ b.stores
  expr constants callees f b.result

/-- The functions as callees; each sees those before it. -/
def callees (constants : List Literal) (functions : List Block) : List Callee :=
  functions.foldl (fun earlier b => earlier ++ [fun args => block constants earlier [] [] args b])
    []

/-! ## References -/

/-- What a node refers to has to exist: its constant, its exponent, its function. -/
def resolveNode (constants : List Literal) (functions : Nat) (op : Op) (args : List Expr) :
    Except RunFault Unit :=
  match op with
  | .load .const i => if i < constants.length then .ok () else .error (.shape (.const i))
  | .binary .exp => (exponent constants args).map fun _ => ()
  | .call i => if i < functions then .ok () else .error (.shape (.function i))
  | _ => .ok ()

/-- Whether everything that an expression refers to exists, where `functions` functions come before
it; operands are looked at first. -/
def resolve (constants : List Literal) (functions : Nat) : Expr → Except RunFault Unit :=
  Expr.fold fun op _ args results => do
    results.forM id
    resolveNode constants functions op args

def resolveBlock (constants : List Literal) (functions : Nat) (b : Block) : Except RunFault Unit :=
  b.exprs.forM (resolve constants functions)

/-- Whether every function finds what it refers to among the functions before it. -/
def resolveFunctions (constants : List Literal) (functions : List Block) : Except RunFault Unit :=
  functions.zipIdx.forM fun (b, i) => resolveBlock constants i b

end Run

end Arithmetization
