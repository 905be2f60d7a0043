import Arithmetization.Grammar.Atom
import Arithmetization.Procedure.Basic

/-!
Expressions and bodies. What a form may refer to depends on where it stands, which is its context;
the nodes it denotes are appended to the body in the making, operands before the node that uses
them.
-/

set_option autoImplicit false

namespace Arithmetization.Grammar

/-- Where an expression stands, and so what it can load besides constants and locals. -/
inductive Scope where
  | function (params : List Shape)
  /-- `statics` is the number of static registers, if there are any. -/
  | procedure (span traceWidth : Nat) (statics : Option Nat)
deriving Repr

/-- What an expression can refer to, and what happens to a vector that is too long to be counted.
Functions are those declared before. -/
structure Context where
  modulus : Nat
  constants : List Literal
  functions : List Function
  scope : Scope
  overflow : Overflow

/-- What the first symbol of an expression can be. -/
inductive Head where
  | binary (op : BinaryOp)
  | unary (op : UnaryOp)
  | scalar
  | vector
  | matrix
  | get
  | slice
  | call
  | load (source : Source)
deriving DecidableEq, Repr

namespace Head

def ofSymbol? (name : String) : Option Head :=
  match BinaryOp.ofKeyword? name, UnaryOp.ofKeyword? name, Source.ofKeyword? name with
  | some op, _, _ => some (.binary op)
  | none, some op, _ => some (.unary op)
  | none, none, some source => some (.load source)
  | none, none, none =>
    match name with
    | "scalar" => some .scalar
    | "vector" => some .vector
    | "matrix" => some .matrix
    | "get" => some .get
    | "slice" => some .slice
    | "call" => some .call
    | _ => none

/-- How the operands of a form are described to someone who gave it others. -/
def operands : Head → String
  | .binary _ => "a b"
  | .unary _ => "a"
  | .get => "expr i"
  | .slice => "expr start end"
  | .call => "f expr*"
  | .load _ => "i"
  | .scalar | .vector | .matrix => ""

end Head

/-- Whether a `scalar`, `vector` or `matrix` form with these operands is a literal: vectors and
matrices are if they hold numbers only. -/
def isLiteral (head : Head) (args : List Form) : Bool :=
  match head with
  | .scalar => true
  | .vector => !args.isEmpty && args.all Form.isInt
  | .matrix => !args.isEmpty && args.all fun row => row.isList && row.items.all Form.isInt
  | _ => false

/-- Faults of a node are reported at the form that denotes it. -/
def located {α : Type} (pos : Position) : Except Fault α → Except Fault α
  | .ok a => .ok a
  | .error f => .error (f.locate pos)

/-- The shape of what is loaded. -/
def loadShape (cx : Context) (b : Builder) (source : Source) (index : Nat) : Except Fault Shape :=
  match source, cx.scope with
  | .const, _ =>
    match cx.constants[index]? with
    | some c => .ok c.shape
    | none => .error (.undefined (.const index) none)
  | .local, _ => b.readable index
  | .trace, .procedure span traceWidth _ =>
    if index < span then .ok (.vector traceWidth)
    else .error (.undefined (.traceRow index span) none)
  | .static, .procedure _ _ (some n) =>
    if index = 0 then .ok (.vector n) else .error (.undefined (.staticRow index) none)
  | .static, .procedure _ _ none => .error (.undefined .noStatics none)
  | .param, .function params =>
    match params[index]? with
    | some shape => .ok shape
    | none => .error (.undefined (.param index) none)
  | .param, .procedure _ _ _ => .error (.undefined .paramOutsideFunction none)
  | .trace, .function _ => .error (.undefined (.insideFunction .trace) none)
  | .static, .function _ => .error (.undefined (.insideFunction .static) none)

/-- Append a load. -/
def load (cx : Context) (b : Builder) (source : Source) (index : Nat) :
    Except Fault (Builder × Nat) := do
  let shape ← loadShape cx b source index
  b.onArena fun a => .ok (a.load source index shape)

mutual

/-- Append the nodes that a form denotes; the answer is the number of the last one. -/
def expr (cx : Context) (b : Builder) : Form → Except Fault (Builder × Nat)
  | .int value pos => do
    let n ← element cx.modulus (.int value pos)
    b.onArena (·.literal (.scalar n))
  | .list (.sym name namePos :: args) pos =>
    match Head.ofSymbol? name with
    | none => .error (.parse .expression pos)
    | some head =>
      if isLiteral head args then do
        let value ← literal cx.modulus pos (.sym name namePos :: args)
        located pos (b.onArena (·.literal value))
      else
        match head, args with
        | .binary op, [l, r] => do
          let (b, l) ← expr cx b l
          let (b, r) ← expr cx b r
          located pos (b.onArena (·.binary op l r))
        | .unary op, [x] => do
          let (b, x) ← expr cx b x
          b.onArena fun a => .ok (a.unary op x)
        | .vector, elements => do
          let (b, ids) ← exprs cx b elements
          located pos (b.onArena (Arena.vector cx.overflow · ids))
        | .matrix, rows => do
          let (b, ids) ← exprRows cx b rows
          located pos (b.onArena (·.matrix ids))
        | .get, [source, i] => do
          let (b, source) ← expr cx b source
          let i ← index i
          located pos (b.onArena (·.element source i))
        | .slice, [source, first, last] => do
          let (b, source) ← expr cx b source
          let first ← index first
          let last ← index last
          located pos (b.onArena (·.slice source first last))
        | .call, f :: args => do
          let f ← index f
          match cx.functions[f]? with
          | none => .error (.undefined (.function f) (some pos))
          | some callee =>
            let (b, ids) ← exprs cx b args
            located pos (b.onArena (·.call f callee.signature ids))
        | .load source, [i] => do
          let i ← index i
          located pos (load cx b source i)
        | head, _ => .error (.parse (.form name head.operands) pos)
  | f => .error (.parse .expression f.pos)

/-- Several expressions, one after the other. -/
def exprs (cx : Context) (b : Builder) : List Form → Except Fault (Builder × List Nat)
  | [] => .ok (b, [])
  | f :: fs => do
    let (b, id) ← expr cx b f
    let (b, ids) ← exprs cx b fs
    return (b, id :: ids)

/-- The rows of a matrix of expressions. -/
def exprRows (cx : Context) (b : Builder) : List Form → Except Fault (Builder × List (List Nat))
  | [] => .ok (b, [])
  | .list items _ :: rows => do
    let (b, row) ← exprs cx b items
    let (b, rest) ← exprRows cx b rows
    return (b, row :: rest)
  | f :: _ => .error (.parse .matrixRow f.pos)

end

theorem expr_int (cx : Context) (b : Builder) (value : Nat) (pos : Position) :
    expr cx b (.int value pos) = (do
      let n ← element cx.modulus (.int value pos)
      b.onArena (·.literal (.scalar n))) := by
  rw [expr]

theorem exprs_nil (cx : Context) (b : Builder) : exprs cx b [] = .ok (b, []) := by
  rw [exprs]

theorem exprs_cons (cx : Context) (b : Builder) (f : Form) (fs : List Form) :
    exprs cx b (f :: fs) = (do
      let (b, id) ← expr cx b f
      let (b, ids) ← exprs cx b fs
      return (b, id :: ids)) := by
  rw [exprs]

theorem exprRows_nil (cx : Context) (b : Builder) : exprRows cx b [] = .ok (b, []) := by
  rw [exprRows]

theorem exprRows_cons (cx : Context) (b : Builder) (items rows : List Form) (pos : Position) :
    exprRows cx b (.list items pos :: rows) = (do
      let (b, row) ← exprs cx b items
      let (b, rest) ← exprRows cx b rows
      return (b, row :: rest)) := by
  rw [exprRows]

/-! ## Bodies -/

/-- A store statement `(store.local i expr)`. -/
def store (cx : Context) (b : Builder) (st : Form) : Except Fault Builder :=
  match st.items with
  | [_, target, value] => do
    let target ← index target
    let (b, id) ← expr cx b value
    located st.pos (b.store target id)
  | _ => .error (.parse (.form "store.local" "i expr") st.pos)

/-- One statement. Its faults are added to those before it; a store that failed still lets its local
be read, so that one fault is not reported again at every read. -/
def statement (cx : Context) : Builder × List Fault → Form → Builder × List Fault
  | (b, faults), st =>
    match st.head? with
    | some "local" =>
      match type st.pos st.operands with
      | .ok shape => ((b.declare shape).1, faults)
      | .error f => (b, faults ++ [f])
    | some "store.local" =>
      match store cx b st with
      | .ok b => (b, faults)
      | .error f =>
        match st.operands.head?.map index with
        | some (.ok i) => (b.assumeStored i, faults ++ [f])
        | _ => (b, faults ++ [f])
    | _ => (b, faults ++ [.parse .statement st.pos])

/-- A body: statements and a result expression. -/
def body (cx : Context) (pos : Position) (items : List Form) : Except (List Fault) Body :=
  match items.getLast? with
  | none => .error [.parse .resultExpression pos]
  | some result =>
    let (b, faults) := items.dropLast.foldl (statement cx) (.empty, [])
    match expr cx b result with
    | .ok (b, id) => if faults.isEmpty then .ok (b.finish id) else .error faults
    | .error f => .error (faults ++ [f])

end Arithmetization.Grammar
