import Arithmetization.Grammar.Expr
import Arithmetization.Grammar.Register
import Arithmetization.Schema.Basic

/-!
Modules: a single form made of sections. The sections of one kind are taken in their order; the
kinds are taken so that each finds what it may refer to: the field, the constants, the functions,
the static registers, the transition, the evaluation. Every section is looked at even after a fault,
and all faults are reported together.
-/

set_option autoImplicit false

namespace Arithmetization.Grammar

/-- The modulus that stands in for a field section with a fault: the greatest number that can be
written. -/
def noModulus : Nat := Token.intBound - 1

/-- The kinds of sections. -/
def sectionNames : List String :=
  ["field", "const", "function", "static", "transition", "evaluation"]

/-- The sections of one kind. -/
def sectionsOf (name : String) (sections : List Form) : List Form :=
  sections.filter (·.head? = some name)

/-- Whether a form is a section of some kind. -/
def isSection (f : Form) : Bool :=
  match f.head? with
  | some name => sectionNames.contains name
  | none => false

/-- The one section of a kind, and the faults if there are more or, where one is needed, none. -/
def single (name : String) (required : Bool) (modulePos : Position) (sections : List Form) :
    Option Form × List Fault :=
  let found := sectionsOf name sections
  (found.head?,
    found.tail.map (fun f => .parse (.singleSection name) f.pos)
      ++ if required && found.isEmpty then [.parse (.missingSection name) modulePos] else [])

/-- The section `(field prime m)`. -/
def field (s : Form) : Except Fault Nat :=
  match s.items with
  | [_, .sym "prime" _, m] => do
    let m ← int .modulus m
    if m < 3 then throw (.parse .primeModulus s.pos) else return m
  | _ => .error (.parse (.form "field" "prime <modulus>") s.pos)

/-- One constant, added to those before it. -/
def constantStep (modulus : Nat) : List Literal × List Fault → Form → List Literal × List Fault
  | (constants, faults), s =>
    match literal modulus s.pos s.operands with
    | .ok value => (constants ++ [value], faults)
    | .error f => (constants, faults ++ [f])

/-- The section `(function (result T) (param T)* body)`. -/
def function (modulus : Nat) (constants : List Literal) (functions : List Function) (s : Form)
    (overflow : Overflow := .trap) : Except (List Fault) Function :=
  match s.operands with
  | result :: rest =>
    if result.head? = some "result" then
      match type result.pos result.operands with
      | .error f => .error [f]
      | .ok shape =>
        let isParam (f : Form) : Bool := f.head? = some "param"
        match (rest.takeWhile isParam).mapM fun p => type p.pos p.operands with
        | .error f => .error [f]
        | .ok params => do
          let cx : Context := ⟨modulus, constants, functions, .function params, overflow⟩
          let b ← body cx s.pos (rest.dropWhile isParam)
          match Function.ofBody params shape b with
          | .ok f => return f
          | .error f => throw [f.locate s.pos]
    else .error [.parse .functionResult s.pos]
  | [] => .error [.parse .functionResult s.pos]

/-- One function, added to those before it, which it may call. -/
def functionStep (overflow : Overflow) (modulus : Nat) (constants : List Literal) :
    List Function × List Fault → Form → List Function × List Fault
  | (functions, faults), s =>
    match function modulus constants functions s overflow with
    | .ok f => (functions ++ [f], faults)
    | .error fs => (functions, faults ++ fs)

/-- The header `(span n) (result vector w)` of a procedure; the answer is `w`. -/
def header (kind : ProcedureKind) (s : Form) : Except Fault Nat :=
  let spanOk : Bool :=
    match (s.items[1]? : Option Form) with
    | some (.list (.sym "span" _ :: .int n _ :: _) _) => n == kind.span
    | _ => false
  if !spanOk then .error (.parse (.span kind.span) s.pos)
  else
    match s.items[2]? with
    | some r =>
      if r.head? = some "result" then do
        let shape ← type r.pos r.operands
        if shape.isVector then return shape.rows else throw (.parse .procedureResult r.pos)
      else .error (.parse .procedureResult s.pos)
    | none => .error (.parse .procedureResult s.pos)

/-- A procedure section after its header. -/
def procedure (cx : Context) (kind : ProcedureKind) (width : Nat) (s : Form) :
    Except (List Fault) Procedure := do
  let b ← body cx s.pos (s.items.drop 3)
  match Procedure.ofBody kind width b with
  | .ok p => return p
  | .error f => throw [f.locate s.pos]

/-- The answer if there is one, and the faults if there are any. -/
def split {α : Type} : Except (List Fault) α → Option α × List Fault
  | .ok a => (some a, [])
  | .error fs => (none, fs)

/-- The transition: the length of a trace row if its header is right, and the procedure if all of it
is. -/
def transition (cx : Nat → Context) (s : Form) : Option Nat × Option Procedure × List Fault :=
  match header .transition s with
  | .error f => (none, none, [f])
  | .ok width =>
    let (p, faults) := split (procedure (cx width) .transition width s)
    (some width, p, faults)

/-- The evaluation. Its expressions are looked at only if the length of a trace row is known. -/
def evaluation (cx : Nat → Context) (traceWidth : Option Nat) (s : Form) :
    Option Procedure × List Fault :=
  match header .evaluation s, traceWidth with
  | .error f, _ => (none, [f])
  | .ok width, some traceWidth => split (procedure (cx traceWidth) .evaluation width s)
  | .ok _, none => (none, [])

/-- Faults that were found together. After a stop nothing else is reported. -/
def settled (faults : List Fault) : List Fault :=
  match faults.find? Fault.isStop with
  | some stop => [stop]
  | none => faults

/-- The sections of a module form that starts at `pos`. -/
def sections (pos : Position) (all : List Form) (overflow : Overflow := .trap) :
    Except (List Fault) Draft :=
  let unknown := (all.filter (!isSection ·)).map fun f => Fault.parse .sectionForm f.pos
  let (fieldForm, fieldCount) := single "field" true pos all
  let (modulus, fieldFaults) :=
    match fieldForm.map field with
    | some (.ok m) => (m, [])
    | some (.error f) => (noModulus, [f])
    | none => (noModulus, [])
  let (constants, constantFaults) :=
    (sectionsOf "const" all).foldl (constantStep modulus) ([], [])
  let (functions, functionFaults) :=
    (sectionsOf "function" all).foldl (functionStep overflow modulus constants) ([], [])
  let (staticForm, staticCount) := single "static" false pos all
  let declared := (staticForm.map (·.operands.length)).getD 0
  let statics := if declared = 0 then none else some declared
  let (registers, registerFaults) :=
    match staticForm with
    | some s => split (registers modulus s)
    | none => (none, [])
  let (transitionForm, transitionCount) := single "transition" true pos all
  let cx (kind : ProcedureKind) (traceWidth : Nat) : Context :=
    ⟨modulus, constants, functions, .procedure kind.span traceWidth statics, overflow⟩
  let (traceWidth, transition, transitionFaults) :=
    match transitionForm with
    | some s => transition (cx .transition) s
    | none => (none, none, [])
  let (evaluationForm, evaluationCount) := single "evaluation" true pos all
  let (evaluation, evaluationFaults) :=
    match evaluationForm with
    | some s => evaluation (cx .evaluation) traceWidth s
    | none => (none, [])
  let faults :=
    unknown ++ fieldCount ++ fieldFaults ++ constantFaults ++ functionFaults ++ staticCount
      ++ registerFaults ++ transitionCount ++ transitionFaults ++ evaluationCount
      ++ evaluationFaults
  if faults.isEmpty then
    .ok ⟨modulus, constants, functions, registers.getD .empty, transition, evaluation⟩
  else .error (settled faults)

/-- The module that a token stream denotes. -/
def parse (tokens : List Token) (overflow : Overflow := .trap) : Except (List Fault) Draft :=
  match Form.read tokens with
  | .error f => .error [f]
  | .ok [] => .error [.parse .moduleForm .start]
  | .ok [f] =>
    if f.head? = some "module" then sections f.pos f.operands overflow
    else .error [.parse .singleModule f.pos]
  | .ok (f :: _) => .error [.parse .singleModule f.pos]

end Arithmetization.Grammar
