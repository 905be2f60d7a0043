import Arithmetization.Position
import Arithmetization.Expr.Op
import Arithmetization.Procedure.Kind

/-!
Everything that can be wrong with a source text or with a schema built by hand. A fault is a cause;
its wording is in one function beside it, and the place in the text is kept apart from the cause so
that the same rule can be checked with and without a text.
-/

set_option autoImplicit false

namespace Arithmetization

/-! ## Causes -/

/-- Why a text has no tokens. -/
inductive LexFault where
  | invalidChar (c : Char)
  | malformedHex (text : String)
  | malformedInteger (text : String)
  | tooManyTokens
  | notUtf8
deriving DecidableEq, Repr

namespace LexFault

def message : LexFault → String
  | .invalidChar c => s!"invalid char '{c}'"
  | .malformedHex text => s!"malformed hex literal '{text}'"
  | .malformedInteger text => s!"malformed integer '{text}'"
  | .tooManyTokens => "too many tokens"
  | .notUtf8 => "source is not valid UTF-8"

end LexFault

/-- What stands in the grammar where the text has something else. -/
inductive Expected where
  | closing
  | formBeforeClosing
  | index
  | fieldElement
  | elementBelow (modulus got : Nat)
  /-- A form with a given head and the operands it takes. -/
  | form (head operands : String)
  | type
  | nonZeroLength
  | literal
  | literalRow
  | resultExpression
  | statement
  | expression
  | matrixRow
  | modulus
  | primeModulus
  | functionResult
  | span (n : Nat)
  | procedureResult
  | visibility
  | binding
  | steps
  | pattern
  | powerBase
  | cycleValue
  | register
  | moduleForm
  | singleModule
  | sectionForm
  | singleSection (name : String)
  | missingSection (name : String)
deriving DecidableEq, Repr

namespace Expected

def message : Expected → String
  | .closing => "')'"
  | .formBeforeClosing => "form before ')'"
  | .index => "index"
  | .fieldElement => "field element"
  | .elementBelow m got => s!"field element below {m} (got {got})"
  | .form head operands => s!"({head} {operands})"
  | .type => "type (scalar | vector n | matrix r c)"
  | .nonZeroLength => "non-zero length"
  | .literal => "literal (scalar | vector | matrix)"
  | .literalRow => "matrix row (v+)"
  | .resultExpression => "result expression"
  | .statement => "(local ..) or (store.local ..)"
  | .expression => "expression"
  | .matrixRow => "matrix row (expr+)"
  | .modulus => "modulus"
  | .primeModulus => "prime modulus of at least 3"
  | .functionResult => "(result <type>)"
  | .span n => s!"(span {n})"
  | .procedureResult => "(result vector <n>)"
  | .visibility => "public | secret"
  | .binding => "vector | scalar | (parent i)"
  | .steps => "steps"
  | .pattern => "filled | <steps> | (steps n)"
  | .powerBase => "power base"
  | .cycleValue => "cycle value"
  | .register => "register declaration (input | cycle | mask)"
  | .moduleForm => "(module ..)"
  | .singleModule => "a single (module ..) form"
  | .sectionForm =>
    "module section (field | const | function | static | transition | evaluation)"
  | .singleSection name => s!"a single ({name} ..) section"
  | .missingSection name => s!"({name} ..) section"

end Expected

/-- Shapes that do not fit together. -/
inductive ShapeFault where
  | literal
  | operands (op : BinaryOp) (lhs rhs : Shape)
  | exponent
  | vectorElements
  | vectorEmpty
  | matrixRows
  | matrixElements
  | getOf (shape : Shape)
  | getBounds (index length : Nat)
  | sliceOf (shape : Shape)
  | sliceBounds (first last length : Nat)
  | callArity (function expected got : Nat)
  | callArgument (index function : Nat) (expected got : Shape)
  | raggedLiteral
  | stored (index : Nat) (declared got : Shape)
  | procedureResult (kind : ProcedureKind) (width : Nat) (got : Shape)
  | functionResult (declared got : Shape)
  | degreeShapes
  | degreeVector
  | degreeProduct
deriving DecidableEq, Repr

namespace ShapeFault

def message : ShapeFault → String
  | .literal => "literal must be non-empty and rectangular"
  | .operands op lhs rhs => s!"cannot {op.keyword} {lhs.text} and {rhs.text}"
  | .exponent => "exponent must be a constant scalar"
  | .vectorElements => "vector elements must be scalars or vectors"
  | .vectorEmpty => "vector must not be empty"
  | .matrixRows => "matrix rows must be non-empty and of equal length"
  | .matrixElements => "matrix elements must be scalars"
  | .getOf shape => s!"cannot get element of {shape.text}"
  | .getBounds index length => s!"element index {index} out of bounds for vector {length}"
  | .sliceOf shape => s!"cannot slice {shape.text}"
  | .sliceBounds first last length => s!"slice {first}..={last} out of bounds for vector {length}"
  | .callArity function expected got =>
    s!"function {function} expects {expected} arguments (got {got})"
  | .callArgument index function expected got =>
    s!"argument {index} of function {function} must be {expected.text} (got {got.text})"
  | .raggedLiteral => "matrix rows must have equal length"
  | .stored index declared got =>
    s!"local {index} is {declared.text} but stored value is {got.text}"
  | .procedureResult kind width got =>
    s!"{kind.keyword} result must be vector {width} (got {got.text})"
  | .functionResult declared got => s!"function result must be {declared.text} (got {got.text})"
  | .degreeShapes => "degree operands have different shapes"
  | .degreeVector => "expected vector degree"
  | .degreeProduct => "cannot prod degrees"

end ShapeFault

/-- Register declarations that contradict their module or each other. -/
inductive RegisterFault where
  | parentLeaf (parent : Nat)
  | parentUnknown (parent : Nat)
  | scalarWithParent
  | steps (got : Nat)
  | cycleValue (value : Nat)
  | powerBase (value : Nat)
  | cycleLength (period : Nat)
  | maskSource (source : Nat)
  | maskValue (value : Nat)
  | noChildren (index : Nat)
  | leafSteps (index steps shared : Nat)
deriving DecidableEq, Repr

namespace RegisterFault

def message : RegisterFault → String
  | .parentLeaf parent => s!"parent register {parent} is a leaf (declared with steps)"
  | .parentUnknown parent => s!"parent {parent} is not a previously declared input register"
  | .scalarWithParent => "scalar input cannot have a parent"
  | .steps got => s!"input steps must be a power of two (got {got})"
  | .cycleValue value => s!"cycle value {value} is not a field element"
  | .powerBase value => s!"power base {value} is not a field element"
  | .cycleLength period => s!"cycle length must be a power of two (got {period})"
  | .maskSource source => s!"mask source {source} must reference an earlier register"
  | .maskValue value => s!"mask value {value} is not a field element"
  | .noChildren index => s!"filled input register {index} has no child registers"
  | .leafSteps index n shared =>
    s!"leaf input register {index} has {n} steps; all leaves must share {shared}"

end RegisterFault

/-- Sizes over a configured limit. -/
inductive LimitFault where
  | parseDepth
  | traceRegisters (count limit : Nat)
  | staticRegisters (count limit : Nat)
  | constraints (count limit : Nat)
  | registerSpan (index span limit : Nat)
deriving DecidableEq, Repr

namespace LimitFault

def message : LimitFault → String
  | .parseDepth => "parse depth exceeded"
  | .traceRegisters count limit => s!"{count} trace registers exceed the limit of {limit}"
  | .staticRegisters count limit => s!"{count} static registers exceed the limit of {limit}"
  | .constraints count limit => s!"{count} constraints exceed the limit of {limit}"
  | .registerSpan index span limit =>
    s!"static register {index} spans {span} steps, over the trace length limit of {limit}"

end LimitFault

/-- Names and indexes that refer to nothing. -/
inductive ReferenceFault where
  | function (index : Nat)
  | const (index : Nat)
  | localUnstored (index : Nat)
  | localUndeclared (index : Nat)
  | traceRow (index span : Nat)
  | staticRow (index : Nat)
  | noStatics
  | param (index : Nat)
  | paramOutsideFunction
  | insideFunction (source : Source)
  | localUnset (index : Nat)
  | paramUnbound (index : Nat)
  | functionUndeclared (index : Nat)
  | procedures
deriving DecidableEq, Repr

namespace ReferenceFault

def message : ReferenceFault → String
  | .function index => s!"function {index}"
  | .const index => s!"constant {index}"
  | .localUnstored index => s!"local {index} is read before it is stored"
  | .localUndeclared index => s!"local {index} is not declared"
  | .traceRow index span => s!"trace row {index} outside of span {span}"
  | .staticRow index => s!"static row {index}"
  | .noStatics => "module declares no static registers"
  | .param index => s!"parameter {index}"
  | .paramOutsideFunction => "load.param outside of a function"
  | .insideFunction source => s!"{source.keyword} inside a function"
  | .localUnset index => s!"local {index} has no stored value"
  | .paramUnbound index => s!"parameter {index} is not bound"
  | .functionUndeclared index => s!"function {index} is not declared"
  | .procedures => "module must define transition and evaluation procedures"

end ReferenceFault

/-! ## Faults -/

/-- One fault. Lexical and grammatical faults always have a place; the faults of shapes, registers
and references have one when they were found in a text. A stop is no answer but the end of the
run. -/
inductive Fault where
  | lex (cause : LexFault) (pos : Position)
  | parse (expected : Expected) (pos : Position)
  | shape (cause : ShapeFault) (pos : Option Position)
  | register (cause : RegisterFault) (pos : Option Position)
  | degreeLimit (constraint degree limit : Nat)
  | limit (cause : LimitFault)
  | undefined (cause : ReferenceFault) (pos : Option Position)
  | stop (why : Stop)
deriving DecidableEq, Repr

namespace Fault

/-- Give a place to a fault of shapes, registers or references that has none. -/
def locate (pos : Position) : Fault → Fault
  | .shape cause none => .shape cause (some pos)
  | .register cause none => .register cause (some pos)
  | .undefined cause none => .undefined cause (some pos)
  | other => other

def isStop : Fault → Bool
  | .stop _ => true
  | _ => false

/-- The words ` at line:column`, or nothing. -/
def place : Option Position → String
  | some pos => s!" at {pos.text}"
  | none => ""

def message : Fault → String
  | .lex cause pos => s!"lex: {cause.message} at {pos.text}"
  | .parse expected pos => s!"parse: expected {expected.message} at {pos.text}"
  | .shape cause pos => s!"dimension mismatch: {cause.message}{place pos}"
  | .register cause pos => s!"register declaration: {cause.message}{place pos}"
  | .degreeLimit constraint degree bound =>
    s!"degree limit exceeded: constraint {constraint} has degree {degree} over the limit of {bound}"
  | .limit cause => s!"limit exceeded: {cause.message}"
  | .undefined cause pos => s!"undefined reference: {cause.message}{place pos}"
  | .stop why => why.message

/-- The message for all faults found in one run: a single fault speaks for itself, several are
counted and listed. -/
def report : List Fault → String
  | [single] => single.message
  | faults =>
    faults.foldl (fun text f => text ++ "\n  - " ++ f.message)
      s!"compilation failed with {faults.length} errors:"

end Fault

end Arithmetization
