import Arithmetization.Fault

/-!
Everything that can go wrong when a schema is instantiated and run.
-/

set_option autoImplicit false

namespace Arithmetization

/-- Inputs that do not fit the registers that take them. -/
inductive InputFault where
  | nestedTooDeep
  | nestedTooShallow
  | outsideField (value register : Nat)
  | notBinary (register value : Nat)
  | shapeCount (expected got : Nat)
  | groupCount (register expected got : Nat)
  | emptyGroup (register : Nat)
  | notSingle (register : Nat)
  | leafShapes (register other : Nat)
  | inconsistent (register : Nat)
  | traceLength (length least : Nat)
  | period (length period : Nat)
  | cycleValue (value : Nat)
  | treeCount (expected got : Nat)
  | publicCount (expected got : Nat)
  | declaredShape (register : Nat)
  | publicMissing
deriving DecidableEq, Repr

namespace InputFault

def message : InputFault → String
  | .nestedTooDeep => "input tree is nested too deep"
  | .nestedTooShallow => "input tree is not nested deep enough"
  | .outsideField value register => s!"value {value} of register {register} is outside the field"
  | .notBinary register value => s!"binary register {register} received {value}"
  | .shapeCount expected got => s!"expected shapes of {expected} input registers (got {got})"
  | .groupCount register expected got =>
    s!"register {register} needs {expected} value groups (got {got})"
  | .emptyGroup register => s!"register {register} has an empty value group"
  | .notSingle register => s!"scalar register {register} takes exactly one value"
  | .leafShapes register other => s!"leaf registers {register} and {other} have different shapes"
  | .inconsistent register => s!"register {register} maps inconsistently through its children"
  | .traceLength length least =>
    s!"trace length {length} must be a power of two of at least {least}"
  | .period length p => s!"trace length {length} is not a multiple of cycle period {p}"
  | .cycleValue value => s!"{value} is outside the field"
  | .treeCount expected got => s!"expected {expected} input trees (got {got})"
  | .publicCount expected got => s!"expected {expected} public input trees (got {got})"
  | .declaredShape register =>
    s!"public input of register {register} does not match its declared shape"
  | .publicMissing => "missing public input"

end InputFault

/-- Values, rows and columns of the wrong size. Kinds of values are given by their names. -/
inductive SizeFault where
  | kind (expected got : String)
  | combine (lhs rhs : String)
  | product (lhs rhs : String)
  | getBounds (index : Nat)
  | getOf (kind : String)
  | sliceBounds (first last length : Nat)
  | sliceOf (kind : String)
  | matrixInVector
  | const (index : Nat)
  | exponent
  | twoOperands
  | oneOperand
  | traceRow (index : Nat)
  | localUnset (index : Nat)
  | param (index : Nat)
  | segment (first last : Nat)
  | function (index : Nat)
  | subgroup (size : Nat)
  | width (what : String) (got expected : Nat)
  | unresolved
  | publicUnresolved
  | publicMissing
  | secretValues (expected got : Nat)
  | trace (width length expectedWidth expectedLength : Nat)
  | polynomials (width length : Nat)
deriving DecidableEq, Repr

namespace SizeFault

def message : SizeFault → String
  | .kind expected got => s!"expected {expected}, got {got}"
  | .combine lhs rhs => s!"cannot combine {lhs} and {rhs}"
  | .product lhs rhs => s!"cannot prod {lhs} and {rhs}"
  | .getBounds index => s!"element {index} out of bounds"
  | .getOf k => s!"cannot index {k}"
  | .sliceBounds first last length => s!"slice {first}..={last} out of bounds for {length}"
  | .sliceOf k => s!"cannot slice {k}"
  | .matrixInVector => "matrix inside a vector"
  | .const index => s!"constant {index} is not defined"
  | .exponent => "exponent must be a constant scalar"
  | .twoOperands => "binary node needs two operands"
  | .oneOperand => "node needs an operand"
  | .traceRow index => s!"trace row {index} not bound"
  | .localUnset index => s!"local {index} read before store"
  | .param index => s!"parameter {index} not bound"
  | .segment first last => s!"segment {first}..={last} out of row"
  | .function index => s!"function {index} is not defined"
  | .subgroup size => s!"no subgroup of size {size}"
  | .width what got expected => s!"{what} has {got} elements, expected {expected}"
  | .unresolved => "static register column left unresolved"
  | .publicUnresolved => "public static register left unresolved"
  | .publicMissing => "missing public column"
  | .secretValues expected got => s!"expected {expected} secret register values (got {got})"
  | .trace w l expectedWidth expectedLength =>
    s!"trace is {w}x{l}, expected {expectedWidth}x{expectedLength}"
  | .polynomials w l => s!"expected {w} trace polynomials of {l} coefficients"

end SizeFault

/-- One fault of a run. -/
inductive RunFault where
  | unsupportedField (modulus : Nat)
  | extensionFactor (least greatest got : Nat)
  | input (cause : InputFault)
  | divisionByZero
  | shape (cause : SizeFault)
  /-- The schema breaks the limits of the run. -/
  | limits (faults : List Fault)
  | traceLength (length limit : Nat)
  /-- The run ends without an answer. -/
  | stop (why : Stop)
deriving DecidableEq, Repr

namespace RunFault

def message : RunFault → String
  | .unsupportedField modulus =>
    s!"unsupported field: modulus {modulus} is not the backend field"
  | .extensionFactor least greatest got =>
    "invalid options: extension factor must be a power of two in "
      ++ s!"[{least}, {greatest}] (got {got})"
  | .input cause => s!"invalid input: {cause.message}"
  | .divisionByZero => "division by zero"
  | .shape cause => s!"shape mismatch: {cause.message}"
  | .limits faults => s!"limit exceeded: {Fault.report faults}"
  | .traceLength length limit => s!"limit exceeded: trace length {length} exceeds {limit}"
  | .stop why => why.message

end RunFault

end Arithmetization
