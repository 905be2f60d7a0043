import Arithmetization.Input.Layout
import Arithmetization.Machine.Program
import Arithmetization.Machine.Statics
import Arithmetization.Schema.Basic

/-!
Machines: schemas made ready to run over the field with `M` elements. A machine computes the next
row of a trace and the constraints of two consecutive rows.
-/

set_option autoImplicit false

namespace Arithmetization

structure MachineOptions where
  limits : Limits := {}
  /-- Whether columns are worked on one after the other; the answers are the same either way. -/
  serial : Bool := false
  /-- How much larger than the trace the evaluation domain is. -/
  extensionFactor : Option Nat := none
deriving DecidableEq, Repr

namespace MachineOptions

/-- The greatest extension factor that may be asked for. -/
def maxExtensionFactor : Nat := 128

/-- The extension factor for a composition factor; twice that unless another one is asked for. -/
def extension (o : MachineOptions) (compositionFactor : Nat) : Except RunFault Nat :=
  let least := 2 * compositionFactor
  match o.extensionFactor with
  | none => .ok least
  | some n =>
    if isPowerOfTwo n && least ≤ n && n ≤ maxExtensionFactor then .ok n
    else .error (.extensionFactor least maxExtensionFactor n)

end MachineOptions

structure Machine where
  constants : List Literal
  functions : List Block
  transitionBlock : Block
  evaluationBlock : Block
  statics : List StaticRule
  inputs : List InputSlot
  /-- The indexes of the secret registers, in the order in which a verifier is given their values.
  -/
  secrets : List Nat
  traceWidth : Nat
  constraintCount : Nat
  maxDegree : Nat
  compositionFactor : Nat
  extensionFactor : Nat
  limits : Limits
  serial : Bool

namespace Machine

/-- Make a schema ready to run. -/
def ofSchema (s : Schema) (o : MachineOptions) : Except RunFault Machine := do
  if s.modulus ≠ Word.modulus then throw (.unsupportedField s.modulus)
  let broken := s.violations o.limits
  if !broken.isEmpty then throw (.limits broken)
  let functions := s.functions.map (·.body.block)
  let transition := s.transition.body.block
  let evaluation := s.evaluation.body.block
  Run.resolveFunctions s.constants functions
  Run.resolveBlock s.constants functions.length transition
  Run.resolveBlock s.constants functions.length evaluation
  let statics ← StaticRule.ofRegisters s.registers
  let extensionFactor ← o.extension s.compositionFactor
  return {
    constants := s.constants
    functions := functions
    transitionBlock := transition
    evaluationBlock := evaluation
    statics := statics
    inputs := InputSlot.ofRegisters s.registers
    secrets := s.registers.secrets
    traceWidth := s.traceWidth
    constraintCount := s.constraints.length
    maxDegree := s.maxDegree
    compositionFactor := s.compositionFactor
    extensionFactor := extensionFactor
    limits := o.limits
    serial := o.serial }

/-- One line that describes a machine. -/
def describe (m : Machine) : String :=
  "AirModule \x7b " ++ s!"trace_register_count: {m.traceWidth}, "
    ++ s!"static_register_count: {m.statics.length}, constraint_count: {m.constraintCount}, "
    ++ s!"composition_factor: {m.compositionFactor}, extension_factor: {m.extensionFactor}, .. \x7d"

/-- A list of a given length. -/
def checkWidth (what : String) (xs : List Element) (expected : Nat) : Except RunFault Unit :=
  if xs.length = expected then .ok () else .error (.shape (.width what xs.length expected))

/-- Run a block of the machine. -/
def run (m : Machine) (rows : List (List Element)) (statics : List Element) (b : Block) :
    Except RunFault (List Element) := do
  (← Run.block m.constants (Run.callees m.constants m.functions) rows statics [] b).asVector

/-- The row after `row`, under the static values `statics`. -/
def transition (m : Machine) (row statics : List Element) : Except RunFault (List Element) := do
  checkWidth "current row" row m.traceWidth
  checkWidth "static values" statics m.statics.length
  let next ← m.run [row] statics m.transitionBlock
  checkWidth "transition result" next m.traceWidth
  return next

/-- The constraints of two consecutive rows, under the static values of the first; all zero where
the step from one to the other is right. -/
def evaluate (m : Machine) (row next statics : List Element) : Except RunFault (List Element) := do
  checkWidth "current row" row m.traceWidth
  checkWidth "next row" next m.traceWidth
  checkWidth "static values" statics m.statics.length
  let values ← m.run [row, next] statics m.evaluationBlock
  checkWidth "evaluation result" values m.constraintCount
  return values

/-- The layout of groups of the given lengths, one list for every input register. A count out of
range ends the run. -/
def layout (m : Machine) (shapes : List (List Nat)) : Except RunFault Layout :=
  Layout.ofShapes m.inputs shapes (StaticRule.maxPeriod m.statics) m.limits

end Machine

end Arithmetization
