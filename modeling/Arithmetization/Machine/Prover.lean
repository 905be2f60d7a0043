import Arithmetization.Domain
import Arithmetization.Machine.Basic

/-!
The prover's side: a machine with all its inputs. It runs the transition from the zero row, takes
the columns of the trace as polynomials, extends them to the evaluation domain and evaluates the
constraints over the composition domain.
-/

set_option autoImplicit false

namespace Arithmetization

/-- A list of columns of one length. -/
abbrev Columns := List (List Element)

namespace Columns

/-- The entries with a given index. -/
def row (columns : Columns) (i : Nat) : List Element :=
  columns.map (·.getD i 0)

/-- The number of rows. -/
def height (columns : Columns) : Nat :=
  (columns.head?.map List.length).getD 0

/-- The columns of a list of rows of the given length. -/
def ofRows (width : Nat) (rows : List (List Element)) : Columns :=
  (List.range width).map fun c => rows.map (·.getD c 0)

end Columns

structure Prover where
  machine : Machine
  execution : Domain
  evaluation : Domain
  composition : Domain
  /-- The columns of all static registers over the execution domain. -/
  statics : Columns

namespace Prover

/-- The group lengths and values of every input register. -/
def inputValues : List (InputSlot × InputTree) → Except RunFault (List (List Nat × List Element)) :=
  List.mapM fun (slot, tree) => slot.values tree

/-- A machine with one input tree for every input register. -/
def ofInputs (m : Machine) (trees : List InputTree) : Except RunFault Prover := do
  if trees.length ≠ m.inputs.length then
    throw (.input (.treeCount m.inputs.length trees.length))
  let inputs ← inputValues (m.inputs.zip trees)
  let layout ← m.layout (inputs.map Prod.fst)
  let columns := inputs.mapIdx fun i (_, values) => some (layout.column i values)
  match (StaticRule.columns m.statics columns layout.traceLength).mapM id with
  | none => throw (.shape .unresolved)
  | some statics =>
    let n := layout.traceLength
    return {
      machine := m
      execution := ← Domain.ofSize n
      evaluation := ← Domain.ofSize (n * m.extensionFactor)
      composition := ← Domain.ofSize (n * m.compositionFactor)
      statics := statics }

def traceLength (p : Prover) : Nat :=
  p.execution.size

/-- One line that describes a prover. -/
def describe (p : Prover) : String :=
  "ProofObject \x7b module: " ++ p.machine.describe
    ++ s!", trace_length: {p.traceLength}, evaluation_size: {p.evaluation.size}, "
    ++ s!"composition_size: {p.composition.size}, "
    ++ s!"static_register_count: {p.statics.length}, .. \x7d"

/-- The values of all static registers at a step; steps go around. -/
def staticsAt (p : Prover) (step : Nat) : List Element :=
  p.statics.row (step % p.traceLength)

/-- The rows from `row` on, which is the row of step `step`, and `n` more. -/
def rowsFrom (p : Prover) : Nat → Nat → List Element → Except RunFault (List (List Element))
  | 0, _, row => .ok [row]
  | n + 1, step, row => do
    let next ← p.machine.transition row (p.staticsAt step)
    return row :: (← p.rowsFrom n (step + 1) next)

/-- The columns of the execution trace: the transition, step by step, from the zero row. -/
def trace (p : Prover) : Except RunFault Columns := do
  let width := p.machine.traceWidth
  let rows ← p.rowsFrom (p.traceLength - 1) 0 (List.replicate width 0)
  return .ofRows width rows

/-- The polynomials of the columns of a trace. -/
def interpolate (p : Prover) (trace : Columns) : Except RunFault Columns :=
  let width := p.machine.traceWidth
  if trace.height = p.traceLength ∧ trace.length = width then
    .ok (trace.map Transform.interpolate)
  else .error (.shape (.trace trace.length trace.height width p.traceLength))

/-- One polynomial for every register, each with as many coefficients as the trace has rows. -/
def checkPolynomials (p : Prover) (polys : Columns) : Except RunFault Unit :=
  if polys.length = p.machine.traceWidth ∧ polys.all (·.length == p.traceLength) then .ok ()
  else .error (.shape (.polynomials p.machine.traceWidth p.traceLength))

/-- The values of the trace polynomials over the evaluation domain. -/
def extend (p : Prover) (polys : Columns) : Except RunFault Columns := do
  p.checkPolynomials polys
  return polys.map (Transform.extend p.evaluation.size)

/-- The columns of the secret static registers, extended to the evaluation domain. -/
def secretColumns (p : Prover) : Columns :=
  p.machine.secrets.map fun i =>
    Transform.extend p.evaluation.size (Transform.interpolate (p.statics.getD i []))

/-- The constraints over the composition domain, one column for each. The row after the one at point
`j` is at point `j + compositionFactor`. -/
def constraints (p : Prover) (polys : Columns) : Except RunFault Columns := do
  p.checkPolynomials polys
  let size := p.composition.size
  let trace : Columns := polys.map (Transform.extend size)
  let statics : Columns := p.statics.map fun c => Transform.extend size (Transform.interpolate c)
  let rows ← (List.range size).mapM fun j =>
    p.machine.evaluate (trace.row j) (trace.row ((j + p.machine.compositionFactor) % size))
      (statics.row j)
  return .ofRows p.machine.constraintCount rows

end Prover

end Arithmetization
