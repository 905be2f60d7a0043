import Arithmetization.Degree.Inference
import Arithmetization.Register.Basic
import Arithmetization.Schema.Options

/-!
Schemas: modules whose expressions are shared, whose degrees are known and which keep their limits.
A draft is a module before that.
-/

set_option autoImplicit false

namespace Arithmetization

/-- A module as it was declared. Either procedure may still be missing. -/
structure Draft where
  modulus : Nat
  constants : List Literal := []
  functions : List Function := []
  registers : RegisterSet := .empty
  transition : Option Procedure := none
  evaluation : Option Procedure := none
deriving DecidableEq, Repr

/-- A module ready to be written, reported on or run. -/
structure Schema where
  modulus : Nat
  constants : List Literal
  functions : List Function
  registers : RegisterSet
  transition : Procedure
  evaluation : Procedure
  transitionDegree : Degree
  /-- The degree of every constraint. -/
  constraints : List Nat
deriving DecidableEq, Repr

namespace Schema

/-- The length of a trace row. -/
def traceWidth (s : Schema) : Nat :=
  s.transition.width

def maxDegree (s : Schema) : Nat :=
  Degree.maxOf s.constraints

def compositionFactor (s : Schema) : Nat :=
  Degree.compositionFactor s.maxDegree

/-- A fault if a count is over its limit. -/
def excess (count limit : Nat) (fault : Fault) : List Fault :=
  if limit < count then [fault] else []

/-- The rows that one register fills by itself. -/
def registerSpan : Register → Nat
  | .cycle source => source.period
  | .input r => r.steps.getD 0
  | .mask _ _ => 0

/-- Every limit that a schema breaks, in a fixed order. -/
def violations (s : Schema) (l : Limits) : List Fault :=
  excess s.traceWidth l.maxTraceRegisters
      (.limit (.traceRegisters s.traceWidth l.maxTraceRegisters))
    ++ excess s.registers.size l.maxStaticRegisters
      (.limit (.staticRegisters s.registers.size l.maxStaticRegisters))
    ++ excess s.constraints.length l.maxConstraintCount
      (.limit (.constraints s.constraints.length l.maxConstraintCount))
    ++ s.registers.registers.zipIdx.flatMap (fun (r, i) =>
      excess (registerSpan r) l.maxTraceLength
        (.limit (.registerSpan i (registerSpan r) l.maxTraceLength)))
    ++ excess s.maxDegree l.maxConstraintDegree
      (.degreeLimit ((s.constraints.idxOf? s.maxDegree).getD 0) s.maxDegree l.maxConstraintDegree)

end Schema

namespace Draft

/-- Share the expressions of a draft, infer its degrees and check its limits. -/
def build (d : Draft) (o : CompileOptions) : Except (List Fault) Schema :=
  match d.transition, d.evaluation with
  | some transition, some evaluation =>
    let functions := d.functions.map fun f => { f with body := f.body.share o.sharing }
    let transition := { transition with body := transition.body.share o.sharing }
    let evaluation := { evaluation with body := evaluation.body.share o.sharing }
    let cx : Degree.Context := ⟨d.constants, functions, o.inverseCost⟩
    match cx.procedure transition.body, cx.procedure evaluation.body with
    | .error f, _ => .error [f]
    | .ok _, .error f => .error [f]
    | .ok transitionDegree, .ok evaluationDegree =>
      let schema : Schema :=
        ⟨d.modulus, d.constants, functions, d.registers, transition, evaluation, transitionDegree,
          evaluationDegree.elements⟩
      match schema.violations o.limits with
      | [] => .ok schema
      | faults => .error faults
  | _, _ => .error [.undefined .procedures none]

end Draft

end Arithmetization
