import Arithmetization.Report.Document
import Arithmetization.Report.Operations
import Arithmetization.Schema.Text

/-!
The report on a schema: its registers, the size and cost of its bodies, and the degrees of its
constraints.
-/

set_option autoImplicit false

namespace Arithmetization.Report

open Document

/-- What is said about a register. -/
def register (secret : Bool) (index : Nat) (r : Register) : Document :=
  let (binary, rank, period) : Bool × Option Nat × Option Nat :=
    match r with
    | .input i => (i.binary, some i.rank, none)
    | .cycle source => (false, none, some source.period)
    | .mask _ _ => (true, none, none)
  .record
    [("index", .number index), ("kind", .string r.keyword), ("secret", .bool secret),
      ("binary", .bool binary), ("rank", option .number rank), ("period", option .number period),
      ("degree", .number 1)]

def operations (c : OpCounts) : Document :=
  .record [("add", .number c.add), ("mul", .number c.mul), ("inv", .number c.inv)]

def degree : Degree → Document
  | .scalar d => .number d
  | .vector ds => .list (ds.map .number)
  | .matrix rows => .list (rows.map fun row => .list (row.map .number))

/-- What is said about a body. -/
def body (o : Overflow) (s : Schema) (name : String) (span : Option Nat) (width : Nat)
    (d : Option Degree) (b : Body) : Except Stop Document := do
  let ops ← OpCounts.body o s.constants s.functions b
  return .record
    [("name", .string name), ("span", option .number span), ("width", .number width),
      ("locals", .number b.locals.length), ("subroutines", .number b.stores.length),
      ("nodes", .number b.block.weight), ("ops", operations ops), ("degree", option degree d)]

def procedure (o : Overflow) (s : Schema) (d : Degree) (p : Procedure) : Except Stop Document :=
  body o s p.kind.keyword (some p.kind.span) p.width (some d) p.body

def function (o : Overflow) (s : Schema) (index : Nat) (f : Function) : Except Stop Document := do
  body o s s!"function {index}" none (← o.keep f.result.size) none f.body

/-- The whole report. -/
def ofSchema (s : Schema) (overflow : Overflow := .trap) : Except Stop Document := do
  let functions ← s.functions.zipIdx.mapM fun (f, i) => function overflow s i f
  let transition ← procedure overflow s s.transitionDegree s.transition
  let evaluation ← procedure overflow s (.vector s.constraints) s.evaluation
  return .record
    [("modulus", .string (Text.number s.modulus)), ("trace_registers", .number s.traceWidth),
      ("static_registers", .list ((s.registers.registers.zip s.registers.secrecy).mapIdx
        fun i (r, secret) => register secret i r)),
      ("functions", .list functions), ("transition", transition), ("evaluation", evaluation),
      ("constraints", .list (s.constraints.map fun d => .record [("degree", .number d)])),
      ("max_constraint_degree", .number s.maxDegree),
      ("composition_factor", .number s.compositionFactor),
      ("commitment", .string (Text.hexText s.commitment))]

end Arithmetization.Report
