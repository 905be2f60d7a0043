import Arithmetization.Machine.Basic
import Arithmetization.Transform

/-!
The verifier's side: a machine with its public inputs and the group lengths of all of them. It
evaluates the constraints at any single point, with the values of secret registers given to it.
-/

set_option autoImplicit false

namespace Arithmetization

/-- Where the value of a static register at a point comes from. -/
inductive PointRule where
  /-- From the polynomial of its column. -/
  | column (poly : List Element)
  | cycle (column : CyclicColumn)
  /-- From the caller: the place among the secret values. -/
  | secret (position : Nat)
deriving DecidableEq

structure Verifier where
  machine : Machine
  traceLength : Nat
  rules : List PointRule

namespace Verifier

/-- The columns of the input registers that are public; each takes the next tree, whose groups have
to be as declared. -/
def publicColumns (layout : Layout) :
    Nat → List (InputSlot × List Nat) → List InputTree →
      Except RunFault (List (Option (List Element)))
  | _, [], _ => .ok []
  | i, (slot, shape) :: slots, trees =>
    if slot.secret then do return none :: (← publicColumns layout (i + 1) slots trees)
    else
      match trees with
      | [] => .error (.input .publicMissing)
      | tree :: trees => do
        let (got, values) ← slot.values tree
        if got ≠ shape then throw (.input (.declaredShape slot.register))
        return some (layout.column i values) :: (← publicColumns layout (i + 1) slots trees)

/-- The polynomials of the columns that are used, all of which have to be known. -/
def polynomials (statics : List (StaticRule × Option (List Element))) :
    Except RunFault (List (List Element)) :=
  match (statics.filter (·.1.usesColumn)).mapM Prod.snd with
  | some columns => .ok (columns.map Transform.interpolate)
  | none => .error (.shape .publicUnresolved)

/-- The rules at a point of static registers of which `secrets` secret ones come before. Each public
one takes the next polynomial, cycles apart. -/
def pointRules (secrets : Nat) :
    List (List Element) → List StaticRule → Except RunFault (List PointRule)
  | _, [] => .ok []
  | polys, .cycle c :: rest => do return .cycle c :: (← pointRules secrets polys rest)
  | polys, rule :: rest =>
    if rule.isSecret then do return .secret secrets :: (← pointRules (secrets + 1) polys rest)
    else
      match polys with
      | [] => .error (.shape .publicMissing)
      | poly :: polys => do return .column poly :: (← pointRules secrets polys rest)

/-- The rules at a point of static registers with the given columns. -/
def assign (statics : List StaticRule) (columns : List (Option (List Element))) :
    Except RunFault (List PointRule) := do
  pointRules 0 (← polynomials (statics.zip columns)) statics

/-- A machine with the group lengths of all input registers and the trees of the public ones. -/
def ofInputs (m : Machine) (shapes : List (List Nat)) (trees : List InputTree) :
    Except RunFault Verifier := do
  let publicCount := (m.inputs.filter (!·.secret)).length
  if trees.length ≠ publicCount then throw (.input (.publicCount publicCount trees.length))
  let layout ← m.layout shapes
  let inputs ← publicColumns layout 0 (m.inputs.zip shapes) trees
  let columns := StaticRule.columns m.statics inputs layout.traceLength
  let rules ← assign m.statics columns
  return ⟨m, layout.traceLength, rules⟩

/-- One line that describes a verifier. -/
def describe (v : Verifier) : String :=
  let secrets := v.rules.countP fun r =>
    match r with
    | .secret _ => true
    | _ => false
  "VerificationObject \x7b module: " ++ v.machine.describe
    ++ s!", trace_length: {v.traceLength}, static_register_count: {v.rules.length}, "
    ++ s!"secret_register_count: {secrets}, .. \x7d"

/-- The value of a static register at a point. -/
def ruleAt (v : Verifier) (x : Element) (secrets : List Element) : PointRule → Element
  | .column poly => Transform.eval poly x
  | .cycle c => c.evaluateAt x v.traceLength
  | .secret position => secrets.getD position 0

/-- The values of all static registers at a point; `secrets` holds those of the secret ones. -/
def staticsAt (v : Verifier) (x : Element) (secrets : List Element) :
    Except RunFault (List Element) :=
  let expected := v.machine.secrets.length
  if secrets.length = expected then .ok (v.rules.map (v.ruleAt x secrets))
  else .error (.shape (.secretValues expected secrets.length))

/-- The constraints at a point from the trace values there and at the next point. -/
def constraintsAt (v : Verifier) (x : Element) (row next secrets : List Element) :
    Except RunFault (List Element) := do
  v.machine.evaluate row next (← v.staticsAt x secrets)

end Verifier

end Arithmetization
