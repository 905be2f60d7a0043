import Arithmetization.Input.Tree
import Arithmetization.Register.Builder
import Arithmetization.Schema.Options

/-!
The layout of inputs over the trace. The trace walks through the values of the leaves in order and
holds each of them for the same number of steps; the value of an ancestor stays in place for all
leaf values below it.
-/

set_option autoImplicit false

namespace Arithmetization

/-- Which value of an input register a row of the trace has: row `i` belongs to leaf value
`i / steps`, and `maps` gives, for every input register, the index of its value at each leaf
value. -/
structure Layout where
  traceLength : Nat
  steps : Nat
  maps : List (List Nat)
deriving DecidableEq, Repr

namespace Layout

/-- The least number of rows of a trace. -/
def minTraceLength : Nat := 8

/-- The number of values in groups of the given lengths. -/
def valueCount (o : Overflow) (shape : List Nat) : Except RunFault Nat :=
  (o.sum shape).mapError .stop

/-- The index of the group that value number `index` is in, where `g` groups that end at `stop` were
passed and groups of the given lengths follow; past the last value it is the last group. -/
def groupFrom (o : Overflow) (index : Nat) : (g stop : Nat) → List Nat → Except RunFault Nat
  | g, _, [] => .ok (g - 1)
  | g, stop, n :: rest => do
    let next ← (o.add stop n).mapError .stop
    if index < next then return g
    groupFrom o index (g + 1) next rest

def groupOf (o : Overflow) (shape : List Nat) (index : Nat) : Except RunFault Nat :=
  groupFrom o index 0 0 shape

/-- The groups of one register that has `total` values. There are `groups` values of its parent or,
without one, a single group. -/
def checkGroups (slot : InputSlot) (groups : Nat) (shape : List Nat) (total : Nat) :
    Except RunFault Unit :=
  if shape.length ≠ groups then
    .error (.input (.groupCount slot.register groups shape.length))
  else if shape.contains 0 then .error (.input (.emptyGroup slot.register))
  else if slot.scalar && total != 1 then .error (.input (.notSingle slot.register))
  else .ok ()

/-- The groups of all registers, in order. -/
def checkAll (slots : List InputSlot) (shapes : List (List Nat)) (totals : List Nat) :
    Except RunFault Unit :=
  (slots.zip (shapes.zip totals)).forM fun (slot, shape, total) =>
    let groups :=
      match slot.parent with
      | some p => totals.getD p 0
      | none => 1
    checkGroups slot groups shape total

/-- All leaves have the groups of the first one. -/
def checkLeaves : List (InputSlot × List Nat × Nat) → Except RunFault Unit
  | [] => .ok ()
  | (first, shape, _) :: rest =>
    match rest.find? fun (_, other, _) => other != shape with
    | some (other, _, _) => .error (.input (.leafShapes first.register other.register))
    | none => .ok ()

/-- The map of a leaf, which has all places in order. -/
def places (leafCount : Nat) : Except RunFault (List Nat) :=
  if fitsMemory 8 leafCount then .ok (List.range leafCount) else .error (.stop .capacity)

/-- The map of a register that is no leaf, from the maps of its children, which all have to give the
same. -/
def through (slot : InputSlot) : List (List Nat) → Except RunFault (List Nat)
  | [] => .ok []
  | first :: rest =>
    if rest.all (· == first) then .ok first else .error (.input (.inconsistent slot.register))

/-- The map of register number `index`, from the maps of the ones after it. A child is declared
after its parent, so its map is there. -/
def mapOf (o : Overflow) (leafCount index : Nat) (slot : InputSlot)
    (later : List (InputSlot × List Nat × List Nat)) : Except RunFault (List Nat) :=
  if slot.isLeaf then places leafCount
  else
    (later.filter fun (c, _, _) => c.parent = some index).mapM
        (fun (_, shape, map) => map.mapM (groupOf o shape))
      >>= through slot

/-- The maps of the last registers of a list, those from `index` on. -/
def mapsFrom (o : Overflow) (leafCount : Nat) (index : Nat) :
    List (InputSlot × List Nat) → Except RunFault (List (InputSlot × List Nat × List Nat))
  | [] => .ok []
  | (slot, shape) :: rest => do
    let later ← mapsFrom o leafCount (index + 1) rest
    let map ← mapOf o leafCount index slot later
    return (slot, shape, map) :: later

/-- The length of a trace. Without input registers it is as long as the longest cycle, or as short
as a trace may be. -/
def traceLengthOf (o : Overflow) (slots : List InputSlot) (leafCount steps maxPeriod : Nat) :
    Except RunFault Nat :=
  if slots.isEmpty then .ok (max maxPeriod minTraceLength)
  else (o.mul leafCount steps).mapError .stop

/-- Check the length of a trace. -/
def checkLength (length maxPeriod : Nat) (limits : Limits) : Except RunFault Unit :=
  if !isPowerOfTwo length || length < minTraceLength then
    .error (.input (.traceLength length minTraceLength))
  else if limits.maxTraceLength < length then .error (.traceLength length limits.maxTraceLength)
  else if 0 < maxPeriod && length % maxPeriod != 0 then .error (.input (.period length maxPeriod))
  else .ok ()

/-- The layout of groups of the given lengths. -/
def ofShapes (slots : List InputSlot) (shapes : List (List Nat)) (maxPeriod : Nat)
    (limits : Limits) (overflow : Overflow := .trap) : Except RunFault Layout := do
  if shapes.length ≠ slots.length then
    throw (.input (.shapeCount slots.length shapes.length))
  let totals ← shapes.mapM (valueCount overflow)
  checkAll slots shapes totals
  let leaves := (slots.zip (shapes.zip totals)).filter (·.1.isLeaf)
  checkLeaves leaves
  let leafCount := (leaves.head?.map (·.2.2)).getD 0
  let steps := (leaves.head?.bind (·.1.steps)).getD 1
  let maps ← mapsFrom overflow leafCount 0 (slots.zip shapes)
  let length ← traceLengthOf overflow slots leafCount steps maxPeriod
  checkLength length maxPeriod limits
  return ⟨length, steps, maps.map (·.2.2)⟩

/-- The values of an input register on every row of the trace. -/
def column (l : Layout) (input : Nat) (values : List Element) : List Element :=
  let map := (l.maps.getD input []).toArray
  let values := values.toArray
  (List.range l.traceLength).map fun row => values.getD (map.getD (row / l.steps) 0) 0

end Layout

end Arithmetization
