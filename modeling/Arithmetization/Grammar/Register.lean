import Arithmetization.Grammar.Atom
import Arithmetization.Register.Builder

/-!
Register declarations.
-/

set_option autoImplicit false

namespace Arithmetization.Grammar

/-- Visibility: whether an input register is secret. -/
def visibility (f : Form) : Except Fault Bool :=
  match f.symbol? with
  | some "public" => .ok false
  | some "secret" => .ok true
  | _ => .error (.parse .visibility f.pos)

/-- Binding: whether there is exactly one value, and the parent. -/
def binding : Form → Except Fault (Bool × Option Nat)
  | .sym "vector" _ => .ok (false, none)
  | .sym "scalar" _ => .ok (true, none)
  | .list [.sym "parent" _, i] _ => do return (false, some (← index i))
  | f => .error (.parse .binding f.pos)

/-- A number of steps, reported at the pattern it stands in. -/
def stepCount (pos : Position) (n : Nat) : Except Fault (Option Nat) :=
  if n < indexBound then .ok (some n) else .error (.parse .steps pos)

/-- Pattern: the steps of a leaf, or none for a register that is filled by its children. -/
def pattern : Form → Except Fault (Option Nat)
  | .sym "filled" _ => .ok none
  | .int n pos => stepCount pos n
  | .list [.sym "steps" _, n] pos => do stepCount pos (← int .steps n)
  | f => .error (.parse .pattern f.pos)

/-- Drop the word `binary` if it comes first, and say whether it did. -/
def binaryFlag : List Form → Bool × List Form
  | .sym "binary" _ :: rest => (true, rest)
  | rest => (false, rest)

/-- The values of a cycle. -/
def cycleSource (pos : Position) : List Form → Except Fault CycleSource
  | [.list (.sym "prng" _ :: args) gpos] =>
    match args with
    | [.sym "blake3" _, .hex seed _, count] => do return .prng seed (← index count)
    | _ => .error (.parse (.form "prng" "blake3 0x<seed> <count>") gpos)
  | [.list (.sym "power" _ :: args) gpos] =>
    match args with
    | [base, count] => do return .power (← int .powerBase base) (← index count)
    | _ => .error (.parse (.form "power" "<base> <count>") gpos)
  | [] => .error (.parse (.form "cycle" "v+") pos)
  | values => do return .values (← values.mapM (int .cycleValue))

/-- Faults of a declaration are reported at its form. -/
def declared (pos : Position) : Except RegisterFault RegisterBuilder → Except Fault RegisterBuilder
  | .ok b => .ok b
  | .error cause => .error (.register cause (some pos))

/-- One declaration, added to those before it. -/
def register (b : RegisterBuilder) (f : Form) : Except Fault RegisterBuilder :=
  match f.head?, f.operands with
  | some "input", [] => .error (.parse (.form "input" "public|secret ..") f.pos)
  | some "input", v :: rest => do
    let secret ← visibility v
    let (binary, rest) := binaryFlag rest
    match rest with
    | [bind, pat] => do
      let (scalar, parent) ← binding bind
      let steps ← pattern pat
      declared f.pos (b.input secret binary scalar parent steps)
    | _ => .error (.parse (.form "input" "visibility binding pattern") f.pos)
  | some "cycle", args => do
    let source ← cycleSource f.pos args
    declared f.pos (b.cycle source)
  | some "mask", [source, value] => do
    let source ← index source
    let value ← element b.modulus value
    declared f.pos (b.mask source value)
  | some "mask", _ => .error (.parse (.form "mask" "<source> <value>") f.pos)
  | _, _ => .error (.parse .register f.pos)

/-- One declaration; its fault is added to those before it. -/
def registerStep : RegisterBuilder × List Fault → Form → RegisterBuilder × List Fault
  | (b, faults), f =>
    match register b f with
    | .ok b => (b, faults)
    | .error fault => (b, faults ++ [fault])

/-- The section of static registers. -/
def registers (modulus : Nat) (s : Form) : Except (List Fault) RegisterSet :=
  let (b, faults) := s.operands.foldl registerStep (.empty modulus, [])
  if faults.isEmpty then b.build else .error faults

end Arithmetization.Grammar
