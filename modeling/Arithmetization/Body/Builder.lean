import Arithmetization.Body.Basic

/-!
Making a body statement by statement. A local is declared with its shape, may be stored to with a
value of that shape, and may be read after the first store.
-/

set_option autoImplicit false

namespace Arithmetization

/-- A body in the making. `stored` says of every declared local whether it may be read. -/
structure Builder where
  locals : Array Shape
  stored : Array Bool
  stores : Array Store
  arena : Arena

namespace Builder

def empty : Builder := ⟨#[], #[], #[], .empty⟩

/-- Declare the next local. -/
def declare (b : Builder) (shape : Shape) : Builder × Nat :=
  ({ b with locals := b.locals.push shape, stored := b.stored.push false }, b.locals.size)

/-- The shape of a local that may be read here. -/
def readable (b : Builder) (index : Nat) : Except Fault Shape :=
  match b.locals[index]?, b.stored[index]? with
  | some shape, some true => .ok shape
  | some _, _ => .error (.undefined (.localUnstored index) none)
  | none, _ => .error (.undefined (.localUndeclared index) none)

/-- Let a local be read from here on, if it is declared. -/
def assumeStored (b : Builder) (index : Nat) : Builder :=
  { b with stored := b.stored.setIfInBounds index true }

/-- Store a node into a declared local of the same shape. -/
def store (b : Builder) (target value : Nat) : Except Fault Builder :=
  match b.locals[target]? with
  | none => .error (.undefined (.localUndeclared target) none)
  | some declared =>
    let got := b.arena.shape value
    if got = declared then
      .ok { b.assumeStored target with stores := b.stores.push ⟨target, value⟩ }
    else .error (.shape (.stored target declared got) none)

/-- Close the body with its result. -/
def finish (b : Builder) (result : Nat) : Body :=
  ⟨b.locals.toList, b.stores.toList, b.arena, result⟩

/-- Make a node in the arena of the body. -/
def onArena : Builder → (Arena → Except Fault (Arena × Nat)) → Except Fault (Builder × Nat)
  | ⟨locals, stored, stores, arena⟩, step =>
    match step arena with
    | .ok (arena, id) => .ok (⟨locals, stored, stores, arena⟩, id)
    | .error f => .error f

end Builder

end Arithmetization
