import Arithmetization.Field.Element

/-!
Elements as bytes: sixteen bytes, the lowest first. Writing is exact; reading refuses a word that is
not below the modulus, except where words are taken as they lie in memory.
-/

set_option autoImplicit false

namespace Arithmetization

/-- The number of bytes of an element. -/
def elementBytes : Nat := 16

/-- Why bytes are no element. -/
inductive ByteFault where
  | length
  | value (word : Word)
  | missing
  | remainder (length : Nat)
deriving DecidableEq, Repr

namespace ByteFault

def message : ByteFault → String
  | .length => "could not convert slice to array"
  | .value word => s!"{word.toNat} is not below the field modulus"
  | .missing => "bytes are missing"
  | .remainder n => s!"{n} bytes do not divide into field elements"

end ByteFault

namespace Word

/-- The lowest `n` bytes of a number, the lowest first. -/
def bytesOf : Nat → Nat → List UInt8
  | 0, _ => []
  | n + 1, value => UInt8.ofNat value :: bytesOf n (value / 256)

def toBytes (w : Word) : List UInt8 :=
  bytesOf elementBytes w.toNat

/-- The number with the given bytes, the lowest first. -/
def numberOf : List UInt8 → Nat
  | [] => 0
  | b :: rest => b.toNat + 256 * numberOf rest

/-- The word with the given bytes. -/
def ofBytes (bytes : List UInt8) : Word :=
  ofNat (numberOf bytes)

/-- The number of bytes of a limb. -/
def limbBytes : Nat := 8

/-- A word as it lies in memory: the low limb before the high one, the lowest byte of each first. -/
def view (w : Word) : List UInt8 :=
  bytesOf limbBytes w.low.toNat ++ bytesOf limbBytes w.high.toNat

/-- The word that lies in memory as the given bytes. -/
def ofView (bytes : List UInt8) : Word :=
  ⟨.ofNat (numberOf (bytes.drop limbBytes)), .ofNat (numberOf (bytes.take limbBytes))⟩

end Word

namespace Element

def toBytes (a : Element) : List UInt8 :=
  a.word.toBytes

/-- Append the bytes of an element to what is written already. -/
def write (target : List UInt8) (a : Element) : List UInt8 :=
  target ++ a.toBytes

/-- A number below the modulus as an element. -/
def convert (w : Word) : Except ByteFault Element :=
  match ofWord? w with
  | some a => .ok a
  | none => .error (.value w)

/-- Exactly the bytes of one element. -/
def ofBytes (bytes : List UInt8) : Except ByteFault Element :=
  if bytes.length = elementBytes then convert (.ofBytes bytes) else .error .length

/-- Random bytes as an element, if they are one. -/
def ofRandomBytes? (bytes : List UInt8) : Option Element :=
  (ofBytes bytes).toOption

/-- The element at the head of a byte string, whatever follows. -/
def read (bytes : List UInt8) : Except ByteFault Element :=
  if bytes.length < elementBytes then .error .missing
  else convert (.ofBytes (bytes.take elementBytes))

/-- Several elements as they lie in memory, one after the other. -/
def listToBytes (xs : List Element) : List UInt8 :=
  xs.flatMap fun a => a.word.view

/-- One element as it lies in memory. -/
def view (a : Element) : List UInt8 :=
  listToBytes [a]

end Element

namespace Word

/-- Cut bytes into `n` words. -/
def split : Nat → List UInt8 → List Word
  | 0, _ => []
  | n + 1, bytes => ofView (bytes.take elementBytes) :: split n (bytes.drop elementBytes)

/-- The words that lie in memory as a byte string, below the modulus or not. -/
def listOfBytes (bytes : List UInt8) : Except ByteFault (List Word) :=
  if bytes.length % elementBytes = 0 then .ok (split (bytes.length / elementBytes) bytes)
  else .error (.remainder bytes.length)

end Word

end Arithmetization
