/-!
UTF-8. A byte string is decoded one well-formed sequence at a time; the offset at which no
well-formed sequence starts is what a caller reports. Overlong forms, surrogates and values past
`0x10FFFF` are excluded by the ranges of the second byte, so every accepted sequence is the one
encoding of its character.
-/

set_option autoImplicit false

namespace Arithmetization.Text

/-- Whether `b` is a continuation byte. -/
def isContinuation (b : UInt8) : Bool :=
  0x80 ≤ b && b ≤ 0xBF

/-- The range of second bytes that may follow the lead byte `b` of a three-byte sequence. -/
def secondOfThree (b : UInt8) : UInt8 × UInt8 :=
  if b = 0xE0 then (0xA0, 0xBF) else if b = 0xED then (0x80, 0x9F) else (0x80, 0xBF)

/-- The range of second bytes that may follow the lead byte `b` of a four-byte sequence. -/
def secondOfFour (b : UInt8) : UInt8 × UInt8 :=
  if b = 0xF0 then (0x90, 0xBF) else if b = 0xF4 then (0x80, 0x8F) else (0x80, 0xBF)

/-- Whether `b` lies in an inclusive range. -/
def inRange (r : UInt8 × UInt8) (b : UInt8) : Bool :=
  r.1 ≤ b && b ≤ r.2

/-- The six payload bits of a continuation byte. -/
def payload (b : UInt8) : Nat :=
  b.toNat % 64

/-- The character of the sequence at the head of a byte string and the number of bytes it takes. -/
def decodeChar? : List UInt8 → Option (Char × Nat)
  | [] => none
  | b₀ :: rest =>
    if b₀ < 0x80 then some (Char.ofNat b₀.toNat, 1)
    else if 0xC2 ≤ b₀ && b₀ ≤ 0xDF then
      match rest with
      | b₁ :: _ =>
        if isContinuation b₁ then some (Char.ofNat (b₀.toNat % 32 * 64 + payload b₁), 2) else none
      | _ => none
    else if 0xE0 ≤ b₀ && b₀ ≤ 0xEF then
      match rest with
      | b₁ :: b₂ :: _ =>
        if inRange (secondOfThree b₀) b₁ && isContinuation b₂ then
          some (Char.ofNat ((b₀.toNat % 16 * 64 + payload b₁) * 64 + payload b₂), 3)
        else none
      | _ => none
    else if 0xF0 ≤ b₀ && b₀ ≤ 0xF4 then
      match rest with
      | b₁ :: b₂ :: b₃ :: _ =>
        if inRange (secondOfFour b₀) b₁ && isContinuation b₂ && isContinuation b₃ then
          some (Char.ofNat
            (((b₀.toNat % 8 * 64 + payload b₁) * 64 + payload b₂) * 64 + payload b₃), 4)
        else none
      | _ => none
    else none

/-- Decode the rest of a byte string of which `offset` bytes are already read; `read` holds the
characters so far, the last one first. A step takes at least one byte, so `fuel` bytes suffice. -/
def decodeFrom : Nat → Nat → List Char → List UInt8 → Except Nat (List Char)
  | _, _, read, [] => .ok read.reverse
  | 0, offset, _, _ => .error offset
  | fuel + 1, offset, read, bytes =>
    match decodeChar? bytes with
    | some (c, n) => decodeFrom fuel (offset + n) (c :: read) (bytes.drop n)
    | none => .error offset

/-- The characters of a byte string, or the offset of the first byte that starts no well-formed
sequence. -/
def decodeUtf8 (bytes : List UInt8) : Except Nat (List Char) :=
  decodeFrom bytes.length 0 [] bytes

end Arithmetization.Text
