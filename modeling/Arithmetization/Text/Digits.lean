/-!
Decimal and hexadecimal digits. Reading is by characters and refuses anything that is not a digit;
bytes are written as two lower-case digits each.
-/

set_option autoImplicit false

namespace Arithmetization.Text

/-- Whether `c` is one of `0` to `9`. -/
def isDigit (c : Char) : Bool :=
  '0' ≤ c && c ≤ '9'

/-- The number written by a non-empty run of decimal digits. -/
def decimal? (cs : List Char) : Option Nat :=
  if cs.isEmpty || !cs.all isDigit then none
  else some (cs.foldl (fun n c => 10 * n + (c.toNat - '0'.toNat)) 0)

/-- The value of a hexadecimal digit of either case. -/
def hexDigit? (c : Char) : Option Nat :=
  if isDigit c then some (c.toNat - '0'.toNat)
  else if 'a' ≤ c && c ≤ 'f' then some (c.toNat - 'a'.toNat + 10)
  else if 'A' ≤ c && c ≤ 'F' then some (c.toNat - 'A'.toNat + 10)
  else none

/-- The bytes written by an even number of hexadecimal digits, two digits a byte. -/
def hexPairs? : List Char → Option (List UInt8)
  | [] => some []
  | [_] => none
  | hi :: lo :: rest =>
    match hexDigit? hi, hexDigit? lo, hexPairs? rest with
    | some h, some l, some bytes => some (UInt8.ofNat (16 * h + l) :: bytes)
    | _, _, _ => none

/-- The bytes written by a non-empty run of hexadecimal digits; an odd number of digits is read with
a zero before the first. -/
def hexBytes? (digits : List Char) : Option (List UInt8) :=
  if digits.isEmpty then none
  else if digits.length % 2 = 1 then hexPairs? ('0' :: digits)
  else hexPairs? digits

/-- The lower-case digit of a value below sixteen. -/
def hexDigit (n : Nat) : Char :=
  if n < 10 then Char.ofNat ('0'.toNat + n) else Char.ofNat ('a'.toNat + (n - 10))

/-- The two digits of a byte. -/
def hexByte (b : UInt8) : List Char :=
  [hexDigit (b.toNat / 16), hexDigit (b.toNat % 16)]

/-- The written form of a byte string: two lower-case digits a byte, without a mark in front. -/
def hexText (bytes : List UInt8) : String :=
  String.ofList (bytes.flatMap hexByte)

end Arithmetization.Text
