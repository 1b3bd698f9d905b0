/-!
# Hexadecimal text
-/

namespace NumericEngine

/-- Lower-case hexadecimal digits, without leading zeros. -/
def hex (n : Nat) : String := String.ofList (Nat.toDigits 16 n)

/-- Hexadecimal digits, at least `width` of them. -/
def hexPadded (width n : Nat) : String :=
  let ds := Nat.toDigits 16 n
  String.ofList (List.replicate (width - ds.length) '0' ++ ds)

def hexDigit? (c : Char) : Option Nat :=
  if '0' ≤ c ∧ c ≤ '9' then some (c.toNat - '0'.toNat)
  else if 'a' ≤ c ∧ c ≤ 'f' then some (c.toNat - 'a'.toNat + 10)
  else none

/-- The number with the given lower-case hexadecimal digits. -/
def ofHex? (ds : List Char) : Option Nat :=
  ds.foldlM (fun n c => (n * 16 + ·) <$> hexDigit? c) 0

/-- The bytes written as pairs of hexadecimal digits. -/
def bytesOfHex? : List Char → Option (List UInt8)
  | [] => some []
  | [_] => none
  | a :: b :: rest => do
    let n ← ofHex? [a, b]
    return UInt8.ofNat n :: (← bytesOfHex? rest)

/-- Two hexadecimal digits for each byte. -/
def hexOfBytes (bs : List UInt8) : String :=
  String.join (bs.map fun b => hexPadded 2 b.toNat)

end NumericEngine
