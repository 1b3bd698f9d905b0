/-!
# Finite doubles as dyadic numbers

A finite IEEE double is a sign, a mantissa below `2 ^ 53` and a power of two.
Truncation and the remainder are exact on this form, so neither depends on a
rounding mode.
-/

namespace NumericEngine

/-- The number `± mantissa · 2 ^ exponent`. -/
structure Dyadic where
  negative : Bool
  mantissa : Nat
  exponent : Int
  deriving DecidableEq, Repr, Inhabited

namespace Dyadic

/-- The number a double's bits stand for; none for infinities and NaNs. -/
def ofBits? (w : UInt64) : Option Dyadic :=
  let n := w.toNat
  let negative := n >>> 63 == 1
  let biased : Nat := (n >>> 52) % 0x800
  let fraction : Nat := n % (1 <<< 52)
  if biased = 0x7ff then none
  else if biased = 0 then some ⟨negative, fraction, -1074⟩
  else some ⟨negative, fraction + 1 <<< 52, (biased : Int) - 1075⟩

/-- `m · 2 ^ e` as a double's bits without the sign, for `0 < m` of at most 53 significant bits
within the exponent range. -/
def magnitudeBits (m : Nat) (e : Int) : Nat :=
  let top := m.log2
  let shifted (s : Int) : Nat := if 0 ≤ s then m <<< s.toNat else m >>> (-s).toNat
  if -1022 ≤ top + e then
    (top + e + 1023).toNat <<< 52 + (shifted (52 - top) - 1 <<< 52)
  else shifted (e + 1074)

/-- Bits of the double equal to the number, which must have one. -/
def toBits (d : Dyadic) : UInt64 :=
  let sign := if d.negative then 1 <<< 63 else 0
  UInt64.ofNat (sign + if d.mantissa = 0 then 0 else magnitudeBits d.mantissa d.exponent)

/-- The integer part, rounding toward zero. -/
def truncate (d : Dyadic) : Int :=
  let m : Nat :=
    if 0 ≤ d.exponent then d.mantissa <<< d.exponent.toNat
    else d.mantissa >>> (-d.exponent).toNat
  if d.negative then -m else m

/-- The exact remainder of truncating division, with the sign of the dividend. -/
def remainder (x y : Dyadic) : Dyadic :=
  let e := min x.exponent y.exponent
  let a := x.mantissa <<< (x.exponent - e).toNat
  let b := y.mantissa <<< (y.exponent - e).toNat
  ⟨x.negative, a % b, e⟩

end Dyadic

end NumericEngine
