import NumericEngine.Decimal.Shortest

/-!
# Text of floating-point numbers

A number is written with its shortest digits: positionally, with at least one
digit on each side of the point, while the power of ten of its first digit lies
in the style's range, and with an exponent outside it.
-/

namespace NumericEngine

structure DecimalStyle where
  /-- The least power of ten of the first digit that is written positionally. -/
  least : Int
  /-- The greatest such power. -/
  most : Int
  tie : Tie
  /-- Whether an exponent that is not negative has a plus sign. -/
  plus : Bool
  deriving Repr, Inhabited

namespace DecimalStyle

/-- Values and constants: positional from `1e-4` up to, not including, `1e16`; of two nearest
decimals the greater; `1e16`. -/
def value : DecimalStyle := ⟨-4, 15, .up, false⟩

/-- Documents: positional from `1e-5` up to, not including, `1e16`; of two nearest decimals the
even one; `1e+16`. -/
def document : DecimalStyle := ⟨-5, 15, .even, true⟩

def zeros (n : Nat) : String := String.ofList (List.replicate n '0')

/-- The text of `digits · 10 ^ exponent`, for `0 < digits`. -/
def render (style : DecimalStyle) (d : Decimal) : String :=
  let ds := Nat.toDigits 10 d.digits
  let first : Int := d.exponent + ds.length - 1
  if style.least ≤ first ∧ first ≤ style.most then
    if ds.length ≤ first then
      String.ofList ds ++ zeros (first.toNat + 1 - ds.length) ++ ".0"
    else if 0 ≤ first then
      let n := first.toNat + 1
      let tail := ds.drop n
      String.ofList (ds.take n) ++ "." ++ (if tail.isEmpty then "0" else String.ofList tail)
    else "0." ++ zeros (-first - 1).toNat ++ String.ofList ds
  else
    let tail := ds.drop 1
    String.ofList (ds.take 1) ++ (if tail.isEmpty then "" else "." ++ String.ofList tail) ++
      (if style.plus ∧ 0 ≤ first then "e+" else "e") ++ toString first

def finite (style : DecimalStyle) (d : Dyadic) : String :=
  let sign := if d.negative then "-" else ""
  if d.mantissa = 0 then sign ++ "0.0"
  else sign ++ style.render (Decimal.shortest style.tie d.mantissa d.exponent)

/-- The text of the double with the given bits. -/
def text (style : DecimalStyle) (w : UInt64) : String :=
  match Dyadic.ofBits? w with
  | some d => style.finite d
  | none =>
    if w.toNat % (1 <<< 52) ≠ 0 then "NaN"
    else if w.toNat >>> 63 = 1 then "-inf"
    else "inf"

end DecimalStyle

end NumericEngine
