import NumericEngine.Scalar.Dyadic

/-!
# Shortest decimals

The decimal with the fewest digits that reads back as a given double, and the
nearest of those; a format chooses between two that are equally near. A double `m · 2 ^ q` is read back
from every real in an interval around it, whose ends belong to it when `m` is even. The decimal grids
are tried from the coarsest on, and the first one that meets the interval yields the result.
-/

namespace NumericEngine

/-- The number `digits · 10 ^ exponent`. -/
structure Decimal where
  digits : Nat
  exponent : Int
  deriving DecidableEq, Repr, Inhabited

/-- Which of two equally near neighbours is taken. -/
inductive Tie where
  | up
  | even
  deriving DecidableEq, Repr, Inhabited

/-- The choice between `d` and `d + 1`. -/
def Tie.pick (t : Tie) (d : Nat) : Nat :=
  match t with
  | up => d + 1
  | even => if d % 2 = 0 then d else d + 1

namespace Decimal

/-- Numerators of `d · 10 ^ k` and `x · 2 ^ e` over one denominator. -/
def crossed (d : Nat) (k : Int) (x : Nat) (e : Int) : Nat × Nat :=
  ((d * Nat.pow 10 k.toNat) <<< (-e).toNat, (x * Nat.pow 10 (-k).toNat) <<< e.toNat)

/-- Reals that read back as one double, in units of `2 ^ exponent`. -/
structure Interval where
  lower : Nat
  center : Nat
  upper : Nat
  exponent : Int
  closed : Bool
  deriving Repr, Inhabited

/-- The interval of `m · 2 ^ q`. Below a power of two the doubles are twice as dense. -/
def Interval.around (m : Nat) (q : Int) : Interval :=
  let dense := m = 1 <<< 52 ∧ -1074 < q
  ⟨4 * m - (if dense then 1 else 2), 4 * m, 4 * m + 2, q - 2, m % 2 = 0⟩

def Interval.holds (i : Interval) (d : Nat) (k : Int) : Bool :=
  let (a, lo) := crossed d k i.lower i.exponent
  let (_, hi) := crossed d k i.upper i.exponent
  if i.closed then lo ≤ a && a ≤ hi else lo < a && a < hi

/-- The grid point of exponent `k` at or below the centre. -/
def Interval.below (i : Interval) (k : Int) : Nat :=
  let (unit, x) := crossed 1 k i.center i.exponent
  x / unit

/-- The grid point of exponent `k` in the interval that is nearest to the centre, if any. -/
def Interval.nearest? (i : Interval) (tie : Tie) (k : Int) : Option Nat :=
  let d := i.below k
  match i.holds d k, i.holds (d + 1) k with
  | true, false => some d
  | false, true => some (d + 1)
  | false, false => none
  | true, true =>
    let (a, x) := crossed d k i.center i.exponent
    let (b, _) := crossed (d + 1) k i.center i.exponent
    match compare (x - a) (b - x) with
    | .lt => some d
    | .eq => some (tie.pick d)
    | .gt => some (d + 1)

/-- Searches the grids of exponents `k`, `k - 1`, … for the first hit. -/
def search (i : Interval) (tie : Tie) : Nat → Int → Decimal
  | 0, k => ⟨i.below k, k⟩
  | fuel + 1, k =>
    match i.nearest? tie k with
    | some d => ⟨d, k⟩
    | none => search i tie fuel (k - 1)

/-- The shortest decimal of `m · 2 ^ q`, for `0 < m`. -/
def shortest (tie : Tie) (m : Nat) (q : Int) : Decimal :=
  let magnitude : Int := m.log2 + q + 2
  search (.around m q) tie 24 (magnitude * 30103 / 100000 + 1)

end Decimal

end NumericEngine
