import NumericEngine.Scalar.Arith

/-!
# Complex arithmetic

A complex number is a pair of words of one float kind. Products and quotients
follow the textbook formulas without scaling, one rounded operation at a time.
-/

namespace NumericEngine.Complex

abbrev Parts := UInt64 × UInt64

/-- Arithmetic on words of a float kind, part by part. -/
def parts? (k : Kind) (op : ArithOp) (a b : Parts) : Option Parts := do
  let f := Floating.arith? k
  match op with
  | .add | .sub => return (← f op a.1 b.1, ← f op a.2 b.2)
  | .mul =>
    let re ← f .sub (← f .mul a.1 b.1) (← f .mul a.2 b.2)
    let im ← f .add (← f .mul a.1 b.2) (← f .mul a.2 b.1)
    return (re, im)
  | .div =>
    let denominator ← f .add (← f .mul b.1 b.1) (← f .mul b.2 b.2)
    let re ← f .add (← f .mul a.1 b.1) (← f .mul a.2 b.2)
    let im ← f .sub (← f .mul a.2 b.1) (← f .mul a.1 b.2)
    return (← f .div re denominator, ← f .div im denominator)
  | _ => none

def binary (op : ArithOp) (k : Kind) (a b : Parts) : Except ArithError Parts :=
  (parts? k op a b).elim (.error .unsupported) .ok

/-- Only equality and its negation are defined. -/
def compare (op : CmpOp) (k : Kind) (a b : Parts) : Except ArithError Bool :=
  let equal := Scalar.compare .eq k a.1 b.1 && Scalar.compare .eq k a.2 b.2
  match op with
  | .eq => .ok equal
  | .ne => .ok !equal
  | _ => .error .unsupported

def neg (k : Kind) (a : Parts) : Except ArithError Parts := do
  return (← Scalar.unary .neg k a.1 false, ← Scalar.unary .neg k a.2 false)

def conj (k : Kind) (a : Parts) : Except ArithError Parts := do
  return (a.1, ← Scalar.unary .neg k a.2 false)

end NumericEngine.Complex
