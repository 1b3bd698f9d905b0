import NumericEngine.Scalar.Floating

/-!
# Scalar arithmetic

Every arithmetic, comparison and conversion rule of the engine, on canonical
words. Integer results wrap at the kind's width unless the operation is
checked; a checked operation whose exact result is out of range overflows.
Both executors call these functions and nothing else, so they agree bit for
bit.
-/

namespace NumericEngine

inductive ArithError where
  | overflow
  | divisionByZero
  /-- The kind has no such operator. -/
  | unsupported
  deriving DecidableEq, Repr, Inhabited

def ArithError.name : ArithError → String
  | overflow => "Overflow"
  | divisionByZero => "DivisionByZero"
  | unsupported => "Unsupported"

namespace Scalar

/-- The exact integer result of an operator that has one. -/
def exactResult? (op : ArithOp) (x y : Int) : Option Int :=
  match op with
  | .add => some (x + y)
  | .sub => some (x - y)
  | .mul => some (x * y)
  | .div => some (x.tdiv y)
  | .rem => some (x.tmod y)
  | _ => none

/-- An integer that 128 bits hold. -/
def wide? (v : Int) : Option Int :=
  if -0x80000000000000000000000000000000 ≤ v ∧ v ≤ 0x7fffffffffffffffffffffffffffffff then some v else none

/-- The exact result of an operator brought into the kind: kept in range, else refused or wrapped. Of a
product that 128 bits do not hold the words are multiplied. -/
def fit (op : ArithOp) (k : Kind) (a b : UInt64) (checked : Bool) (v : Int) : Except ArithError UInt64 :=
  match wide? v with
  | some v => if checked && !k.inRange v then .error .overflow else .ok (k.wrap v)
  | none => if checked || op ≠ .mul then .error .overflow else .ok (k.canonical (a * b))

/-- Shift by the low bits of `b`; to the right it is arithmetic for signed kinds. -/
def shift (op : ArithOp) (k : Kind) (a b : UInt64) : UInt64 :=
  let amount := b &&& UInt64.ofNat (k.width - 1)
  k.canonical <|
    if op = .shl then a <<< amount
    else if k.isSigned then (a.toInt64 >>> amount.toInt64).toUInt64
    else a >>> amount

def intBinary (op : ArithOp) (k : Kind) (a b : UInt64) (checked : Bool) :
    Except ArithError UInt64 :=
  match op with
  | .and => .ok (k.canonical (a &&& b))
  | .or => .ok (k.canonical (a ||| b))
  | .xor => .ok (k.canonical (a ^^^ b))
  | .shl | .shr =>
    let amount := k.toInt b
    if checked && (amount < 0 || k.width ≤ amount) then .error .overflow
    else .ok (shift op k a b)
  | op =>
    if op.divides && k.toInt b = 0 then .error .divisionByZero
    else
      match exactResult? op (k.toInt a) (k.toInt b) with
      | some v => fit op k a b checked v
      | none => .error .unsupported

def boolBinary (op : ArithOp) (a b : UInt64) : Except ArithError UInt64 :=
  match op with
  | .and => .ok ((a &&& b) &&& 1)
  | .or => .ok ((a ||| b) &&& 1)
  | .xor => .ok ((a ^^^ b) &&& 1)
  | _ => .error .unsupported

/-- A binary operator on two words of a kind. Division by a zero integer fails, checked or not. -/
def binary (op : ArithOp) (k : Kind) (a b : UInt64) (checked : Bool) : Except ArithError UInt64 :=
  match k with
  | .f32 | .f64 => (Floating.arith? k op a b).elim (.error .unsupported) .ok
  | .bool => boolBinary op a b
  | k => intBinary op k a b checked

def intCompare (op : CmpOp) (x y : Int) : Bool :=
  match op with
  | .eq => x == y
  | .ne => x != y
  | .lt => x < y
  | .le => x ≤ y
  | .gt => y < x
  | .ge => y ≤ x

def compare (op : CmpOp) (k : Kind) (a b : UInt64) : Bool :=
  if k.isFloat then Floating.compare op k a b
  else intCompare op (k.toInt a) (k.toInt b)

/-- Sign bit of a float kind's word. -/
def signBit : Kind → UInt64
  | .f32 => 0x80000000
  | _ => 0x8000000000000000

/-- A unary operator. Float negation and magnitude act on the sign bit alone. -/
def unary (op : UnaryOp) (k : Kind) (a : UInt64) (checked : Bool) : Except ArithError UInt64 :=
  match k with
  | .bool =>
    match op with
    | .not => .ok (a ^^^ 1)
    | _ => .error .unsupported
  | .f32 =>
    match op with
    | .neg => .ok (k.canonical a ^^^ signBit k)
    | .abs => .ok (k.canonical a &&& (signBit k - 1))
    | .sqrt => .ok (Floating.sqrtF32 a)
    | .not => .error .unsupported
  | .f64 =>
    match op with
    | .neg => .ok (a ^^^ signBit k)
    | .abs => .ok (a &&& (signBit k - 1))
    | .sqrt => .ok (Floating.sqrtF64 a)
    | .not => .error .unsupported
  | k =>
    match op with
    | .not => .ok (k.canonical (~~~a))
    | .neg => binary .sub k 0 a checked
    | .abs => if k.isSigned && a.toInt64 < 0 then binary .sub k 0 a checked else .ok a
    | .sqrt => .error .unsupported

/-- Conversion between kinds: integers are cut or extended, floats round to nearest, and a float
becomes the nearest integer of the target toward zero. -/
def convert (source target : Kind) (w : UInt64) : UInt64 :=
  if source = target then w
  else if target = .bool then
    let nonzero := if source.isFloat then Floating.isNonzero source w else w != 0
    if nonzero then 1 else 0
  else if source.isFloat then
    let d := Floating.toDouble source w
    match target with
    | .f32 => Floating.narrow d
    | .f64 => d
    | k => k.wrap (Floating.saturate d k.minInt k.maxInt)
  else
    match target with
    | .f32 => Floating.ofIntWord true source.isSigned w
    | .f64 => Floating.ofIntWord false source.isSigned w
    | k => k.canonical w

end Scalar

end NumericEngine
