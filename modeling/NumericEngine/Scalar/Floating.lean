import NumericEngine.Scalar.Dyadic
import NumericEngine.Scalar.Kind
import NumericEngine.Scalar.Operator

/-!
# Floating-point scalars on words

Arithmetic of `f32` and `f64` words. Rounding is to nearest, ties to even. An
operation on a NaN gives that NaN, made quiet; an invalid operation on numbers
gives the quiet NaN with the sign bit. A `f32` word is compared and truncated
through its exact widening to a double.
-/

namespace NumericEngine.Floating

def nanBits : UInt64 := 0x7ff8000000000000

def isNaN (k : Kind) (w : UInt64) : Bool :=
  match k with
  | .f32 => 0x7f800000 < w &&& 0x7fffffff
  | _ => 0x7ff0000000000000 < w &&& 0x7fffffffffffffff

/-- The NaN of an invalid operation. -/
def invalid : Kind → UInt64
  | .f32 => 0xffc00000
  | _ => 0xfff8000000000000

/-- A NaN with its quiet bit set. -/
def quiet (k : Kind) (w : UInt64) : UInt64 :=
  match k with
  | .f32 => k.canonical w ||| 0x00400000
  | _ => w ||| 0x0008000000000000

/-- The result of an operation whose numeric result is `r`: the first NaN among the operands, the
NaN of an invalid operation, or `r`. -/
def settle (k : Kind) (a b r : UInt64) : UInt64 :=
  if isNaN k a then quiet k a
  else if isNaN k b then quiet k b
  else if isNaN k r then invalid k
  else r

/-- Widening of a `f32` word, exact. A NaN keeps its sign and payload and becomes quiet. -/
def widen (w : UInt64) : UInt64 :=
  if isNaN .f32 w then
    let sign : UInt64 := w &&& 0x80000000
    let payload : UInt64 := w &&& 0x003fffff
    (sign <<< 32) ||| (payload <<< 29) ||| nanBits
  else (Float32.ofBits w.toUInt32).toFloat.toBits

/-- Rounding of a double's bits to a `f32` word. A NaN keeps its sign and the upper part of its
payload and becomes quiet. -/
def narrow (w : UInt64) : UInt64 :=
  if isNaN .f64 w then
    let sign : UInt64 := w >>> 32
    let payload : UInt64 := w >>> 29
    (sign &&& 0x80000000) ||| (payload &&& 0x003fffff) ||| 0x7fc00000
  else (Float.ofBits w).toFloat32.toBits.toUInt64

/-- Bits, as a double, of a word of the given kind. -/
def toDouble (k : Kind) (w : UInt64) : UInt64 :=
  match k with
  | .f32 => widen w
  | _ => w

/-- The word of a float kind nearest to a double. -/
def ofDouble? (k : Kind) (w : UInt64) : Option UInt64 :=
  match k with
  | .f32 => some (narrow w)
  | .f64 => some w
  | _ => none

/-- The remainder of doubles: exact, with the dividend's sign. -/
def remainder (a b : UInt64) : UInt64 :=
  match Dyadic.ofBits? a, Dyadic.ofBits? b with
  | some x, some y => if y.mantissa = 0 then nanBits else (x.remainder y).toBits
  | some _, none => if Float.isNaN (Float.ofBits b) then nanBits else a
  | none, _ => nanBits

def arithF64? (op : ArithOp) (a b : UInt64) : Option UInt64 :=
  let x := Float.ofBits a
  let y := Float.ofBits b
  match op with
  | .add => some (settle .f64 a b (x + y).toBits)
  | .sub => some (settle .f64 a b (x - y).toBits)
  | .mul => some (settle .f64 a b (x * y).toBits)
  | .div => some (settle .f64 a b (x / y).toBits)
  | .rem => some (settle .f64 a b (remainder a b))
  | _ => none

def arithF32? (op : ArithOp) (a b : UInt64) : Option UInt64 :=
  let x := Float32.ofBits a.toUInt32
  let y := Float32.ofBits b.toUInt32
  match op with
  | .add => some (settle .f32 a b (x + y).toBits.toUInt64)
  | .sub => some (settle .f32 a b (x - y).toBits.toUInt64)
  | .mul => some (settle .f32 a b (x * y).toBits.toUInt64)
  | .div => some (settle .f32 a b (x / y).toBits.toUInt64)
  | .rem => some (settle .f32 a b (narrow (remainder (widen a) (widen b))))
  | _ => none

def arith? (k : Kind) (op : ArithOp) (a b : UInt64) : Option UInt64 :=
  match k with
  | .f32 => arithF32? op a b
  | .f64 => arithF64? op a b
  | _ => none

def compare (op : CmpOp) (k : Kind) (a b : UInt64) : Bool :=
  let x := Float.ofBits (toDouble k a)
  let y := Float.ofBits (toDouble k b)
  match op with
  | .eq => x == y
  | .ne => !(x == y)
  | .lt => x < y
  | .le => x ≤ y
  | .gt => y < x
  | .ge => y ≤ x

/-- True of every word but the two zeros; a NaN counts as nonzero. -/
def isNonzero (k : Kind) (w : UInt64) : Bool := compare .ne k w 0

def sqrtF64 (w : UInt64) : UInt64 := settle .f64 w w (Float.ofBits w).sqrt.toBits

def sqrtF32 (w : UInt64) : UInt64 :=
  settle .f32 w w (Float32.ofBits w.toUInt32).sqrt.toBits.toUInt64

/-- The integer nearest to zero-truncation within `[lo, hi]`; a NaN gives zero. -/
def saturate (w : UInt64) (lo hi : Int) : Int :=
  match Dyadic.ofBits? w with
  | some d => max lo (min hi d.truncate)
  | none =>
    if Float.isNaN (Float.ofBits w) then 0
    else if w.toNat >>> 63 = 1 then lo
    else hi

/-- The word of a float kind nearest to an integer word of kind `k`. -/
def ofIntWord (single signed : Bool) (w : UInt64) : UInt64 :=
  match single, signed with
  | true, true => w.toInt64.toFloat32.toBits.toUInt64
  | true, false => w.toFloat32.toBits.toUInt64
  | false, true => w.toInt64.toFloat.toBits
  | false, false => w.toFloat.toBits

end NumericEngine.Floating
