import NumericEngine.Word.Bytes

/-!
# Scalar kinds

A scalar of every kind is carried in one 64-bit word in canonical form:
signed integers are sign-extended, unsigned integers zero-extended, a `f32`
occupies the low 32 bits, a `f64` all 64, and a boolean is 0 or 1.
-/

namespace NumericEngine

inductive Kind where
  | bool
  | i8
  | i16
  | i32
  | i64
  | u8
  | u16
  | u32
  | u64
  | f32
  | f64
  deriving DecidableEq, Repr, Inhabited

namespace Kind

/-- Every kind, in the order of their codes. -/
def all : List Kind := [bool, i8, i16, i32, i64, u8, u16, u32, u64, f32, f64]

/-- The one-byte code that stands for the kind in both binary formats. -/
def code : Kind → UInt8
  | bool => 0x01
  | i8 => 0x10
  | i16 => 0x11
  | i32 => 0x12
  | i64 => 0x13
  | u8 => 0x20
  | u16 => 0x21
  | u32 => 0x22
  | u64 => 0x23
  | f32 => 0x30
  | f64 => 0x31

def ofCode? (c : UInt8) : Option Kind := all.find? (·.code == c)

@[simp] theorem ofCode?_code (k : Kind) : ofCode? k.code = some k := by
  cases k <;> decide

/-- Width in bits; a boolean has one. -/
def width : Kind → Nat
  | bool => 1
  | i8 | u8 => 8
  | i16 | u16 => 16
  | i32 | u32 | f32 => 32
  | i64 | u64 | f64 => 64

def size : Kind → Nat
  | bool => 1
  | i8 | u8 => 1
  | i16 | u16 => 2
  | i32 | u32 | f32 => 4
  | i64 | u64 | f64 => 8

def isSigned : Kind → Bool
  | i8 | i16 | i32 | i64 => true
  | _ => false

def isInt : Kind → Bool
  | i8 | i16 | i32 | i64 | u8 | u16 | u32 | u64 => true
  | _ => false

def isFloat : Kind → Bool
  | f32 | f64 => true
  | _ => false

def name : Kind → String
  | bool => "bool"
  | i8 => "i8"
  | i16 => "i16"
  | i32 => "i32"
  | i64 => "i64"
  | u8 => "u8"
  | u16 => "u16"
  | u32 => "u32"
  | u64 => "u64"
  | f32 => "f32"
  | f64 => "f64"

instance : ToString Kind := ⟨name⟩

def minInt (k : Kind) : Int :=
  if k.isSigned then -(1 <<< (k.width - 1) : Nat) else 0

def maxInt (k : Kind) : Int :=
  if k.isSigned then (1 <<< (k.width - 1) : Nat) - 1 else (1 <<< k.width : Nat) - 1

/-- The canonical word of the kind that a raw word stands for. -/
def canonical (k : Kind) (w : UInt64) : UInt64 :=
  match k with
  | bool => if w = 0 then 0 else 1
  | i8 => w.toUInt8.toInt8.toInt64.toUInt64
  | i16 => w.toUInt16.toInt16.toInt64.toUInt64
  | i32 => w.toUInt32.toInt32.toInt64.toUInt64
  | u8 => w.toUInt8.toUInt64
  | u16 => w.toUInt16.toUInt64
  | u32 | f32 => w.toUInt32.toUInt64
  | i64 | u64 | f64 => w

/-- A word is canonical when its kind leaves it as it is. -/
def Canonical (k : Kind) (w : UInt64) : Prop := k.canonical w = w

instance (k : Kind) (w : UInt64) : Decidable (k.Canonical w) :=
  inferInstanceAs (Decidable (_ = _))

/-- The integer that a word of the kind stands for. -/
def toInt (k : Kind) (w : UInt64) : Int :=
  if k.isSigned then w.toInt64.toInt else w.toNat

/-- The canonical word congruent to `v` modulo the kind's width. -/
def wrap (k : Kind) (v : Int) : UInt64 := k.canonical (UInt64.ofInt v)

def inRange (k : Kind) (v : Int) : Bool := k.minInt ≤ v && v ≤ k.maxInt

/-- The word of an integer, for integer and boolean kinds that hold it. -/
def ofInt? (k : Kind) (v : Int) : Option UInt64 :=
  if k.isFloat then none
  else if k.inRange v then some (k.wrap v)
  else none

/-- The canonical word whose low bytes are the first bytes of `bs`. -/
def read (k : Kind) (bs : List UInt8) : UInt64 := k.canonical (ofLeBytes (bs.take k.size))

def bytes (k : Kind) (w : UInt64) : List UInt8 := leBytes k.size w

end Kind

end NumericEngine
