/-!
# Bytes of words

Little-endian byte strings of 64-bit words, and reading and overwriting
windows of a byte buffer. A window that would leave its buffer is refused by
the callers; the operations here are total and touch only bytes that exist.
-/

namespace NumericEngine

abbrev Bytes := Array UInt8

/-- The low `n` bytes of `w`, least significant first. -/
def leBytes : Nat → UInt64 → List UInt8
  | 0, _ => []
  | n + 1, w => w.toUInt8 :: leBytes n (w >>> 8)

/-- The word whose bytes, least significant first, are `bs`. -/
def ofLeBytes : List UInt8 → UInt64
  | [] => 0
  | b :: bs => b.toUInt64 ||| (ofLeBytes bs <<< 8)

@[simp] theorem length_leBytes (n : Nat) (w : UInt64) : (leBytes n w).length = n := by
  induction n generalizing w with
  | zero => rfl
  | succ n ih => simp [leBytes, ih]

namespace Bytes

/-- The `n` bytes of `b` from `start`; fewer when the buffer ends first. -/
def window (b : Bytes) (start n : Nat) : List UInt8 :=
  (b.extract start (start + n)).toList

/-- `b` with the bytes from `start` replaced by `src`; those past the end of the buffer are
dropped. -/
def overwrite (b : Bytes) (start : Nat) : List UInt8 → Bytes
  | [] => b
  | x :: xs => overwrite (b.setIfInBounds start x) (start + 1) xs

def zeros (n : Nat) : Bytes := Array.replicate n 0

@[simp] theorem size_overwrite (b : Bytes) (start : Nat) (src : List UInt8) :
    (b.overwrite start src).size = b.size := by
  induction src generalizing b start with
  | nil => rfl
  | cons x xs ih => simp [overwrite, ih]

@[simp] theorem size_zeros (n : Nat) : (zeros n).size = n := by simp [zeros]

end Bytes

end NumericEngine
