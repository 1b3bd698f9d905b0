/-!
# Murmur3

The 32-bit Murmur3 hash of a byte string.
-/

namespace NumericEngine.Murmur3

def rotateLeft (w n : UInt32) : UInt32 := (w <<< n) ||| (w >>> (32 - n))

/-- Scrambles a block of four bytes. -/
def scramble (k : UInt32) : UInt32 := rotateLeft (k * 0xcc9e2d51) 15 * 0x1b873593

def mix (hash block : UInt32) : UInt32 :=
  rotateLeft (hash ^^^ scramble block) 13 * 5 + 0xe6546b64

/-- The word whose bytes, least significant first, are given. -/
def block : List UInt8 → UInt32
  | [] => 0
  | b :: bs => b.toUInt32 ||| (block bs <<< 8)

def body (hash : UInt32) : List UInt8 → UInt32
  | a :: b :: c :: d :: rest => body (mix hash (block [a, b, c, d])) rest
  | [] => hash
  | tail => hash ^^^ scramble (block tail)

def finish (hash : UInt32) : UInt32 :=
  let h := hash ^^^ (hash >>> 16)
  let h := h * 0x85ebca6b
  let h := h ^^^ (h >>> 13)
  let h := h * 0xc2b2ae35
  h ^^^ (h >>> 16)

def hash (bs : List UInt8) (seed : UInt32) : UInt32 :=
  finish (body seed bs ^^^ UInt32.ofNat bs.length)

end NumericEngine.Murmur3
