import NumericEngine.Fault
import NumericEngine.Ty.Layout
import NumericEngine.Word.Size

/-!
# Memory regions

A region is a run of bytes at a base address that grows at its end up to a
limit. Reads and writes stay within the bytes handed out so far.
-/

namespace NumericEngine

/-- Byte memory with allocation. -/
class Memory (μ : Type) where
  load : μ → UInt64 → Nat → Except Fault (List UInt8)
  store : UInt64 → List UInt8 → Transition μ Unit
  /-- The address of a fresh zeroed block of a size and an alignment. -/
  alloc : Nat → Nat → Transition μ UInt64

/-- Whether there can be a buffer of a size: none is longer than `maxSize`. -/
def Memory.reserve (size : Nat) : Except Fault Unit :=
  if size ≤ Layout.maxSize then .ok () else .error .crash

/-- A new buffer with contents. -/
def Memory.newBuffer {μ : Type} [Memory μ] (data : Bytes) (align : Nat) : Transition μ UInt64 := do
  Transition.outcome (reserve data.size)
  let addr ← alloc data.size align
  store addr data.toList
  return addr

structure Region where
  base : UInt64
  limit : Nat
  bytes : Bytes := #[]
  deriving Repr, Inhabited

namespace Region

def used (r : Region) : Nat := r.bytes.size

/-- Where an access of `n` bytes starts, when it stays within the region. -/
def offset? (r : Region) (addr : UInt64) (n : Nat) : Option Nat :=
  if r.base ≤ addr ∧ addr.toNat - r.base.toNat + n ≤ r.used then
    some (addr.toNat - r.base.toNat)
  else none

def contains (r : Region) (addr : UInt64) (n : Nat) : Bool := (r.offset? addr n).isSome

def outside (r : Region) (addr : UInt64) (n : Nat) : Fault :=
  .internal (.access n addr r.base r.used)

def load (r : Region) (addr : UInt64) (n : Nat) : Except Fault (List UInt8) :=
  match r.offset? addr n with
  | some start => .ok (r.bytes.window start n)
  | none => .error (r.outside addr n)

def store (addr : UInt64) (bs : List UInt8) : Transition Region Unit := fun r =>
  match r.offset? addr bs.length with
  | some start => (.ok (), { r with bytes := r.bytes.overwrite start bs })
  | none => (.error (r.outside addr bs.length), r)

/-- Where the next block of an alignment starts. Alignment counts from the base. -/
def next (r : Region) (align : Nat) : Nat := Layout.alignUp r.used (max align 1)

def address (r : Region) (offset : Nat) : UInt64 := r.base + UInt64.ofNat offset

/-- Whether the region cannot grow to an end: this lies behind the limit, or there are more bytes already
than a buffer can hold. -/
def full (r : Region) (stop : Nat) : Bool := r.limit < stop || Layout.maxSize < r.used

/-- Grows to a size, with zeros, or is cut there. -/
def resize (r : Region) (size : Nat) : Region :=
  { r with bytes := r.bytes.shrink size ++ Bytes.zeros (size - r.used) }

/-- Grows the region by an aligned block. Where its end, as a word, lies before its start, the region is cut. -/
def alloc (size align : Nat) : Transition Region UInt64 := fun r =>
  let start := r.next align
  let stop := Word.add start size
  if r.full stop then (.error (.internal (.regionExhausted r.base stop r.limit)), r)
  else (.ok (r.address start), r.resize stop)

/-- Gives back everything from an address on. -/
def release (r : Region) (addr : UInt64) : Region :=
  if r.base ≤ addr then { r with bytes := r.bytes.shrink (addr.toNat - r.base.toNat) } else r

def reset (r : Region) : Region := { r with bytes := #[] }

instance : Memory Region := ⟨load, store, alloc⟩

end Region

end NumericEngine
