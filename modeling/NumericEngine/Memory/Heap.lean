import NumericEngine.Memory.Region

/-!
# Heaps

A heap hands out blocks that never move. Allocation takes the first gap that
fits and grows the region only when none does. A sweep keeps the blocks that it
is told are live, frees the others and shrinks the region to its last block.

Live blocks and gaps are kept in the order of their addresses.
-/

namespace NumericEngine

/-- The addresses from `start` on, `size` of them. -/
structure Extent where
  start : Nat
  size : Nat
  deriving DecidableEq, Repr, Inhabited

namespace Extent

def stop (e : Extent) : Nat := e.start + e.size

def holds (e : Extent) (addr : Nat) : Bool := e.start ≤ addr && addr < e.stop

/-- The addresses from `a` up to, not including, `b`, when there are any. -/
def between (a b : Nat) : List Extent := if a < b then [⟨a, b - a⟩] else []

def insert (e : Extent) : List Extent → List Extent
  | [] => [e]
  | x :: xs => if e.start < x.start then e :: x :: xs else x :: insert e xs

/-- Takes an aligned block from the first gap that fits: its address and the gaps left. -/
def carve (size align : Nat) : List Extent → Option (Nat × List Extent)
  | [] => none
  | gap :: gaps =>
    let addr := Layout.alignUp gap.start align
    if gap.start ≤ addr ∧ addr + size ≤ gap.stop then
      some (addr, between gap.start addr ++ between (addr + size) gap.stop ++ gaps)
    else (carve size align gaps).map fun r => (r.1, gap :: r.2)

/-- The gaps before and between blocks, from an address on, and the end of the last block. -/
def gapsFrom (cursor : Nat) : List Extent → List Extent × Nat
  | [] => ([], cursor)
  | block :: blocks =>
    let (gaps, stop) := gapsFrom block.stop blocks
    (between cursor block.start ++ gaps, stop)

def total (es : List Extent) : Nat := es.foldr (·.size + ·) 0

end Extent

structure Heap where
  region : Region
  blocks : List Extent := []
  gaps : List Extent := []
  /-- Bytes allocated since the last sweep. -/
  sinceSweep : Nat := 0
  deriving Repr, Inhabited

namespace Heap

def new (base : UInt64) (limit : Nat) : Heap := { region := { base, limit } }

def limit (h : Heap) : Nat := h.region.limit

/-- Bytes in live blocks. -/
def used (h : Heap) : Nat := Extent.total h.blocks

def footprint (h : Heap) : Nat := h.region.used

/-- Allocation after which a sweep is due. -/
def threshold (h : Heap) : Nat := max (h.limit / 4) 1

def wantsSweep (h : Heap) : Bool := h.threshold ≤ h.sinceSweep

/-- The start of the live block that holds an address. -/
def block? (h : Heap) (addr : UInt64) : Option UInt64 :=
  (h.blocks.find? (·.holds addr.toNat)).map fun b => UInt64.ofNat b.start

/-- Frees the blocks that are not live; also the number of bytes freed. -/
def sweep (h : Heap) (live : UInt64 → Bool) : Nat × Heap :=
  let blocks := h.blocks.filter fun b => live (UInt64.ofNat b.start)
  let (gaps, stop) := Extent.gapsFrom h.region.base.toNat blocks
  let region := h.region.release (UInt64.ofNat stop)
  (h.used - Extent.total blocks, { region, blocks, gaps, sinceSweep := 0 })

/-- Records a block of `size` bytes at `addr`. -/
def addBlock (h : Heap) (addr : UInt64) (size : Nat) : Heap :=
  { h with blocks := Extent.insert ⟨addr.toNat, size⟩ h.blocks, sinceSweep := h.sinceSweep + size }

@[inline] def onRegion {α : Type} (a : Transition Region α) : Transition Heap α := fun h =>
  let (r, region) := a h.region
  (r, { h with region })

/-- Grows the region; the padding before the new block becomes a gap. -/
def grow (size align : Nat) : Transition Heap UInt64 := fun h =>
  let start := h.region.next align
  let stop := Word.add start size
  let addr := h.region.address start
  if h.region.full stop then (.error (.outOfMemory size h.used h.limit), h)
  else
    let gaps := h.gaps ++ Extent.between (h.region.address h.region.used).toNat addr.toNat
    let region := h.region.resize stop
    (.ok addr, { h with region, gaps }.addBlock addr size)

/-- A zeroed block of at least one byte, from a gap if one fits. -/
def alloc (size align : Nat) : Transition Heap UInt64 := fun h =>
  let size := max size 1
  let align := max align 1
  match Extent.carve size align h.gaps with
  | some (start, gaps) =>
    let addr := UInt64.ofNat start
    match onRegion (Region.store addr (List.replicate size 0)) { h with gaps } with
    | (.error f, h) => (.error f, h)
    | (.ok (), h) => (.ok addr, h.addBlock addr size)
  | none => grow size align h

def load (h : Heap) (addr : UInt64) (n : Nat) : Except Fault (List UInt8) := h.region.load addr n

def store (addr : UInt64) (bs : List UInt8) : Transition Heap Unit :=
  onRegion (Region.store addr bs)

instance : Memory Heap := ⟨load, store, alloc⟩

end Heap

end NumericEngine
