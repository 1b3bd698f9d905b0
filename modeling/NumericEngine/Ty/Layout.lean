import NumericEngine.Ty.Basic

/-!
# Layouts

Size, alignment and field offsets of every type:

* a primitive takes its width, a complex number two components;
* a vector and a tensor of fixed shape store their elements in line;
* a tensor with a dynamic axis is a descriptor, the address of its buffer and
  one word per axis;
* a struct places its fields in order with natural padding;
* a function value and a reference take one word.

Sizes saturate at the largest word. `checkedSize?` gives the size only where
nothing overflows and the result is addressable.
-/

namespace NumericEngine

inductive Storage where
  | scalar
  | complex
  | inline (elemSize count : Nat)
  /-- A buffer elsewhere, behind an address and the extents. -/
  | descriptor (rank : Nat)
  | struct
  | functionId
  | address
  deriving DecidableEq, Repr, Inhabited

structure Layout where
  size : Nat
  align : Nat
  /-- Offsets of the fields; empty unless the type is a struct. -/
  offsets : List Nat
  storage : Storage
  deriving DecidableEq, Repr, Inhabited

namespace Layout

def maxWord : Nat := 0xffffffffffffffff

/-- The largest size a layout may have. -/
def maxSize : Nat := 0x7fffffffffffffff

def saturate (n : Nat) : Nat := min n maxWord

def word? (n : Nat) : Option Nat := if n ≤ maxWord then some n else none

/-- The next multiple of `align` from `offset` on. -/
def alignUp (offset align : Nat) : Nat :=
  if align ≤ 1 then offset else saturate (offset + (align - 1)) / align * align

def alignUp? (offset align : Nat) : Option Nat :=
  if align ≤ 1 then some offset
  else (word? (offset + (align - 1))).map fun n => n / align * align

/-- Where the extents of a descriptor start. -/
def extentsOffset : Nat := 8

def plain (size align : Nat) (storage : Storage) : Layout := ⟨size, align, [], storage⟩

/-- Bytes of a scalar of a primitive type; a width that does not exist takes a word. -/
def scalarSize (t : Ty) : Nat := (t.kind?.map Kind.size).getD 8

def elemExtent (elem : Ty) : Nat × Nat :=
  match elem.asElem? with
  | some e => (e.size, e.component.size)
  | none => (8, 8)

def product (shape : Shape) : Nat :=
  shape.foldl (fun acc d => saturate (acc * d.toNat)) 1

def product? (shape : Shape) : Option Nat :=
  shape.foldlM (fun acc d => word? (acc * d.toNat)) 1

def container (t elem : Ty) : Layout :=
  match t.fixedShape? with
  | some shape =>
    let (elemSize, align) := elemExtent elem
    let count := product shape
    plain (alignUp (saturate (elemSize * count)) align) align (.inline elemSize count)
  | none =>
    let rank := (t.dims?.map List.length).getD 0
    plain (extentsOffset + 8 * rank) 8 (.descriptor rank)

end Layout

open Layout

/-- Fields placed so far: their offsets, the first free byte, the strictest alignment. -/
structure Placement where
  offsets : List Nat
  size : Nat
  align : Nat
  deriving DecidableEq, Repr, Inhabited

namespace Ty

mutual
def layout : Ty → Layout
  | prim p w => plain (scalarSize (prim p w)) (scalarSize (prim p w)) .scalar
  | complex e => plain (2 * scalarSize e) (scalarSize e) .complex
  | vector e n => container (vector e n) e
  | tensor e ds => container (tensor e ds) e
  | struct fs =>
    let p := placeFields fs 0 1
    ⟨alignUp p.size p.align, p.align, p.offsets, .struct⟩
  | function .. => plain 8 8 .functionId
  | reference .. => plain 8 8 .address
/-- Places fields from `offset` on, in a struct aligned to `align` so far. -/
def placeFields : List (String × Ty) → Nat → Nat → Placement
  | [], offset, align => ⟨[], offset, align⟩
  | (_, t) :: fs, offset, align =>
    let l := t.layout
    let start := alignUp offset l.align
    let p := placeFields fs (saturate (start + l.size)) (max align l.align)
    { p with offsets := start :: p.offsets }
end

/-- An extent, when its size is addressable. -/
def addressable? (extent : Nat × Nat) : Option (Nat × Nat) :=
  if extent.1 ≤ maxSize then some extent else none

/-- Size and alignment of a vector or tensor, where no step overflows. -/
def containerExtent? (t elem : Ty) : Option (Nat × Nat) :=
  match t.fixedShape? with
  | some shape => do
    let (elemSize, align) := elemExtent elem
    let count ← product? shape
    let bytes ← word? (elemSize * count)
    addressable? (← alignUp? bytes align, align)
  | none => let l := container t elem; addressable? (l.size, l.align)

mutual
/-- Size and alignment, where no step overflows. -/
def extent? : Ty → Option (Nat × Nat)
  | vector e n => containerExtent? (vector e n) e
  | tensor e ds => containerExtent? (tensor e ds) e
  | struct fs => do
    let (size, align) ← fieldsExtent? fs 0 1
    addressable? (← alignUp? size align, align)
  | prim p w => let l := (prim p w).layout; addressable? (l.size, l.align)
  | complex e => let l := (complex e).layout; addressable? (l.size, l.align)
  | function .. => addressable? (8, 8)
  | reference .. => addressable? (8, 8)
def fieldsExtent? : List (String × Ty) → Nat → Nat → Option (Nat × Nat)
  | [], offset, align => some (offset, align)
  | (_, t) :: fs, offset, align => do
    let (size, fieldAlign) ← t.extent?
    let start ← alignUp? offset fieldAlign
    let next ← word? (start + size)
    fieldsExtent? fs next (max align fieldAlign)
end

/-- The exact size, when it is addressable and computing it overflows nowhere. -/
def checkedSize? (t : Ty) : Option Nat := t.extent?.map (·.1)

end Ty

end NumericEngine
