import NumericEngine.Memory.Region

/-!
# Value records

The bytes of a value follow the layout of its type: a scalar by its low bytes,
a complex number by its parts, a tensor of fixed shape by its elements, a
tensor with a dynamic axis by a descriptor whose buffer is allocated in memory,
a struct by its fields at their offsets with zeros between, and a function by
its id. References have no record.
-/

namespace NumericEngine

namespace Value

open Transition

variable {μ : Type} [Memory μ]

def loadM (addr : UInt64) (n : Nat) : Transition μ (List UInt8) := fun m =>
  (Memory.load m addr n, m)

def descriptor (addr : UInt64) (shape : Shape) : List UInt8 :=
  leBytes 8 addr ++ shape.flatMap (leBytes 8)

def bufferAlign (t : Ty) : Nat := (t.elemKind?.map fun e => e.component.size).getD 8

/-- Refuses an output that is shorter than the layout. -/
def checkRoom (layout : Layout) (out : Bytes) (t : Ty) : Transition μ Unit :=
  if out.size < layout.size then defect (.recordSize out.size layout.size t) else pure ()

/-- A payload of another form than its layout. -/
def mismatch (s : Storage) (t : Ty) : Transition μ Bytes :=
  match s with
  | .address => defect .referenceInRecord
  | _ => defect (.payloadLayout t)

mutual
/-- Writes a value at the start of `out`, which has the given layout. -/
def encodeInto (layout : Layout) (out : Bytes) : Value → Transition μ Bytes
  | scalar t w => do
    checkRoom layout out t
    match layout.storage with
    | .scalar =>
      match t.kind? with
      | some k => return out.overwrite 0 ((k.bytes w).take layout.size)
      | none => defect .scalarPayload
    | s => mismatch s t
  | complex t re im => do
    checkRoom layout out t
    match layout.storage with
    | .complex =>
      match t.complexKind? with
      | some k => return out.overwrite 0 (k.bytes re ++ k.bytes im)
      | none => defect .complexPayload
    | s => mismatch s t
  | tensor t shape data => do
    checkRoom layout out t
    match layout.storage with
    | .inline .. =>
      return out.overwrite 0 (data.toList ++ List.replicate (layout.size - data.size) 0)
    | .descriptor rank =>
      if shape.length ≠ rank then defect (.descriptorRank shape.length rank)
      else
        let addr ← Memory.newBuffer data (bufferAlign t)
        return out.overwrite 0 (descriptor addr shape)
    | s => mismatch s t
  | struct t fields => do
    checkRoom layout out t
    match layout.storage with
    | .struct =>
      encodeFields layout.offsets (out.overwrite 0 (List.replicate layout.size 0)) fields
    | s => mismatch s t
  | function t id => do
    checkRoom layout out t
    match layout.storage with
    | .functionId => return out.overwrite 0 (leBytes 8 id.index.toUInt64)
    | s => mismatch s t
  | ref t _ => do
    checkRoom layout out t
    defect .referenceInRecord
def encodeFields (offsets : List Nat) (out : Bytes) : List Value → Transition μ Bytes
  | [] => return out
  | v :: vs =>
    match offsets with
    | [] => return out
    | offset :: rest => do
      let l := v.ty.layout
      let field ← encodeInto l (out.window offset l.size).toArray v
      encodeFields rest (out.overwrite offset field.toList) vs
end

/-- The record of a value; the buffers of its dynamic tensors go to memory. -/
def encode (v : Value) : Transition μ Bytes := do
  outcome (Memory.reserve v.ty.layout.size)
  encodeInto v.ty.layout (Bytes.zeros v.ty.layout.size) v

def store (v : Value) (addr : UInt64) : Transition μ Unit := do
  let bs ← v.encode
  Memory.store addr bs.toList

/-- The `n` words from the start of a record. -/
def words : Nat → List UInt8 → List UInt64
  | 0, _ => []
  | n + 1, bs => ofLeBytes (bs.take 8) :: words n (bs.drop 8)

/-- The tensor behind a descriptor. -/
def decodeDescriptor (mem : μ) (t : Ty) (rank : Nat) (bs : List UInt8) : Except Fault Value :=
  let addr := ofLeBytes (bs.take 8)
  let shape : Shape := words rank (bs.drop 8)
  match t.elemKind? with
  | none => .error (.internal (.noElementKind t))
  | some e => do
    let size := Word.mul shape.count e.size
    Memory.reserve size
    let data ← Memory.load mem addr size
    (tensor t shape data.toArray).checked.mapError fun d => .internal (.invalidValue d)

def decodeContainer (mem : μ) (t : Ty) (bs : List UInt8) : Except Fault Value :=
  match t.layout.storage with
  | .inline elemSize count =>
    match t.fixedShape? with
    | some shape => .ok (tensor t shape (bs.take (elemSize * count)).toArray)
    | none => .error (.internal (.noFixedShape t))
  | .descriptor rank => decodeDescriptor mem t rank bs
  | _ => .error (.internal (.payloadLayout t))

def decodeFunction (t : Ty) (bs : List UInt8) : Except Fault Value :=
  let id := ofLeBytes (bs.take 8)
  if id.toNat < UInt32.size then .ok (function t ⟨id.toUInt32⟩)
  else .error (.internal .functionIdRange)

/-- The bytes, when a record of the type is no longer than they are. -/
def record (t : Ty) (bs : List UInt8) : Except Fault (List UInt8) :=
  if bs.length < t.layout.size then
    .error (.internal (.recordSize bs.length t.layout.size t))
  else .ok bs

mutual
def decode (mem : μ) : Ty → List UInt8 → Except Fault Value
  | .prim p w, bs => do
    let bs ← record (.prim p w) bs
    match (Ty.prim p w).kind? with
    | some k => .ok (ofScalar k (k.read bs))
    | none => .error (.internal (.noScalarKind (.prim p w)))
  | .complex e, bs => do
    let bs ← record (.complex e) bs
    match (Ty.complex e).complexKind? with
    | some k => .ok (complex (.complex e) (k.read bs) (k.read (bs.drop k.size)))
    | none => .error (.internal (.notComplex (.complex e)))
  | .vector e n, bs => do
    let bs ← record (.vector e n) bs
    decodeContainer mem (.vector e n) bs
  | .tensor e ds, bs => do
    let bs ← record (.tensor e ds) bs
    decodeContainer mem (.tensor e ds) bs
  | .struct fs, bs => do
    let bs ← record (.struct fs) bs
    struct (.struct fs) <$> decodeFields mem fs (Ty.struct fs).layout.offsets bs
  | .function ps r, bs => do
    let bs ← record (.function ps r) bs
    decodeFunction (.function ps r) bs
  | .reference t m, bs => do
    let _ ← record (.reference t m) bs
    .error (.internal .referenceInRecord)
def decodeFields (mem : μ) :
    List (String × Ty) → List Nat → List UInt8 → Except Fault (List Value)
  | (_, t) :: fs, offset :: rest, bs => do
    let v ← decode mem t ((bs.drop offset).take t.layout.size)
    let vs ← decodeFields mem fs rest bs
    return v :: vs
  | _, _, _ => .ok []
end

/-- Reads the value of a type whose record lies at an address. -/
def load (mem : μ) (t : Ty) (addr : UInt64) : Except Fault Value := do
  Memory.reserve t.layout.size
  let bs ← Memory.load mem addr t.layout.size
  decode mem t bs

end Value

end NumericEngine
