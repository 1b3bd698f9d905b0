import NumericEngine.Code.Obstacle

/-!
# Frame plans

Every register and every stack slot of a function has a home in its frame:

* the saved address of the result, at the start;
* the registers, then the stack slots;
* shadows of phis, for the blocks that have more than one;
* the outgoing area, for argument records and index arrays.

Homes whose type points at buffers on the heap are roots of a collection.
-/

namespace NumericEngine.Code

open Layout (alignUp)

structure Home where
  offset : Nat
  layout : Layout
  deriving DecidableEq, Repr, Inhabited

structure FramePlan where
  regs : Array Home
  slots : Array Home
  /-- The shadows of phis, latest first. -/
  shadows : List (Reg × Nat)
  outgoing : Nat
  size : Nat
  /-- Homes that point at buffers. -/
  roots : List (Nat × Ty)
  deriving DecidableEq, Repr, Inhabited

/-- Where the address of the result is saved. -/
def resultOffset : Nat := 0

mutual
/-- Whether a value of the type points at a buffer on the heap. -/
def holdsBuffers : Ty → Bool
  | .tensor e ds => (Ty.tensor e ds).fixedShape?.isNone
  | .struct fs => fieldsHoldBuffers fs
  | _ => false
def fieldsHoldBuffers : List (String × Ty) → Bool
  | [] => false
  | (_, t) :: fs => holdsBuffers t || fieldsHoldBuffers fs
end

/-- The homes of a list of types from an offset on, and the first free offset. Offsets are words. -/
def placeTypes (offset : Nat) : List Ty → List Home × Nat
  | [] => ([], offset)
  | t :: ts =>
    let start := alignUp offset t.layout.align
    let (homes, stop) := placeTypes (Word.add start t.layout.size) ts
    (⟨start, t.layout⟩ :: homes, stop)

/-- The homes among those of a list of types that point at buffers. -/
def rootsOf (homes : List Home) (tys : List Ty) : List (Nat × Ty) :=
  (homes.zip tys).filterMap fun (h, t) => if holdsBuffers t then some (h.offset, t) else none

def typesOf (m : Ir.Module) (ids : List TypeId) : Except Obstacle (List Ty) :=
  ids.mapM fun id =>
    match m.ty? id with
    | some t => .ok t
    | none => .error (.unknownType id)

/-- The phis at the start of a block: what each defines, and its inputs. -/
def leadingPhis : List Ir.Instr → List (Reg × List (BlockId × Reg))
  | .define dst (.phi incoming) :: rest => (dst, incoming) :: leadingPhis rest
  | _ => []

/-- The phis that need a shadow: those of blocks with at least two. -/
def shadowed (f : Ir.Function) : List Reg :=
  f.blocks.flatMap fun b =>
    let phis := leadingPhis b.instrs
    if phis.length < 2 then [] else phis.map (·.1)

def typeOf (m : Ir.Module) (f : Ir.Function) (r : Reg) : Except Obstacle Ty :=
  match m.regTy? f r with
  | some t => .ok t
  | none => .error (.untyped r)

/-- Bytes that an instruction needs in the outgoing area. -/
def outgoingOf (m : Ir.Module) (f : Ir.Function) : Ir.Instr → Except Obstacle Nat
  | .define _ (.call _ args) => record args
  | .define _ (.callIndirect _ args) => record args
  | .define _ (.extractElement _ indices) => .ok (8 * indices.length)
  | _ => .ok 0
where
  record (args : List Reg) : Except Obstacle Nat :=
    match args.mapM (m.regTy? f) with
    | some tys => .ok (Ty.record tys).layout.size
    | none => .error .untypedArgument

def FramePlan.build (m : Ir.Module) (f : Ir.Function) : Except Obstacle FramePlan := do
  let regTys ← typesOf m f.regTypes.toList
  let (regs, offset) := placeTypes (resultOffset + 8) regTys
  let slotTys ← typesOf m f.slotTypes.toList
  let (slots, offset) := placeTypes offset slotTys
  let phis := shadowed f
  let phiTys ← phis.mapM (typeOf m f)
  let (shadows, offset) := placeTypes offset phiTys
  let needs ← (f.blocks.flatMap (·.instrs)).mapM (outgoingOf m f)
  let outgoing := alignUp offset 8
  let size := alignUp (Word.add outgoing (needs.foldl max 0)) 16
  if 32767 < size then .error (.frameSize size)
  else
    return {
      regs := regs.toArray
      slots := slots.toArray
      shadows := (phis.zip (shadows.map (·.offset))).reverse
      outgoing
      size
      roots := rootsOf regs regTys ++ rootsOf slots slotTys ++ rootsOf shadows phiTys }

end NumericEngine.Code
