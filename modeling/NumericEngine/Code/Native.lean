import NumericEngine.Code.Select

/-!
# Native functions

The machine code of one function. The code of its blocks is laid out in order;
then the place of every block is known and jumps can be resolved.
-/

namespace NumericEngine.Code

structure Native where
  id : FuncId
  name : String
  symbol : String
  code : List UInt8
  /-- The program by slot. -/
  program : Array Insn
  frameSize : Nat
  /-- What the helper calls work on, by the number in `r4`. -/
  sites : Array Site
  params : List Ty
  ret : Ty
  /-- Homes in the frame that point at buffers. -/
  roots : List (Nat × Ty)
  deriving Inhabited

/-- The offset of a jump in a slot. -/
def jumpOffset (slot target : Nat) : Except Obstacle Int16 :=
  let delta : Int := target - (slot + 1)
  if -32768 ≤ delta ∧ delta ≤ 32767 then .ok (Int16.ofInt delta) else .error (.jumpRange delta)

/-- The instructions of items from a slot on, after so many helper sites. -/
def resolve (labels : List (BlockId × Nat)) (slot site : Nat) :
    List Item → Except Obstacle (List Insn)
  | [] => .ok []
  | .insn i :: rest => do
    let program ← resolve labels (slot + i.slots) site rest
    return i :: program
  | .helper h :: rest => do
    let program ← resolve labels (slot + 2) (site + 1) rest
    return .moveImm 4 (Int32.ofNat site) :: .callHelper h.helper.hash :: program
  | .jump target :: rest =>
    match labels.lookup target with
    | none => .error (.unboundBlock target)
    | some place => do
      let offset ← jumpOffset slot place
      let program ← resolve labels (slot + 1) site rest
      return .jump offset :: program
  | .skipIfZero n :: rest => do
    let offset ← jumpOffset slot (slot + 1 + n)
    let program ← resolve labels (slot + 1) site rest
    return .jumpIfZero 0 offset :: program

/-- The slots at which blocks start, latest first. -/
def blockPlaces (slot : Nat) : List (BlockId × List Item) → List (BlockId × Nat)
  | [] => []
  | (b, items) :: rest => blockPlaces (slot + itemSlots items) rest ++ [(b, slot)]

def sitesOf (items : List Item) : List Site :=
  items.filterMap fun
    | .helper s => some s
    | _ => none

namespace Subject

variable (s : Subject)

/-- The items of the whole function, and the places of its blocks. -/
def items : Except Obstacle (List Item × List (BlockId × Nat)) := do
  let start ← s.prologue
  let blocks ← s.func.blocks.mapM fun b => return (b.id, ← s.blockCode b)
  return (start ++ blocks.flatMap (·.2), blockPlaces (itemSlots start) blocks)

/-- The checked code of the function, and its helper sites. -/
def program : Except Obstacle (List Insn × List Site) := do
  let (items, labels) ← s.items
  let program ← resolve labels 0 0 items
  match (check s.module.functions.length program).errors with
  | e :: _ => .error (.rejected e)
  | [] => return (program, sitesOf items)

end Subject

def symbolOf (id : FuncId) (name : String) : String :=
  "_T" ++ toString id.index.toNat ++ "_" ++ name

/-- The machine code of a function of a module, for a target. -/
def Native.ofFunction (m : Ir.Module) (target : Target) (id : FuncId) (f : Ir.Function) :
    Except Obstacle Native := do
  let frame ← FramePlan.build m f
  let (program, sites) ← Subject.program ⟨m, f, target, frame⟩
  let code := encode program
  match decode code with
  | .error e => .error (.unreadable e)
  | .ok bySlot =>
    match m.paramTys? f, m.ty? f.retType with
    | none, _ => .error .unresolvedParams
    | _, none => .error .unresolvedReturn
    | some params, some ret =>
      return { id, name := f.name, symbol := symbolOf id f.name, code, program := bySlot.toArray,
               frameSize := frame.size, sites := sites.toArray, params, ret, roots := frame.roots }

end NumericEngine.Code
