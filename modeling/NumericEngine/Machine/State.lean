import NumericEngine.Exec.Run
import NumericEngine.Machine.Memory

/-!
# State of the machine

Registers, memory, the function that runs and those that wait for it. The
records of the invocation itself are pinned: a collection keeps them and what
they point at, besides what the frames point at.
-/

namespace NumericEngine

open Code (Native)

/-- A caller, and where it goes on. -/
structure CallFrame where
  code : Native
  pc : Nat
  fp : UInt64
  deriving Inhabited

structure Machine (σ : Type) where
  code : Native
  pc : Nat := 0
  memory : MachineMemory
  regs : Array UInt64 := Array.replicate 16 0
  /-- Callers, the latest first. -/
  frames : List CallFrame := []
  pinned : List (UInt64 × Ty) := []
  executed : Nat := 0
  collections : Nat := 0
  session : Session σ

namespace Machine

variable {σ α : Type}

def reg (m : Machine σ) (r : UInt8) : UInt64 := m.regs[r.toNat]?.getD 0

def withReg (m : Machine σ) (r : UInt8) (w : UInt64) : Machine σ :=
  { m with regs := m.regs.setIfInBounds r.toNat w }

def getReg (r : UInt8) : Run (Machine σ) UInt64 := return (← get).reg r

def setReg (r : UInt8) (w : UInt64) : Run (Machine σ) Unit := modify (·.withReg r w)

def outside (x : Run (Session σ) α) : Run (Machine σ) α :=
  x.zoom (·.session) fun session m => { m with session }

@[inline] def onMemory (a : Transition MachineMemory α) : Run (Machine σ) α := fun m =>
  let (r, memory) := a m.memory
  some (r, { m with memory })

/-! ## Collection -/

mutual
/-- The blocks that a record of a type at an address points at. -/
def marks (memory : MachineMemory) : Ty → UInt64 → Except Fault (List UInt64)
  | .struct fs, addr => fieldMarks memory fs (Ty.struct fs).layout.offsets addr
  | t, addr =>
    match t.layout.storage with
    | .descriptor _ => do
      let bs ← memory.load addr 8
      return (memory.heap.block? (ofLeBytes bs)).toList
    | _ => .ok []
def fieldMarks (memory : MachineMemory) :
    List (String × Ty) → List Nat → UInt64 → Except Fault (List UInt64)
  | (_, t) :: fs, offset :: rest, addr => do
    let here ← marks memory t (addr + UInt64.ofNat offset)
    let more ← fieldMarks memory fs rest addr
    return here ++ more
  | _, _, _ => .ok []
end

/-- The records from which all data in use can be reached: those pinned, and the homes of all
frames that point at buffers. -/
def roots (m : Machine σ) : List (UInt64 × Ty) :=
  let callers := m.frames.reverse.map fun f => (f.code.roots, f.fp)
  let frames := callers ++ [(m.code.roots, m.reg Code.fp)]
  m.pinned ++ frames.flatMap fun (roots, fp) =>
    roots.map fun (offset, t) => (fp + UInt64.ofNat offset, t)

def live (m : Machine σ) : Except Fault (List UInt64) := do
  let marked ← m.roots.mapM fun (addr, t) => marks m.memory t addr
  return m.pinned.map (·.1) ++ marked.flatten

def collect : Run (Machine σ) Unit := do
  let m ← get
  let live ← Run.outcome m.live
  let (_, heap) := m.memory.heap.sweep live.contains
  set { m with memory := { m.memory with heap }, collections := m.collections + 1 }

/-- Collects when enough has been allocated since the last time. -/
def safePoint : Run (Machine σ) Unit := do
  if (← get).memory.heap.wantsSweep then collect

/-- A transition of memory that is tried once more after a collection when memory runs out. -/
def withCollection (a : Transition MachineMemory Unit) : Run (Machine σ) Unit := fun m =>
  match onMemory a m with
  | some (.error f, m') =>
    if f.kind = .outOfMemory then (do collect; onMemory a : Run (Machine σ) Unit) m'
    else some (.error f, m')
  | r => r

end Machine

end NumericEngine
