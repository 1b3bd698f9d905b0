import NumericEngine.Code.Disassembly
import NumericEngine.Machine.Helper
import NumericEngine.Machine.State

/-!
# Steps of the machine

A call of a function with machine code pushes a frame and hands over the
argument record of the caller. Any other call reads the record, goes over the
bridge and writes the result where the caller expects it. A request to abort is
noticed before a call and on every backward jump.
-/

namespace NumericEngine.Machine

open Code (Insn Native Width)
open Run (outcome defect need)

variable {σ : Type}

/-- A loaded word of a width, extended with its sign. -/
def signExtend (w : Width) (x : UInt64) : UInt64 :=
  match w with
  | .byte => x.toUInt8.toInt8.toInt64.toUInt64
  | .half => x.toUInt16.toInt16.toInt64.toUInt64
  | .word => x.toUInt32.toInt32.toInt64.toUInt64
  | .double => x

def kindOf (code : Int16) : Run (Machine σ) Kind :=
  need (Code.kindOfCode? code) (.internal (.badKindCode code.toInt))

def address (base : UInt8) (offset : Int16) : Run (Machine σ) UInt64 :=
  return (← getReg base) + offset.toInt64.toUInt64

def jump (offset : Int16) : Run (Machine σ) Unit := do
  if offset < 0 then outside Session.checkAbort
  let target : Int := (← get).pc + offset.toInt
  if target < 0 then defect .jumpBeforeStart
  else modify fun m => { m with pc := target.toNat }

/-- The second operand: a register or the immediate. -/
def operand (i : Insn) : Run (Machine σ) UInt64 :=
  if i.usesReg then getReg i.src else return i.immediate

def pushFrame (size : Nat) : Run (Machine σ) Unit := do
  let fp ← onMemory (MachineMemory.pushFrame size)
  setReg Code.fp fp

def enter (callee : Native) : Run (Machine σ) Unit := do
  modify fun m =>
    { m with
      frames := ⟨m.code, m.pc, m.reg Code.fp⟩ :: m.frames
      code := callee
      pc := 0 }
  pushFrame callee.frameSize

/-- The arguments in the record of a caller. -/
def readArgs (params : List Ty) : Run (Machine σ) (List Value) := do
  let m ← get
  match ← outcome (Value.load m.memory (Ty.record params) (m.reg 1)) with
  | .struct _ args => return args
  | _ => defect .argumentRecord

/-- The parameter types of a function whose result type is known too. -/
def params? (m : Ir.Module) (target : FuncId) : Option (List Ty) := do
  let f ← m.function? target
  let params ← m.paramTys? f
  let _ ← m.ty? f.retType
  return params

def call (m : Ir.Module) (bridge : Bridge σ) (target : FuncId) : Run (Machine σ) Unit := do
  safePoint
  outside Session.checkAbort
  match ← outside (bridge.native? target) with
  | some callee =>
    outside (Session.onChain Chain.enter)
    enter callee
  | none =>
    let params ← need (params? m target) (.unknownFunction target)
    let args ← readArgs params
    let result ← outside (bridge.call target args)
    let dst ← getReg 2
    withCollection (result.store dst)

def callHelper (hash : UInt32) : Run (Machine σ) Unit := do
  safePoint
  let h ← need (Code.Helper.ofHash? hash) (.internal (.unknownHelper hash))
  let m ← get
  let site ← need m.code.sites[(m.reg 4).toNat]?
    (.internal (.noHelperSite (m.reg 4) m.code.symbol))
  withCollection (site.run ⟨m.reg 1, m.reg 2, m.reg 3⟩ h)
  setReg 0 0

/-- Returns to the latest caller; true when there is none. -/
def leave : Run (Machine σ) Bool := do
  modify fun m => { m with memory := m.memory.popFrame (m.reg Code.fp) }
  match (← get).frames with
  | [] => return true
  | caller :: rest =>
    outside Session.leave
    modify fun m =>
      { m with code := caller.code, pc := caller.pc, frames := rest }.withReg Code.fp caller.fp
    return false

/-- Carries out an instruction; true when the invocation is over. -/
def exec (m : Ir.Module) (bridge : Bridge σ) (i : Insn) : Run (Machine σ) Bool := do
  match i.form with
  | .wideLoad => setReg i.dst i.imm64
  | .load w signed =>
    let addr ← address i.src i.offset
    let bs ← outcome ((← get).memory.load addr w.bytes)
    let x := ofLeBytes bs
    setReg i.dst (if signed then signExtend w x else x)
  | .store w =>
    let addr ← address i.dst i.offset
    let x ← getReg i.src
    onMemory (MachineMemory.store addr (leBytes w.bytes x))
  | .move =>
    let _ ← kindOf i.offset
    setReg i.dst (← operand i)
  | .convert =>
    let source ← kindOf i.offset
    let target ← kindOf i.imm.toInt16
    setReg i.dst (Scalar.convert source target (← getReg i.src))
  | .unary op checked =>
    let k ← kindOf i.offset
    let x ← getReg i.dst
    setReg i.dst (← outcome (Value.arith (Scalar.unary op k x checked)))
  | .arith op checked =>
    let k ← kindOf i.offset
    let x ← getReg i.dst
    let y ← operand i
    setReg i.dst (← outcome (Value.arith (Scalar.binary op k x y checked)))
  | .compare op =>
    let k ← kindOf i.offset
    let x ← getReg i.dst
    let y ← getReg i.src
    setReg i.dst (if Scalar.compare op k x y then 1 else 0)
  | .jump => jump i.offset
  | .jumpWhen equal =>
    if ((← getReg i.dst) == i.immediate) == equal then jump i.offset
  | .callFunction => call m bridge ⟨i.imm.toUInt32⟩
  | .callHelper => callHelper i.imm.toUInt32
  | .callValue =>
    let id ← getReg i.dst
    if id.toNat < UInt32.size then call m bridge ⟨id.toUInt32⟩ else defect .functionValueRange
  | .exit => return ← leave
  | .badCompare =>
    let _ ← kindOf i.offset
    defect (.invalidOpcode i.opcode)
  | .badJump | .bad => defect (.invalidOpcode i.opcode)
  return false

def step (m : Ir.Module) (bridge : Bridge σ) : Run (Machine σ) (Option Unit) := do
  let s ← get
  let i ← need s.code.program[s.pc]? (.internal (.pcOutside s.pc s.code.symbol))
  set { s with pc := s.pc + i.slots, executed := s.executed + 1 }
  return if ← exec m bridge i then some () else none

/-- Runs the code of the machine from its start. -/
def run (m : Ir.Module) (bridge : Bridge σ) (limit : Nat) : Run (Machine σ) Unit := do
  pushFrame (← get).code.frameSize
  Run.iterate (step m bridge) limit

/-- Runs, and leaves the frames that a failing run entered. -/
def execute (m : Ir.Module) (bridge : Bridge σ) (limit : Nat) : Run (Machine σ) Unit :=
  fun s =>
    match run m bridge limit s with
    | none => none
    | some (r, s') =>
      some (r, { s' with frames := [], session := s'.session.leaveAll s'.frames.length })

def allocRecord (t : Ty) : Run (Machine σ) UInt64 :=
  onMemory (MachineMemory.alloc t.layout.size t.layout.align)

/-- Places the arguments, runs the function, and reads the result. The chain has entered the
function already. -/
def invoke (m : Ir.Module) (bridge : Bridge σ) (limit : Nat) (args : List Value) :
    Run (Machine σ) Value := do
  let code := (← get).code
  let recordTy := Ty.record code.params
  let record ← allocRecord recordTy
  onMemory ((Value.struct recordTy args).store record)
  let ret ← allocRecord code.ret
  modify fun s => { s with pinned := [(record, recordTy), (ret, code.ret)] }
  setReg 1 record
  setReg 2 ret
  execute m bridge limit
  outcome (Value.load (← get).memory code.ret ret)

end NumericEngine.Machine
