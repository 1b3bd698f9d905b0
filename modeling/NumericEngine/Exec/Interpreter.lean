import NumericEngine.Exec.Run
import NumericEngine.Exec.Eval

/-!
# The interpreter

Runs a function one instruction at a time. Calls of functions that also run
interpreted suspend the caller; every other call goes over the bridge. On an
edge, all phis of the target read their inputs before any of them is written.

A request to abort is noticed before a call and on every edge to a block that
does not come later.
-/

namespace NumericEngine.Exec

open Ir (Instr Terminator)
open Run (outcome defect need)

/-- A frame and the place where it goes on. -/
structure Activation where
  func : Ir.Function
  frame : Frame
  block : BlockId
  /-- The instructions of the block still to run. -/
  pending : List Instr
  /-- How the block ends; nothing if the function has no such block. -/
  terminator : Option Terminator
  deriving Inhabited

namespace Activation

/-- Stands at the start of a block. -/
def enterBlock (a : Activation) (b : BlockId) : Activation :=
  { a with
    block := b
    pending := ((a.func.block? b).map (·.instrs)).getD []
    terminator := (a.func.block? b).map (·.terminator) }

def new (f : Ir.Function) (args : List Value) : Except Fault Activation := do
  let frame ← Frame.new f.name f.params f.regTypes.size f.slotTypes.size args
  let start := { func := f, frame, block := ⟨0⟩, pending := [], terminator := none }
  return Activation.enterBlock start ⟨0⟩

/-- What the phis at the start of a block get on the edge from a block. -/
def phiCopies (frame : Frame) (source : BlockId) : List Instr → Except Fault (List (Reg × Value))
  | .define dst (.phi incoming) :: rest => do
    match incoming.find? (·.1 == source) with
    | none => .error (.internal (.phiInput dst source))
    | some (_, src) =>
      let v ← frame.get src
      let copies ← phiCopies frame source rest
      return (dst, v) :: copies
  | _ => .ok []

/-- Goes along the edge to a block. -/
def transfer (a : Activation) (target : BlockId) (chain : Chain) : Except Fault Activation := do
  if target.index ≤ a.block.index then chain.checkAbort
  match a.func.block? target with
  | none => .error (.internal (.missingBlock target))
  | some b =>
    let copies ← phiCopies a.frame a.block b.instrs
    let frame ← a.frame.setAll copies
    return { a with frame }.enterBlock target

end Activation

/-- A running interpreter: the active function, and its callers with the registers that wait for
their results, the latest first. -/
structure Interpreter (σ : Type) where
  active : Activation
  suspended : List (Activation × Reg) := []
  session : Session σ

namespace Interpreter

variable {σ α : Type}

def outside (x : Run (Session σ) α) : Run (Interpreter σ) α :=
  x.zoom (·.session) fun session i => { i with session }

def update (f : Activation → Except Fault Activation) : Run (Interpreter σ) Unit := fun i =>
  match f i.active with
  | .ok active => some (.ok (), { i with active })
  | .error e => some (.error e, i)

def setReg (r : Reg) (v : Value) : Run (Interpreter σ) Unit :=
  update fun a => do return { a with frame := ← a.frame.set r v }

/-- Suspends the active function and starts another. -/
def push (dst : Reg) (callee : Activation) : Run (Interpreter σ) Unit :=
  modify fun i => { i with active := callee, suspended := (i.active, dst) :: i.suspended }

/-- Calls a function; one that runs interpreted is started here. -/
def call (m : Ir.Module) (bridge : Bridge σ) (dst : Reg) (target : FuncId) (args : List Value) :
    Run (Interpreter σ) Unit := do
  outside Session.checkAbort
  if ← outside (bridge.runsInterpreted target) then
    let f ← need (m.function? target) (.unknownFunction target)
    outside (Session.onChain Chain.enter)
    let callee ← outcome (Activation.new f args)
    push dst callee
  else
    let v ← outside (bridge.call target args)
    setReg dst v

def instr (m : Ir.Module) (bridge : Bridge σ) (i : Instr) : Run (Interpreter σ) Unit := do
  let a := (← get).active
  match i with
  | .define _ (.phi _) => return ()
  | .define dst (.call target args) =>
    let args ← outcome (args.mapM a.frame.get)
    call m bridge dst target args
  | .define dst (.callIndirect callee args) =>
    let v ← outcome (a.frame.get callee)
    let target ← need v.functionId? (.internal .notAFunction)
    let args ← outcome (args.mapM a.frame.get)
    call m bridge dst target args
  | i => update fun a => do return { a with frame := ← execInstr m a.func a.frame i }

def goTo (target : BlockId) : Run (Interpreter σ) Unit := do
  let chain := (← get).session.chain
  update fun a => a.transfer target chain

/-- Gives a value back to the latest caller, or to the outside when there is none. -/
def giveBack (v : Value) : Run (Interpreter σ) (Option Value) := do
  match (← get).suspended with
  | [] => return some v
  | (caller, dst) :: rest =>
    modify fun i => { i with active := caller, suspended := rest }
    outside Session.leave
    setReg dst v
    return none

def terminator : Terminator → Run (Interpreter σ) (Option Value)
  | .jump target => do
    goTo target
    return none
  | .branch cond thenBlock elseBlock => do
    let v ← outcome ((← get).active.frame.get cond)
    goTo (if ← outcome v.asBool then thenBlock else elseBlock)
    return none
  | .ret r => do
    let (v, frame) ← outcome ((← get).active.frame.take r)
    update fun a => .ok { a with frame }
    giveBack v

/-- One instruction, or the end of a block; a value when the run is over. -/
def step (m : Ir.Module) (bridge : Bridge σ) : Run (Interpreter σ) (Option Value) := do
  let a := (← get).active
  match a.pending with
  | i :: rest =>
    update fun a => .ok { a with pending := rest }
    instr m bridge i
    return none
  | [] =>
    match a.terminator with
    | some t => terminator t
    | none => defect (.missingBlock a.block)

/-- Runs a function that the chain has already entered; a run that fails leaves the frames it
entered. -/
def run (m : Ir.Module) (bridge : Bridge σ) (limit : Nat) (f : Ir.Function) (args : List Value) :
    Run (Session σ) Value := do
  let active ← outcome (Activation.new f args)
  fun session =>
    match (Run.iterate (step m bridge) limit) { active, session } with
    | none => none
    | some (r, i) => some (r, i.session.leaveAll i.suspended.length)

end Interpreter

end NumericEngine.Exec
