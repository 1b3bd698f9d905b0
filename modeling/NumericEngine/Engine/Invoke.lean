import NumericEngine.Engine.Mode
import NumericEngine.Exec.Interpreter
import NumericEngine.Machine.Step

/-!
# Invocations

A function runs in its own mode whatever the mode of its caller. Calls within
one mode stay on one executor; a switch of mode starts a new one. The number of
nested switches is bounded, and with it the nesting of executors.
-/

namespace NumericEngine.Engine

open Run (outcome need unfinished)

variable (e : Engine)

abbrev Chained := Run (Session ModeTable)

def modeOf (f : FuncId) : Chained Mode := fun s =>
  match e.resolve f s.host with
  | .ok (mode, host) => some (.ok mode, { s with host })
  | .error fault => some (.error fault, s)

def codeOf (f : FuncId) : Chained (Option Code.Native) := do
  match ← e.modeOf f with
  | .native => return (← get).host.code? f
  | _ => return none

/-- Runs a body as one frame on a new executor, which is left also when the body fails. -/
def onExecutor {σ α : Type} (body : Run (Session σ) α) : Run (Session σ) α := do
  Session.checkAbort
  Session.onChain Chain.enter
  fun s =>
    match s.chain.enterExecutor with
    | .error fault => some (.error fault, { s with chain := s.chain.leave })
    | .ok chain =>
      match body { s with chain } with
      | none => none
      | some (r, s') => some (r, { s' with chain := s'.chain.leaveExecutor.leave })

/-- Runs machine code on a machine of its own. -/
def runNative {σ : Type} (bridge : Bridge σ) (limit : Nat) (code : Code.Native) (args : List Value) :
    Run (Session σ) Value := fun session =>
  let memory := MachineMemory.new MachineMemory.stackLimit MachineMemory.heapLimit
  match Machine.invoke e.unit.module bridge limit args { code, memory, session } with
  | none => none
  | some (r, m) => some (r, m.session)

/-- Runs a function in its mode; calls that leave the executor go over the bridge. -/
def runWith (bridge : Bridge ModeTable) (limit : Nat) (f : FuncId) (args : List Value) :
    Chained Value := do
  match ← e.modeOf f with
  | .native =>
    let code ← need ((← get).host.code? f) (.internal (.missingCode f))
    e.runNative bridge limit code args
  | _ =>
    let g ← need (e.unit.function? f) (.unknownFunction f)
    Exec.Interpreter.run e.unit.module bridge limit g args

/-- The bridge of a chain, given what becomes of a call that leaves its executor. -/
def bridge (call : FuncId → List Value → Chained Value) : Bridge ModeTable where
  runsInterpreted f := return (← e.modeOf f) == .interpreted
  native? := e.codeOf
  call

/-- Runs a function as a frame of the chain, with room for so many nested executors. -/
def enter (limit : Nat) : (levels : Nat) → FuncId → List Value → Chained Value
  | 0, _, _ => unfinished
  | levels + 1, f, args => onExecutor (e.runWith (e.bridge (enter limit levels)) limit f args)

/-- Enough levels for the switches that a chain allows. -/
def levels : Nat := Chain.maxSwitches + 1

def checkArgs (f : FuncId) : (i : Nat) → List Ty → List Value → Except Fault Unit
  | i, p :: ps, v :: vs =>
    if v.ty ≠ p then .error (.argumentType i f p v.ty)
    else
      match v.check with
      | .error d => .error (.argumentValue i f d)
      | .ok () => checkArgs f (i + 1) ps vs
  | _, _, _ => .ok ()

/-- Checks that arguments are well formed and have the types of the parameters. -/
def checkArguments (f : FuncId) (args : List Value) : Except Fault Unit :=
  match e.unit.paramTys? f with
  | none => .error (.unknownFunction f)
  | some params =>
    if params.length ≠ args.length then .error (.argumentCount f params.length args.length)
    else checkArgs f 0 params args

/-- Invokes a function, in a chain that may be aborted from the start. -/
def invoke (limit : Nat) (f : FuncId) (args : List Value) (aborted : Bool) :
    Run ModeTable Value := do
  outcome (e.checkArguments f args)
  fun host =>
    let chain : Chain := { maxDepth := e.options.maxDepth, aborted }
    match e.enter limit levels f args { chain, host } with
    | none => none
    | some (r, s) => some (r, s.host)

def invokeNamed (limit : Nat) (name : String) (args : List Value) : Run ModeTable Value := do
  let f ← need (e.unit.functionId? name) (.unknownName name)
  e.invoke limit f args false

structure Invocation where
  function : FuncId
  args : List Value

/-- Invokes a list of calls that share a request to abort. With `failFast` the first failure other
than an abort aborts the rest. -/
def batch (limit : Nat) (failFast : Bool) : (aborted : Bool) → List Invocation → ModeTable →
    Option (List (Except Fault Value) × ModeTable)
  | _, [], t => some ([], t)
  | aborted, c :: cs, t => do
    let (r, t) ← e.invoke limit c.function c.args aborted t
    let failed := match r with
      | .ok _ => false
      | .error f => f.kind != .aborted
    let (rs, t) ← batch limit failFast (aborted || (failFast && failed)) cs t
    return (r :: rs, t)

end NumericEngine.Engine
