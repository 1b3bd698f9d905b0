import NumericEngine.Engine.Invoke

/-!
# Single executors

One executor runs all functions of a unit by itself, except those that the host
keeps: their calls go to the host, which runs them interpreted and may then ask
for an abort.
-/

namespace NumericEngine

open Run (outcome need unfinished)

structure Solo where
  unit : CompiledUnit
  natives : List Code.Native
  /-- The functions that the host keeps. -/
  kept : List FuncId := []
  /-- Whether the host asks for an abort after a call. -/
  abortAfter : Bool := false
  maxDepth : Nat
  deriving Inhabited

namespace Solo

variable (s : Solo)

abbrev Alone := Run (Session Unit)

/-- A unit all of whose functions have machine code. -/
def compile (o : EngineOptions) (p : Source.Program) :
    Except Error (CompiledUnit × List Code.Native) := do
  let unit ← o.compile.compile p
  let natives ← (unit.natives o.target).mapError .lowering
  return (unit, natives)

/-- The bridge of an executor, given what becomes of a call of a function that the host keeps. -/
def bridge (call : FuncId → List Value → Alone Value) : Bridge Unit where
  runsInterpreted f := return !s.kept.contains f
  native? f := return if s.kept.contains f then none else s.natives[f.index.toNat]?
  call

def runInterpreted (bridge : Bridge Unit) (limit : Nat) (f : FuncId) (args : List Value) :
    Alone Value := do
  let g ← need (s.unit.function? f) (.unknownFunction f)
  Exec.Interpreter.run s.unit.module bridge limit g args

/-- A call of a function that the host keeps, with room for so many nested ones. -/
def hostCall (limit : Nat) : (levels : Nat) → FuncId → List Value → Alone Value
  | 0, _, _ => unfinished
  | levels + 1, f, args => do
    Session.onChain Chain.enter
    fun session =>
      match s.runInterpreted (s.bridge (hostCall limit levels)) limit f args session with
      | none => none
      | some (r, session) =>
        let chain := session.chain.leave
        some (r, { session with chain := if s.abortAfter then chain.abort else chain })

/-- Enough levels for the calls that a chain allows. -/
def levels : Nat := s.maxDepth + 1

def session : Session Unit := { chain := { maxDepth := s.maxDepth }, host := () }

/-- Runs a function on the interpreter, without entering it on the chain; also the chain after. -/
def interpret (limit : Nat) (f : FuncId) (args : List Value) :
    Option (Except Fault Value × Chain) := do
  let (r, session) ← s.runInterpreted (s.bridge (s.hostCall limit s.levels)) limit f args s.session
  return (r, session.chain)

/-- Runs a function on the machine, without entering it on the chain; also the machine after. -/
def execute (limit : Nat) (memory : MachineMemory) (code : Code.Native) (args : List Value) :
    Option (Except Fault Value × Machine Unit) :=
  Machine.invoke s.unit.module (s.bridge (s.hostCall limit s.levels)) limit args
    { code, memory, session := s.session }

end Solo

end NumericEngine
