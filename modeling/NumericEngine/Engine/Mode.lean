import NumericEngine.Compile.Unit
import NumericEngine.Exec.Chain

/-!
# Execution modes

How a function runs is decided once, when it is first needed or when it is
pinned, and never changes again. A function that runs natively has its code in
the table, and no other function has.
-/

namespace NumericEngine

open Code (Native)

inductive Mode where
  | unresolved
  | interpreted
  | native
  deriving DecidableEq, Repr, Inhabited

namespace Mode

def all : List Mode := [unresolved, interpreted, native]

def name : Mode → String
  | unresolved => "Unresolved"
  | interpreted => "Interpreted"
  | native => "Native"

end Mode

inductive Policy where
  | interpretOnly
  /-- Natively where the target can, interpreted elsewhere. -/
  | preferNative
  deriving DecidableEq, Repr, Inhabited

structure EngineOptions where
  compile : CompileOptions := {}
  policy : Policy := .preferNative
  target : Code.Target := {}
  maxDepth : Nat := Chain.defaultMaxDepth
  deriving DecidableEq, Repr, Inhabited

structure ModeTable where
  modes : Array Mode
  /-- The code of the functions that run natively. -/
  codes : List (FuncId × Native) := []
  deriving Inhabited

/-- A decision on how a function runs. -/
inductive Resolution where
  | interpreted
  | native (code : Native)
  deriving Inhabited

def Resolution.mode : Resolution → Mode
  | interpreted => .interpreted
  | native _ => .native

namespace ModeTable

def new (functions : Nat) : ModeTable := { modes := Array.replicate functions .unresolved }

def mode? (t : ModeTable) (f : FuncId) : Option Mode := t.modes[f.index.toNat]?

def code? (t : ModeTable) (f : FuncId) : Option Native := t.codes.lookup f

/-- The mode of a function, once it is decided. -/
def resolved (t : ModeTable) (f : FuncId) : Except Fault (Option Mode) :=
  match t.mode? f with
  | none => .error (.unknownFunction f)
  | some .unresolved => .ok none
  | some mode => .ok (some mode)

/-- Enters a decision, unless there is one already; the mode that holds then. -/
def install (t : ModeTable) (f : FuncId) (r : Resolution) : Mode × ModeTable :=
  match t.mode? f with
  | some .unresolved =>
    let modes := t.modes.setIfInBounds f.index.toNat r.mode
    match r with
    | .interpreted => (r.mode, { t with modes })
    | .native code => (r.mode, { modes, codes := (f, code) :: t.codes })
  | some mode => (mode, t)
  | none => (r.mode, t)

end ModeTable

structure Engine where
  unit : CompiledUnit
  options : EngineOptions
  deriving Inhabited

namespace Engine

variable (e : Engine)

def newTable : ModeTable := .new e.unit.module.functions.length

/-- Decides how a function runs. Only a shortcoming of the target makes it run interpreted. -/
def decide (f : FuncId) : Except Fault Resolution :=
  match e.options.policy with
  | .interpretOnly => .ok .interpreted
  | .preferNative =>
    match e.unit.native e.options.target f with
    | .ok code => .ok (.native code)
    | .error err =>
      match err.kind with
      | .unresolvedNativeFeature | .encodingLimit => .ok .interpreted
      | _ => .error (.internal (.nativeLowering err.text))

/-- The mode of a function, decided on first use. -/
def resolve (f : FuncId) (t : ModeTable) : Except Fault (Mode × ModeTable) := do
  match ← t.resolved f with
  | some mode => return (mode, t)
  | none => return t.install f (← e.decide f)

/-- The decision that pinning a function asks for. -/
def pinned (f : FuncId) : Mode → Except Error Resolution
  | .unresolved => .error .pinUnresolved
  | .interpreted => .ok .interpreted
  | .native => (Resolution.native <$> e.unit.native e.options.target f).mapError .lowering

/-- Fixes the mode of a function that has none yet; the mode that holds then. -/
def pin (f : FuncId) (mode : Mode) (t : ModeTable) : Except Error (Mode × ModeTable) :=
  match t.resolved f with
  | .error fault => .error (.runtime fault)
  | .ok (some current) => .ok (current, t)
  | .ok none => do
    let r ← e.pinned f mode
    return t.install f r

end Engine

end NumericEngine
