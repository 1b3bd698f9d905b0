import NumericEngine.Code.Native
import NumericEngine.Compile.Error
import NumericEngine.Compile.TypeClosure
import NumericEngine.Ir.Optimize
import NumericEngine.Ir.Verify
import NumericEngine.Lowering.Program
import NumericEngine.Typing.Program

/-!
# Compiled units

A program is checked, lowered, verified, optimised, and verified again when the
optimiser changed something. The result is what both executors run.
-/

namespace NumericEngine

structure CompileOptions where
  optLevel : Nat := 1
  verify : Bool := true
  deriving DecidableEq, Repr, Inhabited

structure CompileStats where
  functions : Nat
  blocks : Nat
  before : Nat
  after : Nat
  savings : Ir.Savings
  deriving DecidableEq, Repr, Inhabited

structure CompiledUnit where
  module : Ir.Module
  stats : CompileStats
  deriving Inhabited

abbrev Compile (α : Type) := Except Error α

namespace CompileOptions

variable (o : CompileOptions)

def level : Nat := min o.optLevel 2

def check (after : Step) (m : Ir.Module) : Compile Unit :=
  if o.verify then
    match m.verify.errors with
    | [] => .ok ()
    | d :: _ => .error (.lowering { function := d.function, cause := .verify after d.error })
  else .ok ()

def compileModule (m : Ir.Module) : Compile CompiledUnit := do
  o.check .lowering m
  let (optimized, savings) := m.optimize o.level
  if savings ≠ {} then o.check .optimization optimized
  let module := optimized.closeTypes
  return {
    module
    stats := {
      functions := module.functions.length
      blocks := module.functions.foldr (·.blocks.length + ·) 0
      before := m.instrCount
      after := module.instrCount
      savings } }

/-- The code of a program that passes the type check, not verified yet. -/
def lower (p : Source.Program) : Compile Ir.Module :=
  match Typing.checkProgram p with
  | .error e => .error (.type e)
  | .ok fs =>
    match Lowering.program fs with
    | .error (function, e) =>
      .error (.lowering { function, cause := .source e.fault, span := e.span })
    | .ok m => .ok m

def compile (p : Source.Program) : Compile CompiledUnit := do
  o.compileModule (← lower p)

end CompileOptions

namespace CompiledUnit

variable (u : CompiledUnit)

def function? (f : FuncId) : Option Ir.Function := u.module.function? f

def functionId? (name : String) : Option FuncId := (u.module.functionNamed? name).map (·.id)

def paramTys? (f : FuncId) : Option (List Ty) := (u.function? f).bind u.module.paramTys?

def retTy? (f : FuncId) : Option Ty := (u.function? f).bind fun g => u.module.ty? g.retType

def native (target : Code.Target) (f : FuncId) : Except LoweringError Code.Native :=
  match u.function? f with
  | none => .error { function := toString f, cause := .native .noFunction }
  | some g =>
    match Code.Native.ofFunction u.module target f g with
    | .ok n => .ok n
    | .error o => .error { function := g.name, cause := .native o }

def natives (target : Code.Target) : Except LoweringError (List Code.Native) :=
  u.module.functions.mapM fun f => u.native target f.id

end CompiledUnit

end NumericEngine
