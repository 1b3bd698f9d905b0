import NumericEngine.Ir.Instr
import NumericEngine.Ty.Table
import NumericEngine.Value.Pool

/-!
# Modules

A function is a list of blocks, of which the first is the entry, with the types
of its registers and stack slots. The functions of a module share one table of
types and one pool of constants.
-/

namespace NumericEngine.Ir

structure Block where
  id : BlockId
  label : String
  instrs : List Instr
  terminator : Terminator
  deriving DecidableEq, Repr, Inhabited

structure Function where
  id : FuncId
  name : String
  params : List Reg
  retType : TypeId
  blocks : List Block
  regTypes : Array TypeId
  slotTypes : Array TypeId
  deriving DecidableEq, Repr, Inhabited

namespace Function

def regType? (f : Function) (r : Reg) : Option TypeId := f.regTypes[r.index.toNat]?

def block? (f : Function) (b : BlockId) : Option Block := f.blocks[b.index.toNat]?

def paramTypes (f : Function) : List TypeId := f.params.filterMap f.regType?

/-- The ids of the blocks that lead to the block at an index, each once. -/
def predecessorsOf (f : Function) (index : Nat) : List BlockId :=
  f.blocks.foldl
    (fun acc b =>
      if b.terminator.successors.any (·.index.toNat == index) && !acc.contains b.id then
        acc ++ [b.id]
      else acc)
    []

def predecessors (f : Function) : List (List BlockId) :=
  (List.range f.blocks.length).map f.predecessorsOf

def instrCount (f : Function) : Nat := f.blocks.foldr (·.instrs.length + ·) 0

end Function

structure Module where
  types : TypeTable := {}
  constants : ConstantPool := {}
  functions : List Function := []
  deriving DecidableEq, Inhabited

namespace Module

def function? (m : Module) (f : FuncId) : Option Function := m.functions[f.index.toNat]?

def functionNamed? (m : Module) (name : String) : Option Function :=
  m.functions.find? (·.name == name)

def ty? (m : Module) (t : TypeId) : Option Ty := m.types.get? t

def regTy? (m : Module) (f : Function) (r : Reg) : Option Ty := (f.regType? r).bind m.ty?

/-- The parameter types of a function, when all of them are known. -/
def paramTys? (m : Module) (f : Function) : Option (List Ty) := f.paramTypes.mapM m.ty?

def instrCount (m : Module) : Nat := m.functions.foldr (·.instrCount + ·) 0

end Module

end NumericEngine.Ir
