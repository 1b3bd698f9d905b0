import NumericEngine.Ir.Module
import NumericEngine.Value.Text

/-!
# Verification errors
-/

namespace NumericEngine.Ir

/-- Why an instruction does not fit the types of its registers. -/
inductive OperandFault where
  | wrongType (reg : Reg) (found expected : Ty)
  | untyped (reg : Reg)
  | unknownType (id : TypeId)
  | notContainer (reg : Reg) (ty : Ty)
  | noConstant (id : ConstId)
  | arithKind (op : ArithOp) (kind : Kind)
  | unaryKind (op : UnaryOp) (kind : Kind)
  | notStruct (reg : Reg)
  | fieldCount (found declared : Nat)
  | fieldRange (index : UInt32)
  | fieldAccess (ty : Ty)
  | noSlot (slot : UInt32)
  | slotAddress (reg : Reg) (ty : Ty)
  | loadThrough (reg : Reg)
  | storeThrough (reg : Reg)
  | unknownFunction (func : FuncId)
  | functionValue (reg : Reg) (ty : Ty)
  | callThrough (reg : Reg)
  | argumentCount (found declared : Nat)
  | elementCount (found : Nat) (shape : Shape)
  | elementwiseOperand (reg dst : Reg)
  | scaledOperand (reg dst : Reg)
  | dotOperands
  | matmulOperands
  | indexCount (found rank : Nat)
  | axisRange (axis : UInt32) (rank : Nat)
  | cast (source target : Ty)
  deriving DecidableEq, Repr, Inhabited

def OperandFault.message : OperandFault → String
  | wrongType r found expected =>
    toString r ++ " is " ++ found.text ++ ", expected " ++ expected.text
  | untyped r => toString r ++ " has no type"
  | unknownType t => "unknown type " ++ toString t
  | notContainer r t => toString r ++ " is " ++ t.text ++ ", expected a vector or tensor"
  | noConstant c => "constant c" ++ toString c.index.toNat ++ " does not exist"
  | arithKind op k => "`" ++ op.symbol ++ "` is not defined on " ++ k.name
  | unaryKind op k => op.name ++ " is not defined on " ++ k.name
  | notStruct r => toString r ++ " is not a struct"
  | fieldCount found declared =>
    toString found ++ " field values for " ++ toString declared ++ " fields"
  | fieldRange i => "field " ++ toString i.toNat ++ " out of range"
  | fieldAccess t => "field access on " ++ t.text
  | noSlot s => "stack slot " ++ toString s.toNat ++ " does not exist"
  | slotAddress r t => "slot address " ++ toString r ++ " is " ++ t.text
  | loadThrough r => "load through non-reference " ++ toString r
  | storeThrough r => "store through non-reference " ++ toString r
  | unknownFunction f => "unknown function " ++ toString f
  | functionValue r t => "function value " ++ toString r ++ " is " ++ t.text
  | callThrough r => "call through non-function " ++ toString r
  | argumentCount found declared =>
    toString found ++ " arguments for " ++ toString declared ++ " parameters"
  | elementCount found shape => toString found ++ " elements for shape " ++ shape.text
  | elementwiseOperand r dst =>
    "elementwise operand " ++ toString r ++ " does not match " ++ toString dst
  | scaledOperand r dst => "scaled operand " ++ toString r ++ " does not match " ++ toString dst
  | dotOperands => "dot needs two rank-1 operands of one element type"
  | matmulOperands => "matmul needs rank-2 operands of one element type"
  | indexCount found rank => toString found ++ " indices for rank " ++ toString rank
  | axisRange axis rank =>
    "axis " ++ toString axis.toNat ++ " of a rank-" ++ toString rank ++ " value"
  | cast source target => "cannot cast " ++ source.text ++ " to " ++ target.text

inductive VerifyError where
  | emptyFunction
  | blockId (index : Nat) (found : BlockId)
  | targetRange (block target : BlockId)
  | misplacedPhi (block : BlockId)
  | phiPredecessors (block : BlockId) (reg : Reg)
  | multipleDefinitions (reg : Reg)
  | registerRange (block : BlockId) (reg : Reg)
  | undefinedRegister (block : BlockId) (reg : Reg)
  | useNotDominated (block : BlockId) (reg : Reg)
  | typeMismatch (block : BlockId) (fault : OperandFault)
  | unknownFunction (block : BlockId) (func : FuncId)
  | unknownConstant (block : BlockId)
  | oversizedType (ty : TypeId)
  deriving DecidableEq, Repr, Inhabited

def VerifyError.message : VerifyError → String
  | emptyFunction => "function has no blocks"
  | blockId i found => "block at index " ++ toString i ++ " carries id " ++ toString found
  | targetRange b target => toString b ++ " jumps to missing block " ++ toString target
  | misplacedPhi b => "phi after a non-phi instruction in " ++ toString b
  | phiPredecessors b r =>
    "phi " ++ toString r ++ " in " ++ toString b ++ " does not cover its predecessors exactly once"
  | multipleDefinitions r => toString r ++ " is defined more than once"
  | registerRange b r => toString r ++ " in " ++ toString b ++ " is outside the register table"
  | undefinedRegister b r => toString r ++ " used in " ++ toString b ++ " is never defined"
  | useNotDominated b r =>
    "use of " ++ toString r ++ " in " ++ toString b ++ " is not dominated by its definition"
  | typeMismatch b f => "type mismatch in " ++ toString b ++ ": " ++ f.message
  | unknownFunction b f => toString b ++ " calls unknown function " ++ toString f
  | unknownConstant b => "unknown constant in " ++ toString b
  | oversizedType t => "type " ++ toString t ++ " is too large to lay out"

end NumericEngine.Ir
