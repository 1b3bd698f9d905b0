import NumericEngine.Source.Ast
import NumericEngine.Value.Basic

/-!
# Typed programs

Every expression carries its type. Implicit promotions are explicit
conversions, literals are constants, and every binding has its own id, so that
scopes and shadowing are gone.
-/

namespace NumericEngine

open Source (Span)

structure LocalId where
  index : UInt32
  deriving DecidableEq, Repr, Inhabited

structure Local where
  name : String
  ty : Ty
  mutable : Bool
  /-- Whether a reference to the binding is taken anywhere. -/
  addressTaken : Bool := false
  deriving DecidableEq, Repr, Inhabited

mutual
inductive TExpr where
  | mk (ty : Ty) (node : TNode) (span : Span)
inductive TNode where
  | const (v : Value)
  | var (x : LocalId)
  | funcRef (f : FuncId)
  /-- Arithmetic on numbers, or element by element on containers. -/
  | arith (op : ArithOp) (lhs rhs : TExpr) (checked : Bool)
  | scale (tensor factor : TExpr) (checked : Bool)
  | compare (op : CmpOp) (lhs rhs : TExpr)
  | logical (isAnd : Bool) (lhs rhs : TExpr)
  | neg (operand : TExpr) (checked : Bool)
  | not (operand : TExpr)
  | sqrt (operand : TExpr)
  | abs (operand : TExpr)
  | part (p : ComplexPart) (operand : TExpr)
  | conj (operand : TExpr)
  | convert (operand : TExpr)
  | tensorCast (operand : TExpr)
  | makeComplex (re im : TExpr)
  | call (f : FuncId) (args : List TExpr)
  | callIndirect (callee : TExpr) (args : List TExpr)
  | ite (cond thenExpr elseExpr : TExpr)
  | makeTensor (elements : List TExpr)
  | makeStruct (fields : List TExpr)
  | field (base : TExpr) (index : UInt32)
  | index (base : TExpr) (indices : List TExpr)
  | sum (operand : TExpr)
  | dot (lhs rhs : TExpr)
  | matmul (lhs rhs : TExpr)
  | dim (operand : TExpr) (axis : UInt32)
  | ref (x : LocalId)
  | deref (operand : TExpr)
end

instance : Inhabited TNode := ⟨.var default⟩
instance : Inhabited TExpr := ⟨.mk default default default⟩

namespace TExpr

def ty : TExpr → Ty
  | mk t _ _ => t

def node : TExpr → TNode
  | mk _ n _ => n

def span : TExpr → Span
  | mk _ _ s => s

def const (v : Value) (span : Span) : TExpr := mk v.ty (.const v) span

def const? : TExpr → Option Value
  | mk _ (.const v) _ => some v
  | _ => none

end TExpr

mutual
inductive TStmt where
  | mk (node : TStmtNode) (span : Span)
inductive TStmtNode where
  | letBinding (x : LocalId) (value : TExpr)
  | assign (x : LocalId) (value : TExpr)
  | assignField (x : LocalId) (index : UInt32) (value : TExpr)
  | store (target value : TExpr)
  | ite (cond : TExpr) (thenBody elseBody : List TStmt)
  | while (cond : TExpr) (body : List TStmt)
  | break
  | continue
  | return (value : TExpr)
  | expr (value : TExpr)
end

instance : Inhabited TStmtNode := ⟨.break⟩
instance : Inhabited TStmt := ⟨.mk default default⟩

namespace TStmt

mutual
/-- The bindings that statements assign to, in order of first assignment, after those of `acc`. -/
def assigned (acc : List LocalId) : TStmt → List LocalId
  | .mk (.assign x _) _ => if acc.contains x then acc else acc ++ [x]
  | .mk (.assignField x _ _) _ => if acc.contains x then acc else acc ++ [x]
  | .mk (.ite _ thenBody elseBody) _ => assignedAll (assignedAll acc thenBody) elseBody
  | .mk (.while _ body) _ => assignedAll acc body
  | .mk _ _ => acc
def assignedAll (acc : List LocalId) : List TStmt → List LocalId
  | [] => acc
  | s :: ss => assignedAll (assigned acc s) ss
end

end TStmt

structure TFunction where
  id : FuncId
  name : String
  params : List LocalId
  ret : Ty
  locals : Array Local
  body : List TStmt
  span : Span
  deriving Inhabited

end NumericEngine
