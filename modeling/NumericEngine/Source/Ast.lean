import NumericEngine.Ty.Basic

/-!
# Source programs

The tree that a front end hands over. Signatures and annotated bindings carry
types; numeric literals have none until they are checked. Every node remembers
where it stood.
-/

namespace NumericEngine.Source

structure Span where
  line : Nat := 0
  col : Nat := 0
  deriving DecidableEq, Repr, Inhabited

instance : ToString Span := ⟨fun s => toString s.line ++ ":" ++ toString s.col⟩

inductive BinaryOp where
  | arith (op : ArithOp)
  | compare (op : CmpOp)
  | and
  | or
  deriving DecidableEq, Repr, Inhabited

def BinaryOp.all : List BinaryOp :=
  ArithOp.all.map arith ++ CmpOp.all.map compare ++ [and, or]

def BinaryOp.symbol : BinaryOp → String
  | arith op => op.symbol
  | compare op => op.symbol
  | and => "&&"
  | or => "||"

inductive UnaryOp where
  | neg
  | not
  deriving DecidableEq, Repr, Inhabited

def UnaryOp.name : UnaryOp → String
  | neg => "Neg"
  | not => "Not"

inductive Intrinsic where
  | sqrt
  | abs
  | re
  | im
  | conj
  | sum
  | dot
  | matmul
  /-- The extent of an axis. -/
  | dim (axis : UInt32)
  deriving DecidableEq, Repr, Inhabited

namespace Intrinsic

def name : Intrinsic → String
  | sqrt => "Sqrt"
  | abs => "Abs"
  | re => "Re"
  | im => "Im"
  | conj => "Conj"
  | sum => "Sum"
  | dot => "Dot"
  | matmul => "MatMul"
  | dim axis => "Dim(" ++ toString axis.toNat ++ ")"

def arity : Intrinsic → Nat
  | dot | matmul => 2
  | _ => 1

end Intrinsic

mutual
inductive Expr where
  | mk (node : ExprNode) (span : Span)
inductive ExprNode where
  | int (v : UInt64)
  /-- A literal, by the bits of its double. -/
  | float (bits : UInt64)
  | bool (b : Bool)
  | var (name : String)
  | binary (op : BinaryOp) (lhs rhs : Expr) (checked : Bool)
  | unary (op : UnaryOp) (operand : Expr) (checked : Bool)
  | call (callee : String) (args : List Expr)
  | ite (cond thenExpr elseExpr : Expr)
  | cast (operand : Expr) (ty : Ty)
  | complex (re im : Expr)
  | vector (elements : List Expr)
  | tensor (shape : Shape) (elements : List Expr)
  | struct (fields : List (String × Expr))
  | field (base : Expr) (name : String)
  | index (base : Expr) (indices : List Expr)
  | intrinsic (op : Intrinsic) (args : List Expr)
  | ref (name : String) (mutable : Bool)
  | deref (operand : Expr)
end

instance : Inhabited ExprNode := ⟨.bool false⟩
instance : Inhabited Expr := ⟨.mk default default⟩

namespace Expr

def node : Expr → ExprNode
  | mk n _ => n

def span : Expr → Span
  | mk _ s => s

end Expr

mutual
inductive Stmt where
  | mk (node : StmtNode) (span : Span)
inductive StmtNode where
  | letBinding (name : String) (ty : Option Ty) (mutable : Bool) (value : Expr)
  | assign (name : String) (value : Expr)
  | assignField (name field : String) (value : Expr)
  | store (target value : Expr)
  | ite (cond : Expr) (thenBody elseBody : List Stmt)
  | while (cond : Expr) (body : List Stmt)
  | break
  | continue
  | return (value : Option Expr)
  | expr (value : Expr)
end

instance : Inhabited StmtNode := ⟨.break⟩
instance : Inhabited Stmt := ⟨.mk default default⟩

namespace Stmt

def node : Stmt → StmtNode
  | mk n _ => n

def span : Stmt → Span
  | mk _ s => s

end Stmt

structure Param where
  name : String
  ty : Ty
  span : Span := {}
  deriving Inhabited

structure Function where
  name : String
  params : List Param
  ret : Ty
  body : List Stmt
  span : Span := {}
  deriving Inhabited

/-- A program; the id of a function is its position. -/
structure Program where
  functions : List Function := []
  deriving Inhabited

end NumericEngine.Source
