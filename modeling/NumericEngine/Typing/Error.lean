import NumericEngine.Source.Ast
import NumericEngine.Ty.Validity
import NumericEngine.Value.Text

/-!
# Type errors

What is wrong with a program, and where.
-/

namespace NumericEngine

inductive TypeErrorKind where
  | mismatch
  | unknownSymbol
  | arityMismatch
  | shapeMismatch
  deriving DecidableEq, Repr, Inhabited

def TypeErrorKind.name : TypeErrorKind → String
  | mismatch => "Mismatch"
  | unknownSymbol => "UnknownSymbol"
  | arityMismatch => "ArityMismatch"
  | shapeMismatch => "ShapeMismatch"

inductive TypeFault where
  -- types
  | illFormed (defect : TyDefect)
  | noPromotion (a b : Ty)
  | expected (target found : Ty)
  -- literals
  | literalRange (v : Int) (kind : Kind)
  | literalCount (shape : Shape) (found : Nat)
  | emptyLiteral
  | elementType (ty : Ty)
  | complexPart (ty : Ty)
  | duplicateField (name : String)
  | referenceField
  -- names
  | unknownSymbol (name : String)
  | unknownFunction (name : String)
  | notCallable (name : String) (ty : Ty)
  | argumentCount (name : String) (expected found : Nat)
  | intrinsicCount (op : Source.Intrinsic) (found : Nat)
  -- operators
  | unaryOperand (op : Source.UnaryOp) (ty : Ty)
  | operands (op : Source.BinaryOp) (lhs rhs : Ty)
  | shiftOperands (lhs rhs : Ty)
  | bitwiseOperand (ty : Ty)
  | arithOperand (op : ArithOp) (ty : Ty)
  | tensorOperator (op : ArithOp)
  | elementsDiffer (lhs rhs : Ty)
  | complexRemainder
  | mixedContainers (lhs rhs : Ty)
  | orderingOperand (ty : Ty)
  | cast (source target : Ty)
  -- shapes
  | vectorLengths (m n : UInt64)
  | ranks (m n : Nat)
  | extents (m n : UInt64)
  | axisRange (axis : UInt32) (rank : Nat)
  -- access
  | fieldAccess (ty : Ty)
  | noField (name : String) (ty : Ty)
  | indexing (ty : Ty)
  | indexCount (found rank : Nat)
  | indexType (ty : Ty)
  -- intrinsics
  | intrinsicOperand (op : Source.Intrinsic) (ty : Ty)
  | notComplex (op : Source.Intrinsic) (ty : Ty)
  | sumOf (ty : Ty)
  | dimOf (ty : Ty)
  | dotOf (lhs rhs : Ty)
  | dotRank
  | matmulOf (lhs rhs : Ty)
  | matmulRank
  -- references
  | mutableReference (name : String)
  | nestedReference
  | dereference (ty : Ty)
  | storeThrough (ty : Ty)
  -- statements
  | immutable (name : String)
  | notAStruct (name : String)
  | noFieldOf (field name : String)
  | outsideLoop
  | bareReturn (ty : Ty)
  -- signatures
  | referenceParameter
  | referenceResult
  | duplicateFunction (name : String)
  deriving Repr, Inhabited, DecidableEq

namespace TypeFault

def kind : TypeFault → TypeErrorKind
  | illFormed (.tooLarge _) => .shapeMismatch
  | unknownSymbol _ | unknownFunction _ | noField .. | noFieldOf .. => .unknownSymbol
  | argumentCount .. | intrinsicCount .. => .arityMismatch
  | literalCount .. | vectorLengths .. | ranks .. | extents .. | axisRange .. | indexCount ..
  | dotRank | matmulRank => .shapeMismatch
  | _ => .mismatch

def message : TypeFault → String
  | illFormed d => d.message
  | noPromotion a b => "no implicit promotion between " ++ a.text ++ " and " ++ b.text
  | expected target found => "expected " ++ target.text ++ ", found " ++ found.text
  | literalRange v k => "literal " ++ toString v ++ " out of range for " ++ k.name
  | literalCount shape found =>
    "shape " ++ shape.text ++ " needs " ++ toString shape.count ++ " elements, found " ++
      toString found
  | emptyLiteral => "cannot infer the element type of an empty literal"
  | elementType t => "element type " ++ t.text ++ " must be numeric or complex"
  | complexPart t => "complex part of type " ++ t.text
  | duplicateField name => "duplicate field `" ++ name ++ "`"
  | referenceField => "struct fields cannot hold references"
  | unknownSymbol name => "unknown symbol `" ++ name ++ "`"
  | unknownFunction name => "unknown function `" ++ name ++ "`"
  | notCallable name t => "`" ++ name ++ "` of type " ++ t.text ++ " is not callable"
  | argumentCount name arity found =>
    "`" ++ name ++ "` takes " ++ toString arity ++ " arguments, " ++ toString found ++ " given"
  | intrinsicCount op found =>
    op.name ++ " takes " ++ toString op.arity ++ " arguments, " ++ toString found ++ " given"
  | unaryOperand op t => "operator " ++ op.name ++ " not defined for " ++ t.text
  | operands op l r =>
    "operator " ++ op.symbol ++ " not defined for " ++ l.text ++ " and " ++ r.text
  | shiftOperands l r => "shift of " ++ l.text ++ " by " ++ r.text
  | bitwiseOperand t => "bitwise operator on " ++ t.text
  | arithOperand op t => "operator " ++ op.symbol ++ " not defined for " ++ t.text
  | tensorOperator op => "operator " ++ op.symbol ++ " on tensors"
  | elementsDiffer l r => "element types differ: " ++ l.text ++ " and " ++ r.text
  | complexRemainder => "remainder on complex elements"
  | mixedContainers l r => "cannot mix " ++ l.text ++ " and " ++ r.text ++ "; cast one operand"
  | orderingOperand t => "ordering comparison on " ++ t.text
  | cast source target => "cannot cast " ++ source.text ++ " to " ++ target.text
  | vectorLengths m n =>
    "vector length " ++ toString m.toNat ++ " does not match " ++ toString n.toNat
  | ranks m n => "rank " ++ toString m ++ " does not match rank " ++ toString n
  | extents m n => "dimension " ++ toString m.toNat ++ " does not match " ++ toString n.toNat
  | axisRange axis rank =>
    "axis " ++ toString axis.toNat ++ " out of range for rank " ++ toString rank
  | fieldAccess t => "field access on " ++ t.text
  | noField name t => "no field `" ++ name ++ "` in " ++ t.text
  | indexing t => "indexing into " ++ t.text
  | indexCount found rank =>
    toString found ++ " indices for rank-" ++ toString rank ++ " operand"
  | indexType t => "index of type " ++ t.text
  | intrinsicOperand op t => op.name ++ " not defined for " ++ t.text
  | notComplex op t => op.name ++ " of non-complex " ++ t.text
  | sumOf t => "sum of non-tensor " ++ t.text
  | dimOf t => "dim of non-tensor " ++ t.text
  | dotOf l r => "dot of " ++ l.text ++ " and " ++ r.text
  | dotRank => "dot needs rank-1 operands"
  | matmulOf l r => "matmul of " ++ l.text ++ " and " ++ r.text
  | matmulRank => "matmul needs rank-2 operands"
  | mutableReference name => "cannot take a mutable reference to immutable `" ++ name ++ "`"
  | nestedReference => "references to references are not supported"
  | dereference t => "dereference of " ++ t.text
  | storeThrough t => "store through " ++ t.text
  | immutable name => "cannot assign to immutable `" ++ name ++ "`"
  | notAStruct name => "`" ++ name ++ "` is not a struct"
  | noFieldOf field name => "no field `" ++ field ++ "` in `" ++ name ++ "`"
  | outsideLoop => "`break`/`continue` outside of a loop"
  | bareReturn t => "bare return in function returning " ++ t.text
  | referenceParameter => "parameters cannot be references"
  | referenceResult => "functions cannot return references"
  | duplicateFunction name => "duplicate function `" ++ name ++ "`"

end TypeFault

structure TypeError where
  fault : TypeFault
  span : Option Source.Span := none
  deriving Repr, Inhabited, DecidableEq

namespace TypeError

/-- Adds a place, unless the error has one. -/
def locate (e : TypeError) (span : Source.Span) : TypeError :=
  match e.span with
  | some _ => e
  | none => { e with span := some span }

def text (e : TypeError) : String :=
  let place := match e.span with
    | some s => " at " ++ toString s
    | none => ""
  e.fault.kind.name ++ ": " ++ e.fault.message ++ place

end TypeError

end NumericEngine
