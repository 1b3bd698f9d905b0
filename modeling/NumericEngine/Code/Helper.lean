import NumericEngine.Ty.Basic
import NumericEngine.Word.Murmur3

/-!
# Helpers

Machine code calls a helper for complex arithmetic and for all work on tensors.
A call names its helper by the hash of the helper's symbol, and a site that
says what the call works on.
-/

namespace NumericEngine.Code

inductive Helper where
  | complexBinary
  | complexCompare
  | tensorBinary
  | tensorScale
  | tensorDot
  | tensorMatmul
  | tensorSum
  | tensorExtract
  | tensorCast
  deriving DecidableEq, Repr, Inhabited

namespace Helper

def all : List Helper :=
  [complexBinary, complexCompare, tensorBinary, tensorScale, tensorDot, tensorMatmul, tensorSum,
    tensorExtract, tensorCast]

def symbol : Helper → String
  | complexBinary => "tvm_complex_binary"
  | complexCompare => "tvm_complex_compare"
  | tensorBinary => "tvm_tensor_binary"
  | tensorScale => "tvm_tensor_scale"
  | tensorDot => "tvm_tensor_dot"
  | tensorMatmul => "tvm_tensor_matmul"
  | tensorSum => "tvm_tensor_sum"
  | tensorExtract => "tvm_tensor_extract"
  | tensorCast => "tvm_tensor_cast"

def hashSymbol (symbol : String) : UInt32 := Murmur3.hash symbol.toUTF8.toList 0

def hash (h : Helper) : UInt32 := hashSymbol h.symbol

def ofHash? (hash : UInt32) : Option Helper := all.find? (·.hash == hash)

end Helper

/-- The operator of a helper call, where the helper does not imply it. -/
inductive SiteOp where
  | arith (op : ArithOp)
  | compare (op : CmpOp)
  | none
  deriving DecidableEq, Repr, Inhabited

def SiteOp.text : SiteOp → String
  | arith op => "Arith(" ++ op.name ++ ")"
  | compare op => "Compare(" ++ op.name ++ ")"
  | none => "None"

/-- What one helper call works on. -/
structure Site where
  helper : Helper
  op : SiteOp
  result : Ty
  /-- The types of the operands; for an element read, the tensor and one `i64` per index. -/
  operands : List Ty
  checked : Bool
  deriving DecidableEq, Repr, Inhabited

end NumericEngine.Code
