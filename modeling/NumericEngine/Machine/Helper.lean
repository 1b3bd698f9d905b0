import NumericEngine.Code.Helper
import NumericEngine.Exec.Operand
import NumericEngine.Value.Record

/-!
# What helpers do

A helper reads its operands from memory, computes with the arithmetic that the
interpreter uses, and stores its result.
-/

namespace NumericEngine.Code

open Transition (outcome defect)
open Value (arith kernel conform)

/-- Where a helper finds its operands and puts its result. -/
structure HelperArgs where
  dst : UInt64
  lhs : UInt64
  rhs : UInt64
  deriving DecidableEq, Repr, Inhabited

namespace Site

variable {μ : Type} [Memory μ] (s : Site) (args : HelperArgs)

def operandTy (i : Nat) : Except Fault Ty := Value.expect s.operands[i]? (.siteOperand i)

def arithOp : Except Fault ArithOp :=
  match s.op with
  | .arith op => .ok op
  | _ => .error (.internal .siteArith)

/-- The operand with a number, at an address. -/
def operand (i : Nat) (addr : UInt64) : Transition μ Value := do
  let t ← outcome (s.operandTy i)
  fun m => (Value.load m t addr, m)

def complexKind (t : Ty) : Except Fault Kind := Value.expect t.complexKind? (.notComplex t)

def complexBinary : Transition μ Unit := do
  let a ← s.operand 0 args.lhs
  let b ← s.operand 1 args.rhs
  let k ← outcome (complexKind s.result)
  let op ← outcome s.arithOp
  let x ← outcome a.asParts
  let y ← outcome b.asParts
  let (re, im) ← outcome (arith (Complex.binary op k x y))
  (Value.complex s.result re im).store args.dst

def complexCompare : Transition μ Unit := do
  let t ← outcome (s.operandTy 0)
  let a ← s.operand 0 args.lhs
  let b ← s.operand 1 args.rhs
  let k ← outcome (complexKind t)
  match s.op with
  | .compare op =>
    let x ← outcome a.asParts
    let y ← outcome b.asParts
    let r ← outcome (arith (Complex.compare op k x y))
    (Value.ofBool r).store args.dst
  | _ => defect .siteCompare

def tensorBinary : Transition μ Unit := do
  let a ← s.operand 0 args.lhs
  let b ← s.operand 1 args.rhs
  let va ← outcome a.asView
  let vb ← outcome b.asView
  let op ← outcome s.arithOp
  let data ← outcome (kernel (va.elementwise op vb s.checked))
  (Value.tensor s.result va.shape data).store args.dst

def tensorScale : Transition μ Unit := do
  let t ← s.operand 0 args.lhs
  let f ← s.operand 1 args.rhs
  let x ← outcome f.asElem
  let v ← outcome t.asView
  let data ← outcome (kernel (v.scale x s.checked))
  (Value.tensor s.result v.shape data).store args.dst

def tensorDot : Transition μ Unit := do
  let a ← s.operand 0 args.lhs
  let b ← s.operand 1 args.rhs
  let va ← outcome a.asView
  let vb ← outcome b.asView
  let x ← outcome (kernel (va.dot vb false))
  (Value.ofElem va.elem x).store args.dst

def tensorMatmul : Transition μ Unit := do
  let a ← s.operand 0 args.lhs
  let b ← s.operand 1 args.rhs
  let va ← outcome a.asView
  let vb ← outcome b.asView
  let (shape, data) ← outcome (kernel (va.matmul vb false))
  outcome (conform s.result shape)
  (Value.tensor s.result shape data).store args.dst

def tensorSum : Transition μ Unit := do
  let t ← s.operand 0 args.lhs
  let v ← outcome t.asView
  let x ← outcome (kernel (v.sum false))
  (Value.ofElem v.elem x).store args.dst

def tensorExtract : Transition μ Unit := do
  let t ← s.operand 0 args.lhs
  let count := s.operands.length - 1
  let bs ← Value.loadM args.rhs (8 * count)
  let indices := (Value.words count bs).map fun w => w.toInt64.toInt
  let v ← outcome t.asView
  let i ← outcome (kernel (v.shape.flatIndex indices))
  let x ← outcome (kernel (v.get i))
  (Value.ofElem v.elem x).store args.dst

def tensorCast : Transition μ Unit := do
  match ← s.operand 0 args.lhs with
  | .tensor _ shape data =>
    outcome (conform s.result shape)
    (Value.tensor s.result shape data).store args.dst
  | _ => defect .castOfNonTensor

/-- Runs a helper on what a site describes. -/
def run (h : Helper) : Transition μ Unit :=
  match h with
  | .complexBinary => s.complexBinary args
  | .complexCompare => s.complexCompare args
  | .tensorBinary => s.tensorBinary args
  | .tensorScale => s.tensorScale args
  | .tensorDot => s.tensorDot args
  | .tensorMatmul => s.tensorMatmul args
  | .tensorSum => s.tensorSum args
  | .tensorExtract => s.tensorExtract args
  | .tensorCast => s.tensorCast args

end Site

end NumericEngine.Code
