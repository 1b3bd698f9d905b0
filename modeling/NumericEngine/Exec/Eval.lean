import NumericEngine.Exec.Frame
import NumericEngine.Exec.Operand
import NumericEngine.Ir.Module

/-!
# Evaluation of right-hand sides

The value that an instruction gives to its register, from the registers and
slots of its frame. Calls and phis are not evaluated here: they depend on the
run around them.
-/

namespace NumericEngine.Exec

open Ir (Rhs)
open Value (arith kernel expect conform)

def regTy (m : Ir.Module) (f : Ir.Function) (r : Reg) : Except Fault Ty :=
  expect (m.regTy? f r) (.untypedRegister r)

/-- The buffer of a tensor literal, from its `i`-th element on. Verified code has as many elements as the
buffer, so none lies past its end. -/
def fill (frame : Frame) (elem : ElemKind) : (i : Nat) → Bytes → List Reg → Except Fault Bytes
  | _, data, [] => .ok data
  | i, data, r :: rs => do
    let x ← expect (← frame.get r).toElem? .elementNotNumber
    fill frame elem (i + 1) (data.overwrite (Word.mul i elem.size) (Elem.bytes elem x)) rs

def makeTensor (frame : Frame) (t : Ty) (elements : List Reg) : Except Fault Value :=
  match t.elemKind?, t.fixedShape? with
  | some elem, some shape => do
    let size := Word.mul (Shape.count shape) elem.size
    return .tensor t shape (← fill frame elem 0 (Bytes.zeros size) elements)
  | _, _ => .error (.internal (.unbuildable t))

def index (frame : Frame) (r : Reg) : Except Fault Int := do
  let w ← expect (← frame.get r).int? .indexNotInteger
  return w.toInt64.toInt

/-- The value of a right-hand side that neither calls nor is a phi. -/
def eval (m : Ir.Module) (f : Ir.Function) (frame : Frame) (dst : Reg) :
    Rhs → Except Fault Value
  | .const c => expect (m.constants.get? c) .constantRange
  | .binary op k lhs rhs checked => do
    let a ← (← frame.get lhs).asBits
    let b ← (← frame.get rhs).asBits
    return .ofScalar k (← arith (Scalar.binary op k a b checked))
  | .compare op k lhs rhs => do
    let a ← (← frame.get lhs).asBits
    let b ← (← frame.get rhs).asBits
    return .ofBool (Scalar.compare op k a b)
  | .unary op k src checked => do
    let a ← (← frame.get src).asBits
    return .ofScalar k (← arith (Scalar.unary op k a checked))
  | .convert source target src => do
    let a ← (← frame.get src).asBits
    return .ofScalar target (Scalar.convert source target a)
  | .complexBinary op k lhs rhs => do
    let a ← (← frame.get lhs).asParts
    let b ← (← frame.get rhs).asParts
    let (re, im) ← arith (Complex.binary op k a b)
    return .ofComplex k re im
  | .complexCompare op k lhs rhs => do
    let a ← (← frame.get lhs).asParts
    let b ← (← frame.get rhs).asParts
    return .ofBool (← arith (Complex.compare op k a b))
  | .complexUnary op k src => do
    let a ← (← frame.get src).asParts
    let (re, im) ← arith (match op with
      | .neg => Complex.neg k a
      | .conj => Complex.conj k a)
    return .ofComplex k re im
  | .complexPart part k src => do
    let (re, im) ← (← frame.get src).asParts
    return .ofScalar k (match part with
      | .re => re
      | .im => im)
  | .makeComplex k re im => do
    let a ← (← frame.get re).asBits
    let b ← (← frame.get im).asBits
    return .ofComplex k a b
  | .makeStruct fields => do
    let values ← fields.mapM frame.get
    return .struct (← regTy m f dst) values
  | .extractField src i => do
    let v ← frame.get src
    expect (v.fields?.bind (·[i.toNat]?)) (.noField i)
  | .insertField src i value => do
    match ← frame.get src with
    | .struct t fields =>
      if i.toNat < fields.length then
        let v ← frame.get value
        return .struct t (fields.set i.toNat v)
      else .error (.internal (.noField i))
    | _ => .error (.internal .insertIntoNonStruct)
  | .stackSlot slot => return .ref (← regTy m f dst) slot
  | .load addr => do
    let slot ← (← frame.get addr).asSlot
    frame.load slot
  | .funcRef g => return .function (← regTy m f dst) g
  | .makeTensor elements => do
    makeTensor frame (← regTy m f dst) elements
  | .tensorBinary op lhs rhs checked => do
    let a ← frame.get lhs
    let b ← frame.get rhs
    let va ← a.asView
    let data ← kernel (va.elementwise op (← b.asView) checked)
    return .tensor (← regTy m f dst) va.shape data
  | .tensorScale tensor factor checked => do
    let t ← frame.get tensor
    let x ← (← frame.get factor).asElem
    let v ← t.asView
    let data ← kernel (v.scale x checked)
    return .tensor (← regTy m f dst) v.shape data
  | .dot lhs rhs => do
    let a ← (← frame.get lhs).asView
    let b ← (← frame.get rhs).asView
    return .ofElem a.elem (← kernel (a.dot b false))
  | .matmul lhs rhs => do
    let a ← (← frame.get lhs).asView
    let b ← (← frame.get rhs).asView
    let (shape, data) ← kernel (a.matmul b false)
    let t ← regTy m f dst
    conform t shape
    return .tensor t shape data
  | .sum src => do
    let v ← (← frame.get src).asView
    return .ofElem v.elem (← kernel (v.sum false))
  | .extractElement src indices => do
    let v ← (← frame.get src).asView
    let is ← indices.mapM (index frame)
    let i ← kernel (v.shape.flatIndex is)
    return .ofElem v.elem (← kernel (v.get i))
  | .dim src axis => do
    let v ← (← frame.get src).asView
    return .ofI64 (← expect v.shape[axis.toNat]? (.axisRange axis))
  | .tensorCast src => do
    let t ← regTy m f dst
    match ← frame.get src with
    | .tensor _ shape data =>
      conform t shape
      return .tensor t shape data
    | _ => .error (.internal .castOfNonTensor)
  | .call .. | .callIndirect .. | .phi _ => .error (.internal .callOutsideRun)

/-- The frame after an instruction that neither calls nor is a phi. -/
def execInstr (m : Ir.Module) (f : Ir.Function) (frame : Frame) : Ir.Instr → Except Fault Frame
  | .define dst rhs => do
    let v ← eval m f frame dst rhs
    frame.set dst v
  | .store addr value => do
    let slot ← (← frame.get addr).asSlot
    let v ← frame.get value
    frame.store slot v

end NumericEngine.Exec
