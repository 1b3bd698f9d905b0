import NumericEngine.Fault

/-!
# Operands

Values as the operands that an operation expects.
-/

namespace NumericEngine.Value

def expect {α : Type} (x : Option α) (d : Defect) : Except Fault α :=
  match x with
  | some a => .ok a
  | none => .error (.internal d)

def asBits (v : Value) : Except Fault UInt64 := expect v.bits? (.expectedScalar v.ty)

def asBool (v : Value) : Except Fault Bool := expect v.bool? (.expectedBool v.ty)

def asParts (v : Value) : Except Fault Complex.Parts :=
  match v with
  | complex _ re im => .ok (re, im)
  | v => .error (.internal (.expectedComplex v.ty))

def asElem (v : Value) : Except Fault Elem := expect v.toElem? (.expectedNumber v.ty)

def asView (v : Value) : Except Fault View := expect v.view? (.expectedTensor v.ty)

def asSlot (v : Value) : Except Fault UInt32 :=
  match v with
  | ref _ slot => .ok slot
  | _ => .error (.internal .notAReference)

/-- Refuses a shape that breaks an extent of a type. -/
def conform (t : Ty) (shape : Shape) : Except Fault Unit :=
  match t.declaredShape? with
  | none => .error (.internal (.notATensorType t))
  | some declared =>
    match Shape.conform declared shape with
    | .ok () => .ok ()
    | .error (.shapeMismatch expected found) => .error (.shapeMismatch expected found (some t))
    | .error e => .error (.ofTensor e)

def arith {α : Type} (x : Except ArithError α) : Except Fault α := x.mapError .ofArith

def kernel {α : Type} (x : Except TensorError α) : Except Fault α := x.mapError .ofTensor

end NumericEngine.Value
