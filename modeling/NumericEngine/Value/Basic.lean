import NumericEngine.Ir.Id
import NumericEngine.Tensor.View
import NumericEngine.Ty.Basic

/-!
# Values

A value is a payload with its type. Tensors own their buffer; a reference
names a stack slot of the activation that made it.
-/

namespace NumericEngine

inductive Value where
  | scalar (ty : Ty) (bits : UInt64)
  | complex (ty : Ty) (re im : UInt64)
  | tensor (ty : Ty) (shape : Shape) (data : Bytes)
  | struct (ty : Ty) (fields : List Value)
  | function (ty : Ty) (id : FuncId)
  | ref (ty : Ty) (slot : UInt32)
  deriving Inhabited

namespace Value

mutual
def beq : Value → Value → Bool
  | scalar t w, scalar t' w' => t == t' && w == w'
  | complex t a b, complex t' a' b' => t == t' && (a == a' && b == b')
  | tensor t s d, tensor t' s' d' => t == t' && (s == s' && d == d')
  | struct t fs, struct t' fs' => t == t' && beqList fs fs'
  | function t i, function t' i' => t == t' && i == i'
  | ref t s, ref t' s' => t == t' && s == s'
  | _, _ => false
def beqList : List Value → List Value → Bool
  | [], [] => true
  | v :: vs, v' :: vs' => beq v v' && beqList vs vs'
  | _, _ => false
end

mutual
theorem beq_iff : (a b : Value) → (beq a b = true ↔ a = b)
  | scalar .., b => by cases b <;> simp [beq]
  | complex .., b => by cases b <;> simp [beq]
  | tensor .., b => by cases b <;> simp [beq]
  | struct _ fs, b => by cases b <;> simp [beq, beqList_iff fs]
  | function .., b => by cases b <;> simp [beq]
  | ref .., b => by cases b <;> simp [beq]
theorem beqList_iff : (a b : List Value) → (beqList a b = true ↔ a = b)
  | [], b => by cases b <;> simp [beqList]
  | v :: vs, b => by cases b <;> simp [beqList, beq_iff v, beqList_iff vs]
end

instance : DecidableEq Value := fun a b => decidable_of_iff (beq a b = true) (beq_iff a b)

def ty : Value → Ty
  | scalar t _ | complex t _ _ | tensor t _ _ | struct t _ | function t _ | ref t _ => t

/-- The value of a scalar kind, in canonical form. -/
def ofScalar (k : Kind) (w : UInt64) : Value := scalar (.ofKind k) (k.canonical w)

def ofBool (b : Bool) : Value := ofScalar .bool (if b then 1 else 0)

def ofI64 (w : UInt64) : Value := ofScalar .i64 w

def ofComplex (k : Kind) (re im : UInt64) : Value := complex (.complexOf k) re im

def unit : Value := struct .unit []

def bits? : Value → Option UInt64
  | scalar _ w => some w
  | _ => none

def int? (v : Value) : Option UInt64 := if v.ty.isInt then v.bits? else none

/-- The bits of a float, as a double. -/
def double? (v : Value) : Option UInt64 :=
  match v.ty.kind?, v with
  | some k, scalar _ w => if k.isFloat then some (Floating.toDouble k w) else none
  | _, _ => none

def bool? (v : Value) : Option Bool := if v.ty.isBool then v.bits?.map (· != 0) else none

/-- The parts of a complex number, as doubles. -/
def complex? (v : Value) : Option (UInt64 × UInt64) :=
  match v.ty.complexKind?, v with
  | some k, complex _ re im => some (Floating.toDouble k re, Floating.toDouble k im)
  | _, _ => none

def fields? : Value → Option (List Value)
  | struct _ fs => some fs
  | _ => none

def field? (v : Value) (name : String) : Option Value :=
  match v with
  | struct (.struct decl) fs => (decl.findIdx? (·.1 == name)).bind (fs[·]?)
  | _ => none

def functionId? : Value → Option FuncId
  | function _ id => some id
  | _ => none

def toElem? : Value → Option Elem
  | scalar _ w => some (.real w)
  | complex _ re im => some (.complex re im)
  | _ => none

/-- The value of an element; one of the other form keeps its real part. -/
def ofElem (e : ElemKind) (x : Elem) : Value :=
  match e, x with
  | .real k, .real w => ofScalar k w
  | .complex k, .complex re im => ofComplex k (k.canonical re) (k.canonical im)
  | .real k, .complex re _ => ofScalar k re
  | .complex k, .real w => ofComplex k (k.canonical w) 0

/-- The view of a tensor whose buffer fits its shape. -/
def view? (v : Value) : Option View :=
  match v with
  | tensor t shape data => t.elemKind?.bind fun e => View.of? e shape data
  | _ => none

/-- The elements of a real tensor, as doubles. -/
def doubles? (v : Value) : Option (List UInt64) :=
  match v, v.ty.elemKind? with
  | tensor _ shape data, some (.real k) =>
    some <| (List.range shape.count).map fun i =>
      match View.elemAt (.real k) data i with
      | .real w =>
        if k.isFloat then Floating.toDouble k w else Floating.ofIntWord false k.isSigned w
      | .complex .. => Floating.nanBits
  | _, _ => none

end Value

end NumericEngine
