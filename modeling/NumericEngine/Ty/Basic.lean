import NumericEngine.Tensor.Shape

/-!
# Types

Types are structural. The unit type is the struct without fields. A primitive
is a family with a bit width, of which only some widths exist; a tensor leaves
the extent of a dynamic axis to run time.
-/

namespace NumericEngine

inductive PrimKind where
  | signedInt
  | unsignedInt
  | float
  | bool
  deriving DecidableEq, Repr, Inhabited

def PrimKind.name : PrimKind → String
  | signedInt => "SignedInt"
  | unsignedInt => "UnsignedInt"
  | float => "Float"
  | bool => "Bool"

inductive Dim where
  | fixed (n : UInt64)
  | dynamic
  deriving DecidableEq, Repr, Inhabited

def Dim.extent? : Dim → Option UInt64
  | fixed n => some n
  | dynamic => none

inductive Mutability where
  | shared
  | mutable
  deriving DecidableEq, Repr, Inhabited

inductive Ty where
  | prim (kind : PrimKind) (width : UInt8)
  | vector (elem : Ty) (length : UInt64)
  | tensor (elem : Ty) (dims : List Dim)
  | complex (elem : Ty)
  | struct (fields : List (String × Ty))
  | function (params : List Ty) (result : Ty)
  | reference (target : Ty) (mutability : Mutability)
  deriving Repr

namespace Ty

instance : Inhabited Ty := ⟨struct []⟩

mutual
def beq : Ty → Ty → Bool
  | prim k w, prim k' w' => k == k' && w == w'
  | vector e n, vector e' n' => beq e e' && n == n'
  | tensor e ds, tensor e' ds' => beq e e' && ds == ds'
  | complex e, complex e' => beq e e'
  | struct fs, struct fs' => beqFields fs fs'
  | function ps r, function ps' r' => beqList ps ps' && beq r r'
  | reference t m, reference t' m' => beq t t' && m == m'
  | _, _ => false
def beqList : List Ty → List Ty → Bool
  | [], [] => true
  | t :: ts, t' :: ts' => beq t t' && beqList ts ts'
  | _, _ => false
def beqFields : List (String × Ty) → List (String × Ty) → Bool
  | [], [] => true
  | (n, t) :: fs, (n', t') :: fs' => n == n' && (beq t t' && beqFields fs fs')
  | _, _ => false
end

mutual
theorem beq_iff : (a b : Ty) → (beq a b = true ↔ a = b)
  | prim .., b => by cases b <;> simp [beq]
  | vector e _, b => by cases b <;> simp [beq, beq_iff e]
  | tensor e _, b => by cases b <;> simp [beq, beq_iff e]
  | complex e, b => by cases b <;> simp [beq, beq_iff e]
  | struct fs, b => by cases b <;> simp [beq, beqFields_iff fs]
  | function ps r, b => by cases b <;> simp [beq, beqList_iff ps, beq_iff r]
  | reference t _, b => by cases b <;> simp [beq, beq_iff t]
theorem beqList_iff : (a b : List Ty) → (beqList a b = true ↔ a = b)
  | [], b => by cases b <;> simp [beqList]
  | t :: ts, b => by cases b <;> simp [beqList, beq_iff t, beqList_iff ts]
theorem beqFields_iff : (a b : List (String × Ty)) → (beqFields a b = true ↔ a = b)
  | [], b => by cases b <;> simp [beqFields]
  | (n, t) :: fs, b => by
    cases b with
    | nil => simp [beqFields]
    | cons f rest =>
      obtain ⟨n', t'⟩ := f
      simp [beqFields, beq_iff t, beqFields_iff fs, and_assoc]
end

instance : DecidableEq Ty := fun a b => decidable_of_iff (beq a b = true) (beq_iff a b)

def ofKind : Kind → Ty
  | .bool => prim .bool 1
  | .i8 => prim .signedInt 8
  | .i16 => prim .signedInt 16
  | .i32 => prim .signedInt 32
  | .i64 => prim .signedInt 64
  | .u8 => prim .unsignedInt 8
  | .u16 => prim .unsignedInt 16
  | .u32 => prim .unsignedInt 32
  | .u64 => prim .unsignedInt 64
  | .f32 => prim .float 32
  | .f64 => prim .float 64

def bool : Ty := ofKind .bool
def i64 : Ty := ofKind .i64
def f32 : Ty := ofKind .f32
def f64 : Ty := ofKind .f64
def unit : Ty := struct []

def complexOf (k : Kind) : Ty := complex (ofKind k)

/-- The scalar kind of a primitive, when its width exists. -/
def kind? : Ty → Option Kind
  | prim p w => Kind.all.find? fun k => ofKind k == prim p w
  | _ => none

@[simp] theorem kind?_ofKind (k : Kind) : kind? (ofKind k) = some k := by
  cases k <;> decide

/-- The component kind of a complex type over a float. -/
def complexKind? : Ty → Option Kind
  | complex e => e.kind?.filter (·.isFloat)
  | _ => none

def isUnit : Ty → Bool
  | struct [] => true
  | _ => false

def isInt (t : Ty) : Bool := t.kind?.any (·.isInt)
def isFloat (t : Ty) : Bool := t.kind?.any (·.isFloat)
def isBool (t : Ty) : Bool := t.kind? == some .bool
def isNumeric (t : Ty) : Bool := t.isInt || t.isFloat

def isContainer : Ty → Bool
  | vector .. | tensor .. => true
  | _ => false

/-- Numbers, real or complex. -/
def isNumber (t : Ty) : Bool := t.isNumeric || t.complexKind?.isSome

/-- The kind under which a type is stored as an element: a number, never a boolean. -/
def asElem? (t : Ty) : Option ElemKind :=
  match t.kind? with
  | some .bool => none
  | some k => some (.real k)
  | none => t.complexKind?.map .complex

def element? : Ty → Option Ty
  | vector e _ | tensor e _ => some e
  | _ => none

def elemKind? (t : Ty) : Option ElemKind := t.element?.bind asElem?

/-- The axes of a vector or tensor; a vector has one. -/
def dims? : Ty → Option (List Dim)
  | vector _ n => some [.fixed n]
  | tensor _ ds => some ds
  | _ => none

/-- The extents of the axes, open where they are dynamic. -/
def declaredShape? (t : Ty) : Option (List (Option UInt64)) :=
  t.dims?.map fun ds => ds.map Dim.extent?

/-- The shape, when no axis is dynamic. -/
def fixedShape? (t : Ty) : Option Shape := t.dims?.bind fun ds => ds.mapM Dim.extent?

def isDynamic : Ty → Bool
  | tensor _ ds => ds.contains .dynamic
  | _ => false

mutual
def holdsReference : Ty → Bool
  | reference .. => true
  | struct fs => fieldsHoldReference fs
  | _ => false
def fieldsHoldReference : List (String × Ty) → Bool
  | [] => false
  | (_, t) :: fs => t.holdsReference || fieldsHoldReference fs
end

/-- The struct that carries an argument list: one field per parameter, named by its position. -/
def recordFrom (i : Nat) : List Ty → List (String × Ty)
  | [] => []
  | t :: ts => (toString i, t) :: recordFrom (i + 1) ts

def record (params : List Ty) : Ty := struct (recordFrom 0 params)

end Ty

end NumericEngine
