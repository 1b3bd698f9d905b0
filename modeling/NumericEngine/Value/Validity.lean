import NumericEngine.Value.Text
import NumericEngine.Word.Hex

/-!
# Well-formed values

A payload fits its type: scalars and components are canonical, a buffer has the
length its shape calls for and the shape conforms to the type, and the fields
of a struct have the declared types and fit them in turn.
-/

namespace NumericEngine

inductive ValueDefect where
  | notCanonical (bits : UInt64) (kind : Kind)
  | notPrimitive (ty : Ty)
  | complexPayload (ty : Ty)
  | elementType (ty : Ty)
  | shape (shape : Shape) (ty : Ty)
  | bufferSize (found : Nat) (shape : Shape) (needed : Nat)
  | fieldCount (found : Nat) (ty : Ty)
  | fieldType (name : String) (found : Ty)
  | payload (ty : Ty)
  deriving DecidableEq, Repr, Inhabited

def ValueDefect.message : ValueDefect → String
  | notCanonical w k => "bits 0x" ++ hex w.toNat ++ " are not canonical for " ++ k.name
  | notPrimitive t => "scalar payload for non-primitive " ++ t.text
  | complexPayload t => "complex payload does not fit " ++ t.text
  | elementType t => "invalid element type in " ++ t.text
  | shape s t => "shape " ++ s.text ++ " does not conform to " ++ t.text
  | bufferSize found s needed =>
    "buffer of " ++ toString found ++ " bytes, shape " ++ s.text ++ " needs " ++ toString needed
  | fieldCount found t => toString found ++ " field values for " ++ t.text
  | fieldType name t => "field `" ++ name ++ "` holds a " ++ t.text
  | payload t => "payload does not match type " ++ t.text

namespace Value

def checkScalar (t : Ty) (w : UInt64) : Except ValueDefect Unit :=
  match t.kind? with
  | some k => if k.canonical w = w then .ok () else .error (.notCanonical w k)
  | none => .error (.notPrimitive t)

def checkComplex (t : Ty) (re im : UInt64) : Except ValueDefect Unit :=
  match t.complexKind? with
  | some k =>
    if k.canonical re = re ∧ k.canonical im = im then .ok () else .error (.complexPayload t)
  | none => .error (.complexPayload t)

def checkTensor (t : Ty) (shape : Shape) (data : Bytes) : Except ValueDefect Unit :=
  match t.element?, t.declaredShape? with
  | some elem, some declared =>
    match elem.asElem? with
    | some e =>
      if Shape.Conforms declared shape then
        let needed := Word.mul shape.count e.size
        if data.size = needed then .ok () else .error (.bufferSize data.size shape needed)
      else .error (.shape shape t)
    | none => .error (.elementType t)
  | _, _ => .error (.payload t)

mutual
/-- Checks that a payload fits its type, to any depth. -/
def check : Value → Except ValueDefect Unit
  | scalar t w => checkScalar t w
  | complex t re im => checkComplex t re im
  | tensor t shape data => checkTensor t shape data
  | struct (.struct decl) fs =>
    if decl.length = fs.length then checkFields decl fs
    else .error (.fieldCount fs.length (.struct decl))
  | struct t _ => .error (.payload t)
  | function (.function ..) _ => .ok ()
  | function t _ => .error (.payload t)
  | ref (.reference ..) _ => .ok ()
  | ref t _ => .error (.payload t)
def checkFields : List (String × Ty) → List Value → Except ValueDefect Unit
  | (n, t) :: decl, v :: vs =>
    if t = v.ty then do
      v.check
      checkFields decl vs
    else .error (.fieldType n v.ty)
  | _, _ => .ok ()
end

def Valid (v : Value) : Prop := v.check = .ok ()

def checked (v : Value) : Except ValueDefect Value := do
  v.check
  return v

end Value

end NumericEngine
