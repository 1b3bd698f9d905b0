import NumericEngine.Ty.Layout
import NumericEngine.Ty.Text

/-!
# Well-formed types

A type is well formed when its primitives exist, its containers hold numbers,
its complex components are floats, and its size can be laid out.
-/

namespace NumericEngine

inductive TyDefect where
  | invalidPrimitive (kind : PrimKind) (width : UInt8)
  | element (elem : Ty)
  | complexElement (elem : Ty)
  | tooLarge (ty : Ty)
  deriving DecidableEq, Repr, Inhabited

def TyDefect.message : TyDefect → String
  | invalidPrimitive p w =>
    "invalid primitive Primitive \x7b kind: " ++ p.name ++ ", width: " ++ toString w.toNat ++
      " \x7d"
  | element e => "element type " ++ e.text ++ " must be numeric or complex"
  | complexElement e => "complex element type " ++ e.text ++ " must be a float"
  | tooLarge t => t.text ++ " is too large to lay out"

namespace Ty

def checkSize (t : Ty) : Except TyDefect Unit :=
  if t.checkedSize?.isSome then .ok () else .error (.tooLarge t)

mutual
/-- The element rules. Sizes are checked below functions and references only. -/
def checkElements : Ty → Except TyDefect Unit
  | prim p w => if (prim p w).kind?.isSome then .ok () else .error (.invalidPrimitive p w)
  | vector e _ => if e.asElem?.isSome then .ok () else .error (.element e)
  | tensor e _ => if e.asElem?.isSome then .ok () else .error (.element e)
  | complex e => if e.isFloat then .ok () else .error (.complexElement e)
  | struct fs => checkFields fs
  | function ps r => do
    checkParams ps
    r.checkElements
    r.checkSize
  | reference t _ => do
    t.checkElements
    t.checkSize
def checkFields : List (String × Ty) → Except TyDefect Unit
  | [] => .ok ()
  | (_, t) :: fs => do
    t.checkElements
    checkFields fs
def checkParams : List Ty → Except TyDefect Unit
  | [] => .ok ()
  | t :: ts => do
    t.checkElements
    t.checkSize
    checkParams ts
end

def validate (t : Ty) : Except TyDefect Unit := do
  t.checkElements
  t.checkSize

end Ty

end NumericEngine
