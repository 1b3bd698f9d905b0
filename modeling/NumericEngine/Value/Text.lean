import NumericEngine.Decimal.Text
import NumericEngine.Ty.Text
import NumericEngine.Value.Basic

/-!
# Text of values

Floats are written as doubles with their shortest digits.
-/

namespace NumericEngine

def Kind.text (k : Kind) (w : UInt64) : String :=
  if k = .bool then (if w = 0 then "false" else "true")
  else if k.isFloat then DecimalStyle.value.text (Floating.toDouble k w)
  else toString (k.toInt w)

def Elem.text (k : Kind) : Elem → String
  | real w => k.text w
  | complex re im => "(" ++ k.text re ++ ", " ++ k.text im ++ "i)"

def Shape.text (s : Shape) : String :=
  "[" ++ ", ".intercalate (s.map fun d => toString d.toNat) ++ "]"

namespace Value

def invalidText : String := "<invalid>"

mutual
def text : Value → String
  | scalar t w => (t.kind?.map (·.text w)).getD invalidText
  | complex t re im => (t.complexKind?.map fun k => (Elem.complex re im).text k).getD invalidText
  | tensor t shape data =>
    match t.elemKind? with
    | some e =>
      let elems := (List.range shape.count).map fun i => (View.elemAt e data i).text e.component
      "[" ++ ", ".intercalate elems ++ "]"
    | none => invalidText
  | struct (.struct decl) fs =>
    if fs.isEmpty then "()" else "\x7b " ++ ", ".intercalate (fieldTexts decl fs) ++ " \x7d"
  | struct _ _ => invalidText
  | function _ id => "fn#" ++ toString id.index.toNat
  | ref _ slot => "&slot" ++ toString slot.toNat
def fieldTexts : List (String × Ty) → List Value → List String
  | (n, _) :: decl, v :: vs => (n ++ ": " ++ v.text) :: fieldTexts decl vs
  | _, _ => []
end

instance : ToString Value := ⟨text⟩

end Value

end NumericEngine
