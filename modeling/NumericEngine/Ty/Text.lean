import NumericEngine.Ty.Basic

/-!
# Text of types
-/

namespace NumericEngine

def Dim.text : Dim → String
  | fixed n => toString n.toNat
  | dynamic => "?"

namespace Ty

mutual
def text : Ty → String
  | prim p w => ((prim p w).kind?.map Kind.name).getD "<invalid primitive>"
  | vector e n => "vec<" ++ e.text ++ ", " ++ toString n.toNat ++ ">"
  | tensor e ds => "tensor<" ++ e.text ++ ", [" ++ ", ".intercalate (ds.map Dim.text) ++ "]>"
  | complex e => "complex<" ++ e.text ++ ">"
  | struct [] => "()"
  | struct fs => "\x7b " ++ ", ".intercalate (fieldTexts fs) ++ " \x7d"
  | function ps r => "fn(" ++ ", ".intercalate (texts ps) ++ ") -> " ++ r.text
  | reference t .shared => "&" ++ t.text
  | reference t .mutable => "&mut " ++ t.text
def texts : List Ty → List String
  | [] => []
  | t :: ts => t.text :: texts ts
def fieldTexts : List (String × Ty) → List String
  | [] => []
  | (n, t) :: fs => (n ++ ": " ++ t.text) :: fieldTexts fs
end

instance : ToString Ty := ⟨text⟩

end Ty

end NumericEngine
