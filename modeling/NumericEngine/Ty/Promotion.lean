import NumericEngine.Ty.Basic

/-!
# Numeric promotion

The common type of two numeric operands:

* two integers take the wider type, and the unsigned one of two equal widths;
* an integer and a float take a float as wide as both, at least 32 bits;
* a real and a complex number take the complex type over the promoted component.

Implicit widening is stricter: no signed integer becomes unsigned.
-/

namespace NumericEngine.Ty

/-- A float width that holds an integer width. -/
def floatWidth (w : UInt8) : UInt8 := if w ≤ 32 then 32 else 64

/-- Promotion of primitives; fails with the two types when they have no common one. -/
def promotePrim (a b : Ty) : Except (Ty × Ty) Ty :=
  match a, b with
  | prim ka wa, prim kb wb =>
    match ka, kb with
    | .bool, .bool => .ok bool
    | .bool, _ => .error (a, b)
    | _, .bool => .error (a, b)
    | .float, .float => .ok (prim .float (max wa wb))
    | .float, _ => .ok (prim .float (max wa (floatWidth wb)))
    | _, .float => .ok (prim .float (max wb (floatWidth wa)))
    | _, _ =>
      if wb < wa then .ok a
      else if wa < wb then .ok b
      else if ka = .unsignedInt then .ok a
      else .ok b
  | _, _ => .error (a, b)

/-- The common type of two operands; fails with the pair of types that have none. -/
def promote (a b : Ty) : Except (Ty × Ty) Ty :=
  if a = b then
    match a with
    | prim .. | complex _ => .ok a
    | _ => .error (a, b)
  else
    match a, b with
    | complex ea, complex eb => complex <$> promotePrim ea eb
    | complex e, real => if real.isNumeric then complex <$> promotePrim real e else .error (a, b)
    | real, complex e => if real.isNumeric then complex <$> promotePrim real e else .error (a, b)
    | _, _ => promotePrim a b

/-- Whether a signed integer would become unsigned. -/
def losesSign : Ty → Ty → Bool
  | prim .signedInt _, prim .unsignedInt _ => true
  | _, _ => false

/-- Whether a value of the first type converts implicitly to the second. -/
def widensTo (source target : Ty) : Bool :=
  source == target ||
    (!losesSign source target &&
      match promote source target with
      | .ok t => t == target
      | .error _ => false)

end NumericEngine.Ty
