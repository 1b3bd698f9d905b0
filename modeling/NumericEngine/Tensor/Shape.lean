import NumericEngine.Tensor.Element
import NumericEngine.Word.Size

/-!
# Shapes and indices

A shape lists the extents of the axes, outermost first; elements are laid out
in row-major order. A declared shape leaves some extents open.
-/

namespace NumericEngine

abbrev Shape := List UInt64

/-- What stops a kernel. A `crash` is an access outside of a buffer, or a buffer that is too long to be made:
the whole program ends there, with no answer. -/
inductive TensorError where
  | shapeMismatch (expected found : Shape)
  | indexOutOfBounds (index : Int) (extent : UInt64)
  | arith (e : ArithError)
  | crash
  deriving DecidableEq, Repr, Inhabited

namespace Shape

/-- Number of elements, as a word; one for the empty shape. -/
def count : Shape → Nat
  | [] => 1
  | d :: rest => Word.mul d.toNat (count rest)

theorem count_lt (shape : Shape) : count shape < 0x10000000000000000 := by
  cases shape with
  | nil => decide
  | cons d rest => exact Word.mul_lt _ _

/-- The row-major position after `acc` complete outer rows. -/
def position (acc : Nat) : Shape → List Int → Except TensorError Nat
  | d :: shape, i :: indices =>
    if i < 0 || d.toNat ≤ i then .error (.indexOutOfBounds i d)
    else position (Word.add (Word.mul acc d.toNat) i.toNat) shape indices
  | _, _ => .ok acc

/-- The row-major position of an index list, one index per axis. -/
def flatIndex (shape : Shape) (indices : List Int) : Except TensorError Nat :=
  if shape.length = indices.length then position 0 shape indices
  else .error (.shapeMismatch shape [UInt64.ofNat indices.length])

/-- Whether every extent that is declared is the actual one. -/
def Conforms (declared : List (Option UInt64)) (actual : Shape) : Bool :=
  declared.length == actual.length &&
    (declared.zip actual).all fun p => p.1.all (· == p.2)

/-- Refuses a shape that breaks a declared extent; open extents are reported as 0. -/
def conform (declared : List (Option UInt64)) (actual : Shape) : Except TensorError Unit :=
  if Conforms declared actual then .ok ()
  else .error (.shapeMismatch (declared.map (·.getD 0)) actual)

end Shape

end NumericEngine
