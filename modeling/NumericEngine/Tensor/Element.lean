import NumericEngine.Scalar.Complex

/-!
# Tensor elements

An element is a real or a complex number. In a buffer it takes one or two
scalars, the real part first.
-/

namespace NumericEngine

inductive ElemKind where
  | real (k : Kind)
  | complex (k : Kind)
  deriving DecidableEq, Repr, Inhabited

namespace ElemKind

def component : ElemKind → Kind
  | real k | complex k => k

def size : ElemKind → Nat
  | real k => k.size
  | complex k => 2 * k.size

end ElemKind

inductive Elem where
  | real (w : UInt64)
  | complex (re im : UInt64)
  deriving DecidableEq, Repr, Inhabited

namespace Elem

def zero : ElemKind → Elem
  | .real _ => real 0
  | .complex _ => complex 0 0

def read (e : ElemKind) (bs : List UInt8) : Elem :=
  match e with
  | .real k => real (k.read bs)
  | .complex k => complex (k.read bs) (k.read (bs.drop k.size))

/-- The bytes of an element; an element of the other form is stored as zeros. -/
def bytes (e : ElemKind) (x : Elem) : List UInt8 :=
  match e, x with
  | .real k, real w => k.bytes w
  | .complex k, complex re im => k.bytes re ++ k.bytes im
  | e, _ => List.replicate e.size 0

@[simp] theorem length_bytes (e : ElemKind) (x : Elem) : (bytes e x).length = e.size := by
  cases e <;> cases x <;> simp [bytes, Kind.bytes, ElemKind.size]
  omega

def binary (op : ArithOp) (e : ElemKind) (a b : Elem) (checked : Bool) : Except ArithError Elem :=
  match e, a, b with
  | .real k, real x, real y => real <$> Scalar.binary op k x y checked
  | .complex k, complex ar ai, complex br bi =>
    (fun p => complex p.1 p.2) <$> Complex.binary op k (ar, ai) (br, bi)
  | _, _, _ => .error .unsupported

end Elem

end NumericEngine
