import NumericEngine.Tensor.Shape

/-!
# Tensor kernels

A view is a buffer whose length is what its shape and element kind call for, as
a word. The kernels check shapes first, then go through the elements in
row-major order, write the results into one zeroed buffer, and stop at the
first element that is outside of its buffer or whose operation fails.
-/

namespace NumericEngine

structure View where
  elem : ElemKind
  shape : Shape
  data : Bytes
  size_data : data.size = Word.mul shape.count elem.size

namespace View

def of? (elem : ElemKind) (shape : Shape) (data : Bytes) : Option View :=
  if h : data.size = Word.mul shape.count elem.size then some ⟨elem, shape, data, h⟩ else none

def length (v : View) : Nat := v.shape.count

/-- What the bytes of element `i` stand for; those past the end of the buffer count as absent. -/
def elemAt (elem : ElemKind) (data : Bytes) (i : Nat) : Elem :=
  Elem.read elem (data.window (i * elem.size) elem.size)

/-- Where element `i` starts in a buffer of `size` bytes, when all of it lies there. -/
def start? (elem : ElemKind) (size i : Nat) : Option Nat :=
  let start := Word.mul i elem.size
  let stop := Word.mul (Word.add i 1) elem.size
  if start ≤ stop ∧ stop ≤ size then some start else none

def readElem (elem : ElemKind) (data : Bytes) (i : Nat) : Except TensorError Elem :=
  match start? elem data.size i with
  | some start => .ok (Elem.read elem (data.window start elem.size))
  | none => .error .crash

def get (v : View) (i : Nat) : Except TensorError Elem := readElem v.elem v.data i

def setElem (elem : ElemKind) (data : Bytes) (i : Nat) (x : Elem) : Except TensorError Bytes :=
  match start? elem data.size i with
  | some start => .ok (data.overwrite start (Elem.bytes elem x))
  | none => .error .crash

/-- A zeroed buffer, which has at most the bytes that a signed word can count. -/
def zeroed (size : Nat) : Except TensorError Bytes :=
  if size < 0x8000000000000000 then .ok (Bytes.zeros size) else .error .crash

theorem zeroed_of_lt {size : Nat} (h : size < 0x8000000000000000) :
    zeroed size = .ok (Bytes.zeros size) := if_pos h

def arith (x : Except ArithError α) : Except TensorError α := x.mapError .arith

/-- Takes a step for each of `n` indices from `i` on, until one fails. -/
def loop {σ : Type} (step : σ → Nat → Except TensorError σ) : (n i : Nat) → σ → Except TensorError σ
  | 0, _, s => .ok s
  | n + 1, i, s => do loop step n (i + 1) (← step s i)

/-- Writes an element for each of the first `n` indices, until one has none. -/
def fill (elem : ElemKind) (value : Nat → Except TensorError Elem) (n : Nat) (out : Bytes) :
    Except TensorError Bytes :=
  loop (fun out i => do setElem elem out i (← value i)) n 0 out

def sameShape (a b : View) : Except TensorError Unit :=
  if a.shape = b.shape then .ok () else .error (.shapeMismatch a.shape b.shape)

def elementwise (op : ArithOp) (a b : View) (checked : Bool) : Except TensorError Bytes := do
  sameShape a b
  fill a.elem (fun i => do arith (Elem.binary op a.elem (← a.get i) (← b.get i) checked)) a.length
    (Bytes.zeros a.data.size)

def scale (v : View) (factor : Elem) (checked : Bool) : Except TensorError Bytes :=
  fill v.elem (fun i => do arith (Elem.binary .mul v.elem (← v.get i) factor checked)) v.length
    (Bytes.zeros v.data.size)

/-- The sum of the elements from left to right, starting from zero. -/
def sum (v : View) (checked : Bool) : Except TensorError Elem :=
  loop (fun acc i => do arith (Elem.binary .add v.elem acc (← v.get i) checked)) v.length 0
    (Elem.zero v.elem)

/-- The sum over `i < n` of the products `x i * y i`, from left to right. -/
def innerProduct (elem : ElemKind) (n : Nat) (x y : Nat → Except TensorError Elem) (checked : Bool) :
    Except TensorError Elem :=
  loop (fun acc i => do
    let p ← arith (Elem.binary .mul elem (← x i) (← y i) checked)
    arith (Elem.binary .add elem acc p checked)) n 0 (Elem.zero elem)

def dot (a b : View) (checked : Bool) : Except TensorError Elem := do
  sameShape a b
  innerProduct a.elem a.length a.get b.get checked

/-- Where entry `(i, j)` of a matrix with `n` columns is. -/
def entry (n i j : Nat) : Nat := Word.add (Word.mul i n) j

/-- The product of an `m × k` and a `k × n` matrix: its shape and its buffer. -/
def matmul (a b : View) (checked : Bool) : Except TensorError (Shape × Bytes) :=
  match a.shape, b.shape with
  | [m, k], [k', n] =>
    if k = k' then do
      let out ← zeroed (Word.mul (Word.mul m.toNat n.toNat) a.elem.size)
      let out ← loop (fun out i =>
        loop (fun out j => do
          let x ← innerProduct a.elem k.toNat (fun p => a.get (entry k.toNat i p))
            (fun p => b.get (entry n.toNat p j)) checked
          setElem a.elem out (entry n.toNat i j) x) n.toNat 0 out) m.toNat 0 out
      return ([m, n], out)
    else .error (.shapeMismatch [k, n] b.shape)
  | _, _ =>
    let expected :=
      match a.shape[1]?, b.shape[1]? with
      | some k, some n => [k, n]
      | _, _ => []
    .error (.shapeMismatch expected b.shape)

end View

end NumericEngine
