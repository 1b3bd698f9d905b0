import NumericEngine.Lowering.Builder

/-!
# Code of expressions

The code of an expression computes its operands from left to right and leaves
its value in a register. The second operand of a short-circuit operator, and
the arms of a conditional, have blocks of their own, which meet in a phi.
-/

namespace NumericEngine.Lowering

open Build

def kindOf (ty : Ty) : Build Kind :=
  match ty.kind? with
  | some k => return k
  | none => refuse (.notPrimitive ty)

def complexKindOf (ty : Ty) : Build Kind :=
  match ty.complexKind? with
  | some k => return k
  | none => refuse (.notComplex ty)

/-- The conversion of a number of kind `source`; none is needed for the same kind. -/
def convertKind (source target : Kind) (src : Reg) : Build Reg :=
  if source = target then return src
  else define (.ofKind target) (.convert source target src)

/-- Real to complex, with a zero imaginary part, or complex to complex, part by part. -/
def convertToComplex (src : Reg) (source : Ty) (target : Ty) : Build Reg := do
  let elem ← complexKindOf target
  match source.kind? with
  | some k =>
    let re ← convertKind k elem src
    let zero ← constant (.ofScalar elem 0)
    let im ← define (.ofKind elem) (.const zero)
    define target (.makeComplex elem re im)
  | none =>
    let k ← complexKindOf source
    let re ← define (.ofKind k) (.complexPart .re k src)
    let re ← convertKind k elem re
    let im ← define (.ofKind k) (.complexPart .im k src)
    let im ← convertKind k elem im
    define target (.makeComplex elem re im)

def convert (src : Reg) (source target : Ty) : Build Reg :=
  if source = target then return src
  else
    match source.kind?, target.kind? with
    | some f, some t => define target (.convert f t src)
    | _, _ => convertToComplex src source target

def unary (ty : Ty) (op : UnaryOp) (src : Reg) : Build Reg := do
  define ty (.unary op (← kindOf ty) src false)

/-- Evaluates the second operand only when the first does not decide. -/
def shortCircuit (isAnd : Bool) (lhs rhs : Build Reg) : Build Reg := do
  let a ← lhs
  let lhsEnd ← current
  let rhsBlock ← newBlock (if isAnd then "and" else "or")
  let join ← newBlock "sc"
  terminate lhsEnd (if isAnd then .branch a rhsBlock join else .branch a join rhsBlock)
  moveTo rhsBlock
  let b ← rhs
  let rhsEnd ← current
  terminate rhsEnd (.jump join)
  moveTo join
  define .bool (.phi [(lhsEnd, a), (rhsEnd, b)])

def select (ty : Ty) (cond thenArm elseArm : Build Reg) : Build Reg := do
  let c ← cond
  let source ← current
  let thenBlock ← newBlock "then"
  let elseBlock ← newBlock "else"
  terminate source (.branch c thenBlock elseBlock)
  moveTo thenBlock
  let t ← thenArm
  let thenEnd ← current
  moveTo elseBlock
  let e ← elseArm
  let elseEnd ← current
  let join ← newBlock "join"
  terminate thenEnd (.jump join)
  terminate elseEnd (.jump join)
  moveTo join
  define ty (.phi [(thenEnd, t), (elseEnd, e)])

mutual
def expr : TExpr → Build Reg
  | .mk ty (.const v) _ => do
    let c ← constant v
    define ty (.const c)
  | .mk _ (.var x) _ => read x
  | .mk ty (.funcRef f) _ => define ty (.funcRef f)
  | .mk ty (.arith op lhs rhs checked) span => do
    let l ← expr lhs
    let r ← expr rhs
    match ty.kind?, ty.complexKind? with
    | some k, _ => define ty (.binary op k l r checked)
    | none, some k => define ty (.complexBinary op k l r)
    | none, none =>
      if ty.isContainer then define ty (.tensorBinary op l r checked)
      else refuseAt (.arithmeticOn ty) span
  | .mk ty (.scale tensor factor checked) _ => do
    let t ← expr tensor
    let f ← expr factor
    define ty (.tensorScale t f checked)
  | .mk ty (.compare op lhs rhs) _ => do
    let l ← expr lhs
    let r ← expr rhs
    match lhs.ty.kind? with
    | some k => define ty (.compare op k l r)
    | none => define ty (.complexCompare op (← complexKindOf lhs.ty) l r)
  | .mk _ (.logical isAnd lhs rhs) _ => shortCircuit isAnd (expr lhs) (expr rhs)
  | .mk ty (.neg operand checked) _ => do
    let src ← expr operand
    match ty.kind? with
    | some k => define ty (.unary .neg k src checked)
    | none => define ty (.complexUnary .neg (← complexKindOf ty) src)
  | .mk ty (.not operand) _ => do
    let src ← expr operand
    unary ty .not src
  | .mk ty (.sqrt operand) _ => do
    let src ← expr operand
    unary ty .sqrt src
  | .mk ty (.abs operand) _ => do
    let src ← expr operand
    unary ty .abs src
  | .mk ty (.part p operand) _ => do
    let src ← expr operand
    define ty (.complexPart p (← complexKindOf operand.ty) src)
  | .mk ty (.conj operand) _ => do
    let src ← expr operand
    define ty (.complexUnary .conj (← complexKindOf ty) src)
  | .mk ty (.convert operand) _ => do
    let src ← expr operand
    convert src operand.ty ty
  | .mk ty (.tensorCast operand) _ => do
    let src ← expr operand
    define ty (.tensorCast src)
  | .mk ty (.makeComplex re im) _ => do
    let re ← expr re
    let im ← expr im
    define ty (.makeComplex (← complexKindOf ty) re im)
  | .mk ty (.call f args) _ => do
    let args ← exprs args
    define ty (.call f args)
  | .mk ty (.callIndirect callee args) _ => do
    let callee ← expr callee
    let args ← exprs args
    define ty (.callIndirect callee args)
  | .mk ty (.ite cond thenExpr elseExpr) _ =>
    select ty (expr cond) (expr thenExpr) (expr elseExpr)
  | .mk ty (.makeTensor elements) _ => do
    let elements ← exprs elements
    define ty (.makeTensor elements)
  | .mk ty (.makeStruct fields) _ => do
    let fields ← exprs fields
    define ty (.makeStruct fields)
  | .mk ty (.field base index) _ => do
    let src ← expr base
    define ty (.extractField src index)
  | .mk ty (.index base indices) _ => do
    let src ← expr base
    let indices ← exprs indices
    define ty (.extractElement src indices)
  | .mk ty (.sum operand) _ => do
    let src ← expr operand
    define ty (.sum src)
  | .mk ty (.dot lhs rhs) _ => do
    let l ← expr lhs
    let r ← expr rhs
    define ty (.dot l r)
  | .mk ty (.matmul lhs rhs) _ => do
    let l ← expr lhs
    let r ← expr rhs
    define ty (.matmul l r)
  | .mk ty (.dim operand axis) _ => do
    let src ← expr operand
    define ty (.dim src axis)
  | .mk _ (.ref x) span => do
    match ← address? x with
    | some addr => return addr
    | none => refuseAt (.noSlot (← binding x).name) span
  | .mk ty (.deref operand) _ => do
    let addr ← expr operand
    define ty (.load addr)
def exprs : List TExpr → Build (List Reg)
  | [] => return []
  | e :: es => do
    let r ← expr e
    let rs ← exprs es
    return r :: rs
end

end NumericEngine.Lowering
