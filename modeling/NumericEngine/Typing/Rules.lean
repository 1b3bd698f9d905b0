import NumericEngine.Ty.Promotion
import NumericEngine.Typing.Error
import NumericEngine.Typing.Tree

/-!
# Typing rules

What each operator makes of operands that have been typed already. The rules
do not look at the environment.

Where a value flows into a position of a given type it is coerced: equal types
pass, numbers widen by promotion, and a tensor may forget fixed extents.
-/

namespace NumericEngine.Typing

open Source (Span Intrinsic)

abbrev Rule := Except TypeError

def refuse {α : Type} (fault : TypeFault) : Rule α := .error { fault }

def refuseAt {α : Type} (fault : TypeFault) (span : Span) : Rule α :=
  .error { fault, span := some span }

def promote (a b : Ty) : Rule Ty :=
  (Ty.promote a b).mapError fun p => { fault := .noPromotion p.1 p.2 }

def validate (t : Ty) : Rule Unit := t.validate.mapError fun d => { fault := .illFormed d }

/-! ## Literals -/

inductive Literal where
  | int (v : Int)
  /-- By the bits of its double. -/
  | float (bits : UInt64)
  deriving DecidableEq, Repr

def Literal.neg : Literal → Literal
  | int v => int (-v)
  | float w => float (w ^^^ Scalar.signBit .f64)

/-- The double nearest to an integer of at most 64 bits and a sign. -/
def doubleOfInt (v : Int) : UInt64 :=
  let magnitude := Floating.ofIntWord false false (UInt64.ofNat v.natAbs)
  if v < 0 then magnitude ^^^ Scalar.signBit .f64 else magnitude

/-- The constant of a float kind nearest to a double. -/
def floatConst (k : Kind) (w : UInt64) : Value := .ofScalar k ((Floating.ofDouble? k w).getD 0)

def complexConst (k : Kind) (w : UInt64) : Value :=
  .ofComplex k ((Floating.ofDouble? k w).getD w) 0

def intConst (k : Kind) (v : Int) : Rule Value :=
  match k.ofInt? v with
  | some w => .ok (.ofScalar k w)
  | none => refuse (.literalRange v k)

/-- A literal takes the numeric type of the hint; without one it is an `i64` or a `f64`. -/
def Literal.value (lit : Literal) (hint : Option Ty) : Rule Value :=
  let kind := hint.bind Ty.kind?
  let component := hint.bind Ty.complexKind?
  match lit with
  | int v =>
    match kind.filter (·.isInt), kind.filter (·.isFloat), component with
    | some k, _, _ => intConst k v
    | none, some k, _ => .ok (floatConst k (doubleOfInt v))
    | none, none, some k => .ok (complexConst k (doubleOfInt v))
    | none, none, none => intConst .i64 v
  | float w =>
    match kind.filter (·.isFloat), component with
    | some k, _ => .ok (floatConst k w)
    | none, some k => .ok (complexConst k w)
    | none, none => .ok (floatConst .f64 w)

/-! ## Shapes -/

/-- The extents both operands of an elementwise operator agree on. -/
def mergeDims : List Dim → List Dim → Rule (List Dim)
  | d :: ds, e :: es => do
    let m ← match d, e with
      | .fixed m, .fixed n => if m = n then pure (Dim.fixed m) else refuse (.extents m n)
      | .fixed m, .dynamic => pure (.fixed m)
      | .dynamic, e => pure e
    return m :: (← mergeDims ds es)
  | _, _ => .ok []

def mergeShapes (a b : List Dim) : Rule (List Dim) :=
  if a.length = b.length then mergeDims a b else refuse (.ranks a.length b.length)

/-- Whether a tensor of one shape is one of the other. -/
def dimsWiden (source target : List Dim) : Bool :=
  source.length == target.length &&
    (source.zip target).all fun
      | (_, .dynamic) => true
      | (.fixed m, .fixed n) => m == n
      | (.dynamic, .fixed _) => false

/-- Whether a tensor of one shape may turn out to be one of the other. -/
def dimsCastable (source target : List Dim) : Bool :=
  source.length == target.length &&
    (source.zip target).all fun
      | (.fixed m, .fixed n) => m == n
      | _ => true

/-- Whether two containers hold the same elements and `fits` accepts their shapes. -/
def reshapes (fits : List Dim → List Dim → Bool) (source target : Ty) : Bool :=
  match source.dims?, target.dims? with
  | some a, some b => source.element? == target.element? && fits a b
  | _, _ => false

/-! ## Conversions -/

/-- An expression converted to a numeric type, unless it has it already. -/
def convertTo (e : TExpr) (target : Ty) : TExpr :=
  if e.ty = target then e else .mk target (.convert e) e.span

/-- An expression for a position of a given type. -/
def coerce (e : TExpr) (target : Ty) : Rule TExpr :=
  if e.ty = target then .ok e
  else if e.ty.isNumber && target.isNumber && e.ty.widensTo target then
    .ok (.mk target (.convert e) e.span)
  else if reshapes dimsWiden e.ty target then .ok (.mk target (.tensorCast e) e.span)
  else refuseAt (.expected target e.ty) e.span

def requireBool (e : TExpr) (span : Span) : Rule TExpr :=
  if e.ty.isBool then .ok e else refuseAt (.expected .bool e.ty) span

/-- Whether an explicit cast converts numbers. -/
def castConverts (source target : Ty) : Bool :=
  (source.kind?.isSome && target.kind?.isSome) ||
    match target with
    | .complex _ => source.isNumber
    | _ => false

def cast (e : TExpr) (target : Ty) (span : Span) : Rule TExpr :=
  if e.ty = target then .ok e
  else if castConverts e.ty target then .ok (.mk target (.convert e) span)
  else if reshapes dimsCastable e.ty target then .ok (.mk target (.tensorCast e) span)
  else refuse (.cast e.ty target)

/-! ## Operators -/

/-- The type the other operand is expected to have. -/
def operandHint (t : Ty) : Ty := t.element?.getD t

def unary (op : Source.UnaryOp) (e : TExpr) (checked : Bool) (span : Span) : Rule TExpr :=
  match op with
  | .neg =>
    if e.ty.isNumber then .ok (.mk e.ty (.neg e checked) span) else refuse (.unaryOperand op e.ty)
  | .not =>
    if e.ty.isBool || e.ty.isInt then .ok (.mk e.ty (.not e) span)
    else refuse (.unaryOperand op e.ty)

def scalarArithType (op : ArithOp) (l r : Ty) : Rule Ty :=
  match op with
  | .shl | .shr => if l.isInt && r.isInt then .ok l else refuse (.shiftOperands l r)
  | .and | .or | .xor => do
    let t ← promote l r
    if t.isInt || t.isBool then return t else refuse (.bitwiseOperand t)
  | op => do
    let t ← promote l r
    if t.isBool || (t.complexKind?.isSome && op == .rem) then refuse (.arithOperand op t)
    else return t

def scalarArith (op : ArithOp) (l r : TExpr) (checked : Bool) (span : Span) : Rule TExpr := do
  let t ← scalarArithType op l.ty r.ty
  return .mk t (.arith op (convertTo l t) (convertTo r t) checked) span

def elementwiseType (op : ArithOp) (l r : Ty) : Rule Ty :=
  if !op.onFloats then refuse (.tensorOperator op)
  else if l.element? ≠ r.element? then refuse (.elementsDiffer l r)
  else
    let elem := l.element?.getD .f64
    if op = .rem ∧ elem.complexKind?.isSome then refuse .complexRemainder
    else
      match l, r with
      | .vector _ m, .vector _ n => if m = n then .ok l else refuse (.vectorLengths m n)
      | .tensor _ a, .tensor _ b => Ty.tensor elem <$> mergeShapes a b
      | _, _ => refuse (.mixedContainers l r)

def elementwise (op : ArithOp) (l r : TExpr) (checked : Bool) (span : Span) : Rule TExpr := do
  let t ← elementwiseType op l.ty r.ty
  return .mk t (.arith op l r checked) span

def scale (tensor factor : TExpr) (checked : Bool) (span : Span) : Rule TExpr := do
  let factor ← coerce factor (tensor.ty.element?.getD .f64)
  return .mk tensor.ty (.scale tensor factor checked) span

def arith (op : ArithOp) (l r : TExpr) (checked : Bool) (span : Span) : Rule TExpr :=
  match l.ty.isContainer, r.ty.isContainer, op with
  | true, true, op => elementwise op l r checked span
  | true, false, .mul => scale l r checked span
  | false, true, .mul => scale r l checked span
  | false, false, op => scalarArith op l r checked span
  | _, _, op => refuse (.operands (.arith op) l.ty r.ty)

def compare (op : CmpOp) (l r : TExpr) (span : Span) : Rule TExpr := do
  let t ← promote l.ty r.ty
  if op ≠ .eq ∧ op ≠ .ne ∧ !t.isNumeric then refuse (.orderingOperand t)
  else return .mk .bool (.compare op (convertTo l t) (convertTo r t)) span

/-- The hint for the operands of a binary operator: none for a comparison. -/
def binaryHint (op : Source.BinaryOp) (hint : Option Ty) : Option Ty :=
  match op with
  | .compare _ => none
  | _ => hint

def binary (op : Source.BinaryOp) (l r : TExpr) (checked : Bool) (span : Span) : Rule TExpr :=
  match op with
  | .arith op => arith op l r checked span
  | .compare op => compare op l r span
  | .and => .ok (.mk .bool (.logical true l r) span)
  | .or => .ok (.mk .bool (.logical false l r) span)

def conditional (c t e : TExpr) (span : Span) : Rule TExpr := do
  let target ← if t.ty = e.ty then pure t.ty else promote t.ty e.ty
  return .mk target (.ite c (← coerce t target) (← coerce e target)) span

/-! ## Structured values -/

/-- A float type, or the hint where it widens to that. -/
def floatPart (t : Ty) (hint : Option Ty) : Rule Ty :=
  if t.isFloat then
    match hint with
    | some h => .ok (if t.widensTo h then h else t)
    | none => .ok t
  else refuse (.complexPart t)

/-- The type of the parts of a complex number. -/
def complexPartType (re im : Ty) (hint : Option Ty) : Rule Ty := do
  let t ← promote re im
  if t.isInt then floatPart (← promote t .f32) hint else floatPart t hint

def makeComplex (re im : TExpr) (hint : Option Ty) (span : Span) : Rule TExpr := do
  let t ← complexPartType re.ty im.ty hint
  return .mk (.complex t) (.makeComplex (convertTo re t) (convertTo im t)) span

/-- The common type of elements: the hint where all widen to it, else by promotion. -/
def elementType (hint : Option Ty) (types : List Ty) : Rule Ty :=
  let promoted : Rule Ty :=
    match types with
    | [] => refuse .emptyLiteral
    | t :: ts => ts.foldlM promote t
  match hint with
  | some h => if types.all (·.widensTo h) then .ok h else promoted
  | none => promoted

/-- The elements of a literal, coerced to their common type. -/
def elements (hint : Option Ty) (es : List TExpr) : Rule (Ty × List TExpr) := do
  let t ← elementType hint (es.map TExpr.ty)
  if t.asElem?.isNone then refuse (.elementType t)
  else return (t, ← es.mapM (coerce · t))

def vector (hint : Option Ty) (es : List TExpr) (span : Span) : Rule TExpr := do
  let (t, es) ← elements hint es
  return .mk (.vector t (UInt64.ofNat es.length)) (.makeTensor es) span

def tensor (shape : Shape) (hint : Option Ty) (es : List TExpr) (span : Span) : Rule TExpr := do
  let (t, es) ← elements hint es
  return .mk (.tensor t (shape.map .fixed)) (.makeTensor es) span

def makeStruct (fields : List (String × TExpr)) (span : Span) : TExpr :=
  .mk (.struct (fields.map fun f => (f.1, f.2.ty))) (.makeStruct (fields.map (·.2))) span

def findField (decl : List (String × Ty)) (name : String) : Option (UInt32 × Ty) :=
  (decl.findIdx? (·.1 == name)).bind fun i => decl[i]?.map fun f => (UInt32.ofNat i, f.2)

def field (base : TExpr) (name : String) (span : Span) : Rule TExpr :=
  match base.ty with
  | .struct decl =>
    match findField decl name with
    | some (i, t) => .ok (.mk t (.field base i) span)
    | none => refuse (.noField name base.ty)
  | t => refuse (.fieldAccess t)

/-- The element type of an operand that takes `count` indices. -/
def indexed (base : TExpr) (count : Nat) : Rule Ty :=
  match base.ty.dims?, base.ty.element? with
  | some dims, some elem =>
    if dims.length = count then .ok elem else refuse (.indexCount count dims.length)
  | _, _ => refuse (.indexing base.ty)

def indexOperand (e : TExpr) (span : Span) : Rule TExpr :=
  if e.ty.isInt then .ok (convertTo e .i64) else refuseAt (.indexType e.ty) span

def deref (e : TExpr) (span : Span) : Rule TExpr :=
  match e.ty with
  | .reference target _ => .ok (.mk target (.deref e) span)
  | t => refuse (.dereference t)

/-! ## Intrinsics -/

/-- The hint for the operands of an intrinsic. -/
def intrinsicHint (op : Intrinsic) (hint : Option Ty) : Option Ty :=
  match op with
  | .sqrt => (hint.filter Ty.isNumeric).or (some .f64)
  | .abs => hint.filter Ty.isNumeric
  | _ => none

def dot (a b : TExpr) (span : Span) : Rule TExpr :=
  match a.ty.dims?, b.ty.dims? with
  | some da, some db => do
    if da.length ≠ 1 ∨ db.length ≠ 1 then refuse .dotRank
    else
      let _ ← mergeShapes da db
      if a.ty.element? ≠ b.ty.element? then refuse (.elementsDiffer a.ty b.ty)
      else return .mk (a.ty.element?.getD .f64) (.dot a b) span
  | _, _ => refuse (.dotOf a.ty b.ty)

def matmul (a b : TExpr) (span : Span) : Rule TExpr :=
  match a.ty, b.ty with
  | .tensor ea da, .tensor eb db =>
    if ea ≠ eb then refuse (.elementsDiffer a.ty b.ty)
    else
      match da, db with
      | [m, k], [k', n] => do
        let _ ← mergeShapes [k] [k']
        let t := Ty.tensor ea [m, n]
        validate t
        return .mk t (.matmul a b) span
      | _, _ => refuse .matmulRank
  | _, _ => refuse (.matmulOf a.ty b.ty)

/-- An intrinsic applied to as many operands as it takes. -/
def intrinsic (op : Intrinsic) (args : List TExpr) (span : Span) : Rule TExpr :=
  match op, args with
  | .sqrt, [e] =>
    if e.ty.isFloat then .ok (.mk e.ty (.sqrt e) span) else refuse (.intrinsicOperand op e.ty)
  | .abs, [e] =>
    if e.ty.isNumeric then .ok (.mk e.ty (.abs e) span) else refuse (.intrinsicOperand op e.ty)
  | .conj, [e] =>
    if e.ty.complexKind?.isSome then .ok (.mk e.ty (.conj e) span)
    else refuse (.notComplex op e.ty)
  | .re, [e] =>
    match e.ty.complexKind? with
    | some k => .ok (.mk (.ofKind k) (.part .re e) span)
    | none => refuse (.notComplex op e.ty)
  | .im, [e] =>
    match e.ty.complexKind? with
    | some k => .ok (.mk (.ofKind k) (.part .im e) span)
    | none => refuse (.notComplex op e.ty)
  | .sum, [e] =>
    match e.ty.element? with
    | some t => .ok (.mk t (.sum e) span)
    | none => refuse (.sumOf e.ty)
  | .dim axis, [e] =>
    match e.ty.dims? with
    | some dims =>
      if axis.toNat < dims.length then .ok (.mk .i64 (.dim e axis) span)
      else refuse (.axisRange axis dims.length)
    | none => refuse (.dimOf e.ty)
  | .dot, [a, b] => dot a b span
  | .matmul, [a, b] => matmul a b span
  | _, args => refuse (.intrinsicCount op args.length)

end NumericEngine.Typing
