import NumericEngine.Typing.Env

/-!
# Type checking

Types flow both ways. Most expressions synthesise a type from their operands;
an expected type flows down as a hint into literals and conditionals. An
operand that is a literal takes the type of the other operand, which is
therefore checked first.
-/

namespace NumericEngine.Typing

open Check
open Source (Span Expr ExprNode Stmt StmtNode)

mutual
/-- The literal that an expression is, signs included. -/
def literal? : ExprNode → Option Literal
  | .int v => some (.int v.toNat)
  | .float w => some (.float w)
  | .unary .neg e _ => (literalExpr? e).map Literal.neg
  | _ => none
def literalExpr? : Expr → Option Literal
  | .mk node _ => literal? node
end

/-- The value of a name: a binding, or else a function. -/
def synthVar (name : String) (span : Span) : Check TExpr := do
  let env ← get
  match env.lookup? name with
  | some _ =>
    let (x, l) ← lookup name
    return .mk l.ty (.var x) span
  | none =>
    match env.function? name with
    | some s => return .mk s.ty (.funcRef s.id) span
    | none => refuse (.unknownSymbol name)

/-- What a call reaches: a binding that holds a function, or a function of the program. -/
structure Callee where
  params : List Ty
  ret : Ty
  /-- The called expression, unless the function is known. -/
  target : FuncId ⊕ TExpr

def synthCallee (name : String) (span : Span) : Check Callee := do
  let env ← get
  match env.lookup? name with
  | some _ =>
    let (x, l) ← lookup name
    match l.ty with
    | .function params ret => return { params, ret, target := .inr (.mk l.ty (.var x) span) }
    | t => refuse (.notCallable name t)
  | none =>
    match env.function? name with
    | some s => return { params := s.params, ret := s.ret, target := .inl s.id }
    | none => refuse (.unknownFunction name)

def Callee.apply (c : Callee) (args : List TExpr) (span : Span) : TExpr :=
  match c.target with
  | .inl f => .mk c.ret (.call f args) span
  | .inr callee => .mk c.ret (.callIndirect callee args) span

def synthRef (name : String) (mutable : Bool) (span : Span) : Check TExpr := do
  let (x, l) ← lookup name
  if mutable && !l.mutable then refuse (.mutableReference name)
  else if l.ty.holdsReference then refuse .nestedReference
  else
    modify (·.takeAddress x)
    return .mk (.reference l.ty (if mutable then .mutable else .shared)) (.ref x) span

/-- The declared fields of a hint for a struct literal of `count` fields. -/
def fieldHints (hint : Option Ty) (count : Nat) : List (String × Ty) :=
  match hint with
  | some (.struct decl) => if decl.length = count then decl else []
  | _ => []

/-- The hint of a field, when the declared field in its place has its name. -/
def fieldHint (hints : List (String × Ty)) (name : String) : Option Ty :=
  match hints with
  | (n, t) :: _ => if n = name then some t else none
  | [] => none

mutual
/-- The typed form of an expression; a hint settles what its literals are. -/
def synth : Expr → Option Ty → Check TExpr
  | .mk node span, hint =>
    located span <|
      match literal? node with
      | some lit => do
        let v ← rule (lit.value hint)
        return .const v span
      | none => synthNode node hint span
def synthNode : ExprNode → Option Ty → Span → Check TExpr
  | .int v, hint, span => do
    let v ← rule ((Literal.int v.toNat).value hint)
    return .const v span
  | .float w, hint, span => do
    let v ← rule ((Literal.float w).value hint)
    return .const v span
  | .bool b, _, span => return .const (.ofBool b) span
  | .var name, _, span => synthVar name span
  | .binary .and lhs rhs _, _, span => do
    let l ← synth lhs (some .bool)
    let l ← rule (requireBool l lhs.span)
    let r ← synth rhs (some .bool)
    let r ← rule (requireBool r rhs.span)
    return .mk .bool (.logical true l r) span
  | .binary .or lhs rhs _, _, span => do
    let l ← synth lhs (some .bool)
    let l ← rule (requireBool l lhs.span)
    let r ← synth rhs (some .bool)
    let r ← rule (requireBool r rhs.span)
    return .mk .bool (.logical false l r) span
  | .binary op lhs rhs checked, hint, span => do
    let hint := binaryHint op hint
    if (literalExpr? lhs).isSome && (literalExpr? rhs).isNone then
      let r ← synth rhs hint
      let l ← synth lhs (some (operandHint r.ty))
      rule (binary op l r checked span)
    else
      let l ← synth lhs hint
      let r ← synth rhs (some (operandHint l.ty))
      rule (binary op l r checked span)
  | .unary op operand checked, hint, span => do
    let e ← synth operand hint
    rule (unary op e checked span)
  | .call callee args, _, span => do
    let c ← synthCallee callee span
    if c.params.length ≠ args.length then
      refuse (.argumentCount callee c.params.length args.length)
    else
      let args ← synthArgs args c.params
      return c.apply args span
  | .ite cond thenExpr elseExpr, hint, span => do
    let c ← synth cond (some .bool)
    let c ← rule (requireBool c cond.span)
    let t ← synth thenExpr hint
    let e ← synth elseExpr (some (hint.getD t.ty))
    rule (conditional c t e span)
  | .cast operand ty, _, span => do
    rule (validate ty)
    let e ← synth operand none
    rule (cast e ty span)
  | .complex re im, hint, span => do
    let component := (hint.bind Ty.complexKind?).map Ty.ofKind
    let r ← synth re component
    let i ← synth im component
    rule (makeComplex r i component span)
  | .vector elems, hint, span => do
    let hint := hint.bind Ty.element?
    let es ← synthEach elems hint
    rule (vector hint es span)
  | .tensor shape elems, hint, span => do
    if shape.count ≠ elems.length then refuse (.literalCount shape elems.length)
    else
      let hint := hint.bind Ty.element?
      let es ← synthEach elems hint
      rule (tensor shape hint es span)
  | .struct fields, hint, span => do
    let fs ← synthFields fields (fieldHints hint fields.length) []
    return makeStruct fs span
  | .field base name, _, span => do
    let b ← synth base none
    rule (field b name span)
  | .index base indices, _, span => do
    let b ← synth base none
    let t ← rule (indexed b indices.length)
    let is ← synthIndices indices
    return .mk t (.index b is) span
  | .intrinsic op args, hint, span => do
    if args.length ≠ op.arity then refuse (.intrinsicCount op args.length)
    else
      let es ← synthEach args (intrinsicHint op hint)
      rule (intrinsic op es span)
  | .ref name mutable, _, span => synthRef name mutable span
  | .deref operand, _, span => do
    let e ← synth operand none
    rule (deref e span)
def synthEach : List Expr → Option Ty → Check (List TExpr)
  | [], _ => return []
  | e :: es, hint => do
    let e ← synth e hint
    let es ← synthEach es hint
    return e :: es
/-- Arguments, each coerced to its parameter's type. -/
def synthArgs : List Expr → List Ty → Check (List TExpr)
  | e :: es, t :: ts => do
    let e ← synth e (some t)
    let e ← rule (coerce e t)
    let es ← synthArgs es ts
    return e :: es
  | _, _ => return []
def synthIndices : List Expr → Check (List TExpr)
  | [] => return []
  | e :: es => do
    let i ← synth e (some .i64)
    let i ← rule (indexOperand i e.span)
    let is ← synthIndices es
    return i :: is
/-- The fields of a struct literal, given the declared fields from here on and the names before. -/
def synthFields : List (String × Expr) → List (String × Ty) → List String →
    Check (List (String × TExpr))
  | [], _, _ => return []
  | (name, e) :: rest, hints, seen => do
    if seen.contains name then refuse (.duplicateField name)
    else
      let hint := fieldHint hints name
      let v ← synth e hint
      let v ← match hint with
        | some t => rule (coerce v t)
        | none => pure v
      if v.ty.holdsReference then rule (refuseAt .referenceField e.span)
      else
        let vs ← synthFields rest hints.tail (name :: seen)
        return (name, v) :: vs
end

/-- A value for a position of a given type. -/
def synthAs (e : Expr) (t : Ty) : Check TExpr := do
  let v ← synth e (some t)
  rule (coerce v t)

def checkBool (e : Expr) : Check TExpr := do
  let v ← synth e (some .bool)
  rule (requireBool v e.span)

/-- A binding that may be assigned to. -/
def mutableLocal (name : String) : Check (LocalId × Local) := do
  let (x, l) ← lookup name
  if l.mutable then return (x, l) else refuse (.immutable name)

def checkLet (name : String) (ty : Option Ty) (mutable : Bool) (value : Expr) : Check TStmtNode :=
  match ty with
  | some t => do
    rule (validate t)
    let v ← synthAs value t
    let x ← bind name v.ty mutable
    return .letBinding x v
  | none => do
    let v ← synth value none
    let x ← bind name v.ty mutable
    return .letBinding x v

def checkAssign (name : String) (value : Expr) : Check TStmtNode := do
  let (x, l) ← mutableLocal name
  let v ← synthAs value l.ty
  return .assign x v

def checkAssignField (name field : String) (value : Expr) : Check TStmtNode := do
  let (x, l) ← mutableLocal name
  match l.ty with
  | .struct decl =>
    match findField decl field with
    | some (i, t) =>
      let v ← synthAs value t
      return .assignField x i v
    | none => refuse (.noFieldOf field name)
  | _ => refuse (.notAStruct name)

def checkStore (target value : Expr) : Check TStmtNode := do
  let t ← synth target none
  match t.ty with
  | .reference inner .mutable =>
    let v ← synthAs value inner
    return .store t v
  | ty => refuse (.storeThrough ty)

def checkReturn (value : Option Expr) : Check TStmtNode := do
  let ret := (← get).ret
  match value with
  | some e =>
    let v ← synthAs e ret
    return .return v
  | none =>
    if ret.isUnit then return .return (.mk .unit (.makeStruct []) {}) else refuse (.bareReturn ret)

/-- A statement that leaves the body of a loop. -/
def checkJump (node : TStmtNode) : Check TStmtNode := do
  if (← get).loopDepth = 0 then refuse .outsideLoop else return node

mutual
def checkStmt : Stmt → Check TStmt
  | .mk node span => do
    let n ← located span (checkNode node)
    return .mk n span
def checkNode : StmtNode → Check TStmtNode
  | .letBinding name ty mutable value => checkLet name ty mutable value
  | .assign name value => checkAssign name value
  | .assignField name field value => checkAssignField name field value
  | .store target value => checkStore target value
  | .ite cond thenBody elseBody => do
    let c ← checkBool cond
    let t ← inScope (checkStmts thenBody)
    let e ← inScope (checkStmts elseBody)
    return .ite c t e
  | .while cond body => do
    let c ← checkBool cond
    let b ← inLoop (inScope (checkStmts body))
    return .while c b
  | .break => checkJump .break
  | .continue => checkJump .continue
  | .return value => checkReturn value
  | .expr value => do
    let v ← synth value none
    return .expr v
def checkStmts : List Stmt → Check (List TStmt)
  | [] => return []
  | s :: ss => do
    let s ← checkStmt s
    let ss ← checkStmts ss
    return s :: ss
end

end NumericEngine.Typing
