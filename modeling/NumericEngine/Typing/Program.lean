import NumericEngine.Typing.Check

/-!
# Checking programs

Signatures first, then every body against all signatures.
-/

namespace NumericEngine.Typing

open Source (Param Function Program)

def checkParam (p : Param) : Rule Unit :=
  match validate p.ty with
  | .error e => .error (e.locate p.span)
  | .ok () => if p.ty.holdsReference then refuseAt .referenceParameter p.span else .ok ()

def checkSignature (id : FuncId) (f : Function) : Rule Signature := do
  f.params.forM checkParam
  match validate f.ret with
  | .error e => .error (e.locate f.span)
  | .ok () =>
    if f.ret.holdsReference then refuseAt .referenceResult f.span
    else return { id, name := f.name, params := f.params.map (·.ty), ret := f.ret }

/-- The signatures of functions with ids from `n` on, after those in `acc`. -/
def signaturesFrom (n : Nat) (acc : List Signature) : List Function → Rule (List Signature)
  | [] => .ok acc
  | f :: fs => do
    let s ← checkSignature ⟨UInt32.ofNat n⟩ f
    if acc.any (·.name == f.name) then refuseAt (.duplicateFunction f.name) f.span
    else signaturesFrom (n + 1) (acc ++ [s]) fs

def signatures (p : Program) : Rule (List Signature) := signaturesFrom 0 [] p.functions

def Env.new (functions : List Signature) (ret : Ty) : Env := { functions, ret }

/-- Binds parameters, which may be assigned to. -/
def bindParams : List Param → Check (List LocalId)
  | [] => return []
  | p :: ps => do
    let x ← Check.bind p.name p.ty true
    let xs ← bindParams ps
    return x :: xs

def checkBody (f : Function) : Check (List LocalId × List TStmt) := do
  let params ← bindParams f.params
  let body ← checkStmts f.body
  return (params, body)

def checkFunction (sigs : List Signature) (f : Function) : Rule TFunction :=
  match sigs.find? (·.name == f.name) with
  | none => refuse (.unknownFunction f.name)
  | some s =>
    match checkBody f (Env.new sigs f.ret) with
    | (.error e, _) => .error e
    | (.ok (params, body), env) =>
      .ok { id := s.id, name := f.name, params, ret := f.ret, locals := env.locals, body,
            span := f.span }

def checkProgram (p : Program) : Rule (List TFunction) := do
  let sigs ← signatures p
  p.functions.mapM (checkFunction sigs)

end NumericEngine.Typing
