import NumericEngine.Typing.Rules

/-!
# Typing environments

The names in scope while one function body is checked. Bindings are only ever
added to the list of locals; scopes come and go. A check that fails keeps the
environment reached so far.
-/

namespace NumericEngine.Typing

open Source (Span)

structure Signature where
  id : FuncId
  name : String
  params : List Ty
  ret : Ty
  deriving DecidableEq, Inhabited

def Signature.ty (s : Signature) : Ty := .function s.params s.ret

structure Env where
  functions : List Signature := []
  /-- Names in scope, innermost scope first, latest binding first. -/
  scopes : List (List (String × LocalId)) := [[]]
  locals : Array Local := #[]
  ret : Ty := .unit
  loopDepth : Nat := 0
  deriving Inhabited

namespace Env

def lookup? (env : Env) (name : String) : Option LocalId :=
  env.scopes.findSome? fun scope => scope.lookup name

def local? (env : Env) (x : LocalId) : Option Local := env.locals[x.index.toNat]?

def function? (env : Env) (name : String) : Option Signature :=
  env.functions.find? (·.name == name)

def bind (env : Env) (name : String) (ty : Ty) (mutable : Bool) : LocalId × Env :=
  let x : LocalId := ⟨UInt32.ofNat env.locals.size⟩
  let scopes := match env.scopes with
    | [] => []
    | scope :: outer => ((name, x) :: scope) :: outer
  (x, { env with locals := env.locals.push { name, ty, mutable }, scopes })

def pushScope (env : Env) : Env := { env with scopes := [] :: env.scopes }

def popScope (env : Env) : Env := { env with scopes := env.scopes.tail }

def takeAddress (env : Env) (x : LocalId) : Env :=
  { env with locals := env.locals.modify x.index.toNat fun l => { l with addressTaken := true } }

end Env

/-- A check over the environment. An error keeps the environment reached so far. -/
abbrev Check := ExceptT TypeError (StateM Env)

namespace Check

variable {α : Type}

def rule (r : Rule α) : Check α := fun env => (r, env)

def refuse (fault : TypeFault) : Check α := throw { fault }

/-- Places an error that has no place yet. -/
def located (span : Span) (x : Check α) : Check α := fun env =>
  match x env with
  | (.error e, env') => (.error (e.locate span), env')
  | r => r

/-- Runs a check in a scope of its own, which is closed also when the check fails. -/
def inScope (x : Check α) : Check α := fun env =>
  let (r, env') := x env.pushScope
  (r, env'.popScope)

def inLoop (x : Check α) : Check α := fun env =>
  let (r, env') := x { env with loopDepth := env.loopDepth + 1 }
  (r, { env' with loopDepth := env'.loopDepth - 1 })

def bind (name : String) (ty : Ty) (mutable : Bool) : Check LocalId := fun env =>
  let (x, env') := env.bind name ty mutable
  (.ok x, env')

def lookup (name : String) : Check (LocalId × Local) := fun env =>
  match env.lookup? name with
  | some x =>
    match env.local? x with
    | some l => (.ok (x, l), env)
    | none => (.error { fault := .unknownSymbol name }, env)
  | none => (.error { fault := .unknownSymbol name }, env)

end Check

end NumericEngine.Typing
