import NumericEngine.Code.Native
import NumericEngine.Exec.Chain

/-!
# Runs of a program

A run changes a state and gives a value or a fault; a fault keeps the state
reached so far. A program may go on for ever, so a run also may not finish
within the steps it is allowed.
-/

namespace NumericEngine

/-- No result at all means that the allowed steps did not suffice. -/
abbrev Run (σ : Type) := ExceptT Fault (StateT σ Option)

namespace Run

variable {σ τ α : Type}

/-- A result that does not touch the state. -/
def outcome (x : Except Fault α) : Run σ α := fun s => some (x, s)

def defect (d : Defect) : Run σ α := throw (.internal d)

/-- The value of an option, or a fault. -/
def need (x : Option α) (f : Fault) : Run σ α :=
  match x with
  | some a => pure a
  | none => throw f

def unfinished : Run σ α := fun _ => none

/-- A run on a part of the state. -/
def zoom (part : σ → τ) (update : τ → σ → σ) (x : Run τ α) : Run σ α := fun s =>
  match x (part s) with
  | none => none
  | some (r, t) => some (r, update t s)

/-- Repeats a step until it gives a value, `limit` times at most. -/
def iterate (step : Run σ (Option α)) : (limit : Nat) → Run σ α
  | 0, _ => none
  | n + 1, s =>
    match step s with
    | none => none
    | some (.error e, s') => some (.error e, s')
    | some (.ok (some a), s') => some (.ok a, s')
    | some (.ok none, s') => iterate step n s'

end Run

/-- A call chain, and the state of the host that its calls go through. -/
structure Session (σ : Type) where
  chain : Chain
  host : σ
  deriving Inhabited

namespace Session

variable {σ : Type}

def onChain (f : Chain → Except Fault Chain) : Run (Session σ) Unit := fun s =>
  match f s.chain with
  | .ok chain => some (.ok (), { s with chain })
  | .error e => some (.error e, s)

def leave : Run (Session σ) Unit := onChain fun c => .ok c.leave

def checkAbort : Run (Session σ) Unit := fun s => some (s.chain.checkAbort, s)

/-- Leaves so many frames. -/
def leaveAll (n : Nat) (s : Session σ) : Session σ :=
  n.repeat (fun s => { s with chain := s.chain.leave }) s

end Session

/-- Where calls go that an executor does not run itself. -/
structure Bridge (σ : Type) where
  /-- Whether a function runs interpreted, so that an interpreted caller runs it itself. -/
  runsInterpreted : FuncId → Run (Session σ) Bool
  /-- The code of a function that runs natively. -/
  native? : FuncId → Run (Session σ) (Option Code.Native)
  call : FuncId → List Value → Run (Session σ) Value

end NumericEngine
