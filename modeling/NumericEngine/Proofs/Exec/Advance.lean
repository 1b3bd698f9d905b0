import NumericEngine.Exec.Interpreter
import NumericEngine.Proofs.Effects

/-!
# One step of an activation

A step of the interpreter looks at the active function and the chain only, up
to the point where a call leaves or a result goes back. `advance` says what a
step makes of an activation; the step of the interpreter is that, followed by
the call or the return it asks for.
-/

namespace NumericEngine

open NumericEngine.Except (bind_eq_ok ok_bind)

/-- Right-hand sides that are evaluated from their frame alone. -/
def Ir.Rhs.isLocal : Ir.Rhs → Bool
  | call .. | callIndirect .. | phi _ => false
  | _ => true

namespace Exec

open Ir (Instr Terminator)

/-- What becomes of an activation in one step that does not fail. -/
inductive Event where
  | next (a : Activation)
  /-- A call, from an activation that waits for the result in `dst`. -/
  | call (a : Activation) (dst : Reg) (target : FuncId) (args : List Value)
  /-- A result, and the activation as it is left. -/
  | done (v : Value) (a : Activation)

namespace Activation

variable {a : Activation} {m : Ir.Module}

/-- The activation past its next instruction. -/
def rest (a : Activation) : Activation := { a with pending := a.pending.tail }

theorem rest_of_nil (h : a.pending = []) : a.rest = a := by
  cases a
  cases h
  rfl

theorem rest_of_cons {pending : List Instr}
    (h : a.pending = x :: pending) : a.rest = { a with pending } := by
  simp [rest, h]

/-- The activation with a register written. -/
def setReg (a : Activation) (r : Reg) (v : Value) : Except Fault Activation := do
  return { a with frame := ← a.frame.set r v }

def advanceInstr (m : Ir.Module) (a : Activation) : Instr → Except Fault Event
  | .define _ (.phi _) => .ok (.next a.rest)
  | .define dst (.call target args) => do
    return .call a.rest dst target (← args.mapM a.frame.get)
  | .define dst (.callIndirect callee args) => do
    let v ← a.frame.get callee
    let target ← Value.expect v.functionId? .notAFunction
    return .call a.rest dst target (← args.mapM a.frame.get)
  | i => do return .next { a.rest with frame := ← execInstr m a.func a.frame i }

theorem advanceInstr_local {rhs : Ir.Rhs}
    (h : rhs.isLocal = true) : a.advanceInstr m (.define dst rhs) = do
      let v ← eval m a.func a.frame dst rhs
      let frame ← a.frame.set dst v
      return .next { a.rest with frame } := by
  have hexec : a.advanceInstr m (.define dst rhs) = do
      return .next { a.rest with frame := ← execInstr m a.func a.frame (.define dst rhs) } := by
    cases rhs <;> first | rfl | cases h
  rw [hexec, execInstr]
  cases eval m a.func a.frame dst rhs <;> rfl

def advanceEnd (a : Activation) (chain : Chain) : Terminator → Except Fault Event
  | .jump target => do return .next (← a.transfer target chain)
  | .branch cond thenBlock elseBlock => do
    let b ← (← a.frame.get cond).asBool
    return .next (← a.transfer (if b then thenBlock else elseBlock) chain)
  | .ret r => do
    let (v, frame) ← a.frame.take r
    return .done v { a with frame }

/-- One step of an activation. -/
def advance (m : Ir.Module) (chain : Chain) (a : Activation) : Except Fault Event :=
  match a.pending with
  | i :: _ => a.advanceInstr m i
  | [] =>
    match a.terminator with
    | some t => a.advanceEnd chain t
    | none => .error (.internal (.missingBlock a.block))

theorem advance_cons {rest : List Instr}
    (h : a.pending = i :: rest) (chain : Chain) : a.advance m chain = a.advanceInstr m i := by
  simp only [advance, h]

theorem advance_nil (h : a.pending = [])
    (ht : a.terminator = some t) (chain : Chain) : a.advance m chain = a.advanceEnd chain t := by
  simp only [advance, h, ht]

theorem advanceEnd_ne_call {a : Activation} : a.advanceEnd chain t ≠ .ok (.call b dst target args) := by
  intro h
  cases t with
  | jump target =>
    obtain ⟨_, _, h⟩ := bind_eq_ok.1 h
    cases h
  | branch cond thenBlock elseBlock =>
    obtain ⟨_, _, h⟩ := bind_eq_ok.1 h
    obtain ⟨_, _, h⟩ := bind_eq_ok.1 h
    obtain ⟨_, _, h⟩ := bind_eq_ok.1 h
    cases h
  | ret r =>
    obtain ⟨_, _, h⟩ := bind_eq_ok.1 h
    cases h

theorem advanceInstr_ne_done {a : Activation} : a.advanceInstr m x ≠ .ok (.done v b) := by
  intro h
  unfold advanceInstr at h
  split at h
  · cases h
  · obtain ⟨_, _, h⟩ := bind_eq_ok.1 h
    cases h
  · obtain ⟨_, _, h⟩ := bind_eq_ok.1 h
    obtain ⟨_, _, h⟩ := bind_eq_ok.1 h
    obtain ⟨_, _, h⟩ := bind_eq_ok.1 h
    cases h
  · obtain ⟨_, _, h⟩ := bind_eq_ok.1 h
    cases h

end Activation

/-! ## The step of the interpreter -/

namespace Interpreter

open Activation

variable {σ : Type} {i : Interpreter σ}

theorem update_apply (f : Activation → Except Fault Activation) (i : Interpreter σ) :
    update f i = match f i.active with
      | .ok active => some (.ok (), { i with active })
      | .error e => some (.error e, i) := rfl

/-- An instruction, taken from the activation `a` whose rest is active. -/
theorem instr_apply (x : Instr) {a : Activation} (ha : a.rest = i.active) :
    instr m bridge x i = match a.advanceInstr m x with
      | .error e => some (.error e, i)
      | .ok (.next a) => some (.ok (), { i with active := a })
      | .ok (.call a dst target args) => call m bridge dst target args { i with active := a }
      | .ok (.done _ a) => some (.ok (), { i with active := a }) := by
  obtain ⟨active, suspended, session⟩ := i
  subst ha
  have hframe : a.rest.frame = a.frame := rfl
  have hfunc : a.rest.func = a.func := rfl
  unfold instr
  cases x with
  | store addr value =>
    simp only [Run.bind_apply, Run.get_apply, update_apply, advanceInstr, hframe, hfunc]
    cases execInstr m a.func a.frame (.store addr value) <;> rfl
  | define dst rhs =>
    cases rhs
    case phi => rfl
    case call target args =>
      simp only [Run.bind_apply, Run.get_apply, Run.outcome_apply, advanceInstr, hframe]
      cases List.mapM a.frame.get args <;> rfl
    case callIndirect callee args =>
      simp only [Run.bind_apply, Run.get_apply, Run.outcome_apply, advanceInstr, hframe]
      cases a.frame.get callee with
      | error e => rfl
      | ok v =>
        cases hv : v.functionId? with
        | none => simp [Run.need, hv, Value.expect]
        | some t =>
          simp only [Run.need, hv, Value.expect, ok_bind, Run.pure_apply]
          cases List.mapM a.frame.get args <;> rfl
    all_goals
      simp only [Run.bind_apply, Run.get_apply, update_apply, advanceInstr, hframe, hfunc]
      generalize execInstr m a.func a.frame _ = x
      cases x <;> rfl

theorem goTo_apply (target : BlockId) (i : Interpreter σ) :
    goTo target i = match i.active.transfer target i.session.chain with
      | .ok active => some (.ok (), { i with active })
      | .error e => some (.error e, i) := rfl

theorem terminator_apply (t : Terminator) :
    terminator t i = match i.active.advanceEnd i.session.chain t with
      | .error e => some (.error e, i)
      | .ok (.next a) | .ok (.call a _ _ _) => some (.ok none, { i with active := a })
      | .ok (.done v a) => giveBack v { i with active := a } := by
  unfold terminator
  cases t with
  | jump target =>
    simp only [Run.bind_apply, goTo_apply, advanceEnd]
    cases i.active.transfer target i.session.chain <;> rfl
  | branch cond thenBlock elseBlock =>
    simp only [Run.bind_apply, Run.get_apply, Run.outcome_apply, advanceEnd]
    cases i.active.frame.get cond with
    | error e => rfl
    | ok v =>
      simp only [ok_bind]
      cases v.asBool with
      | error e => rfl
      | ok b =>
        simp only [ok_bind, goTo_apply]
        cases i.active.transfer (if b then thenBlock else elseBlock) i.session.chain <;> rfl
  | ret r =>
    simp only [Run.bind_apply, Run.get_apply, Run.outcome_apply, advanceEnd]
    cases i.active.frame.take r with
    | error e => rfl
    | ok p => rfl

/-- A step is what `advance` says, and the call or the return that it asks for. -/
theorem step_apply : step m bridge i =
    match i.active.advance m i.session.chain with
    | .error e => some (.error e, { i with active := i.active.rest })
    | .ok (.next a) => some (.ok none, { i with active := a })
    | .ok (.call a dst target args) =>
      match call m bridge dst target args { i with active := a } with
      | none => none
      | some (.error e, i') => some (.error e, i')
      | some (.ok _, i') => some (.ok none, i')
    | .ok (.done v a) => giveBack v { i with active := a } := by
  unfold step
  simp only [Run.bind_apply, Run.get_apply]
  cases hp : i.active.pending with
  | nil =>
    have hrest := rest_of_nil hp
    cases ht : i.active.terminator with
    | none => simp [advance, hp, ht, hrest]
    | some t =>
      simp only [terminator_apply, advance, hp, ht, hrest]
      cases hr : i.active.advanceEnd i.session.chain t with
      | error e => rfl
      | ok event =>
        cases event with
        | next a => rfl
        | call => exact absurd hr advanceEnd_ne_call
        | done v a => rfl
  | cons x pending =>
    have hrest := rest_of_cons hp
    simp only [update_apply, Run.bind_apply, advance, hp]
    rw [instr_apply x hrest]
    cases hr : i.active.advanceInstr m x with
    | error e => simp [hrest]
    | ok event =>
      cases event with
      | next a => rfl
      | call a dst target args =>
        simp only [Run.pure_apply]
        rcases call m bridge dst target args { i with active := a } with _ | ⟨_ | _, _⟩ <;> rfl
      | done v a => exact absurd hr advanceInstr_ne_done

end Interpreter

end Exec

end NumericEngine
