import NumericEngine.Proofs.Exec.Advance

/-!
# How a step can go

A step of the interpreter is a step of the active function, followed by the call
or the return that it asks for. `Called` and `Stepped` list the ways in which
that can end; whatever holds of all steps is proved along them.
-/

namespace NumericEngine

/-- A bridge under which every function is run by its interpreted caller. -/
def Bridge.Interprets {σ : Type} (b : Bridge σ) : Prop :=
  ∀ f s, b.runsInterpreted f s = some (.ok true, s)

namespace Exec.Interpreter

open Activation

variable {σ : Type} {m : Ir.Module} {bridge : Bridge σ} {i : Interpreter σ}

/-- So many steps that do not end the run. -/
def StepsTo (m : Ir.Module) (bridge : Bridge σ) : Nat → Interpreter σ → Interpreter σ → Prop
  | 0, i, j => i = j
  | n + 1, i, k => ∃ j, step m bridge i = some (.ok none, j) ∧ StepsTo m bridge n j k

/-! ## Calls -/

/-- The ways in which a call can go, from the interpreter whose active function makes it. -/
inductive Called (m : Ir.Module) (bridge : Bridge σ) (dst : Reg) (target : FuncId) (args : List Value)
    (i : Interpreter σ) : Except Fault Unit → Interpreter σ → Prop where
  | aborted {e : Fault} (h : i.session.chain.checkAbort = .error e) :
    Called m bridge dst target args i (.error e) i
  | undecided {e : Fault} {s : Session σ}
    (hmode : bridge.runsInterpreted target i.session = some (.error e, s)) :
    Called m bridge dst target args i (.error e) { i with session := s }
  | unknown {s : Session σ} (hmode : bridge.runsInterpreted target i.session = some (.ok true, s))
    (hf : m.function? target = none) :
    Called m bridge dst target args i (.error (.unknownFunction target)) { i with session := s }
  | tooDeep {e : Fault} {s : Session σ}
    (hmode : bridge.runsInterpreted target i.session = some (.ok true, s))
    (henter : s.chain.enter = .error e) : Called m bridge dst target args i (.error e) { i with session := s }
  /-- The chain has been entered when the arguments turn out to be too many or too few. -/
  | unbound {e : Fault} {s : Session σ} {f : Ir.Function} {chain : Chain}
    (hmode : bridge.runsInterpreted target i.session = some (.ok true, s))
    (hf : m.function? target = some f) (henter : s.chain.enter = .ok chain)
    (hnew : Activation.new f args = .error e) :
    Called m bridge dst target args i (.error e) { i with session := { s with chain } }
  | started {s : Session σ} {f : Ir.Function} {chain : Chain} {a : Activation}
    (hmode : bridge.runsInterpreted target i.session = some (.ok true, s))
    (hf : m.function? target = some f) (henter : s.chain.enter = .ok chain)
    (hnew : Activation.new f args = .ok a) : Called m bridge dst target args i (.ok ())
      { active := a, suspended := (i.active, dst) :: i.suspended, session := { s with chain } }
  | failed {e : Fault} {s s' : Session σ}
    (hmode : bridge.runsInterpreted target i.session = some (.ok false, s))
    (hcall : bridge.call target args s = some (.error e, s')) :
    Called m bridge dst target args i (.error e) { i with session := s' }
  | unset {e : Fault} {s s' : Session σ} {v : Value}
    (hmode : bridge.runsInterpreted target i.session = some (.ok false, s))
    (hcall : bridge.call target args s = some (.ok v, s')) (hset : i.active.setReg dst v = .error e) :
    Called m bridge dst target args i (.error e) { i with session := s' }
  | answered {s s' : Session σ} {v : Value} {a : Activation}
    (hmode : bridge.runsInterpreted target i.session = some (.ok false, s))
    (hcall : bridge.call target args s = some (.ok v, s')) (hset : i.active.setReg dst v = .ok a) :
    Called m bridge dst target args i (.ok ()) { i with active := a, session := s' }

theorem outside_eq_some (h : outside x i = some (r, j)) :
    ∃ session, x i.session = some (r, session) ∧ j = { i with session } := by
  unfold outside Run.zoom at h
  split at h
  · cases h
  · rename_i hx
    cases h
    exact ⟨_, hx, rfl⟩

theorem call_cases (h : call m bridge dst target args i = some (r, j)) :
    Called m bridge dst target args i r j := by
  rcases Run.bind_eq_some h with ⟨e, hx, rfl⟩ | ⟨⟨⟩, _, hx, h⟩ <;>
    obtain ⟨habort, rfl⟩ := Prod.mk.inj (Option.some.inj hx)
  · exact .aborted habort
  rcases Run.bind_eq_some h with ⟨e, hx, rfl⟩ | ⟨interpreted, _, hx, h⟩ <;>
    obtain ⟨s, hmode, rfl⟩ := outside_eq_some hx
  · exact .undecided hmode
  cases interpreted with
  | true =>
    rw [if_pos rfl] at h
    cases hf : m.function? target with
    | none =>
      rw [hf] at h
      cases h
      exact .unknown hmode hf
    | some f =>
      rw [hf] at h
      simp only [Run.need, Run.bind_apply, Run.pure_apply, outside, Run.zoom, Session.onChain,
        Run.outcome_apply] at h
      cases henter : s.chain.enter with
      | error e =>
        simp only [henter] at h
        cases h
        exact .tooDeep hmode henter
      | ok chain =>
        simp only [henter] at h
        cases hnew : Activation.new f args with
        | error e =>
          simp only [hnew] at h
          cases h
          exact .unbound hmode hf henter hnew
        | ok a =>
          simp only [hnew] at h
          cases h
          exact .started hmode hf henter hnew
  | false =>
    rw [if_neg (by decide)] at h
    rcases Run.bind_eq_some h with ⟨e, hx, rfl⟩ | ⟨v, _, hx, h⟩ <;>
      obtain ⟨s', hcall, rfl⟩ := outside_eq_some hx
    · exact .failed hmode hcall
    rw [Interpreter.setReg, update_apply] at h
    split at h
    · rename_i a hset
      cases h
      exact .answered hmode hcall hset
    · rename_i e hset
      cases h
      exact .unset hmode hcall hset

/-- A function that its caller runs itself is started, as far as the chain allows. -/
theorem call_of_interprets (hb : bridge.Interprets)
    (hf : m.function? target = some f) (hnew : Activation.new f args = .ok a) :
    call m bridge dst target args i = match i.session.chain.checkAbort >>= fun _ => i.session.chain.enter with
      | .error e => some (.error e, i)
      | .ok chain => some (.ok (),
          { active := a, suspended := (i.active, dst) :: i.suspended
            session := { i.session with chain } }) := by
  simp only [call, outside, Run.zoom, Session.checkAbort, Run.bind_apply, hb target, hf, Run.need]
  cases i.session.chain.checkAbort with
  | error e => rfl
  | ok =>
    simp only [if_true, Except.ok_bind, Run.bind_apply, Run.pure_apply, Run.zoom, Session.onChain]
    cases i.session.chain.enter <;> simp [push, hnew]

/-! ## Steps -/

/-- The ways in which a step can go. -/
inductive Stepped (m : Ir.Module) (bridge : Bridge σ) (i : Interpreter σ) :
    Except Fault (Option Value) → Interpreter σ → Prop where
  | failed {e : Fault} (h : i.active.advance m i.session.chain = .error e) :
    Stepped m bridge i (.error e) { i with active := i.active.rest }
  | next {a : Activation} (h : i.active.advance m i.session.chain = .ok (.next a)) :
    Stepped m bridge i (.ok none) { i with active := a }
  | refused {e : Fault} {a : Activation} {dst : Reg} {target : FuncId} {args : List Value} {j : Interpreter σ}
    (h : i.active.advance m i.session.chain = .ok (.call a dst target args))
    (hcall : Called m bridge dst target args { i with active := a } (.error e) j) :
    Stepped m bridge i (.error e) j
  | called {a : Activation} {dst : Reg} {target : FuncId} {args : List Value} {j : Interpreter σ}
    (h : i.active.advance m i.session.chain = .ok (.call a dst target args))
    (hcall : Called m bridge dst target args { i with active := a } (.ok ()) j) :
    Stepped m bridge i (.ok none) j
  | ended {v : Value} {a : Activation} (h : i.active.advance m i.session.chain = .ok (.done v a))
    (hs : i.suspended = []) : Stepped m bridge i (.ok (some v)) { i with active := a }
  | unset {e : Fault} {v : Value} {a caller : Activation} {dst : Reg} {rest : List (Activation × Reg)}
    (h : i.active.advance m i.session.chain = .ok (.done v a)) (hs : i.suspended = (caller, dst) :: rest)
    (hset : caller.setReg dst v = .error e) : Stepped m bridge i (.error e)
      { active := caller, suspended := rest, session := { i.session with chain := i.session.chain.leave } }
  | returned {v : Value} {a b caller : Activation} {dst : Reg} {rest : List (Activation × Reg)}
    (h : i.active.advance m i.session.chain = .ok (.done v a)) (hs : i.suspended = (caller, dst) :: rest)
    (hset : caller.setReg dst v = .ok b) : Stepped m bridge i (.ok none)
      { active := b, suspended := rest, session := { i.session with chain := i.session.chain.leave } }

theorem step_next (h : i.active.advance m i.session.chain = .ok (.next a)) :
    step m bridge i = some (.ok none, { i with active := a }) := by
  rw [step_apply, h]

theorem step_done_nil (h : i.active.advance m i.session.chain = .ok (.done v b)) (hs : i.suspended = []) :
    step m bridge i = some (.ok (some v), { i with active := b }) := by
  rw [step_apply, h]
  simp [giveBack, Run.bind_apply, hs]

theorem step_done_cons {rest : List (Activation × Reg)}
    (h : i.active.advance m i.session.chain = .ok (.done v b)) (hs : i.suspended = (caller, dst) :: rest) :
    step m bridge i = match caller.setReg dst v with
      | .ok active => some (.ok none,
          { active, suspended := rest,
            session := { i.session with chain := i.session.chain.leave } })
      | .error e => some (.error e,
          { active := caller, suspended := rest,
            session := { i.session with chain := i.session.chain.leave } }) := by
  rw [step_apply, h]
  simp only [giveBack, Run.bind_apply, Run.get_apply, hs, Run.modify_apply, outside, Run.zoom,
    Session.leave, Session.onChain, Interpreter.setReg, update_apply, Activation.setReg]
  cases caller.frame.set dst v <;> rfl

theorem step_cases (h : step m bridge i = some (r, j)) : Stepped m bridge i r j := by
  cases heq : i.active.advance m i.session.chain with
  | error e =>
    rw [step_apply, heq] at h
    cases h
    exact .failed heq
  | ok event =>
    cases event with
    | next a =>
      rw [step_next heq] at h
      cases h
      exact .next heq
    | call a dst target args =>
      rw [step_apply, heq] at h
      dsimp only at h
      split at h
      · cases h
      · rename_i hcall
        cases h
        exact .refused heq (call_cases hcall)
      · rename_i hcall
        cases h
        exact .called heq (call_cases hcall)
    | done v a =>
      cases hs : i.suspended with
      | nil =>
        rw [step_done_nil heq hs] at h
        cases h
        exact .ended heq hs
      | cons caller rest =>
        rw [step_done_cons heq hs] at h
        split at h
        · rename_i b hset
          cases h
          exact .returned heq hs hset
        · rename_i e hset
          cases h
          exact .unset heq hs hset

theorem run_of_new (ha : Activation.new g args = .ok a) (limit : Nat)
    (session : Session σ) : run m bridge limit g args session =
      (Run.iterate (step m bridge) limit ⟨a, [], session⟩).map fun r =>
        (r.1, r.2.session.leaveAll r.2.suspended.length) := by
  unfold run
  simp only [ha, Run.bind_apply, Run.outcome_apply]
  cases Run.iterate (step m bridge) limit ⟨a, [], session⟩ <;> rfl

theorem run_cases {session : Session σ} (h : run m bridge limit g args session = some (r, s)) :
    (∃ e, Activation.new g args = .error e ∧ r = .error e ∧ s = session) ∨
      ∃ a i, Activation.new g args = .ok a ∧ Run.iterate (step m bridge) limit ⟨a, [], session⟩ = some (r, i) ∧
        s = i.session.leaveAll i.suspended.length := by
  cases ha : Activation.new g args with
  | error e =>
    simp only [run, ha, Run.bind_apply, Run.outcome_apply] at h
    cases h
    exact .inl ⟨e, rfl, rfl, rfl⟩
  | ok a =>
    rw [run_of_new ha] at h
    obtain ⟨⟨r', i⟩, hi, heq⟩ := Option.map_eq_some_iff.1 h
    cases heq
    exact .inr ⟨a, i, rfl, hi, rfl⟩

end Exec.Interpreter

end NumericEngine
