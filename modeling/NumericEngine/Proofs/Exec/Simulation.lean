import NumericEngine.Proofs.Exec.Soundness

/-!
# Simulation

One module simulates another when their activations can be related so that
steps keep them related. Some steps of the first may have no counterpart, as
long as they get nearer to the end of their block. Related activations then have
the same outcomes, and in particular one comes to an end if the other does.
-/

namespace NumericEngine.Exec

open Ir Activation

/-- Results of steps that correspond to each other. -/
def Matches (m : Ir.Module) (R : Activation → Activation → Prop) :
    Except Fault Event → Except Fault Event → Prop
  | .error e, .error e' => e = e'
  | .ok (.next b), .ok (.next b') => R b b'
  | .ok (.done v _), .ok (.done v' _) => v = v'
  | .ok (.call b dst target args), .ok (.call b' dst' target' args') =>
    target = target' ∧ args = args' ∧ ∀ ps t v, m.signature? target = some (.function ps t) →
      v.Plain m.signature? t → ∃ c c', b.setReg dst v = .ok c ∧ b'.setReg dst' v = .ok c' ∧ R c c'
  | _, _ => False

theorem Matches.cases (h : Matches m R x x') :
    (∃ e, x = .error e ∧ x' = .error e) ∨
    (∃ b b', x = .ok (.next b) ∧ x' = .ok (.next b') ∧ R b b') ∨
    (∃ v b b', x = .ok (.done v b) ∧ x' = .ok (.done v b')) ∨
    ∃ b b' dst dst' target args, x = .ok (.call b dst target args) ∧
      x' = .ok (.call b' dst' target args) ∧
      ∀ ps t v, m.signature? target = some (.function ps t) → v.Plain m.signature? t →
        ∃ c c', b.setReg dst v = .ok c ∧ b'.setReg dst' v = .ok c' ∧ R c c' := by
  unfold Matches at h
  split at h
  · cases h
    exact .inl ⟨_, rfl, rfl⟩
  · exact .inr (.inl ⟨_, _, rfl, rfl, h⟩)
  · cases h
    exact .inr (.inr (.inl ⟨_, _, _, rfl, rfl⟩))
  · obtain ⟨rfl, rfl, hset⟩ := h
    exact .inr (.inr (.inr ⟨_, _, _, _, _, _, rfl, rfl, hset⟩))
  · exact h.elim

structure Simulation (m m' : Ir.Module) (R : Activation → Activation → Prop) : Prop where
  step : ∀ chain a a', R a a' →
    (∃ b, a.advance m chain = .ok (.next b) ∧ b.pending.length < a.pending.length ∧ R b a') ∨
      Matches m R (a.advance m chain) (a'.advance m' chain)
  start : ∀ target ps t args, m.signature? target = some (.function ps t) →
    List.Forall₂ (fun v p => v.Plain m.signature? p) args ps → ∃ f f' a a',
      m.function? target = some f ∧ Activation.new f args = .ok a ∧
      m'.function? target = some f' ∧ Activation.new f' args = .ok a' ∧ a.Sound m t ∧ R a a'

namespace Interpreter

/-- Callers in pairs, the latest of which wait for a value of type `t`. -/
def Pairs (m : Ir.Module) (R : Activation → Activation → Prop) :
    Ty → List (Activation × Reg) → List (Activation × Reg) → Prop
  | _, [], [] => True
  | t, (a, dst) :: rest, (a', dst') :: rest' => ∃ ret,
      (∀ v, v.Plain m.signature? t → ∃ c c', a.setReg dst v = .ok c ∧ a'.setReg dst' v = .ok c' ∧
        c.Sound m ret ∧ R c c') ∧ Pairs m R ret rest rest'
  | _, _, _ => False

/-- Interpreters of the two modules that stand at the same place. -/
def Linked {σ : Type} (m : Ir.Module) (R : Activation → Activation → Prop) (i i' : Interpreter σ) : Prop :=
  i'.session = i.session ∧ R i.active i'.active ∧
    ∃ ret, i.active.Sound m ret ∧ Pairs m R ret i.suspended i'.suspended

end Interpreter

namespace Simulation

open Interpreter

variable {σ : Type}

/-- The first interpreter gets ahead by a step, or both make a step with the same result. -/
theorem steps (h : Simulation m m' R) (hm : m.WellFormed) (hb : bridge.Interprets) (hi : Linked m R i i') :
    (∃ j, Interpreter.step m bridge i = some (.ok none, j) ∧
      j.active.pending.length < i.active.pending.length ∧ Linked m R j i') ∨
    ∃ r j j', Interpreter.step m bridge i = some (r, j) ∧ Interpreter.step m' bridge i' = some (r, j') ∧
      (r = .ok none → Linked m R j j') := by
  obtain ⟨a, suspended, session⟩ := i
  obtain ⟨a', suspended', session'⟩ := i'
  obtain ⟨rfl, hrel, ret, ha, hpairs⟩ := hi
  have hadv := ha.advance hm session'.chain
  rcases h.step session'.chain a a' hrel with ⟨b, hnext, hlt, hrel⟩ | hmatch
  · rw [hnext] at hadv
    exact .inl ⟨_, step_next hnext, hlt, rfl, hrel, ret, hadv, hpairs⟩
  refine .inr ?_
  rcases hmatch.cases with ⟨e, hx, hx'⟩ | ⟨b, b', hx, hx', hrel⟩ | ⟨v, b, b', hx, hx'⟩ |
    ⟨b, b', dst, dst', target, args, hx, hx', hset⟩ <;> rw [hx] at hadv
  · exact ⟨.error e, _, _, by rw [step_apply, hx], by rw [step_apply, hx'], nofun⟩
  · exact ⟨.ok none, _, _, step_next hx, step_next hx', fun _ => ⟨rfl, hrel, ret, hadv, hpairs⟩⟩
  · match suspended, suspended', hpairs with
    | [], [], _ => exact ⟨.ok (some v), _, _, step_done_nil hx rfl, step_done_nil hx' rfl, nofun⟩
    | (c, dst) :: rest, (c', dst') :: rest', ⟨ret', hresume, hrest⟩ =>
      obtain ⟨d, d', hd, hd', hsound, hrel⟩ := hresume v hadv
      have hstep : Interpreter.step m bridge ⟨a, (c, dst) :: rest, session'⟩ = _ := step_done_cons hx rfl
      have hstep' : Interpreter.step m' bridge ⟨a', (c', dst') :: rest', session'⟩ = _ := step_done_cons hx' rfl
      rw [hd] at hstep
      rw [hd'] at hstep'
      exact ⟨.ok none, _, _, hstep, hstep', fun _ => ⟨rfl, hrel, ret', hsound, hrest⟩⟩
  · obtain ⟨ps, t, hsig, hargs, hwaits⟩ := hadv
    obtain ⟨f, f', c, c', hf, hnew, hf', hnew', hsound, hrel⟩ := h.start target ps t args hsig hargs
    rw [step_apply, step_apply, hx, hx']
    dsimp only
    rw [call_of_interprets hb hf hnew, call_of_interprets hb hf' hnew']
    cases session'.chain.checkAbort >>= fun _ => session'.chain.enter with
    | error e => exact ⟨.error e, _, _, rfl, rfl, nofun⟩
    | ok chain =>
      refine ⟨.ok none, _, _, rfl, rfl, fun _ => ⟨rfl, hrel, t, hsound, ret, fun v hv => ?_, hpairs⟩⟩
      obtain ⟨d, d', hd, hd', hrel⟩ := hset ps t v hsig hv
      obtain ⟨_, hd₂, hsound⟩ := hwaits.resume v hv
      cases hd.symm.trans hd₂
      exact ⟨d, d', hd, hd', hsound, hrel⟩

theorem forward (h : Simulation m m' R) (hm : m.WellFormed) (hb : bridge.Interprets) (hi : Linked m R i i')
    (hr : Run.iterate (Interpreter.step m bridge) n i = some (r, j)) :
    ∃ k j', Run.iterate (Interpreter.step m' bridge) k i' = some (r, j') := by
  induction n generalizing i i' with
  | zero => cases hr
  | succ n ih =>
    rcases h.steps hm hb hi with ⟨i₁, hstep, -, hi₁⟩ | ⟨r', i₁, i₁', hstep, hstep', hi₁⟩ <;>
      rw [Run.iterate, hstep] at hr
    · exact ih hi₁ hr
    rcases r' with e | _ | v
    · cases hr
      exact ⟨1, i₁', by rw [Run.iterate, hstep']⟩
    · obtain ⟨k, j', hk⟩ := ih (hi₁ rfl) hr
      exact ⟨k + 1, j', by rw [Run.iterate, hstep']; exact hk⟩
    · cases hr
      exact ⟨1, i₁', by rw [Run.iterate, hstep']⟩

theorem backward (h : Simulation m m' R) (hm : m.WellFormed) (hb : bridge.Interprets) (hi : Linked m R i i')
    (hr : Run.iterate (Interpreter.step m' bridge) n i' = some (r, j')) :
    ∃ k j, Run.iterate (Interpreter.step m bridge) k i = some (r, j) := by
  -- steps without a counterpart use none of the steps on the right, but shorten the block on the left
  induction n generalizing i i' with
  | zero => cases hr
  | succ n ih =>
    induction hlen : i.active.pending.length using Nat.strongRecOn generalizing i with
    | ind len ihlen =>
    rcases h.steps hm hb hi with ⟨i₁, hstep, hlt, hi₁⟩ | ⟨r', i₁, i₁', hstep, hstep', hi₁⟩
    · obtain ⟨k, j, hk⟩ := ihlen _ (hlen ▸ hlt) hi₁ rfl
      exact ⟨k + 1, j, by rw [Run.iterate, hstep]; exact hk⟩
    rw [Run.iterate, hstep'] at hr
    rcases r' with e | _ | v
    · cases hr
      exact ⟨1, i₁, by rw [Run.iterate, hstep]⟩
    · obtain ⟨k, j, hk⟩ := ih (hi₁ rfl) hr
      exact ⟨k + 1, j, by rw [Run.iterate, hstep]; exact hk⟩
    · cases hr
      exact ⟨1, i₁, by rw [Run.iterate, hstep]⟩

end Simulation

end NumericEngine.Exec
