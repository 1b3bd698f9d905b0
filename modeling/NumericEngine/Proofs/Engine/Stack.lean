import NumericEngine.Proofs.Engine.Results
import NumericEngine.Proofs.Exec.Polling
import NumericEngine.Proofs.Machine.Stack

/-!
# The native stack holds every chain

Interpreters and the engine never lack room for a frame themselves, and machines
do not as long as the chain lets in no more functions than their stack has room
for.
-/

namespace NumericEngine

open Exec

variable {σ α : Type}

/-! ## The interpreter -/

theorem Exec.Activation.roomy_advance {a : Activation} : Except.Roomy (a.advance m chain) := by
  refine advance_fails.mono fun e he => ?_
  rcases he with he | ⟨habort, -⟩
  · exact Fault.isOverflow_of_isOwn he
  · exact chain.roomy_checkAbort e habort

namespace Exec.Interpreter

variable {H : σ → Prop}

theorem Called.tame (hb : bridge.Tame H)
    (h : Called m bridge dst target args i r j) (hi : i.session.Meets H) :
    j.session.Meets H ∧ Except.Roomy r := by
  have hmode (r s) := hb.runsInterpreted target i.session r s hi
  have hcalled (s hs r s') := hb.call target args s r s' hs
  cases h with
  | aborted habort => exact ⟨hi, .error (Chain.roomy_checkAbort _ _ habort)⟩
  | undecided h => exact ⟨(hmode _ _ h).1, .error ((hmode _ _ h).2 _ rfl)⟩
  | unknown h _ => exact ⟨(hmode _ _ h).1, .error rfl⟩
  | tooDeep h henter => exact ⟨(hmode _ _ h).1, .error (roomy_of_calm Chain.calm_enter _ henter)⟩
  | unbound h _ henter hnew =>
    exact ⟨((hmode _ _ h).1.enter henter).1, .error (roomy_of_calm calm_new _ hnew)⟩
  | started h _ henter _ => exact ⟨((hmode _ _ h).1.enter henter).1, .ok ()⟩
  | failed h hcall =>
    obtain ⟨hmeets, hroomy⟩ := hcalled _ (hmode _ _ h).1 _ _ hcall
    exact ⟨hmeets, .error (hroomy _ rfl)⟩
  | unset h hcall hset =>
    exact ⟨(hcalled _ (hmode _ _ h).1 _ _ hcall).1, .error (roomy_of_calm calm_setReg _ hset)⟩
  | answered h hcall _ => exact ⟨(hcalled _ (hmode _ _ h).1 _ _ hcall).1, .ok ()⟩

theorem step_tame (hb : bridge.Tame H) (hstep : step m bridge i = some (r, j))
    (hi : i.session.Meets H) : j.session.Meets H ∧ Except.Roomy r := by
  cases step_cases hstep with
  | failed h => exact ⟨hi, .error (Activation.roomy_advance _ h)⟩
  | next | ended | returned => exact ⟨hi, .ok _⟩
  | refused _ hcall =>
    obtain ⟨hmeets, hroomy⟩ := hcall.tame hb hi
    exact ⟨hmeets, .error (hroomy _ rfl)⟩
  | called _ hcall => exact ⟨(hcall.tame hb hi).1, .ok _⟩
  | unset _ _ hset => exact ⟨hi, .error (roomy_of_calm calm_setReg _ hset)⟩

theorem run_tame (hb : bridge.Tame H) (limit : Nat) (g : Ir.Function) (args : List Value) :
    Run.Tame H (run m bridge limit g args) := by
  intro s r s' hs h
  rcases run_cases h with ⟨e, hnew, rfl, rfl⟩ | ⟨a, i, -, hi, rfl⟩
  · exact ⟨hs, .error (roomy_of_calm calm_new _ hnew)⟩
  · obtain ⟨j, hj, hlast⟩ := Run.iterate_last (I := fun i => i.session.Meets H)
      (fun _ _ hi hstep => (step_tame hb hstep hi).1) hs hi
    obtain ⟨hmeets, hroomy⟩ := step_tame hb hlast hj
    exact ⟨hmeets.leaveAll _, fun f hf => hroomy f (congrArg (Except.map some) hf)⟩

end Exec.Interpreter

/-! ## Engines -/

namespace Run.Tame

theorem of_total {f : Session σ → Except Fault α} {g : Session σ → Session σ} (hx : ∀ s, x s = some (f s, g s))
    (hg : ∀ s, s.Meets H → (g s).Meets H) (hf : ∀ s, Except.Roomy (f s)) : Run.Tame H x := by
  intro s r s' hs h
  rw [hx] at h
  cases h
  exact ⟨hg s hs, hf s⟩

theorem bind (hx : Run.Tame H x) (hk : ∀ a, Run.Tame H (k a)) : Run.Tame H (x >>= k) := by
  intro s r s' hs h
  rcases Run.bind_eq_some h with ⟨e, hxs, rfl⟩ | ⟨a, t, hxs, hka⟩
  · obtain ⟨hmeets, hroomy⟩ := hx s _ s' hs hxs
    exact ⟨hmeets, .error (hroomy e rfl)⟩
  · exact hk a t r s' (hx s _ t hs hxs).1 hka

theorem need (x : Option α) {f : Fault} (hf : f.isOverflow = false) : Run.Tame H (Run.need x f) := by
  cases x with
  | some a => exact of_total (fun _ => rfl) (fun _ h => h) fun _ => .ok a
  | none => exact of_total (fun _ => rfl) (fun _ h => h) fun _ => .error hf

end Run.Tame

namespace Engine

variable {e : Engine}

theorem onExecutor_tame {H : σ → Prop}
    (hbody : ∀ s r s', s.Meets H → 0 < s.chain.depth → body s = some (r, s') → s'.Meets H ∧ Except.Roomy r) :
    Run.Tame H (onExecutor body) := by
  refine .bind (.of_total (fun _ => rfl) (fun _ h => h) fun s => s.chain.roomy_checkAbort) fun _ => ?_
  intro s r s' hs h
  rw [Run.bind_apply] at h
  cases hchain : s.chain.enter with
  | error f =>
    simp only [Session.onChain, hchain] at h
    cases h
    exact ⟨hs, .error (roomy_of_calm Chain.calm_enter f hchain)⟩
  | ok c =>
    obtain ⟨hmeets, hdepth, -⟩ := hs.enter hchain
    simp only [Session.onChain, hchain] at h
    cases hexecutor : c.enterExecutor with
    | error f =>
      simp only [hexecutor] at h
      unfold Chain.enterExecutor at hexecutor
      split at hexecutor
      · cases hexecutor
        cases h
        exact ⟨hmeets, .error rfl⟩
      · cases hexecutor
    | ok c' =>
      simp only [hexecutor] at h
      unfold Chain.enterExecutor at hexecutor
      split at hexecutor
      · cases hexecutor
      · cases hexecutor
        split at h
        · cases h
        · rename_i hx
          cases h
          have hdone := fun hmeets hdepth => hbody _ _ _ hmeets hdepth hx
          exact hdone hmeets (by dsimp only; omega)

theorem modeOf_tame (f : FuncId) : Run.Tame e.Holds (e.modeOf f) := by
  intro s r s' hs h
  unfold modeOf at h
  split at h
  · cases h
    exact ⟨⟨hs.1.resolve ‹_›, hs.2⟩, .ok _⟩
  · rename_i fault hresolve
    cases h
    refine ⟨hs, .error ?_⟩
    rcases Except.bind_eq_error.1 hresolve with h | ⟨known, -, h⟩
    · unfold ModeTable.resolved at h
      split at h <;> cases h
      rfl
    · cases known with
      | some => cases h
      | none =>
        rcases Except.bind_eq_error.1 h with h | ⟨_, -, h⟩
        · unfold Engine.decide at h
          split at h
          · cases h
          · split at h
            · cases h
            · split at h <;> cases h
              rfl
        · cases h

theorem framed_of_native (h : e.unit.native e.options.target f = .ok code) : code.Framed := by
  unfold CompiledUnit.native at h
  split at h
  · cases h
  · split at h
    · cases h
      exact Code.Native.framed_of_ofFunction ‹_›
    · cases h

theorem bridge_tame {call : FuncId → List Value → Chained Value}
    (hcall : ∀ f args, Run.Tame e.Holds (call f args))
    (hbalanced : ∀ f args, (call f args).Balanced fun _ => True) : (e.bridge call).Tame e.Holds where
  runsInterpreted f := .bind (modeOf_tame f) fun _ => .of_total (fun _ => rfl) (fun _ h => h) fun _ => .ok _
  native? f := .bind (modeOf_tame f) fun mode => by
    cases mode with
    | native | interpreted | unresolved => exact .of_total (fun _ => rfl) (fun _ h => h) fun _ => .ok _
  call := hcall
  framed f s n s' hs h := by
    obtain ⟨mode, t, -, h⟩ := Run.bind_eq_ok h
    cases mode with
    | native =>
      obtain ⟨hcode, rfl⟩ := Prod.mk.inj (Option.some.inj h)
      exact framed_of_native (hs f n (Except.ok.inj hcode))
    | interpreted | unresolved => cases h
  balanced := bridge_balanced hbalanced

theorem runWith_tame {bridge : Bridge ModeTable} (hb : bridge.Tame e.Holds) {s : Session ModeTable}
    (hs : s.Meets e.Holds) (hdepth : 0 < s.chain.depth)
    (h : e.runWith bridge limit f args s = some (r, s')) : s'.Meets e.Holds ∧ Except.Roomy r := by
  rcases Run.bind_eq_some h with ⟨fault, hmode, rfl⟩ | ⟨mode, t, hmode, hrun⟩
  · obtain ⟨hmeets, hroomy⟩ := modeOf_tame f s _ s' hs hmode
    exact ⟨hmeets, .error (hroomy _ rfl)⟩
  · have ht := (modeOf_tame f s _ t hs hmode).1
    obtain ⟨u, -, rfl⟩ := modeOf_eq_ok hmode
    cases mode with
    | native =>
      cases hcode : u.code? f with
      | none =>
        simp only [Run.bind_apply, Run.get_apply, hcode, Run.need] at hrun
        cases hrun
        exact ⟨ht, .error rfl⟩
      | some code =>
        simp only [Run.bind_apply, Run.get_apply, hcode, Run.need, Run.pure_apply, runNative] at hrun
        split at hrun
        · cases hrun
        · rename_i hinvoke
          cases hrun
          refine Machine.Fresh.invoke hb ?_ hinvoke
          exact ⟨ht, framed_of_native (ht.1 f code hcode), rfl, Array.size_replicate, rfl, hdepth⟩
    | interpreted | unresolved =>
      exact Run.Tame.bind (.need _ rfl) (fun g => Interpreter.run_tame hb limit g args) _ _ _ ht hrun

theorem enter_tame (limit levels : Nat) (f : FuncId) (args : List Value) :
    Run.Tame e.Holds (e.enter limit levels f args) := by
  induction levels generalizing f args with
  | zero => exact fun s r s' _ h => nomatch h
  | succ levels ih =>
    exact onExecutor_tame fun s r s' hs hdepth h =>
      runWith_tame (bridge_tame ih fun f args => enter_balanced (fun _ _ _ _ _ => trivial) limit levels f args)
        hs hdepth h

theorem roomy_checkArgs : Except.Roomy (checkArgs f i ps vs) := by
  fun_induction checkArgs f i ps vs with
  | case1 | case2 => exact .error rfl
  | case3 => assumption
  | case4 => exact .ok ()

theorem roomy_checkArguments (f : FuncId) (args : List Value) : Except.Roomy (e.checkArguments f args) := by
  unfold checkArguments
  split
  · exact .error rfl
  · split
    · exact .error rfl
    · exact roomy_checkArgs

/-- No invocation lacks room for a frame as long as chains are no deeper than by default, whatever
functions of the unit have been lowered. On every machine that is started for one of them, the stack
holds the frames of the functions that run, and nothing else. -/
theorem native_stack_suffices (hdepth : e.options.maxDepth ≤ Chain.defaultMaxDepth) (limit : Nat) :
    (∀ t, e.Holds t → ∀ f args aborted r u, e.invoke limit f args aborted t = some (r, u) →
      ∀ used, r ≠ .error (.nativeStack used)) ∧
    ∀ levels f code, e.unit.native e.options.target f = .ok code → ∀ session : Session ModeTable,
      e.Holds session.host → 0 < session.chain.depth → session.chain.maxDepth ≤ Chain.defaultMaxDepth →
      ∀ args ret s, Machine.prepare args
      { code, memory := .new MachineMemory.stackLimit MachineMemory.heapLimit, session } =
          some (.ok ret, s) →
        ∃ s₀, Machine.pushFrame s.code.frameSize s = some (.ok (), s₀) ∧
          ∀ n s', Machine.StepsTo e.unit.module (e.bridge (e.enter limit levels)) n s₀ s' →
            s'.memory.stack.used = s'.liveBytes ∧ s'.liveBytes ≤ MachineMemory.stackLimit ∧
            ∀ fault s'', Machine.step e.unit.module (e.bridge (e.enter limit levels)) s' =
            some (.error fault, s'') →
              ∀ used, fault ≠ .nativeStack used := by
  refine ⟨fun t ht f args aborted r u h used hr => ?_, ?_⟩
  · have hroomy : Except.Roomy r := by
      rcases Run.bind_eq_some h with ⟨fault, hcheck, rfl⟩ | ⟨_, t', hcheck, h⟩
      · exact .error (roomy_checkArguments f args fault (Prod.mk.inj (Option.some.inj hcheck)).1)
      · obtain ⟨-, rfl⟩ := Prod.mk.inj (Option.some.inj hcheck)
        dsimp only at h
        split at h
        · cases h
        · rename_i henter
          cases h
          have hmeets : Session.Meets e.Holds ⟨{ maxDepth := e.options.maxDepth, aborted }, t⟩ := ⟨ht, hdepth⟩
          exact (enter_tame limit Engine.levels f args _ _ _ hmeets henter).2
    cases hroomy _ hr
  · intro levels f code hcode session hhost hpos hmax args ret s hprepare
    have hb := bridge_tame (e := e) (enter_tame limit levels) fun f args =>
      enter_balanced (fun _ _ _ _ _ => trivial) limit levels f args
    have hstart : Machine.Fresh e.Holds
        { code, memory := .new MachineMemory.stackLimit MachineMemory.heapLimit, session } :=
      ⟨⟨hhost, hmax⟩, framed_of_native hcode, rfl, Array.size_replicate, rfl, hpos⟩
    obtain ⟨s₀, hpush, hs₀⟩ := (hstart.reaches hb (Machine.performs_prepare args _ _ _ hprepare)).push
    refine ⟨s₀, hpush, fun n s' hsteps => ?_⟩
    have hs' := hs₀.steps hb hsteps
    refine ⟨congrArg (·.2.2) hs'.stack, hs'.bounds.2.2, fun fault s'' hstep used hfault => ?_⟩
    have hproceeds := hs'.step hb hstep
    cases hfault ▸ hproceeds.2

/-- An engine whose chains are three frames deep, for a unit with a function that calls itself. -/
def shallow : Engine := ⟨⟨callbackCode, default⟩, { maxDepth := 3 }⟩

/-- A machine about to run code of that engine. -/
def begun (code : Code.Native) : Machine ModeTable where
  code
  memory := .new MachineMemory.stackLimit MachineMemory.heapLimit
  session := ⟨{ maxDepth := 3, depth := 1 }, shallow.newTable⟩

theorem native_stack_suffices_shallow : ∃ r u code ret s s₀,
    shallow.invoke 40 ⟨2⟩ [.ofScalar .i64 3] false shallow.newTable = some (r, u) ∧
    (∀ used, r ≠ .error (.nativeStack used)) ∧ shallow.unit.native shallow.options.target ⟨2⟩ = .ok code ∧
    Machine.prepare [.ofScalar .i64 3] (begun code) = some (.ok ret, s) ∧
    Machine.pushFrame s.code.frameSize s = some (.ok (), s₀) ∧ s₀.memory.stack.used = s₀.liveBytes := by
  obtain ⟨hinvoke, hstack⟩ := native_stack_suffices (e := shallow) (by decide) 40
  have hnew : shallow.Holds shallow.newTable := Reached.new.holds
  have hdone : (shallow.invoke 40 ⟨2⟩ [.ofScalar .i64 3] false shallow.newTable).isSome =
    true := by decide +kernel
  have hprepared : (shallow.unit.native shallow.options.target ⟨2⟩).toOption.any (fun code =>
      (Machine.prepare [.ofScalar .i64 3] (begun code)).any fun p => p.1.isOk) = true := by decide +kernel
  obtain ⟨⟨r, u⟩, hr⟩ := Option.isSome_iff_exists.1 hdone
  obtain ⟨code, hcode, hprepare⟩ := (Option.any_eq_true _ _).1 hprepared
  obtain ⟨⟨o, s⟩, hs, ho⟩ := (Option.any_eq_true _ _).1 hprepare
  obtain ⟨ret, rfl⟩ : ∃ ret, o = .ok ret := by
    cases o with
    | error => cases ho
    | ok ret => exact ⟨ret, rfl⟩
  have hcode := Except.toOption_eq_some hcode
  obtain ⟨s₀, hpush, hrun⟩ := hstack 0 ⟨2⟩ code hcode _ hnew (by decide) (by decide) _ ret s hs
  exact ⟨r, u, code, ret, s, s₀, hr, hinvoke _ hnew _ _ _ r u hr, hcode, hs, hpush, (hrun 0 s₀ rfl).1⟩

end Engine

end NumericEngine
