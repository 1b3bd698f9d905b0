import NumericEngine.Proofs.Compile.Runs
import NumericEngine.Proofs.Machine.Safety

/-!
# Chains are balanced

Every frame that a run enters on its chain is left again, also when the run
fails: what was entered and not left stands on the executor's own stack, which
is drained at the end. There is one exception. The interpreter enters a callee
before it binds the arguments, so a function value that names a function with
another number of parameters leaves the chain one frame too deep.
-/

namespace NumericEngine

variable {σ α : Type}

/-- The chain stands so many frames above another, on the same executor. -/
structure Chain.Above (base : Chain) (n : Nat) (c : Chain) : Prop where
  depth : c.depth = base.depth + n
  switches : c.switches = base.switches

namespace Chain

variable {base c : Chain} {n k : Nat}

theorem Above.refl (c : Chain) : c.Above 0 c := ⟨rfl, rfl⟩

theorem Above.trans (h : base.Above n c) (h' : c.Above k c') : base.Above (n + k) c' :=
  ⟨by rw [h'.depth, h.depth, Nat.add_assoc], h'.switches.trans h.switches⟩

theorem Above.leave (h : base.Above (n + 1) c) : base.Above n c.leave :=
  ⟨by show c.depth - 1 = _; rw [h.depth]; omega, h.switches⟩

theorem Above.leaves (h : base.Above (n + k) c) : base.Above k (n.repeat Chain.leave c) := by
  induction n generalizing k with
  | zero => rwa [Nat.zero_add] at h
  | succ n ih => exact (ih (k := k + 1) (by rwa [Nat.add_assoc, Nat.add_comm 1 k] at h)).leave

theorem above_of_enter (h : c.enter = .ok c') : c.Above 1 c' := by
  unfold enter at h
  split at h
  · cases h
  · cases h
    exact ⟨rfl, rfl⟩

/-- What is left of a chain on a new executor when the executor is left, and the frame below it. -/
theorem above_leaveExecutor (h : base.Above 1 c) (hc : c.enterExecutor = .ok c') (hd : c'.Above n d) :
    base.Above n d.leaveExecutor.leave := by
  unfold enterExecutor at hc
  split at hc
  · cases hc
  · cases hc
    obtain ⟨hdepth, hswitches⟩ := hd
    have hbase := h.depth
    exact ⟨by show d.depth - 1 = _; simp only at hdepth; omega,
      by show d.switches - 1 = _; rw [hswitches]; exact h.switches⟩

end Chain

open Chain (Above)

namespace Run

variable {x : Run (Session σ) α} {leaks : Fault → Prop} {r : Except Fault α}

/-- A run ends in a state with `P`, or it fails as `Q` allows. -/
def Lands (P : σ → Prop) (Q : Fault → σ → Prop) (s : σ) : Except Fault α → Prop
  | .ok _ => P s
  | .error f => P s ∨ Q f s

/-- From a state with `P`, a run comes to one with `P`, or it fails as `Q` allows. -/
def Ensures (P : σ → Prop) (Q : Fault → σ → Prop) (x : Run σ α) : Prop :=
  ∀ s r s', P s → x s = some (r, s') → Lands P Q s' r

variable {P : σ → Prop} {Q : Fault → σ → Prop}

theorem Lands.of_state (hs : P s) (r : Except Fault α) : Lands P Q s r := by
  cases r with
  | ok a => exact hs
  | error f => exact .inl hs

theorem Lands.imp {P' : τ → Prop} {Q' : Fault → τ → Prop} (h : Lands P Q s r)
    (hP : P s → P' t) (hQ : ∀ f, Q f s → Q' f t) : Lands P' Q' t r := by
  cases r with
  | ok a => exact hP h
  | error f => exact Or.imp hP (hQ f) h

theorem Lands.state (h : Lands P Q s r) (hQ : ∀ f, ¬ Q f s) : P s := by
  cases r with
  | ok a => exact h
  | error f => exact Or.resolve_right h (hQ f)

theorem Ensures.of_total {x : Run σ α} {f : σ → Except Fault α} {g : σ → σ} (hx : ∀ s, x s = some (f s, g s))
    (hg : ∀ s, P s → P (g s)) : Ensures P Q x := by
  intro s r s' hs h
  rw [hx] at h
  cases h
  exact .of_state (hg s hs) _

theorem Ensures.bind {x : Run σ α} (hx : Ensures P Q x) (hk : ∀ a, Ensures P Q (k a)) :
    Ensures P Q (x >>= k) := by
  intro s r s' hs h
  rcases bind_eq_some h with ⟨e, hxs, rfl⟩ | ⟨a, t, hxs, hka⟩
  · exact hx s _ s' hs hxs
  · exact hk a t r s' (hx s _ t hs hxs) hka

theorem ensures_iterate {I : σ → Prop} (hI : ∀ s s', I s → step s = some (.ok none, s') → I s')
    (hstep : ∀ s r s', I s → P s → step s = some (r, s') → Lands P Q s' r)
    (hs : I s) (hP : P s) (h : Run.iterate step n s = some (r, s')) : Lands P Q s' r := by
  obtain ⟨t, ⟨ht, hP⟩, hlast⟩ := iterate_last (I := fun s => I s ∧ P s)
    (fun s s' hs hx => ⟨hI s s' hs.1 hx, hstep s _ s' hs.1 hs.2 hx⟩) ⟨hs, hP⟩ h
  have hlands := hstep t _ s' ht hP hlast
  cases r <;> exact hlands

/-- The chain stands so many frames above another. -/
abbrev Stands (base : Chain) (n : Nat) (s : Session σ) : Prop := Above base n s.chain

/-- A run of a session after which its chain stands where it did, or one frame deeper after a failure
that is allowed. -/
def Balanced (leaks : Fault → Prop) (x : Run (Session σ) α) : Prop :=
  ∀ s r s', x s = some (r, s') → Lands (Stands s.chain 0) (fun f s' => leaks f ∧ Stands s.chain 1 s') s' r

theorem Balanced.mono (hx : Balanced leaks x) (h : ∀ f, leaks f → leaks' f) : Balanced leaks' x :=
  fun s r s' hxs => (hx s r s' hxs).imp id fun f hleak => hleak.imp_left (h f)

theorem Balanced.ensures (hx : Balanced leaks x) (base : Chain)
    (n : Nat) : Ensures (Stands base n) (fun f s => leaks f ∧ Stands base (n + 1) s) x :=
  fun s r s' hs h => (hx s r s' h).imp (fun habove => Above.trans (k := 0) hs habove) fun _ hleak =>
    hleak.imp_right hs.trans

theorem Balanced.bind
    (hx : Balanced leaks x) (hk : ∀ a, Balanced leaks (k a)) : Balanced leaks (x >>= k) :=
  fun s r s' h => Ensures.bind (hx.ensures s.chain 0) (fun a => (hk a).ensures s.chain 0) s r s' (.refl _) h

theorem Balanced.of_total {f : Session σ → Except Fault α}
    {g : Session σ → Session σ} (hx : ∀ s, x s = some (f s, g s)) (hg : ∀ s, (g s).chain = s.chain) :
    Balanced leaks x :=
  fun s r s' h => Ensures.of_total hx (fun t ht => by rw [Stands, hg]; exact ht) s r s' (.refl _) h

theorem Balanced.need (x : Option α) (f : Fault) : Balanced (σ := σ) leaks (Run.need x f) := by
  cases x <;> exact .of_total (fun _ => rfl) fun _ => rfl

end Run

open Run (Balanced Lands Ensures Stands)

/-- All that goes over the bridge is balanced. -/
structure Bridge.Balanced (leaks : Fault → Prop) (b : Bridge σ) : Prop where
  runsInterpreted : ∀ f, Run.Balanced leaks (b.runsInterpreted f)
  native? : ∀ f, Run.Balanced leaks (b.native? f)
  call : ∀ f args, Run.Balanced leaks (b.call f args)

/-- The bridge leaves the chain as it was. -/
abbrev Bridge.Restores (b : Bridge σ) : Prop := b.Balanced fun _ => False

theorem Bridge.Balanced.mono {b : Bridge σ} (hb : b.Balanced leaks)
    (h : ∀ f, leaks f → leaks' f) : b.Balanced leaks' where
  runsInterpreted f := (hb.runsInterpreted f).mono h
  native? f := (hb.native? f).mono h
  call f args := (hb.call f args).mono h

/-- A bridge under which every function is interpreted. -/
def Bridge.interpreting : Bridge Unit where
  runsInterpreted _ := pure true
  native? _ := pure none
  call f _ := throw (.unknownFunction f)

theorem Bridge.restores_interpreting : interpreting.Restores where
  runsInterpreted _ := .of_total (fun _ => rfl) fun _ => rfl
  native? _ := .of_total (fun _ => rfl) fun _ => rfl
  call _ _ := .of_total (fun _ => rfl) fun _ => rfl

theorem Session.chain_leaveAll (n : Nat) (s : Session σ) :
    s.leaveAll n = { s with chain := n.repeat Chain.leave s.chain } := by
  induction n with
  | zero => rfl
  | succ n ih =>
    have hsucc : s.leaveAll (n + 1) = { s.leaveAll n with chain := (s.leaveAll n).chain.leave } := rfl
    rw [hsucc, ih]
    rfl

theorem Session.stands_leaveAll {s : Session σ} (h : Above base (n + k) s.chain) :
    Stands base k (s.leaveAll n) := by
  rw [Stands, chain_leaveAll]
  exact h.leaves

/-! ## The interpreter -/

namespace Exec.Interpreter

variable {leaks : Fault → Prop} {base : Chain} {m : Ir.Module} {bridge : Bridge σ}
  {args : List Value}

/-- The chain counts the suspended callers. -/
def Counts (base : Chain) (i : Interpreter σ) : Prop := Above base i.suspended.length i.session.chain

/-- The chain counts one frame that no caller waits for. -/
def Exceeds (leaks : Fault → Prop) (base : Chain) (f : Fault) (i : Interpreter σ) : Prop :=
  leaks f ∧ Above base (i.suspended.length + 1) i.session.chain

/-- The failures with which the function that the interpreter calls next does not start. -/
def Rejects (m : Ir.Module) (i : Interpreter σ) (f : Fault) : Prop :=
  ∃ a dst target args g, i.active.advance m i.session.chain = .ok (.call a dst target args) ∧
    m.function? target = some g ∧ Activation.new g args = .error f

section

variable (hb : bridge.Balanced leaks)
include hb

theorem Called.counts (h : Called m bridge dst target args i r j) (hi : Counts base i)
    (hnew : ∀ g, m.function? target = some g → ∀ f, Activation.new g args = .error f → leaks f) :
    Lands (Counts base) (Exceeds leaks base) j r := by
  have hmode (r s) := (hb.runsInterpreted target).ensures base i.suspended.length i.session r s hi
  have hcalled (s hs r s') := (hb.call target args).ensures base i.suspended.length s r s' hs
  cases h with
  | aborted => exact .inl hi
  | undecided h => exact hmode _ _ h
  | unknown h _ | tooDeep h _ => exact .inl (hmode _ _ h)
  | unbound h hf henter hfault =>
    -- the callee is on the chain and no caller waits for it
    exact .inr ⟨hnew _ hf _ hfault, (hmode _ _ h).trans (Chain.above_of_enter henter)⟩
  | started h _ henter _ => exact (hmode _ _ h).trans (Chain.above_of_enter henter)
  | failed h hcall => exact hcalled _ (hmode _ _ h) _ _ hcall
  | unset h hcall _ => exact .inl (hcalled _ (hmode _ _ h) _ _ hcall)
  | answered h hcall _ => exact hcalled _ (hmode _ _ h) _ _ hcall

theorem step_counts {i : Interpreter σ}
    (hnew : ∀ f, i.Rejects m f → leaks f) (hi : Counts base i) (hstep : step m bridge i = some (r, i')) :
    Lands (Counts base) (Exceeds leaks base) i' r := by
  have hback {p rest} (hs : i.suspended = p :: rest) : Above base rest.length i.session.chain.leave := by
    unfold Counts at hi
    rw [hs, List.length_cons] at hi
    exact hi.leave
  cases step_cases hstep with
  | failed => exact .inl hi
  | next | ended => exact hi
  | refused h hcall | called h hcall =>
    exact hcall.counts hb hi fun g hg f hf => hnew f ⟨_, _, _, _, g, h, hg, hf⟩
  | unset _ hs _ => exact .inl (hback hs)
  | returned _ hs _ => exact hback hs

/-- A run drains the callers that still wait when it ends. -/
theorem run_counts {I : Interpreter σ → Prop} (hI : ∀ i j, I i → step m bridge i = some (.ok none, j) → I j)
    (hnew : ∀ i f, I i → i.Rejects m f → leaks f) (ha : Activation.new g args = .ok a) (hstart : I ⟨a, [], s⟩)
    (h : run m bridge limit g args s = some (r, s')) :
    Lands (Stands s.chain 0) (fun f s' => leaks f ∧ Stands s.chain 1 s') s' r := by
  rw [run_of_new ha] at h
  obtain ⟨⟨r', i⟩, hi, heq⟩ := Option.map_eq_some_iff.1 h
  cases heq
  have hrun : Lands (Counts s.chain) (Exceeds leaks s.chain) i r' :=
    Run.ensures_iterate hI (fun i _ _ hi => step_counts hb fun f => hnew i f hi) hstart (.refl _) hi
  exact hrun.imp (Session.stands_leaveAll (k := 0)) fun _ hleak => hleak.imp_right Session.stands_leaveAll

theorem run_balanced (hnew : ∀ g args f, g ∈ m.functions → Activation.new g args = .error f → leaks f)
    (limit : Nat) (g : Ir.Function) (args : List Value) : Balanced leaks (run m bridge limit g args) := by
  intro s r s' h
  cases ha : Activation.new g args with
  | error e =>
    simp only [run, ha, Run.bind_apply, Run.outcome_apply] at h
    cases h
    exact .of_state (.refl _) _
  | ok a =>
    -- nothing is known of the values, so every call may have a wrong number of arguments
    refine run_counts (I := fun _ => True) hb (fun _ _ _ _ => trivial) ?_ ha trivial h
    rintro i f - ⟨_, _, _, args', g', -, hg, hf⟩
    exact hnew g' args' f (List.mem_of_getElem? hg) hf

end

theorem Returns.starts (hm : m.WellFormed) {Good : σ → Prop} {i : Interpreter σ}
    (hi : i.Returns m Good ret₀) (f : Fault) : ¬ i.Rejects m f := by
  rintro ⟨b, dst, target, args, g, hadvance, hg, hf⟩
  obtain ⟨-, ret, ha, -⟩ := hi
  have hcall := ha.advance hm i.session.chain
  rw [hadvance] at hcall
  obtain ⟨ps, t, hsig, hargs, -⟩ := hcall
  obtain ⟨g', callee, hg', hnew, -⟩ := Activation.start_sound hm hsig hargs
  cases hg.symm.trans hg'
  cases hnew.symm.trans hf

/-- A run restores its chain when it gets functions of its module and the bridge keeps to their types. -/
theorem run_restores (hm : m.WellFormed) (hb : bridge.Restores) {Good : σ → Prop}
    (hsupplies : bridge.Supplies m Good) (hargs : m.Accepts f args) (hg : m.function? f = some g)
    {s s' : Session σ} (hs : Good s.host) (h : run m bridge limit g args s = some (r, s')) :
    Above s.chain 0 s'.chain := by
  obtain ⟨g', ret, a, hg', -, ha, hsound⟩ := accepts_new hm hargs
  cases hg.symm.trans hg'
  have hstart : Returns m Good ret ⟨a, [], s⟩ := ⟨hs, ret, hsound, rfl⟩
  exact (run_counts hb (fun i j hi hstep => hi.step hm hsupplies hstep) (fun i f hi => hi.starts hm f) ha hstart
    h).state fun _ hleak => hleak.1

end Exec.Interpreter

/-! ## The machine -/

namespace Machine

variable {leaks : Fault → Prop} {base : Chain} {bridge : Bridge σ}

/-- The chain counts the waiting callers. -/
def Counts (base : Chain) (s : Machine σ) : Prop := Above base s.frames.length s.session.chain

/-- The chain counts one frame that no caller waits for. -/
def Exceeds (leaks : Fault → Prop) (base : Chain) (f : Fault) (s : Machine σ) : Prop :=
  leaks f ∧ Above base (s.frames.length + 1) s.session.chain

variable {s s' : Machine σ}

variable (hb : bridge.Balanced leaks)
include hb

theorem Reaches.counts (h : Reaches bridge i s s') (hs : Counts base s) : Counts base s' := by
  induction h with
  | keeps h =>
    unfold Counts
    rw [h.session, h.frames]
    exact hs
  | native? h => exact (hb.native? _).ensures base _ _ _ _ hs h
  | call h => exact (hb.call _ _).ensures base _ _ _ _ hs h
  | trans _ _ ih ih' => exact ih' (ih hs)

theorem Fails.counts (h : Fails bridge i s f s') (hs : Counts base s) :
    Counts base s' ∨ Exceeds leaks base f s' := by
  cases h with
  | here h _ => exact .inl (h.counts hb hs)
  | native? h hf => exact (hb.native? _).ensures base _ _ _ _ (h.counts hb hs) hf
  | call h hf => exact (hb.call _ _).ensures base _ _ _ _ (h.counts hb hs) hf

theorem Executed.counts (h : Executed bridge i s r s')
    (hs : Counts base s) : Lands (Counts base) (Exceeds leaks base) s' r := by
  cases h with
  | on _ h => exact h.counts hb hs
  | jumps _ h _ | ends _ h _ =>
    have hcounts := h.counts hb hs
    exact hcounts
  | fails h => exact h.counts hb hs
  -- a callee's caller waits for it before the frame is made
  | overflows _ h _ henter _ => exact .inl ((h.counts hb hs).trans (Chain.above_of_enter henter))
  | enters _ _ h _ henter _ => exact (h.counts hb hs).trans (Chain.above_of_enter henter)
  | returns _ h hframes =>
    have hcounts := h.counts hb hs
    unfold Counts at hcounts
    rw [hframes] at hcounts
    exact Above.leave hcounts

theorem ensures_step : Ensures (Counts base) (Exceeds leaks base) (step m bridge) := by
  intro s r s' hs h
  cases step_cases h with
  | lost => exact .inl hs
  | @carried _ r _ _ hx =>
    have hlands := hx.counts hb hs
    cases r with
    | ok ended => exact hlands
    | error f => exact hlands

theorem ensures_run (limit : Nat) : Ensures (Counts base) (Exceeds leaks base) (run m bridge limit) := by
  refine .bind (.of_total (fun _ => rfl) fun _ h => h) fun s => .bind ?_ fun _ => ?_
  · exact .bind (.of_total (fun _ => rfl) fun _ h => h) fun _ => .of_total (fun _ => rfl) fun _ h => h
  · exact fun _ _ _ hs h => Run.ensures_iterate (I := fun _ => True) (fun _ _ _ _ => trivial)
      (fun s r s' _ => ensures_step hb s r s') trivial hs h

/-- A run drains the callers that still wait when it ends. -/
theorem invoke_balanced (limit : Nat) (args : List Value) (hs : s.frames = [])
    (h : invoke m bridge limit args s = some (r, s')) :
    Lands (Stands s.session.chain 0) (fun f t => leaks f ∧ Stands s.session.chain 1 t) s'.session r := by
  have hstart : Counts s.session.chain s := by
    unfold Counts
    rw [hs]
    exact .refl _
  cases invoke_cases h with
  | failed hfails =>
    obtain ⟨t, u, hreached, rfl⟩ := hfails.reached
    have hframes := hreached.control.2.2.1.trans hs
    have hcounts := hfails.counts hb hstart
    unfold Counts Exceeds at hcounts
    rwa [hframes] at hcounts
  | stopped hreached hrun hsession =>
    rw [hsession]
    exact Or.imp (Session.stands_leaveAll (k := 0)) (And.imp_right Session.stands_leaveAll)
      (ensures_run hb limit _ _ _ (hreached.counts hb hstart) hrun)
  | ran hreached hrun hsession _ =>
    rw [hsession]
    exact .of_state (Session.stands_leaveAll (k := 0)
      (ensures_run hb limit _ _ _ (hreached.counts hb hstart) hrun)) _

end Machine

/-! ## Engines -/

namespace Engine

variable {e : Engine} {leaks : Fault → Prop}

theorem onExecutor_balanced (hbody : Balanced leaks body) : Balanced leaks (onExecutor body) := by
  refine .bind (.of_total (fun _ => rfl) fun _ => rfl) fun _ => ?_
  intro s r s' h
  rw [Run.bind_apply] at h
  cases hchain : s.chain.enter with
  | error f =>
    simp only [Session.onChain, hchain] at h
    cases h
    exact .of_state (.refl _) _
  | ok c =>
    have hc := Chain.above_of_enter hchain
    simp only [Session.onChain, hchain] at h
    cases hexecutor : c.enterExecutor with
    | error f =>
      simp only [hexecutor] at h
      cases h
      -- the frame is left at once when the executor cannot be entered
      exact .inl hc.leave
    | ok c' =>
      simp only [hexecutor] at h
      split at h
      · cases h
      · rename_i hx
        cases h
        exact (hbody _ _ _ hx).imp (Chain.above_leaveExecutor hc hexecutor) fun _ hleak =>
          hleak.imp_right (Chain.above_leaveExecutor hc hexecutor)

theorem modeOf_balanced (f : FuncId) : Balanced leaks (e.modeOf f) := by
  intro s r s' h
  unfold modeOf at h
  split at h <;>
  · cases h
    exact .of_state (.refl _) _

theorem codeOf_balanced (f : FuncId) : Balanced leaks (e.codeOf f) := by
  refine .bind (modeOf_balanced f) fun mode => ?_
  cases mode with
  | native | interpreted | unresolved => exact .of_total (fun _ => rfl) fun _ => rfl

theorem runNative_balanced {bridge : Bridge σ} (hb : bridge.Balanced leaks) (limit : Nat) (code : Code.Native)
    (args : List Value) : Balanced leaks (e.runNative bridge limit code args) := by
  intro s r s' h
  unfold runNative at h
  dsimp only at h
  split at h
  · cases h
  · rename_i r t ht
    cases h
    exact Machine.invoke_balanced hb limit args rfl ht

theorem runWith_balanced (hnew : ∀ g args f, g ∈ e.unit.module.functions →
    Exec.Activation.new g args = .error f → leaks f)
    {bridge : Bridge ModeTable} (hb : bridge.Balanced leaks) (limit : Nat) (f : FuncId) (args : List Value) :
    Balanced leaks (e.runWith bridge limit f args) := by
  have hinterpreted : Balanced leaks (do
      let g ← Run.need (e.unit.function? f) (.unknownFunction f)
      Exec.Interpreter.run e.unit.module bridge limit g args) :=
    .bind (.need _ _) fun g => Exec.Interpreter.run_balanced hb hnew limit g args
  refine .bind (modeOf_balanced f) fun mode => ?_
  cases mode with
  | native =>
    exact .bind (.of_total (fun _ => rfl) fun _ => rfl) fun _ => .bind (.need _ _) fun code =>
      runNative_balanced hb limit code args
  | interpreted | unresolved => exact hinterpreted

theorem bridge_balanced (hcall : ∀ f args, Balanced leaks (call f args)) :
    (e.bridge call).Balanced leaks where
  runsInterpreted f := .bind (modeOf_balanced f) fun _ => .of_total (fun _ => rfl) fun _ => rfl
  native? := codeOf_balanced
  call := hcall

theorem enter_balanced (hnew : ∀ g args f, g ∈ e.unit.module.functions →
    Exec.Activation.new g args = .error f → leaks f)
    (limit levels : Nat) (f : FuncId) (args : List Value) : Balanced leaks (e.enter limit levels f args) := by
  induction levels generalizing f args with
  | zero => exact fun s r s' h => nomatch h
  | succ levels ih =>
    exact onExecutor_balanced (runWith_balanced hnew (bridge_balanced ih) limit f args)

/-! ## Compiled code -/

/-- The failure of a call with a wrong number of arguments. -/
def Misfit (m : Ir.Module) (f : Fault) : Prop :=
  ∃ g ∈ m.functions, ∃ n, n ≠ g.params.length ∧ f = .internal (.frameArguments g.name g.params.length n)

theorem misfit_of_new {m : Ir.Module} (hm : m.WellFormed)
    (hg : g ∈ m.functions) (h : Exec.Activation.new g args = .error f) : Misfit m f := by
  by_cases hlen : args.length = g.params.length
  · obtain ⟨ps, hps, -⟩ := (hm g hg).params
    have hregs : ∀ r ∈ g.params, r.index.toNat < g.regTypes.size := by
      intro r hr
      obtain ⟨t, ht⟩ := hps.mem hr
      exact Ir.Module.reg_lt ht
    obtain ⟨frame, hframe⟩ : ∃ frame, Frame.new g.name g.params g.regTypes.size g.slotTypes.size args =
      .ok frame := Frame.new_isOk hlen hregs
    simp [Exec.Activation.new, hframe] at h
  · rw [Exec.Activation.new, Frame.new, if_neg hlen] at h
    cases h
    exact ⟨g, hg, args.length, hlen, rfl⟩

open Exec in
/-- A chain is balanced at the end of every run of compiled code on arguments that pass their check,
apart from one frame that the interpreter leaves behind when it calls a function with a wrong number
of arguments. A machine leaves none, and neither does an interpreter that gets functions of the module
and whose bridge gives it values of the declared types. -/
theorem chain_balanced {o : CompileOptions} {p : Source.Program} (h : o.compile p = .ok e.unit)
    (hp : p.BindingsFit) (hsized : e.unit.module.Sized) {f : FuncId} {args : List Value}
    (hargs : e.checkArguments f args = .ok ()) {bridge : Bridge σ} (hb : bridge.Restores) (limit : Nat) :
    (∃ g, e.unit.function? f = some g ∧
      Balanced (Misfit e.unit.module) (Interpreter.run e.unit.module bridge limit g args) ∧
      ((∀ v ∈ args, v.Resolved e.unit.module.signature?) → ∀ Good, bridge.Supplies e.unit.module Good →
        ∀ s r s', Good s.host → Interpreter.run e.unit.module bridge limit g args s = some (r, s') →
          Above s.chain 0 s'.chain)) ∧
    (∀ s r s', s.frames = [] → Machine.invoke e.unit.module bridge limit args s = some (r, s') →
      Above s.session.chain 0 s'.session.chain) ∧
    ∀ levels, Balanced (Misfit e.unit.module) (e.enter limit levels f args) := by
  have hwf := CompileOptions.compile_wellFormed h hp hsized
  have hnew : ∀ g args f, g ∈ e.unit.module.functions → Activation.new g args = .error f →
    Misfit e.unit.module f := fun _ _ _ => misfit_of_new hwf
  refine ⟨?_, ?_, fun levels => enter_balanced hnew limit levels f args⟩
  · obtain ⟨ps, hps⟩ : ∃ ps, e.unit.paramTys? f = some ps := by
      unfold checkArguments at hargs
      split at hargs
      · cases hargs
      · exact ⟨_, ‹_›⟩
    obtain ⟨g, hg, -⟩ := Option.bind_eq_some_iff.1 hps
    refine ⟨g, hg, Interpreter.run_balanced (hb.mono fun _ => False.elim) hnew limit g args, ?_⟩
    intro hfuns Good hsupplies s r s' hs hrun
    exact Interpreter.run_restores hwf hb hsupplies (checkArguments_ok hargs hfuns) hg hs hrun
  · intro s r s' hs hinvoke
    exact (Machine.invoke_balanced hb limit args hs hinvoke).state fun _ hleak => hleak.1

/-! ## Callbacks -/

/-- A function that applies another, and four that a host may hand to it. -/
def callbacks : Source.Program where
  functions := [
    { name := "apply", params := [⟨"f", .function [.i64] .i64, {}⟩, ⟨"n", .i64, {}⟩], ret := .i64,
      body := [.mk (.return (some (.mk (.call "f" [.mk (.var "n") {}]) {}))) {}] },
    { name := "add", params := [⟨"a", .i64, {}⟩, ⟨"b", .i64, {}⟩], ret := .i64,
      body := [.mk (.return (some (.mk (.binary (.arith .add) (.mk (.var "a") {}) (.mk (.var "b") {}) true) {})))
      {}] },
    { name := "again", params := [⟨"n", .i64, {}⟩], ret := .i64,
      body := [.mk (.return (some (.mk (.call "again" [.mk (.var "n") {}]) {}))) {}] },
    { name := "positive", params := [⟨"n", .i64, {}⟩], ret := .bool,
      body := [.mk (.return (some (.mk (.binary (.compare .gt) (.mk (.var "n") {}) (.mk (.int 0) {}) true) {})))
      {}] },
    { name := "same", params := [⟨"n", .i64, {}⟩], ret := .i64,
      body := [.mk (.return (some (.mk (.var "n") {}))) {}] }]

/-- Code for `callbacks`. -/
def callbackCode : Ir.Module where
  types := ⟨#[.function [.i64] .i64, .i64, .bool, .record [.i64], .record [.i64, .i64],
    .record [.function [.i64] .i64, .i64]]⟩
  constants := ⟨#[.ofScalar .i64 0]⟩
  functions := [
    straight 0 "apply" [⟨0⟩, ⟨1⟩] ⟨1⟩ [.define ⟨2⟩ (.callIndirect ⟨0⟩ [⟨1⟩])] ⟨2⟩ #[⟨0⟩, ⟨1⟩, ⟨1⟩],
    straight 1 "add" [⟨0⟩, ⟨1⟩] ⟨1⟩ [.define ⟨2⟩ (.binary .add .i64 ⟨0⟩ ⟨1⟩ true)] ⟨2⟩ #[⟨1⟩, ⟨1⟩, ⟨1⟩],
    straight 2 "again" [⟨0⟩] ⟨1⟩ [.define ⟨1⟩ (.call ⟨2⟩ [⟨0⟩])] ⟨1⟩ #[⟨1⟩, ⟨1⟩],
    straight 3 "positive" [⟨0⟩] ⟨2⟩ [.define ⟨1⟩ (.const ⟨0⟩), .define ⟨2⟩ (.compare .gt .i64 ⟨0⟩ ⟨1⟩)] ⟨2⟩
      #[⟨1⟩, ⟨1⟩, ⟨2⟩],
    straight 4 "same" [⟨0⟩] ⟨1⟩ [] ⟨0⟩ #[⟨1⟩]]
where
  straight (id : UInt32) (name : String) (params : List Reg) (ret : TypeId)
    (instrs : List Ir.Instr) (result : Reg)
      (regTypes : Array TypeId) : Ir.Function :=
    { id := ⟨id⟩, name, params, retType := ret, regTypes, slotTypes := #[]
      blocks := [{ id := ⟨0⟩, label := "entry", instrs, terminator := .ret result }] }

theorem compile_callbacks : ∃ stats, ({} : CompileOptions).compile callbacks = .ok ⟨callbackCode, stats⟩ := by
  have hmodule : (({} : CompileOptions).compile callbacks).toOption.map (·.module) = some callbackCode := by
    decide +kernel
  obtain ⟨⟨_, stats⟩, hu, rfl⟩ := Option.map_eq_some_iff.1 hmodule
  exact ⟨stats, Except.toOption_eq_some hu⟩

theorem bindingsFit_callbacks : callbacks.BindingsFit := by decide +kernel

theorem sized_callbackCode : callbackCode.Sized := Ir.Module.sized_of_isSized (by decide +kernel)

/-- A function that the host hands over as one of integers. -/
def handed (f : FuncId) : List Value := [.function (.function [.i64] .i64) f, .ofScalar .i64 3]

theorem resolved_handed (h : callbackCode.signature? f = some (.function [.i64] .i64)) :
    ∀ v ∈ handed f, v.Resolved callbackCode.signature? := by
  simp only [handed, List.mem_cons, List.not_mem_nil, or_false, forall_eq_or_imp, forall_eq]
  exact ⟨h, trivial⟩

open Exec in
theorem chain_balanced_callbacks : ∃ stats, ({} : CompileOptions).compile callbacks = .ok ⟨callbackCode, stats⟩ ∧
    checkArguments ⟨⟨callbackCode, stats⟩, {}⟩ ⟨0⟩ (handed ⟨2⟩) = .ok () ∧
    ∃ g s', callbackCode.function? ⟨0⟩ = some g ∧
      Interpreter.run callbackCode .interpreting 8 g (handed ⟨2⟩) ⟨⟨2, 0, 0, false⟩, ()⟩ =
      some (.error (.callDepth 2), s') ∧ Above ⟨2, 0, 0, false⟩ 0 s'.chain := by
  obtain ⟨stats, hu⟩ := compile_callbacks
  have hargs : checkArguments ⟨⟨callbackCode, stats⟩, {}⟩ ⟨0⟩ (handed ⟨2⟩) = .ok () := by rfl
  obtain ⟨⟨g, hg, -, hrestores⟩, -⟩ := chain_balanced hu bindingsFit_callbacks sized_callbackCode hargs
    Bridge.restores_interpreting 8
  obtain ⟨s', hrun⟩ : ∃ s', Interpreter.run callbackCode .interpreting 8 g (handed ⟨2⟩) ⟨⟨2, 0, 0, false⟩, ()⟩ =
      some (.error (.callDepth 2), s') := by
    cases hg
    exact ⟨_, rfl⟩
  have hinterprets : Bridge.interpreting.Interprets := fun _ _ => rfl
  exact ⟨stats, hu, hargs, g, s', hg, hrun, hrestores (resolved_handed rfl) _ hinterprets.supplies
    _ _ _ trivial hrun⟩

/-- The host's mistake costs the chain a frame. -/
theorem misfit_call_leaks : ∃ stats, ({} : CompileOptions).compile callbacks = .ok ⟨callbackCode, stats⟩ ∧
    checkArguments ⟨⟨callbackCode, stats⟩, {}⟩ ⟨0⟩ (handed ⟨1⟩) = .ok () ∧
    ∃ g s', callbackCode.function? ⟨0⟩ = some g ∧
      Exec.Interpreter.run callbackCode .interpreting 8 g (handed ⟨1⟩) ⟨⟨2, 0, 0, false⟩, ()⟩ =
        some (.error (.internal (.frameArguments "add" 2 1)), s') ∧ s'.chain.depth = 1 := by
  obtain ⟨stats, hu⟩ := compile_callbacks
  exact ⟨stats, hu, rfl, _, _, rfl, rfl, rfl⟩

end Engine

end NumericEngine
