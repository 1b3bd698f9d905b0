import NumericEngine.Proofs.Code.Check
import NumericEngine.Proofs.Machine.Faults

/-!
# What an instruction does

Work on registers and memory keeps the machine where it is, up to what comes
over the bridge (`Performs`). From its few parts come the ways in which an
instruction can end (`Executed`): it does such work only, or it jumps, starts a
function or returns.
-/

namespace NumericEngine

open Code

variable {σ α : Type}

/-- Whether an instruction gives the machine another frame. -/
def Code.Insn.switchesFrame (i : Insn) : Bool :=
  match i.form with
  | .callFunction | .callValue | .exit => true
  | _ => false

/-- An instruction calls a function, or one that a register holds. -/
def Code.Insn.Calls (i : Insn) (f : FuncId) : Prop :=
  i.form = .callFunction ∧ f = ⟨i.imm.toUInt32⟩ ∨ i.form = .callValue

/-- An instruction that has no meaning. -/
def Code.Insn.Strays (i : Insn) : Prop :=
  i.isKnown = false ∨ i.form = .callHelper ∧ Helper.ofHash? i.imm.toUInt32 = none

/-- The faults that work for an instruction may end with by itself. -/
def Code.Insn.MayRaise (i : Insn) (f : Fault) : Prop := f.isMild = true ∨ i.Strays ∧ f.isControl = true

theorem Code.Insn.Checked.not_strays {starts : List Nat} {i : Insn}
    (h : i.Checked functions starts slot) : ¬ i.Strays := by
  rintro (hknown | ⟨hform, hnone⟩)
  · exact absurd (h.known.symm.trans hknown) (by simp)
  · exact absurd (h.helper hform) (by simp [hnone])

namespace Machine

/-- The start of a function that has machine code. -/
def entering (callee : Native) : Run (Machine σ) Bool :=
  outside (Session.onChain Chain.enter) >>= fun _ => enter callee >>= fun _ => pure false

/-! ## Collections -/

mutual
theorem calm_marks (memory : MachineMemory) : (t : Ty) → (addr : UInt64) →
    Except.Calm (marks memory t addr)
  | .struct fs, addr => by
    unfold marks
    exact calm_fieldMarks memory fs _ addr
  | .prim .., addr | .vector .., addr | .tensor .., addr | .complex _, addr | .function .., addr
  | .reference .., addr => by
    unfold marks
    split
    · exact .bind (MachineMemory.calm_load _ _ _) fun _ => .ok _
    · exact .ok _
theorem calm_fieldMarks (memory : MachineMemory) : (fs : List (String × Ty)) → (offsets : List Nat) →
    (addr : UInt64) → Except.Calm (fieldMarks memory fs offsets addr)
  | [], _, _ | _ :: _, [], _ => by
    unfold fieldMarks
    exact .ok _
  | (_, t) :: fs, _ :: rest, addr => by
    unfold fieldMarks
    exact .bind (calm_marks memory t _) fun _ => .bind (calm_fieldMarks memory fs rest addr) fun _ => .ok _
end

theorem calm_live (s : Machine σ) : Except.Calm s.live :=
  .bind (.mapM fun _ _ => calm_marks _ _ _) fun _ => .ok _

theorem collect_apply (k : Machine σ) :
    collect k = some (k.live.map fun _ => (), match k.live with
      | .ok live =>
        { k with
          memory := { k.memory with heap := (k.memory.heap.sweep live.contains).2 }
          collections := k.collections + 1 }
      | .error _ => k) := by
  unfold collect
  rw [Run.bind_apply, Run.get_apply]
  dsimp only
  rw [Run.bind_apply, Run.outcome_apply]
  cases k.live <;> rfl

/-! ## Work on one machine -/

/-- The machine is where it was, for the same callers, with the same session and a stack of the same
size. It has the same frame if the instruction writes to no frame pointer. -/
structure Keeps (i : Insn) (s s' : Machine σ) : Prop where
  code : s'.code = s.code
  pc : s'.pc = s.pc
  frames : s'.frames = s.frames
  session : s'.session = s.session
  stack : s'.memory.stack.extent = s.memory.stack.extent
  regs : s'.regs.size = s.regs.size
  fp : (i.writesDst = true → i.dst ≠ Code.fp) → s'.reg Code.fp = s.reg Code.fp

/-- The machine goes on after work of its own and answers over the bridge. -/
inductive Reaches (bridge : Bridge σ) (i : Insn) : Machine σ → Machine σ → Prop
  | keeps {s s' : Machine σ} (h : Keeps i s s') : Reaches bridge i s s'
  | native? {s : Machine σ} {f : FuncId} {code : Option Native} {u : Session σ}
      (h : bridge.native? f s.session = some (.ok code, u)) (hf : i.Calls f) :
        Reaches bridge i s { s with session := u }
  | call {s : Machine σ} {f : FuncId} {args : List Value} {v : Value} {u : Session σ}
      (h : bridge.call f args s.session = some (.ok v, u)) (hf : i.Calls f) :
        Reaches bridge i s { s with session := u }
  | trans {s t s' : Machine σ} (h : Reaches bridge i s t) (h' : Reaches bridge i t s') : Reaches bridge i s s'

/-- How work fails: by itself, or over the bridge. -/
inductive Fails (bridge : Bridge σ) (i : Insn) (s : Machine σ) : Fault → Machine σ → Prop
  | here {f : Fault} {s' : Machine σ} (h : Reaches bridge i s s') (hf : i.MayRaise f) : Fails bridge i s f s'
  | native? {f : Fault} {t : Machine σ} {g : FuncId} {u : Session σ} (h : Reaches bridge i s t)
      (hf : bridge.native? g t.session = some (.error f, u)) (hg : i.Calls g) :
      Fails bridge i s f { t with session := u }
  | call {f : Fault} {t : Machine σ} {g : FuncId} {args : List Value} {u : Session σ} (h : Reaches bridge i s t)
      (hf : bridge.call g args t.session = some (.error f, u)) (hg : i.Calls g) :
      Fails bridge i s f { t with session := u }

variable {m : Ir.Module} {bridge : Bridge σ} {i : Insn} {s t s' : Machine σ}

theorem Keeps.refl (s : Machine σ) : Keeps i s s := ⟨rfl, rfl, rfl, rfl, rfl, rfl, fun _ => rfl⟩

theorem Fails.after (h : Reaches bridge i s t) (ht : Fails bridge i t f s') : Fails bridge i s f s' := by
  cases ht with
  | here h' hf => exact .here (h.trans h') hf
  | native? h' hf hg => exact .native? (h.trans h') hf hg
  | call h' hf hg => exact .call (h.trans h') hf hg

theorem Reaches.control (h : Reaches bridge i s s') : s'.code = s.code ∧ s'.pc = s.pc ∧ s'.frames = s.frames ∧
    s'.memory.stack.extent = s.memory.stack.extent ∧ s'.regs.size = s.regs.size ∧
    ((i.writesDst = true → i.dst ≠ Code.fp) → s'.reg Code.fp = s.reg Code.fp) := by
  induction h with
  | keeps h => exact ⟨h.code, h.pc, h.frames, h.stack, h.regs, h.fp⟩
  | native? | call => exact ⟨rfl, rfl, rfl, rfl, rfl, fun _ => rfl⟩
  | trans _ _ ih ih' =>
    obtain ⟨hcode, hpc, hframes, hstack, hregs, hfp⟩ := ih
    obtain ⟨hcode', hpc', hframes', hstack', hregs', hfp'⟩ := ih'
    exact ⟨hcode'.trans hcode, hpc'.trans hpc, hframes'.trans hframes, hstack'.trans hstack, hregs'.trans hregs,
      fun hdst => (hfp' hdst).trans (hfp hdst)⟩

theorem Reaches.raises (h : Reaches bridge i s t) (ht : bridge.Raises i.Calls f t.session u) :
    bridge.Raises i.Calls f s.session u := by
  induction h with
  | keeps h => exact h.session ▸ ht
  | native? h hf => exact .linked hf h ht
  | call h hf => exact .answered hf h ht
  | trans _ _ ih ih' => exact ih (ih' ht)

theorem Fails.reached (h : Fails bridge i s f s') :
    ∃ t u, Reaches bridge i s t ∧ s' = { t with session := u } := by
  cases h with
  | here h _ | native? h _ | call h _ => exact ⟨_, _, h, rfl⟩

/-- What work has come to. -/
def Performed (bridge : Bridge σ) (i : Insn) (s s' : Machine σ) : Except Fault α → Prop
  | .ok _ => Reaches bridge i s s'
  | .error f => Fails bridge i s f s'

def Performs (bridge : Bridge σ) (i : Insn) (x : Run (Machine σ) α) : Prop :=
  ∀ s r s', x s = some (r, s') → Performed bridge i s s' r

theorem Performed.after (h : Reaches bridge i s t) (ht : Performed bridge i t s' r) :
    Performed bridge i s s' r := by
  cases r with
  | ok a => exact h.trans ht
  | error f => exact Fails.after h ht

theorem Performed.of_keeps (h : Keeps i s s') (hr : Except.Fails i.MayRaise r) :
    Performed bridge i s s' r := by
  cases r with
  | ok a => exact .keeps h
  | error f => exact .here (.keeps h) (hr f rfl)

theorem Performs.of_total {f : Machine σ → Except Fault α} {g : Machine σ → Machine σ}
    (hx : ∀ s, x s = some (f s, g s)) (hg : ∀ s, Keeps i s (g s))
    (hf : ∀ s, Except.Fails (·.isMild = true) (f s)) : Performs bridge i x := by
  intro s r s' h
  rw [hx] at h
  cases h
  exact .of_keeps (hg s) ((hf s).mono fun _ => .inl)

theorem Performs.bind (hx : Performs bridge i x)
    (hk : ∀ a, Performs bridge i (k a)) : Performs bridge i (x >>= k) := by
  intro s r s' h
  rcases Run.bind_eq_some h with ⟨e, hxs, rfl⟩ | ⟨a, t, hxs, hka⟩
  · exact hx s _ s' hxs
  · exact .after (hx s _ t hxs) (hk a t r s' hka)

theorem performs_onMemory (ha : Transition.Calm a) : Performs (σ := σ) bridge i (onMemory a) :=
  .of_total (fun _ => rfl) (fun s => ⟨rfl, rfl, rfl, rfl, (ha s.memory).2, rfl, fun _ => rfl⟩) fun s =>
    mild_of_calm (ha s.memory).1

theorem performs_collect : Performs (σ := σ) bridge i collect := by
  refine .of_total collect_apply (fun s => ?_) fun s f h => mild_of_calm (calm_live s) f (Except.map_eq_error.1 h)
  cases s.live with
  | error => exact .refl s
  | ok => exact ⟨rfl, rfl, rfl, rfl, rfl, rfl, fun _ => rfl⟩

theorem performs_withCollection (ha : Transition.Calm a) :
    Performs (σ := σ) bridge i (withCollection a) := by
  have hfirst : Performs bridge i (onMemory a) := performs_onMemory ha
  have hagain : Performs bridge i (do collect; onMemory a) := performs_collect.bind fun _ => hfirst
  intro s r s' h
  unfold withCollection at h
  split at h
  · rename_i f t hx
    split at h
    · have ht : Reaches bridge i s t := by
        obtain rfl : { s with memory := (a s.memory).2 } = t := congrArg Prod.snd (Option.some.inj hx)
        exact .keeps ⟨rfl, rfl, rfl, rfl, (ha s.memory).2, rfl, fun _ => rfl⟩
      exact .after ht (hagain t r s' h)
    · cases h
      exact hfirst s _ _ hx
  · exact hfirst s r s' h

theorem performs_bridgeCall (hf : i.Calls f) (args : List Value) :
    Performs bridge i (outside (bridge.call f args)) := by
  intro s r s' h
  unfold outside Run.zoom at h
  split at h
  · cases h
  · rename_i r u hx
    cases h
    cases r with
    | ok v => exact .call hx hf
    | error e => exact .call (.keeps (.refl s)) hx hf

theorem reg_withReg_of_ne (s : Machine σ) (h : r ≠ r') (w : UInt64) :
    (s.withReg r w).reg r' = s.reg r' := by
  have hne : r.toNat ≠ r'.toNat := fun heq => h (UInt8.toNat_inj.1 heq)
  simp [withReg, reg, Array.getElem?_setIfInBounds_ne hne]

theorem performs_setReg (hr : r ≠ Code.fp ∨ i.writesDst = true ∧ r = i.dst) (w : UInt64) :
    Performs (σ := σ) bridge i (setReg r w) := by
  refine .of_total (fun _ => rfl) (fun s => ⟨rfl, rfl, rfl, rfl, rfl, Array.size_setIfInBounds, fun hdst => ?_⟩)
    fun _ => .ok ()
  refine reg_withReg_of_ne s ?_ w
  rcases hr with hr | ⟨hwrites, rfl⟩
  · exact hr
  · exact hdst hwrites

namespace Performs

theorem outcome (hx : Except.Fails i.MayRaise x) : Performs (σ := σ) bridge i (Run.outcome x) := by
  intro s r s' h
  cases h
  exact .of_keeps (.refl s) hx

theorem calm (hx : Except.Calm x) : Performs (σ := σ) bridge i (Run.outcome x) :=
  .outcome ((mild_of_calm hx).mono fun _ => .inl)

theorem pure (a : α) : Performs (σ := σ) bridge i (Pure.pure a) := .outcome (x := .ok a) (.ok a)

theorem defect (h : i.MayRaise (.internal d)) : Performs bridge i (Run.defect d : Run (Machine σ) α) :=
  .outcome (x := .error _) (.error h)

theorem need (h : x = none → i.MayRaise f) : Performs (σ := σ) bridge i (Run.need x f) := by
  cases x with
  | some a => exact .pure a
  | none => exact .outcome (x := .error f) (.error (h rfl))

theorem get (hk : ∀ n, Performs bridge i (k n)) : Performs (σ := σ) bridge i (MonadState.get >>= k) :=
    fun s => hk s s

theorem checkAbort : Performs (σ := σ) bridge i (outside Session.checkAbort) :=
  .of_total (fun _ => rfl) .refl fun s => s.session.chain.mild_checkAbort

theorem getReg (r : UInt8) : Performs (σ := σ) bridge i (Machine.getReg r) := .get fun _ => .pure _

theorem kindOf (code : Int16) : Performs (σ := σ) bridge i (Machine.kindOf code) := .need fun _ => .inl rfl

theorem operand (j : Insn) : Performs (σ := σ) bridge i (Machine.operand j) := by
  unfold Machine.operand
  split
  · exact .getReg _
  · exact .pure _

theorem address (r : UInt8) (offset : Int16) : Performs (σ := σ) bridge i (Machine.address r offset) :=
  .bind (.getReg r) fun _ => .pure _

theorem safePoint : Performs (σ := σ) bridge i Machine.safePoint := by
  refine .get fun n => ?_
  split
  · exact performs_collect
  · exact .pure ()

theorem readArgs (params : List Ty) : Performs (σ := σ) bridge i (Machine.readArgs params) := by
  refine .get fun n => .bind (.calm (Value.calm_load _ _ _)) fun v => ?_
  split
  · exact .pure _
  · exact .defect (.inl rfl)

theorem callHelper {hash : UInt32} (h : Helper.ofHash? hash = none →
    i.MayRaise (.internal (.unknownHelper hash))) : Performs (σ := σ) bridge i (Machine.callHelper hash) := by
  refine .bind .safePoint fun _ => .bind (.need h) fun helper => .get fun n =>
    .bind (.need fun _ => .inl rfl) fun site => ?_
  exact .bind (performs_withCollection (Site.calm_run _)) fun _ => performs_setReg (.inl (by decide)) _

end Performs

/-! ## Instructions -/

/-- The machine at the start of a function, before it has a frame. -/
def calling (s : Machine σ) (callee : Native) (chain : Chain) : Machine σ :=
  { s with
    session := { s.session with chain }
    frames := ⟨s.code, s.pc, s.reg Code.fp⟩ :: s.frames
    code := callee
    pc := 0 }

/-- The machine without its frame. -/
def dropping (s : Machine σ) : Machine σ := { s with memory := s.memory.popFrame (s.reg Code.fp) }

/-- The machine back in a caller. -/
def resuming (s : Machine σ) (caller : CallFrame) (rest : List CallFrame) : Machine σ :=
  { s with
    session := { s.session with chain := s.session.chain.leave }
    code := caller.code
    pc := caller.pc
    frames := rest }.withReg Code.fp caller.fp

/-- How an instruction ends that a machine behind it carries out. -/
inductive Executed (bridge : Bridge σ) (i : Insn) (s : Machine σ) : Except Fault Bool → Machine σ → Prop
  | on {s' : Machine σ} (goesOn : i.isTerminal = false) (h : Reaches bridge i s s') :
      Executed bridge i s (.ok false) s'
  | fails {f : Fault} {s' : Machine σ} (h : Fails bridge i s f s') : Executed bridge i s (.error f) s'
  | jumps {t : Machine σ} {pc : Nat} (isJump : i.isJump = true) (h : Reaches bridge i s t)
      (hpc : (pc : Int) = t.pc + i.offset.toInt) : Executed bridge i s (.ok false) { t with pc }
  | overflows {t : Machine σ} {callee : Native} {c : Chain} {f : Fault} {memory : MachineMemory}
      (switches : i.switchesFrame = true) (h : Reaches bridge i s t)
      (linked : ∃ g u, bridge.native? g u = some (.ok (some callee), t.session))
        (henter : t.session.chain.enter = .ok c)
      (hpush : MachineMemory.pushFrame callee.frameSize t.memory = (.error f, memory)) :
      Executed bridge i s (.error f) { t.calling callee c with memory }
  | enters {t : Machine σ} {callee : Native} {c : Chain} {fp : UInt64} {memory : MachineMemory}
      (goesOn : i.isTerminal = false) (switches : i.switchesFrame = true) (h : Reaches bridge i s t)
      (linked : ∃ g u, bridge.native? g u = some (.ok (some callee), t.session))
        (henter : t.session.chain.enter = .ok c)
      (hpush : MachineMemory.pushFrame callee.frameSize t.memory = (.ok fp, memory)) :
      Executed bridge i s (.ok false) ({ t.calling callee c with memory }.withReg Code.fp fp)
  | ends {t : Machine σ} (switches : i.switchesFrame = true) (h : Reaches bridge i s t)
    (hframes : t.frames = []) :
      Executed bridge i s (.ok true) t.dropping
  | returns {t : Machine σ} {caller : CallFrame} {rest : List CallFrame} (switches : i.switchesFrame = true)
      (h : Reaches bridge i s t) (hframes : t.frames = caller :: rest) :
      Executed bridge i s (.ok false) (t.dropping.resuming caller rest)

theorem Executed.after (h : Reaches bridge i s t) (ht : Executed bridge i t r s') :
    Executed bridge i s r s' := by
  cases ht with
  | on hgo h' => exact .on hgo (h.trans h')
  | fails h' => exact .fails (h'.after h)
  | jumps hj h' hpc => exact .jumps hj (h.trans h') hpc
  | overflows hs h' hl he hp => exact .overflows hs (h.trans h') hl he hp
  | enters hgo hs h' hl he hp => exact .enters hgo hs (h.trans h') hl he hp
  | ends hs h' hf => exact .ends hs (h.trans h') hf
  | returns hs h' hf => exact .returns hs (h.trans h') hf

/-- A run that ends as an instruction does. -/
def Executes (bridge : Bridge σ) (i : Insn) (x : Run (Machine σ) Bool) : Prop :=
  ∀ s r s', x s = some (r, s') → Executed bridge i s r s'

theorem Executes.after (hx : Performs bridge i x)
    (hk : ∀ a, Executes bridge i (k a)) : Executes bridge i (x >>= k) := by
  intro s r s' h
  rcases Run.bind_eq_some h with ⟨e, hxs, rfl⟩ | ⟨a, t, hxs, hka⟩
  · exact .fails (hx s _ s' hxs)
  · exact .after (hx s _ t hxs) (hk a t r s' hka)

theorem Executes.get (hk : ∀ n, Executes bridge i (k n)) : Executes (σ := σ) bridge i (MonadState.get >>= k) :=
  fun s => hk s s

theorem Executes.done (hterm : i.isTerminal = false) : Executes (σ := σ) bridge i (pure false) := by
  intro s r s' h
  cases h
  exact .on hterm (.keeps (.refl s))

theorem executes_jump (hjump : i.isJump = true) : Executes bridge i (jump i.offset >>= fun _ => pure false) := by
  have htarget : Executes bridge i ((do
      let target : Int := (← get).pc + i.offset.toInt
      if target < 0 then Run.defect .jumpBeforeStart
      else modify fun m => { m with pc := target.toNat }) >>= fun _ => pure false) := by
    intro s r s' h
    simp only [Run.bind_apply, Run.get_apply] at h
    by_cases hneg : (s.pc : Int) + i.offset.toInt < 0
    · simp only [hneg, if_true] at h
      cases h
      exact .fails (.here (.keeps (.refl s)) (.inl rfl))
    · simp only [hneg, if_false] at h
      cases h
      exact .jumps hjump (.keeps (.refl s)) (Int.toNat_of_nonneg (Int.not_lt.1 hneg))
  unfold jump
  split
  · rw [bind_assoc]
    exact .after .checkAbort fun _ => htarget
  · exact htarget

theorem executed_entering (hterm : i.isTerminal = false) (hswitch : i.switchesFrame = true)
    (hlink : ∃ g u, bridge.native? g u = some (.ok (some callee), s.session))
    (h : entering callee s = some (r, s')) : Executed bridge i s r s' := by
  unfold entering at h
  rw [Run.bind_apply] at h
  cases hchain : s.session.chain.enter with
  | error e =>
    simp only [outside, Run.zoom, Session.onChain, hchain] at h
    cases h
    exact .fails (.here (.keeps (.refl s)) (.inl (Fault.isMild_of_isCalm (Chain.calm_enter e hchain))))
  | ok c =>
    simp only [outside, Run.zoom, Session.onChain, hchain, enter, pushFrame, Run.bind_apply, Run.modify_apply,
      onMemory, setReg] at h
    rcases hpush : MachineMemory.pushFrame callee.frameSize s.memory with ⟨_ | fp, memory⟩
    · simp only [hpush] at h
      cases h
      exact .overflows hswitch (.keeps (.refl s)) hlink hchain hpush
    · simp only [hpush] at h
      cases h
      exact .enters hterm hswitch (.keeps (.refl s)) hlink hchain hpush

theorem executes_native? (hterm : i.isTerminal = false) (hswitch : i.switchesFrame = true) (hf : i.Calls f)
    (hnone : Executes bridge i (k none))
    (hk : ∀ callee, k (some callee) = entering callee) :
    Executes bridge i (outside (bridge.native? f) >>= k) := by
  intro s r s' h
  rw [Run.bind_apply] at h
  simp only [outside, Run.zoom] at h
  rcases hx : bridge.native? f s.session with _ | ⟨_ | _ | callee, u⟩
  · simp only [hx] at h
    cases h
  · simp only [hx] at h
    cases h
    exact .fails (.native? (.keeps (.refl s)) hx hf)
  · simp only [hx] at h
    exact .after (.native? hx hf) (hnone _ r s' h)
  · simp only [hx, hk] at h
    exact .after (.native? hx hf) (executed_entering hterm hswitch ⟨f, _, hx⟩ h)

theorem executes_leave (hswitch : i.switchesFrame = true) : Executes bridge i leave := by
  rintro ⟨code, pc, memory, regs, _ | ⟨caller, rest⟩, pinned, executed, collections, session⟩ r s' h
  · cases h
    exact .ends hswitch (.keeps (.refl _)) rfl
  · cases h
    exact .returns hswitch (.keeps (.refl _)) rfl

theorem executes_call (hterm : i.isTerminal = false) (hswitch : i.switchesFrame = true) (hf : i.Calls f) :
    Executes bridge i (call m bridge f >>= fun _ => pure false) := by
  unfold call
  simp only [bind_assoc]
  refine .after .safePoint fun _ => .after .checkAbort fun _ =>
    executes_native? hterm hswitch hf ?_ fun callee => ?_
  · simp only [bind_assoc]
    exact .after (.need fun _ => .inl rfl) fun params => .after (.readArgs params) fun args =>
      .after (performs_bridgeCall hf args) fun result => .after (.getReg 2) fun dst =>
        .after (performs_withCollection (Value.calm_store _ _)) fun _ => .done hterm
  · simp only [bind_assoc]
    rfl

theorem executes_exec (m : Ir.Module) (bridge : Bridge σ) (i : Insn) : Executes bridge i (exec m bridge i) := by
  have hset (hdst : i.writesDst = true) (w : UInt64) : Performs (σ := σ) bridge i (setReg i.dst w) :=
    performs_setReg (.inr ⟨hdst, rfl⟩) w
  have hstrays (h : i.Strays) (f : Fault) (hf : f.isControl = true) : i.MayRaise f := .inr ⟨h, hf⟩
  have hdone : i.isTerminal = false → Executes bridge i (pure false) := .done
  have hjump : i.isJump = true → Executes bridge i (jump i.offset >>= fun _ => pure false) := executes_jump
  have hcall : i.isTerminal = false → i.switchesFrame = true →
      ∀ f, i.Calls f → Executes bridge i (call m bridge f >>= fun _ => pure false) :=
      fun ht hs _ => executes_call ht hs
  have hleave : i.switchesFrame = true → Executes bridge i leave := executes_leave
  unfold exec
  unfold Insn.writesDst at hset
  unfold Insn.Strays Insn.isKnown at hstrays
  unfold Insn.isTerminal at hdone hcall
  unfold Insn.isJump at hjump
  unfold Insn.switchesFrame Insn.Calls at hcall
  unfold Insn.switchesFrame at hleave
  generalize i.form = form at *
  cases form with
  | wideLoad =>
    exact .after (hset rfl _) fun _ => hdone rfl
  | load w signed =>
    refine .after (.address _ _) fun addr => .get fun n => ?_
    exact .after (.calm (MachineMemory.calm_load _ _ _)) fun bs => .after (hset rfl _) fun _ => hdone rfl
  | store w =>
    exact .after (.address _ _) fun addr => .after (.getReg _) fun x =>
      .after (performs_onMemory (MachineMemory.calm_store _ _)) fun _ => hdone rfl
  | move =>
    exact .after (.kindOf _) fun _ => .after (.operand i) fun x => .after (hset rfl _) fun _ => hdone rfl
  | convert =>
    exact .after (.kindOf _) fun source => .after (.kindOf _) fun target => .after (.getReg _) fun x =>
      .after (hset rfl _) fun _ => hdone rfl
  | unary op checked =>
    exact .after (.kindOf _) fun k => .after (.getReg _) fun x =>
      .after (.calm (Value.safe_arith _).calm) fun y =>
      .after (hset rfl _) fun _ => hdone rfl
  | arith op checked =>
    exact .after (.kindOf _) fun k => .after (.getReg _) fun x => .after (.operand i) fun y =>
      .after (.calm (Value.safe_arith _).calm) fun z => .after (hset rfl _) fun _ => hdone rfl
  | compare op =>
    exact .after (.kindOf _) fun k => .after (.getReg _) fun x => .after (.getReg _) fun y =>
      .after (hset rfl _) fun _ => hdone rfl
  | jump =>
    exact hjump rfl
  | jumpWhen equal =>
    refine .after (.getReg _) fun x => ?_
    dsimp only
    split
    · exact hjump rfl
    · exact hdone rfl
  | callFunction =>
    exact hcall rfl rfl _ (.inl ⟨rfl, rfl⟩)
  | callHelper =>
    exact .after (.callHelper fun hnone => hstrays (.inr ⟨rfl, hnone⟩) _ rfl) fun _ => hdone rfl
  | callValue =>
    refine .after (.getReg _) fun id => ?_
    split
    · exact hcall rfl rfl _ (.inr rfl)
    · exact .after (.defect (.inl rfl)) fun _ => hdone rfl
  | exit =>
    exact hleave rfl
  | badCompare =>
    exact .after (.kindOf _) fun _ => .after (.defect (hstrays (.inl rfl) _ rfl)) fun _ => hdone rfl
  | badJump | bad =>
    exact .after (.defect (hstrays (.inl rfl) _ rfl)) fun _ => hdone rfl

theorem exec_cases (h : exec m bridge i s = some (r, s')) : Executed bridge i s r s' :=
  executes_exec m bridge i s r s' h

/-! ## Steps -/

/-- The machine behind an instruction that it has fetched. -/
def behind (s : Machine σ) (i : Insn) : Machine σ :=
  { s with pc := s.pc + i.slots, executed := s.executed + 1 }

theorem step_of_fetch (m : Ir.Module) (bridge : Bridge σ) {s : Machine σ} (h : s.code.program[s.pc]? = some i) :
    step m bridge s = (exec m bridge i (s.behind i)).map fun (r, t) =>
      (r.map fun ended => if ended then some () else none, t) := by
  unfold step
  simp only [Run.bind_apply, Run.get_apply, h, Run.need, Run.pure_apply, Run.set_apply]
  rw [show ({ s with pc := s.pc + i.slots, executed := s.executed + 1 } : Machine σ) = s.behind i from rfl]
  rcases exec m bridge i (s.behind i) with _ | ⟨_ | _, t⟩ <;> rfl

/-- A step finds no instruction, or carries one out. -/
inductive Stepped (bridge : Bridge σ) (s : Machine σ) : Except Fault (Option Unit) → Machine σ → Prop
  | lost (h : s.code.program[s.pc]? = none) :
      Stepped bridge s (.error (.internal (.pcOutside s.pc s.code.symbol))) s
  | carried {i : Insn} {r : Except Fault Bool} {s' : Machine σ} (h : s.code.program[s.pc]? = some i)
      (hx : Executed bridge i (s.behind i) r s') :
      Stepped bridge s (r.map fun ended => if ended then some () else none) s'

theorem step_cases (h : step m bridge s = some (r, s')) : Stepped bridge s r s' := by
  cases hi : s.code.program[s.pc]? with
  | none =>
    simp only [step, Run.bind_apply, Run.get_apply, hi, Run.need] at h
    cases h
    exact .lost hi
  | some i =>
    rw [step_of_fetch m bridge hi] at h
    obtain ⟨⟨r, t⟩, hx, heq⟩ := Option.map_eq_some_iff.1 h
    cases heq
    exact .carried hi (exec_cases hx)

/-! ## Invocations -/

/-- What an invocation does before its run: it places the arguments, and makes room for the result. -/
def prepare (args : List Value) : Run (Machine σ) (Native × UInt64) := do
  let code := (← get).code
  let recordTy := Ty.record code.params
  let record ← allocRecord recordTy
  onMemory ((Value.struct recordTy args).store record)
  let ret ← allocRecord code.ret
  modify fun s => { s with pinned := [(record, recordTy), (ret, code.ret)] }
  setReg 1 record
  setReg 2 ret
  return (code, ret)

theorem invoke_eq_prepare (m : Ir.Module) (bridge : Bridge σ) (limit : Nat) (args : List Value) :
    invoke m bridge limit args = prepare args >>= fun (code, ret) => execute m bridge limit >>= fun _ =>
      get >>= fun s => Run.outcome (Value.load s.memory code.ret ret) := by
  simp only [invoke, prepare, bind_assoc, pure_bind]

/-- An invocation fails before its run, or ends after it, without the callers that were left. -/
inductive Invoked (m : Ir.Module) (bridge : Bridge σ) (limit : Nat) (s : Machine σ) :
    Except Fault Value → Machine σ → Prop
  | failed {f : Fault} {s' : Machine σ} (h : Fails bridge .exit s f s') : Invoked m bridge limit s (.error f) s'
  | stopped {f : Fault} {t t' s' : Machine σ} (h : Reaches bridge .exit s t)
      (hrun : run m bridge limit t = some (.error f, t'))
        (hs : s'.session = t'.session.leaveAll t'.frames.length) :
      Invoked m bridge limit s (.error f) s'
  | ran {t t' s' : Machine σ} {r : Except Fault Value} (h : Reaches bridge .exit s t)
      (hrun : run m bridge limit t = some (.ok (), t')) (hs : s'.session = t'.session.leaveAll t'.frames.length)
      (hr : Except.Calm r) : Invoked m bridge limit s r s'

theorem performs_prepare (args : List Value) : Performs (σ := σ) bridge .exit (prepare args) := by
  refine .get fun n => .bind (performs_onMemory (MachineMemory.calm_alloc _ _)) fun record =>
    .bind (performs_onMemory (Value.calm_store _ _)) fun _ =>
    .bind (performs_onMemory (MachineMemory.calm_alloc _ _)) fun ret => .bind ?_ fun _ =>
    .bind (performs_setReg (.inl (by decide)) _) fun _ =>
      .bind (performs_setReg (.inl (by decide)) _) fun _ => .pure _
  exact .of_total (fun _ => rfl) (fun _ => ⟨rfl, rfl, rfl, rfl, rfl, rfl, fun _ => rfl⟩) fun _ => .ok ()

theorem invoke_cases
    (h : invoke m bridge limit args s = some (r, s')) : Invoked m bridge limit s r s' := by
  rw [invoke_eq_prepare] at h
  rcases Run.bind_eq_some h with ⟨e, hx, rfl⟩ | ⟨⟨code, ret⟩, t, hx, h⟩
  · exact .failed (performs_prepare args s _ s' hx)
  · have ht : Reaches bridge .exit s t := performs_prepare args s _ t hx
    dsimp only at h
    rw [Run.bind_apply, execute] at h
    rcases hrun : run m bridge limit t with _ | ⟨_ | _, t'⟩
    · simp only [hrun] at h
      cases h
    · simp only [hrun] at h
      cases h
      exact .stopped ht hrun rfl
    · simp only [hrun] at h
      cases h
      exact .ran ht hrun rfl (Value.calm_load _ _ _)

end Machine

end NumericEngine
