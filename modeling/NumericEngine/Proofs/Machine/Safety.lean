import NumericEngine.Proofs.Machine.Work

/-!
# Checked code stays in control

Code that passes its check is run without a loss of control: the machine always
stands at the start of an instruction of the function that runs, whatever is in
registers and memory, and so does every caller when its callee returns. Only
calls of functions and returns move the frame pointer.

An instruction that follows the rules keeps the machine at the start of one,
whichever way it ends (`Executed`).
-/

namespace NumericEngine

open Code

variable {σ : Type}

/-- The code of a program that passes its check, with an upper half on its wide loads only. -/
structure Code.Native.Checked (functions : Nat) (p : List Insn) (n : Native) : Prop where
  wide : ∀ i ∈ p, i.wide.isSome ↔ i.opcode = Insn.lddw
  errors : (check functions p).errors = []
  program : decode (encode p) = .ok n.program.toList

/-- All code that a bridge hands out is checked. -/
def Bridge.LinksChecked (b : Bridge σ) (functions : Nat) : Prop :=
  ∀ f s n s', b.native? f s = some (.ok (some n), s') → ∃ p, n.Checked functions p

namespace Machine

theorem Executed.fp
    (h : Executed bridge i s r s') (hdst : i.writesDst = true → i.dst ≠ Code.fp)
    (hswitch : i.switchesFrame = false) : s'.reg Code.fp = s.reg Code.fp := by
  cases h with
  | on _ h | jumps _ h _ => exact h.control.2.2.2.2.2 hdst
  | fails h =>
    obtain ⟨t, u, hreached, rfl⟩ := h.reached
    exact hreached.control.2.2.2.2.2 hdst
  | overflows hs | enters _ hs | ends hs | returns hs => simp [hs] at hswitch

/-- An instruction with a meaning reports a loss of control only from outside. -/
theorem Executed.faults (h : Executed bridge i s (.error f) s') (hi : ¬ i.Strays) :
    f.isControl = false ∨ bridge.Raises i.Calls f s.session s'.session := by
  cases h with
  | fails h =>
    cases h with
    | here _ hf => exact .inl (Fault.isControl_of_isMild (hf.resolve_right fun h => hi h.1))
    | native? h hf hg => exact .inr (h.raises (.unlinked hg hf))
    | call h hf hg => exact .inr (h.raises (.failed hg hf))
  | overflows _ _ _ _ hpush =>
    rw [MachineMemory.pushFrame_apply] at hpush
    split at hpush
    · cases hpush
      exact .inl rfl
    · cases hpush

/-- The slot is the start of an instruction of checked code. -/
def Starts (functions : Nat) (code : Native) (pc : Nat) : Prop :=
  ∃ p, code.Checked functions p ∧ pc ∈ starts p

theorem Starts.of_checked {code : Native} (h : code.Checked functions p) : Starts functions code 0 :=
  ⟨p, h, (sound_of_check h.errors).zero_mem_starts⟩

theorem Starts.fetch {pc : Nat} {code : Native} (h : Starts functions code pc) :
    ∃ p i, code.Checked functions p ∧ (pc, i) ∈ placed 0 p ∧ code.program[pc]? = some i := by
  obtain ⟨p, hp, hpc⟩ := h
  obtain ⟨⟨pc, i⟩, hplaced, rfl⟩ := List.mem_map.1 hpc
  refine ⟨p, i, hp, hplaced, ?_⟩
  have hslots := decode_encode ((sound_of_check hp.errors).encodable hp.wide)
  rw [← Array.getElem?_toList, Except.ok.inj (hp.program.symm.trans hslots)]
  exact (bySlot_of_placed hplaced).2

/-- The machine is at the start of an instruction, and so is every caller. -/
structure InCode (functions : Nat) (s : Machine σ) : Prop where
  here : Starts functions s.code s.pc
  callers : ∀ c ∈ s.frames, Starts functions c.code c.pc

variable {functions : Nat} {m : Ir.Module} {bridge : Bridge σ} {i : Insn} {s : Machine σ}

theorem InCode.step (hlinks : bridge.LinksChecked functions) (hs : s.InCode functions)
    (hstep : Machine.step m bridge s = some (.ok none, s')) : s'.InCode functions := by
  obtain ⟨p, i, hp, hplaced, hfetch⟩ := hs.here.fetch
  have hsound := sound_of_check hp.errors
  have hi := hsound.insn s.pc i hplaced
  have hnext : i.isTerminal = false → Starts functions s.code (s.pc + i.slots) := fun hterm =>
    ⟨p, hp, hsound.next hplaced hterm⟩
  rw [step_of_fetch m bridge hfetch] at hstep
  obtain ⟨⟨_ | _ | _, t⟩, hexec, heq⟩ := Option.map_eq_some_iff.1 hstep
  · cases heq
  · cases heq
    cases exec_cases hexec with
    | on goesOn h =>
      obtain ⟨hcode, hpc, hframes, -⟩ := h.control
      exact ⟨hcode ▸ hpc ▸ hnext goesOn, hframes ▸ hs.callers⟩
    | @jumps _ pc isJump h hjump =>
      obtain ⟨hcode, hpc, hframes, -⟩ := h.control
      obtain ⟨target, htarget, heq⟩ := hi.jump isJump
      have hslots : i.slots = 1 := by
        refine Insn.slots_eq_one (hsound.encodable hp.wide i (mem_of_placed hplaced)) fun hform => ?_
        simp [Insn.isJump, hform] at isJump
      have hat : pc = target := by
        have : (s.behind i).pc = s.pc + 1 := congrArg (s.pc + ·) hslots
        rw [hpc, this] at hjump
        unfold jumpTarget at heq
        omega
      exact ⟨hcode ▸ hat ▸ ⟨p, hp, htarget⟩, hframes ▸ hs.callers⟩
    | enters goesOn _ h linked _ _ =>
      obtain ⟨hcode, hpc, hframes, -⟩ := h.control
      obtain ⟨f, u, hlink⟩ := linked
      obtain ⟨q, hq⟩ := hlinks f u _ _ hlink
      exact ⟨.of_checked hq, List.forall_mem_cons.2 ⟨hcode ▸ hpc ▸ hnext goesOn, hframes ▸ hs.callers⟩⟩
    | returns _ h hreturn =>
      obtain ⟨hcaller, hrest⟩ := List.forall_mem_cons.1 ((h.control.2.2.1.symm.trans hreturn) ▸ hs.callers)
      exact ⟨hcaller, hrest⟩
  · cases heq

/-- So many steps that do not end the run. -/
def StepsTo (m : Ir.Module) (bridge : Bridge σ) : Nat → Machine σ → Machine σ → Prop
  | 0, s, s' => s = s'
  | n + 1, s, s' => ∃ t, Machine.step m bridge s = some (.ok none, t) ∧ StepsTo m bridge n t s'

theorem InCode.steps (hlinks : bridge.LinksChecked functions) (hs : s.InCode functions)
    (h : StepsTo m bridge n s s') : s'.InCode functions := by
  induction n generalizing s with
  | zero => exact h ▸ hs
  | succ n ih =>
    obtain ⟨t, hstep, hrest⟩ := h
    exact ih (hs.step hlinks hstep) hrest

/-- What the next step of a machine in control is: an instruction that starts at the machine's
address, which calls no function that does not exist, moves the frame pointer only by a call or
a return, and fails by a loss of control only when its call is answered with one from outside. -/
def InControl (functions : Nat) (m : Ir.Module) (bridge : Bridge σ) (s : Machine σ) : Prop :=
  ∃ p i, s.code.Checked functions p ∧ (s.pc, i) ∈ placed 0 p ∧ s.code.program[s.pc]? = some i ∧
    (i.form = .callFunction → i.imm.toUInt32.toNat < functions) ∧
    (i.switchesFrame = false → ∀ r s', Machine.step m bridge s = some (r, s') → s'.reg fp = s.reg fp) ∧
    ∀ f s', Machine.step m bridge s = some (.error f, s') → f.isControl = true →
      bridge.Raises i.Calls f s.session s'.session

theorem InCode.inControl (hs : s.InCode functions) : s.InControl functions m bridge := by
  obtain ⟨p, i, hp, hplaced, hfetch⟩ := hs.here.fetch
  have hi := (sound_of_check hp.errors).insn s.pc i hplaced
  have hstep := step_of_fetch m bridge hfetch
  refine ⟨p, i, hp, hplaced, hfetch, hi.function, fun hswitch r s' h => ?_, fun f s' h hcontrol => ?_⟩
  · rw [hstep] at h
    obtain ⟨⟨r, t⟩, hexec, heq⟩ := Option.map_eq_some_iff.1 h
    cases heq
    exact (exec_cases hexec).fp hi.frame hswitch
  · rw [hstep] at h
    obtain ⟨⟨_ | _, t⟩, hexec, heq⟩ := Option.map_eq_some_iff.1 h
    · cases heq
      exact ((exec_cases hexec).faults hi.not_strays).resolve_left (by simp [hcontrol])
    · cases heq

/-- Code that passes its check can be read back from its bytes and never loses control, whatever
registers and memory hold: after any number of steps the machine is about to carry out an
instruction of the program. -/
theorem checked_code_in_control {functions : Nat} {p : List Insn}
    (hwide : ∀ i ∈ p, i.wide.isSome ↔ i.opcode = Insn.lddw) (hcheck : (check functions p).errors = []) :
    ∃ program, decode (encode p) = .ok program ∧
      ∀ {σ : Type} (m : Ir.Module) (bridge : Bridge σ), bridge.LinksChecked functions →
        ∀ start : Machine σ, start.code.program = program.toArray → start.pc = 0 → start.frames = [] →
          ∀ n s, StepsTo m bridge n start s → s.InControl functions m bridge := by
  have hdecode := decode_encode ((sound_of_check hcheck).encodable hwide)
  refine ⟨_, hdecode, fun m bridge hlinks start hcode hpc hframes n s hsteps => ?_⟩
  have hchecked : start.code.Checked functions p := ⟨hwide, hcheck, by rw [hcode]; exact hdecode⟩
  have hstart : start.InCode functions := ⟨hpc ▸ .of_checked hchecked, by simp [hframes]⟩
  exact (hstart.steps hlinks hsteps).inControl

/-- An endless loop: a wide load of zero and a jump back to it, taken on zero. -/
def spin : List Insn := [.wideLoad 0 0, .jumpIfZero 0 (-3), .exit]

/-- A machine about to run a program, given by slot. -/
def loaded (program : List Insn) : Machine Unit where
  code := { (default : Native) with program := program.toArray }
  memory := .new 0 0
  session := ⟨{ maxDepth := 1 }, ()⟩

theorem checked_code_in_control_spin :
    ∃ program s, decode (encode spin) = .ok program ∧ StepsTo {} Bridge.closed 2 (loaded program) s ∧
      s.pc = 0 ∧ s.InControl 0 {} Bridge.closed := by
  have hwide : ∀ i ∈ spin, i.wide.isSome ↔ i.opcode = Insn.lddw := by decide
  have hcheck : (check 0 spin).errors = [] := by decide +kernel
  obtain ⟨program, hprogram, hcontrol⟩ := checked_code_in_control hwide hcheck
  have hlinks : Bridge.closed.LinksChecked 0 := fun _ _ _ _ h => nomatch h
  have hslots := decode_encode ((sound_of_check hcheck).encodable hwide)
  obtain rfl := Except.ok.inj (hprogram.symm.trans hslots)
  have hsteps : ∃ s, StepsTo {} Bridge.closed 2 (loaded (bySlot spin)) s ∧ s.pc = 0 :=
    ⟨_, ⟨_, rfl, _, rfl, rfl⟩, rfl⟩
  obtain ⟨s, hs, hpc⟩ := hsteps
  exact ⟨_, s, hprogram, hs, hpc, hcontrol {} Bridge.closed hlinks _ rfl rfl rfl 2 s hs⟩

end Machine

end NumericEngine
