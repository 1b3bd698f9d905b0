import NumericEngine.Proofs.Engine.Balance
import NumericEngine.Proofs.Memory.Tiling

/-!
# Frames on the stack

Lowered code takes frames of a whole number of sixteen bytes and leaves the frame
pointer to calls and returns. So the frames of a machine lie on its stack one
after another, and the stack has room for as many as a chain may be deep.
-/

namespace NumericEngine

open NumericEngine.Except (bind_eq_ok)
open List
open Code
open MachineMemory (stackBase stackLimit)

variable {σ : Type}

/-! ## Lowered code -/

/-- Code with a frame of whole units that only calls and returns move. -/
structure Code.Native.Framed (n : Native) : Prop where
  aligned : 16 ∣ n.frameSize
  small : n.frameSize ≤ 32752
  keepsFrame : ∀ i ∈ n.program, i.writesDst = true → i.dst ≠ fp

namespace Code

theorem keepsFrame_narrow (hp : ∀ i ∈ p, i.dst < 16 ∧ i.src < 16 ∧ (i.writesDst = true → i.dst ≠ fp)) :
    ∀ j ∈ narrow (encode p), j.writesDst = true → j.dst ≠ fp := by
  induction p with
  | nil => exact fun j hj => nomatch hj
  | cons i p ih =>
    obtain ⟨⟨hdst, hsrc, hkeeps⟩, hp⟩ := forall_mem_cons.1 hp
    rw [show encode (i :: p) = i.encode ++ encode p from rfl, Insn.narrow_encode hdst hsrc]
    refine forall_mem_cons.2 ⟨hkeeps, forall_mem_append.2 ⟨fun j hj _ => ?_, ih hp⟩⟩
    obtain ⟨w, -, rfl⟩ := mem_map.1 hj
    exact show (0 : UInt8) ≠ fp by decide

theorem keepsFrame_joinWide (h : joinWide n p = .ok q)
    (hp : ∀ i ∈ p, i.writesDst = true → i.dst ≠ fp) : ∀ j ∈ q, j.writesDst = true → j.dst ≠ fp := by
  fun_induction joinWide n p generalizing q with
  | case1 =>
    cases h
    exact hp
  | case2 => cases h
  | case3 =>
    rename_i ih
    obtain ⟨program, hprogram, heq⟩ := bind_eq_ok.1 h
    cases heq
    obtain ⟨hi, hp⟩ := forall_mem_cons.1 hp
    exact forall_mem_cons.2 ⟨hi, forall_mem_cons.2 ⟨hi, ih hprogram (forall_mem_cons.1 hp).2⟩⟩
  | case4 n i rest hop ih =>
    obtain ⟨program, hprogram, heq⟩ := bind_eq_ok.1 h
    cases heq
    obtain ⟨hi, hp⟩ := forall_mem_cons.1 hp
    exact forall_mem_cons.2 ⟨hi, ih hprogram hp⟩

theorem size_of_build (h : FramePlan.build m f = .ok plan) : 16 ∣ plan.size ∧ plan.size ≤ 32752 := by
  have hfits (n : Nat) (h : ¬32767 < Layout.alignUp n 16) : 16 ∣ Layout.alignUp n 16 ∧
    Layout.alignUp n 16 ≤ 32752 := by
    have hdvd := Layout.dvd_alignUp n (show 0 < 16 by decide)
    omega
  unfold FramePlan.build at h
  obtain ⟨regTys, -, h⟩ := bind_eq_ok.1 h
  obtain ⟨slotTys, -, h⟩ := bind_eq_ok.1 h
  obtain ⟨phiTys, -, h⟩ := bind_eq_ok.1 h
  obtain ⟨needs, -, h⟩ := bind_eq_ok.1 h
  dsimp only at h
  split at h
  · cases h
  · cases h
    exact hfits _ ‹_›

theorem Native.framed_of_ofFunction {id : FuncId}
    (h : Native.ofFunction m target id f = .ok n) : n.Framed := by
  unfold Native.ofFunction at h
  obtain ⟨frame, hframe, h⟩ := bind_eq_ok.1 h
  obtain ⟨⟨program, sites⟩, hprogram, h⟩ := bind_eq_ok.1 h
  obtain ⟨⟨items, labels⟩, -, hprogram⟩ := bind_eq_ok.1 hprogram
  obtain ⟨p, -, hprogram⟩ := bind_eq_ok.1 hprogram
  dsimp only at hprogram h
  split at hprogram
  · cases hprogram
  · rename_i hcheck
    cases hprogram
    split at h
    · cases h
    · rename_i bySlot hdecode
      split at h
      · cases h
      · cases h
      · cases h
        have hsound := sound_of_check hcheck
        refine ⟨(size_of_build hframe).1, (size_of_build hframe).2, ?_⟩
        have hlt : fp < 16 := by decide
        have hall : ∀ i ∈ program, i.dst < 16 ∧ i.src < 16 ∧ (i.writesDst = true → i.dst ≠ fp) := by
          intro i hi
          obtain ⟨slot, hslot⟩ := placed_of_mem 0 hi
          have hc := hsound.insn slot i hslot
          exact ⟨UInt8.lt_of_le_of_lt hc.dst hlt, UInt8.lt_of_le_of_lt hc.src hlt, hc.frame⟩
        unfold decode at hdecode
        split at hdecode
        · cases hdecode
        · exact fun i hi => keepsFrame_joinWide hdecode (keepsFrame_narrow hall) i (by simpa using hi)

end Code

/-! ## Memory -/

theorem Layout.alignUp_of_dvd {align : Nat} (hword : n + align ≤ maxWord + 1) (h : align ∣ n) :
    alignUp n align = n :=
  Nat.le_antisymm (alignUp_le hword h (Nat.le_refl n)) (le_alignUp_of_word hword)

namespace MachineMemory

variable {m : MachineMemory}

theorem pushFrame_of_room (h : m.stack.extent = (stackBase, stackLimit, used)) (hused : 16 ∣ used)
    (hroom : used + size ≤ stackLimit) : ∃ m', pushFrame size m = (.ok (stackBase + UInt64.ofNat used), m') ∧
      m'.stack.extent = (stackBase, stackLimit, used + size) := by
  simp only [Region.extent, Prod.mk.injEq] at h
  obtain ⟨hbase, hlimit, rfl⟩ := h
  have hnext : m.stack.next 16 = m.stack.used :=
    Layout.alignUp_of_dvd (by simp only [stackLimit, Layout.maxWord] at *; omega) hused
  have hstop : Word.add m.stack.used size = m.stack.used + size :=
    Word.add_of_lt (by simp only [stackLimit] at hroom; omega)
  have hfull : m.stack.full (m.stack.used + size) = false :=
    Region.full_eq_false.2 ⟨by omega, by simp only [stackLimit, Layout.maxSize] at *; omega⟩
  rw [pushFrame_apply, hnext, hstop, hfull, Region.address, hbase]
  refine ⟨_, rfl, ?_⟩
  simp only [Region.extent, Region.used_resize]
  exact Prod.ext hbase (Prod.ext hlimit rfl)

theorem extent_popFrame (h : m.stack.extent = (stackBase, stackLimit, used)) (hk : k ≤ used)
    (hroom : used ≤ stackLimit) : (m.popFrame (stackBase + UInt64.ofNat k)).stack.extent =
    (stackBase, stackLimit, k) := by
  simp only [Region.extent, Prod.mk.injEq] at h
  obtain ⟨hbase, hlimit, rfl⟩ := h
  have haddr : (stackBase + UInt64.ofNat k).toNat = stackBase.toNat + k := by
    have hlow : stackBase.toNat = 0x200000000 := rfl
    have hlimit' : stackLimit = 0x800000 := rfl
    rw [UInt64.toNat_add, UInt64.toNat_ofNat_of_lt' (show k < 2 ^ 64 by omega)]
    exact Nat.mod_eq_of_lt (by omega)
  have hle : m.stack.base ≤ stackBase + UInt64.ofNat k := by
    rw [UInt64.le_iff_toNat_le, haddr, hbase]
    exact Nat.le_add_right _ k
  rw [popFrame, Region.release, if_pos hle]
  simp only [Region.extent, Region.used, Array.size_shrink, haddr, hbase, hlimit, Nat.add_sub_cancel_left,
    Prod.mk.injEq, true_and]
  exact Nat.min_eq_left hk

end MachineMemory

/-! ## Sessions -/

/-- The host is in a good state, and the chain allows no more calls than by default. -/
def Session.Meets (H : σ → Prop) (s : Session σ) : Prop := H s.host ∧ s.chain.maxDepth ≤ Chain.defaultMaxDepth

/-- A run that keeps its session good, and never lacks room for a frame. -/
def Run.Tame (H : σ → Prop) (x : Run (Session σ) α) : Prop :=
  ∀ s r s', s.Meets H → x s = some (r, s') → s'.Meets H ∧ Except.Roomy r

/-- All that goes over the bridge is tame, and all code that comes over it is framed. -/
structure Bridge.Tame (H : σ → Prop) (b : Bridge σ) : Prop where
  runsInterpreted : ∀ f, Run.Tame H (b.runsInterpreted f)
  native? : ∀ f, Run.Tame H (b.native? f)
  call : ∀ f args, Run.Tame H (b.call f args)
  framed : ∀ f s n s', H s'.host → b.native? f s = some (.ok (some n), s') → n.Framed
  balanced : b.Balanced fun _ => True

theorem Session.Meets.enter {s : Session σ} (hs : s.Meets H)
    (h : s.chain.enter = .ok c) : Meets H ⟨c, s.host⟩ ∧ c.depth = s.chain.depth + 1 ∧
    c.depth ≤ Chain.defaultMaxDepth := by
  unfold Chain.enter at h
  split at h
  · cases h
  · cases h
    have := hs.2
    exact ⟨hs, rfl, by dsimp only; omega⟩

theorem Session.Meets.leaveAll {s : Session σ} (hs : s.Meets H) (n : Nat) : (s.leaveAll n).Meets H := by
  induction n with
  | zero => exact hs
  | succ n ih => exact ih

/-! ## The machine -/

namespace Machine

variable {H : σ → Prop} {bridge : Bridge σ} {i : Insn} {s s' : Machine σ}

/-- Bytes that the frames of callers take. -/
def frameBytes (frames : List CallFrame) : Nat := (frames.map (·.code.frameSize)).sum

/-- Bytes that all frames take. -/
def liveBytes (s : Machine σ) : Nat := s.code.frameSize + frameBytes s.frames

/-- A frame pointer behind the frames of the callers, each of which goes on with its own. -/
def Placed (fp : UInt64) : List CallFrame → Prop
  | [] => fp = stackBase + UInt64.ofNat (frameBytes [])
  | c :: rest => fp = stackBase + UInt64.ofNat (frameBytes (c :: rest)) ∧ Placed c.fp rest

/-- The frames lie on the stack one after another, and there are no more than the chain counts. -/
structure Stacked (H : σ → Prop) (s : Machine σ) : Prop where
  meets : s.session.Meets H
  framed : s.code.Framed
  callers : ∀ c ∈ s.frames, c.code.Framed
  regs : s.regs.size = 16
  stack : s.memory.stack.extent = (stackBase, stackLimit, s.liveBytes)
  placed : Placed (s.reg Code.fp) s.frames
  few : s.frames.length < Chain.defaultMaxDepth
  counted : s.frames.length < s.session.chain.depth

theorem frameBytes_bounds {frames : List CallFrame} (h : ∀ c ∈ frames, c.code.Framed) :
    16 ∣ frameBytes frames ∧ frameBytes frames ≤ frames.length * 32752 := by
  induction frames with
  | nil => exact ⟨Nat.dvd_zero 16, Nat.le_refl 0⟩
  | cons c rest ih =>
    obtain ⟨hc, hrest⟩ := forall_mem_cons.1 h
    obtain ⟨hdvd, hle⟩ := ih hrest
    have hcons : frameBytes (c :: rest) = c.code.frameSize + frameBytes rest := sum_cons
    have hc₁ := hc.aligned
    have hc₂ := hc.small
    rw [hcons, length_cons, Nat.succ_mul]
    omega

theorem Stacked.bounds (hs : s.Stacked H) :
    16 ∣ s.liveBytes ∧ s.liveBytes ≤ (s.frames.length + 1) * 32752 ∧ s.liveBytes ≤ stackLimit := by
  obtain ⟨hdvd, hle⟩ := frameBytes_bounds hs.callers
  have h₁ := hs.framed.aligned
  have h₂ := hs.framed.small
  have h₃ := hs.few
  simp only [liveBytes, Chain.defaultMaxDepth, stackLimit] at *
  omega

theorem reg_withReg_fp (h : s.regs.size = 16) (w : UInt64) : (s.withReg Code.fp w).reg Code.fp = w := by
  have hlt : Code.fp.toNat < s.regs.size := by
    rw [h]
    decide
  simp [withReg, reg, hlt]

theorem Stacked.pop (hs : s.Stacked H) (hframes : s.frames = caller :: rest) :
    (s.dropping.resuming caller rest).Stacked H := by
  obtain ⟨hcaller, hrest⟩ := forall_mem_cons.1 (hframes ▸ hs.callers)
  have hplaced := hs.placed
  have hfew := hs.few
  have hcounted := hs.counted
  rw [hframes] at hplaced
  rw [hframes, length_cons] at hfew hcounted
  refine ⟨hs.meets, hcaller, hrest, Array.size_setIfInBounds.trans hs.regs, ?_, ?_, Nat.lt_of_succ_lt hfew, ?_⟩
  · show (s.memory.popFrame (s.reg Code.fp)).stack.extent =
      (stackBase, stackLimit, caller.code.frameSize + frameBytes rest)
    rw [hplaced.1]
    refine MachineMemory.extent_popFrame hs.stack ?_ hs.bounds.2.2
    rw [liveBytes, hframes]
    exact Nat.le_add_left _ _
  · show Placed ((Machine.withReg _ Code.fp caller.fp).reg Code.fp) rest
    rw [reg_withReg_fp]
    · exact hplaced.2
    · exact hs.regs
  · show rest.length < s.session.chain.depth - 1
    omega

/-- There is room for the frame of every function that the chain lets in. -/
theorem Stacked.push (hs : s.Stacked H) {callee : Native} (hcallee : callee.Framed)
    (henter : s.session.chain.enter = .ok c) : ∃ fp memory,
      MachineMemory.pushFrame callee.frameSize s.memory = (.ok fp, memory) ∧
      ({ s.calling callee c with memory }.withReg Code.fp fp).Stacked H := by
  obtain ⟨hmeets, hdepth, hmax⟩ := hs.meets.enter henter
  obtain ⟨hdvd, hle, -⟩ := hs.bounds
  have hcounted := hs.counted
  have hsmall := hcallee.small
  -- the stack holds as many of the largest frames as the chain lets in
  have hroom : s.liveBytes + callee.frameSize ≤ stackLimit := by
    simp only [Chain.defaultMaxDepth, stackLimit] at *
    omega
  obtain ⟨memory, hpush, hextent⟩ := MachineMemory.pushFrame_of_room hs.stack hdvd hroom
  have hcallers : frameBytes (⟨s.code, s.pc, s.reg Code.fp⟩ :: s.frames) = s.liveBytes := sum_cons
  have hlen : (⟨s.code, s.pc, s.reg Code.fp⟩ :: s.frames).length = s.frames.length + 1 := length_cons
  refine ⟨_, memory, hpush, hmeets, hcallee, forall_mem_cons.2 ⟨hs.framed, hs.callers⟩,
    Array.size_setIfInBounds.trans hs.regs, ?_, ⟨?_, hs.placed⟩, ?_, ?_⟩
  · show memory.stack.extent = (stackBase, stackLimit, callee.frameSize + frameBytes (_ :: s.frames))
    rw [hextent, hcallers, Nat.add_comm]
  · rw [hcallers]
    exact reg_withReg_fp hs.regs _
  · show (_ :: s.frames).length < Chain.defaultMaxDepth
    omega
  · show (_ :: s.frames).length < c.depth
    omega

/-- A machine with an empty stack, in a chain that counts the function it is about to run. -/
structure Fresh (H : σ → Prop) (s : Machine σ) : Prop where
  meets : s.session.Meets H
  framed : s.code.Framed
  frames : s.frames = []
  regs : s.regs.size = 16
  stack : s.memory.stack.extent = (stackBase, stackLimit, 0)
  counted : 0 < s.session.chain.depth

theorem Fresh.push (hs : s.Fresh H) : ∃ t, pushFrame s.code.frameSize s = some (.ok (), t) ∧ t.Stacked H := by
  have hroom : 0 + s.code.frameSize ≤ stackLimit := by
    have hsmall := hs.framed.small
    simp only [stackLimit]
    omega
  obtain ⟨memory, hpush, hextent⟩ := MachineMemory.pushFrame_of_room hs.stack (Nat.dvd_zero 16) hroom
  refine ⟨{ s with memory }.withReg Code.fp (stackBase + UInt64.ofNat 0), ?_, hs.meets, hs.framed, ?_,
    Array.size_setIfInBounds.trans hs.regs, ?_, ?_, ?_, ?_⟩
  · simp only [pushFrame, Run.bind_apply, onMemory, hpush, setReg, Run.modify_apply]
  · show ∀ c ∈ s.frames, c.code.Framed
    rw [hs.frames]
    exact forall_mem_nil _
  · show memory.stack.extent = (stackBase, stackLimit, s.code.frameSize + frameBytes s.frames)
    rw [hextent, hs.frames, Nat.zero_add]
    rfl
  · show Placed _ s.frames
    rw [hs.frames]
    exact reg_withReg_fp hs.regs _
  · show s.frames.length < _
    rw [hs.frames]
    decide
  · show s.frames.length < _
    rw [hs.frames]
    exact hs.counted

/-- What a step leaves behind. -/
def Proceeds (H : σ → Prop) (s : Machine σ) : Except Fault (Option Unit) → Prop
  | .ok none => s.Stacked H
  | .ok (some _) => s.session.Meets H
  | .error f => s.session.Meets H ∧ f.isOverflow = false

variable (hb : bridge.Tame H)

include hb

theorem Reaches.meets (h : Reaches bridge i s s')
    (hs : s.session.Meets H) : s'.session.Meets H ∧ s'.session.chain.depth = s.session.chain.depth := by
  induction h with
  | keeps h =>
    rw [h.session]
    exact ⟨hs, rfl⟩
  | native? h =>
    have hlands : Chain.Above _ 0 _ := hb.balanced.native? _ _ _ _ h
    exact ⟨(hb.native? _ _ _ _ hs h).1, hlands.depth⟩
  | call h =>
    have hlands : Chain.Above _ 0 _ := hb.balanced.call _ _ _ _ _ h
    exact ⟨(hb.call _ _ _ _ _ hs h).1, hlands.depth⟩
  | trans _ _ ih ih' => exact ⟨(ih' (ih hs).1).1, (ih' (ih hs).1).2.trans (ih hs).2⟩

theorem Fails.meets (h : Fails bridge i s f s')
    (hs : s.session.Meets H) : s'.session.Meets H ∧ f.isOverflow = false := by
  cases h with
  | here h hf =>
    refine ⟨(h.meets hb hs).1, ?_⟩
    rcases hf with hf | ⟨-, hf⟩
    · exact Fault.isOverflow_of_isMild hf
    · cases f <;> first | rfl | cases hf
  | native? h hf =>
    obtain ⟨hmeets, hfault⟩ := hb.native? _ _ _ _ (h.meets hb hs).1 hf
    exact ⟨hmeets, hfault _ rfl⟩
  | call h hf =>
    obtain ⟨hmeets, hfault⟩ := hb.call _ _ _ _ _ (h.meets hb hs).1 hf
    exact ⟨hmeets, hfault _ rfl⟩

theorem Stacked.reaches (hs : s.Stacked H)
    (hdst : i.writesDst = true → i.dst ≠ Code.fp) (h : Reaches bridge i s s') : s'.Stacked H := by
  obtain ⟨hcode, -, hframes, hstack, hregs, hfp⟩ := h.control
  obtain ⟨hmeets, hdepth⟩ := h.meets hb hs.meets
  refine ⟨hmeets, hcode ▸ hs.framed, hframes ▸ hs.callers, hregs.trans hs.regs, ?_, ?_, hframes ▸ hs.few, ?_⟩
  · rw [hstack, hs.stack, liveBytes, liveBytes, hcode, hframes]
  · rw [hfp hdst, hframes]
    exact hs.placed
  · rw [hframes, hdepth]
    exact hs.counted

theorem Stacked.executed (hs : s.Stacked H)
    (hdst : i.writesDst = true → i.dst ≠ Code.fp) (h : Executed bridge i s r s') :
    s'.Proceeds H (r.map fun ended => if ended then some () else none) := by
  cases h with
  | on _ h => exact hs.reaches hb hdst h
  | fails h => exact h.meets hb hs.meets
  | jumps _ h _ =>
    have ht := hs.reaches hb hdst h
    exact ⟨ht.meets, ht.framed, ht.callers, ht.regs, ht.stack, ht.placed, ht.few, ht.counted⟩
  | overflows _ h linked henter hpush =>
    have ht := hs.reaches hb hdst h
    obtain ⟨g, u, hlink⟩ := linked
    obtain ⟨_, _, hpush', -⟩ := ht.push (hb.framed g u _ _ ht.meets.1 hlink) henter
    cases hpush.symm.trans hpush'
  | enters _ _ h linked henter hpush =>
    have ht := hs.reaches hb hdst h
    obtain ⟨g, u, hlink⟩ := linked
    obtain ⟨_, _, hpush', hstacked⟩ := ht.push (hb.framed g u _ _ ht.meets.1 hlink) henter
    cases hpush.symm.trans hpush'
    exact hstacked
  | ends _ h _ => exact (hs.reaches hb hdst h).meets
  | returns _ h hframes => exact (hs.reaches hb hdst h).pop hframes

theorem Stacked.step (hs : s.Stacked H)
    (h : Machine.step m bridge s = some (r, s')) : s'.Proceeds H r := by
  cases step_cases h with
  | lost => exact ⟨hs.meets, rfl⟩
  | @carried i _ _ hi hx =>
    have hbehind : (s.behind i).Stacked H :=
      ⟨hs.meets, hs.framed, hs.callers, hs.regs, hs.stack, hs.placed, hs.few, hs.counted⟩
    exact hbehind.executed hb (hs.framed.keepsFrame i (Array.mem_of_getElem? hi)) hx

theorem Stacked.steps (hs : s.Stacked H) (h : StepsTo m bridge n s s') : s'.Stacked H := by
  induction n generalizing s with
  | zero => exact h ▸ hs
  | succ n ih =>
    obtain ⟨t, hstep, hrest⟩ := h
    exact ih (hs.step hb hstep) hrest

theorem Fresh.reaches (hs : s.Fresh H) (h : Reaches bridge i s s') : s'.Fresh H := by
  obtain ⟨hcode, -, hframes, hstack, hregs, -⟩ := h.control
  obtain ⟨hmeets, hdepth⟩ := h.meets hb hs.meets
  exact ⟨hmeets, hcode ▸ hs.framed, hframes.trans hs.frames, hregs.trans hs.regs, hstack.trans hs.stack,
    hdepth ▸ hs.counted⟩

theorem Fresh.run (hs : s.Fresh H) (h : Machine.run m bridge limit s = some (r, s')) :
    s'.session.Meets H ∧ Except.Roomy r := by
  obtain ⟨t, hpush, ht⟩ := hs.push
  simp only [Machine.run, Run.bind_apply, Run.get_apply, hpush] at h
  obtain ⟨u, hu, hlast⟩ := Run.iterate_last (fun _ _ hs hstep => hs.step hb hstep) ht h
  have hproceeds := hu.step hb hlast
  cases r with
  | ok => exact ⟨hproceeds, .ok ()⟩
  | error f => exact ⟨hproceeds.1, .error hproceeds.2⟩

/-- An invocation on a fresh machine never lacks room for a frame. -/
theorem Fresh.invoke (hs : s.Fresh H) (h : Machine.invoke m bridge limit args s = some (r, s')) :
    s'.session.Meets H ∧ Except.Roomy r := by
  cases invoke_cases h with
  | failed hf =>
    obtain ⟨hmeets, hfault⟩ := hf.meets hb hs.meets
    exact ⟨hmeets, .error hfault⟩
  | stopped ht hrun hsession =>
    obtain ⟨hmeets, hfault⟩ := (hs.reaches hb ht).run hb hrun
    exact ⟨hsession ▸ hmeets.leaveAll _, .error (hfault _ rfl)⟩
  | ran ht hrun hsession hr =>
    obtain ⟨hmeets, -⟩ := (hs.reaches hb ht).run hb hrun
    exact ⟨hsession ▸ hmeets.leaveAll _, roomy_of_calm hr⟩

end Machine

end NumericEngine
