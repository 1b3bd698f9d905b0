import NumericEngine.Proofs.Exec.Eval
import NumericEngine.Proofs.Exec.Frame
import NumericEngine.Proofs.Exec.Step
import NumericEngine.Proofs.Ir.Scoping

/-!
# Soundness of the interpreter

While a function of a well-formed module runs, every register and slot that
holds a value holds one of its type, and every register that the code may read
holds one. So no step fails by a broken invariant.

The invariant of an activation names the registers available at the next
instruction; a step makes the register that it defines available too.
-/

namespace NumericEngine

open NumericEngine.Except (ok_bind pure_eq_ok)
open List

theorem Chain.kind_checkAbort {c : Chain} (h : c.checkAbort = .error e) : e.kind ≠ .internal := by
  unfold Chain.checkAbort at h
  split at h <;> cases h
  simp [Fault.kind]

theorem Chain.kind_enter {c : Chain} (h : c.enter = .error e) : e.kind ≠ .internal := by
  unfold Chain.enter at h
  split at h <;> cases h
  simp [Fault.kind]

/-- What an interpreter may trust its bridge with, as long as the host is in a good state: a function that
it does not run itself gives a value of the declared type. -/
structure Bridge.Supplies {σ : Type} (m : Ir.Module) (Good : σ → Prop) (b : Bridge σ) : Prop where
  runsInterpreted : ∀ f s r s', Good s.host → b.runsInterpreted f s = some (r, s') → Good s'.host
  call : ∀ f ps t args s₀ s v s', Good s.host → b.runsInterpreted f s₀ = some (.ok false, s) →
    m.signature? f = some (.function ps t) → List.Forall₂ (fun v p => v.Plain m.signature? p) args ps →
    b.call f args s = some (.ok v, s') → Good s'.host ∧ v.Plain m.signature? t

/-- The failures that a bridge hands to an interpreter. -/
def Bridge.Fails {σ : Type} (b : Bridge σ) (e : Fault) : Prop :=
  (∃ f s s', b.runsInterpreted f s = some (.error e, s')) ∨
    ∃ f args s₀ s s', b.runsInterpreted f s₀ = some (.ok false, s) ∧ b.call f args s = some (.error e, s')

theorem Bridge.Interprets.not_fails {b : Bridge σ} (hb : b.Interprets) (e : Fault) : ¬ b.Fails e := by
  rintro (⟨f, s, _, h⟩ | ⟨f, _, s, _, _, h, -⟩) <;> cases (hb f s).symm.trans h

theorem Bridge.Interprets.supplies {b : Bridge σ} (hb : b.Interprets) :
    b.Supplies m fun _ => True where
  runsInterpreted _ _ _ _ _ _ := trivial
  call f _ _ _ s₀ _ _ _ _ hmode := by
    rw [hb f s₀] at hmode
    cases hmode

theorem Frame.Typed.set {f : Frame}
    (hf : f.Typed Γ) (h : f.set r v = .ok g) (hr : Γ.reg r = some t) (hv : v.Has Γ t) :
    g.Typed Γ := by
  constructor
  · intro s w hw
    rw [get_of_set h] at hw
    split at hw
    · rename_i hs
      cases hw
      exact ⟨t, hs ▸ hr, hv⟩
    · exact hf.reg s w hw
  · intro s w hw
    rw [load_of_set h] at hw
    exact hf.slot s w hw

theorem Frame.Typed.store {f : Frame}
    (hf : f.Typed Γ) (h : f.store s v = .ok g) (hs : Γ.slot s = some t) (hv : v.Has Γ t) :
    g.Typed Γ := by
  constructor
  · intro r w hw
    rw [get_of_store h] at hw
    exact hf.reg r w hw
  · intro s' w hw
    rw [load_of_store h] at hw
    split at hw
    · rename_i hs'
      cases hw
      exact ⟨t, hs' ▸ hs, hv⟩
    · exact hf.slot s' w hw

theorem Frame.Typed.setAll {f : Frame} (hf : f.Typed Γ) (h : f.setAll copies = .ok g)
    (hc : ∀ c ∈ copies, ∃ t, Γ.reg c.1 = some t ∧ c.2.Has Γ t) : g.Typed Γ := by
  induction copies generalizing f with
  | nil =>
    cases h
    exact hf
  | cons c copies ih =>
    obtain ⟨f', hset, h⟩ := Except.bind_eq_ok.1 h
    obtain ⟨t, hr, hv⟩ := hc c mem_cons_self
    exact ih (hf.set hset hr hv) h fun d hd => hc d (mem_cons_of_mem c hd)

namespace Ir

variable {m : Module} {f : Function}

theorem Module.reg_lt (h : (m.context f).reg r = some t) : r.index.toNat < f.regTypes.size := by
  obtain ⟨id, hid, -⟩ := Option.bind_eq_some_iff.1 (show (f.regType? r).bind m.ty? = some t from h)
  exact (Array.getElem?_eq_some_iff.1 hid).1

theorem Module.slot_lt (h : (m.context f).slot s = some t) : s.toNat < f.slotTypes.size := by
  obtain ⟨id, hid, -⟩ := Option.bind_eq_some_iff.1
    (show f.slotTypes[s.toNat]?.bind m.ty? = some t from h)
  exact (Array.getElem?_eq_some_iff.1 hid).1

end Ir

namespace Exec

open Ir

/-- The register holds a value. -/
def Defined (frame : Frame) (r : Reg) : Prop := ∃ v, frame.get r = .ok v

theorem Defined.of_set (hs : Defined f s) (h : f.set r v = .ok g) : Defined g s := by
  obtain ⟨w, hw⟩ := hs
  by_cases hsr : s = r
  · exact ⟨v, hsr ▸ Frame.get_of_set_self h⟩
  · exact ⟨w, (Frame.get_of_set_ne h hsr).trans hw⟩

theorem defined_of_setAll {f : Frame} (h : f.setAll copies = .ok g)
    (hr : r ∈ copies.map (·.1)) : Defined g r := by
  induction copies generalizing f with
  | nil => cases hr
  | cons c copies ih =>
    obtain ⟨f', hset, h⟩ := Except.bind_eq_ok.1 h
    by_cases hmem : r ∈ copies.map (·.1)
    · exact ih h hmem
    · have hrc : r = c.1 := by simpa [hmem] using hr
      have hkeep := Frame.get_of_setAll_not_mem h hmem
      rw [hrc, Frame.get_of_set_self hset] at hkeep
      exact ⟨c.2, hrc ▸ hkeep⟩

namespace Activation

/-- The invariant of an activation, for a choice of available registers. -/
structure SoundAt (m : Ir.Module) (entry : Entry) (a : Activation) : Prop where
  typed : a.frame.Typed (m.context a.func)
  regs : a.frame.regs.size = a.func.regTypes.size
  slots : a.frame.slots.size = a.func.slotTypes.size
  here : ∃ is t, a.func.body a.block.index.toNat = some (is, some t) ∧ a.terminator = some t ∧
    a.pending <:+ is
  known : ∃ known, Sequence (m.context a.func) known a.pending ∧
    (∀ r, known r → Defined a.frame r) ∧
    ∀ r, Available entry a.func.body a.block.index.toNat r ↔ known r ∨ r ∈ dsts a.pending
  phis : ∀ dst incoming, .define dst (.phi incoming) ∈ a.pending → Defined a.frame dst
  /-- A reference leads to a slot that holds a value, or is about to be stored through. -/
  refs : ∀ r u s, a.frame.get r = .ok (.ref u s) →
    (∃ v, a.frame.load s = .ok v) ∨ ∃ v, a.pending.head? = some (.store r v)

/-- An activation that returns `ret` and cannot go wrong. -/
def Sound (m : Ir.Module) (ret : Ty) (a : Activation) : Prop :=
  ret.holdsReference = false ∧ ∃ entry,
    a.func.body.Scoped (m.context a.func) ret a.func.params entry ∧ a.SoundAt m entry

/-- An activation that waits for a value of type `t` in a register. -/
structure WaitsAt (m : Ir.Module) (entry : Entry) (dst : Reg) (t : Ty) (a : Activation) : Prop where
  typed : a.frame.Typed (m.context a.func)
  resume : ∀ v, v.Plain m.signature? t →
    ∃ b, a.setReg dst v = .ok b ∧ b.func = a.func ∧ b.SoundAt m entry

variable {m : Ir.Module} {entry : Entry} {a : Activation} {ret : Ty}

section

variable (ha : a.SoundAt m entry)
include ha

theorem SoundAt.here_rest : ∃ is t,
    a.func.body a.block.index.toNat = some (is, some t) ∧ a.terminator = some t ∧
      a.pending.tail <:+ is := by
  obtain ⟨is, t, hbody, ht, hsuffix⟩ := ha.here
  exact ⟨is, t, hbody, ht, (tail_suffix _).trans hsuffix⟩

theorem SoundAt.define {rest : List Instr} {frame : Frame} (hp : a.pending = .define dst rhs :: rest)
    (hset : a.frame.set dst v = .ok frame) (hdst : (m.context a.func).reg dst = some t)
    (hv : v.Has (m.context a.func) t)
    (href : ∀ u s, v = .ref u s → ∃ w, rest.head? = some (.store dst w)) :
    SoundAt m entry { a.rest with frame } := by
  obtain ⟨hregs, hslots⟩ := Frame.size_of_set hset
  obtain ⟨known, hseq, hknown, hall⟩ := ha.known
  have hhere := ha.here_rest
  rw [hp] at hseq hall hhere
  rw [rest_of_cons hp]
  refine ⟨ha.typed.set hset hdst hv, hregs.trans ha.regs, hslots.trans ha.slots, hhere, ?_, ?_, ?_⟩
  · refine ⟨(Instr.define dst rhs).after known, hseq.2, ?_, ?_⟩
    · rintro r (hr | hr)
      · exact (hknown r hr).of_set hset
      · cases hr
        exact ⟨v, Frame.get_of_set_self hset⟩
    · exact fun r => (hall r).trans Instr.after_or_dsts.symm
  · intro d incoming hd
    exact (ha.phis d incoming (hp ▸ mem_cons_of_mem _ hd)).of_set hset
  · intro r u s hr
    simp only at hr ⊢
    rw [Frame.get_of_set hset] at hr
    split at hr
    · rename_i hrd
      cases hr
      subst hrd
      exact .inr (href u s rfl)
    · rcases ha.refs r u s hr with ⟨w, hw⟩ | ⟨w, hw⟩
      · exact .inl ⟨w, (Frame.load_of_set hset s).trans hw⟩
      · rw [hp] at hw
        cases hw

theorem SoundAt.phi {rest : List Instr} (hp : a.pending = .define dst (.phi incoming) :: rest) :
    a.rest.SoundAt m entry := by
  obtain ⟨known, hseq, hknown, hall⟩ := ha.known
  have hhere := ha.here_rest
  rw [hp] at hseq hall hhere
  rw [rest_of_cons hp]
  refine ⟨ha.typed, ha.regs, ha.slots, hhere, ?_, ?_, ?_⟩
  · refine ⟨_, hseq.2, ?_, ?_⟩
    · rintro r (hr | hr)
      · exact hknown r hr
      · cases hr
        exact ha.phis dst incoming (by simp [hp])
    · exact fun r => (hall r).trans Instr.after_or_dsts.symm
  · intro d incoming' hd
    exact ha.phis d incoming' (hp ▸ mem_cons_of_mem _ hd)
  · intro r u s hr
    rcases ha.refs r u s hr with h | ⟨w, hw⟩
    · exact .inl h
    · rw [hp] at hw
      cases hw

theorem SoundAt.store {rest : List Instr} (hp : a.pending = .store addr value :: rest) :
    ∃ frame, execInstr m a.func a.frame (.store addr value) = .ok frame ∧
      SoundAt m entry { a.rest with frame } := by
  obtain ⟨known, hseq, hknown, hall⟩ := ha.known
  have hhere := ha.here_rest
  rw [hp] at hseq hall hhere
  obtain ⟨⟨haddr, hvalue, t, μ, htaddr, htvalue⟩, hseq⟩ := hseq
  obtain ⟨p, hget, hhas⟩ := operand htaddr (ha.typed.supplies (hknown addr haddr))
  obtain ⟨v, hgetv, hhasv⟩ := operand htvalue (ha.typed.supplies (hknown value hvalue))
  obtain ⟨μ', s, rfl, hslot, hplain⟩ := hhas.ref
  have hlt : s.toNat < a.frame.slots.size := ha.slots ▸ Module.slot_lt hslot
  obtain ⟨frame, hstore⟩ : ∃ frame, a.frame.store s v = .ok frame :=
    ⟨_, Frame.store_eq_ok.2 ⟨hlt, rfl⟩⟩
  obtain ⟨hregs, hslots⟩ := Frame.size_of_store hstore
  refine ⟨frame, by simp [execInstr, hget, hgetv, Value.asSlot, hstore], ?_⟩
  rw [rest_of_cons hp]
  refine ⟨ha.typed.store hstore hslot hhasv, hregs.trans ha.regs, hslots.trans ha.slots, hhere,
    ?_, ?_, ?_⟩
  · refine ⟨_, hseq, ?_, ?_⟩
    · rintro r (hr | hr)
      · obtain ⟨w, hw⟩ := hknown r hr
        exact ⟨w, (Frame.get_of_store hstore r).trans hw⟩
      · cases hr
    · exact fun r => (hall r).trans Instr.after_or_dsts.symm
  · intro d incoming hd
    obtain ⟨w, hw⟩ := ha.phis d incoming (hp ▸ mem_cons_of_mem _ hd)
    exact ⟨w, (Frame.get_of_store hstore d).trans hw⟩
  · intro r u s' hr
    simp only at hr ⊢
    rw [Frame.get_of_store hstore] at hr
    rw [Frame.load_of_store hstore]
    by_cases hs : s' = s
    · exact .inl ⟨v, by simp [hs]⟩
    · rcases ha.refs r u s' hr with ⟨w, hw⟩ | ⟨w, hw⟩
      · exact .inl ⟨w, by simp [hs, hw]⟩
      · rw [hp] at hw
        cases hw
        rw [hget] at hr
        cases hr
        exact absurd rfl hs

theorem SoundAt.waits {rest : List Instr} (hp : a.pending = .define dst rhs :: rest)
    (hdst : (m.context a.func).reg dst = some t) : a.rest.WaitsAt m entry dst t := by
  refine ⟨ha.typed, fun v hv => ?_⟩
  have hlt : dst.index.toNat < a.frame.regs.size := ha.regs ▸ Module.reg_lt hdst
  have hset : a.frame.set dst v = .ok (a.frame.put dst v) := Frame.set_eq_ok.2 ⟨hlt, rfl⟩
  have hsound := ha.define hp hset hdst hv.has fun u s h => absurd h (hv.ne_ref u s)
  refine ⟨{ a.rest with frame := a.frame.put dst v }, ?_, rfl, hsound⟩
  have hframe : a.rest.frame = a.frame := rfl
  simp [setReg, hframe, hset, pure_eq_ok]

end

/-! ## Edges -/

theorem phiCopies_isOk {frame : Frame} (h : ∀ dst incoming, .define dst (.phi incoming) ∈ is →
      ∃ p, incoming.find? (·.1 == source) = some p ∧ Defined frame p.2) :
    ∃ copies, phiCopies frame source is = .ok copies ∧
      (∀ c ∈ copies, ∃ incoming p, .define c.1 (.phi incoming) ∈ is ∧
        incoming.find? (·.1 == source) = some p ∧ frame.get p.2 = .ok c.2) ∧
      (PhisLead is → copies.map (·.1) = dsts (is.filter Instr.isPhi)) := by
  induction is with
  | nil => exact ⟨[], rfl, by simp, fun _ => rfl⟩
  | cons i is ih =>
    by_cases hphi : i.isPhi = true
    · obtain ⟨dst, incoming, rfl⟩ := Instr.isPhi_iff.1 hphi
      obtain ⟨p, hp, v, hv⟩ := h dst incoming mem_cons_self
      obtain ⟨copies, hcopies, hmem, hlead⟩ := ih fun d inc hd => h d inc (mem_cons_of_mem _ hd)
      refine ⟨(dst, v) :: copies, ?_, ?_, ?_⟩
      · simp [phiCopies, hp, hv, hcopies, pure_eq_ok]
      · intro c hc
        rcases mem_cons.1 hc with rfl | hc
        · exact ⟨incoming, p, mem_cons_self, hp, hv⟩
        · obtain ⟨inc, q, hinc, hq⟩ := hmem c hc
          exact ⟨inc, q, mem_cons_of_mem _ hinc, hq⟩
      · intro hl
        have := hlead hl.tail
        simp only [map_cons, this]
        rfl
    · have hphi := eq_false_of_ne_true hphi
      refine ⟨[], ?_, by simp, ?_⟩
      · unfold phiCopies
        split
        · rename_i heq
          cases heq
          cases hphi
        · rfl
      · intro hl
        have hnone := hl.filter_of_head hphi
        rw [hnone]
        rfl

theorem find?_of_covers (h : Covers i is) {source : BlockId} (hi : source.index.toNat = i)
    (hd : .define dst (.phi incoming) ∈ is) :
    ∃ p ∈ incoming, incoming.find? (·.1 == source) = some p ∧ p.1 = source := by
  obtain ⟨q, hq, hqi⟩ := h dst incoming hd
  have hsource : q.1 = source := by
    cases source
    exact congrArg BlockId.mk (UInt32.toNat_inj.1 (hqi.trans hi.symm))
  obtain ⟨p, hp⟩ := Option.isSome_iff_exists.1
    (find?_isSome (p := fun x => x.1 == source) |>.2 ⟨q, hq, by simp [hsource]⟩)
  exact ⟨p, mem_of_find?_eq_some hp, hp, by simpa using find?_some hp⟩

theorem Available.defined (ha : a.SoundAt m entry) (hp : a.pending = [])
    (hr : Available entry a.func.body a.block.index.toNat r) : Defined a.frame r := by
  obtain ⟨known, -, hknown, hall⟩ := ha.known
  rcases (hall r).1 hr with hr | hr
  · exact hknown r hr
  · simp [hp, dsts] at hr

/-- An edge that a block may take, with what its phis get. -/
structure Edge (m : Ir.Module) (entry : Entry) (a : Activation) (target : BlockId) (b : Block)
    (copies : List (Reg × Value)) (frame : Frame) : Prop where
  body : a.func.body target.index.toNat = some (b.instrs, some b.terminator)
  block : a.func.block? target = some b
  available : ∀ r, entry target.index.toNat r → Available entry a.func.body a.block.index.toNat r
  copies_phi : ∀ c ∈ copies, ∃ incoming, ∃ p ∈ incoming, .define c.1 (.phi incoming) ∈ b.instrs ∧
    Available entry a.func.body a.block.index.toNat p.2 ∧
    incoming.find? (·.1 == a.block) = some p ∧ a.frame.get p.2 = .ok c.2
  copies_dsts : copies.map (·.1) = dsts (b.instrs.filter Instr.isPhi)
  copied : a.frame.setAll copies = .ok frame
  transfer : ∀ chain, a.transfer target chain = do
    if target.index ≤ a.block.index then chain.checkAbort
    return { a with frame }.enterBlock target

section

variable (hbody : a.func.body.Scoped (m.context a.func) ret a.func.params entry)
  (ha : a.SoundAt m entry)
include hbody ha

theorem SoundAt.edge (hp : a.pending = []) {t : Terminator} (ht : a.terminator = some t)
    (htarget : target ∈ t.successors) :
    ∃ b copies frame, Edge m entry a target b copies frame := by
  obtain ⟨is, t', hhere, ht', -⟩ := ha.here
  obtain rfl := Option.some.inj (ht.symm.trans ht')
  obtain ⟨is', t'', htargetBody, hentry, hcovers⟩ := hbody.edge _ is t hhere target htarget
  obtain ⟨b, hb, heq⟩ := Option.map_eq_some_iff.1 htargetBody
  have hb : a.func.block? target = some b := hb
  cases heq
  have hinputs : ∀ dst incoming, .define dst (.phi incoming) ∈ b.instrs →
      ∃ p ∈ incoming, incoming.find? (·.1 == a.block) = some p ∧
        Available entry a.func.body a.block.index.toNat p.2 := by
    intro dst incoming hd
    obtain ⟨p, hpmem, hfind, hsource⟩ := find?_of_covers hcovers rfl hd
    have hknown := hbody.inputs _ _ _ htargetBody dst incoming hd p hpmem
    rw [hsource] at hknown
    exact ⟨p, hpmem, hfind, hknown⟩
  obtain ⟨copies, hcopies, hmem, hlead⟩ := phiCopies_isOk fun dst incoming hd => by
    obtain ⟨p, -, hfind, hav⟩ := hinputs dst incoming hd
    exact ⟨p, hfind, Available.defined ha hp hav⟩
  have hphi : ∀ c ∈ copies, ∃ incoming, ∃ p ∈ incoming, .define c.1 (.phi incoming) ∈ b.instrs ∧
      Available entry a.func.body a.block.index.toNat p.2 ∧
      incoming.find? (·.1 == a.block) = some p ∧ a.frame.get p.2 = .ok c.2 := by
    intro c hc
    obtain ⟨incoming, p, hd, hfind, hget⟩ := hmem c hc
    obtain ⟨q, hq, hfind', hav⟩ := hinputs c.1 incoming hd
    cases hfind.symm.trans hfind'
    exact ⟨incoming, p, hq, hd, hav, hfind, hget⟩
  obtain ⟨frame, hframe⟩ : ∃ frame, a.frame.setAll copies = .ok frame := by
    refine Frame.setAll_isOk fun c hc => ?_
    obtain ⟨incoming, p, -, hd, -⟩ := hphi c hc
    obtain ⟨u, hu, -⟩ := (hbody.sequence _ _ _ htargetBody).typed hd
    exact ha.regs ▸ Module.reg_lt hu
  refine ⟨b, copies, frame, htargetBody, hb, hentry, hphi, hlead (hbody.lead _ _ _ htargetBody),
    hframe, fun chain => ?_⟩
  simp only [Activation.transfer, hb, hcopies, hframe, ok_bind]

theorem SoundAt.enter (hp : a.pending = []) {frame : Frame} (he : Edge m entry a target b copies frame) :
    ({ a with frame }.enterBlock target).SoundAt m entry := by
  have hseq := hbody.sequence _ _ _ he.body
  have htyped : ∀ c ∈ copies, ∃ u, (m.context a.func).reg c.1 = some u ∧
      c.2.Has (m.context a.func) u := by
    intro c hc
    obtain ⟨incoming, p, hpmem, hd, -, -, hget⟩ := he.copies_phi c hc
    obtain ⟨u, hu, hphi⟩ := hseq.typed hd
    obtain ⟨v, hv, hhas⟩ := operand (hphi p hpmem) (ha.typed.supplies ⟨_, hget⟩)
    cases hget.symm.trans hv
    exact ⟨u, hu, hhas⟩
  obtain ⟨hload, hregs, hslots, -⟩ := Frame.keep_of_setAll he.copied
  have hdefined : ∀ r, Defined a.frame r → Defined frame r := by
    rintro r ⟨v, hv⟩
    by_cases hr : r ∈ copies.map (·.1)
    · exact defined_of_setAll he.copied hr
    · exact ⟨v, (Frame.get_of_setAll_not_mem he.copied hr).trans hv⟩
  have hb' : (({ a with frame } : Activation).func.block? target) = some b := he.block
  simp only [enterBlock, hb', Option.map_some, Option.getD_some]
  refine ⟨ha.typed.setAll he.copied htyped, hregs.trans ha.regs, hslots.trans ha.slots,
    ⟨b.instrs, b.terminator, he.body, rfl, suffix_refl _⟩, ?_, ?_, ?_⟩
  · refine ⟨entry target.index.toNat, hseq, ?_, fun r => available_of_body he.body⟩
    intro r hr
    exact hdefined r (Available.defined ha hp (he.available r hr))
  · intro dst incoming hd
    refine defined_of_setAll he.copied ?_
    rw [he.copies_dsts]
    exact mem_filterMap.2 ⟨_, mem_filter.2 ⟨hd, rfl⟩, rfl⟩
  · intro r u s hr
    refine .inl ?_
    simp only [hload]
    have hold : ∃ r', a.frame.get r' = .ok (.ref u s) := by
      by_cases hmemr : r ∈ copies.map (·.1)
      · obtain ⟨_, p, -, -, -, -, hget⟩ := he.copies_phi _ (Frame.mem_of_setAll he.copied hmemr hr)
        exact ⟨p.2, hget⟩
      · exact ⟨r, (Frame.get_of_setAll_not_mem he.copied hmemr).symm.trans hr⟩
    obtain ⟨r', hr'⟩ := hold
    rcases ha.refs r' u s hr' with h | ⟨w, hw⟩
    · exact h
    · simp [hp] at hw

theorem SoundAt.transfer (hp : a.pending = []) (ht : a.terminator = some t)
    (htarget : target ∈ t.successors) (chain : Chain) :
    (∃ b, a.transfer target chain = .ok b ∧ b.func = a.func ∧ b.SoundAt m entry) ∨
      ∃ e, a.transfer target chain = .error e ∧ e.kind ≠ .internal := by
  obtain ⟨b, copies, frame, he⟩ := ha.edge hbody hp ht htarget
  have hsound := ha.enter hbody hp he
  rw [he.transfer chain]
  split
  · cases hc : chain.checkAbort with
    | ok => exact .inl ⟨_, rfl, rfl, hsound⟩
    | error e => exact .inr ⟨e, rfl, Chain.kind_checkAbort hc⟩
  · exact .inl ⟨_, rfl, rfl, hsound⟩

end

/-! ## Steps -/

/-- What a step of a sound activation gives. -/
def SoundEvent (m : Ir.Module) (ret : Ty) (entry : Entry) (a : Activation) :
    Except Fault Event → Prop
  | .error e => e.kind ≠ .internal
  | .ok (.next b) => b.func = a.func ∧ b.SoundAt m entry
  | .ok (.call b dst target args) => b.func = a.func ∧ ∃ ps t,
      m.signature? target = some (.function ps t) ∧
      List.Forall₂ (fun v p => v.Has (m.context a.func) p) args ps ∧ b.WaitsAt m entry dst t
  | .ok (.done v _) => v.Plain m.signature? ret

theorem SoundAt.delivers (ha : a.SoundAt m entry) {rest : List Instr}
    (hp : a.pending = .define dst rhs :: rest) (hplain : rhs.isPlain = true) :
    ∃ t, (m.context a.func).reg dst = some t ∧
      Delivers m.signature? t (!rhs.isRemovable) (eval m a.func a.frame dst rhs) := by
  obtain ⟨known, hseq, hknown, -⟩ := ha.known
  rw [hp] at hseq
  obtain ⟨-, ⟨t, hdst, htyped⟩, -⟩ := hseq.1
  have hphi : (Instr.define dst rhs).isPhi = false := by
    cases rhs <;> first | rfl | cases hplain
  refine ⟨t, hdst, delivers_eval hdst htyped hplain
    (fun r hr => ha.typed.supplies (hknown r (hseq.1.uses hphi r hr))) fun x u s _ hx => ?_⟩
  rcases ha.refs x u s hx with ⟨v, hv⟩ | ⟨w, hw⟩
  · exact ⟨v, hv, ha.typed.slot s v hv⟩
  · rw [hp] at hw
    cases hw

theorem SoundAt.advance_define (ha : a.SoundAt m entry) {rest : List Instr}
    (hp : a.pending = .define dst rhs :: rest) :
    SoundEvent m ret entry a (a.advanceInstr m (.define dst rhs)) := by
  obtain ⟨known, hseq, hknown, hall⟩ := ha.known
  rw [hp] at hseq
  obtain ⟨hfresh, ⟨t, hdst, htyped⟩, huses⟩ := hseq.1
  have hlt : dst.index.toNat < a.frame.regs.size := ha.regs ▸ Module.reg_lt hdst
  by_cases hplain : rhs.isPlain = true
  · obtain ⟨t, hdst, hsound⟩ := ha.delivers hp hplain
    have hlocal : rhs.isLocal = true := by
      cases rhs <;> first | rfl | cases hplain
    rw [advanceInstr_local hlocal]
    cases hev : eval m a.func a.frame dst rhs with
    | error e =>
      rw [hev] at hsound
      exact hsound.2
    | ok v =>
      rw [hev] at hsound
      have hset : a.frame.set dst v = .ok (a.frame.put dst v) := Frame.set_eq_ok.2 ⟨hlt, rfl⟩
      simp only [ok_bind, hset]
      exact ⟨rfl, ha.define hp hset hdst (Value.Plain.has hsound)
        fun u s h => absurd h (Value.Plain.ne_ref hsound u s)⟩
  · cases rhs with
    | phi incoming => exact ⟨rfl, ha.phi hp⟩
    | stackSlot s =>
      obtain ⟨target, μ, rfl, hslot, htarget⟩ := htyped
      have hregTy : regTy m a.func dst = .ok (.reference target μ) := by
        have : m.regTy? a.func dst = some (.reference target μ) := hdst
        simp [regTy, this, Value.expect]
      have hset : a.frame.set dst (.ref (.reference target μ) s) = .ok (a.frame.put dst _) :=
        Frame.set_eq_ok.2 ⟨hlt, rfl⟩
      simp only [advanceInstr, execInstr, eval, hregTy, ok_bind, pure_eq_ok, hset]
      exact ⟨rfl, ha.define hp hset hdst
        (.inl ⟨target, μ, μ, s, rfl, rfl, hslot, htarget⟩) fun _ _ _ => huses⟩
    | call target args =>
      obtain ⟨ps, hsig, hargs⟩ := htyped
      obtain ⟨vs, hvs, hhas⟩ := operands hargs fun r hr =>
        ha.typed.supplies (hknown r (huses r hr))
      simp only [advanceInstr, hvs, ok_bind]
      exact ⟨rfl, ps, t, hsig, hhas, ha.waits hp hdst⟩
    | callIndirect callee args =>
      obtain ⟨ps, hcallee, hargs⟩ := htyped
      obtain ⟨v, hv, hhasv⟩ := operand hcallee
        (ha.typed.supplies (hknown callee (huses callee (by simp [Rhs.uses]))))
      obtain ⟨id, rfl, hsig⟩ := hhasv.function
      obtain ⟨vs, hvs, hhas⟩ := operands hargs fun r hr =>
        ha.typed.supplies (hknown r (huses r (by simp [Rhs.uses, hr])))
      simp only [advanceInstr, hv, Value.functionId?, Value.expect, hvs, ok_bind]
      exact ⟨rfl, ps, t, hsig, hhas, ha.waits hp hdst⟩
    | _ => exact absurd rfl hplain

section

variable (hret : ret.holdsReference = false)
  (hbody : a.func.body.Scoped (m.context a.func) ret a.func.params entry)
  (ha : a.SoundAt m entry)
include hret hbody ha

theorem SoundAt.advance_end (hp : a.pending = []) (chain : Chain)
    (ht : a.terminator = some t) : SoundEvent m ret entry a (a.advanceEnd chain t) := by
  obtain ⟨is, t', hhere, ht', -⟩ := ha.here
  obtain rfl := Option.some.inj (ht.symm.trans ht')
  have hscoped := hbody.terminator _ is t hhere
  have hgo (target : BlockId) (htarget : target ∈ t.successors) :
      SoundEvent m ret entry a (do return .next (← a.transfer target chain)) := by
    rcases ha.transfer hbody hp ht htarget chain with ⟨b, hb, hfunc, hsound⟩ | ⟨e, he, hkind⟩
    · simp only [hb, ok_bind]
      exact ⟨hfunc, hsound⟩
    · simp only [he, Except.error_bind]
      exact hkind
  cases t with
  | jump target => exact hgo target (by simp [Terminator.successors])
  | branch cond thenBlock elseBlock =>
    obtain ⟨hknown, htyped⟩ := hscoped
    obtain ⟨v, hv, hhas⟩ := operand htyped (ha.typed.supplies (Available.defined ha hp hknown))
    obtain ⟨w, rfl, -⟩ := Value.Has.scalar (k := .bool) hhas
    have hbool : (Value.scalar (.ofKind .bool) w).asBool = .ok (w != 0) := rfl
    simp only [advanceEnd, hv, ok_bind, hbool]
    refine hgo _ ?_
    split <;> simp [Terminator.successors]
  | ret r =>
    obtain ⟨hknown, htyped⟩ := hscoped
    obtain ⟨v, hv, hhas⟩ := operand htyped (ha.typed.supplies (Available.defined ha hp hknown))
    simp only [advanceEnd, Frame.take, hv, ok_bind, pure_eq_ok]
    exact hhas.plain hret

theorem SoundAt.advance (chain : Chain) :
    SoundEvent m ret entry a (a.advance m chain) := by
  unfold Activation.advance
  cases hp : a.pending with
  | cons i rest =>
    cases i with
    | define dst rhs => exact ha.advance_define hp
    | store addr value =>
      obtain ⟨frame, hframe, hsound⟩ := ha.store hp
      simp only [advanceInstr, hframe, ok_bind]
      exact ⟨rfl, hsound⟩
  | nil =>
    obtain ⟨is, t, -, ht, -⟩ := ha.here
    simp only [ht]
    exact ha.advance_end hret hbody hp chain ht

end

/-! ## Runs -/

theorem new_sound {f : Ir.Function} (hf : f.WellFormed m)
    (hps : (m.context f).Regs f.params ps) (hret : m.ty? f.retType = some ret)
    (hargs : List.Forall₂ (fun v p => v.Plain m.signature? p) args ps) :
    ∃ a, Activation.new f args = .ok a ∧ a.func = f ∧ a.Sound m ret := by
  obtain ⟨entry, ret', hret', hplain, hbody⟩ := hf.code
  obtain rfl := Option.some.inj (hret.symm.trans hret')
  have hlen : args.length = f.params.length := hargs.length_eq.trans hps.length_eq.symm
  have hlt : ∀ r ∈ f.params, r.index.toNat < f.regTypes.size := by
    intro r hr
    obtain ⟨t, ht⟩ := hps.mem hr
    exact Module.reg_lt ht
  obtain ⟨frame, hframe⟩ : ∃ g, Frame.new f.name f.params f.regTypes.size f.slotTypes.size args =
      .ok g := Frame.new_isOk hlen hlt
  obtain ⟨hmem, hload, hregs, hslots⟩ := Frame.of_new hframe
  have hget : ∀ r v, frame.get r = .ok v →
      ∃ t, (m.context f).reg r = some t ∧ v.Plain m.signature? t := by
    intro r v hv
    obtain ⟨t, hr, hv⟩ := forall₂_zip_of_forall₂ hps hargs (hmem r v hv)
    exact ⟨t, hr.reg hv.plain, hv⟩
  have hdefined : ∀ r ∈ f.params, Defined frame r := by
    intro r hr
    rw [Frame.new, if_pos hlen] at hframe
    refine defined_of_setAll hframe ?_
    rwa [map_fst_zip (by omega)]
  obtain ⟨b, rest, hblocks⟩ := exists_cons_of_ne_nil hf.nonempty
  have hblock : f.block? ⟨0⟩ = some b := by simp [Function.block?, hblocks]
  have hbody0 := Function.body_of_getElem? (show f.blocks[0]? = some b by simp [hblocks])
  refine ⟨_, by simp only [Activation.new, hframe, ok_bind]; rfl, rfl, hplain, entry, hbody, ?_⟩
  simp only [enterBlock, hblock, Option.map_some, Option.getD_some]
  refine ⟨⟨?_, ?_⟩, hregs, hslots, ⟨b.instrs, b.terminator, hbody0, rfl, suffix_refl _⟩,
    ?_, ?_, ?_⟩
  · intro r v hv
    obtain ⟨t, hr, hv⟩ := hget r v hv
    exact ⟨t, hr, hv.has⟩
  · intro s v hv
    exact absurd hv (hload s v)
  · exact ⟨entry 0, hbody.sequence 0 _ _ hbody0, fun r hr => hdefined r (hbody.start r hr),
      fun r => available_of_body hbody0⟩
  · intro dst incoming hd
    have := hbody.noPhis _ _ hbody0 _ hd
    cases this
  · intro r u s hr
    obtain ⟨t, -, hv⟩ := hget r _ hr
    exact absurd rfl (hv.ne_ref u s)

theorem start_sound (hm : m.WellFormed) (hsig : m.signature? target = some (.function ps t))
    (hargs : List.Forall₂ (fun v p => v.Plain m.signature? p) args ps) :
    ∃ f callee, m.function? target = some f ∧ Activation.new f args = .ok callee ∧ callee.Sound m t := by
  obtain ⟨f, hf, hwf, hps, hret, -, -⟩ := hm.signature hsig
  obtain ⟨callee, hnew, -, hsound⟩ := new_sound hwf hps hret hargs
  exact ⟨f, callee, hf, hnew, hsound⟩

/-- An activation that waits for a value of type `t`, and will return `ret`. -/
structure Waits (m : Ir.Module) (ret : Ty) (dst : Reg) (t : Ty) (a : Activation) : Prop where
  typed : a.frame.Typed (m.context a.func)
  resume : ∀ v, v.Plain m.signature? t → ∃ b, a.setReg dst v = .ok b ∧ b.Sound m ret

theorem Sound.advance (hm : m.WellFormed) (ha : a.Sound m ret) (chain : Chain) :
    match a.advance m chain with
    | .error e => e.kind ≠ .internal
    | .ok (.next b) => b.Sound m ret
    | .ok (.call b dst target args) => ∃ ps t, m.signature? target = some (.function ps t) ∧
        List.Forall₂ (fun v p => v.Plain m.signature? p) args ps ∧ b.Waits m ret dst t
    | .ok (.done v _) => v.Plain m.signature? ret := by
  obtain ⟨hret, entry, hbody, ha⟩ := ha
  have hadv := ha.advance hret hbody chain
  generalize a.advance m chain = r at hadv
  match r, hadv with
  | .error e, hkind => exact hkind
  | .ok (.next b), ⟨hfunc, hb⟩ => exact ⟨hret, entry, hfunc ▸ hbody, hb⟩
  | .ok (.done v b), hv => exact hv
  | .ok (.call b dst target args), ⟨hfunc, ps, t, hsig, hargs, hwaits⟩ =>
    obtain ⟨-, -, -, -, -, -, hplain⟩ := hm.signature hsig
    refine ⟨ps, t, hsig, forall₂_imp_mem hargs fun v _ p hp hv => hv.plain (hplain p hp), hwaits.typed, ?_⟩
    intro v hv
    obtain ⟨c, hset, hfunc', hc⟩ := hwaits.resume v hv
    exact ⟨c, hset, hret, entry, (hfunc'.trans hfunc) ▸ hbody, hc⟩

end Activation

namespace Interpreter

variable {σ : Type} {m : Ir.Module} {i : Interpreter σ} {Good : σ → Prop} {ret₀ : Ty}

/-- Callers that wait, the latest for a value of type `t`, the first of them to return `ret₀`. -/
def Awaits (m : Ir.Module) (ret₀ : Ty) : Ty → List (Activation × Reg) → Prop
  | t, [] => t = ret₀
  | t, (a, dst) :: rest => ∃ ret, a.Waits m ret dst t ∧ Awaits m ret₀ ret rest

/-- A sound interpreter on its way to a value of type `ret₀`, with its host in a good state. -/
def Returns (m : Ir.Module) (Good : σ → Prop) (ret₀ : Ty) (i : Interpreter σ) : Prop :=
  Good i.session.host ∧ ∃ ret, i.active.Sound m ret ∧ Awaits m ret₀ ret i.suspended

/-- It stays on the way, arrives, or fails for a reason other than a broken invariant. -/
def Proceeds (m : Ir.Module) (bridge : Bridge σ) (Good : σ → Prop) (ret₀ : Ty) (j : Interpreter σ) :
    Except Fault (Option Value) → Prop
  | .ok none => j.Returns m Good ret₀
  | .ok (some v) => v.Plain m.signature? ret₀
  | .error e => e.kind ≠ .internal ∨ bridge.Fails e

theorem Returns.step (hm : m.WellFormed) (hb : bridge.Supplies m Good) (hi : i.Returns m Good ret₀)
    (hstep : step m bridge i = some (r, j)) :
    j.Proceeds m bridge Good ret₀ r := by
  obtain ⟨hgood, ret, ha, hwait⟩ := hi
  have hadv := ha.advance hm i.session.chain
  cases step_cases hstep with
  | failed h =>
    rw [h] at hadv
    exact .inl hadv
  | next h =>
    rw [h] at hadv
    exact ⟨hgood, ret, hadv, hwait⟩
  | ended h hs =>
    rw [h] at hadv
    rw [hs] at hwait
    exact hwait ▸ hadv
  | unset h hs hset =>
    -- a caller that waits has a register for the result
    rw [h] at hadv
    rw [hs] at hwait
    obtain ⟨ret', hwaits, -⟩ := hwait
    obtain ⟨b, hb, -⟩ := hwaits.resume _ hadv
    cases hset.symm.trans hb
  | returned h hs hset =>
    rw [h] at hadv
    rw [hs] at hwait
    obtain ⟨ret', hwaits, hrest⟩ := hwait
    obtain ⟨b, hb, hsound⟩ := hwaits.resume _ hadv
    cases hset.symm.trans hb
    exact ⟨hgood, ret', hsound, hrest⟩
  | refused h hcall =>
    rw [h] at hadv
    obtain ⟨ps, t, hsig, hargs, hwaits⟩ := hadv
    obtain ⟨f, callee, hf, hnew, -⟩ := Activation.start_sound hm hsig hargs
    cases hcall with
    | aborted habort => exact .inl (Chain.kind_checkAbort habort)
    | undecided hmode => exact .inr (.inl ⟨_, _, _, hmode⟩)
    | unknown _ hf' => cases hf.symm.trans hf'
    | tooDeep _ henter => exact .inl (Chain.kind_enter henter)
    | unbound _ hf' _ hnew' =>
      cases hf.symm.trans hf'
      cases hnew.symm.trans hnew'
    | failed hmode hcall => exact .inr (.inr ⟨_, _, _, _, _, hmode, hcall⟩)
    | unset hmode hcall hset =>
      -- what comes over the bridge has the declared type, and goes where the caller waits
      have hv := hb.call _ ps t _ _ _ _ _ (hb.runsInterpreted _ _ _ _ hgood hmode) hmode hsig hargs hcall
      obtain ⟨b, hb, -⟩ := hwaits.resume _ hv.2
      cases hset.symm.trans hb
  | called h hcall =>
    rw [h] at hadv
    obtain ⟨ps, t, hsig, hargs, hwaits⟩ := hadv
    cases hcall with
    | started hmode hf' _ hnew' =>
      obtain ⟨f, callee, hf, hnew, hcallee⟩ := Activation.start_sound hm hsig hargs
      cases hf.symm.trans hf'
      cases hnew.symm.trans hnew'
      have hgood' := hb.runsInterpreted _ _ _ _ hgood hmode
      exact ⟨hgood', t, hcallee, ret, hwaits, hwait⟩
    | answered hmode hcall hset =>
      have hv := hb.call _ ps t _ _ _ _ _ (hb.runsInterpreted _ _ _ _ hgood hmode) hmode hsig hargs hcall
      obtain ⟨b, hb, hsound⟩ := hwaits.resume _ hv.2
      cases hset.symm.trans hb
      exact ⟨hv.1, ret, hsound, hwait⟩

theorem Returns.iterate (hm : m.WellFormed) (hb : bridge.Supplies m Good)
    (hi : i.Returns m Good ret₀) (h : Run.iterate (Interpreter.step m bridge) n i = some (r, j)) :
    j.Proceeds m bridge Good ret₀ (r.map some) := by
  obtain ⟨k, hk, hstep⟩ := Run.iterate_last (fun _ _ hi hstep => hi.step hm hb hstep) hi h
  exact hk.step hm hb hstep

/-- An interpreter whose active function is sound and whose callers wait for what it returns. -/
def Sound (m : Ir.Module) (i : Interpreter σ) : Prop := ∃ ret₀, i.Returns m (fun _ => True) ret₀

theorem StepsTo.sound (hm : m.WellFormed) (hb : bridge.Interprets)
    (h : StepsTo m bridge n i j) (hi : i.Sound m) : j.Sound m := by
  induction n generalizing i with
  | zero => exact h ▸ hi
  | succ n ih =>
    obtain ⟨i', hstep, hrest⟩ := h
    exact ih hrest (hi.imp fun _ hi => hi.step hm hb.supplies hstep)

theorem Awaits.typed {suspended : List (Activation × Reg)} (h : Awaits m ret₀ t suspended)
    (ha : a ∈ suspended.map (·.1)) : a.frame.Typed (m.context a.func) := by
  induction suspended generalizing t with
  | nil => cases ha
  | cons p rest ih =>
    obtain ⟨ret, hwaits, hrest⟩ := h
    rcases mem_cons.1 ha with rfl | ha
    · exact hwaits.typed
    · exact ih hrest ha

theorem Sound.typed (hi : i.Sound m)
    (ha : a = i.active ∨ a ∈ i.suspended.map (·.1)) : a.frame.Typed (m.context a.func) := by
  obtain ⟨ret₀, -, ret, ⟨-, entry, -, hactive⟩, hwait⟩ := hi
  rcases ha with rfl | ha
  · exact hactive.typed
  · exact hwait.typed ha

end Interpreter

end Exec

end NumericEngine
