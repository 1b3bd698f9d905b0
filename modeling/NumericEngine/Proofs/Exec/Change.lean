import NumericEngine.Proofs.Exec.Simulation
import NumericEngine.Proofs.Ir.Change

/-!
# Changes keep outcomes

A function runs on after a change as it did before: registers that are read
hold the same values as the registers that stand for them, and slots are equal.
A definition that the change drops is a step that only the code before makes.
-/

namespace NumericEngine.Exec

open NumericEngine.Except (ok_bind pure_eq_ok)
open List
open Ir Activation

variable {m m' : Ir.Module} {frame : Frame}

/-! ## Evaluation -/

theorem mapM_rename {g' : Reg → Except Fault α} {rs : List Reg} (h : ∀ r ∈ rs, g' (ρ r) = g r) :
    (rs.map ρ).mapM g' = rs.mapM g := by
  induction rs with
  | nil => rfl
  | cons r rs ih =>
    simp only [map_cons, mapM_cons, h r mem_cons_self,
      ih fun s hs => h s (mem_cons_of_mem r hs)]

theorem fill_rename (h : ∀ r ∈ rs, frame'.get (ρ r) = frame.get r)
    (i : Nat) (data : Bytes) : fill frame' e i data (rs.map ρ) = fill frame e i data rs := by
  induction rs generalizing i data with
  | nil => rfl
  | cons r rs ih =>
    simp only [map_cons, fill, h r mem_cons_self]
    simp only [ih fun s hs => h s (mem_cons_of_mem r hs)]

theorem eval_rename {rhs : Rhs} (htyped : rhs.Typed (m.context f) t)
    (hreg : ∀ r, m'.regTy? f' r = m.regTy? f r)
    (hconst : ∀ c v, m.constants.get? c = some v → m'.constants.get? c = some v)
    (hget : ∀ r ∈ rhs.uses, frame'.get (ρ r) = frame.get r) (hload : ∀ s, frame'.load s = frame.load s) :
    eval m' f' frame' dst (rhs.mapUses ρ) = eval m f frame dst rhs := by
  have hregTy : regTy m' f' dst = regTy m f dst := by simp only [regTy, hreg]
  cases rhs with
  | const c =>
    obtain ⟨v, hv, -⟩ := htyped
    have hv : m.constants.get? c = some v := hv
    simp only [Rhs.mapUses, eval, hv, hconst c v hv]
  | makeStruct fs =>
    have hget : ∀ r ∈ fs, frame'.get (ρ r) = frame.get r := hget
    simp only [Rhs.mapUses, eval, hregTy, mapM_rename hget]
  | makeTensor es =>
    have hget : ∀ r ∈ es, frame'.get (ρ r) = frame.get r := hget
    simp only [Rhs.mapUses, eval, hregTy, makeTensor, fill_rename hget]
  | extractElement s is =>
    simp only [Rhs.uses, mem_cons, forall_eq_or_imp] at hget
    have hindex : (is.map ρ).mapM (index frame') = is.mapM (index frame) :=
      mapM_rename fun r hr => by simp only [index, hget.2 r hr]
    simp only [Rhs.mapUses, eval, hget.1, hindex]
  | phi | call | callIndirect => rfl
  | _ =>
    simp only [Rhs.uses, mem_cons, forall_eq_or_imp, not_mem_nil, false_implies,
      implies_true, and_true] at hget
    simp only [Rhs.mapUses, eval, hregTy, hget, hload]

theorem asBits_of_bits? {v : Value} (h : v.bits? = some w) : v.asBits = .ok w := by
  simp [Value.asBits, h, Value.expect]

theorem eval_fold {rhs : Rhs} (h : rhs.fold? known = some v)
    (hknown : ∀ r w, (r, w) ∈ known → r ∈ rhs.uses → ∃ u, frame.get r = .ok u ∧ u.bits? = some w) :
    eval m f frame dst rhs = .ok v := by
  have hbits : ∀ r w, known.lookup r = some w → r ∈ rhs.uses →
      ∃ u, frame.get r = .ok u ∧ u.asBits = .ok w := by
    intro r w hr huse
    obtain ⟨l₁, l₂, rfl, -⟩ := lookup_eq_some_iff.1 hr
    obtain ⟨u, hu, hw⟩ := hknown r w (by simp) huse
    exact ⟨u, hu, asBits_of_bits? hw⟩
  cases rhs with
  | binary op k l r checked =>
    simp only [Rhs.fold?] at h
    split at h
    · rename_i a b ha hb
      obtain ⟨w, hw, rfl⟩ := Option.map_eq_some_iff.1 h
      obtain ⟨x, hx, hxa⟩ := hbits l a ha (by simp [Rhs.uses])
      obtain ⟨y, hy, hyb⟩ := hbits r b hb (by simp [Rhs.uses])
      have hw : Scalar.binary op k a b checked = .ok w := Except.toOption_eq_some hw
      simp [eval, hx, hxa, hy, hyb, hw, Value.arith, Except.mapError, pure_eq_ok]
    · cases h
  | compare op k l r =>
    simp only [Rhs.fold?] at h
    split at h
    · rename_i a b ha hb
      obtain ⟨x, hx, hxa⟩ := hbits l a ha (by simp [Rhs.uses])
      obtain ⟨y, hy, hyb⟩ := hbits r b hb (by simp [Rhs.uses])
      cases h
      simp [eval, hx, hxa, hy, hyb, pure_eq_ok]
    · cases h
  | unary op k s checked =>
    obtain ⟨a, ha, h⟩ := Option.bind_eq_some_iff.1 h
    obtain ⟨w, hw, rfl⟩ := Option.map_eq_some_iff.1 h
    obtain ⟨x, hx, hxa⟩ := hbits s a ha (by simp [Rhs.uses])
    have hw : Scalar.unary op k a checked = .ok w := Except.toOption_eq_some hw
    simp [eval, hx, hxa, hw, Value.arith, Except.mapError, pure_eq_ok]
  | convert p q s =>
    obtain ⟨w, hw, rfl⟩ := Option.map_eq_some_iff.1 h
    obtain ⟨x, hx, hxa⟩ := hbits s w hw (by simp [Rhs.uses])
    simp [eval, hx, hxa, pure_eq_ok]
  | _ => cases h

/-! ## Agreement -/

/-- The register is available where the activation stands. -/
def Reached (entry : Entry) (a : Activation) (r : Reg) : Prop :=
  Available entry a.func.body a.block.index.toNat r ∧ r ∉ dsts a.pending

variable {entry : Entry} {a a' : Activation} {c : Change}

theorem Activation.SoundAt.reached (ha : a.SoundAt m entry) :
    Sequence (m.context a.func) (Reached entry a) a.pending ∧
      ∀ r, Reached entry a r → Defined a.frame r := by
  obtain ⟨known, hseq, hdef, hall⟩ := ha.known
  have heq : Reached entry a = known := by
    funext r
    refine propext ⟨fun ⟨hr, hnot⟩ => ((hall r).1 hr).resolve_right hnot, fun hr => ?_⟩
    exact ⟨(hall r).2 (.inl hr), fun hmem => Nat.lt_irrefl _ (hseq.lt hr hmem)⟩
  rw [heq]
  exact ⟨hseq, hdef⟩

theorem Reached.of_rest {rest : List Instr} (hp : a.pending = i :: rest)
    (h : Reached entry { a with pending := rest, frame := frame } r) :
    Reached entry a r ∨ i.dst? = some r := by
  by_cases hi : i.dst? = some r
  · exact .inr hi
  · refine .inl ⟨h.1, fun hmem => ?_⟩
    rw [hp] at hmem
    obtain ⟨j, hj, hjr⟩ := mem_filterMap.1 hmem
    rcases mem_cons.1 hj with rfl | hj
    · exact hi hjr
    · exact h.2 (mem_filterMap.2 ⟨j, hj, hjr⟩)

/-- An activation before a change and one after it. -/
structure Agrees (c : Change) (m m' : Ir.Module) (entry : Entry) (a a' : Activation) : Prop where
  block : a'.block = a.block
  terminator : a'.terminator = a.terminator.map (·.mapUses c.subst)
  pending : c.OnInstrs m m' a.pending a'.pending
  regs : a'.frame.regs.size = a.frame.regs.size
  slots : a'.frame.slots.size = a.frame.slots.size
  load : ∀ s, a'.frame.load s = a.frame.load s
  get : ∀ r, Reached entry a r → c.live r → a'.frame.get (c.subst r) = a.frame.get r
  phis : ∀ d incoming, .define d (.phi incoming) ∈ a.pending → c.live d →
    a'.frame.get (c.subst d) = a.frame.get d
  facts : ∀ r w, (r, w) ∈ c.facts → Reached entry a r →
    ∀ v, a.frame.get r = .ok v → v.bits? = some w

namespace Agrees

variable {d : Reg} {rhs : Rhs} {rest rest' : List Instr}

theorem next {g g' : Frame} (h : Agrees c m m' entry a a') (hp : a.pending = i :: rest)
    (hrest : c.OnInstrs m m' rest rest') (hregs : g'.regs.size = g.regs.size)
    (hslots : g'.slots.size = g.slots.size) (hload : ∀ s, g'.load s = g.load s)
    (hkeep : ∀ r, Reached entry a r → g.get r = a.frame.get r ∧
      g'.get (c.subst r) = a'.frame.get (c.subst r))
    (hnew : ∀ d, i.dst? = some d → (c.live d → g'.get (c.subst d) = g.get d) ∧
      ∀ w, (d, w) ∈ c.facts → ∀ v, g.get d = .ok v → v.bits? = some w)
    (hphis : ∀ d incoming, .define d (.phi incoming) ∈ rest → c.live d → g'.get (c.subst d) = g.get d) :
    Agrees c m m' entry { a with pending := rest, frame := g }
      { a' with pending := rest', frame := g' } := by
  refine ⟨h.block, h.terminator, hrest, hregs, hslots, hload, ?_, hphis, ?_⟩
  · intro r hr hlive
    rcases hr.of_rest hp with hr | hr
    · exact (hkeep r hr).2.trans ((h.get r hr hlive).trans (hkeep r hr).1.symm)
    · exact (hnew r hr).1 hlive
  · intro r w hw hr u hu
    rcases hr.of_rest hp with hr | hr
    · exact h.facts r w hw hr u ((hkeep r hr).1.symm.trans hu)
    · exact (hnew r hr).2 w hw u hu

theorem rank_lt (ha : a.SoundAt m entry) (hp : a.pending = .define d rhs :: rest)
    (hr : Reached entry a r) : rank a.func.params r < rank a.func.params d := by
  have hseq := ha.reached.1
  rw [hp] at hseq
  exact hseq.1.1 r hr

theorem define (hle : ∀ r, rank a.func.params (c.subst r) ≤ rank a.func.params r) (ha : a.SoundAt m entry)
    (h : Agrees c m m' entry a a') (hp : a.pending = .define d rhs :: rest)
    (hno : ∀ i ∈ rest, i.isPhi = false) (hrest : c.OnInstrs m m' rest rest') (hd : c.subst d = d)
    {v : Value} (hfacts : ∀ w, (d, w) ∈ c.facts → v.bits? = some w)
    (hset : a.frame.set d v = .ok g) (hset' : a'.frame.set d v = .ok g') :
    Agrees c m m' entry { a with pending := rest, frame := g }
      { a' with pending := rest', frame := g' } := by
  obtain ⟨hregs, hslots⟩ := Frame.size_of_set hset
  obtain ⟨hregs', hslots'⟩ := Frame.size_of_set hset'
  refine h.next hp hrest (hregs'.trans (h.regs.trans hregs.symm)) (hslots'.trans (h.slots.trans hslots.symm))
    (fun s => (Frame.load_of_set hset' s).trans ((h.load s).trans (Frame.load_of_set hset s).symm)) ?_ ?_
    fun e incoming he => nomatch hno _ he
  · -- what stands for a register reached before comes before the one defined, too
    intro r hr
    have hlt := rank_lt ha hp hr
    exact ⟨Frame.get_of_set_ne hset fun heq => Nat.lt_irrefl _ (heq ▸ hlt),
      Frame.get_of_set_ne hset' fun heq => Nat.lt_irrefl _ (Nat.lt_of_le_of_lt (heq ▸ hle r) hlt)⟩
  · rintro _ ⟨⟩
    rw [hd, Frame.get_of_set_self hset, Frame.get_of_set_self hset']
    refine ⟨fun _ => rfl, fun w hw u hu => ?_⟩
    cases hu
    exact hfacts w hw

theorem phi (h : Agrees c m m' entry a a')
    (hp : a.pending = .define d (.phi incoming) :: rest) (hrest : c.OnInstrs m m' rest rest')
    (hfacts : ∀ w, (d, w) ∉ c.facts) :
    Agrees c m m' entry { a with pending := rest } { a' with pending := rest' } := by
  refine h.next hp hrest h.regs h.slots h.load (fun _ _ => ⟨rfl, rfl⟩) ?_
    fun e inc he => h.phis e inc (hp ▸ mem_cons_of_mem _ he)
  rintro _ ⟨⟩
  exact ⟨h.phis d incoming (hp ▸ mem_cons_self), fun w hw => absurd hw (hfacts w)⟩

/-- Only the activation before the change defines a register that nothing reads. -/
theorem drop (ha : a.SoundAt m entry) (h : Agrees c m m' entry a a')
    (hp : a.pending = .define d rhs :: rest) (hno : ∀ i ∈ rest, i.isPhi = false)
    (hrest : c.OnInstrs m m' rest a'.pending) (hdead : ¬ c.live d) (hfacts : ∀ w, (d, w) ∉ c.facts)
    (hset : a.frame.set d v = .ok g) :
    Agrees c m m' entry { a with pending := rest, frame := g } a' := by
  obtain ⟨hregs, hslots⟩ := Frame.size_of_set hset
  refine h.next hp hrest (h.regs.trans hregs.symm) (h.slots.trans hslots.symm)
    (fun s => (h.load s).trans (Frame.load_of_set hset s).symm) (fun r hr => ?_) ?_
    fun e incoming he => nomatch hno _ he
  · exact ⟨Frame.get_of_set_ne hset fun heq => Nat.lt_irrefl _ (heq ▸ rank_lt ha hp hr), rfl⟩
  · rintro _ ⟨⟩
    exact ⟨fun hlive => absurd hlive hdead, fun w hw => absurd hw (hfacts w)⟩

theorem store (h : Agrees c m m' entry a a')
    (hp : a.pending = .store addr value :: rest) (hrest : c.OnInstrs m m' rest rest')
    (hstore : a.frame.store s v = .ok g) (hstore' : a'.frame.store s v = .ok g') :
    Agrees c m m' entry { a with pending := rest, frame := g }
      { a' with pending := rest', frame := g' } := by
  obtain ⟨hregs, hslots⟩ := Frame.size_of_store hstore
  obtain ⟨hregs', hslots'⟩ := Frame.size_of_store hstore'
  refine h.next hp hrest (hregs'.trans (h.regs.trans hregs.symm)) (hslots'.trans (h.slots.trans hslots.symm))
    (fun s' => ?_) (fun r _ => ⟨Frame.get_of_store hstore r, Frame.get_of_store hstore' _⟩) nofun
    fun e incoming he hlive => ?_
  · simp only [Frame.load_of_store hstore, Frame.load_of_store hstore', h.load s']
  · simp only [Frame.get_of_store hstore, Frame.get_of_store hstore',
      h.phis e incoming (hp ▸ mem_cons_of_mem _ he) hlive]

end Agrees

/-! ## Edges -/

theorem Activation.Edge.input (he : Edge m entry a target b copies frame)
    (hseq : Sequence (m.context a.func) known b.instrs) (hd : .define d (.phi incoming) ∈ b.instrs) :
    ∃ p ∈ incoming, incoming.find? (·.1 == a.block) = some p ∧
      Available entry a.func.body a.block.index.toNat p.2 ∧ frame.get d = a.frame.get p.2 := by
  have hmem : d ∈ copies.map (·.1) := by
    rw [he.copies_dsts]
    exact mem_dsts (mem_filter.2 ⟨hd, rfl⟩)
  obtain ⟨⟨_, v⟩, hc, rfl⟩ := mem_map.1 hmem
  obtain ⟨incoming', p, hp, hd', hav, hfind, hget⟩ := he.copies_phi _ hc
  cases hseq.eq_of_define hd hd'
  have hnodup : (copies.map (·.1)).Nodup := by
    rw [he.copies_dsts]
    exact hseq.nodup.sublist (filter_sublist.filterMap _)
  exact ⟨p, hp, hfind, hav, (Frame.get_of_setAll he.copied hnodup hc).trans hget.symm⟩

namespace Agrees

theorem edge (hf : c.OnFunction m m' a.func a'.func)
    (hbody : a.func.body.Scoped (m.context a.func) ret a.func.params entry)
    (ha : a.SoundAt m entry) (hp : a.pending = []) (h : Agrees c m m' entry a a')
    (he : Edge m entry a target b copies g) :
    ∃ g', (∀ chain, a'.transfer target chain = do
        if target.index ≤ a.block.index then chain.checkAbort
        return { a' with frame := g' }.enterBlock target) ∧
      Agrees c m m' entry ({ a with frame := g }.enterBlock target)
        ({ a' with frame := g' }.enterBlock target) := by
  obtain ⟨b', hb', hblock⟩ := forall₂_getElem?_left hf.blocks he.block
  have hb' : a'.func.block? target = some b' := hb'
  have hseq := hbody.sequence _ _ _ he.body
  have hlead := hbody.lead _ _ _ he.body
  -- registers available at the end of the block agree
  have hget : ∀ r, Available entry a.func.body a.block.index.toNat r → c.live r →
      a'.frame.get (c.subst r) = a.frame.get r := fun r hr hlive =>
    h.get r ⟨hr, by simp [hp, dsts]⟩ hlive
  have hdefined : ∀ r, Available entry a.func.body a.block.index.toNat r → Defined a.frame r :=
    fun r hr => Available.defined ha hp hr
  have hin : ∀ d incoming', .define d (.phi incoming') ∈ b'.instrs → ∃ incoming p',
      .define d (.phi incoming) ∈ b.instrs ∧ incoming'.find? (·.1 == a'.block) = some p' ∧
      c.subst d = d ∧ g.get d = a'.frame.get p'.2 ∧ Defined a'.frame p'.2 := by
    intro d incoming' hd'
    obtain ⟨incoming, hd, rfl, hlive, hdst⟩ := hblock.instrs.mem_phi hd'
    obtain ⟨p, hpmem, hfind, hav, hg⟩ := he.input hseq hd
    have heq := hget p.2 hav (hlive p hpmem)
    refine ⟨incoming, (p.1, c.subst p.2), hd, ?_, hdst, hg.trans heq.symm, ?_⟩
    · rw [find?_map, h.block]
      exact congrArg _ hfind
    · obtain ⟨v, hv⟩ := hdefined p.2 hav
      exact ⟨v, heq.trans hv⟩
  obtain ⟨copies', hcopies', hmem', hdsts'⟩ := phiCopies_isOk fun d incoming' hd' => by
    obtain ⟨-, p', -, hfind, -, -, hdef⟩ := hin d incoming' hd'
    exact ⟨p', hfind, hdef⟩
  have hdsts' := hdsts' (hblock.instrs.phisLead hlead)
  have hsub : ∀ d, d ∈ copies'.map (·.1) → d ∈ dsts b.instrs := by
    intro d hd
    rw [hdsts'] at hd
    exact hblock.instrs.dsts_sublist.subset ((filter_sublist.filterMap _).subset hd)
  obtain ⟨g', hg'⟩ : ∃ g', a'.frame.setAll copies' = .ok g' := by
    refine Frame.setAll_isOk fun q hq => ?_
    obtain ⟨rhs, hrhs⟩ := mem_dsts_define (hsub q.1 (mem_map_of_mem hq))
    obtain ⟨u, hu, -⟩ := hseq.typed hrhs
    rw [h.regs, ha.regs]
    exact Module.reg_lt hu
  rw [h.block] at hcopies'
  refine ⟨g', fun chain => ?_, ?_⟩
  · simp only [Activation.transfer, hb', hcopies', hg', ok_bind, h.block]
  obtain ⟨hload, hregs, hslots, -⟩ := Frame.keep_of_setAll he.copied
  obtain ⟨hload', hregs', hslots', -⟩ := Frame.keep_of_setAll hg'
  have hb₁ : ({ a with frame := g } : Activation).func.block? target = some b := he.block
  have hb₂ : ({ a' with frame := g' } : Activation).func.block? target = some b' := hb'
  simp only [enterBlock, hb₁, hb₂, Option.map_some, Option.getD_some]
  have hkeep : ∀ r, (∀ d ∈ dsts b.instrs, rank a.func.params r < rank a.func.params d) →
    g.get r = a.frame.get r := by
    intro r hr
    refine Frame.get_of_setAll_not_mem he.copied fun hmem => Nat.lt_irrefl _ (hr r ?_)
    rw [he.copies_dsts] at hmem
    exact (filter_sublist.filterMap _).subset hmem
  have hkeep' : ∀ r, (∀ d ∈ dsts b.instrs, rank a.func.params r < rank a.func.params d) →
    g'.get r = a'.frame.get r := fun r hr => Frame.get_of_setAll_not_mem hg' fun hmem =>
      Nat.lt_irrefl _ (hr r (hsub r hmem))
  have hentry : ∀ r, Available entry a.func.body target.index.toNat r → r ∉ dsts b.instrs →
      entry target.index.toNat r :=
    fun r hr hnot => ((available_of_body he.body).1 hr).resolve_right hnot
  refine ⟨rfl, congrArg some hblock.terminator, hblock.instrs, ?_, ?_, ?_, ?_, ?_, ?_⟩
  · exact hregs'.trans (h.regs.trans hregs.symm)
  · exact hslots'.trans (h.slots.trans hslots.symm)
  · exact fun s => (hload' s).trans ((h.load s).trans (hload s).symm)
  · rintro r ⟨hr, hnot⟩ hlive
    have hr := hentry r hr hnot
    have hlt := fun d hd => hseq.lt (d := d) hr hd
    simp only [hkeep r hlt, hkeep' _ fun d hd => Nat.lt_of_le_of_lt (hf.le r) (hlt d hd)]
    exact hget r (he.available r hr) hlive
  · intro d incoming hd hlive
    have hd : .define d (.phi incoming) ∈ b.instrs := hd
    rcases hblock.instrs.phi_mem hd hlive with ⟨hd', hdst⟩ | hdrop
    · -- a phi that stays gets the same value on both sides
      have hmem : d ∈ copies'.map (·.1) := by
        rw [hdsts']
        exact mem_dsts (mem_filter.2 ⟨hd', rfl⟩)
      obtain ⟨w, hw⟩ := defined_of_setAll hg' hmem
      obtain ⟨inc, q, hq, hfindq, hgetq⟩ := hmem' _ (Frame.mem_of_setAll hg' hmem hw)
      obtain ⟨_, p', -, hfind, -, hg, -⟩ := hin d inc hq
      cases hfindq.symm.trans hfind
      simp only [hdst, hw, hg, hgetq]
    · -- a phi that another register stands for got the value of that register
      obtain ⟨incoming', hd', hne, hall⟩ := hdrop
      obtain ⟨p, hpmem, -, hav, hg⟩ := he.input hseq hd'
      have hlt := fun e hmem => hf.drops_lt hbody he.body ⟨incoming', hd', hne, hall⟩ (d := e) hmem
      simp only [hkeep' _ hlt, hg]
      rw [← (hall p hpmem).2]
      exact hget p.2 hav (hall p hpmem).1
  · rintro r w hw ⟨hr, hnot⟩ v hv
    have hr := hentry r hr hnot
    have hlt := fun d hd => hseq.lt (d := d) hr hd
    rw [hkeep r hlt] at hv
    exact h.facts r w hw ⟨he.available r hr, by simp [hp, dsts]⟩ v hv

end Agrees

/-! ## Steps -/

/-- Activations that run the same function, before and after a change. -/
structure Corresponds (c : Change) (m m' : Ir.Module) (entry : Entry) (ret : Ty) (a a' : Activation) :
    Prop where
  plain : ret.holdsReference = false
  body : a.func.body.Scoped (m.context a.func) ret a.func.params entry
  sound : a.SoundAt m entry
  change : c.OnFunction m m' a.func a'.func
  agrees : Agrees c m m' entry a a'

def Related (m m' : Ir.Module) (a a' : Activation) : Prop :=
  ∃ c entry ret, Corresponds c m m' entry ret a a'

namespace Corresponds

variable {ret : Ty} {d : Reg} {rhs : Rhs} {rest : List Instr} (h : Corresponds c m m' entry ret a a')
include h

theorem related {b b' : Activation} (hb : b.func = a.func ∧ b.SoundAt m entry) (hb' : b'.func = a'.func)
    (hagrees : Agrees c m m' entry b b') : Related m m' b b' :=
  ⟨c, entry, ret, h.plain, by rw [hb.1]; exact h.body, hb.2, by rw [hb.1, hb']; exact h.change, hagrees⟩

theorem sound_instr (hp : a.pending = i :: rest) : SoundEvent m ret entry a (a.advanceInstr m i) := by
  have hsound := h.sound.advance h.plain h.body default
  rwa [advance_cons hp] at hsound

theorem get_uses (hp : a.pending = .define d rhs :: rest) (hphi : (Instr.define d rhs).isPhi = false)
    (hlive : ∀ r ∈ rhs.uses, c.live r) :
    ∀ r ∈ rhs.uses, a'.frame.get (c.subst r) = a.frame.get r := by
  intro r hr
  have hseq := h.sound.reached.1
  rw [hp] at hseq
  exact h.agrees.get r (hseq.1.uses hphi r hr) (hlive r hr)

theorem noPhis (hp : a.pending = i :: rest) (hi : i.isPhi = false) : ∀ j ∈ rest, j.isPhi = false := by
  obtain ⟨is, t, hhere, -, hsuffix⟩ := h.sound.here
  exact ((h.body.lead _ is _ hhere).suffix (hp ▸ hsuffix)).none_of_head hi

theorem set_isOk (hp : a.pending = .define d rhs :: rest) (v : Value) :
    a.frame.set d v = .ok (a.frame.put d v) ∧ a'.frame.set d v = .ok (a'.frame.put d v) := by
  have hseq := h.sound.reached.1
  rw [hp] at hseq
  obtain ⟨-, ⟨t, hd, -⟩, -⟩ := hseq.1
  have hlt : d.index.toNat < a.frame.regs.size := h.sound.regs ▸ Module.reg_lt hd
  exact ⟨Frame.set_eq_ok.2 ⟨hlt, rfl⟩, Frame.set_eq_ok.2 ⟨h.agrees.regs ▸ hlt, rfl⟩⟩

theorem call (hp : a.pending = .define d rhs :: rest) (hp' : a'.pending = i' :: rest')
    (hphi : (Instr.define d rhs).isPhi = false)
    (hrest : c.OnInstrs m m' rest rest') (hd : c.subst d = d) (hfacts : ∀ w, (d, w) ∉ c.facts)
    (hsound : SoundEvent m ret entry a (.ok (.call a.rest d target args))) :
    Matches m (Related m m') (.ok (.call a.rest d target args))
      (.ok (.call a'.rest d target args)) := by
  obtain ⟨-, ps, t, hsig, -, hwaits⟩ := hsound
  refine ⟨rfl, rfl, fun ps' t' v hsig' hv => ?_⟩
  cases hsig.symm.trans hsig'
  obtain ⟨b, hb, hbsound⟩ := hwaits.resume v hv
  obtain ⟨hset, hset'⟩ := h.set_isOk hp v
  have hagree := h.agrees.define h.change.le h.sound hp (h.noPhis hp hphi) hrest hd
    (fun w hw => absurd hw (hfacts w)) hset hset'
  have hb' : a.rest.setReg d v = .ok { a with pending := rest, frame := a.frame.put d v } := by
    rw [rest_of_cons hp]
    simp only [setReg, hset, ok_bind, pure_eq_ok]
  obtain rfl := Except.ok.inj (hb.symm.trans hb')
  refine ⟨_, { a' with pending := rest', frame := a'.frame.put d v }, hb, ?_, h.related hbsound rfl hagree⟩
  rw [rest_of_cons hp']
  simp only [setReg, hset', ok_bind, pure_eq_ok]

/-- Both activations run the same instruction. -/
theorem step_keep (hm : m.Changes m') (hp : a.pending = i :: rest)
    (hp' : a'.pending = i.mapUses c.subst :: rest') (huses : ∀ r ∈ i.uses, c.live r)
    (hdst : ∀ d, i.dst? = some d → c.subst d = d)
    (hfacts : ∀ d rhs w, i = .define d rhs → (d, w) ∈ c.facts →
      ∃ k v, rhs = .const k ∧ m.constants.get? k = some v ∧ v.bits? = some w)
    (hrest : c.OnInstrs m m' rest rest') :
    Matches m (Related m m') (a.advanceInstr m i) (a'.advanceInstr m' (i.mapUses c.subst)) := by
  have hsound := h.sound_instr hp
  have ha := h.sound
  have hseq := ha.reached.1
  rw [hp] at hseq
  cases i with
  | store addr value =>
    obtain ⟨haddr, hvalue, t, μ, htaddr, htvalue⟩ := hseq.1
    have hgeta := h.agrees.get addr haddr (huses addr (by simp [Instr.uses]))
    have hgetv := h.agrees.get value hvalue (huses value (by simp [Instr.uses]))
    obtain ⟨v, hv⟩ := ha.reached.2 value hvalue
    obtain ⟨p, hpget, hhas⟩ := operand htaddr (ha.typed.supplies (ha.reached.2 addr haddr))
    obtain ⟨μ', s, rfl, hslot, -⟩ := hhas.ref
    have hlt : s.toNat < a.frame.slots.size := ha.slots ▸ Module.slot_lt hslot
    have hstore : a.frame.store s v = .ok _ := Frame.store_eq_ok.2 ⟨hlt, rfl⟩
    have hstore' : a'.frame.store s v = .ok _ := Frame.store_eq_ok.2 ⟨h.agrees.slots ▸ hlt, rfl⟩
    simp only [advanceInstr, execInstr, hpget, hv, Value.asSlot, hstore, ok_bind] at hsound
    simp only [Instr.mapUses, advanceInstr, execInstr, hgeta, hgetv, hpget, hv, Value.asSlot,
      hstore, hstore', ok_bind]
    refine h.related hsound rfl ?_
    simp only [rest_of_cons hp, rest_of_cons hp']
    exact h.agrees.store hp hrest hstore hstore'
  | define d rhs =>
    have hd := hdst d rfl
    have hget (hphi : (Instr.define d rhs).isPhi = false) := h.get_uses hp hphi huses
    have hnone (hrhs : ∀ k, rhs ≠ .const k) : ∀ w, (d, w) ∉ c.facts := fun w hw => by
      obtain ⟨k, v, rfl, -⟩ := hfacts d rhs w rfl hw
      exact hrhs k rfl
    by_cases hlocal : rhs.isLocal = true
    · have hphi : (Instr.define d rhs).isPhi = false := by
        cases rhs <;> first | rfl | cases hlocal
      have hlocal' : (rhs.mapUses c.subst).isLocal = true := by
        cases rhs <;> first | rfl | cases hlocal
      obtain ⟨-, ⟨t, -, htyped⟩, -⟩ := hseq.1
      have heval : eval m' a'.func a'.frame d (rhs.mapUses c.subst) = eval m a.func a.frame d rhs :=
        eval_rename htyped (h.change.regTy? hm) hm.constants (hget hphi) h.agrees.load
      rw [advanceInstr_local hlocal] at hsound
      rw [Instr.mapUses, advanceInstr_local hlocal, advanceInstr_local hlocal', heval]
      cases hev : eval m a.func a.frame d rhs with
      | error e => rfl
      | ok v =>
        obtain ⟨hset, hset'⟩ := h.set_isOk hp v
        simp only [hev, hset, ok_bind] at hsound
        simp only [hset, hset', ok_bind]
        refine h.related hsound rfl ?_
        simp only [rest_of_cons hp, rest_of_cons hp']
        refine h.agrees.define h.change.le h.sound hp (h.noPhis hp hphi) hrest hd ?_ hset hset'
        intro w hw
        obtain ⟨k, u, rfl, hk, hbits⟩ := hfacts d rhs w rfl hw
        simp only [eval, hk, Value.expect, Except.ok.injEq] at hev
        exact hev ▸ hbits
    · cases rhs with
      | phi incoming =>
        refine h.related hsound rfl ?_
        simp only [rest_of_cons hp, rest_of_cons hp']
        exact h.agrees.phi hp hrest (hnone (by simp))
      | call target args =>
        have hget := hget rfl
        obtain ⟨-, ⟨t, -, ps, -, hargs⟩, -⟩ := hseq.1
        obtain ⟨vs, hvs, -⟩ := operands hargs fun r hr =>
          ha.typed.supplies (ha.reached.2 r (hseq.1.uses rfl r hr))
        have hvs' : (args.map c.subst).mapM a'.frame.get = .ok vs := (mapM_rename hget).trans hvs
        simp only [advanceInstr, hvs, ok_bind] at hsound
        simp only [Instr.mapUses, Rhs.mapUses, advanceInstr, hvs, hvs', ok_bind]
        exact h.call hp hp' rfl hrest hd (hnone (by simp)) hsound
      | callIndirect callee args =>
        have hget := hget rfl
        have hdef := fun r hr => ha.reached.2 r (hseq.1.uses rfl r hr)
        obtain ⟨-, ⟨t, -, ps, hcallee, hargs⟩, -⟩ := hseq.1
        obtain ⟨v, hv, hhas⟩ := operand hcallee (ha.typed.supplies (hdef callee (by simp [Rhs.uses])))
        obtain ⟨target, rfl, -⟩ := hhas.function
        obtain ⟨vs, hvs, -⟩ := operands hargs fun r hr =>
          ha.typed.supplies (hdef r (by simp [Rhs.uses, hr]))
        have hv' := (hget callee (by simp [Rhs.uses])).trans hv
        have hvs' : (args.map c.subst).mapM a'.frame.get = .ok vs :=
          (mapM_rename fun r hr => hget r (by simp [Rhs.uses, hr])).trans hvs
        simp only [advanceInstr, hv, hvs, Value.functionId?, Value.expect, ok_bind] at hsound
        simp only [Instr.mapUses, Rhs.mapUses, advanceInstr, hv, hv', hvs, hvs', Value.functionId?,
          Value.expect, ok_bind]
        exact h.call hp hp' rfl hrest hd (hnone (by simp)) hsound
      | _ => exact absurd rfl hlocal

/-- One activation evaluates what the other has as a constant. -/
theorem step_fold
    (hp : a.pending = .define d rhs :: rest) (hp' : a'.pending = .define d (.const k) :: rest')
    (hd : c.subst d = d) (hknown : known ⊆ c.facts) (hvalue : rhs.fold? known = some v)
    (hconst : m'.constants.get? k = some v) (hfacts : ∀ w, (d, w) ∈ c.facts → v.bits? = some w)
    (hrest : c.OnInstrs m m' rest rest') :
    Matches m (Related m m') (a.advanceInstr m (.define d rhs))
      (a'.advanceInstr m' (.define d (.const k))) := by
  have hsound := h.sound_instr hp
  have hlocal : rhs.isLocal = true := by
    cases rhs <;> first | rfl | cases hvalue
  have hphi : (Instr.define d rhs).isPhi = false := by
    cases rhs <;> first | rfl | cases hvalue
  have ha := h.sound
  have hseq := ha.reached.1
  rw [hp] at hseq
  have heval : eval m a.func a.frame d rhs = .ok v := by
    refine eval_fold hvalue fun r w hw hr => ?_
    have hreached := hseq.1.uses hphi r hr
    obtain ⟨u, hu⟩ := ha.reached.2 r hreached
    exact ⟨u, hu, h.agrees.facts r w (hknown hw) hreached u hu⟩
  obtain ⟨hset, hset'⟩ := h.set_isOk hp v
  rw [advanceInstr_local hlocal] at hsound ⊢
  simp only [heval, hset, ok_bind] at hsound ⊢
  rw [advanceInstr_local rfl]
  simp only [eval, hconst, Value.expect, hset', ok_bind]
  refine h.related hsound rfl ?_
  simp only [rest_of_cons hp, rest_of_cons hp']
  exact h.agrees.define h.change.le h.sound hp (h.noPhis hp hphi) hrest hd hfacts hset hset'

/-- One activation runs a definition that nothing reads, and does not fail. -/
theorem step_dead (hp : a.pending = .define d rhs :: rest) (hdead : ¬ c.live d)
    (hrem : rhs.isRemovable = true) (hfacts : ∀ w, (d, w) ∉ c.facts)
    (hrest : c.OnInstrs m m' rest a'.pending) :
    ∃ b, a.advanceInstr m (.define d rhs) = .ok (.next b) ∧
      b.pending.length < (Instr.define d rhs :: rest).length ∧ Related m m' b a' := by
  have hsound := h.sound_instr hp
  cases hphi : (Instr.define d rhs).isPhi with
  | true =>
    cases rhs with
    | phi incoming =>
      exact ⟨_, rfl, by simp [rest_of_cons hp], h.related hsound rfl
        (rest_of_cons hp ▸ h.agrees.phi hp hrest hfacts)⟩
    | _ => cases hphi
  | false =>
    have hplain : rhs.isPlain = true := by
      cases rhs with
      | phi => cases hphi
      | stackSlot | call | callIndirect => cases hrem
      | _ => rfl
    have hlocal : rhs.isLocal = true := by
      cases rhs <;> first | rfl | cases hplain
    obtain ⟨t, -, hdeliver⟩ := h.sound.delivers hp hplain
    cases hev : eval m a.func a.frame d rhs with
    | error e =>
      rw [hev] at hdeliver
      simp [Delivers, hrem] at hdeliver
    | ok v =>
      obtain ⟨hset, -⟩ := h.set_isOk hp v
      rw [advanceInstr_local hlocal] at hsound ⊢
      simp only [hev, hset, ok_bind] at hsound ⊢
      refine ⟨_, rfl, by simp [rest_of_cons hp], h.related hsound rfl ?_⟩
      simp only [rest_of_cons hp]
      exact h.agrees.drop h.sound hp (h.noPhis hp hphi) hrest hdead hfacts hset

theorem step_end (hp : a.pending = []) (chain : Chain) :
    Matches m (Related m m') (a.advance m chain) (a'.advance m' chain) := by
  obtain ⟨is, t, hhere, ht, -⟩ := h.sound.here
  have hp' : a'.pending = [] := by
    have hpending := h.agrees.pending
    rw [hp] at hpending
    generalize a'.pending = pending' at hpending
    cases hpending
    rfl
  have ht' : a'.terminator = some (t.mapUses c.subst) := by rw [h.agrees.terminator, ht]; rfl
  obtain ⟨is', u, heq, -, -, hlive⟩ := h.change.body_left hhere
  cases heq
  have hscoped := h.body.terminator _ is t hhere
  have hget : ∀ r, Available entry a.func.body a.block.index.toNat r → c.live r →
      ∃ v, a.frame.get r = .ok v ∧ a'.frame.get (c.subst r) = .ok v := by
    intro r hr hliver
    obtain ⟨v, hv⟩ := Available.defined h.sound hp hr
    exact ⟨v, hv, (h.agrees.get r ⟨hr, by simp [hp, dsts]⟩ hliver).trans hv⟩
  have hgo : ∀ target ∈ t.successors, Matches m (Related m m')
      (do return .next (← a.transfer target chain)) (do return .next (← a'.transfer target chain)) := by
    intro target htarget
    obtain ⟨b, copies, g, he⟩ := h.sound.edge h.body hp ht htarget
    obtain ⟨g', htransfer', hagree⟩ := h.agrees.edge h.change h.body h.sound hp he
    have hrel : Related m m' ({ a with frame := g }.enterBlock target)
        ({ a' with frame := g' }.enterBlock target) :=
      h.related ⟨rfl, h.sound.enter h.body hp he⟩ rfl hagree
    rw [he.transfer, htransfer']
    split
    · cases chain.checkAbort with
      | error e => rfl
      | ok => exact hrel
    · exact hrel
  rw [advance_nil hp ht, advance_nil hp' ht']
  cases t with
  | jump target => exact hgo target (by simp [Terminator.successors])
  | branch cond thenBlock elseBlock =>
    obtain ⟨v, hv, hv'⟩ := hget cond hscoped.1 (hlive cond mem_cons_self)
    simp only [Terminator.mapUses, advanceEnd, hv, hv', ok_bind]
    cases v.asBool with
    | error e => rfl
    | ok b =>
      refine hgo _ ?_
      cases b <;> simp [Terminator.successors]
  | ret r =>
    obtain ⟨v, hv, hv'⟩ := hget r hscoped.1 (hlive r mem_cons_self)
    simp only [Terminator.mapUses, advanceEnd, Frame.take, hv, hv', ok_bind]
    rfl

theorem step (hm : m.Changes m') (chain : Chain) :
    (∃ b, a.advance m chain = .ok (.next b) ∧ b.pending.length < a.pending.length ∧
        Related m m' b a') ∨
      Matches m (Related m m') (a.advance m chain) (a'.advance m' chain) := by
  cases hp : a.pending with
  | nil => exact .inr (h.step_end hp chain)
  | cons i rest =>
    have hpending := h.agrees.pending
    rw [hp] at hpending
    rw [advance_cons hp]
    generalize hp' : a'.pending = pending' at hpending
    cases hpending with
    | keep huses hdst hfacts hrest =>
      refine .inr ?_
      rw [advance_cons hp']
      exact h.step_keep hm hp hp' huses hdst hfacts hrest
    | @fold d rhs k v known _ rest' hd hknown hvalue hconst hfacts hrest =>
      refine .inr ?_
      rw [advance_cons hp']
      exact h.step_fold hp hp' hd hknown hvalue hconst hfacts hrest
    | @dead d rhs _ _ hdead hrem hfacts hrest =>
      subst hp'
      exact .inl (h.step_dead hp hdead hrem hfacts hrest)
    | @phi d incoming _ _ hin hne hfacts hrest =>
      subst hp'
      exact .inl ⟨_, rfl, by simp [rest_of_cons hp], h.related (h.sound_instr hp) rfl
        (rest_of_cons hp ▸ h.agrees.phi hp hrest hfacts)⟩

end Corresponds

/-! ## Runs -/

theorem Related.new (hf : c.OnFunction m m' f f')
    (ha : Activation.new f args = .ok a) (hsound : a.Sound m ret) :
    ∃ a', Activation.new f' args = .ok a' ∧ Related m m' a a' := by
  obtain ⟨g, hg, heq⟩ := Except.bind_eq_ok.1 ha
  cases heq
  have hg' : Frame.new f'.name f'.params f'.regTypes.size f'.slotTypes.size args = .ok g := by
    rw [hf.header]
    exact hg
  refine ⟨_, by simp only [Activation.new, hg', ok_bind]; rfl, ?_⟩
  obtain ⟨hret, entry, hbody, ha⟩ := hsound
  refine ⟨c, entry, ret, hret, hbody, ha, hf, ?_⟩
  obtain ⟨is, t, hhere, -, -⟩ := ha.here
  have hhere : f.body 0 = some (is, some t) := hhere
  obtain ⟨b, hb, heq⟩ := Option.map_eq_some_iff.1 hhere
  cases heq
  obtain ⟨b', hb', hblock⟩ := forall₂_getElem?_left hf.blocks hb
  have hb : f.block? ⟨0⟩ = some b := hb
  have hb' : f'.block? ⟨0⟩ = some b' := hb'
  simp only [enterBlock, hb, hb', Option.map_some, Option.getD_some]
  have hparam : ∀ r, Available entry f.body 0 r → r ∉ dsts b.instrs → r ∈ f.params :=
    fun r hr hnot => hbody.start r (((available_of_body hhere).1 hr).resolve_right hnot)
  refine ⟨rfl, congrArg some hblock.terminator, hblock.instrs, rfl, rfl, fun _ => rfl, ?_, ?_, ?_⟩
  · rintro r ⟨hr, hnot⟩ -
    rw [(hf.params r (hparam r hr hnot)).1]
  · intro d incoming hd
    cases hbody.noPhis _ _ hhere _ hd
  · rintro r w hw ⟨hr, hnot⟩
    exact absurd hw ((hf.params r (hparam r hr hnot)).2 w)

/-- Changes keep outcomes: the code after a change simulates the code before. -/
theorem simulation_of_changes (hm : m.WellFormed) (h : m.Changes m') :
    Simulation m m' (Related m m') where
  step chain a a' := by
    rintro ⟨c, entry, ret, hrel⟩
    exact hrel.step h chain
  start target ps t args hsig hargs := by
    obtain ⟨f, a, hf, ha, hsound⟩ := start_sound hm hsig hargs
    obtain ⟨f', c, hf', hc⟩ := h.function_left hf
    obtain ⟨a', ha', hrel⟩ := Related.new hc ha hsound
    exact ⟨f, f', a, a', hf, ha, hf', ha', hsound, hrel⟩

end NumericEngine.Exec
