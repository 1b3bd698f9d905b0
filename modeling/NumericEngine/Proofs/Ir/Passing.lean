import NumericEngine.Proofs.Ir.Accepted
import NumericEngine.Proofs.Ir.Construction

/-!
# Well-scoped code passes verification

Code that was built block by block, with every block entered from an earlier one
and every phi with one input for each edge, has no fault that verification looks
for, and no block that cannot be reached. What is available at the start of a
block was defined on every path to it, so its definition dominates the block.
-/

namespace NumericEngine

open List

/-! ## Types -/

theorem Ty.rank?_of_element {t : Ty} (h : t.element? = some et) : ∃ n, t.rank? = some n := by
  cases t with
  | vector | tensor => exact ⟨_, rfl⟩
  | _ => cases h

namespace Ir

variable {is : List Instr}

theorem Context.At.reg_of_ne {Γ : Context} (h : Γ.At r t)
    (ht : ∀ u m, t ≠ .reference u m) : Γ.reg r = some t := by
  obtain ⟨u, hu, rfl | ⟨v, m, m', -, rfl⟩⟩ := h
  · exact hu
  · exact absurd rfl (ht v m')

theorem Scope.holds_of_at {s : Scope} (h : s.context.At r t)
    (het : t.element? = some et) (hrank : t.rank? = some n) : s.Holds r et n := by
  refine ⟨t, h.reg_of_ne ?_, het, hrank⟩
  rintro u m rfl
  cases het

/-- The rules of typing ask for all that verification does. A literal with more elements than a
machine word counts is the one exception. -/
theorem Rhs.Typed.accepted {s : Scope} {rhs : Rhs} (h : rhs.Typed s.context t)
    (hlit : ∀ es, rhs = .makeTensor es → es.length < UInt64.size) : rhs.Accepted s t := by
  cases rhs with
  | const c =>
    obtain ⟨v, hv, rfl, -⟩ := h
    exact ⟨v, hv, .refl _⟩
  | binary op k l r checked =>
    obtain ⟨rfl, hregs, hop⟩ := h
    refine ⟨fun hf => ?_, .refl _, hregs⟩
    simpa [Scalar.supports, hf] using hop
  | compare | convert =>
    obtain ⟨rfl, hregs⟩ := h
    exact ⟨.refl _, hregs⟩
  | unary op k src checked =>
    obtain ⟨rfl, hsrc, hop⟩ := h
    refine ⟨?_, .refl _, hsrc⟩
    cases op <;> cases k <;> first | rfl | cases hop
  | complexBinary | complexCompare =>
    obtain ⟨rfl, -, hregs, -⟩ := h
    exact ⟨.refl _, hregs⟩
  | complexUnary | complexPart | makeComplex =>
    obtain ⟨rfl, -, hregs⟩ := h
    exact ⟨.refl _, hregs⟩
  | makeStruct fields =>
    obtain ⟨decl, rfl, hregs, -⟩ := h
    exact ⟨decl, rfl, hregs⟩
  | extractField src i =>
    obtain ⟨decl, d, hsrc, hd, rfl⟩ := h
    exact ⟨decl, d, hsrc.reg_of_ne (by simp), hd, .refl _⟩
  | insertField src i v =>
    obtain ⟨decl, d, rfl, hsrc, hd, hv⟩ := h
    exact ⟨decl, d, hsrc.reg_of_ne (by simp), hd, hv, .refl _⟩
  | stackSlot slot =>
    obtain ⟨target, m, rfl, hslot, -⟩ := h
    exact ⟨target, m, hslot, rfl⟩
  | load a =>
    obtain ⟨m, u, hu, hsame⟩ := h
    obtain ⟨m', rfl⟩ := hsame.of_reference
    exact ⟨t, m', hu, .refl _⟩
  | call f args =>
    obtain ⟨ps, hsig, hregs⟩ := h
    exact ⟨ps, t, hsig, hregs, .refl _⟩
  | funcRef f =>
    obtain ⟨hsig, ps, ret, rfl⟩ := h
    obtain ⟨callee, hcallee, -⟩ := Scope.signature_eq_some.1 hsig
    exact ⟨Option.isSome_iff_exists.2 ⟨callee, hcallee⟩, ps, ret, rfl⟩
  | callIndirect c args =>
    obtain ⟨ps, hc, hregs⟩ := h
    exact ⟨ps, t, hc.reg_of_ne (by simp), hregs, .refl _⟩
  | phi incoming => exact h
  | makeTensor es =>
    obtain ⟨et, e, shape, het, -, hshape, hes, hcount⟩ := h
    obtain ⟨n, hn⟩ := Ty.rank?_of_element het
    refine ⟨et, n, het, hn, hes, fun shape' hshape' => ?_⟩
    obtain rfl := Option.some.inj (hshape.symm.trans hshape')
    exact hcount (hlit es rfl)
  | tensorBinary op l r checked =>
    obtain ⟨tl, tr, et, hregs, hle, hre, hte, -, -, hrl, hrr⟩ := h
    obtain ⟨n, hn⟩ := Ty.rank?_of_element hte
    obtain ⟨hl, hr⟩ := Context.regs_pair.1 hregs
    exact ⟨et, n, hte, hn, Scope.holds_of_at hl hle (hrl.trans hn), Scope.holds_of_at hr hre (hrr.trans hn)⟩
  | tensorScale src f checked =>
    obtain ⟨et, hregs, het⟩ := h
    obtain ⟨n, hn⟩ := Ty.rank?_of_element het
    obtain ⟨hsrc, hf⟩ := Context.regs_pair.1 hregs
    exact ⟨et, n, het, hn, Scope.holds_of_at hsrc het hn, hf⟩
  | dot l r =>
    obtain ⟨tl, tr, hregs, hle, hre, hrl, hrr⟩ := h
    obtain ⟨hl, hr⟩ := Context.regs_pair.1 hregs
    exact ⟨t, Scope.holds_of_at hl hle hrl, Scope.holds_of_at hr hre hrr, .refl _⟩
  | matmul l r =>
    obtain ⟨tl, tr, et, hregs, hle, hre, hte, hrl, hrr, hrt⟩ := h
    obtain ⟨hl, hr⟩ := Context.regs_pair.1 hregs
    exact ⟨et, Scope.holds_of_at hl hle hrl, Scope.holds_of_at hr hre hrr, hte, hrt⟩
  | sum src =>
    obtain ⟨ts, hsrc, hse⟩ := h
    obtain ⟨n, hn⟩ := Ty.rank?_of_element hse
    exact ⟨t, n, Scope.holds_of_at hsrc hse hn, .refl _⟩
  | extractElement src is =>
    obtain ⟨ts, hsrc, hse, his, hrank⟩ := h
    exact ⟨t, Scope.holds_of_at hsrc hse hrank, his, .refl _⟩
  | dim src axis =>
    obtain ⟨rfl, ts, et, ds, hsrc, hse, hds, hlt⟩ := h
    exact ⟨et, ds.length, Scope.holds_of_at hsrc hse (by simp [Ty.rank?, hds]), hlt, .refl _⟩
  | tensorCast src =>
    obtain ⟨ts, et, hsrc, hse, hte, hrank⟩ := h
    obtain ⟨n, hn⟩ := Ty.rank?_of_element hte
    exact ⟨et, n, Scope.holds_of_at hsrc hse (hrank.trans hn), hte, hn⟩

/-! ## Definitions -/

namespace Definitions

/-- Registers that had no definition get one each. -/
structure Places (d : Definitions) (rs : List Reg) (d' : Definitions) : Prop where
  errors : d'.errors = d.errors
  placed : ∀ r ∈ rs, ∃ s, d'.sites[r.index.toNat]? = some (some s)
  kept : ∀ (k : Nat) (s : Site), d.sites[k]? = some (some s) → d'.sites[k]? = some (some s)
  free : ∀ r : Reg, r ∉ rs → d.sites[r.index.toNat]? = some none → d'.sites[r.index.toNat]? = some none

variable {d : Definitions}

theorem Places.refl (d : Definitions) : Places d [] d :=
  ⟨rfl, nofun, fun _ _ h => h, fun _ _ h => h⟩

theorem Places.trans (h : Places d rs d') (h' : Places d' rs' d'') : Places d (rs ++ rs') d'' where
  errors := h'.errors.trans h.errors
  placed r hr := by
    rcases mem_append.1 hr with hr | hr
    · obtain ⟨s, hs⟩ := h.placed r hr
      exact ⟨s, h'.kept _ s hs⟩
    · exact h'.placed r hr
  kept k s hs := h'.kept k s (h.kept k s hs)
  free r hr hnone := by
    rw [mem_append, not_or] at hr
    exact h'.free r hr.2 (h.free r hr.1 hnone)

theorem places_add {r : Reg} (h : d.sites[r.index.toNat]? = some none) (block : BlockId) (site : Site) :
    Places d [r] (d.add block r site) := by
  have hadd : d.add block r site = { d with sites := d.sites.setIfInBounds r.index.toNat (some site) } := by
    simp [add, h]
  have hlt := (Array.getElem?_eq_some_iff.1 h).1
  rw [hadd]
  refine ⟨rfl, ?_, fun k s hs => ?_, fun q hq hnone => ?_⟩
  · rintro q hq
    obtain rfl := mem_singleton.1 hq
    exact ⟨site, Array.getElem?_setIfInBounds_self_of_lt hlt⟩
  · rw [Array.getElem?_setIfInBounds_ne, hs]
    rintro rfl
    cases h.symm.trans hs
  · rw [Array.getElem?_setIfInBounds_ne, hnone]
    exact fun heq => hq (mem_singleton.2 (Reg.ext_toNat heq.symm))

theorem places_addInstrs (hnodup : (dsts is).Nodup)
    (hfree : ∀ r ∈ dsts is, d.sites[r.index.toNat]? = some none) :
    Places d (dsts is) (addInstrs block d site is) := by
  induction is generalizing d site with
  | nil => exact .refl d
  | cons i is ih =>
    cases i with
    | store => exact ih hnodup hfree
    | define r rhs =>
      obtain ⟨hr, hnodup⟩ := nodup_cons.1 (show (r :: dsts is).Nodup from hnodup)
      have hfree := forall_mem_cons.1 (show ∀ q ∈ r :: dsts is, _ from hfree)
      have hplaces := places_add hfree.1 block site
      refine hplaces.trans (ih hnodup fun q hq => hplaces.free q ?_ (hfree.2 q hq))
      rintro hmem
      exact hr (mem_singleton.1 hmem ▸ hq)

theorem places_addBlocks {bs : List Block} (hnodup : (bs.flatMap fun b => dsts b.instrs).Nodup)
    (hfree : ∀ r ∈ bs.flatMap (fun b => dsts b.instrs), d.sites[r.index.toNat]? = some none) :
    Places d (bs.flatMap fun b => dsts b.instrs) (addBlocks d index bs) := by
  induction bs generalizing d index with
  | nil => exact .refl d
  | cons b bs ih =>
    rw [flatMap_cons] at hnodup hfree ⊢
    obtain ⟨hb, hbs, hdisjoint⟩ := nodup_append.1 hnodup
    rw [forall_mem_append] at hfree
    have hplaces : Places d (dsts b.instrs) (addInstrs b.id d ⟨index, 1⟩ b.instrs) :=
      places_addInstrs hb hfree.1
    exact hplaces.trans (ih hbs fun r hr => hplaces.free r (fun hmem => hdisjoint r hmem r hr rfl)
      (hfree.2 r hr))

theorem places_params (hnodup : rs.Nodup) (hfree : ∀ r ∈ rs, d.sites[r.index.toNat]? = some none) :
    Places d rs (rs.foldl (fun d r => d.add ⟨0⟩ r ⟨0, 0⟩) d) := by
  induction rs generalizing d with
  | nil => exact .refl d
  | cons r rs ih =>
    obtain ⟨hr, hnodup⟩ := nodup_cons.1 hnodup
    rw [forall_mem_cons] at hfree
    have hplaces := places_add hfree.1 ⟨0⟩ ⟨0, 0⟩
    refine hplaces.trans (ih hnodup fun q hq => hplaces.free q ?_ (hfree.2 q hq))
    rintro hmem
    exact hr (mem_singleton.1 hmem ▸ hq)

theorem places_of {f : Function} (hnodup : (f.params ++ f.blocks.flatMap fun b => dsts b.instrs).Nodup)
    (hlt : ∀ r ∈ f.params ++ f.blocks.flatMap (fun b => dsts b.instrs), r.index.toNat < f.regTypes.size) :
    (of f).errors = [] ∧ ∀ r ∈ f.params ++ f.blocks.flatMap (fun b => dsts b.instrs),
      ∃ s, (of f).sites[r.index.toNat]? = some (some s) := by
  have hfree : ∀ r ∈ f.params ++ f.blocks.flatMap (fun b => dsts b.instrs),
      (Array.replicate f.regTypes.size (none : Option Site))[r.index.toNat]? = some none := fun r hr => by
    simp [hlt r hr]
  obtain ⟨hparams, hblocks, hdisjoint⟩ := nodup_append.1 hnodup
  rw [forall_mem_append] at hfree
  have hplaces := places_params (d := ⟨Array.replicate f.regTypes.size none, []⟩) hparams hfree.1
  have hall : Places _ (f.params ++ f.blocks.flatMap fun b => dsts b.instrs) (of f) :=
    hplaces.trans (places_addBlocks hblocks fun r hr =>
      hplaces.free r (fun hmem => hdisjoint r hmem r hr rfl) (hfree.2 r hr))
  exact ⟨hall.errors, hall.placed⟩

end Definitions

/-! ## Positions -/

theorem Sequence.scoped (h : Sequence Γ known is) {i : Instr} (hi : is[k]? = some i) :
    i.Scoped Γ (fun r => known r ∨ r ∈ dsts (is.take k)) (is.drop (k + 1)) := by
  induction is generalizing known k with
  | nil => cases hi
  | cons x is ih =>
    cases k with
    | zero =>
      obtain rfl : x = i := Option.some.inj hi
      simpa [dsts] using h.1
    | succ k =>
      have hknown : (fun r => known r ∨ r ∈ dsts ((x :: is).take (k + 1))) =
          fun r => x.after known r ∨ r ∈ dsts (is.take k) :=
        funext fun r => propext Instr.after_or_dsts.symm
      rw [hknown]
      exact ih h.2 hi

theorem eq_of_dst (h : (dsts is).Nodup) {k' : Nat}
    (hk : is[k]? = some i) (hi : i.dst? = some r) (hk' : is[k']? = some i') (hi' : i'.dst? = some r) :
    k = k' := by
  have hpairs := pairwise_iff_getElem.1 (pairwise_filterMap.1 h)
  obtain ⟨hlt, rfl⟩ := List.getElem?_eq_some_iff.1 hk
  obtain ⟨hlt', rfl⟩ := List.getElem?_eq_some_iff.1 hk'
  rcases Nat.lt_trichotomy k k' with hkk | rfl | hkk
  · exact absurd rfl (hpairs k k' hlt hlt' hkk r hi r hi')
  · rfl
  · exact absurd rfl (hpairs k' k hlt' hlt hkk r hi' r hi)

theorem PhisLead.take (h : PhisLead is) (hi : is[k]? = some i)
    (hphi : i.isPhi = true) : (is.take k).all Instr.isPhi = true := by
  obtain ⟨phis, rest, rfl, hphis, hrest⟩ := h
  have hk : k < phis.length := by
    by_contra hge
    rw [getElem?_append_right (Nat.not_lt.1 hge)] at hi
    rw [hrest i (mem_of_getElem? hi)] at hphi
    cases hphi
  rw [take_append_of_le_length (Nat.le_of_lt hk), all_eq_true]
  exact fun x hx => hphis x (mem_of_mem_take hx)

/-! ## Functions -/

theorem Preds.Path.zero_mem {preds : Preds} (h : preds.Path b l) : 0 ∈ l := by
  induction h with
  | start => exact mem_cons_self
  | step _ _ ih => exact mem_cons_of_mem _ ih

/-- A function whose code is well scoped and complete. -/
structure Function.Complete (m : Module) (f : Function) : Prop where
  code : ∃ entry ret, m.ty? f.retType = some ret ∧
    f.body.Partial (m.context f) ret f.params f.regTypes.size (fun _ _ => False) entry
  nodup : f.params.Nodup
  params : ∀ r ∈ f.params, r.index.toNat < f.regTypes.size
  ids : ∀ (i : Nat) (b : Block), f.blocks[i]? = some b → b.id.index.toNat = i
  nonempty : f.blocks ≠ []
  literals : ∀ b ∈ f.blocks, ∀ dst es, .define dst (.makeTensor es) ∈ b.instrs → es.length < UInt64.size

namespace Function

variable {m : Module} {f : Function} {ret : Ty} {entry : Entry}

theorem Complete.indexed (h : f.Complete m) : f.Indexed where
  ids := h.ids
  targets b hb t ht := by
    obtain ⟨entry, ret, -, hcode⟩ := h.code
    obtain ⟨i, hi⟩ := getElem?_of_mem hb
    obtain ⟨is, u, hu, -⟩ := hcode.edge i t.index.toNat ⟨_, _, body_of_getElem? hi, t, ht, rfl⟩
    obtain ⟨b', hb', -⟩ := body_eq_some.1 hu
    exact (List.getElem?_eq_some_iff.1 hb').1

theorem Complete.leads_iff (h : f.Complete m) : f.body.Leads i j ↔ f.graph.Edge i j := by
  rw [edge_graph]
  constructor
  · rintro ⟨is, t, hi, s, hs, rfl⟩
    obtain ⟨b, hb, rfl, ht⟩ := body_eq_some.1 hi
    cases ht
    have hmem := mem_of_getElem? hb
    exact ⟨h.indexed.targets b hmem s hs, b, hmem, ⟨s, hs, rfl⟩, h.ids i b hb⟩
  · rintro ⟨-, b, hb, ⟨s, hs, rfl⟩, rfl⟩
    exact ⟨_, _, body_of_getElem? (h.indexed.getElem? hb), s, hs, rfl⟩

/-- Every block can be reached: it is entered from an earlier one. -/
theorem Complete.reached (h : f.Complete m) (hi : i < f.blocks.length) : f.graph.Reached i := by
  obtain ⟨entry, ret, -, hcode⟩ := h.code
  induction i using Nat.strongRecOn with
  | ind i ih =>
    have hbody := body_of_getElem? (getElem?_eq_getElem hi)
    rcases (hcode.block hbody).entered with ⟨-, hnone⟩ | rfl | ⟨j, hj, hlead⟩
    · cases hnone
    · exact ⟨[0], .start⟩
    · obtain ⟨l, hl⟩ := ih j hj (Nat.lt_trans hj hi)
      exact ⟨i :: l, .step hl (h.leads_iff.1 hlead)⟩

theorem dsts_fresh
    (hcode : f.body.Partial (m.context f) ret f.params f.regTypes.size (fun _ _ => False) entry)
    (hb : b ∈ f.blocks) (hr : r ∈ dsts b.instrs) :
    r ∉ f.params ∧ r.index.toNat < f.regTypes.size := by
  obtain ⟨i, hi⟩ := getElem?_of_mem hb
  have hbody := body_of_getElem? hi
  have hnot : r ∉ f.params := fun hmem => (hcode.block hbody).fresh r hmem hr
  exact ⟨hnot, (hcode.below i r (.inr ⟨_, _, hbody, hr⟩)).resolve_left hnot⟩

theorem Complete.dominates (h : f.Complete m) (hi : i < f.blocks.length)
    (hdom : f.graph.Dominates j i) : f.flow.doms.dominates j i = true := by
  refine (dominates_dominators ?_ (h.reached hi)).2 hdom
  rw [length_graph]
  exact length_pos_iff.2 h.nonempty

section

variable (hf : f.Complete m)
  (hcode : f.body.Partial (m.context f) ret f.params f.regTypes.size (fun _ _ => False) entry)
  {r : Reg} {b : Block}
include hf hcode

theorem Complete.definitions : (Definitions.of f).errors = [] ∧
    ∀ r, (r ∈ f.params ∨ ∃ b ∈ f.blocks, r ∈ dsts b.instrs) →
      ∃ s, (Definitions.of f).sites[r.index.toNat]? = some (some s) := by
  have hblocks : (f.blocks.flatMap fun b => dsts b.instrs).Nodup := by
    refine nodup_flatMap.2 ⟨fun b hb => ?_, ?_⟩
    · obtain ⟨i, hi⟩ := getElem?_of_mem hb
      exact (hcode.block (body_of_getElem? hi)).sequence.nodup
    · refine pairwise_iff_getElem.2 fun i j hi hj hij r hr hr' => ?_
      exact Nat.ne_of_lt hij (hcode.unique i j _ _ _ _ (body_of_getElem? (getElem?_eq_getElem hi))
        (body_of_getElem? (getElem?_eq_getElem hj)) r hr hr')
  have hnodup : (f.params ++ f.blocks.flatMap fun b => dsts b.instrs).Nodup := by
    refine nodup_append.2 ⟨hf.nodup, hblocks, ?_⟩
    rintro r hr _ hmem rfl
    obtain ⟨b, hb, hmem⟩ := mem_flatMap.1 hmem
    exact (dsts_fresh hcode hb hmem).1 hr
  obtain ⟨herrors, hplaced⟩ := Definitions.places_of hnodup fun r hr => by
    rcases mem_append.1 hr with hr | hr
    · exact hf.params r hr
    · obtain ⟨b, hb, hr⟩ := mem_flatMap.1 hr
      exact (dsts_fresh hcode hb hr).2
  refine ⟨herrors, fun r hr => hplaced r ?_⟩
  rcases hr with hr | ⟨b, hb, hr⟩
  · exact mem_append_left _ hr
  · exact mem_append_right _ (mem_flatMap.2 ⟨b, hb, hr⟩)

theorem Complete.site_param (hr : r ∈ f.params) : (Definitions.of f).sites[r.index.toNat]? =
    some (some ⟨0, 0⟩) := by
  obtain ⟨s, hs⟩ := (hf.definitions hcode).2 r (.inl hr)
  rcases Definitions.defines_of_sites hs with ⟨-, rfl⟩ | ⟨b, k, i, hb, -, hi, hdst⟩
  · exact hs
  · exact absurd hr (dsts_fresh hcode (mem_of_getElem? hb) (mem_dsts_iff.2 ⟨k, i, hi, hdst⟩)).1

theorem Complete.site_dst {k : Nat}
    (hb : f.blocks[index]? = some b) (hi : b.instrs[k]? = some i) (hr : i.dst? = some r) :
    (Definitions.of f).sites[r.index.toNat]? = some (some ⟨index, k + 1⟩) := by
  have hmem : r ∈ dsts b.instrs := mem_dsts_iff.2 ⟨k, i, hi, hr⟩
  have hblock := mem_of_getElem? hb
  obtain ⟨s, hs⟩ := (hf.definitions hcode).2 r (.inr ⟨b, hblock, hmem⟩)
  rcases Definitions.defines_of_sites hs with ⟨hparam, -⟩ | ⟨b', k', i', hb', hposition, hi', hr'⟩
  · exact absurd hparam (dsts_fresh hcode hblock hmem).1
  · have hindex : s.block = index := hcode.unique _ _ _ _ _ _ (body_of_getElem? hb') (body_of_getElem? hb) r
      (mem_dsts_iff.2 ⟨k', i', hi', hr'⟩) hmem
    rw [hindex] at hb'
    cases hb.symm.trans hb'
    have hk := eq_of_dst (hcode.block (body_of_getElem? hb)).sequence.nodup hi hr hi' hr'
    rw [hs, hk]
    cases s
    cases hindex
    cases hposition
    rfl

-- Where a register is available, its definition reaches.

/-- What is available at the start of a block was defined on the way to it. -/
theorem Complete.defined_on_path (hl : f.graph.Path i l) (hr : entry i r) :
    r ∈ f.params ∨ ∃ j ∈ l, ∃ b, f.blocks[j]? = some b ∧ r ∈ dsts b.instrs := by
  induction hl with
  | start => exact .inl (hcode.start r hr)
  | @step p i l hpath hedge ih =>
    obtain ⟨is, t, -, hentry, -⟩ := hcode.edge p i (hf.leads_iff.2 hedge)
    rcases hentry r hr with hr | ⟨js, u, hu, hr⟩
    · rcases ih hr with hparam | ⟨j, hj, hdef⟩
      · exact .inl hparam
      · exact .inr ⟨j, mem_cons_of_mem _ hj, hdef⟩
    · obtain ⟨b, hb, rfl, -⟩ := body_eq_some.1 hu
      exact .inr ⟨p, mem_cons_of_mem _ hpath.mem, b, hb, hr⟩

theorem Complete.reaches_entry (hi : i < f.blocks.length) (hr : entry i r)
    {position : Option Nat} (hp : position.all (0 < ·) = true) : f.flow.Reaches r i position := by
  by_cases hparam : r ∈ f.params
  · refine ⟨⟨0, 0⟩, hf.site_param hcode hparam, ?_⟩
    unfold Flow.available
    split
    · exact hp
    · exact hf.dominates hi fun l hl => hl.zero_mem
  · -- the block that defines it is on every path, and is not this one
    obtain ⟨l, hl⟩ := hf.reached hi
    obtain ⟨j, -, b, hb, hmem⟩ := (hf.defined_on_path hcode hl hr).resolve_left hparam
    obtain ⟨k, x, hx, hdst⟩ := mem_dsts_iff.1 hmem
    refine ⟨⟨j, k + 1⟩, hf.site_dst hcode hb hx hdst, ?_⟩
    have hne : j ≠ i := by
      rintro rfl
      exact Nat.lt_irrefl _ ((hcode.block (body_of_getElem? hb)).sequence.lt hr hmem)
    rw [Flow.available, if_neg hne]
    refine hf.dominates hi fun l hl => ?_
    obtain ⟨j', hj', b', hb', hmem'⟩ := (hf.defined_on_path hcode hl hr).resolve_left hparam
    exact hcode.unique _ _ _ _ _ _ (body_of_getElem? hb) (body_of_getElem? hb') r hmem hmem' ▸ hj'

theorem Complete.reaches_dst
    (hb : f.blocks[i]? = some b) (hx : b.instrs[k]? = some x) (hr : x.dst? = some r)
    {position : Option Nat} (hp : position.all (k + 1 < ·) = true) : f.flow.Reaches r i position :=
  ⟨⟨i, k + 1⟩, hf.site_dst hcode hb hx hr, by rw [Flow.available, if_pos rfl]; exact hp⟩

theorem Complete.reaches_before (hb : f.blocks[i]? = some b)
    (hr : entry i r ∨ r ∈ dsts (b.instrs.take k)) : f.flow.Reaches r i (some (k + 1)) := by
  have hi := (List.getElem?_eq_some_iff.1 hb).1
  rcases hr with hr | hr
  · exact hf.reaches_entry hcode hi hr (by simp)
  · obtain ⟨j, x, hx, hdst⟩ := mem_dsts_iff.1 hr
    rw [getElem?_take] at hx
    split at hx
    · exact hf.reaches_dst hcode hb hx hdst (by simpa)
    · cases hx

theorem Complete.reaches_end (hr : Available entry f.body i r)
    (hi : i < f.blocks.length) : f.flow.Reaches r i none := by
  rcases hr with hr | ⟨is, t, ht, hr⟩
  · exact hf.reaches_entry hcode hi hr rfl
  · obtain ⟨b, hb, rfl, -⟩ := body_eq_some.1 ht
    obtain ⟨k, x, hx, hdst⟩ := mem_dsts_iff.1 hr
    exact hf.reaches_dst hcode hb hx hdst rfl

theorem Complete.inputs_perm (hb : f.blocks[i]? = some b) (hphi : .define dst (.phi incoming) ∈ b.instrs) :
    (incoming.map (·.1)).Perm (f.predecessorsOf i) := by
  have hbody := body_of_getElem? hb
  obtain ⟨hnodup, hleads⟩ := (hcode.block hbody).sources dst incoming hphi
  have hnodup : (incoming.map (·.1)).Nodup := by
    refine List.Nodup.of_map (fun p => p.index.toNat) ?_
    rwa [map_map]
  refine (perm_ext_iff_of_nodup hnodup (nodup_predecessorsOf i)).2 fun p => ?_
  rw [mem_map, mem_predecessorsOf]
  constructor
  · rintro ⟨q, hq, rfl⟩
    obtain ⟨-, b', hb', hlead, hid⟩ := edge_graph.1 (hf.leads_iff.1 (hleads q hq))
    exact ⟨b', hb', hlead, BlockId.ext_toNat hid⟩
  · rintro ⟨b', hb', ⟨s, hs, hsi⟩, rfl⟩
    have hlead : f.body.Leads b'.id.index.toNat i :=
      ⟨_, _, body_of_getElem? (hf.indexed.getElem? hb'), s, hs, hsi⟩
    obtain ⟨is, t, ht, -, hcovers⟩ := hcode.edge _ i hlead
    cases hbody.symm.trans ht
    obtain ⟨q, hq, hid⟩ := hcovers.resolve_right not_false dst incoming hphi
    exact ⟨q, hq, BlockId.ext_toNat hid⟩

theorem Complete.serves (hb : f.blocks[i]? = some b) {x : Instr}
    (hx : b.instrs[k]? = some x) : f.flow.Serves (f.predecessorsOf i) i (k + 1)
      ((b.instrs.take k).all Instr.isPhi) x := by
  have hbody := body_of_getElem? hb
  have hmem := mem_of_getElem? hx
  have hscoped := (hcode.block hbody).sequence.scoped hx
  unfold Flow.Serves
  split
  · rename_i dst incoming
    refine ⟨(hcode.block hbody).lead.take hx rfl, hf.inputs_perm hcode hb hmem, fun p hp => ?_⟩
    obtain ⟨-, hleads⟩ := (hcode.block hbody).sources dst incoming hmem
    obtain ⟨is, t, ht, -⟩ := hleads p hp
    obtain ⟨b', hb', -⟩ := body_eq_some.1 ht
    exact hf.reaches_end hcode ((hcode.block hbody).inputs dst incoming hmem p hp)
      (List.getElem?_eq_some_iff.1 hb').1
  · rename_i hphi
    intro r hr
    refine hf.reaches_before hcode hb ?_
    cases x with
    | store addr value =>
      rcases mem_cons.1 hr with rfl | hr
      · exact hscoped.1
      · exact mem_singleton.1 hr ▸ hscoped.2.1
    | define dst rhs =>
      refine hscoped.uses ?_ r hr
      cases rhs with
      | phi incoming => exact absurd rfl (hphi dst incoming)
      | _ => rfl

end

theorem Complete.accepted (hf : f.Complete m) (hb : b ∈ f.blocks)
    (hx : x ∈ b.instrs) : x.Accepted ⟨m, f⟩ := by
  obtain ⟨entry, ret, -, hcode⟩ := hf.code
  obtain ⟨i, hi⟩ := getElem?_of_mem hb
  have hseq := (hcode.block (body_of_getElem? hi)).sequence
  cases x with
  | define dst rhs =>
    obtain ⟨t, ht, htyped⟩ := hseq.typed hx
    exact ⟨t, ht, Rhs.Typed.accepted htyped fun es hes => hf.literals b hb dst es (hes ▸ hx)⟩
  | store addr value =>
    obtain ⟨t, μ, ⟨u, hu, hsame⟩, hvalue⟩ := hseq.store_typed hx
    obtain ⟨μ', rfl⟩ := hsame.of_reference
    exact ⟨t, μ', hu, hvalue⟩

/-- Code that is well scoped and complete has no fault. -/
theorem Complete.checked (hf : f.Complete m) : Scope.Checked ⟨m, f⟩ := by
  obtain ⟨entry, ret, hret, hcode⟩ := hf.code
  refine ⟨hf.nonempty, hf.indexed, (hf.definitions hcode).1, fun i b hb _ k x hx => ?_, fun i b hb _ => ?_⟩
  · exact ⟨hf.serves hcode hb hx, Scope.instrErrors_eq_nil.2
      (hf.accepted (mem_of_getElem? hb) (mem_of_getElem? hx))⟩
  · have hscoped := (hcode.block (body_of_getElem? hb)).terminator _ rfl
    have huse : ∀ r, Available entry f.body i r → f.flow.Reaches r i (some (b.instrs.length + 1)) := by
      intro r hr
      refine hf.reaches_before hcode hb ?_
      rw [take_length]
      exact (available_of_body (body_of_getElem? hb)).1 hr
    cases hterm : b.terminator with
    | jump target => exact ⟨by simp [Terminator.uses], Scope.checkTerminator_eq_ok.2 trivial⟩
    | branch c x y =>
      rw [hterm] at hscoped
      refine ⟨fun r hr => ?_, Scope.checkTerminator_eq_ok.2 hscoped.2⟩
      obtain rfl := mem_singleton.1 hr
      exact huse r hscoped.1
    | ret r =>
      rw [hterm] at hscoped
      refine ⟨fun q hq => ?_, Scope.checkTerminator_eq_ok.2 ⟨ret, hret, hscoped.2⟩⟩
      obtain rfl := mem_singleton.1 hq
      exact huse q hscoped.1

theorem Complete.all_reached (hf : f.Complete m) : (Scope.check ⟨m, f⟩).2 = [] := by
  unfold Scope.check
  dsimp only
  rw [if_neg (by simpa using hf.nonempty), if_neg (by simpa using shapeErrors_eq_nil.2 hf.indexed)]
  rw [map_eq_nil_iff, filter_eq_nil_iff]
  rintro ⟨b, i⟩ hmem
  have hi := (List.getElem?_eq_some_iff.1 (mem_zipIdx_iff_getElem?.1 hmem)).1
  have hn : 0 < f.graph.length := by
    rw [length_graph]
    exact length_pos_iff.2 hf.nonempty
  have hsome : ((dominators f.graph).getD i none).isSome = true :=
    (isSome_dominators hn i).2 (hf.reached hi)
  show ¬(!((dominators f.graph).getD i none).isSome) = true
  rw [hsome]
  decide

end Function

namespace Module

variable {m : Module}

/-- The verifier finds no fault with complete functions but for the sizes of types. -/
theorem errors_verify_complete (h : ∀ f ∈ m.functions, f.Complete m) :
    m.verify.errors = m.functions.flatMap fun f => (m.oversizedErrors f).map (Diagnostic.mk f.name) := by
  simp only [verify, flatMap_map]
  refine flatMap_congr fun f hf => ?_
  have herrors : (Scope.check ⟨m, f⟩).1 = [] := Scope.check_eq_nil.2 (h f hf).checked
  simp only [verifyFunction, herrors, append_nil]

theorem verify_complete (h : ∀ f ∈ m.functions, f.Complete m) :
    (∀ d ∈ m.verify.errors, ∃ id, d.error = .oversizedType id) ∧ m.verify.warnings = [] := by
  constructor
  · intro d hd
    rw [errors_verify_complete h] at hd
    obtain ⟨f, -, hd⟩ := mem_flatMap.1 hd
    obtain ⟨e, he, rfl⟩ := mem_map.1 hd
    obtain ⟨id, -, hid⟩ := mem_filterMap.1 he
    split at hid
    · split at hid
      · exact ⟨id, (Option.some.inj hid).symm⟩
      · cases hid
    · cases hid
  · simp only [verify, flatMap_eq_nil_iff, forall_mem_map]
    intro f hf
    simp only [verifyFunction, (h f hf).all_reached, map_nil]

end Module

end Ir

end NumericEngine
