import NumericEngine.Machine.Helper
import NumericEngine.Proofs.Memory.Tiling
import NumericEngine.Proofs.Value.Storage

/-!
# Helpers that fail

A helper reads its operands, computes, and stores one value at its very end. So
when it fails, no byte that had been handed out has changed, and when it fails
because memory ran out, nothing has changed at all: a second call after a
collection finds what the first one found.
-/

namespace NumericEngine

open Extent (span)
open LawfulMemory (Sound Fits Owns)

/-! ## Reading, then storing one value -/

namespace Value

/-- A number, or a tensor: its record has one buffer at most. -/
def Flat : Value → Prop
  | scalar .. | complex .. | tensor .. => True
  | _ => False

theorem flat_ofElem (e : ElemKind) (x : Elem) : (ofElem e x).Flat := by
  cases e <;> cases x <;> trivial

section
variable {μ : Type} {dst : UInt64} {m m' : μ} {f : Fault} {v : Value}

/-- A transition that leaves memory alone. -/
def Still (x : Transition μ α) : Prop := ∀ m, (x m).2 = m

theorem Still.bind (hx : Still x) (hk : ∀ a, Still (k a)) : Still (x >>= k) := by
  intro m
  have hm := hx m
  rw [Transition.bind_apply]
  rcases hxm : x m with ⟨f | a, m'⟩
  · rw [hxm] at hm
    exact hm
  · rw [hxm] at hm
    exact (hk a m').trans hm

theorem still_checkRoom (l : Layout) (out : Bytes) (t : Ty) : Still (checkRoom l out t : Transition μ Unit) := by
  unfold checkRoom
  split <;> exact fun _ => rfl

variable [Memory μ]

/-- A transition that leaves memory alone until it stores a flat value at an address. -/
def Delivers (dst : UInt64) (x : Transition μ Unit) : Prop :=
  ∀ m, (∃ f, x m = (.error f, m)) ∨ ∃ v : Value, v.Flat ∧ x m = v.store dst m

theorem Delivers.store (hv : v.Flat) : Delivers dst (v.store dst : Transition μ Unit) :=
  fun _ => .inr ⟨v, hv, rfl⟩

theorem Delivers.defect (d : Defect) : Delivers dst (Transition.defect d : Transition μ Unit) :=
  fun _ => .inl ⟨_, rfl⟩

theorem Delivers.reading {k : α → Transition μ Unit} (hx : Still x)
    (hk : ∀ a, Delivers dst (k a)) : Delivers dst (x >>= k) := by
  intro m
  have hm := hx m
  rw [Transition.bind_apply]
  rcases hxm : x m with ⟨f | a, m'⟩
  · rw [hxm] at hm
    exact .inl ⟨f, hm ▸ rfl⟩
  · rw [hxm] at hm
    obtain rfl : m' = m := hm
    exact hk a m'

theorem Delivers.outcome {k : α → Transition μ Unit} (hk : ∀ a, Delivers dst (k a)) :
    Delivers dst (Transition.outcome r >>= k) :=
  .reading (fun _ => rfl) hk

/-- Memory as it was, but for one new buffer at most. -/
inductive OneBuffer (m : μ) : μ → Prop where
  | none : OneBuffer m m
  | empty {size align : Nat} {a : UInt64} {m' : μ} (halign : align ≤ Layout.maxWord)
    (h : Memory.alloc size align m = (.ok a, m')) : OneBuffer m m'
  | filled {size align : Nat} {a : UInt64} {bs : List UInt8} {t m' : μ} (halign : align ≤ Layout.maxWord)
    (h : Memory.alloc size align m = (.ok a, t)) (hs : Memory.store a bs t = (.ok (), m')) : OneBuffer m m'

theorem encodeInto_flat (hv : v.Flat) (l : Layout) (out : Bytes) :
    Still (encodeInto l out v : Transition μ Bytes) ∨ ∃ data align, ∃ record : UInt64 → Bytes,
      align ∣ 8 ∧ (encodeInto l out v : Transition μ Bytes) =
        checkRoom l out v.ty >>= fun _ => Memory.newBuffer data align >>= fun a => pure (record a) := by
  cases v with
  | scalar t w =>
    rw [encodeInto]
    refine .inl ((still_checkRoom l out t).bind fun _ => ?_)
    cases l.storage with
    | scalar => cases t.kind? <;> exact fun _ => rfl
    | _ => exact fun _ => rfl
  | complex t re im =>
    rw [encodeInto]
    refine .inl ((still_checkRoom l out t).bind fun _ => ?_)
    cases l.storage with
    | complex => cases t.complexKind? <;> exact fun _ => rfl
    | _ => exact fun _ => rfl
  | tensor t shape data =>
    cases hl : l.storage with
    | descriptor rank =>
      rw [encodeInto_descriptor hl]
      split
      · exact .inl ((still_checkRoom l out t).bind fun _ _ => rfl)
      · exact .inr ⟨_, _, _, bufferAlign_dvd t, rfl⟩
    | _ =>
      rw [encodeInto]
      refine .inl ((still_checkRoom l out t).bind fun _ => ?_)
      rw [hl]
      exact fun _ => rfl
  | struct | function | ref => cases hv

variable [LawfulMemory μ]

/-- Encoding a flat value makes one buffer at most, and none when memory runs out. -/
theorem encode_flat (hv : v.Flat) (h : v.encode m = (r, m')) (hsound : Sound m) (hfits : Fits m') :
    OneBuffer m m' ∧ ∀ f, r = .error f → f.kind = .outOfMemory → m' = m := by
  by_cases hsize : v.ty.layout.size ≤ Layout.maxSize
  rotate_left
  · rw [encode, Memory.reserve, if_neg hsize] at h
    cases h
    exact ⟨.none, fun _ _ _ => rfl⟩
  rw [encode_eq hsize] at h
  rcases encodeInto_flat (μ := μ) hv v.ty.layout (Bytes.zeros v.ty.layout.size) with
    hstill | ⟨data, align, record, halign, heq⟩
  · obtain rfl : m' = m := (congrArg Prod.snd h).symm.trans (hstill m)
    exact ⟨.none, fun _ _ _ => rfl⟩
  · rw [heq, checkRoom_bind (Bytes.size_zeros _), Transition.bind_apply] at h
    rcases hbuffer : Memory.newBuffer data align m with ⟨x, t⟩
    rw [hbuffer] at h
    have hword := le_maxWord_of_dvd halign
    -- the buffer is refused, or it is made and then cannot or can be filled
    rcases newBuffer_cases hbuffer with
      ⟨f, rfl, hsame⟩ | ⟨a, u, -, halloc, ⟨f, rfl, rfl, hkind⟩ | ⟨rfl, hstore⟩⟩
    · cases h
      obtain rfl : m' = m := hsame.elim id (LawfulMemory.alloc_failed hsound hfits)
      exact ⟨.none, fun _ _ _ => rfl⟩
    · cases h
      exact ⟨.empty hword halloc, fun f' hf hoom => absurd (Except.error.inj hf ▸ hoom) hkind⟩
    · cases h
      exact ⟨.filled hword halloc hstore, by simp⟩

theorem store_flat_failed (hv : v.Flat) (h : v.store dst m = (.error f, m')) (hsound : Sound m)
    (hfits : Fits m') :
    OneBuffer m m' ∧ (f.kind = .outOfMemory → m' = m) := by
  rcases store_cases v dst m with ⟨f', m₁, henc, hstore⟩ | ⟨out, m₁, henc, hstore⟩
  · cases hstore.symm.trans h
    obtain ⟨hone, hoom⟩ := encode_flat hv henc hsound hfits
    exact ⟨hone, hoom _ rfl⟩
  -- the record cannot be written: this is no lack of memory
  · have hfailed := hstore.symm.trans h
    obtain rfl := LawfulMemory.store_failed hfailed
    exact ⟨(encode_flat hv henc hsound hfits).1, fun hoom => absurd hoom (LawfulMemory.store_fault hfailed)⟩

theorem kept_of_store_failed (h : v.store dst m = (.error f, m')) (hsound : Sound m)
    (hfits : Fits m') : Kept m m' := by
  rcases store_cases v dst m with ⟨f', m₁, henc, hstore⟩ | ⟨out, m₁, henc, hstore⟩
  · cases hstore.symm.trans h
    exact (encode_adds v).kept m _ m' henc hsound hfits
  · obtain rfl := LawfulMemory.store_failed (hstore.symm.trans h)
    exact (encode_adds v).kept m _ m' henc hsound hfits

theorem Delivers.failed (hx : Delivers dst x) (h : x m = (.error f, m')) (hsound : Sound m)
    (hfits : Fits m') : OneBuffer m m' ∧ (f.kind = .outOfMemory → m' = m) ∧ Kept m m' := by
  rcases hx m with ⟨f', heq⟩ | ⟨v, hv, heq⟩
  · cases heq.symm.trans h
    exact ⟨.none, fun _ => rfl, .refl hsound⟩
  · have hstore := heq.symm.trans h
    obtain ⟨hone, hoom⟩ := store_flat_failed hv hstore hsound hfits
    exact ⟨hone, hoom, kept_of_store_failed hstore hsound hfits⟩

end

end Value

/-! ## Heaps after a failure -/

theorem Extent.filter_insert (he : p e = false) (es : List Extent) :
    (insert e es).filter p = es.filter p := by
  induction es with
  | nil => simp [insert, he]
  | cons x es ih =>
    rw [insert]
    split
    · simp [he]
    · rw [List.filter_cons, List.filter_cons, ih]

namespace Heap

variable {h h' : Heap}

/-- The same blocks and gaps in the same region, and the same bytes in the blocks. -/
structure Alike (h h' : Heap) : Prop where
  base : h'.region.base = h.region.base
  limit : h'.limit = h.limit
  footprint : h'.footprint = h.footprint
  blocks : h'.blocks = h.blocks
  gaps : h'.gaps = h.gaps
  sinceSweep : h'.sinceSweep = h.sinceSweep
  bytes : ∀ b ∈ h.blocks, SameBytes h h' b

theorem Reachable.oneBuffer (hh : h.Reachable) (hone : Value.OneBuffer h h') (hfits : h'.Fits) :
    h'.region.base = h.region.base ∧ h'.limit = h.limit ∧
      (h'.blocks = h.blocks ∨ ∃ e, h'.blocks = Extent.insert e h.blocks ∧ ∀ b ∈ h.blocks, b.start ≠ e.start) := by
  have halloc : ∀ {size align a h'}, align ≤ Layout.maxWord → Heap.alloc size align h = (.ok a, h') → h'.Fits →
      h'.region.base = h.region.base ∧ h'.limit = h.limit ∧
        ∃ e, h'.blocks = Extent.insert e h.blocks ∧ ∀ b ∈ h.blocks, b.start ≠ e.start := by
    intro size align a h' halign ha hfits
    obtain ⟨hbase, hlimit, -⟩ := alloc_limit ha hh.packed.limit
    refine ⟨hbase, hlimit, _, alloc_blocks ha, fun b hb heq => ?_⟩
    have hpos := hh.sound.1.blocks.2 b hb
    refine (hh.packed.alloc halign ha hfits).2.apart b hb b.start heq.ge ?_ ⟨Nat.le_refl _, ?_⟩
    all_goals
      simp only [span, Extent.stop] at *
      omega
  cases hone with
  | none => exact ⟨rfl, rfl, .inl rfl⟩
  | empty halign ha =>
    obtain ⟨hbase, hlimit, hblocks⟩ := halloc halign ha hfits
    exact ⟨hbase, hlimit, .inr hblocks⟩
  | filled halign ha hs =>
    obtain ⟨hbase, hlimit, hblocks⟩ := halloc halign ha ((LawfulMemory.fits_store (μ := Heap) hs).1 hfits)
    obtain ⟨region, hstore, rfl⟩ := store_eq hs
    obtain ⟨hbase', hlimit', -⟩ := Region.store_size hstore
    exact ⟨hbase'.trans hbase, hlimit'.trans hlimit, .inr hblocks⟩

/-- A collection that keeps none but old blocks undoes what a failure has left behind. -/
theorem Reachable.sweep_alike (hh : h.Reachable) (hone : Value.OneBuffer h h') (hfits : h'.Fits)
    (hkept : Kept h h') {live : UInt64 → Bool} (hlive : ∀ a, live a → h.Begins a) :
    Alike (h.sweep live).2 (h'.sweep live).2 := by
  obtain ⟨hsound, hfits₀⟩ := hh.sound
  obtain ⟨hbase, hlimit, hblocks⟩ := hh.oneBuffer hone hfits
  obtain ⟨-, hswept, hstop⟩ := hsound.sweep hfits₀ live
  obtain ⟨-, hswept', hstop'⟩ := Heap.Sound.sweep hkept.sound hfits live
  have hfilter : h'.blocks.filter (fun b => live (UInt64.ofNat b.start)) =
      h.blocks.filter fun b => live (UInt64.ofNat b.start) := by
    rcases hblocks with heq | ⟨e, heq, hne⟩
    · rw [heq]
    · rw [heq]
      refine Extent.filter_insert (Bool.eq_false_iff.2 fun hl => ?_) _
      -- a block that is kept begins where an old one did, and the buffer does not
      obtain ⟨b, hb, hstart⟩ := hlive _ hl
      have he : e ∈ h'.blocks := heq ▸ Extent.mem_insert.2 (.inl rfl)
      rw [Heap.Sound.toNat_start hkept.sound hfits he] at hstart
      exact hne b hb hstart
  have hold : ∀ b ∈ h.blocks, b ∈ h'.blocks := fun b hb => by
    rcases hblocks with heq | ⟨e, heq, -⟩
    · exact heq ▸ hb
    · exact heq ▸ Extent.mem_insert.2 (.inr hb)
  rw [hfilter, hbase] at hstop'
  refine ⟨hswept'.base.trans (hbase.trans hswept.base.symm), hswept'.limit.trans (hlimit.trans hswept.limit.symm),
    Nat.add_left_cancel (hstop'.trans hstop.symm), hfilter, ?_, rfl, fun b hb => ?_⟩
  · show (Extent.gapsFrom h'.region.base.toNat _).1 = (Extent.gapsFrom h.region.base.toNat _).1
    rw [hfilter, hbase]
  · obtain ⟨hb, hl⟩ := List.mem_filter.1 hb
    have hword := hsound.toNat_start hfits₀ hb
    have hstop : (UInt64.ofNat b.start).toNat + b.size ≤ b.stop := by rw [hword]; exact Nat.le_refl _
    obtain ⟨-, hload⟩ := hsound.sweep_keeps hfits₀ hb hl hword.ge hstop
    obtain ⟨-, hload'⟩ := Heap.Sound.sweep_keeps hkept.sound hfits (hold b hb) hl hword.ge hstop
    obtain ⟨bs, hbs, hbs'⟩ := hsound.sameBytes hfits₀ hb (hkept.load _ _ (hsound.owns_block hfits₀ hb))
    exact ⟨bs, hload.trans hbs, hload'.trans hbs'⟩

end Heap

namespace Code.Site

open Value (Delivers Still flat_ofElem)
open Value.Delivers (outcome store reading)

variable {μ : Type} [Memory μ] (s : Site) (args : HelperArgs)

theorem still_operand (i : Nat) (addr : UInt64) : Still (s.operand i addr : Transition μ Value) :=
  Still.bind (fun _ => rfl) fun _ _ => rfl

/-- A helper stores its result last. -/
theorem run_delivers (h : Helper) : Delivers args.dst (s.run args h : Transition μ Unit) := by
  have hlhs := s.still_operand (μ := μ) 0 args.lhs
  have hrhs := s.still_operand (μ := μ) 1 args.rhs
  cases h with
  | complexBinary =>
    exact reading hlhs fun _ => reading hrhs fun _ => outcome fun _ => outcome fun _ => outcome fun _ =>
      outcome fun _ => outcome fun _ => store trivial
  | complexCompare =>
    refine outcome fun _ => reading hlhs fun _ => reading hrhs fun _ => outcome fun _ => ?_
    split
    · exact outcome fun _ => outcome fun _ => outcome fun _ => store trivial
    · exact .defect _
  | tensorBinary =>
    exact reading hlhs fun _ => reading hrhs fun _ => outcome fun _ => outcome fun _ => outcome fun _ =>
      outcome fun _ => store trivial
  | tensorScale =>
    exact reading hlhs fun _ => reading hrhs fun _ => outcome fun _ => outcome fun _ => outcome fun _ =>
      store trivial
  | tensorDot =>
    exact reading hlhs fun _ => reading hrhs fun _ => outcome fun _ => outcome fun _ => outcome fun _ =>
      store (flat_ofElem _ _)
  | tensorMatmul =>
    exact reading hlhs fun _ => reading hrhs fun _ => outcome fun _ => outcome fun _ => outcome fun _ =>
      outcome fun _ => store trivial
  | tensorSum =>
    exact reading hlhs fun _ => outcome fun _ => outcome fun _ => store (flat_ofElem _ _)
  | tensorExtract =>
    exact reading hlhs fun _ => reading (fun _ => rfl) fun _ => outcome fun _ => outcome fun _ =>
      outcome fun _ => store (flat_ofElem _ _)
  | tensorCast =>
    refine reading hlhs fun v => ?_
    split
    · exact outcome fun _ => store trivial
    · exact .defect _

/-- A helper that fails changes no byte that had been handed out, in a region or in the live blocks of
a heap, and a collection of the heap undoes what it has left behind. When memory ran out, it has left
nothing, so that a call after a collection is the first one on the collected heap. -/
theorem failed_helper_harmless (s : Site) (args : HelperArgs) (k : Helper) (f : Fault) :
    (∀ m m' : Region, s.run args k m = (.error f, m') → m'.Fits →
      ∀ a n, m.contains a n → m'.contains a n ∧ m'.load a n = m.load a n) ∧
    ∀ m m' : Heap, m.Reachable → s.run args k m = (.error f, m') → m'.Fits →
      (∀ a n, m.Owns a n → m'.Owns a n ∧ m'.load a n = m.load a n) ∧
      (∀ live, (∀ a, live a → m.Begins a) → Heap.Alike (m.sweep live).2 (m'.sweep live).2) ∧
      (f.kind = .outOfMemory → m' = m ∧
        ∀ live, s.run args k (m'.sweep live).2 = s.run args k (m.sweep live).2) := by
  refine ⟨fun m m' hrun hfits a n ha => ?_, fun m m' hm hrun hfits => ?_⟩
  · obtain ⟨-, -, hkept⟩ := (s.run_delivers args k).failed hrun trivial hfits
    exact ⟨hkept.owns a n ha, hkept.load a n ha⟩
  · obtain ⟨hone, hoom, hkept⟩ := (s.run_delivers args k).failed hrun hm.sound.1 hfits
    refine ⟨fun a n ha => ⟨hkept.owns a n ha, hkept.load a n ha⟩, fun live hlive => ?_, fun hkind => ?_⟩
    · exact hm.sweep_alike hone hfits hkept hlive
    · rw [hoom hkind]
      exact ⟨rfl, fun _ => rfl⟩

/-- A sum of two vectors of bytes whose result goes to a buffer. -/
def bufferedSum : Site where
  helper := .tensorBinary
  op := .arith .add
  result := .tensor (.prim .unsignedInt 8) [.dynamic]
  operands := [.vector (.prim .unsignedInt 8) 2, .vector (.prim .unsignedInt 8) 2]
  checked := false

theorem failed_helper_harmless_sum :
    let m := (Heap.alloc 32 8 (Heap.new 4096 33)).2
    let after := bufferedSum.run ⟨4104, 4096, 4098⟩ .tensorBinary m
    after.1 = .error (.outOfMemory 2 32 33) ∧ m.Owns 4104 16 ∧ after.2.load 4104 16 = m.load 4104 16 ∧
      after.2 = m := by
  intro m after
  have hm : m.Reachable := .alloc 32 8 (.new 4096 33) (by decide) (by decide +kernel)
  have hrun : after.1 = .error (.outOfMemory 2 32 33) := by decide +kernel
  have hblocks : m.blocks = [⟨4096, 32⟩] := by decide +kernel
  have howns : m.Owns 4104 16 := ⟨⟨4096, 32⟩, hblocks ▸ List.mem_singleton_self _, by decide, by decide⟩
  have hafter : after = (.error (.outOfMemory 2 32 33), after.2) :=
    (Prod.eta after).symm.trans (congrArg (·, after.2) hrun)
  obtain ⟨hkept, -, hoom⟩ :=
    (failed_helper_harmless bufferedSum ⟨4104, 4096, 4098⟩ .tensorBinary _).2 m after.2 hm
    hafter (by decide +kernel)
  exact ⟨hrun, howns, (hkept 4104 16 howns).2, (hoom rfl).1⟩

end Code.Site

end NumericEngine
