import NumericEngine.Proofs.Memory.Heap

/-!
# Heaps are tiled by blocks and gaps

Every address of a heap's region lies in one live block or in one gap, and a gap
always ends where a live block begins. So gaps are as large as they can be and
none lies at the end of the region, which makes first fit complete: an
allocation fails only when no place for it is left.
-/

namespace NumericEngine

open List hiding span

namespace Layout

variable {align : Nat}

theorem le_alignUp_of_word (hword : offset + align ≤ maxWord + 1) : offset ≤ alignUp offset align := by
  unfold alignUp
  split
  · exact Nat.le_refl offset
  · have hbounds := div_mul_bounds (offset + (align - 1)) (show 0 < align by omega)
    rw [saturate, Nat.min_eq_left (by omega)]
    omega

end Layout

namespace Extent

variable {gaps : List Extent} {a size align start : Nat}

theorem between_covers (hle : cursor ≤ a) (hlt : a < b) :
    ∃ e ∈ between cursor b, e.start ≤ a ∧ a < e.stop := by
  rw [between, if_pos (by omega)]
  exact ⟨_, mem_singleton_self _, hle, by simp only [stop]; omega⟩

theorem pos_of_mem_between (h : x ∈ between cursor b) : 0 < x.size := by
  obtain ⟨hlt, hstart, hstop⟩ := mem_between.1 h
  simp only [stop] at hstop
  omega

theorem carve_eq_none : carve size align gaps = none ↔ ∀ g ∈ gaps,
    ¬ (g.start ≤ Layout.alignUp g.start align ∧ Layout.alignUp g.start align + size ≤ g.stop) := by
  induction gaps with
  | nil => simp [carve]
  | cons gap gaps ih =>
    rw [carve, forall_mem_cons]
    split
    · rename_i hfits
      simp [hfits]
    · rename_i hfits
      simp [hfits, ih]

theorem gapsFrom_tiles (es : List Extent) (cursor : Nat) :
    (∀ g ∈ (gapsFrom cursor es).1, 0 < g.size ∧ ∃ e ∈ es, e.start = g.stop) ∧
      ∀ a, cursor ≤ a → a < (gapsFrom cursor es).2 →
        ∃ e ∈ es ++ (gapsFrom cursor es).1, e.start ≤ a ∧ a < e.stop := by
  induction es generalizing cursor with
  | nil => exact ⟨nofun, fun a hle hlt => absurd hlt (by simp only [gapsFrom]; omega)⟩
  | cons e es ih =>
    obtain ⟨hgaps, hcovers⟩ := ih e.stop
    rw [gapsFrom]
    dsimp only
    refine ⟨fun g hg => ?_, fun a hle hlt => ?_⟩
    · rcases mem_append.1 hg with hg | hg
      · exact ⟨pos_of_mem_between hg, e, mem_cons_self, (mem_between.1 hg).2.2.symm⟩
      · obtain ⟨hpos, e', he', heq⟩ := hgaps g hg
        exact ⟨hpos, e', mem_cons_of_mem e he', heq⟩
    -- an address lies before the first block, in it, or behind it
    · rcases Nat.lt_or_ge a e.start with hbefore | hstart
      · obtain ⟨e', he', hin⟩ := between_covers hle hbefore
        exact ⟨e', mem_append_right _ (mem_append_left _ he'), hin⟩
      · rcases Nat.lt_or_ge a e.stop with hin | hafter
        · exact ⟨e, mem_cons_self, hstart, hin⟩
        · obtain ⟨e', he', hin⟩ := hcovers a hafter hlt
          refine ⟨e', ?_, hin⟩
          simp only [cons_append, mem_cons, mem_append] at he' ⊢
          tauto

theorem total_filter (es : List Extent) (p : Extent → Bool) :
    total es = total (es.filter p) + total (es.filter fun e => !p e) := by
  induction es with
  | nil => rfl
  | cons e es ih =>
    simp only [total, foldr_cons] at ih ⊢
    cases h : p e <;> simp [h, ih] <;> omega

end Extent

namespace Heap

open Extent (span)

variable {h h' : Heap} {addr : UInt64} {size align : Nat}

/-- Live blocks and gaps are not empty and tile the region; gaps do not touch one another, and the
region ends with a live block, within its limit. -/
structure Tiled (h : Heap) : Prop where
  nonempty : ∀ e ∈ h.blocks ++ h.gaps, 0 < e.size
  inside : ∀ e ∈ h.blocks ++ h.gaps, h.Inside e
  apart : (h.blocks ++ h.gaps).Pairwise Extent.Apart
  covers : ∀ a, h.region.base.toNat ≤ a → a < h.region.base.toNat + h.footprint →
    ∃ e ∈ h.blocks ++ h.gaps, e.start ≤ a ∧ a < e.stop
  separate : ∀ g ∈ h.gaps, ∀ g' ∈ h.gaps, g.stop ≠ g'.start
  last : 0 < h.footprint → ∃ b ∈ h.blocks, b.stop = h.region.base.toNat + h.footprint
  limit : h.footprint ≤ h.limit

/-- What each operation keeps: nothing is left out, and a live block follows every gap. -/
structure Packed (h : Heap) : Prop where
  sound : h.Sound
  gapSize : ∀ g ∈ h.gaps, 0 < g.size
  covers : ∀ a, h.region.base.toNat ≤ a → a < h.region.base.toNat + h.footprint →
    ∃ e ∈ h.blocks ++ h.gaps, e.start ≤ a ∧ a < e.stop
  followed : ∀ g ∈ h.gaps, ∃ b ∈ h.blocks, b.start = g.stop
  limit : h.footprint ≤ h.limit

theorem Packed.not_in_gap (hh : h.Packed) (hg : g ∈ h.gaps) (hg' : g' ∈ h.gaps) :
    ¬ (g'.start ≤ g.stop ∧ g.stop < g'.stop) := by
  intro hin
  obtain ⟨b, hb, hstart⟩ := hh.followed g hg
  have hpos := hh.sound.blocks.2 b hb
  refine hh.sound.apart g' hg' b hb g.stop hin.1 hin.2 ⟨by omega, ?_⟩
  simp only [Extent.stop] at hstart ⊢
  omega

theorem Packed.tiled (hh : h.Packed) : h.Tiled where
  nonempty e he := (mem_append.1 he).elim (hh.sound.blocks.2 e) (hh.gapSize e)
  inside e he := (mem_append.1 he).elim (hh.sound.blocksInside e) (hh.sound.gapsInside e)
  apart := pairwise_append.2 ⟨hh.sound.blocks.1.imp Extent.apart_of_le, hh.sound.gaps,
    fun b hb g hg => (hh.sound.apart g hg b hb).symm⟩
  covers := hh.covers
  separate g hg g' hg' heq := hh.not_in_gap hg hg' ⟨heq.ge, by
    have := hh.gapSize g' hg'
    simp only [Extent.stop] at heq ⊢
    omega⟩
  last hpos := by
    obtain ⟨e, he, hle, hlt⟩ := hh.covers (h.region.base.toNat + h.footprint - 1) (by omega) (by omega)
    rcases mem_append.1 he with hb | hg
    · have := (hh.sound.blocksInside e hb).2
      exact ⟨e, hb, by unfold footprint at *; omega⟩
    · -- a live block would have to follow
      obtain ⟨b, hb, hstart⟩ := hh.followed e hg
      have hsize := hh.sound.blocks.2 b hb
      have hinside := (hh.sound.blocksInside b hb).2
      simp only [Extent.stop, footprint] at *
      omega
  limit := hh.limit

/-- What an allocation gives: a new block of zeros, aligned where the base of the heap is. -/
structure Allocated (h : Heap) (size align : Nat) (addr : UInt64) (h' : Heap) : Prop where
  blocks : ∀ b, b ∈ h'.blocks ↔ b = span addr (max size 1) ∨ b ∈ h.blocks
  apart : ∀ b ∈ h.blocks, (span addr (max size 1)).Apart b
  zeros : h'.load addr (max size 1) = .ok (List.replicate (max size 1) 0)
  aligned : max align 1 ∣ h.region.base.toNat → max align 1 ∣ addr.toNat

theorem load_resize_zeros {r : Region} (hle : r.used ≤ start)
    (hfits : r.base.toNat + (start + n) < 2 ^ 64) :
    (r.resize (start + n)).load (r.address start) n = .ok (List.replicate n 0) := by
  have hused : (r.resize (start + n)).used = start + n := Region.used_resize _ _
  have hoffset : (r.resize (start + n)).offset? (r.address start) n = some start :=
    Region.offset?_eq_some.2 ⟨r.toNat_address (by omega), hused.ge⟩
  rw [Region.load, hoffset]
  refine congrArg _ (ext_getElem? fun i => ?_)
  rw [Bytes.getElem?_window, getElem?_replicate]
  split
  · have hbytes : (r.resize (start + n)).bytes = _ := Region.bytes_resize (by omega)
    unfold Region.used at hle hbytes
    rw [hbytes, Array.getElem?_append_right (by omega), Bytes.zeros, Array.getElem?_replicate,
      if_pos (by omega)]
  · rfl

/-- A block comes out of a gap: the rest of the gap stays, before and after the block. -/
theorem Packed.carved (hh : h.Packed) {gaps : List Extent} {region : Region}
    (hcarve : Extent.carve size align h.gaps = some (start, gaps))
    (hstore : Region.store addr (List.replicate size 0) h.region = (.ok (), region))
    (haddr : addr.toNat = start) (hsound : ({ h with region, gaps }.addBlock addr size).Sound) :
    ({ h with region, gaps }.addBlock addr size).Packed := by
  obtain ⟨hbase, hlimit, hused⟩ := Region.store_size hstore
  obtain ⟨before, gap, after, hgaps, hleft, -, hlo, hhi⟩ := Extent.carve_split hcarve
  have hmem : ∀ g, g ∈ h.gaps ↔ g = gap ∨ g ∈ before ∨ g ∈ after := by
    simp [hgaps, or_left_comm]
  have hmem' : ∀ g, g ∈ gaps ↔ (g ∈ before ∨ g ∈ after) ∨ g ∈ Extent.between gap.start start ∨
      g ∈ Extent.between (start + size) gap.stop := by
    intro g
    simp only [hleft, mem_append]
    tauto
  have hnew : span addr size ∈ ({ h with region, gaps }.addBlock addr size).blocks :=
    Extent.mem_insert.2 (.inl rfl)
  have hold : ∀ b ∈ h.blocks, b ∈ ({ h with region, gaps }.addBlock addr size).blocks := fun b hb =>
    Extent.mem_insert.2 (.inr hb)
  refine ⟨hsound, fun g hg => ?_, fun a hle hlt => ?_, fun g hg => ?_, ?_⟩
  · rcases (hmem' g).1 hg with hg | hg | hg
    · exact hh.gapSize g ((hmem g).2 (.inr hg))
    · exact Extent.pos_of_mem_between hg
    · exact Extent.pos_of_mem_between hg
  · obtain ⟨e, he, hin⟩ := hh.covers a (hbase ▸ hle) (by unfold footprint at *; rw [← hbase, ← hused]; exact hlt)
    rcases mem_append.1 he with hb | hg
    · exact ⟨e, mem_append_left _ (hold e hb), hin⟩
    · rcases (hmem e).1 hg with rfl | hg
      -- of the gap's addresses, some go to the block and the others stay in a gap
      · rcases Nat.lt_or_ge a start with hbefore | hstart
        · obtain ⟨g, hg, hin⟩ := Extent.between_covers hin.1 hbefore
          exact ⟨g, mem_append_right _ ((hmem' g).2 (.inr (.inl hg))), hin⟩
        · rcases Nat.lt_or_ge a (start + size) with hin' | hafter
          · exact ⟨_, mem_append_left _ hnew, by simp only [span]; omega, by simp only [span, Extent.stop]; omega⟩
          · obtain ⟨g, hg, hin⟩ := Extent.between_covers hafter hin.2
            exact ⟨g, mem_append_right _ ((hmem' g).2 (.inr (.inr hg))), hin⟩
      · exact ⟨e, mem_append_right _ ((hmem' e).2 (.inl hg)), hin⟩
  · rcases (hmem' g).1 hg with hg | hg | hg
    · obtain ⟨b, hb, hstart⟩ := hh.followed g ((hmem g).2 (.inr hg))
      exact ⟨b, hold b hb, hstart⟩
    -- the new block follows the gap before it, and the gap behind it keeps its follower
    · obtain ⟨-, -, hstop⟩ := Extent.mem_between.1 hg
      exact ⟨_, hnew, haddr.trans hstop.symm⟩
    · obtain ⟨-, -, hstop⟩ := Extent.mem_between.1 hg
      obtain ⟨b, hb, hstart⟩ := hh.followed gap ((hmem gap).2 (.inl rfl))
      exact ⟨b, hold b hb, hstart.trans hstop.symm⟩
  · show region.used ≤ region.limit
    rw [hused, hlimit]
    exact hh.limit

/-- The region grows by a block; the padding before the block is a gap. -/
theorem Packed.grown (hh : h.Packed) {region : Region} {gaps : List Extent}
    (hlimit : start + size ≤ h.limit) (hregion : region = h.region.resize (start + size))
    (hgaps : gaps = h.gaps ++ Extent.between (h.region.base.toNat + h.region.used) addr.toNat)
    (haddr : addr.toNat = h.region.base.toNat + start)
    (hsound : ({ h with region, gaps }.addBlock addr size).Sound) :
    ({ h with region, gaps }.addBlock addr size).Packed := by
  subst hregion hgaps
  have hused : (h.region.resize (start + size)).used = start + size := Region.used_resize _ _
  have hnew : ∀ {h : Heap}, span addr size ∈ (h.addBlock addr size).blocks := Extent.mem_insert.2 (.inl rfl)
  have hold : ∀ {h : Heap}, ∀ b ∈ h.blocks, b ∈ (h.addBlock addr size).blocks := fun b hb =>
    Extent.mem_insert.2 (.inr hb)
  refine ⟨hsound, fun g hg => ?_, fun a hlo hhi => ?_, fun g hg => ?_, ?_⟩
  · rcases mem_append.1 hg with hg | hg
    · exact hh.gapSize g hg
    · exact Extent.pos_of_mem_between hg
  · have hhi : a < h.region.base.toNat + (h.region.resize (start + size)).used := hhi
    rw [hused] at hhi
    rcases Nat.lt_or_ge a (h.region.base.toNat + h.region.used) with hin | hbeyond
    · obtain ⟨e, he, hin⟩ := hh.covers a hlo hin
      rcases mem_append.1 he with hb | hg
      · exact ⟨e, mem_append_left _ (hold e hb), hin⟩
      · exact ⟨e, mem_append_right _ (mem_append_left _ hg), hin⟩
    -- what the region has grown by is the padding and the block
    · rcases Nat.lt_or_ge a addr.toNat with hpad | hin
      · obtain ⟨g, hg, hin⟩ := Extent.between_covers hbeyond hpad
        exact ⟨g, mem_append_right _ (mem_append_right _ hg), hin⟩
      · exact ⟨_, mem_append_left _ hnew, hin, by simp only [span, Extent.stop]; omega⟩
  · rcases mem_append.1 hg with hg | hg
    · obtain ⟨b, hb, hstart⟩ := hh.followed g hg
      exact ⟨b, hold b hb, hstart⟩
    · exact ⟨_, hnew, (Extent.mem_between.1 hg).2.2.symm⟩
  · show (h.region.resize (start + size)).used ≤ h.limit
    rw [hused]
    exact hlimit

theorem next_max (r : Region) (align : Nat) : r.next (max align 1) = Layout.alignUp r.used (max align 1) := by
  rw [Region.next, max_assoc, max_self]

theorem Sound.toNat_start (hsound : h.Sound) (hfits : h.Fits) (hb : b ∈ h.blocks) :
    (UInt64.ofNat b.start).toNat = b.start := by
  have hstop : b.start ≤ b.stop := Nat.le_add_right _ _
  exact UInt64.toNat_ofNat_of_lt'
    (Nat.lt_of_le_of_lt (hstop.trans (hsound.blocksInside b hb).2) hfits.lt)

theorem Sound.owns_block (hsound : h.Sound) (hfits : h.Fits) (hb : b ∈ h.blocks) :
    h.Owns (UInt64.ofNat b.start) b.size := by
  refine ⟨b, hb, ?_⟩
  rw [hsound.toNat_start hfits hb]
  exact ⟨Nat.le_refl _, Nat.le_refl _⟩

theorem alloc_blocks (ha : alloc size align h = (.ok addr, h')) :
    h'.blocks = Extent.insert (span addr (max size 1)) h.blocks := by
  cases alloc_cases ha with
  | carved | grown => rfl

theorem Packed.alloc (hh : h.Packed) (halign : align ≤ Layout.maxWord)
    (ha : alloc size align h = (.ok addr, h')) (hfits : h'.Fits) : h'.Packed ∧
    Allocated h size align addr h' := by
  obtain ⟨hsound', howns, hkept⟩ := LawfulMemory.allocated (μ := Heap) hh.sound hfits trivial halign ha
  have hfits' := fits_of_alloc halign ha hfits
  have hblocks : ∀ b, b ∈ h'.blocks ↔ b = span addr (max size 1) ∨ b ∈ h.blocks := fun b => by
    rw [alloc_blocks ha, Extent.mem_insert]
  have hapart : ∀ b ∈ h.blocks, (span addr (max size 1)).Apart b := by
    intro b hb
    have hword := hh.sound.toNat_start hfits' hb
    obtain ⟨-, -, hapart⟩ := hkept _ _ (hh.sound.owns_block hfits' hb)
    rw [span, hword] at hapart
    exact hapart.symm
  cases alloc_cases ha with
  | @carved start _ _ hcarve hstore =>
    obtain ⟨before, gap, after, hgaps, -, hstart, hlo, hhi⟩ := Extent.carve_split hcarve
    have hinside := hh.sound.gapsInside gap (hgaps ▸ mem_append_right before mem_cons_self)
    have haddr : (UInt64.ofNat start).toNat = start :=
      UInt64.toNat_ofNat_of_lt' (Nat.lt_of_le_of_lt (by have := hinside.2; omega) hfits'.lt)
    refine ⟨hh.carved hcarve hstore haddr hsound', hblocks, hapart, ?_, fun _ => ?_⟩
    · have hload := Region.load_store_same hstore
      rwa [length_replicate] at hload
    · rw [haddr, hstart]
      exact Layout.dvd_alignUp _ (by omega)
  | grown hused hlimit hregion hgaps =>
    obtain ⟨hnext, hstop, hspace, haddr, htop⟩ := grown_at (max_le halign (by decide)) hused hregion hfits
    rw [hstop] at hlimit hregion
    rw [htop] at hgaps
    refine ⟨hh.grown hlimit hregion hgaps haddr hsound', hblocks, hapart, ?_, fun hdvd => ?_⟩
    · subst hregion
      exact load_resize_zeros hnext hspace
    · rw [haddr, next_max]
      exact Nat.dvd_add hdvd (Layout.dvd_alignUp _ (by omega))

theorem Packed.sweep (hh : h.Packed) (hfits : h.Fits) (live : UInt64 → Bool) : (h.sweep live).2.Packed := by
  obtain ⟨hsound, hswept, hstop⟩ := hh.sound.sweep hfits live
  obtain ⟨hgaps, hcovers⟩ := Extent.gapsFrom_tiles
    (h.blocks.filter fun b => live (UInt64.ofNat b.start)) h.region.base.toNat
  refine ⟨hsound, fun g hg => (hgaps g hg).1, fun a hle hlt => ?_, fun g hg => (hgaps g hg).2, ?_⟩
  · have hbase : (h.sweep live).2.region.base = h.region.base := hswept.base
    rw [hbase] at hle hlt
    exact hcovers a hle (hlt.trans_eq hstop)
  · show (h.sweep live).2.region.used ≤ (h.sweep live).2.region.limit
    rw [hswept.limit]
    exact hswept.used.trans hh.limit

theorem Reachable.packed (hh : h.Reachable) : h.Packed := by
  induction hh with
  | new base limit =>
    refine ⟨(Reachable.new base limit).sound.1, nofun, fun a hle hlt => ?_, nofun, Nat.zero_le _⟩
    exact absurd hlt (Nat.not_lt.2 hle)
  | @alloc h size align _ halign hfits ih =>
    rcases hresult : Heap.alloc size align h with ⟨_ | a, h'⟩
    · rw [hresult] at hfits
      rw [LawfulMemory.alloc_failed (μ := Heap) ih.sound hfits hresult]
      exact ih
    · rw [hresult] at hfits
      exact (ih.alloc halign hresult hfits).1
  | @store h addr bs hh ih =>
    rcases hresult : Heap.store addr bs h with ⟨r, h'⟩
    obtain ⟨region, hstore, rfl⟩ := store_eq hresult
    obtain ⟨hbase, hlimit, hused⟩ := Region.store_size hstore
    refine ⟨ih.sound.withRegion hbase hused.ge, ih.gapSize, fun a hle hlt => ?_, ih.followed, ?_⟩
    · exact ih.covers a (hbase ▸ hle) (by unfold footprint at *; rw [← hbase, ← hused]; exact hlt)
    · show region.used ≤ region.limit
      rw [hused, hlimit]
      exact ih.limit
  | sweep live hh ih => exact ih.sweep hh.sound.2 live

/-- The bytes of a block are there in both heaps, and are the same. -/
def SameBytes (h h' : Heap) (b : Extent) : Prop :=
  ∃ bs, h.load (UInt64.ofNat b.start) b.size = .ok bs ∧ h'.load (UInt64.ofNat b.start) b.size = .ok bs

theorem Sound.sameBytes (hsound : h.Sound) (hfits : h.Fits) (hb : b ∈ h.blocks)
    (hload : h'.load (UInt64.ofNat b.start) b.size = h.load (UInt64.ofNat b.start) b.size) :
    SameBytes h h' b := by
  obtain ⟨start, hstart⟩ := Option.isSome_iff_exists.1 (hsound.contains (hsound.owns_block hfits hb))
  have hok : h.load (UInt64.ofNat b.start) b.size = .ok (h.region.bytes.window start b.size) := by
    rw [load, Region.load, hstart]
  exact ⟨_, hok, hload.trans hok⟩

/-- Blocks and gaps tile every heap that comes about. An allocation adds an aligned block of zeros
that no live block overlaps; a sweep keeps the blocks that it is told and gives the size of the
others; neither changes a byte of a block that stays. -/
theorem reachable_tiled (hh : h.Reachable) :
    h.Tiled ∧
    (∀ size align addr h', align ≤ Layout.maxWord → alloc size align h = (.ok addr, h') → h'.Fits →
      Allocated h size align addr h' ∧ h'.limit = h.limit ∧ ∀ b ∈ h.blocks, SameBytes h h' b) ∧
    ∀ live, (h.sweep live).2.blocks = h.blocks.filter (fun b => live (UInt64.ofNat b.start)) ∧
      (h.sweep live).1 = Extent.total (h.blocks.filter fun b => !live (UInt64.ofNat b.start)) ∧
      (h.sweep live).2.limit = h.limit ∧
      ∀ b ∈ (h.sweep live).2.blocks, SameBytes h (h.sweep live).2 b := by
  obtain ⟨hsound, hfits⟩ := hh.sound
  refine ⟨hh.packed.tiled, fun size align addr h' halign ha hfits' => ⟨?_, ?_, fun b hb => ?_⟩, fun live => ?_⟩
  · exact (hh.packed.alloc halign ha hfits').2
  · exact (alloc_limit ha hh.packed.limit).2.1
  · obtain ⟨-, -, hkept⟩ := LawfulMemory.allocated (μ := Heap) hsound hfits' trivial halign ha
    exact hsound.sameBytes hfits hb (hkept _ _ (hsound.owns_block hfits hb)).2.1
  · refine ⟨rfl, ?_, (hsound.sweep hfits live).2.1.limit, fun b hb => ?_⟩
    · have htotal := Extent.total_filter h.blocks fun b => live (UInt64.ofNat b.start)
      simp only [sweep, used]
      omega
    · obtain ⟨hb, hlive⟩ := List.mem_filter.1 hb
      refine hsound.sameBytes hfits hb (hsound.sweep_keeps hfits hb hlive ?_ ?_).2
      · exact (hsound.toNat_start hfits hb).ge
      · rw [hsound.toNat_start hfits hb]
        exact Nat.le_refl _

/-- A heap of 64 bytes with a gap of 8 bytes between two blocks. -/
def fragmented : Heap :=
  let h := (alloc 3 1 (alloc 24 8 (new 4096 64)).2).2
  ((alloc 16 8 h).2.sweep (· != 4120)).2

theorem reachable_fragmented : fragmented.Reachable :=
  .sweep _ (.alloc 16 8 (.alloc 3 1 (.alloc 24 8 (.new 4096 64) (by decide) (by decide +kernel)) (by decide)
    (by decide +kernel)) (by decide) (by decide +kernel))

theorem reachable_tiled_fragmented :
    fragmented.Tiled ∧ fragmented.gaps = [⟨4120, 8⟩] ∧ Allocated fragmented 4 4 4120 (alloc 4 4 fragmented).2 ∧
      (fragmented.sweep (· == 4096)).1 = 16 := by
  obtain ⟨htiled, halloc, hsweep⟩ := reachable_tiled reachable_fragmented
  have hok : (alloc 4 4 fragmented).1 = .ok 4120 := by rfl
  refine ⟨htiled, by decide +kernel, ?_, (hsweep _).2.1.trans (by decide +kernel)⟩
  exact (halloc 4 4 4120 _ (by decide) (Prod.ext hok rfl) (by decide +kernel)).1

/-- A place is left for a block, within the limit and apart from all live blocks. -/
def HasRoom (h : Heap) (size align : Nat) : Prop :=
  ∃ a, max align 1 ∣ a ∧ h.region.base.toNat ≤ a ∧ a + max size 1 ≤ h.region.base.toNat + h.limit ∧
    ∀ b ∈ h.blocks, Extent.Apart ⟨a, max size 1⟩ b

/-- A place that no live block overlaps lies in one gap or behind the region. -/
theorem Packed.gap_or_behind (hh : h.Packed) (hsize : 0 < size) (hbase : h.region.base.toNat ≤ a)
    (hapart : ∀ b ∈ h.blocks, Extent.Apart ⟨a, size⟩ b) :
    (∃ g ∈ h.gaps, g.start ≤ a ∧ a + size ≤ g.stop) ∨ h.region.base.toNat + h.footprint ≤ a := by
  rcases Nat.lt_or_ge a (h.region.base.toNat + h.footprint) with hlt | hbehind
  · obtain ⟨e, he, hin⟩ := hh.covers a hbase hlt
    rcases mem_append.1 he with hb | hg
    · exact absurd hin (hapart e hb a (Nat.le_refl a) (Nat.lt_add_of_pos_right hsize))
    · refine .inl ⟨e, hg, hin.1, Nat.le_of_not_lt fun hstop => ?_⟩
      -- the block that follows the gap would lie in the place
      obtain ⟨b, hb, hstart⟩ := hh.followed e hg
      have hpos := hh.sound.blocks.2 b hb
      refine hapart b hb e.stop (Nat.le_of_lt hin.2) hstop ⟨hstart.le, ?_⟩
      simp only [Extent.stop] at hstart ⊢
      omega
  · exact .inr hbehind

/-- The end of the next block is no further than a word reaches. -/
theorem Packed.add_next (hh : h.Packed) (hused : h.region.used ≤ Layout.maxSize)
    (hword : h.limit + size + align < 2 ^ 64) :
    Word.add (h.region.next (max align 1)) (max size 1) = h.region.next (max align 1) + max size 1 := by
  have hle := hh.limit
  unfold footprint at hle
  have hnext : h.region.next (max align 1) < h.region.used + max align 1 := by
    rw [next_max]
    exact Layout.alignUp_lt _ (by omega)
  unfold Layout.maxSize at hused
  exact Word.add_of_lt (by omega)

theorem Packed.hasRoom (hh : h.Packed) (hbase : max align 1 ∣ h.region.base.toNat)
    (hword : h.limit + size + align < 2 ^ 64) (ha : Heap.alloc size align h = (.ok addr, h')) :
    h.HasRoom size align := by
  cases alloc_cases ha with
  | @carved start _ _ hcarve =>
    obtain ⟨before, gap, after, hgaps, -, hstart, hlo, hhi⟩ := Extent.carve_split hcarve
    have hg : gap ∈ h.gaps := hgaps ▸ mem_append_right before mem_cons_self
    obtain ⟨hinside, hinside'⟩ := hh.sound.gapsInside gap hg
    refine ⟨start, hstart ▸ Layout.dvd_alignUp _ (by omega), by omega, ?_, fun b hb => ?_⟩
    · have := hh.limit
      unfold footprint at this
      omega
    · exact ((hh.sound.apart gap hg b hb).symm.mono (z := ⟨start, max size 1⟩) hlo hhi).symm
  | grown hused hlimit =>
    have hle := hh.limit
    unfold footprint at hle
    rw [hh.add_next hused hword, next_max] at hlimit
    have hnext := Layout.le_alignUp_of_word (show h.region.used + max align 1 ≤ Layout.maxWord + 1 by
      unfold Layout.maxWord; omega)
    refine ⟨h.region.base.toNat + Layout.alignUp h.region.used (max align 1),
      Nat.dvd_add hbase (Layout.dvd_alignUp _ (by omega)), by omega, by omega, fun b hb => ?_⟩
    refine (Extent.apart_of_le ((hh.sound.blocksInside b hb).2.trans ?_)).symm
    exact Nat.add_le_add_left hnext _

theorem Packed.no_room (hh : h.Packed) (hused : h.region.used ≤ Layout.maxSize)
    (hbase : max align 1 ∣ h.region.base.toNat)
    (hword : h.region.base.toNat + h.limit + size + align < 2 ^ 64)
    (hcarve : Extent.carve (max size 1) (max align 1) h.gaps = none)
    (hlimit : h.limit < Word.add (h.region.next (max align 1)) (max size 1)) : ¬ h.HasRoom size align := by
  rintro ⟨a, hdvd, hlo, hhi, hapart⟩
  have hle := hh.limit
  unfold footprint at hle
  rcases hh.gap_or_behind (by omega) hlo hapart with ⟨g, hg, hstart, hstop⟩ | hbehind
  · have hinside := (hh.sound.gapsInside g hg).2
    have hword' : g.start + max align 1 ≤ Layout.maxWord + 1 := by
      unfold Layout.maxWord
      omega
    have hround := Layout.alignUp_le hword' hdvd hstart
    exact Extent.carve_eq_none.1 hcarve g hg ⟨Layout.le_alignUp_of_word hword', by omega⟩
  -- the region rounds offsets up and not addresses, so the base has to be aligned
  · obtain ⟨k, rfl⟩ : ∃ k, a = h.region.base.toNat + k := ⟨a - h.region.base.toNat, by omega⟩
    have hround := Layout.alignUp_le (show h.region.used + max align 1 ≤ Layout.maxWord + 1 by
      unfold Layout.maxWord; omega) ((Nat.dvd_add_right hbase).1 hdvd) (by unfold footprint at hbehind; omega)
    rw [hh.add_next hused (by omega), next_max] at hlimit
    omega

end Heap

end NumericEngine
