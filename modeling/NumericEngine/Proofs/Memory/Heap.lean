import NumericEngine.Proofs.Memory.Laws

/-!
# Heaps keep to the laws of memory

Live blocks and gaps lie in the region and share no address. A heap owns the
bytes in its live blocks, so a block taken from a gap or from new memory was not
owned before.
-/

namespace NumericEngine

open List hiding span

namespace Extent

variable {x y : Extent} {es : List Extent} {a b : Nat}

theorem mem_between : x ∈ between a b ↔ a < b ∧ x.start = a ∧ x.stop = b := by
  unfold between
  split
  · rw [mem_singleton]
    constructor
    · rintro rfl
      exact ⟨‹_›, rfl, by simp only [stop]; omega⟩
    · rintro ⟨-, hstart, hstop⟩
      cases x
      simp only [stop] at hstart hstop
      subst hstart
      congr
      omega
  · simp
    omega

theorem pairwise_between : (between a b).Pairwise R := by
  unfold between
  split
  · exact pairwise_singleton _ _
  · exact .nil

theorem mem_insert : y ∈ insert x es ↔ y = x ∨ y ∈ es := by
  induction es with
  | nil => simp [insert]
  | cons z es ih =>
    rw [insert]
    split
    · simp
    · simp only [mem_cons, ih]
      tauto

/-- In order, and none empty. -/
def Sorted (es : List Extent) : Prop := es.Pairwise (·.stop ≤ ·.start) ∧ ∀ e ∈ es, 0 < e.size

theorem le_of_apart (h : x.Apart y) (hlt : x.start ≤ y.start) (hy : 0 < y.size) : x.stop ≤ y.start := by
  by_contra hstop
  refine h y.start hlt (by omega) ⟨Nat.le_refl _, ?_⟩
  simp only [stop]
  omega

theorem Sorted.insert (h : Sorted es) (hsize : 0 < x.size) (hx : ∀ e ∈ es, x.Apart e) :
    Sorted (insert x es) := by
  refine ⟨?_, fun e he => ?_⟩
  · obtain ⟨hsorted, hsizes⟩ := h
    induction es with
    | nil => exact pairwise_singleton _ _
    | cons z es ih =>
      rw [Extent.insert]
      obtain ⟨hz, hrest⟩ := pairwise_cons.1 hsorted
      have hxz := hx z mem_cons_self
      split
      · rename_i hlt
        have hstop := le_of_apart hxz (Nat.le_of_lt hlt) (hsizes z mem_cons_self)
        refine pairwise_cons.2 ⟨fun e he => ?_, hsorted⟩
        rcases mem_cons.1 he with rfl | he
        · exact hstop
        · have := hz e he
          simp only [stop] at *
          omega
      · rename_i hge
        have hstop := le_of_apart hxz.symm (Nat.le_of_not_lt hge) hsize
        refine pairwise_cons.2 ⟨fun e he => ?_, ?_⟩
        · rcases mem_insert.1 he with rfl | he
          · exact hstop
          · exact hz e he
        · exact ih (fun e he => hx e (mem_cons_of_mem z he)) hrest
            fun e he => hsizes e (mem_cons_of_mem z he)
  · rcases mem_insert.1 he with rfl | he
    · exact hsize
    · exact h.2 e he

/-- A block is carved out of one gap, and what is left of this gap takes its place. -/
theorem carve_split {size start : Nat} (h : carve size align gaps = some (start, gaps')) :
    ∃ before gap after, gaps = before ++ gap :: after ∧
      gaps' = before ++ (between gap.start start ++ between (start + size) gap.stop ++ after) ∧
      start = Layout.alignUp gap.start align ∧ gap.start ≤ start ∧ start + size ≤ gap.stop := by
  induction gaps generalizing gaps' with
  | nil => cases h
  | cons gap gaps ih =>
    rw [carve] at h
    split at h
    · rename_i hfits
      cases h
      exact ⟨[], gap, gaps, rfl, rfl, rfl, hfits⟩
    · obtain ⟨⟨start', rest⟩, hcarve, heq⟩ := Option.map_eq_some_iff.1 h
      obtain ⟨rfl, rfl⟩ := Prod.mk.inj heq
      obtain ⟨before, gap', after, hgaps, hrest, hstart⟩ := ih hcarve
      exact ⟨gap :: before, gap', after, congrArg _ hgaps, congrArg _ hrest, hstart⟩

theorem carve_eq_some {size start : Nat} {gaps : List Extent}
    (hgaps : gaps.Pairwise Apart) (h : carve size align gaps = some (start, gaps')) :
    (∃ g ∈ gaps, g.start ≤ start ∧ start + size ≤ g.stop) ∧ gaps'.Pairwise Apart ∧
      ∀ g ∈ gaps', g.Apart ⟨start, size⟩ ∧ ∃ g' ∈ gaps, g'.start ≤ g.start ∧ g.stop ≤ g'.stop := by
  obtain ⟨before, gap, after, rfl, rfl, -, hlo, hhi⟩ := carve_split h
  obtain ⟨hbefore, hrest, hacross⟩ := pairwise_append.1 hgaps
  obtain ⟨hgap, hafter⟩ := pairwise_cons.1 hrest
  have hother : ∀ g, g ∈ before ∨ g ∈ after → g.Apart gap := by
    rintro g (hg | hg)
    · exact hacross g hg gap mem_cons_self
    · exact (hgap g hg).symm
  have hleft : ∀ g ∈ between gap.start start ++ between (start + size) gap.stop,
      g.Apart ⟨start, size⟩ ∧ gap.start ≤ g.start ∧ g.stop ≤ gap.stop := by
    intro g hg
    rcases mem_append.1 hg with hg | hg
    · obtain ⟨-, hstart, hstop⟩ := mem_between.1 hg
      refine ⟨apart_of_le (Nat.le_of_eq hstop), by omega, by omega⟩
    · obtain ⟨-, hstart, hstop⟩ := mem_between.1 hg
      refine ⟨(apart_of_le ?_).symm, by omega, by omega⟩
      simp only [stop] at *
      omega
  refine ⟨⟨gap, by simp, hlo, hhi⟩, ?_, fun g hg => ?_⟩
  · refine pairwise_append.2 ⟨hbefore, pairwise_append.2 ⟨?_, hafter, fun g hg g' hg' => ?_⟩,
      fun g hg g' hg' => ?_⟩
    · refine pairwise_append.2 ⟨pairwise_between, pairwise_between, fun g hg g' hg' => ?_⟩
      obtain ⟨-, -, hstop⟩ := mem_between.1 hg
      obtain ⟨-, hstart, -⟩ := mem_between.1 hg'
      exact apart_of_le (by omega)
    · exact ((hother g' (.inr hg')).mono (hleft g hg).2.1 (hleft g hg).2.2).symm
    · rcases mem_append.1 hg' with hg' | hg'
      · exact (hother g (.inl hg)).mono (hleft g' hg').2.1 (hleft g' hg').2.2
      · exact hacross g hg g' (mem_cons_of_mem _ hg')
  · rcases mem_append.1 hg with hg | hg
    · exact ⟨(hother g (.inl hg)).mono hlo hhi, g, by simp [hg]⟩
    · rcases mem_append.1 hg with hg | hg
      · exact ⟨(hleft g hg).1, gap, by simp, (hleft g hg).2⟩
      · exact ⟨(hother g (.inr hg)).mono hlo hhi, g, by simp [hg]⟩

/-- The gaps around blocks have no part of the blocks, and all ends with the last block. -/
theorem gapsFrom_spec (hsorted : es.Pairwise (·.stop ≤ ·.start)) (hcursor : ∀ e ∈ es, cursor ≤ e.start) :
    ((gapsFrom cursor es).2 = cursor ∨ ∃ e ∈ es, (gapsFrom cursor es).2 = e.stop) ∧
      cursor ≤ (gapsFrom cursor es).2 ∧ (∀ e ∈ es, e.stop ≤ (gapsFrom cursor es).2) ∧
      (gapsFrom cursor es).1.Pairwise Apart ∧
      ∀ g ∈ (gapsFrom cursor es).1, cursor ≤ g.start ∧ g.stop ≤ (gapsFrom cursor es).2 ∧
        ∀ e ∈ es, g.Apart e := by
  induction es generalizing cursor with
  | nil => exact ⟨.inl rfl, Nat.le_refl _, nofun, .nil, nofun⟩
  | cons e es ih =>
    obtain ⟨he, hrest⟩ := pairwise_cons.1 hsorted
    have hfirst := hcursor e mem_cons_self
    obtain ⟨hlast, hle, hstops, hpair, hgaps⟩ := ih hrest he
    have hstop : e.start ≤ e.stop := Nat.le_add_right _ _
    rw [gapsFrom]
    dsimp only
    refine ⟨.inr ?_, by omega, ?_, ?_, fun g hg => ?_⟩
    · rcases hlast with hlast | ⟨e', he', hlast⟩
      · exact ⟨e, mem_cons_self, hlast⟩
      · exact ⟨e', mem_cons_of_mem e he', hlast⟩
    · intro e' he'
      rcases mem_cons.1 he' with rfl | he'
      · exact hle
      · exact hstops e' he'
    · refine pairwise_append.2 ⟨pairwise_between, hpair, fun g hg g' hg' => ?_⟩
      obtain ⟨-, -, hgstop⟩ := mem_between.1 hg
      exact apart_of_le (by have := (hgaps g' hg').1; omega)
    · rcases mem_append.1 hg with hg | hg
      · obtain ⟨-, hgstart, hgstop⟩ := mem_between.1 hg
        refine ⟨by omega, by omega, fun e' he' => apart_of_le ?_⟩
        rcases mem_cons.1 he' with rfl | he'
        · omega
        · have := he e' he'
          omega
      · obtain ⟨hgstart, hgstop, happart⟩ := hgaps g hg
        refine ⟨by omega, hgstop, fun e' he' => ?_⟩
        rcases mem_cons.1 he' with rfl | he'
        · exact (apart_of_le hgstart).symm
        · exact happart e' he'

end Extent

open Extent (span)

namespace Heap

variable {h h' : Heap} {addr : UInt64} {size align n : Nat}

/-- A run of addresses in the region. -/
def Inside (h : Heap) (e : Extent) : Prop :=
  h.region.base.toNat ≤ e.start ∧ e.stop ≤ h.region.base.toNat + h.region.used

/-- Blocks and gaps lie in the region and share no address. -/
structure Sound (h : Heap) : Prop where
  blocks : Extent.Sorted h.blocks
  gaps : h.gaps.Pairwise Extent.Apart
  apart : ∀ g ∈ h.gaps, ∀ b ∈ h.blocks, g.Apart b
  blocksInside : ∀ b ∈ h.blocks, h.Inside b
  gapsInside : ∀ g ∈ h.gaps, h.Inside g

/-- All of so many bytes are in one live block. -/
def Owns (h : Heap) (addr : UInt64) (n : Nat) : Prop :=
  ∃ b ∈ h.blocks, b.start ≤ addr.toNat ∧ addr.toNat + n ≤ b.stop

/-- A live block begins at the address. -/
def Begins (h : Heap) (addr : UInt64) : Prop := ∃ b ∈ h.blocks, b.start = addr.toNat

/-- All bytes of the region and of the blocks have an address. -/
def Fits (h : Heap) : Prop :=
  h.region.Fits ∧ ∀ b ∈ h.blocks, h.region.base.toNat ≤ b.start ∧ b.stop < 2 ^ 64

instance (h : Heap) : Decidable h.Fits := inferInstanceAs (Decidable (_ ∧ _))

theorem Fits.lt (hfits : h.Fits) : h.region.base.toNat + h.region.used < 2 ^ 64 := hfits.1.2

theorem Sound.contains (hsound : h.Sound) (howns : h.Owns addr n) : h.region.contains addr n := by
  obtain ⟨b, hb, hstart, hstop⟩ := howns
  obtain ⟨hlo, hhi⟩ := hsound.blocksInside b hb
  exact Region.contains_iff.2 ⟨hlo.trans hstart, hstop.trans hhi⟩

theorem Owns.apart (howns : h.Owns addr n) {e : Extent} (h : ∀ b ∈ h.blocks, e.Apart b) :
    (span addr n).Apart e := by
  obtain ⟨b, hb, hstart, hstop⟩ := howns
  exact (((h b hb).mono (z := span addr n) hstart hstop)).symm

theorem store_eq (hs : store addr bs h = (r, h')) :
    ∃ region, Region.store addr bs h.region = (r, region) ∧ h' = { h with region } := by
  unfold store onRegion at hs
  cases hs
  exact ⟨_, rfl, rfl⟩

theorem Sound.withRegion (hsound : h.Sound) {region : Region} (hbase : region.base = h.region.base)
    (hused : h.region.used ≤ region.used) : Sound { h with region } := by
  have hinside : ∀ e, h.Inside e → Inside { h with region } e := by
    rintro e ⟨hlo, hhi⟩
    refine ⟨?_, ?_⟩
    · show region.base.toNat ≤ e.start
      rw [hbase]
      exact hlo
    · show e.stop ≤ region.base.toNat + region.used
      rw [hbase]
      omega
  exact ⟨hsound.blocks, hsound.gaps, hsound.apart, fun b hb => hinside b (hsound.blocksInside b hb),
    fun g hg => hinside g (hsound.gapsInside g hg)⟩

theorem Sound.addBlock (hsound : h.Sound) (hsize : 0 < size) (hinside : h.Inside (span addr size))
    (hblocks : ∀ b ∈ h.blocks, (span addr size).Apart b)
    (hgaps : ∀ g ∈ h.gaps, g.Apart (span addr size)) : (h.addBlock addr size).Sound where
  blocks := hsound.blocks.insert hsize hblocks
  gaps := hsound.gaps
  apart g hg b hb := by
    rcases Extent.mem_insert.1 hb with rfl | hb
    · exact hgaps g hg
    · exact hsound.apart g hg b hb
  blocksInside b hb := by
    rcases Extent.mem_insert.1 hb with rfl | hb
    · exact hinside
    · exact hsound.blocksInside b hb
  gapsInside := hsound.gapsInside

theorem Owns.addBlock (howns : h.Owns addr n) : (h.addBlock a size).Owns addr n := by
  obtain ⟨b, hb, hin⟩ := howns
  exact ⟨b, Extent.mem_insert.2 (.inr hb), hin⟩

theorem owns_addBlock (hn : n ≤ size) : (h.addBlock addr size).Owns addr n :=
  ⟨span addr size, Extent.mem_insert.2 (.inl rfl), Nat.le_refl _, Nat.add_le_add_left hn _⟩

theorem Begins.addBlock (hbegins : h.Begins addr) : (h.addBlock a size).Begins addr := by
  obtain ⟨b, hb, hstart⟩ := hbegins
  exact ⟨b, Extent.mem_insert.2 (.inr hb), hstart⟩

theorem begins_addBlock : (h.addBlock addr size).Begins addr :=
  ⟨span addr size, Extent.mem_insert.2 (.inl rfl), rfl⟩

/-- A block comes from a gap, or from memory that the region grows by. -/
inductive Allocates (h : Heap) (size align : Nat) : Except Fault UInt64 → Heap → Prop
  | failed (f : Fault) (gaps : List Extent) : Allocates h size align (.error f) { h with gaps }
  | carved {start : Nat} {gaps : List Extent} {region : Region}
      (hcarve : Extent.carve (max size 1) (max align 1) h.gaps = some (start, gaps))
      (hstore : Region.store (UInt64.ofNat start) (List.replicate (max size 1) 0) h.region = (.ok (), region)) :
      Allocates h size align (.ok (UInt64.ofNat start))
        ({ h with region, gaps }.addBlock (UInt64.ofNat start) (max size 1))
  | grown {region : Region} {gaps : List Extent} (hused : h.region.used ≤ Layout.maxSize)
      (hlimit : Word.add (h.region.next (max align 1)) (max size 1) ≤ h.limit)
      (hregion : region = h.region.resize (Word.add (h.region.next (max align 1)) (max size 1)))
      (hgaps : gaps = h.gaps ++ Extent.between (h.region.address h.region.used).toNat
        (h.region.address (h.region.next (max align 1))).toNat) :
      Allocates h size align (.ok (h.region.address (h.region.next (max align 1))))
        ({ h with region, gaps }.addBlock (h.region.address (h.region.next (max align 1))) (max size 1))

theorem alloc_cases (ha : alloc size align h = (r, h')) : h.Allocates size align r h' := by
  unfold alloc at ha
  dsimp only at ha
  split at ha
  · rename_i start gaps hcarve
    dsimp only [onRegion] at ha
    rcases hstore : Region.store (UInt64.ofNat start) (List.replicate (max size 1) 0) h.region with ⟨x, region⟩
    rw [hstore] at ha
    cases Region.store_cases hstore with
    | within =>
      cases ha
      exact .carved hcarve hstore
    | outside =>
      cases ha
      exact .failed _ _
  · dsimp only [grow] at ha
    split at ha
    · cases ha
      exact .failed _ h.gaps
    · cases ha
      obtain ⟨hlimit, hused⟩ := Region.full_eq_false.1 (Bool.eq_false_iff.2 ‹_›)
      exact .grown hused hlimit rfl rfl

/-- A heap that has grown by a block with an address has grown by all of it. -/
theorem grown_at {region : Region} {gaps : List Extent} (halign : align ≤ Layout.maxWord)
    (hused : h.region.used ≤ Layout.maxSize)
    (hregion : region = h.region.resize (Word.add (h.region.next align) size))
    (hfits : ({ h with region, gaps }.addBlock (h.region.address (h.region.next align)) size).Fits) :
    h.region.used ≤ h.region.next align ∧ Word.add (h.region.next align) size = h.region.next align + size ∧
      h.region.base.toNat + (h.region.next align + size) < 2 ^ 64 ∧
      (h.region.address (h.region.next align)).toNat = h.region.base.toNat + h.region.next align ∧
      (h.region.address h.region.used).toNat = h.region.base.toNat + h.region.used := by
  subst hregion
  have hle := Region.le_next hused halign
  have hnext := Region.next_lt hused align
  have hword := h.region.base.toNat_lt
  -- the block ends below the last address, so it has not started again from zero
  obtain ⟨hbase, hstop⟩ : h.region.base.toNat ≤ (h.region.address (h.region.next align)).toNat ∧
      (h.region.address (h.region.next align)).toNat + size < 2 ^ 64 :=
    hfits.2 _ (Extent.mem_insert.2 (.inl rfl))
  have haddr : (h.region.address (h.region.next align)).toNat =
      (h.region.base.toNat + h.region.next align) % 2 ^ 64 := by
    rw [Region.address, UInt64.toNat_add, UInt64.toNat_ofNat_of_lt' hnext]
  have hspace : h.region.base.toNat + (h.region.next align + size) < 2 ^ 64 := by omega
  exact ⟨hle, Word.add_of_lt (by omega), hspace, Region.toNat_address _ (by omega),
    Region.toNat_address _ (by omega)⟩

theorem carved (hsound : h.Sound) (hfits : h.Fits) {start : Nat} {gaps : List Extent} {region : Region}
    (hsize : 0 < size) (hcarve : Extent.carve size align h.gaps = some (start, gaps))
    (hstore : Region.store (UInt64.ofNat start) (List.replicate size 0) h.region = (.ok (), region)) :
    (({ h with region, gaps }.addBlock (UInt64.ofNat start) size)).Sound ∧
      ∀ b n, h.Owns b n →
        region.load b n = h.region.load b n ∧ (span b n).Apart (span (UInt64.ofNat start) size) := by
  obtain ⟨⟨g, hg, hstart, hstop⟩, hpair, hall⟩ := Extent.carve_eq_some hsound.gaps hcarve
  obtain ⟨hbase, -, hused⟩ := Region.store_size hstore
  obtain ⟨hlo, hhi⟩ := hsound.gapsInside g hg
  have hspan : span (UInt64.ofNat start) size = ⟨start, size⟩ := by
    have hlt : start < 2 ^ 64 := by
      have := hfits.lt
      omega
    rw [span, UInt64.toNat_ofNat_of_lt' hlt]
  have hblocks : ∀ b ∈ h.blocks, (⟨start, size⟩ : Extent).Apart b := fun b hb =>
    ((hsound.apart g hg b hb).symm.mono (z := ⟨start, size⟩) hstart hstop).symm
  have hregion : Sound { h with region } := hsound.withRegion hbase (Nat.le_of_eq hused.symm)
  have hleft : Sound { h with region, gaps } :=
    { hregion with
      gaps := hpair
      apart := fun g' hg' b hb => by
        obtain ⟨-, g'', hg'', hin⟩ := hall g' hg'
        exact ((hsound.apart g'' hg'' b hb).symm.mono hin.1 hin.2).symm
      gapsInside := fun g' hg' => by
        obtain ⟨-, g'', hg'', hin⟩ := hall g' hg'
        obtain ⟨hlo, hhi⟩ := hregion.gapsInside g'' hg''
        exact ⟨hlo.trans hin.1, hin.2.trans hhi⟩ }
  refine ⟨hleft.addBlock hsize ?_ ?_ ?_, fun b n hb => ?_⟩
  · rw [hspan]
    refine ⟨?_, ?_⟩
    · show region.base.toNat ≤ start
      rw [hbase]
      exact hlo.trans hstart
    · show start + size ≤ region.base.toNat + region.used
      rw [hbase, hused]
      exact hstop.trans hhi
  · rw [hspan]
    exact hblocks
  · rw [hspan]
    exact fun g' hg' => (hall g' hg').1
  · have hapart := hb.apart hblocks
    rw [← hspan] at hapart
    refine ⟨Region.load_store_other hstore ?_, hapart⟩
    rwa [length_replicate]

theorem grown (hsound : h.Sound) {region : Region} {gaps : List Extent} (hsize : 0 < size)
    (hle : h.region.used ≤ start) (haddr : addr.toNat = h.region.base.toNat + start)
    (hregion : region = h.region.resize (start + size))
    (hgaps : gaps = h.gaps ++ Extent.between (h.region.base.toNat + h.region.used) addr.toNat) :
    ({ h with region, gaps }.addBlock addr size).Sound ∧
      ∀ b n, h.Owns b n → region.load b n = h.region.load b n ∧ (span b n).Apart (span addr size) := by
  subst hregion hgaps
  have hused : (h.region.resize (start + size)).used = start + size := Region.used_resize _ _
  have hextended : Sound { h with region := h.region.resize (start + size) } :=
    hsound.withRegion rfl (by rw [hused]; omega)
  have hblocks : ∀ b ∈ h.blocks, (span addr size).Apart b := by
    intro b hb
    refine (Extent.apart_of_le ?_).symm
    obtain ⟨-, hhi⟩ := hsound.blocksInside b hb
    simp only [span, haddr]
    omega
  -- the padding before the block is a new gap, behind all that is inside
  have hpadding : ∀ g ∈ Extent.between (h.region.base.toNat + h.region.used) addr.toNat,
      (∀ e, h.Inside e → e.Apart g) ∧ g.stop = h.region.base.toNat + start ∧
        g.start = h.region.base.toNat + h.region.used := by
    intro g hg
    obtain ⟨-, hstart, hstop⟩ := Extent.mem_between.1 hg
    refine ⟨fun e he => Extent.apart_of_le ?_, hstop.trans haddr, hstart⟩
    have := he.2
    omega
  have hleft : Sound { h with
      region := h.region.resize (start + size)
      gaps := h.gaps ++ Extent.between (h.region.base.toNat + h.region.used) addr.toNat } :=
    { hextended with
      gaps := pairwise_append.2 ⟨hsound.gaps, Extent.pairwise_between, fun g hg g' hg' =>
        (hpadding g' hg').1 g (hsound.gapsInside g hg)⟩
      apart := fun g hg b hb => by
        rcases mem_append.1 hg with hg | hg
        · exact hsound.apart g hg b hb
        · exact ((hpadding g hg).1 b (hsound.blocksInside b hb)).symm
      gapsInside := fun g hg => by
        rcases mem_append.1 hg with hg | hg
        · exact hextended.gapsInside g hg
        · obtain ⟨-, hstop, hstart⟩ := hpadding g hg
          refine ⟨?_, ?_⟩
          · show h.region.base.toNat ≤ g.start
            omega
          · show g.stop ≤ h.region.base.toNat + (h.region.resize (start + size)).used
            rw [hused]
            omega }
  refine ⟨hleft.addBlock hsize ?_ hblocks fun g hg => ?_, fun b n hb => ⟨?_, hb.apart hblocks⟩⟩
  · refine ⟨?_, ?_⟩
    · show h.region.base.toNat ≤ addr.toNat
      omega
    · show addr.toNat + size ≤ h.region.base.toNat + (h.region.resize (start + size)).used
      rw [hused]
      omega
  · refine Extent.apart_of_le ?_
    simp only [span, haddr]
    rcases mem_append.1 hg with hg | hg
    · have := (hsound.gapsInside g hg).2
      omega
    · exact Nat.le_of_eq (hpadding g hg).2.1
  · exact Region.load_resize (hsound.contains hb) (by omega)

theorem Fits.of_addBlock (hfits : (h.addBlock addr size).Fits) : h.Fits :=
  ⟨hfits.1, fun b hb => hfits.2 b (Extent.mem_insert.2 (.inr hb))⟩

theorem fits_store (hs : store addr bs h = (r, h')) : h'.Fits ↔ h.Fits := by
  obtain ⟨region, hstore, rfl⟩ := store_eq hs
  obtain ⟨hbase, -, hused⟩ := Region.store_size hstore
  unfold Fits Region.Fits
  rw [hbase, hused]

theorem fits_of_alloc (halign : align ≤ Layout.maxWord) (ha : alloc size align h = (r, h')) (hfits : h'.Fits) :
    h.Fits := by
  cases alloc_cases ha with
  | failed => exact hfits
  | @carved start gaps region _ hstore =>
    have hold : Fits { h with region } := hfits.of_addBlock
    obtain ⟨hbase, -, hused⟩ := Region.store_size hstore
    unfold Fits Region.Fits at hold ⊢
    rwa [hbase, hused] at hold
  | grown hused _ hregion =>
    obtain ⟨hle, hstop, -⟩ := grown_at (max_le halign (by decide)) hused hregion hfits
    have hold := hfits.of_addBlock
    subst hregion
    exact ⟨Region.fits_of_resize (by omega) hold.1, hold.2⟩

theorem alloc_limit (ha : alloc size align h = (r, h')) (hused : h.region.used ≤ h.limit) :
    h'.region.base = h.region.base ∧ h'.limit = h.limit ∧ h'.region.used ≤ h.limit := by
  cases alloc_cases ha with
  | failed => exact ⟨rfl, rfl, hused⟩
  | carved _ hstore =>
    obtain ⟨hbase, hlimit, hused'⟩ := Region.store_size hstore
    exact ⟨hbase, hlimit, hused'.trans_le hused⟩
  | grown _ hlimit hregion =>
    subst hregion
    refine ⟨rfl, rfl, ?_⟩
    show (h.region.resize _).used ≤ h.limit
    rwa [Region.used_resize]

/-- An allocation fails when no gap fits and the limit is too near, and it changes nothing then. -/
theorem Sound.alloc_error (hsound : h.Sound) (hfits : h.Fits) {f : Fault}
    (ha : alloc size align h = (.error f, h')) :
    f = .outOfMemory (max size 1) h.used h.limit ∧ h' = h ∧
      Extent.carve (max size 1) (max align 1) h.gaps = none ∧
      h.limit < Word.add (h.region.next (max align 1)) (max size 1) := by
  unfold alloc at ha
  dsimp only at ha
  cases hcarve : Extent.carve (max size 1) (max align 1) h.gaps with
  | none =>
    simp only [hcarve, grow] at ha
    split at ha
    · cases ha
      have hfull : h.region.full _ = true := ‹_›
      simp only [Region.full, Bool.or_eq_true, decide_eq_true_eq] at hfull
      exact ⟨rfl, rfl, rfl, hfull.resolve_right (Nat.not_lt.2 hfits.1.1)⟩
    · cases ha
  | some p =>
    obtain ⟨start, gaps⟩ := p
    obtain ⟨⟨g, hg, hstart, hstop⟩, -⟩ := Extent.carve_eq_some hsound.gaps hcarve
    obtain ⟨hlo, hhi⟩ := hsound.gapsInside g hg
    have hword : (UInt64.ofNat start).toNat = start :=
      UInt64.toNat_ofNat_of_lt' (Nat.lt_of_le_of_lt (by omega) hfits.lt)
    have hcontains : h.region.contains (UInt64.ofNat start) (List.replicate (max size 1) (0 : UInt8)).length := by
      rw [Region.contains_iff, hword, length_replicate]
      omega
    obtain ⟨offset, hoffset⟩ := Option.isSome_iff_exists.1 hcontains
    simp only [hcarve, onRegion, Region.store, hoffset] at ha
    cases ha

end Heap

instance : LawfulMemory Heap where
  Sound := Heap.Sound
  Fits := Heap.Fits
  Owns := Heap.Owns
  Begins := Heap.Begins
  Room _ _ _ := True
  top _ := 0
  grain n := max n 1
  le_grain _ := Nat.le_max_left _ _
  owns_mono := by
    rintro m a n k ⟨b, hb, hstart, hstop⟩ hle
    exact ⟨b, hb, hstart, by omega⟩
  store_failed h := by
    obtain ⟨region, hstore, rfl⟩ := Heap.store_eq h
    rw [LawfulMemory.store_failed (μ := Region) hstore]
  store_fault h := by
    obtain ⟨region, hstore, rfl⟩ := Heap.store_eq h
    exact LawfulMemory.store_fault (μ := Region) hstore
  alloc_failed {m _ _ _ _} hsound hfits h := by
    have hfits : m.Fits := by
      cases Heap.alloc_cases h
      exact hfits
    exact (hsound.alloc_error hfits h).2.1
  room _ _ _ := trivial
  begins_store h hb := by
    obtain ⟨region, -, rfl⟩ := Heap.store_eq h
    exact hb
  begins_alloc h := by
    cases Heap.alloc_cases h with
    | carved | grown => exact ⟨Heap.begins_addBlock, fun b hb => Heap.Begins.addBlock hb⟩
  top_store _ := rfl
  top_alloc _ := rfl
  fits_store h := Heap.fits_store h
  fits_alloc halign _ h hfits := Heap.fits_of_alloc halign h hfits
  sound_store h hsound := by
    obtain ⟨region, hstore, rfl⟩ := Heap.store_eq h
    obtain ⟨hbase, -, hused⟩ := Region.store_size hstore
    exact hsound.withRegion hbase (Nat.le_of_eq hused.symm)
  owns_store h := by
    obtain ⟨region, -, rfl⟩ := Heap.store_eq h
    exact Iff.rfl
  load_store h := by
    obtain ⟨region, hstore, rfl⟩ := Heap.store_eq h
    exact Region.load_store_same hstore
  load_store_apart h happart := by
    obtain ⟨region, hstore, rfl⟩ := Heap.store_eq h
    exact Region.load_store_other hstore happart
  allocated {m m' a size align} hsound hfits _ halign h := by
    have hpos : 0 < max size 1 := by omega
    have hold := Heap.fits_of_alloc halign h hfits
    cases Heap.alloc_cases h with
    | carved hcarve hstore =>
      obtain ⟨hsound', hother⟩ := Heap.carved hsound hold hpos hcarve hstore
      exact ⟨hsound', Heap.owns_addBlock (Nat.le_refl _), fun b n hb => ⟨hb.addBlock, hother b n hb⟩⟩
    | grown hused _ hregion hgaps =>
      obtain ⟨hnext, hstop, -, haddr, htop⟩ := Heap.grown_at (max_le halign (by decide)) hused hregion hfits
      rw [hstop] at hregion
      rw [htop] at hgaps
      obtain ⟨hsound', hother⟩ := Heap.grown hsound hpos hnext haddr hregion hgaps
      exact ⟨hsound', Heap.owns_addBlock (Nat.le_refl _), fun b n hb => ⟨hb.addBlock, hother b n hb⟩⟩

/-! ## Reachable heaps -/

namespace Heap

variable {h : Heap}

/-- Heaps that come about by allocations, stores and sweeps. -/
inductive Reachable : Heap → Prop where
  | new (base : UInt64) (limit : Nat) : Reachable (new base limit)
  | alloc {h : Heap} (size align : Nat) (hh : Reachable h) (halign : align ≤ Layout.maxWord)
    (hfits : (alloc size align h).2.Fits) : Reachable (alloc size align h).2
  | store {h : Heap} (addr : UInt64) (bs : List UInt8) (hh : Reachable h) :
    Reachable (store addr bs h).2
  | sweep {h : Heap} (live : UInt64 → Bool) (hh : Reachable h) : Reachable (h.sweep live).2

/-- What a sweep does to the region: it ends where the last block that is kept ends. -/
structure Swept (h : Heap) (kept : List Extent) (region : Region) : Prop where
  release : ∃ stop, region = h.region.release stop ∧ h.region.base ≤ stop ∧
    ∀ b ∈ kept, b.stop ≤ stop.toNat
  base : region.base = h.region.base
  limit : region.limit = h.region.limit
  used : region.used ≤ h.region.used
  blocks : ∀ b ∈ kept, b.stop ≤ region.base.toNat + region.used

theorem swept (hfits : h.Fits)
    (hle : h.region.base.toNat ≤ stop) (hstop : stop ≤ h.region.base.toNat + h.region.used)
    (hstops : ∀ b ∈ kept, b.stop ≤ stop) : h.Swept kept (h.region.release (UInt64.ofNat stop)) ∧
      h.region.base.toNat + (h.region.release (UInt64.ofNat stop)).used = stop := by
  have hword : (UInt64.ofNat stop).toNat = stop :=
    UInt64.toNat_ofNat_of_lt' (Nat.lt_of_le_of_lt hstop hfits.lt)
  have hbelow : h.region.base ≤ UInt64.ofNat stop := by
    rw [UInt64.le_iff_toNat_le, hword]
    exact hle
  have hused : h.region.base.toNat + (h.region.release (UInt64.ofNat stop)).used = stop := by
    rw [Region.used_release hbelow (hword.trans_le hstop), hword]
  have hbase : (h.region.release (UInt64.ofNat stop)).base = h.region.base := by rw [Region.release_eq hbelow]
  refine ⟨⟨⟨_, rfl, hbelow, fun b hb => (hstops b hb).trans_eq hword.symm⟩, hbase, ?_, by omega,
    fun b hb => ?_⟩, hused⟩
  · rw [Region.release_eq hbelow]
  · rw [hbase, hused]
    exact hstops b hb

/-- A sweep frees whole blocks, and gives back what lies behind the last one that it keeps. -/
theorem Sound.sweep (hsound : h.Sound) (hfits : h.Fits) (live : UInt64 → Bool) :
    (h.sweep live).2.Sound ∧
      h.Swept (h.blocks.filter fun b => live (UInt64.ofNat b.start)) (h.sweep live).2.region ∧
      h.region.base.toNat + (h.sweep live).2.region.used =
        (Extent.gapsFrom h.region.base.toNat (h.blocks.filter fun b => live (UInt64.ofNat b.start))).2 := by
  unfold Heap.sweep
  dsimp only
  generalize hkept : h.blocks.filter (fun b => live (UInt64.ofNat b.start)) = kept
  have hblocks : ∀ b ∈ kept, b ∈ h.blocks := fun b hb => (mem_filter.1 (hkept ▸ hb)).1
  have hsorted : kept.Pairwise (·.stop ≤ ·.start) := hkept ▸ hsound.blocks.1.sublist filter_sublist
  have hinside : ∀ b ∈ kept, h.Inside b := fun b hb => hsound.blocksInside b (hblocks b hb)
  obtain ⟨hlast, hle, hstops, hpair, hgaps⟩ := Extent.gapsFrom_spec hsorted fun b hb => (hinside b hb).1
  generalize hspec : Extent.gapsFrom h.region.base.toNat kept = spec at hlast hle hstops hpair hgaps
  obtain ⟨gaps, stop⟩ := spec
  -- the region ends with the last block that is kept, or is empty
  have hstop : stop ≤ h.region.base.toNat + h.region.used := by
    rcases hlast with hlast | ⟨b, hb, hlast⟩
    · have hlast : stop = h.region.base.toNat := hlast
      omega
    · have hlast : stop = b.stop := hlast
      rw [hlast]
      exact (hinside b hb).2
  obtain ⟨hswept, hused⟩ := swept hfits hle hstop hstops
  refine ⟨⟨⟨hsorted, fun b hb => hsound.blocks.2 b (hblocks b hb)⟩, hpair,
    fun g hg => (hgaps g hg).2.2, fun b hb => ⟨?_, hswept.blocks b hb⟩, fun g hg => ⟨?_, ?_⟩⟩, hswept, hused⟩
  · show (h.region.release (UInt64.ofNat stop)).base.toNat ≤ b.start
    rw [hswept.base]
    exact (hinside b hb).1
  · show (h.region.release (UInt64.ofNat stop)).base.toNat ≤ g.start
    rw [hswept.base]
    exact (hgaps g hg).1
  · show g.stop ≤ (h.region.release (UInt64.ofNat stop)).base.toNat + (h.region.release (UInt64.ofNat stop)).used
    rw [hswept.base, hused]
    exact (hgaps g hg).2.1

theorem Fits.sweep (hfits : h.Fits) (hswept : h.Swept kept (h.sweep live).2.region) : (h.sweep live).2.Fits := by
  have hused := hswept.used
  have hlt := hfits.lt
  unfold Fits Region.Fits
  rw [hswept.base]
  exact ⟨⟨hused.trans hfits.1.1, by omega⟩, fun b hb => hfits.2 b (mem_filter.1 hb).1⟩

theorem Sound.sweep_keeps (hsound : h.Sound) (hfits : h.Fits)
    (hb : b ∈ h.blocks) (hlive : live (UInt64.ofNat b.start) = true) {addr : UInt64}
    (hstart : b.start ≤ addr.toNat) (hstop : addr.toNat + n ≤ b.stop) :
    (h.sweep live).2.Owns addr n ∧ (h.sweep live).2.load addr n = h.load addr n := by
  have hkept : b ∈ h.blocks.filter fun b => live (UInt64.ofNat b.start) := mem_filter.2 ⟨hb, hlive⟩
  obtain ⟨-, hswept, -⟩ := hsound.sweep hfits live
  obtain ⟨stop, hregion, hbase, hstops⟩ := hswept.release
  refine ⟨⟨b, hkept, hstart, hstop⟩, ?_⟩
  show (h.sweep live).2.region.load addr n = h.region.load addr n
  rw [hregion]
  exact Region.load_release hbase (hsound.contains ⟨b, hb, hstart, hstop⟩) (hstop.trans (hstops b hkept))

theorem Reachable.sound (hh : h.Reachable) : h.Sound ∧ h.Fits := by
  induction hh with
  | new base limit =>
    exact ⟨⟨⟨.nil, nofun⟩, .nil, nofun, nofun, nofun⟩, ⟨Nat.zero_le _, base.toNat_lt⟩, nofun⟩
  | @alloc h size align _ halign hfits ih =>
    refine ⟨?_, hfits⟩
    rcases hresult : Heap.alloc size align h with ⟨r, h'⟩
    rw [hresult] at hfits
    cases r with
    | error f => exact LawfulMemory.alloc_failed (μ := Heap) ih.1 hfits hresult ▸ ih.1
    | ok a => exact (LawfulMemory.allocated (μ := Heap) ih.1 hfits trivial halign hresult).1
  | @store h addr bs _ ih =>
    rcases hresult : Heap.store addr bs h with ⟨r, h'⟩
    exact ⟨LawfulMemory.sound_store (μ := Heap) hresult ih.1,
      (LawfulMemory.fits_store (μ := Heap) hresult).2 ih.2⟩
  | sweep live _ ih => exact ⟨(ih.1.sweep ih.2 live).1, ih.2.sweep (ih.1.sweep ih.2 live).2.1⟩

end Heap

end NumericEngine
