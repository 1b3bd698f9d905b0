import NumericEngine.Proofs.Value.Image

/-!
# Values in memory

A value that is stored at an address is loaded from there, until something is
stored over its record or over one of its buffers.
-/

namespace NumericEngine

namespace Value

open Extent (span)
open LawfulMemory (Sound Fits Owns)

variable {μ : Type} [Memory μ]

/-- The record of a type at an address, and the buffers behind it. -/
def footprint (mem : μ) (t : Ty) (addr : UInt64) : List (UInt64 × Nat) :=
  (addr, t.layout.size) ::
    match Memory.load mem addr t.layout.size with
    | .ok bs => buffers t bs
    | .error _ => []

theorem load_congr {m m' : μ} (hload : Value.load m t addr = .ok v)
    (h : ∀ p ∈ footprint m t addr, Memory.load m' p.1 p.2 = Memory.load m p.1 p.2) :
    Value.load m' t addr = .ok v := by
  obtain ⟨⟨⟩, hreserve, hload⟩ := Except.bind_eq_ok.1 hload
  obtain ⟨bs, hbs, hdecode⟩ := Except.bind_eq_ok.1 hload
  rw [footprint, hbs] at h
  rw [Value.load, hreserve, Except.ok_bind, h _ List.mem_cons_self, hbs, Except.ok_bind,
    decode_congr t bs fun p hp => h p (List.mem_cons_of_mem _ hp)]
  exact hdecode

/-- Storing a value: its record is encoded, and the bytes go where they should. -/
theorem store_cases (v : Value) (addr : UInt64) (m : μ) :
    (∃ f m', v.encode m = (.error f, m') ∧ v.store addr m = (.error f, m')) ∨
      ∃ out m', v.encode m = (.ok out, m') ∧ v.store addr m = Memory.store addr out.toList m' := by
  rw [store, Transition.bind_apply]
  rcases v.encode m with ⟨_ | out, m'⟩
  · exact .inl ⟨_, _, rfl, rfl⟩
  · exact .inr ⟨out, m', rfl, rfl⟩

variable [LawfulMemory μ]

/-- Allocations of blocks whose end is a word, and stores that leave some places alone. -/
inductive Elsewhere (places : List (UInt64 × Nat)) (m : μ) : μ → Prop where
  | refl : Elsewhere places m m
  | alloc {m' : μ} (size align : Nat) (h : Elsewhere places m m') (halign : align ≤ Layout.maxWord)
    (hroom : ∀ a, (Memory.alloc size align m').1 = .ok a → LawfulMemory.Room m' size align)
    (hfits : Fits (Memory.alloc size align m').2) : Elsewhere places m (Memory.alloc size align m').2
  | store {m' : μ} (a : UInt64) (bs : List UInt8) (h : Elsewhere places m m')
    (hapart : ∀ p ∈ places, (span p.1 p.2).Apart (span a bs.length)) :
    Elsewhere places m (Memory.store a bs m').2

theorem Elsewhere.keeps {m' : μ} (h : Elsewhere places m m')
    (hsound : Sound m) (howns : ∀ p ∈ places, Owns m p.1 p.2) :
    Sound m' ∧ ∀ p ∈ places, Owns m' p.1 p.2 ∧ Memory.load m' p.1 p.2 = Memory.load m p.1 p.2 := by
  induction h with
  | refl => exact ⟨hsound, fun p hp => ⟨howns p hp, rfl⟩⟩
  | @alloc m' size align _ halign hroom hfits ih =>
    obtain ⟨hsound', hkeeps⟩ := ih
    rcases halloc : Memory.alloc size align m' with ⟨_ | a, m''⟩
    · rw [halloc] at hfits
      rw [LawfulMemory.alloc_failed hsound' hfits halloc]
      exact ⟨hsound', hkeeps⟩
    · rw [halloc] at hfits hroom
      obtain ⟨hsound'', -, hold⟩ := LawfulMemory.allocated hsound' hfits (hroom a rfl) halign halloc
      refine ⟨hsound'', fun p hp => ?_⟩
      obtain ⟨howns', hload⟩ := hkeeps p hp
      obtain ⟨howns'', hload', -⟩ := hold p.1 p.2 howns'
      exact ⟨howns'', hload'.trans hload⟩
  | @store m' a bs _ hapart ih =>
    obtain ⟨hsound', hkeeps⟩ := ih
    rcases hstore : Memory.store a bs m' with ⟨_ | ⟨⟩, m''⟩
    · rw [LawfulMemory.store_failed hstore]
      exact ⟨hsound', hkeeps⟩
    · refine ⟨LawfulMemory.sound_store hstore hsound', fun p hp => ?_⟩
      obtain ⟨howns', hload⟩ := hkeeps p hp
      exact ⟨(LawfulMemory.owns_store hstore).2 howns',
        (LawfulMemory.load_store_apart hstore (hapart p hp)).trans hload⟩

variable {v : Value} {addr : UInt64} {m : μ}

theorem encode_adds (v : Value) : Transition.Adds (v.encode : Transition μ Bytes) := adds_closed.encode v

omit [LawfulMemory μ] in
theorem encode_eq (h : v.ty.Addressable) :
    (v.encode : Transition μ Bytes) = encodeInto v.ty.layout (Bytes.zeros v.ty.layout.size) v := by
  rw [encode, Memory.reserve_of_le h]
  rfl

theorem fits_of_store (hfits : Fits (v.store addr m).2) : Fits (v.encode m).2 := by
  rcases store_cases v addr m with ⟨f, m', henc, hstore⟩ | ⟨out, m', henc, hstore⟩
  · rw [henc]
    rwa [hstore] at hfits
  · rw [henc]
    rw [hstore] at hfits
    exact (LawfulMemory.fits_store rfl).1 hfits

section

variable (hv : v.Valid) (hsize : v.ty.Addressable) (hsound : Sound m) (hfits : Fits (v.store addr m).2)
include hv hsize hsound hfits

/-- Storing a value changes no byte that was owned, but for its record. -/
theorem load_store_frame (howns : Owns m a n)
    (hapart : (span a n).Apart (span addr v.ty.layout.size)) :
    Memory.load (v.store addr m).2 a n = Memory.load m a n := by
  have hfits' := fits_of_store hfits
  rcases store_cases v addr m with ⟨f, m', henc, hstore⟩ | ⟨out, m', henc, hstore⟩
  · rw [henc] at hfits'
    rw [hstore]
    exact ((encode_adds v).kept m _ m' henc hsound hfits').load a n howns
  · rw [henc] at hfits'
    have hkept := (encode_adds v).kept m _ m' henc hsound hfits'
    rw [encode_eq hsize] at henc
    obtain ⟨hout, -⟩ := encodeInto_ok v hv hsize (Bytes.size_zeros _) hsound hfits' henc
    rw [hstore]
    rcases hmem : Memory.store addr out.toList m' with ⟨_ | ⟨⟩, m''⟩
    · rw [LawfulMemory.store_failed hmem]
      exact hkept.load a n howns
    · refine (LawfulMemory.load_store_apart hmem ?_).trans (hkept.load a n howns)
      rwa [Array.length_toList, hout, Bytes.size_zeros]

/-- A value that was stored is loaded, and all that it takes is owned. -/
theorem load_of_store (howns : Owns m addr v.ty.layout.size)
    (hok : (v.store addr m).1 = .ok ()) :
    Sound (v.store addr m).2 ∧ Value.load (v.store addr m).2 v.ty addr = .ok v ∧
      ∀ p ∈ footprint (v.store addr m).2 v.ty addr, Owns (v.store addr m).2 p.1 p.2 := by
  have hfits' := fits_of_store hfits
  rcases store_cases v addr m with ⟨f, m', henc, hstore⟩ | ⟨out, m', henc, hstore⟩
  · rw [hstore] at hok
    cases hok
  rw [henc] at hfits'
  have hkept := (encode_adds v).kept m _ m' henc hsound hfits'
  rw [encode_eq hsize] at henc
  obtain ⟨hout, hwritten⟩ := encodeInto_ok v hv hsize (Bytes.size_zeros _) hsound hfits' henc
  rw [Bytes.size_zeros] at hout
  rw [hstore] at hok ⊢
  rcases hmem : Memory.store addr out.toList m' with ⟨_ | ⟨⟩, m''⟩
  · rw [hmem] at hok
    cases hok
  have hlength : out.toList.length = v.ty.layout.size := by rw [Array.length_toList, hout]
  have hrecord := LawfulMemory.load_store hmem
  rw [hlength] at hrecord
  have hbuffers : ∀ p ∈ buffers v.ty out.toList,
      Owns m'' p.1 p.2 ∧ Memory.load m'' p.1 p.2 = Memory.load m' p.1 p.2 := by
    intro p hp
    obtain ⟨hpOwns, hpFresh⟩ := hwritten.buffers p hp
    refine ⟨(LawfulMemory.owns_store hmem).2 hpOwns.owns, LawfulMemory.load_store_apart hmem ?_⟩
    rw [hlength]
    exact (hpFresh addr _ howns).symm
  refine ⟨LawfulMemory.sound_store hmem hkept.sound, ?_, ?_⟩
  · rw [Value.load, Memory.reserve_of_le hsize, Except.ok_bind, hrecord, Except.ok_bind,
      decode_congr v.ty _ fun p hp => (hbuffers p hp).2]
    exact hwritten.decodes
  · rw [footprint, hrecord]
    intro p hp
    rcases List.mem_cons.1 hp with rfl | hp
    · exact (LawfulMemory.owns_store hmem).2 (hkept.owns _ _ howns)
    · exact (hbuffers p hp).1

/-- What storing a value at an address does: no byte that was owned changes outside the record, and
after success the value is loaded from there, also after any allocations and stores elsewhere. -/
def RoundTrip (m : μ) (addr : UInt64) (v : Value) : Prop :=
  (∀ a n, Owns m a n → (span a n).Apart (span addr v.ty.layout.size) →
    Memory.load (v.store addr m).2 a n = Memory.load m a n) ∧
  ((v.store addr m).1 = .ok () → ∀ m',
    Elsewhere (footprint (v.store addr m).2 v.ty addr) (v.store addr m).2 m' →
      Value.load m' v.ty addr = .ok v)

theorem roundTrip (howns : Owns m addr v.ty.layout.size) : RoundTrip m addr v := by
  refine ⟨fun a n ha hapart => load_store_frame hv hsize hsound hfits ha hapart, fun hok m' hm' => ?_⟩
  obtain ⟨hsound', hload, hplaces⟩ := load_of_store hv hsize hsound hfits howns hok
  exact load_congr hload fun p hp => ((hm'.keeps hsound' hplaces).2 p hp).2

end

/-- Values go through memory unchanged: through a region, when the bytes of their record have been
handed out, and through any heap that comes about, when they lie in one live block. -/
theorem store_then_load {v : Value} {size : Nat} (hv : v.Valid) (hsize : v.ty.checkedSize? = some size)
    (addr : UInt64) :
    v.ty.layout.size = size ∧
    (∀ m : Region, Region.Fits (v.store addr m).2 → m.contains addr size → RoundTrip m addr v) ∧
    ∀ m : Heap, m.Reachable → Heap.Fits (v.store addr m).2 → m.Owns addr size → RoundTrip m addr v := by
  obtain ⟨hlayout, hsome⟩ := Ty.size_of_checkedSize? hsize
  refine ⟨hlayout, fun m hfits howns => ?_, fun m hm hfits howns => ?_⟩
  · exact roundTrip hv hsome trivial hfits (hlayout ▸ howns)
  · exact roundTrip hv hsome hm.sound.1 hfits (hlayout ▸ howns)

/-- A heap with a gap at its base, before the block that a record can go to. -/
def gappedHeap : Heap :=
  let h := (Heap.alloc 16 8 (Heap.new 4096 256)).2
  ((Heap.alloc 40 8 h).2.sweep (· != 4096)).2

theorem gappedHeap_reachable : gappedHeap.Reachable :=
  .sweep _ (.alloc 40 8 (.alloc 16 8 (.new 4096 256) (by decide) (by decide +kernel)) (by decide)
    (by decide +kernel))

/-- A struct of a signed byte, a tensor with a dynamic axis and a complex number. -/
def sampleStruct : Value :=
  let bytes := Ty.tensor (.prim .unsignedInt 8) [.dynamic]
  let t := Ty.struct [("sign", .prim .signedInt 8), ("data", bytes), ("pole", .complex (.prim .float 64))]
  .struct t [.scalar (.prim .signedInt 8) (-1), .tensor bytes [3] #[1, 2, 3],
    .complex (.complex (.prim .float 64)) 1 2]

theorem store_then_load_sample :
    sampleStruct.Valid ∧ sampleStruct.ty.checkedSize? = some 40 ∧ gappedHeap.gaps = [⟨4096, 16⟩] ∧
      RoundTrip gappedHeap 4112 sampleStruct ∧ (sampleStruct.store 4112 gappedHeap).1 = .ok () ∧
      RoundTrip gappedHeap.region 4112 sampleStruct ∧
        (sampleStruct.store 4112 gappedHeap.region).1 = .ok () := by
  have hv : sampleStruct.Valid := by unfold Valid; decide +kernel
  have hsize : sampleStruct.ty.checkedSize? = some 40 := by decide +kernel
  obtain ⟨-, hregion, hheap⟩ := store_then_load hv hsize 4112
  have hblocks : gappedHeap.blocks = [⟨4112, 40⟩] := by decide +kernel
  have howns : gappedHeap.Owns 4112 40 := by
    unfold Heap.Owns
    rw [hblocks]
    exact ⟨_, List.mem_singleton_self _, by decide +kernel⟩
  refine ⟨hv, hsize, by decide +kernel, hheap _ gappedHeap_reachable (by decide +kernel) howns,
    by decide +kernel, hregion _ (by decide +kernel) (by decide +kernel), by decide +kernel⟩

/-- A block behind 100 bytes ends at byte 50, as a word: the region is cut there, and what was stored
behind it is gone. -/
theorem wrapped_block_cuts :
    let v := Value.scalar (.prim .signedInt 64) 7
    let m := (v.store 4160 (Region.alloc 100 1 { base := 4096, limit := 1000 }).2).2
    Value.load m v.ty 4160 = .ok v ∧ (Region.alloc (2 ^ 64 - 50) 1 m).1 = .ok 4196 ∧
      Value.load (Region.alloc (2 ^ 64 - 50) 1 m).2 v.ty 4160 = .error (.internal (.access 8 4160 4096 50)) := by
  decide +kernel

end Value

end NumericEngine
