import NumericEngine.Memory.Heap
import NumericEngine.Proofs.Ty.Layout
import NumericEngine.Proofs.Word.Windows

/-!
# Laws of memory

A memory owns the bytes that it has handed out. Storing changes the bytes that
are stored and no others; allocating hands out bytes that were not owned before
and changes none that were.
-/

namespace NumericEngine

namespace Extent

/-- No address in common. -/
def Apart (x y : Extent) : Prop := ∀ a, x.start ≤ a → a < x.stop → ¬ (y.start ≤ a ∧ a < y.stop)

/-- The addresses of so many bytes. -/
def span (addr : UInt64) (n : Nat) : Extent := ⟨addr.toNat, n⟩

variable {x y : Extent}

theorem Apart.symm (h : x.Apart y) : y.Apart x := fun a hle hlt hx => h a hx.1 hx.2 ⟨hle, hlt⟩

theorem Apart.mono (h : x.Apart y) (hstart : y.start ≤ z.start) (hstop : z.stop ≤ y.stop) : x.Apart z :=
  fun a hle hlt hz => h a hle hlt ⟨hstart.trans hz.1, hz.2.trans_le hstop⟩

theorem apart_of_le (h : x.stop ≤ y.start) : x.Apart y := fun _ _ hlt hy => by omega

end Extent

open Extent (span)

/-- What a memory keeps to. -/
class LawfulMemory (μ : Type) [Memory μ] where
  /-- The memory is in a state that its operations lead to. -/
  Sound : μ → Prop
  /-- All bytes have an address, and there are no more than a buffer can hold. -/
  Fits : μ → Prop
  /-- The bytes from an address on have been handed out. -/
  Owns : μ → UInt64 → Nat → Prop
  /-- What has been handed out at once begins at the address. -/
  Begins : μ → UInt64 → Prop
  /-- The end of a new block of the size and alignment is a word. -/
  Room : μ → Nat → Nat → Prop
  /-- How far the stack of frames reaches, in a memory that has one. -/
  top : μ → Nat
  /-- How many bytes are handed out where so many are asked for. -/
  grain : Nat → Nat
  le_grain (n : Nat) : n ≤ grain n
  owns_mono {m : μ} {a : UInt64} {n k : Nat} (h : Owns m a n) (hle : k ≤ n) : Owns m a k
  store_failed {m m' : μ} {a : UInt64} {bs : List UInt8} {f : Fault}
    (h : Memory.store a bs m = (.error f, m')) : m' = m
  store_fault {m m' : μ} {a : UInt64} {bs : List UInt8} {f : Fault}
    (h : Memory.store a bs m = (.error f, m')) : f.kind ≠ .outOfMemory
  alloc_failed {m m' : μ} {size align : Nat} {f : Fault} (hsound : Sound m) (hfits : Fits m')
    (h : Memory.alloc size align m = (.error f, m')) : m' = m
  room {m m' : μ} {a : UInt64} {size align : Nat} (hsize : size ≤ Layout.maxSize) (halign : align ∣ 8)
    (h : Memory.alloc size align m = (.ok a, m')) : Room m size align
  begins_store {m m' : μ} {a b : UInt64} {bs : List UInt8} {r : Except Fault Unit}
    (h : Memory.store a bs m = (r, m')) (hb : Begins m b) : Begins m' b
  begins_alloc {m m' : μ} {a : UInt64} {size align : Nat} (h : Memory.alloc size align m = (.ok a, m')) :
    Begins m' a ∧ ∀ b, Begins m b → Begins m' b
  top_store {m m' : μ} {a : UInt64} {bs : List UInt8} {r : Except Fault Unit}
    (h : Memory.store a bs m = (r, m')) : top m' = top m
  top_alloc {m m' : μ} {size align : Nat} {r : Except Fault UInt64}
    (h : Memory.alloc size align m = (r, m')) : top m' = top m
  fits_store {m m' : μ} {a : UInt64} {bs : List UInt8} {r : Except Fault Unit}
    (h : Memory.store a bs m = (r, m')) : Fits m' ↔ Fits m
  fits_alloc {m m' : μ} {size align : Nat} {r : Except Fault UInt64} (halign : align ≤ Layout.maxWord)
    (hroom : ∀ a, r = .ok a → Room m size align) (h : Memory.alloc size align m = (r, m'))
      (hfits : Fits m') : Fits m
  sound_store {m m' : μ} {a : UInt64} {bs : List UInt8} {r : Except Fault Unit}
    (h : Memory.store a bs m = (r, m')) (hsound : Sound m) : Sound m'
  owns_store {m m' : μ} {a b : UInt64} {bs : List UInt8} {n : Nat} {r : Except Fault Unit}
    (h : Memory.store a bs m = (r, m')) : Owns m' b n ↔ Owns m b n
  load_store {m m' : μ} {a : UInt64} {bs : List UInt8} (h : Memory.store a bs m = (.ok (), m')) :
    Memory.load m' a bs.length = .ok bs
  load_store_apart {m m' : μ} {a b : UInt64} {bs : List UInt8} {n : Nat}
    (h : Memory.store a bs m = (.ok (), m')) (happart : (span b n).Apart (span a bs.length)) :
    Memory.load m' b n = Memory.load m b n
  allocated {m m' : μ} {a : UInt64} {size align : Nat} (hsound : Sound m) (hfits : Fits m')
    (hroom : Room m size align) (halign : align ≤ Layout.maxWord) (h : Memory.alloc size align m = (.ok a, m')) :
    Sound m' ∧ Owns m' a (grain size) ∧ ∀ b n, Owns m b n →
      Owns m' b n ∧ Memory.load m' b n = Memory.load m b n ∧ (span b n).Apart (span a (grain size))

/-- A buffer for so many bytes has been handed out at the address. -/
def LawfulMemory.HasBuffer {μ : Type} [Memory μ] [LawfulMemory μ] (m : μ) (a : UInt64) (n : Nat) : Prop :=
  Owns m a (grain μ n)

theorem LawfulMemory.HasBuffer.owns [Memory μ] [LawfulMemory μ] {m : μ}
    (h : HasBuffer m a n) : Owns m a n :=
  owns_mono h (le_grain n)

/-! ## Regions -/

namespace Region

variable {r : Region} {addr : UInt64} {n start : Nat} {bs : List UInt8}

/-- All bytes of the region have an address, and there are no more than a buffer can hold. -/
def Fits (r : Region) : Prop := r.used ≤ Layout.maxSize ∧ r.base.toNat + r.used < 2 ^ 64

instance (r : Region) : Decidable r.Fits := inferInstanceAs (Decidable (_ ∧ _))

theorem offset?_eq_some :
    r.offset? addr n = some start ↔
      addr.toNat = r.base.toNat + start ∧ start + n ≤ r.used := by
  unfold offset?
  split
  · rename_i h
    rw [UInt64.le_iff_toNat_le] at h
    simp only [Option.some.injEq]
    omega
  · rename_i h
    rw [UInt64.le_iff_toNat_le] at h
    simp only [reduceCtorEq, false_iff]
    omega

theorem contains_iff : r.contains addr n ↔
    r.base.toNat ≤ addr.toNat ∧ addr.toNat + n ≤ r.base.toNat + r.used := by
  rw [contains, Option.isSome_iff_exists]
  simp only [offset?_eq_some]
  constructor
  · rintro ⟨start, haddr, hle⟩
    omega
  · intro h
    exact ⟨addr.toNat - r.base.toNat, by omega⟩

/-- A store overwrites bytes of the region, or fails and changes nothing. -/
inductive Stores (r : Region) (addr : UInt64) (bs : List UInt8) : Except Fault Unit → Region → Prop
  | within {start : Nat} (hstart : r.offset? addr bs.length = some start) :
      Stores r addr bs (.ok ()) { r with bytes := r.bytes.overwrite start bs }
  | outside : Stores r addr bs (.error (r.outside addr bs.length)) r

theorem store_cases (h : store addr bs r = (x, r')) : r.Stores addr bs x r' := by
  unfold store at h
  split at h
  · cases h
    exact .within ‹_›
  · cases h
    exact .outside

theorem store_size (h : store addr bs r = (x, r')) :
    r'.base = r.base ∧ r'.limit = r.limit ∧ r'.used = r.used := by
  cases store_cases h with
  | within => exact ⟨rfl, rfl, Bytes.size_overwrite ..⟩
  | outside => exact ⟨rfl, rfl, rfl⟩

theorem offset?_store (h : store addr bs r = (x, r')) (b : UInt64) (n : Nat) :
    r'.offset? b n = r.offset? b n := by
  obtain ⟨hbase, -, hused⟩ := store_size h
  rw [offset?, offset?, hbase, hused]

theorem load_store_same (h : store addr bs r = (.ok (), r')) : r'.load addr bs.length = .ok bs := by
  rw [load, offset?_store h]
  cases store_cases h with
  | within hstart =>
    rw [hstart]
    exact congrArg _ (Bytes.window_overwrite (offset?_eq_some.1 hstart).2)

theorem load_store_other (h : store addr bs r = (.ok (), r'))
    (happart : (span b n).Apart (span addr bs.length)) : r'.load b n = r.load b n := by
  obtain ⟨hbase, -, hused⟩ := store_size h
  rw [load, load, offset?_store h]
  cases hb : r.offset? b n with
  | none =>
    dsimp only
    rw [outside, outside, hbase, hused]
  | some start' =>
    obtain ⟨hb, -⟩ := offset?_eq_some.1 hb
    cases store_cases h with
    | within hstart =>
      obtain ⟨haddr, -⟩ := offset?_eq_some.1 hstart
      refine congrArg _ (Bytes.window_overwrite_apart fun i hle hlt hin => ?_)
      exact happart (r.base.toNat + i) (by simp only [span]; omega)
        (by simp only [span, Extent.stop]; omega) (by simp only [span, Extent.stop]; omega)

theorem used_resize (r : Region) (size : Nat) : (r.resize size).used = size := by
  simp only [resize, used, Array.size_append, Array.size_shrink, Bytes.size_zeros]
  omega

theorem bytes_resize (h : r.used ≤ size) : (r.resize size).bytes = r.bytes ++ Bytes.zeros (size - r.used) := by
  have hshrink : r.bytes.shrink size = r.bytes :=
    Array.ext' (by rw [Array.toList_shrink, List.take_of_length_le h])
  rw [resize, hshrink]

theorem load_resize (h : r.contains addr n) (hsize : r.used ≤ size) :
    (r.resize size).load addr n = r.load addr n := by
  obtain ⟨start, hstart⟩ := Option.isSome_iff_exists.1 h
  obtain ⟨haddr, hle⟩ := offset?_eq_some.1 hstart
  have hstart' : (r.resize size).offset? addr n = some start :=
    offset?_eq_some.2 ⟨haddr, by rw [used_resize]; omega⟩
  rw [load, load, hstart, hstart', bytes_resize hsize]
  exact congrArg _ (Bytes.window_append _ hle)

theorem le_next (hused : r.used ≤ Layout.maxSize) (halign : align ≤ Layout.maxWord) : r.used ≤ r.next align :=
  Layout.le_alignUp hused (max_le halign (by decide))

theorem next_le (hused : r.used ≤ Layout.maxSize) (halign : align ∣ 8) : r.next align ≤ 2 ^ 63 := by
  have hpos : 0 < align := Nat.pos_of_dvd_of_pos halign (by decide)
  have hle := Nat.le_of_dvd (by decide) halign
  rw [next, Nat.max_eq_left hpos]
  refine Layout.alignUp_le ?_ (halign.trans (by decide)) (hused.trans (by decide))
  exact (Nat.add_le_add hused hle).trans (by decide)

theorem next_lt (hused : r.used ≤ Layout.maxSize) (align : Nat) : r.next align < 2 ^ 64 := by
  unfold next Layout.alignUp
  split
  · exact Nat.lt_of_le_of_lt hused (by decide)
  · exact Nat.lt_of_le_of_lt ((Nat.div_mul_le_self _ _).trans (Nat.min_le_right _ _)) (by decide)

theorem toNat_address (r : Region) (hfits : r.base.toNat + start < 2 ^ 64) :
    (r.address start).toNat = r.base.toNat + start := by
  have hstart : (UInt64.ofNat start).toNat = start :=
    UInt64.toNat_ofNat_of_lt' (Nat.lt_of_le_of_lt (Nat.le_add_left _ _) hfits)
  rw [address, UInt64.toNat_add, hstart]
  exact Nat.mod_eq_of_lt hfits

/-- A region grows by an aligned block, or is too near its limit and stays as it is. -/
inductive Allocates (r : Region) (size align : Nat) : Except Fault UInt64 → Region → Prop
  | full (f : Fault) : Allocates r size align (.error f) r
  | grown (hused : r.used ≤ Layout.maxSize) (hlimit : Word.add (r.next align) size ≤ r.limit) :
      Allocates r size align (.ok (r.address (r.next align))) (r.resize (Word.add (r.next align) size))

theorem full_eq_false : r.full stop = false ↔ stop ≤ r.limit ∧ r.used ≤ Layout.maxSize := by
  simp [full]

theorem alloc_cases (h : alloc size align r = (x, r')) : r.Allocates size align x r' := by
  unfold alloc at h
  dsimp only at h
  split at h
  · cases h
    exact .full _
  · cases h
    obtain ⟨hlimit, hused⟩ := full_eq_false.1 (Bool.eq_false_iff.2 ‹_›)
    exact .grown hused hlimit

theorem release_eq (h : r.base ≤ addr) :
    r.release addr = { r with bytes := r.bytes.shrink (addr.toNat - r.base.toNat) } := by
  rw [release, if_pos h]

theorem used_release (h : r.base ≤ addr) (hle : addr.toNat ≤ r.base.toNat + r.used) :
    r.base.toNat + (r.release addr).used = addr.toNat := by
  rw [UInt64.le_iff_toNat_le] at h
  rw [release_eq h]
  simp only [used, Array.size_shrink] at *
  omega

theorem load_release (h : r.base ≤ addr) (hb : r.contains b n)
    (hstop : b.toNat + n ≤ addr.toNat) : (r.release addr).load b n = r.load b n := by
  obtain ⟨start, hstart⟩ := Option.isSome_iff_exists.1 hb
  obtain ⟨haddr, hle⟩ := offset?_eq_some.1 hstart
  rw [release_eq h]
  have hstart' : Region.offset? { r with bytes := r.bytes.shrink (addr.toNat - r.base.toNat) } b n =
    some start := by
    refine offset?_eq_some.2 ⟨haddr, ?_⟩
    simp only [used, Array.size_shrink] at *
    omega
  rw [load, load, hstart, hstart']
  exact congrArg _ (Bytes.window_shrink (by omega))

theorem fits_of_resize (hle : r.used ≤ size) (h : (r.resize size).Fits) : r.Fits := by
  obtain ⟨hsize, haddr⟩ := h
  rw [used_resize] at hsize haddr
  exact ⟨hle.trans hsize, (Nat.add_le_add_left hle r.base.toNat).trans_lt haddr⟩

theorem grown_at (halign : align ≤ Layout.maxWord) (hused : r.used ≤ Layout.maxSize)
    (hroom : r.next align + size < 2 ^ 64) (hfits : (r.resize (Word.add (r.next align) size)).Fits) :
    r.used ≤ r.next align ∧ Word.add (r.next align) size = r.next align + size ∧
      r.base.toNat + (r.next align + size) < 2 ^ 64 ∧
      (r.address (r.next align)).toNat = r.base.toNat + r.next align := by
  have hle : r.used ≤ r.next align := le_next hused halign
  have hstop := Word.add_of_lt hroom
  have hspace : r.base.toNat + (r.next align + size) < 2 ^ 64 := by
    have hspace := hfits.2
    rwa [used_resize, hstop] at hspace
  exact ⟨hle, hstop, hspace, r.toNat_address (Nat.lt_of_le_of_lt (by omega) hspace)⟩

end Region

/-- The bytes that a region has grown by are all owned. -/
instance : LawfulMemory Region where
  Sound _ := True
  Fits := Region.Fits
  Owns r addr n := r.contains addr n
  Begins _ _ := True
  Room r size align := r.next align + size < 2 ^ 64
  top _ := 0
  grain n := n
  le_grain _ := Nat.le_refl _
  owns_mono h hle := by
    rw [Region.contains_iff] at *
    omega
  store_failed h := by
    cases Region.store_cases h
    rfl
  store_fault h := by
    cases Region.store_cases h
    exact nofun
  alloc_failed _ _ h := by
    cases Region.alloc_cases h
    rfl
  room hsize halign h := by
    cases Region.alloc_cases h with
    | grown hused => exact Nat.lt_of_le_of_lt (Nat.add_le_add (Region.next_le hused halign) hsize) (by decide)
  begins_store _ _ := trivial
  begins_alloc _ := ⟨trivial, fun _ _ => trivial⟩
  top_store _ := rfl
  top_alloc _ := rfl
  fits_store h := by
    obtain ⟨hbase, -, hused⟩ := Region.store_size h
    unfold Region.Fits
    rw [hbase, hused]
  fits_alloc halign hroom h hfits := by
    cases Region.alloc_cases h with
    | full => exact hfits
    | grown hused =>
      obtain ⟨hle, hstop, -⟩ := Region.grown_at halign hused (hroom _ rfl) hfits
      exact Region.fits_of_resize (by omega) hfits
  sound_store _ _ := trivial
  owns_store h := by
    obtain ⟨hbase, -, hused⟩ := Region.store_size h
    rw [Region.contains_iff, Region.contains_iff, hbase, hused]
  load_store h := Region.load_store_same h
  load_store_apart h happart := Region.load_store_other h happart
  allocated {m _ _ size align} _ hfits hroom halign h := by
    cases Region.alloc_cases h with
    | grown hused =>
    obtain ⟨hle, hstop, hspace, haddress⟩ := Region.grown_at halign hused hroom hfits
    rw [hstop]
    have hbase : (m.resize (m.next align + size)).base = m.base := rfl
    have hused : (m.resize (m.next align + size)).used = m.next align + size := m.used_resize _
    refine ⟨trivial, ?_, fun b n hb => ?_⟩
    · rw [Region.contains_iff, hused, haddress, hbase]
      omega
    · obtain ⟨hlo, hhi⟩ := Region.contains_iff.1 hb
      refine ⟨?_, Region.load_resize hb (by omega), Extent.apart_of_le ?_⟩
      · rw [Region.contains_iff, hused, hbase]
        omega
      · simp only [span, Extent.stop, haddress]
        omega

end NumericEngine

