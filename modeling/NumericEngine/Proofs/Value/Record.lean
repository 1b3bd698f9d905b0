import NumericEngine.Proofs.Faults
import NumericEngine.Proofs.Memory.Heap
import NumericEngine.Proofs.Value.Typing

/-!
# Records and memory

Writing a record allocates its buffers and changes no byte that was owned before.
Reading one depends on its bytes and its buffers alone.
-/

namespace NumericEngine

open List hiding elem
open Extent (span)
open LawfulMemory (Sound Fits Owns HasBuffer)

namespace Memory

theorem reserve_of_le (h : size ≤ Layout.maxSize) : reserve size = .ok () := if_pos h

theorem le_of_reserve (h : reserve size = .ok u) : size ≤ Layout.maxSize := by
  unfold reserve at h
  split at h
  · assumption
  · cases h

theorem calm_reserve : Except.Calm (reserve size) := by
  unfold reserve
  split
  · exact .ok _
  · exact .error rfl

end Memory

theorem ofLeBytes_word (w : UInt64) : ofLeBytes (leBytes 8 w) = w :=
  ofLeBytes_leBytes (Nat.le_refl 8) w.toNat_lt

theorem Value.words_flatMap (shape : Shape) : words shape.length (shape.flatMap (leBytes 8)) = shape := by
  induction shape with
  | nil => rfl
  | cons d shape ih =>
    rw [length_cons, words, flatMap_cons, take_left' (length_leBytes 8 d),
      drop_left' (length_leBytes 8 d), ih, ofLeBytes_word]

theorem Bytes.overwrite_all {b : Bytes} {src : List UInt8} (h : src.length = b.size) :
    (b.overwrite 0 src).toList = src := by
  have hwindow : (b.overwrite 0 src).window 0 src.length = src := window_overwrite (by omega)
  rwa [window_eq, drop_zero, take_of_length_le (by simp; omega)] at hwindow

/-! ## What an allocation keeps -/

section
variable {μ α : Type} [Memory μ] [LawfulMemory μ] {m m' : μ}

/-- Everything owned before is owned still, with the same bytes. -/
structure Kept (m m' : μ) : Prop where
  sound : Sound m'
  top : LawfulMemory.top m' = LawfulMemory.top m
  owns : ∀ a n, Owns m a n → Owns m' a n
  load : ∀ a n, Owns m a n → Memory.load m' a n = Memory.load m a n
  begins : ∀ a, LawfulMemory.Begins m a → LawfulMemory.Begins m' a

/-- None of the bytes were owned. -/
def Fresh (m : μ) (a : UInt64) (n : Nat) : Prop := ∀ b k, Owns m b k → (span b k).Apart (span a n)

theorem Kept.refl (h : Sound m) : Kept m m := ⟨h, rfl, fun _ _ h => h, fun _ _ _ => rfl, fun _ h => h⟩

theorem Kept.trans (h : Kept m m') (h' : Kept m' m'') : Kept m m'' where
  sound := h'.sound
  top := h'.top.trans h.top
  owns a n ha := h'.owns a n (h.owns a n ha)
  load a n ha := (h'.load a n (h.owns a n ha)).trans (h.load a n ha)
  begins a ha := h'.begins a (h.begins a ha)

theorem Fresh.of_kept (h : Fresh m' a n) (hkept : Kept m m') : Fresh m a n :=
  fun b k hb => h b k (hkept.owns b k hb)

/-- A transition that only adds to what is owned, also when it fails. -/
structure Transition.Adds (x : Transition μ α) : Prop where
  fits : ∀ m r m', x m = (r, m') → Fits m' → Fits m
  kept : ∀ m r m', x m = (r, m') → Sound m → Fits m' → Kept m m'

namespace Transition.Adds

theorem outcome (r : Except Fault α) : Adds (Transition.outcome r : Transition μ α) where
  fits m r m' h := by
    cases h
    exact id
  kept m r m' h hsound _ := by
    cases h
    exact .refl hsound

theorem bind {k : α → Transition μ β} (hx : Adds x) (hk : ∀ a, Adds (k a)) : Adds (x >>= k) := by
  have hcases : ∀ m r m', (x >>= k) m = (r, m') →
      (∃ f, x m = (.error f, m')) ∨ ∃ a t, x m = (.ok a, t) ∧ k a t = (r, m') := by
    intro m r m' h
    rw [Transition.bind_apply] at h
    rcases hxm : x m with ⟨_ | a, t⟩
    · rw [hxm] at h
      cases h
      exact .inl ⟨_, rfl⟩
    · rw [hxm] at h
      exact .inr ⟨a, t, rfl, h⟩
  refine ⟨fun m r m' h hfits => ?_, fun m r m' h hsound hfits => ?_⟩
  · rcases hcases m r m' h with ⟨f, hxm⟩ | ⟨a, t, hxm, hka⟩
    · exact hx.fits m _ m' hxm hfits
    · exact hx.fits m _ t hxm ((hk a).fits t r m' hka hfits)
  · rcases hcases m r m' h with ⟨f, hxm⟩ | ⟨a, t, hxm, hka⟩
    · exact hx.kept m _ m' hxm hsound hfits
    · have hkept := hx.kept m _ t hxm hsound ((hk a).fits t r m' hka hfits)
      exact hkept.trans ((hk a).kept t r m' hka hkept.sound hfits)

end Transition.Adds

theorem Kept.store (hkept : Kept m m')
    (h : Memory.store a bs m' = (.ok (), m'')) (hfresh : Fresh m a bs.length) : Kept m m'' where
  sound := LawfulMemory.sound_store h hkept.sound
  top := (LawfulMemory.top_store h).trans hkept.top
  owns b n hb := (LawfulMemory.owns_store h).2 (hkept.owns b n hb)
  load b n hb := (LawfulMemory.load_store_apart h (hfresh b n hb)).trans (hkept.load b n hb)
  begins b hb := LawfulMemory.begins_store h (hkept.begins b hb)

open Memory (newBuffer)

omit [LawfulMemory μ] in
theorem newBuffer_eq (hsize : data.size ≤ Layout.maxSize) : (newBuffer data align : Transition μ UInt64) = do
    let addr ← Memory.alloc data.size align
    Memory.store addr data.toList
    return addr := by
  rw [newBuffer, Memory.reserve_of_le hsize]
  rfl

theorem newBuffer_cases (h : newBuffer data align m = (r, m')) :
    (∃ f, r = .error f ∧ (m' = m ∨ Memory.alloc data.size align m = (.error f, m'))) ∨
      ∃ a t, data.size ≤ Layout.maxSize ∧ Memory.alloc data.size align m = (.ok a, t) ∧
        ((∃ f, r = .error f ∧ m' = t ∧ f.kind ≠ .outOfMemory) ∨
          r = .ok a ∧ Memory.store a data.toList t = (.ok (), m')) := by
  by_cases hsize : data.size ≤ Layout.maxSize
  rotate_left
  · rw [newBuffer, Memory.reserve, if_neg hsize] at h
    cases h
    exact .inl ⟨_, rfl, .inl rfl⟩
  rw [newBuffer_eq hsize, Transition.bind_apply] at h
  rcases halloc : Memory.alloc data.size align m with ⟨_ | a, t⟩
  · rw [halloc] at h
    cases h
    exact .inl ⟨_, rfl, .inr rfl⟩
  · rw [halloc] at h
    dsimp only at h
    rw [Transition.bind_apply] at h
    refine .inr ⟨a, t, hsize, rfl, ?_⟩
    rcases hstore : Memory.store a data.toList t with ⟨_ | ⟨⟩, u⟩
    · rw [hstore] at h
      cases h
      exact .inl ⟨_, rfl, LawfulMemory.store_failed hstore, LawfulMemory.store_fault hstore⟩
    · rw [hstore] at h
      cases h
      exact .inr ⟨rfl, rfl⟩

theorem le_maxWord_of_dvd (halign : align ∣ 8) : align ≤ Layout.maxWord :=
  (Nat.le_of_dvd (by decide) halign).trans (by decide)

theorem fits_of_newBuffer (halign : align ∣ 8) (h : newBuffer data align m = (r, m')) (hfits : Fits m') :
    Fits m := by
  have hword := le_maxWord_of_dvd halign
  rcases newBuffer_cases h with ⟨f, -, rfl | halloc⟩ | ⟨a, t, hsize, halloc, hend⟩
  · exact hfits
  · exact LawfulMemory.fits_alloc (r := .error f) hword nofun halloc hfits
  · have hroom := LawfulMemory.room hsize halign halloc
    refine LawfulMemory.fits_alloc hword (fun _ _ => hroom) halloc ?_
    rcases hend with ⟨f, -, rfl, -⟩ | ⟨-, hstore⟩
    · exact hfits
    · exact (LawfulMemory.fits_store hstore).1 hfits

theorem newBuffer_adds (halign : align ∣ 8) : Transition.Adds (newBuffer data align : Transition μ UInt64) := by
  refine ⟨fun m r m' => fits_of_newBuffer halign, fun m r m' h hsound hfits => ?_⟩
  have hword := le_maxWord_of_dvd halign
  have hallocated {a : UInt64} {t : μ} (hsize : data.size ≤ Layout.maxSize)
      (halloc : Memory.alloc data.size align m = (.ok a, t)) (hfits : Fits t) :
      Kept m t ∧ Fresh m a data.size := by
    obtain ⟨hsound', -, hkept⟩ := LawfulMemory.allocated hsound hfits
      (LawfulMemory.room hsize halign halloc) hword halloc
    exact ⟨⟨hsound', LawfulMemory.top_alloc halloc, fun b n hb => (hkept b n hb).1,
      fun b n hb => (hkept b n hb).2.1, (LawfulMemory.begins_alloc halloc).2⟩, fun b n hb =>
        (hkept b n hb).2.2.mono (Nat.le_refl _) (Nat.add_le_add_left (LawfulMemory.le_grain _) _)⟩
  rcases newBuffer_cases h with ⟨f, -, rfl | halloc⟩ | ⟨a, t, hsize, halloc, ⟨f, -, rfl, -⟩ | ⟨-, hstore⟩⟩
  · exact .refl hsound
  · rw [LawfulMemory.alloc_failed hsound hfits halloc]
    exact .refl hsound
  · exact (hallocated hsize halloc hfits).1
  · obtain ⟨hkept, hfresh⟩ := hallocated hsize halloc ((LawfulMemory.fits_store hstore).1 hfits)
    exact hkept.store hstore hfresh

theorem newBuffer_ok (halign : align ∣ 8) (hsound : Sound m) (hfits : Fits m')
    (h : newBuffer data align m = (.ok a, m')) :
    data.size ≤ Layout.maxSize ∧ HasBuffer m' a data.size ∧ Fresh m a data.size ∧
      Memory.load m' a data.size = .ok data.toList ∧ LawfulMemory.Begins m' a := by
  rcases newBuffer_cases h with ⟨f, hr, -⟩ | ⟨a', t, hsize, halloc, ⟨f, hr, -⟩ | ⟨hr, hstore⟩⟩
  · cases hr
  · cases hr
  · cases hr
    obtain ⟨-, howns, hkept⟩ := LawfulMemory.allocated hsound ((LawfulMemory.fits_store hstore).1 hfits)
      (LawfulMemory.room hsize halign halloc) (le_maxWord_of_dvd halign) halloc
    refine ⟨hsize, (LawfulMemory.owns_store hstore).2 howns, fun b n hb => ?_, ?_,
      LawfulMemory.begins_store hstore (LawfulMemory.begins_alloc halloc).1⟩
    · exact (hkept b n hb).2.2.mono (Nat.le_refl _) (Nat.add_le_add_left (LawfulMemory.le_grain _) _)
    · have hload := LawfulMemory.load_store hstore
      rwa [Array.length_toList] at hload

end

/-! ## Buffers -/

namespace Value

/-- The buffer behind a descriptor: its address and its length. -/
def bufferOf (t : Ty) (bs : List UInt8) : List (UInt64 × Nat) :=
  match t.layout.storage, t.elemKind? with
  | .descriptor rank, some e => [(ofLeBytes (bs.take 8), Word.mul (Shape.count (words rank (bs.drop 8))) e.size)]
  | _, _ => []

mutual
/-- The buffers behind the descriptors in a record of a type. -/
def buffers : Ty → List UInt8 → List (UInt64 × Nat)
  | .struct fs, bs => fieldBuffers fs (Ty.struct fs).layout.offsets bs
  | .vector e n, bs => bufferOf (.vector e n) bs
  | .tensor e ds, bs => bufferOf (.tensor e ds) bs
  | _, _ => []
def fieldBuffers : List (String × Ty) → List Nat → List UInt8 → List (UInt64 × Nat)
  | (_, t) :: fs, offset :: rest, bs =>
    buffers t ((bs.drop offset).take t.layout.size) ++ fieldBuffers fs rest bs
  | _, _, _ => []
end

variable {μ : Type} [Memory μ]

theorem decodeContainer_congr {mem mem' : μ}
    (h : ∀ p ∈ bufferOf t bs, Memory.load mem' p.1 p.2 = Memory.load mem p.1 p.2) :
    decodeContainer mem' t bs = decodeContainer mem t bs := by
  unfold decodeContainer
  unfold bufferOf at h
  cases hstorage : t.layout.storage with
  | descriptor rank =>
    simp only [hstorage] at h
    unfold decodeDescriptor
    dsimp only
    cases helem : t.elemKind? with
    | none => rfl
    | some e =>
      simp only [helem, mem_singleton, forall_eq] at h
      dsimp only
      rw [h]
  | _ => rfl

mutual
/-- A record is read with the memory of its buffers alone. -/
theorem decode_congr {mem mem' : μ} (t : Ty) (bs : List UInt8)
    (h : ∀ p ∈ buffers t bs, Memory.load mem' p.1 p.2 = Memory.load mem p.1 p.2) :
    decode mem' t bs = decode mem t bs := by
  cases t with
  | vector | tensor =>
    rw [decode, decode, record]
    split
    · rfl
    · rw [buffers] at h
      exact decodeContainer_congr h
  | struct fs =>
    rw [decode, decode, record]
    split
    · rfl
    · rw [Except.ok_bind, Except.ok_bind, decodeFields_congr fs _ bs h]
  | _ => rfl
theorem decodeFields_congr {mem mem' : μ} (fs : List (String × Ty)) (offsets : List Nat) (bs : List UInt8)
    (h : ∀ p ∈ fieldBuffers fs offsets bs, Memory.load mem' p.1 p.2 = Memory.load mem p.1 p.2) :
    decodeFields mem' fs offsets bs = decodeFields mem fs offsets bs := by
  cases fs with
  | nil => rw [decodeFields, decodeFields] <;> exact nofun
  | cons f fs =>
    cases offsets with
    | nil => rw [decodeFields, decodeFields] <;> exact nofun
    | cons offset rest =>
      rw [fieldBuffers] at h
      rw [decodeFields, decodeFields,
        decode_congr f.2 _ fun p hp => h p (mem_append_left _ hp),
        decodeFields_congr fs rest bs fun p hp => h p (mem_append_right _ hp)]
end

/-! ## The forms of values -/

theorem record_of_length {t : Ty} {bs : List UInt8} (h : bs.length = t.layout.size) : record t bs = .ok bs := by
  rw [record, if_neg (by omega)]

omit [Memory μ] in
theorem checkRoom_bind {l : Layout} {out : Bytes} (h : out.size = l.size) (t : Ty)
    (k : Unit → Transition μ Bytes) (m : μ) : (checkRoom l out t >>= k) m = k () m := by
  rw [checkRoom, if_neg (by omega)]
  rfl

theorem decode_ofKind (mem : μ) (k : Kind) {bs : List UInt8} (h : bs.length = k.size) :
    decode mem (.ofKind k) bs = .ok (ofScalar k (k.read bs)) := by
  have hrecord : record (.ofKind k) bs = .ok bs := record_of_length (by rw [h, Ty.layout_ofKind]; rfl)
  have hkind := Ty.kind?_ofKind k
  obtain ⟨p, w, hp⟩ : ∃ p w, Ty.ofKind k = .prim p w := by
    cases k <;> exact ⟨_, _, rfl⟩
  rw [hp] at hrecord hkind ⊢
  rw [decode, hrecord, Except.ok_bind, hkind]

theorem decode_complexOf (mem : μ) {k : Kind} (hk : k.isFloat = true) {bs : List UInt8}
    (h : bs.length = 2 * k.size) :
    decode mem (.complexOf k) bs = .ok (.complex (.complexOf k) (k.read bs) (k.read (bs.drop k.size))) := by
  have hrecord : record (.complexOf k) bs = .ok bs := record_of_length (by rw [h, Ty.layout_complexOf]; rfl)
  have hkind := Ty.complexKind?_complexOf hk
  rw [Ty.complexOf] at hrecord hkind ⊢
  rw [decode, hrecord, Except.ok_bind, hkind]

theorem decode_container (mem : μ) {t : Ty} (ht : t.element? = some elem) {bs : List UInt8}
    (h : bs.length = t.layout.size) : decode mem t bs = decodeContainer mem t bs := by
  cases t with
  | vector e n | tensor e ds => rw [decode, record_of_length h, Except.ok_bind]
  | _ => cases ht

theorem buffers_container {t : Ty} (ht : t.element? = some elem) (bs : List UInt8) :
    buffers t bs = bufferOf t bs := by
  cases t with
  | vector e n => rw [buffers]
  | tensor e ds => rw [buffers]
  | _ => cases ht

theorem eq_of_conforms {ds : List Dim} (hshape : ds.mapM Dim.extent? = some shape)
    (h : Shape.Conforms (ds.map Dim.extent?) shape' = true) : shape' = shape := by
  induction ds generalizing shape shape' with
  | nil =>
    cases hshape
    cases shape' with
    | nil => rfl
    | cons => simp [Shape.Conforms] at h
  | cons d ds ih =>
    simp only [mapM_cons, Option.bind_eq_bind, Option.bind_eq_some_iff, Option.pure_def,
      Option.some.injEq] at hshape
    obtain ⟨n, hn, ns, hns, rfl⟩ := hshape
    cases shape' with
    | nil => simp [Shape.Conforms] at h
    | cons n' shape' =>
      simp only [Shape.Conforms, map_cons, hn, length_cons, zip_cons_cons, all_cons,
        Option.all_some, Bool.and_eq_true, beq_iff_eq, Nat.add_right_cancel_iff] at h
      have hrest : shape' = ns := by
        refine ih hns ?_
        simp only [Shape.Conforms, Bool.and_eq_true, beq_iff_eq]
        exact ⟨h.1, h.2.2⟩
      rw [hrest, h.2.1]

theorem length_descriptor (addr : UInt64) (shape : Shape) :
    (descriptor addr shape).length = 8 + 8 * shape.length := by
  rw [descriptor, length_append, length_leBytes, length_flatMap]
  simp [Nat.mul_comm]

/-! ## Encoding adds to memory -/

theorem encodeInto_descriptor {l : Layout} (hl : l.storage = .descriptor rank) (out : Bytes)
    (t : Ty) (shape : Shape) (data : Bytes) :
    (encodeInto l out (.tensor t shape data) : Transition μ Bytes) = checkRoom l out t >>= fun _ =>
      if shape.length ≠ rank then Transition.defect (.descriptorRank shape.length rank)
      else Memory.newBuffer data (bufferAlign t) >>= fun addr =>
        pure (out.overwrite 0 (descriptor addr shape)) := by
  rw [encodeInto]
  simp only [hl]

/-- A kind of transitions that has the results of work on values and new buffers, and is kept by
sequencing. -/
structure Closed (C : {α : Type} → Transition μ α → Prop) : Prop where
  outcome : ∀ {α : Type} {r : Except Fault α}, Except.Calm r → C (Transition.outcome r)
  bind : ∀ {α β : Type} {x : Transition μ α} {k : α → Transition μ β}, C x → (∀ a, C (k a)) → C (x >>= k)
  newBuffer : ∀ (data : Bytes) {align : Nat}, align ∣ 8 → C (Memory.newBuffer data align)

theorem bufferAlign_dvd (t : Ty) : bufferAlign t ∣ 8 := by
  unfold bufferAlign
  cases t.elemKind? with
  | none => exact Nat.dvd_refl 8
  | some e =>
    show e.component.size ∣ 8
    cases e.component <;> decide

namespace Closed

variable {C : {α : Type} → Transition μ α → Prop} (hC : Closed C)

include hC

theorem pure (a : α) : C (Pure.pure a) := hC.outcome (.ok a)

theorem defect (h : (Fault.internal d).isCalm = true) :
    C (Transition.defect d : Transition μ α) := hC.outcome (.error h)

theorem checkRoom (l : Layout) (out : Bytes) (t : Ty) : C (checkRoom l out t) := by
  unfold Value.checkRoom
  split
  · exact hC.defect rfl
  · exact hC.pure _

theorem mismatch (s : Storage) (t : Ty) : C (mismatch s t) := by
  cases s <;> exact hC.defect rfl

mutual
/-- Encoding does nothing to memory but make buffers. -/
theorem encodeInto (l : Layout) (out : Bytes) (v : Value) : C (encodeInto l out v) := by
  cases v <;> rw [Value.encodeInto] <;> refine hC.bind (hC.checkRoom l out _) fun _ => ?_
  case scalar | complex =>
    split
    · split
      · exact hC.pure _
      · exact hC.defect rfl
    · exact hC.mismatch _ _
  case tensor t shape data _ =>
    split
    · exact hC.pure _
    · split
      · exact hC.defect rfl
      · exact hC.bind (hC.newBuffer data (bufferAlign_dvd t)) fun addr => hC.pure _
    · exact hC.mismatch _ _
  case struct t fields _ =>
    split
    · exact encodeFields _ _ fields
    · exact hC.mismatch _ _
  case function =>
    split
    · exact hC.pure _
    · exact hC.mismatch _ _
  case ref => exact hC.defect rfl
theorem encodeFields (offsets : List Nat) (out : Bytes) (vs : List Value) : C (encodeFields offsets out vs) := by
  cases vs with
  | nil =>
    rw [Value.encodeFields]
    exact hC.pure _
  | cons v vs =>
    cases offsets with
    | nil =>
      rw [Value.encodeFields]
      exact hC.pure _
    | cons offset rest =>
      rw [Value.encodeFields]
      exact hC.bind (encodeInto _ _ v) fun field => encodeFields rest _ vs
end

theorem encode (v : Value) : C v.encode :=
  hC.bind (hC.outcome Memory.calm_reserve) fun _ => hC.encodeInto _ _ v

end Closed

theorem adds_closed [LawfulMemory μ] : Closed (μ := μ) Transition.Adds where
  outcome _ := .outcome _
  bind := .bind
  newBuffer _ _ h := newBuffer_adds h

end Value

end NumericEngine
