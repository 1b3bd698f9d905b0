import NumericEngine.Proofs.Value.Record

/-!
# Images of values

What the bytes of a record have to do with the value they stand for. The image
of a value determines the value, given the buffers behind its descriptors.
Encoding writes one, with new buffers.
-/

namespace NumericEngine

open List

namespace Value

open LawfulMemory (Sound Fits Owns HasBuffer)

/-- Bytes that stand for a valid value. Buffers at an address with contents have a property. -/
inductive Image (P : UInt64 → Bytes → Prop) : Value → List UInt8 → Prop where
  | scalar {k : Kind} {w : UInt64} (hw : k.Canonical w) : Image P (scalar (.ofKind k) w) (k.bytes w)
  | complex {k : Kind} {re im : UInt64} (hfloat : k.isFloat = true) (hre : k.Canonical re)
    (him : k.Canonical im) : Image P (complex (.complexOf k) re im) (k.bytes re ++ k.bytes im)
  | inline {t : Ty} {shape : Shape} {data : Bytes} {padding : List UInt8} (hv : (tensor t shape data).Valid)
    (hshape : t.fixedShape? = some shape) (hlength : data.size + padding.length = t.layout.size) :
    Image P (tensor t shape data) (data.toList ++ padding)
  | buffer {t : Ty} {shape : Shape} {data : Bytes} {a : UInt64} (hv : (tensor t shape data).Valid)
    (hshape : t.fixedShape? = none) (hbuffer : P a data) : Image P (tensor t shape data) (descriptor a shape)
  | struct {decl : List (String × Ty)} {vs : List Value} {bs : List UInt8}
    (hlength : bs.length = (Ty.struct decl).layout.size) (htys : vs.map ty = decl.map (·.2))
    (hfields : ∀ (i : Nat) v offset, vs[i]? = some v → (Ty.struct decl).layout.offsets[i]? = some offset →
      Image P v ((bs.drop offset).take v.ty.layout.size)) :
    Image P (struct (.struct decl) vs) bs
  | function {ps : List Ty} {r : Ty} {id : FuncId} :
    Image P (function (.function ps r) id) (leBytes 8 id.index.toUInt64)

theorem address_descriptor (a : UInt64) (shape : Shape) : ofLeBytes ((descriptor a shape).take 8) = a := by
  rw [descriptor, take_left' (length_leBytes 8 a), ofLeBytes_word]

theorem words_descriptor {ds : List Dim}
    (hconforms : Shape.Conforms (ds.map Dim.extent?) shape = true) (a : UInt64) :
    words ds.length ((descriptor a shape).drop 8) = shape := by
  rw [Shape.Conforms, Bool.and_eq_true, beq_iff_eq, length_map] at hconforms
  rw [descriptor, drop_left' (length_leBytes 8 a), hconforms.1, words_flatMap]

namespace Image

variable {P : UInt64 → Bytes → Prop} {v : Value} {bs : List UInt8}

theorem mono (h : Image P v bs) (hpq : ∀ a data, P a data → Q a data) : Image Q v bs := by
  induction h with
  | scalar hw => exact .scalar hw
  | complex hfloat hre him => exact .complex hfloat hre him
  | inline hv hshape hlength => exact .inline hv hshape hlength
  | buffer hv hshape hbuffer => exact .buffer hv hshape (hpq _ _ hbuffer)
  | struct hlength htys _ ih => exact .struct hlength htys ih
  | function => exact .function

theorem length (h : Image P v bs) : bs.length = v.ty.layout.size := by
  cases h with
  | @scalar k w hw =>
    rw [ty, Ty.layout_ofKind]
    exact length_leBytes _ _
  | @complex k re im hfloat hre him =>
    rw [ty, Ty.layout_complexOf, length_append, Kind.bytes, Kind.bytes, length_leBytes, length_leBytes]
    exact (Nat.two_mul _).symm
  | inline hv hshape hlength =>
    rw [length_append, Array.length_toList]
    exact hlength
  | buffer hv hshape hbuffer =>
    obtain ⟨elem, e, ds, helem, -, hds, hconforms, -⟩ := valid_tensor hv
    rw [length_descriptor, ty, (Ty.descriptor_of_dynamic helem hds hshape).2]
    rw [Shape.Conforms, Bool.and_eq_true, beq_iff_eq, length_map] at hconforms
    rw [hconforms.1]
  | struct hlength htys hfields => exact hlength
  | @function ps r id =>
    rw [length_leBytes, ty, Ty.layout]
    rfl

theorem addressable_field {vs : List Value} {i : Nat}
    (hsize : (Ty.struct decl).Addressable) (htys : vs.map ty = decl.map (·.2)) (hv : vs[i]? = some v) :
    v.ty.Addressable := by
  have hmem : v.ty ∈ decl.map (·.2) := by
    rw [← htys]
    exact mem_map_of_mem (mem_of_getElem? hv)
  obtain ⟨d, hd, hty⟩ := mem_map.1 hmem
  rw [← hty]
  exact (Ty.placed_struct hsize).addressable hd

variable {μ : Type} [Memory μ] {mem : μ}

theorem decodeFields_eq_ok : {vs : List Value} → {decl : List (String × Ty)} → {offsets : List Nat} →
    vs.map ty = decl.map (·.2) → offsets.length = decl.length →
    (∀ (i : Nat) v offset, vs[i]? = some v → offsets[i]? = some offset →
      decode mem v.ty ((bs.drop offset).take v.ty.layout.size) = .ok v) →
    decodeFields mem decl offsets bs = .ok vs
  | [], [], [], _, _, _ => rfl
  | v :: vs, (name, t) :: decl, offset :: offsets, htys, hlength, h => by
    obtain ⟨rfl, hrestTys⟩ : v.ty = t ∧ vs.map ty = decl.map (·.2) := by simpa using htys
    have hrest := decodeFields_eq_ok hrestTys (Nat.succ.inj hlength) fun i => h (i + 1)
    rw [decodeFields, h 0 v offset rfl rfl, Except.ok_bind, hrest]
    rfl

/-- A value is read back from its image, when its buffers are where they should be. -/
theorem decode (h : Image P v bs) (hsize : v.ty.Addressable)
    (hload : ∀ a data, P a data → data.size ≤ Layout.maxSize ∧ Memory.load mem a data.size = .ok data.toList) :
    Value.decode mem v.ty bs = .ok v := by
  induction h with
  | @scalar k w hw =>
    have hlength : (k.bytes w).length = k.size := length_leBytes ..
    have hread := Kind.read_bytes hw []
    rw [append_nil] at hread
    rw [ty, decode_ofKind mem k hlength, hread, ofScalar, hw]
  | @complex k re im hfloat hre him =>
    have hlength : (k.bytes re).length = k.size := length_leBytes ..
    have hboth : (k.bytes re ++ k.bytes im).length = 2 * k.size := by
      rw [length_append, hlength, Kind.bytes, length_leBytes, Nat.two_mul]
    have hread := Kind.read_bytes him []
    rw [append_nil] at hread
    rw [ty, decode_complexOf mem hfloat hboth, Kind.read_bytes hre, drop_left' hlength, hread]
  | @inline t shape data padding hv hshape hlength =>
    obtain ⟨elem, e, ds, helem, he, -, -, hdata⟩ := valid_tensor hv
    obtain ⟨hstorage, -⟩ := Ty.inline_of_fixed helem hshape hsize
    have hextent : (Layout.elemExtent elem).1 = e.size := by rw [Layout.elemExtent, he]
    rw [ty, decode_container mem helem (by simpa using hlength), decodeContainer, hstorage]
    dsimp only
    rw [hshape, hextent,
      take_left' (by rw [Array.length_toList, hdata, (Ty.bytes_of_fixed helem he hshape hsize).1])]
  | @buffer t shape data a hv hshape hbuffer =>
    obtain ⟨elem, e, ds, helem, he, hds, hconforms, hdata⟩ := valid_tensor hv
    have hlength := (Image.buffer hv hshape hbuffer).length
    obtain ⟨hstorage, -⟩ := Ty.descriptor_of_dynamic helem hds hshape
    have helemKind : t.elemKind? = some e := by rw [Ty.elemKind?, helem, Option.bind_some, he]
    rw [ty, decode_container mem helem hlength, decodeContainer, hstorage]
    dsimp only
    rw [decodeDescriptor, helemKind]
    dsimp only
    obtain ⟨hsmall, hbytes⟩ := hload _ _ hbuffer
    rw [address_descriptor, words_descriptor hconforms, ← hdata, Memory.reserve_of_le hsmall, Except.ok_bind,
      hbytes, Except.ok_bind, Array.toArray_toList, checked, show (tensor t shape data).check = .ok () from hv]
    rfl
  | @struct decl vs bs hlength htys hfields ih =>
    rw [ty, Value.decode, record_of_length hlength, Except.ok_bind,
      decodeFields_eq_ok htys (Ty.length_offsets decl) fun i v offset hv hoffset =>
        ih i v offset hv hoffset (addressable_field hsize htys hv)]
    rfl
  | @function ps r id =>
    have hlength : (leBytes 8 id.index.toUInt64).length = 8 := length_leBytes ..
    have hlayout : (Ty.function ps r).layout = Layout.plain 8 8 .functionId := by rw [Ty.layout]
    have hlt : id.index.toUInt64.toNat < UInt32.size := by
      rw [UInt32.toNat_toUInt64]
      exact id.index.toNat_lt
    rw [ty, Value.decode, record_of_length (by rw [hlength, hlayout]; rfl), Except.ok_bind, decodeFunction,
      take_of_length_le (Nat.le_of_eq hlength), ofLeBytes_word, if_pos hlt, UInt32.toUInt32_toUInt64]

theorem mem_fieldBuffers : {vs : List Value} → {decl : List (String × Ty)} → {offsets : List Nat} →
    vs.map ty = decl.map (·.2) → {p : UInt64 × Nat} → p ∈ fieldBuffers decl offsets bs →
    ∃ (i : Nat) (v : Value) (offset : Nat), vs[i]? = some v ∧ offsets[i]? = some offset ∧
      p ∈ buffers v.ty ((bs.drop offset).take v.ty.layout.size)
  | [], [], _, _, p, hp | v :: vs, (name, t) :: decl, [], _, p, hp => by
    rw [fieldBuffers] at hp
    · cases hp
    · simp
  | v :: vs, (name, t) :: decl, offset :: offsets, htys, p, hp => by
    obtain ⟨rfl, hrestTys⟩ : v.ty = t ∧ vs.map ty = decl.map (·.2) := by simpa using htys
    rw [fieldBuffers] at hp
    rcases mem_append.1 hp with hp | hp
    · exact ⟨0, v, offset, rfl, rfl, hp⟩
    · obtain ⟨i, w, o, hw, ho, hp⟩ := mem_fieldBuffers hrestTys hp
      exact ⟨i + 1, w, o, hw, ho, hp⟩

theorem buffer_of_mem (h : Image P v bs) (hsize : v.ty.Addressable)
    (hp : p ∈ buffers v.ty bs) : ∃ data : Bytes, data.size = p.2 ∧ P p.1 data := by
  induction h with
  | @scalar k w hw =>
    have hnone : buffers (Ty.ofKind k) (k.bytes w) = [] := by cases k <;> rfl
    rw [ty, hnone] at hp
    cases hp
  | @complex k re im hfloat hre him => cases hp
  | @inline t shape data padding hv hshape hlength =>
    obtain ⟨elem, e, ds, helem, -⟩ := valid_tensor hv
    rw [ty, buffers_container helem, bufferOf, (Ty.inline_of_fixed helem hshape hsize).1] at hp
    cases hp
  | @buffer t shape data a hv hshape hbuffer =>
    obtain ⟨elem, e, ds, helem, he, hds, hconforms, hdata⟩ := valid_tensor hv
    have helemKind : t.elemKind? = some e := by rw [Ty.elemKind?, helem, Option.bind_some, he]
    rw [ty, buffers_container helem, bufferOf, (Ty.descriptor_of_dynamic helem hds hshape).1, helemKind] at hp
    dsimp only at hp
    rw [address_descriptor, words_descriptor hconforms, ← hdata] at hp
    rw [mem_singleton.1 hp]
    exact ⟨data, rfl, hbuffer⟩
  | @struct decl vs bs hlength htys hfields ih =>
    rw [ty, buffers] at hp
    obtain ⟨i, v, offset, hv, hoffset, hp⟩ := mem_fieldBuffers htys hp
    exact ih i v offset hv hoffset (addressable_field hsize htys hv) hp
  | function => cases hp

end Image

/-! ## Encoding -/

section
variable {μ : Type} [Memory μ] [LawfulMemory μ] {m m' : μ} {out out' : Bytes}

/-- A buffer that holds its contents and was not owned before. -/
structure NewBuffer (m m' : μ) (a : UInt64) (data : Bytes) : Prop where
  small : data.size ≤ Layout.maxSize
  load : Memory.load m' a data.size = .ok data.toList
  owns : HasBuffer m' a data.size
  fresh : Fresh m a data.size
  begins : LawfulMemory.Begins m' a

theorem NewBuffer.kept (h : NewBuffer m m₁ a data) (hkept : Kept m₁ m₂) : NewBuffer m m₂ a data :=
  ⟨h.small, (hkept.load a _ h.owns.owns).trans h.load, hkept.owns a _ h.owns, h.fresh, hkept.begins a h.begins⟩

omit [Memory μ] [LawfulMemory μ] in
theorem image_bytes (h : ((.ok (out.overwrite 0 bs), m) : Except Fault Bytes × μ) = (.ok out', m'))
    (hlength : bs.length = out.size) (himage : Image P v bs) :
    out'.size = out.size ∧ Image P v out'.toList := by
  simp only [Prod.mk.injEq, Except.ok.injEq] at h
  obtain ⟨rfl, rfl⟩ := h
  refine ⟨Bytes.size_overwrite .., ?_⟩
  rwa [Bytes.overwrite_all hlength]

theorem encodeInto_scalar (hv : (scalar t w).Valid)
    (hout : out.size = t.layout.size) (h : encodeInto t.layout out (scalar t w) m = (.ok out', m')) :
    out'.size = out.size ∧ Image (NewBuffer m m') (scalar t w) out'.toList := by
  obtain ⟨k, rfl, hw⟩ := valid_scalar hv
  have hlength : (k.bytes w).length = k.size := length_leBytes ..
  rw [Ty.layout_ofKind] at hout h
  rw [encodeInto, checkRoom_bind hout, Ty.kind?_ofKind] at h
  change (Except.ok (out.overwrite 0 ((k.bytes w).take k.size)), m) = _ at h
  rw [take_of_length_le (Nat.le_of_eq hlength)] at h
  exact image_bytes h (hlength.trans hout.symm) (.scalar hw)

theorem encodeInto_complex (hv : (complex t re im).Valid)
    (hout : out.size = t.layout.size) (h : encodeInto t.layout out (complex t re im) m = (.ok out', m')) :
    out'.size = out.size ∧ Image (NewBuffer m m') (complex t re im) out'.toList := by
  obtain ⟨k, rfl, hfloat, hre, him⟩ := valid_complex hv
  have himage : Image (NewBuffer m m') (complex (.complexOf k) re im) (k.bytes re ++ k.bytes im) :=
    .complex hfloat hre him
  have hlength := himage.length
  rw [ty] at hlength
  rw [← hout] at hlength
  rw [Ty.layout_complexOf] at hout h
  rw [encodeInto, checkRoom_bind hout, Ty.complexKind?_complexOf hfloat] at h
  exact image_bytes h hlength himage

theorem encodeInto_inline {out : Bytes}
    (hv : (tensor t shape data).Valid) (hsize : t.Addressable) (hshape : t.fixedShape? = some shape')
    (hout : out.size = t.layout.size) (h : encodeInto t.layout out (tensor t shape data) m = (.ok out', m')) :
    out'.size = out.size ∧ Image (NewBuffer m m') (tensor t shape data) out'.toList := by
  obtain ⟨elem, e, ds, helem, he, hds, hconforms, hdata⟩ := valid_tensor hv
  obtain ⟨hstorage, hle⟩ := Ty.inline_of_fixed helem hshape hsize
  have hextent : (Layout.elemExtent elem).1 = e.size := by rw [Layout.elemExtent, he]
  rw [hextent] at hle
  obtain rfl : shape = shape' := eq_of_conforms (by simpa [Ty.fixedShape?, hds] using hshape) hconforms
  rw [encodeInto, checkRoom_bind hout, hstorage] at h
  have hlength : data.size + (t.layout.size - data.size) = t.layout.size := by
    obtain ⟨hbytes, hle⟩ := Ty.bytes_of_fixed helem he hshape hsize
    rw [hdata, hbytes]
    omega
  refine image_bytes h ?_ (.inline hv hshape (by simpa using hlength))
  rw [length_append, Array.length_toList, length_replicate, hlength, hout]

theorem encodeInto_buffer {out : Bytes} (hv : (tensor t shape data).Valid)
    (hshape : t.fixedShape? = none) (hout : out.size = t.layout.size) (hsound : Sound m) (hfits : Fits m')
    (h : encodeInto t.layout out (tensor t shape data) m = (.ok out', m')) :
    out'.size = out.size ∧ Image (NewBuffer m m') (tensor t shape data) out'.toList := by
  obtain ⟨elem, e, ds, helem, -, hds, hconforms, -⟩ := valid_tensor hv
  obtain ⟨hstorage, -⟩ := Ty.descriptor_of_dynamic helem hds hshape
  have hrank : shape.length = ds.length := by
    rw [Shape.Conforms, Bool.and_eq_true, beq_iff_eq, length_map] at hconforms
    exact hconforms.1.symm
  rw [encodeInto_descriptor hstorage, checkRoom_bind hout, if_neg (by simpa using hrank),
    Transition.bind_apply] at h
  rcases hbuffer : Memory.newBuffer data (bufferAlign t) m with ⟨_ | addr, t'⟩
  · rw [hbuffer] at h
    cases h
  rw [hbuffer] at h
  obtain rfl : t' = m' := (Prod.mk.inj h).2
  obtain ⟨hsmall, howns, hfresh, hload, hbegins⟩ := newBuffer_ok (bufferAlign_dvd t) hsound hfits hbuffer
  have himage : Image (NewBuffer m t') (tensor t shape data) (descriptor addr shape) :=
    .buffer hv hshape ⟨hsmall, hload, howns, hfresh, hbegins⟩
  exact image_bytes h (himage.length.trans hout.symm) himage

theorem encodeInto_function {id : FuncId} (hv : (function t id).Valid)
    (hout : out.size = t.layout.size) (h : encodeInto t.layout out (function t id) m = (.ok out', m')) :
    out'.size = out.size ∧ Image (NewBuffer m m') (function t id) out'.toList := by
  obtain ⟨ps, r, rfl⟩ : ∃ ps r, t = .function ps r := by
    cases t with
    | function ps r => exact ⟨ps, r, rfl⟩
    | _ => cases hv
  have hlayout : (Ty.function ps r).layout = Layout.plain 8 8 .functionId := by rw [Ty.layout]
  rw [hlayout] at hout h
  rw [encodeInto, checkRoom_bind hout] at h
  exact image_bytes h ((length_leBytes ..).trans hout.symm) .function

mutual
/-- The bytes that encode a value are its image, with new buffers. -/
theorem encodeInto_image : (v : Value) → v.Valid → v.ty.Addressable → ∀ {out out' : Bytes} {m m' : μ},
    out.size = v.ty.layout.size → Sound m → Fits m' →
    encodeInto v.ty.layout out v m = (.ok out', m') →
    out'.size = out.size ∧ Image (NewBuffer m m') v out'.toList
  | scalar t w, hv, _, _, _, _, _, hout, _, _, h => encodeInto_scalar hv hout h
  | complex t re im, hv, _, _, _, _, _, hout, _, _, h => encodeInto_complex hv hout h
  | tensor t shape data, hv, hsize, out, out', m, m', hout, hsound, hfits, h => by
    cases hshape : t.fixedShape? with
    | some shape' => exact encodeInto_inline hv hsize hshape hout h
    | none => exact encodeInto_buffer hv hshape hout hsound hfits h
  | struct t vs, hv, hsize, out, out', m, m', hout, hsound, hfits, h => by
    obtain ⟨decl, rfl, hfields⟩ := valid_struct hv
    have hplaced := Ty.placed_struct hsize
    have hstorage : (Ty.struct decl).layout.storage = .struct := by rw [Ty.layout]
    rw [ty] at hout h
    rw [encodeInto, checkRoom_bind hout, hstorage] at h
    obtain ⟨hsize', -, himages⟩ := encodeFields_image vs decl _ 0 _ hplaced hfields
      (Nat.le_of_eq (hout.symm.trans (Bytes.size_overwrite ..).symm)) hsound hfits h
    rw [Bytes.size_overwrite] at hsize'
    have htys : vs.map ty = decl.map (·.2) :=
      forall₂_eq_eq_eq ▸ forall₂_map_left_iff.2 (forall₂_map_right_iff.2 (hfields.imp fun _ _ h => h.1))
    exact ⟨hsize', .struct (by rw [Array.length_toList, hsize', hout]) htys himages⟩
  | function t id, hv, _, _, _, _, _, hout, _, _, h => encodeInto_function hv hout h
  | ref t slot, _, _, out, out', m, m', hout, _, _, h => by
    rw [encodeInto, checkRoom_bind hout] at h
    cases h
theorem encodeFields_image : (vs : List Value) → (decl : List (String × Ty)) → (offsets : List Nat) →
    (first last : Nat) → Placed decl offsets first last →
    List.Forall₂ (fun v d => v.ty = d.2 ∧ v.Valid) vs decl → ∀ {out out' : Bytes} {m m' : μ},
    last ≤ out.size → Sound m → Fits m' → encodeFields offsets out vs m = (.ok out', m') →
    out'.size = out.size ∧ (∀ s n, s + n ≤ first → out'.window s n = out.window s n) ∧
      ∀ (i : Nat) v offset, vs[i]? = some v → offsets[i]? = some offset →
        Image (NewBuffer m m') v ((out'.toList.drop offset).take v.ty.layout.size)
  | [], decl, offsets, first, last, hplaced, hfields, out, out', m, m', _, _, _, h => by
    rw [encodeFields] at h
    cases h
    exact ⟨rfl, fun _ _ _ => rfl, fun i v offset hv => by simp at hv⟩
  | v :: vs, decl, offsets, first, last, hplaced, hfields, out, out', m, m', hlast, hsound, hfits, h => by
    cases hfields with
    | @cons _ d _ decl hv hfields =>
    obtain ⟨name, t⟩ := d
    obtain ⟨rfl, hvalid⟩ : v.ty = t ∧ v.Valid := hv
    cases hplaced with
    | @cons _ _ _ offset _ _ offsets hsize hfirst hrest =>
    have hle := hrest.le
    rw [encodeFields, Transition.bind_apply] at h
    have hwindow : (out.window offset v.ty.layout.size).toArray.size = v.ty.layout.size := by
      rw [size_toArray]
      exact Bytes.length_window (by omega)
    rcases hfield : encodeInto v.ty.layout (out.window offset v.ty.layout.size).toArray v m with ⟨_ | field, m₁⟩
    · rw [hfield] at h
      cases h
    rw [hfield] at h
    dsimp only at h
    have hrestAdds := (adds_closed (μ := μ)).encodeFields offsets (out.overwrite offset field.toList) vs
    have hfits₁ : Fits m₁ := hrestAdds.fits m₁ _ m' h hfits
    obtain ⟨hfieldSize, himage⟩ := encodeInto_image v hvalid hsize hwindow hsound hfits₁ hfield
    -- the buffers of a field outlive the encoding of the others, and theirs are newer
    have hkept₁ := (adds_closed.encodeInto _ _ v).kept m _ m₁ hfield hsound hfits₁
    have hkept₂ := hrestAdds.kept m₁ _ m' h hkept₁.sound hfits
    obtain ⟨hsize', hbefore, hrestImages⟩ := encodeFields_image vs decl offsets _ _ hrest hfields
      (by rw [Bytes.size_overwrite]; exact hlast) hkept₁.sound hfits h
    rw [Bytes.size_overwrite] at hsize'
    rw [hwindow] at hfieldSize
    have hfieldBytes : (out'.toList.drop offset).take v.ty.layout.size = field.toList := by
      rw [← Bytes.window_eq, hbefore _ _ (Nat.le_refl _)]
      have hfieldLength : field.toList.length = v.ty.layout.size := by rw [Array.length_toList, hfieldSize]
      rw [← hfieldLength]
      exact Bytes.window_overwrite (by omega)
    refine ⟨hsize', fun s n hsn => ?_, fun i w o hw ho => ?_⟩
    · rw [hbefore s n (by omega)]
      refine Bytes.window_overwrite_apart fun i hi hi' hin => ?_
      omega
    · cases i with
      | zero =>
        cases hw
        cases ho
        rw [hfieldBytes]
        exact himage.mono fun _ _ hp => hp.kept hkept₂
      | succ i => exact (hrestImages i w o hw ho).mono fun _ _ hp =>
          ⟨hp.small, hp.load, hp.owns, hp.fresh.of_kept hkept₁, hp.begins⟩
end

/-- A record and its buffers hold a value, and the buffers are new. -/
structure Written (m m' : μ) (v : Value) (bs : List UInt8) : Prop where
  decodes : decode m' v.ty bs = .ok v
  buffers : ∀ p ∈ buffers v.ty bs, HasBuffer m' p.1 p.2 ∧ Fresh m p.1 p.2

/-- A value that was encoded is read back, and its buffers are new. -/
theorem encodeInto_ok (v : Value) (hv : v.Valid) (hsize : v.ty.Addressable)
    (hout : out.size = v.ty.layout.size) (hsound : Sound m) (hfits : Fits m')
    (h : encodeInto v.ty.layout out v m = (.ok out', m')) :
    out'.size = out.size ∧ Written m m' v out'.toList := by
  obtain ⟨hsize', himage⟩ := encodeInto_image v hv hsize hout hsound hfits h
  refine ⟨hsize', himage.decode hsize fun _ _ hp => ⟨hp.small, hp.load⟩, fun p hp => ?_⟩
  obtain ⟨data, hdata, hbuffer⟩ := himage.buffer_of_mem hsize hp
  rw [← hdata]
  exact ⟨hbuffer.owns, hbuffer.fresh⟩

end

end Value

end NumericEngine

