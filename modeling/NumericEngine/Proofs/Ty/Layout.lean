import Mathlib.Algebra.Order.Ring.Nat
import NumericEngine.Proofs.Tensor.Indexing
import NumericEngine.Ty.Layout

/-!
# Exact layouts

Where the size of a type is defined, nothing saturates in its layout: it is the
one that the rules give over all numbers, and the fields of a struct follow one
another without overlap.
-/

namespace NumericEngine

variable {fs : List (String × Ty)} {offsets : List Nat} {first last : Nat}

namespace Layout

variable {offset align n : Nat}

/-- The next multiple of `align` from `offset` on, of any size. -/
def roundUp (offset align : Nat) : Nat := (offset + (align - 1)) / align * align

theorem div_mul_bounds (n : Nat) (h : 0 < align) :
    n / align * align ≤ n ∧ n < n / align * align + align := by
  have hmod := Nat.mod_lt n h
  have heq := Nat.div_add_mod n align
  rw [Nat.mul_comm] at heq
  omega

/-- Rounding up does not go down, for offsets up to half the range of words. -/
theorem le_alignUp (hoffset : offset ≤ maxSize) (halign : align ≤ maxWord) :
    offset ≤ alignUp offset align := by
  unfold alignUp
  split
  · exact Nat.le_refl offset
  · rename_i hlt
    have hbounds := div_mul_bounds (saturate (offset + (align - 1))) (show 0 < align by omega)
    unfold maxSize at hoffset
    unfold saturate maxWord at *
    by_cases hfits : offset + (align - 1) ≤ 0xffffffffffffffff
    · rw [Nat.min_eq_left hfits] at *
      omega
    · -- the alignment exceeds the offset, and one multiple of it is a word
      rw [Nat.min_eq_right (by omega)] at *
      have hone : 1 ≤ 0xffffffffffffffff / align := (Nat.one_le_div_iff (by omega)).2 halign
      calc offset ≤ 1 * align := by omega
        _ ≤ 0xffffffffffffffff / align * align := Nat.mul_le_mul_right align hone

theorem alignUp_le (hword : offset + align ≤ maxWord + 1) (hn : align ∣ n) (hle : offset ≤ n) :
    alignUp offset align ≤ n := by
  unfold alignUp
  split
  · exact hle
  · rename_i hlt
    obtain ⟨k, rfl⟩ := hn
    rw [saturate, Nat.min_eq_left (by omega), Nat.mul_comm align k]
    refine Nat.mul_le_mul_right align (Nat.lt_succ_iff.1 ((Nat.div_lt_iff_lt_mul (by omega)).2 ?_))
    rw [Nat.succ_mul, Nat.mul_comm k align]
    omega

theorem alignUp_lt (offset : Nat) (h : 0 < align) : alignUp offset align < offset + align := by
  unfold alignUp
  split
  · omega
  · have hbounds := div_mul_bounds (saturate (offset + (align - 1))) h
    have hle : saturate (offset + (align - 1)) ≤ offset + (align - 1) := Nat.min_le_left _ _
    omega

theorem dvd_alignUp (offset : Nat) (h : 0 < align) : align ∣ alignUp offset align := by
  unfold alignUp
  split
  · obtain rfl : align = 1 := by omega
    exact one_dvd offset
  · exact dvd_mul_left align _

theorem word?_eq_some : word? n = some m ↔ n ≤ maxWord ∧ n = m := by
  unfold word?
  split <;> simp_all

theorem alignUp?_eq_some (halign : 0 < align) (h : alignUp? offset align = some n) :
    alignUp offset align = n ∧ roundUp offset align = n := by
  unfold alignUp? at h
  unfold alignUp roundUp
  split at h
  · cases h
    obtain rfl : align = 1 := by omega
    simp
  · rename_i hlt
    rw [if_neg hlt]
    obtain ⟨m, hm, rfl⟩ := Option.map_eq_some_iff.1 h
    obtain ⟨hword, rfl⟩ := word?_eq_some.1 hm
    rw [saturate, Nat.min_eq_left hword]
    exact ⟨rfl, rfl⟩

theorem le_roundUp (offset : Nat) (halign : 0 < align) : offset ≤ roundUp offset align := by
  have hbounds := div_mul_bounds (offset + (align - 1)) halign
  unfold roundUp
  omega

/-- Rounding up to a word does not saturate, when one can be reached at all. -/
theorem alignUp_eq_roundUp (halign : align ∣ 2 ^ 64) (h : roundUp offset align < 2 ^ 64) :
    alignUp offset align = roundUp offset align := by
  have hpos : 0 < align := Nat.pos_of_dvd_of_pos halign (by decide)
  have hle := le_roundUp offset hpos
  have hlast : roundUp offset align + align ≤ 2 ^ 64 :=
    Nat.add_le_of_le_sub' h.le (Nat.le_of_dvd (by omega)
      ((Nat.dvd_sub_iff_right h.le halign).2 (dvd_mul_left align _)))
  unfold alignUp
  split
  · obtain rfl : align = 1 := by omega
    simp [roundUp]
  · rw [saturate, Nat.min_eq_left (show offset + (align - 1) ≤ maxWord by unfold maxWord; omega), roundUp]

theorem roundUp_of_dvd (halign : 0 < align) (h : align ∣ n) : roundUp n align = n := by
  obtain ⟨k, rfl⟩ := h
  rw [roundUp, Nat.mul_add_div halign, Nat.div_eq_of_lt (by omega), Nat.add_zero, Nat.mul_comm]

theorem product?_eq_some (h : product? shape = some n) : product shape = n ∧ shape.volume = n := by
  have hfold : ∀ (shape : Shape) (acc : Nat),
      shape.foldlM (fun acc d => word? (acc * d.toNat)) acc = some n →
      shape.foldl (fun acc d => saturate (acc * d.toNat)) acc = n ∧ acc * shape.volume = n := by
    intro shape
    induction shape with
    | nil =>
      intro acc h
      cases h
      exact ⟨rfl, Nat.mul_one _⟩
    | cons d shape ih =>
      intro acc h
      obtain ⟨next, hnext, hrest⟩ := Option.bind_eq_some_iff.1 h
      obtain ⟨hword, rfl⟩ := word?_eq_some.1 hnext
      rw [List.foldl_cons, saturate, Nat.min_eq_left hword, Shape.volume, ← Nat.mul_assoc]
      exact ih _ hrest
  obtain ⟨hproduct, hvolume⟩ := hfold shape 1 h
  exact ⟨hproduct, (Nat.one_mul _).symm.trans hvolume⟩

theorem le_alignUp_of_le (halign : align ≤ 16) (h : alignUp offset align ≤ bound)
    (hbound : bound ≤ maxSize) : offset ≤ alignUp offset align := by
  refine le_alignUp ?_ (halign.trans (by decide))
  unfold alignUp at h
  split at h
  · exact h.trans hbound
  · rename_i hlt
    have hbounds := div_mul_bounds (saturate (offset + (align - 1))) (show 0 < align by omega)
    unfold saturate maxWord at *
    unfold maxSize at *
    omega

theorem product_eq_volume (h : product shape < maxWord) : product shape = shape.volume := by
  have hfold : ∀ (shape : Shape) (acc : Nat),
      shape.foldl (fun acc d => saturate (acc * d.toNat)) acc < maxWord →
      shape.foldl (fun acc d => saturate (acc * d.toNat)) acc = acc * shape.volume := by
    intro shape
    induction shape with
    | nil => exact fun acc _ => (Nat.mul_one acc).symm
    | cons d shape ih =>
      intro acc h
      rw [List.foldl_cons] at h ⊢
      rw [ih _ h, Shape.volume, ← Nat.mul_assoc]
      by_cases hword : acc * d.toNat ≤ maxWord
      · rw [saturate, Nat.min_eq_left hword]
      · -- what was cut off is lost in a product with zero only
        rw [ih _ h, saturate, Nat.min_eq_right (by omega)] at h
        have hzero : Shape.volume shape = 0 := by
          by_contra hne
          exact absurd h (Nat.not_lt.2 (Nat.le_mul_of_pos_right _ (Nat.pos_of_ne_zero hne)))
        rw [hzero, Nat.mul_zero, Nat.mul_zero]
  exact (hfold shape 1 h).trans (Nat.one_mul _)

end Layout

open Layout

/-- The number of bytes that one access moves. -/
def Layout.IsWidth (n : Nat) : Prop := n = 1 ∨ n = 2 ∨ n = 4 ∨ n = 8

namespace Layout

theorem IsWidth.max (ha : IsWidth a) (hb : IsWidth b) : IsWidth (max a b) := by
  rcases Nat.le_total a b with h | h
  · rwa [Nat.max_eq_right h]
  · rwa [Nat.max_eq_left h]

theorem IsWidth.le (h : IsWidth n) : n ≤ 8 := by
  unfold IsWidth at h
  omega

theorem IsWidth.pos (h : IsWidth n) : 0 < n := by
  unfold IsWidth at h
  omega

theorem IsWidth.dvd (h : IsWidth n) : n ∣ 2 ^ 64 := by
  rcases h with rfl | rfl | rfl | rfl <;> decide

theorem isWidth_kind (k : Kind) : IsWidth k.size := by
  cases k <;> simp [IsWidth, Kind.size]

theorem isWidth_scalarSize (t : Ty) : IsWidth (scalarSize t) := by
  unfold scalarSize
  cases t.kind? with
  | none => exact .inr (.inr (.inr rfl))
  | some k => exact isWidth_kind k

theorem isWidth_elemExtent (t : Ty) : IsWidth (elemExtent t).2 := by
  unfold elemExtent
  cases t.asElem? with
  | none => exact .inr (.inr (.inr rfl))
  | some e => exact isWidth_kind e.component

theorem elemExtent_pos (t : Ty) : 0 < (elemExtent t).1 := by
  unfold elemExtent
  cases t.asElem? with
  | none => decide
  | some e => cases e <;> simp [ElemKind.size, (isWidth_kind _).pos]

theorem align_dvd_elemExtent (t : Ty) : (elemExtent t).2 ∣ (elemExtent t).1 := by
  unfold elemExtent
  cases t.asElem? with
  | none => exact dvd_rfl
  | some e =>
    cases e with
    | real k => exact dvd_rfl
    | complex k => exact dvd_mul_left k.size 2

theorem isWidth_container : IsWidth (container t elem).align := by
  unfold container
  cases t.fixedShape? with
  | none => exact .inr (.inr (.inr rfl))
  | some shape => exact isWidth_elemExtent elem

end Layout

namespace Ty

open Layout

mutual
theorem isWidth_align : (t : Ty) → IsWidth t.layout.align
  | prim p w | complex e => by
    rw [layout]
    exact isWidth_scalarSize _
  | vector e n | tensor e ds => by
    rw [layout]
    exact isWidth_container
  | struct fs => by
    rw [layout]
    exact isWidth_placeFields fs 0 1 (.inl rfl)
  | function .. | reference .. => by
    rw [layout]
    exact .inr (.inr (.inr rfl))
theorem isWidth_placeFields : (fs : List (String × Ty)) → (offset align : Nat) → IsWidth align →
    IsWidth (placeFields fs offset align).align
  | [], _, _, h => h
  | (_, t) :: fs, _, _, h => by
    rw [placeFields]
    exact isWidth_placeFields fs _ _ (h.max (isWidth_align t))
end

theorem align_dvd_size (t : Ty) : t.layout.align ∣ t.layout.size := by
  have hcontainer : ∀ t elem, (container t elem).align ∣ (container t elem).size := by
    intro t elem
    unfold container
    cases t.fixedShape? with
    | none => exact Nat.dvd_add dvd_rfl (dvd_mul_right 8 _)
    | some shape => exact dvd_alignUp _ (isWidth_elemExtent elem).pos
  cases t with
  | prim p w =>
    rw [layout]
    exact dvd_rfl
  | complex e =>
    rw [layout]
    exact dvd_mul_left (scalarSize e) 2
  | vector e n | tensor e ds =>
    rw [layout]
    exact hcontainer _ _
  | struct fs =>
    rw [layout]
    exact dvd_alignUp _ (isWidth_placeFields fs 0 1 (.inl rfl)).pos
  | _ =>
    rw [layout]
    exact dvd_rfl

theorem align_dvd_offset (fs : List (String × Ty)) (offset align : Nat) {i : Nat}
    (hd : fs[i]? = some d) (hstart : (placeFields fs offset align).offsets[i]? = some start) :
    d.2.layout.align ∣ start := by
  induction fs generalizing offset align i with
  | nil => cases hd
  | cons field fs ih =>
    rw [placeFields] at hstart
    cases i with
    | zero =>
      cases hd
      cases hstart
      exact dvd_alignUp _ (isWidth_align _).pos
    | succ i => exact ih _ _ hd hstart

theorem length_placeFields (fs : List (String × Ty)) (offset align : Nat) :
    (placeFields fs offset align).offsets.length = fs.length := by
  induction fs generalizing offset align with
  | nil => rfl
  | cons f fs ih => simp [placeFields, ih]

theorem length_offsets (decl : List (String × Ty)) : (struct decl).layout.offsets.length = decl.length := by
  rw [layout]
  exact length_placeFields decl 0 1

end Ty

/-- The size is one that memory can have; nothing was cut off in computing it. -/
def Ty.Addressable (t : Ty) : Prop := t.layout.size ≤ maxSize

/-- Fields at offsets, one after the other, between two bounds. -/
inductive Placed : List (String × Ty) → List Nat → Nat → Nat → Prop where
  | nil {first last : Nat} (h : first ≤ last) : Placed [] [] first last
  | cons {name : String} {t : Ty} {fs : List (String × Ty)} {offset first last : Nat}
    {offsets : List Nat} (hsize : t.Addressable) (hfirst : first ≤ offset)
    (hrest : Placed fs offsets (offset + t.layout.size) last) :
    Placed ((name, t) :: fs) (offset :: offsets) first last

section

variable (h : Placed fs offsets first last)
include h

theorem Placed.le : first ≤ last := by
  induction h with
  | nil h => exact h
  | cons _ hfirst _ ih => omega

theorem Placed.addressable (hd : d ∈ fs) : d.2.Addressable := by
  induction h with
  | nil => cases hd
  | cons hsize _ _ ih =>
    rcases List.mem_cons.1 hd with rfl | hd
    · exact hsize
    · exact ih hd

theorem Placed.inside {i : Nat} (hd : fs[i]? = some d)
    (ho : offsets[i]? = some offset) : first ≤ offset ∧ offset + d.2.layout.size ≤ last := by
  induction h generalizing i with
  | nil => cases hd
  | cons hsize hfirst hrest ih =>
    have hle := hrest.le
    cases i with
    | zero =>
      cases hd
      cases ho
      exact ⟨hfirst, hle⟩
    | succ i =>
      obtain ⟨hoffset, hlast⟩ := ih hd ho
      exact ⟨by omega, hlast⟩

theorem Placed.before {i : Nat} (hij : i < j)
    (hd : fs[i]? = some d) (he : fs[j]? = some e) (hx : offsets[i]? = some x) (hy : offsets[j]? = some y) :
    x + d.2.layout.size ≤ y := by
  induction h generalizing i j with
  | nil => cases hd
  | cons hsize hfirst hrest ih =>
    obtain ⟨j, rfl⟩ : ∃ k, j = k + 1 := ⟨j - 1, by omega⟩
    cases i with
    | zero =>
      cases hd
      cases hx
      exact (hrest.inside he hy).1
    | succ i => exact ih (Nat.lt_of_succ_lt_succ hij) hd he hx hy

theorem Placed.weaken (hle : last ≤ last') : Placed fs offsets first last' := by
  induction h with
  | nil h => exact .nil (h.trans hle)
  | cons hsize hfirst _ ih => exact .cons hsize hfirst (ih hle)

end

namespace Ty

theorem layout_ofKind (k : Kind) : (ofKind k).layout = plain k.size k.size .scalar := by
  cases k <;> simp [ofKind, layout, scalarSize] <;> decide

theorem layout_complexOf (k : Kind) : (complexOf k).layout = plain (2 * k.size) k.size .complex := by
  simp [complexOf, layout, scalarSize]

theorem addressable?_eq_some :
    addressable? extent = some extent' ↔ extent.1 ≤ maxSize ∧ extent = extent' := by
  unfold addressable?
  split <;> simp_all

/-- The layout of a vector or tensor whose elements take any number of bytes. -/
def exactContainer (t elem : Ty) : Layout :=
  match t.fixedShape? with
  | some shape =>
    let (elemSize, align) := elemExtent elem
    plain (elemSize * shape.volume) align (.inline elemSize shape.volume)
  | none =>
    let rank := (t.dims?.map List.length).getD 0
    plain (extentsOffset + 8 * rank) 8 (.descriptor rank)

mutual
/-- The layout by the rules, over numbers of any size. -/
def exactLayout : Ty → Layout
  | prim p w => plain (scalarSize (prim p w)) (scalarSize (prim p w)) .scalar
  | complex e => plain (2 * scalarSize e) (scalarSize e) .complex
  | vector e n => exactContainer (vector e n) e
  | tensor e ds => exactContainer (tensor e ds) e
  | struct fs =>
    let p := exactFields fs 0 1
    ⟨roundUp p.size p.align, p.align, p.offsets, .struct⟩
  | function .. => plain 8 8 .functionId
  | reference .. => plain 8 8 .address
def exactFields : List (String × Ty) → Nat → Nat → Placement
  | [], offset, align => ⟨[], offset, align⟩
  | (_, t) :: fs, offset, align =>
    let l := t.exactLayout
    let start := roundUp offset l.align
    let p := exactFields fs (start + l.size) (max align l.align)
    { p with offsets := start :: p.offsets }
end

theorem containerExtent?_eq_some (t elem : Ty) (extent : Nat × Nat)
    (h : containerExtent? t elem = some extent) :
    container t elem = exactContainer t elem ∧ (container t elem).size = extent.1 ∧
      (container t elem).align = extent.2 ∧ extent.1 ≤ maxSize := by
  unfold containerExtent? at h
  unfold container exactContainer
  cases hshape : t.fixedShape? with
  | none =>
    simp only [hshape] at h
    obtain ⟨hle, rfl⟩ := addressable?_eq_some.1 h
    simp only [container, hshape] at hle ⊢
    exact ⟨trivial, trivial, trivial, hle⟩
  | some shape =>
    simp only [hshape, Option.bind_eq_bind, Option.bind_eq_some_iff] at h
    obtain ⟨count, hvolume, bytes, hbytes, size, hsize, h⟩ := h
    obtain ⟨hword, rfl⟩ := word?_eq_some.1 hbytes
    obtain ⟨hle, rfl⟩ := addressable?_eq_some.1 h
    obtain ⟨hproduct, rfl⟩ := product?_eq_some hvolume
    have halign := (isWidth_elemExtent elem).pos
    obtain ⟨hup, hround⟩ := alignUp?_eq_some halign hsize
    -- elements fill a multiple of their alignment, so nothing is rounded
    rw [roundUp_of_dvd halign ((align_dvd_elemExtent elem).mul_right _)] at hround
    dsimp only [plain]
    rw [hproduct, saturate, Nat.min_eq_left hword, hup, hround]
    exact ⟨rfl, rfl, rfl, hle⟩

mutual
/-- Where the exact size is defined, the layout is the exact one. -/
theorem layout_of_extent? : (t : Ty) → (extent : Nat × Nat) → t.extent? = some extent →
    t.layout = t.exactLayout ∧ t.layout.size = extent.1 ∧ t.layout.align = extent.2 ∧ extent.1 ≤ maxSize
  | prim p w, extent, h | complex e, extent, h | function .., extent, h | reference .., extent, h => by
    obtain ⟨hle, rfl⟩ := addressable?_eq_some.1 h
    exact ⟨by rw [layout, exactLayout], rfl, rfl, hle⟩
  | vector e n, extent, h => by
    rw [layout, exactLayout]
    exact containerExtent?_eq_some (vector e n) e extent h
  | tensor e ds, extent, h => by
    rw [layout, exactLayout]
    exact containerExtent?_eq_some (tensor e ds) e extent h
  | struct fs, extent, h => by
    simp only [extent?, Option.bind_eq_bind, Option.bind_eq_some_iff] at h
    obtain ⟨⟨size, align⟩, hfields, total, htotal, h⟩ := h
    obtain ⟨hle, rfl⟩ := addressable?_eq_some.1 h
    obtain ⟨hexact, rfl, rfl⟩ := placeFields_of_fieldsExtent? fs 0 1 (size, align) hfields
    obtain ⟨hup, hround⟩ := alignUp?_eq_some (isWidth_placeFields fs 0 1 (.inl rfl)).pos htotal
    rw [layout, exactLayout, ← hexact]
    dsimp only
    rw [hup, hround]
    exact ⟨rfl, rfl, rfl, hle⟩
theorem placeFields_of_fieldsExtent? : (fs : List (String × Ty)) → (offset align : Nat) →
    (extent : Nat × Nat) → fieldsExtent? fs offset align = some extent →
    placeFields fs offset align = exactFields fs offset align ∧
      (placeFields fs offset align).size = extent.1 ∧ (placeFields fs offset align).align = extent.2
  | [], offset, align, extent, h => by
    cases h
    exact ⟨by rw [placeFields, exactFields], rfl, rfl⟩
  | (name, t) :: fs, offset, align, extent, h => by
    simp only [fieldsExtent?, Option.bind_eq_bind, Option.bind_eq_some_iff] at h
    obtain ⟨⟨size, fieldAlign⟩, ht, start, hstart, next, hnext, h⟩ := h
    obtain ⟨hexact, rfl, rfl, -⟩ := layout_of_extent? t _ ht
    obtain ⟨hup, hround⟩ := alignUp?_eq_some (isWidth_align t).pos hstart
    obtain ⟨hword, rfl⟩ := word?_eq_some.1 hnext
    obtain ⟨hrest, hsize, halign⟩ := placeFields_of_fieldsExtent? fs _ _ _ h
    rw [placeFields, exactFields, ← hexact]
    dsimp only
    rw [hup, hround, saturate, Nat.min_eq_left hword, hrest] at *
    exact ⟨rfl, hsize, halign⟩
end

variable {t : Ty} {size : Nat}

theorem size_of_checkedSize? (h : t.checkedSize? = some size) : t.layout.size = size ∧ t.Addressable := by
  obtain ⟨extent, hextent, rfl⟩ := Option.map_eq_some_iff.1 h
  obtain ⟨-, hsize, -, hle⟩ := layout_of_extent? t extent hextent
  exact ⟨hsize, hsize.trans_le hle⟩

theorem placed_placeFields (fs : List (String × Ty)) (offset align : Nat)
    (h : (placeFields fs offset align).size ≤ maxSize) :
    Placed fs (placeFields fs offset align).offsets offset (placeFields fs offset align).size := by
  induction fs generalizing offset align with
  | nil => exact .nil (Nat.le_refl _)
  | cons field fs ih =>
    obtain ⟨name, t⟩ := field
    rw [placeFields] at h ⊢
    have hrest := ih _ _ h
    have hword : alignUp offset t.layout.align + t.layout.size ≤ maxSize := by
      have hle := hrest.le.trans h
      unfold saturate maxWord at hle
      unfold maxSize at *
      omega
    rw [saturate, Nat.min_eq_left (hword.trans (by decide))] at hrest h ⊢
    refine .cons ((Nat.le_add_left _ _).trans hword) ?_ hrest
    exact le_alignUp_of_le (t.isWidth_align.le.trans (by decide))
      ((Nat.le_add_right _ _).trans hword) (Nat.le_refl _)

/-- The fields of a struct lie in it, one after the other. -/
theorem placed_struct (h : (struct fs).Addressable) :
    Placed fs (struct fs).layout.offsets 0 (struct fs).layout.size := by
  have halign : (placeFields fs 0 1).align ≤ 8 := (isWidth_placeFields fs 0 1 (.inl rfl)).le
  have hsize : (placeFields fs 0 1).size ≤ (struct fs).layout.size := by
    unfold Addressable at h
    rw [layout] at h ⊢
    exact le_alignUp_of_le (halign.trans (by decide)) h (Nat.le_refl _)
  have hplaced := (placed_placeFields fs 0 1 (hsize.trans h)).weaken hsize
  rw [layout] at hplaced ⊢
  exact hplaced

theorem inline_container (hshape : t.fixedShape? = some shape) (h : (container t elem).size ≤ maxSize) :
    (container t elem).storage = .inline (elemExtent elem).1 shape.volume ∧
      (elemExtent elem).1 * shape.volume ≤ (container t elem).size := by
  simp only [container, hshape, plain] at h ⊢
  have hle := le_alignUp_of_le ((isWidth_elemExtent elem).le.trans (by decide)) h (Nat.le_refl _)
  have hbytes : (elemExtent elem).1 * product shape ≤ maxSize := by
    have hle := hle.trans h
    unfold saturate maxWord at hle
    unfold maxSize at *
    omega
  have hproduct : product shape < maxWord :=
    Nat.lt_of_le_of_lt ((Nat.le_mul_of_pos_left _ (elemExtent_pos elem)).trans hbytes) (by decide)
  rw [saturate, Nat.min_eq_left (hbytes.trans (by decide)), product_eq_volume hproduct] at hle ⊢
  exact ⟨rfl, hle⟩

theorem inline_of_fixed (helem : t.element? = some elem)
    (hshape : t.fixedShape? = some shape) (h : t.Addressable) :
    t.layout.storage = .inline (elemExtent elem).1 shape.volume ∧
      (elemExtent elem).1 * shape.volume ≤ t.layout.size := by
  unfold Addressable at h
  cases t with
  | vector e n | tensor e ds =>
    cases helem
    rw [layout] at h ⊢
    exact inline_container hshape h
  | _ => cases helem

/-- The bytes of a tensor whose record has an address are as many as its shape calls for. -/
theorem bytes_of_fixed (helem : t.element? = some elem) (he : elem.asElem? = some e)
    (hshape : t.fixedShape? = some shape) (h : t.Addressable) :
    Word.mul shape.count e.size = e.size * shape.volume ∧ e.size * shape.volume ≤ t.layout.size := by
  obtain ⟨-, hle⟩ := inline_of_fixed helem hshape h
  have hextent : (elemExtent elem).1 = e.size := by rw [elemExtent, he]
  rw [hextent] at hle
  have hlt : e.size * shape.volume < 2 ^ 64 := Nat.lt_of_le_of_lt (hle.trans h) (by decide)
  have hvolume : shape.volume ≤ e.size * shape.volume := Nat.le_mul_of_pos_left _ (View.size_bounds e).1
  rw [Shape.count_of_lt (Nat.lt_of_le_of_lt hvolume hlt), Nat.mul_comm e.size] at *
  exact ⟨Word.mul_of_lt hlt, hle⟩

theorem descriptor_of_dynamic (helem : t.element? = some elem)
    (hds : t.dims? = some ds) (hshape : t.fixedShape? = none) :
    t.layout.storage = .descriptor ds.length ∧ t.layout.size = 8 + 8 * ds.length := by
  have hcontainer : container t elem = plain (extentsOffset + 8 * ds.length) 8 (.descriptor ds.length) := by
    simp [container, hshape, hds]
  cases t with
  | vector e n | tensor e ds =>
    cases helem
    rw [layout, hcontainer]
    exact ⟨rfl, rfl⟩
  | _ => cases helem

end Ty

end NumericEngine
