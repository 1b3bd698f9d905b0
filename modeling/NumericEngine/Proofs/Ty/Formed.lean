import NumericEngine.Proofs.Value.Typing
import NumericEngine.Ty.Promotion
import NumericEngine.Ty.Validity

/-!
# Well-formed types

`Ty.Formed` states the element rules of a type without its size: primitives
exist, containers hold numbers, complex components are floats. Promotion of
well-formed types gives a number or a boolean, to which both operands convert.
-/

namespace NumericEngine

namespace Ty

variable {t : Ty}

mutual
/-- A type that keeps the element rules. -/
def Formed : Ty → Prop
  | prim p w => (prim p w).kind?.isSome = true
  | vector e _ | tensor e _ => e.asElem?.isSome = true
  | complex e => e.isFloat = true
  | struct fs => FormedFields fs
  | function ps r => FormedAll ps ∧ r.Formed
  | reference t _ => t.Formed
def FormedAll : List Ty → Prop
  | [] => True
  | t :: ts => t.Formed ∧ FormedAll ts
def FormedFields : List (String × Ty) → Prop
  | [] => True
  | (_, t) :: fs => t.Formed ∧ FormedFields fs
end

theorem formedAll_iff : FormedAll ts ↔ ∀ t ∈ ts, t.Formed := by
  induction ts with
  | nil => simp [FormedAll]
  | cons t ts ih => simp [FormedAll, ih]

theorem formedFields_iff : FormedFields fs ↔ ∀ f ∈ fs, f.2.Formed := by
  induction fs with
  | nil => simp [FormedFields]
  | cons f fs ih => simp [FormedFields, ih]

mutual
theorem formed_of_checkElements : (t : Ty) → t.checkElements = .ok () → t.Formed
  | prim p w, h | vector e _, h | tensor e _, h | complex e, h => by
    simp only [checkElements] at h
    split at h
    · assumption
    · cases h
  | struct fs, h => formed_of_checkFields fs (by simpa only [checkElements] using h)
  | function ps r, h => by
    simp only [checkElements] at h
    obtain ⟨_, hps, h⟩ := Except.bind_eq_ok.1 h
    obtain ⟨_, hr, -⟩ := Except.bind_eq_ok.1 h
    exact ⟨formed_of_checkParams ps hps, formed_of_checkElements r hr⟩
  | reference t _, h => by
    simp only [checkElements] at h
    obtain ⟨_, ht, -⟩ := Except.bind_eq_ok.1 h
    exact formed_of_checkElements t ht
theorem formed_of_checkParams : (ts : List Ty) → checkParams ts = .ok () → FormedAll ts
  | [], _ => trivial
  | t :: ts, h => by
    simp only [checkParams] at h
    obtain ⟨_, ht, h⟩ := Except.bind_eq_ok.1 h
    obtain ⟨_, -, h⟩ := Except.bind_eq_ok.1 h
    exact ⟨formed_of_checkElements t ht, formed_of_checkParams ts h⟩
theorem formed_of_checkFields : (fs : List (String × Ty)) → checkFields fs = .ok () → FormedFields fs
  | [], _ => trivial
  | (_, t) :: fs, h => by
    simp only [checkFields] at h
    obtain ⟨_, ht, h⟩ := Except.bind_eq_ok.1 h
    exact ⟨formed_of_checkElements t ht, formed_of_checkFields fs h⟩
end

theorem formed_of_validate (h : t.validate = .ok ()) : t.Formed := by
  obtain ⟨_, ht, -⟩ := Except.bind_eq_ok.1 h
  exact formed_of_checkElements t ht

@[simp] theorem formed_ofKind (k : Kind) : (ofKind k).Formed := by
  cases k <;> rfl

theorem formed_of_kind (h : t.kind?.isSome = true) : t.Formed := by
  obtain ⟨k, hk⟩ := Option.isSome_iff_exists.1 h
  exact eq_ofKind hk ▸ formed_ofKind k

theorem isFloat_ofKind (k : Kind) : (ofKind k).isFloat = k.isFloat := by
  simp [isFloat]

theorem formed_of_complexKind (h : t.complexKind?.isSome = true) : t.Formed := by
  obtain ⟨k, hk⟩ := Option.isSome_iff_exists.1 h
  obtain ⟨rfl, hfloat⟩ := eq_complexOf hk
  exact (isFloat_ofKind k).trans hfloat

theorem formed_of_asElem (h : t.asElem?.isSome = true) : t.Formed := by
  unfold asElem? at h
  split at h
  · cases h
  · exact formed_of_kind (by simp [*])
  · exact formed_of_complexKind (by simpa using h)

theorem Formed.element {t : Ty} (h : t.Formed) (he : t.element? = some et) : et.asElem?.isSome = true := by
  cases t with
  | vector e n | tensor e n =>
    cases he
    exact h
  | _ => cases he

theorem formed_of_element {t : Ty} (he : t.element? = some et) (h : et.asElem?.isSome = true) :
    t.Formed := by
  cases t with
  | vector e n | tensor e n =>
    cases he
    exact h
  | _ => cases he

theorem Formed.field (h : (struct decl).Formed) {j : Nat} (hd : decl[j]? = some d) : d.2.Formed :=
  formedFields_iff.1 h d (List.mem_of_getElem? hd)

/-! ## Conversion and promotion -/

/-- Real and complex numbers, and booleans. -/
def IsScalar (t : Ty) : Prop := t.kind?.isSome = true ∨ t.complexKind?.isSome = true

/-- Whether there is a conversion between numbers: a real number becomes any number, a complex
number only another complex number. -/
def Converts (source target : Ty) : Prop :=
  (source.kind?.isSome = true ∧ target.kind?.isSome = true) ∨
    (source.IsScalar ∧ target.complexKind?.isSome = true)

theorem IsScalar.formed (h : t.IsScalar) : t.Formed :=
  h.elim formed_of_kind formed_of_complexKind

theorem Converts.formed {s : Ty} (h : s.Converts t) : t.Formed :=
  h.elim (fun h => formed_of_kind h.2) fun h => formed_of_complexKind h.2

theorem Converts.real {s : Ty} (h : s.Converts t) (ht : t.kind?.isSome = true) : s.kind?.isSome = true := by
  rcases h with h | ⟨-, hc⟩
  · exact h.1
  · obtain ⟨k, hk⟩ := Option.isSome_iff_exists.1 ht
    simp [eq_ofKind hk] at hc

theorem IsScalar.isContainer (h : t.IsScalar) : t.isContainer = false := by
  cases t with
  | vector | tensor => rcases h with h | h <;> cases h
  | _ => rfl

theorem isScalar_of_isNumber (h : t.isNumber = true) : t.IsScalar := by
  simp only [isNumber, isNumeric, isInt, isFloat, Bool.or_eq_true, Option.any_eq_true] at h
  rcases h with (⟨k, hk, -⟩ | ⟨k, hk, -⟩) | h
  · exact .inl (by rw [hk]; rfl)
  · exact .inl (by rw [hk]; rfl)
  · exact .inr h

theorem Formed.complexKind (h : (complex e).Formed) : (complex e).complexKind?.isSome = true := by
  obtain ⟨k, hk, hfloat⟩ := (Option.any_eq_true _ _).1 (show e.kind?.any (·.isFloat) = true from h)
  simp [complexKind?, hk, hfloat]

theorem promotePrim_ofKind (h : promotePrim (ofKind k) (ofKind k') = .ok t) : t.kind?.isSome = true := by
  cases k <;> cases k' <;> cases h <;> rfl

theorem promotePrim_ok {a b : Ty} (ha : a.Formed) (hb : b.Formed) (h : promotePrim a b = .ok t) :
    a.kind?.isSome = true ∧ b.kind?.isSome = true ∧ t.kind?.isSome = true := by
  cases a with
  | prim p w =>
    cases b with
    | prim p' w' =>
      obtain ⟨k, hk⟩ := Option.isSome_iff_exists.1 ha
      obtain ⟨k', hk'⟩ := Option.isSome_iff_exists.1 hb
      rw [eq_ofKind hk, eq_ofKind hk'] at h
      exact ⟨ha, hb, promotePrim_ofKind h⟩
    | _ => cases h
  | _ => cases h

theorem promotePrim_component {a : Ty} (ha : a.Formed) (he : (complex e).Formed)
    (h : promotePrim a e = .ok t) : a.kind?.isSome = true ∧ (complex t).complexKind?.isSome = true := by
  have hfloat {k k' : Kind} (hk : k'.isFloat = true)
      (h : promotePrim (ofKind k) (ofKind k') = .ok t) : t.isFloat = true := by
    cases k' <;> cases hk <;> cases k <;> cases h <;> rfl
  obtain ⟨k', hk', hf⟩ := (Option.any_eq_true _ _).1 (show e.kind?.any (·.isFloat) = true from he)
  obtain ⟨hak, -, -⟩ := promotePrim_ok ha (formed_of_kind (by rw [hk']; rfl)) h
  obtain ⟨k, hk⟩ := Option.isSome_iff_exists.1 hak
  rw [eq_ofKind hk, eq_ofKind hk'] at h
  exact ⟨hak, Formed.complexKind (hfloat hf h)⟩

/-- The common type of two operands is a scalar, to which both convert. -/
theorem promote_ok {a b : Ty} (ha : a.Formed) (hb : b.Formed) (h : promote a b = .ok t) :
    t.IsScalar ∧ (a = t ∨ a.Converts t) ∧ (b = t ∨ b.Converts t) := by
  unfold promote at h
  split at h
  · subst b
    cases a with
    | prim p w =>
      cases h
      exact ⟨.inl ha, .inl rfl, .inl rfl⟩
    | complex e =>
      cases h
      exact ⟨.inr ha.complexKind, .inl rfl, .inl rfl⟩
    | _ => cases h
  split at h
  · obtain ⟨u, hu, rfl⟩ := Except.map_eq_ok.1 h
    have hea := formed_of_kind (Option.isSome_of_any (show _ = true from ha))
    obtain ⟨-, hc⟩ := promotePrim_component hea hb hu
    exact ⟨.inr hc, .inr (.inr ⟨.inr ha.complexKind, hc⟩), .inr (.inr ⟨.inr hb.complexKind, hc⟩)⟩
  · split at h
    · obtain ⟨u, hu, rfl⟩ := Except.map_eq_ok.1 h
      obtain ⟨hk, hc⟩ := promotePrim_component hb ha hu
      exact ⟨.inr hc, .inr (.inr ⟨.inr ha.complexKind, hc⟩), .inr (.inr ⟨.inl hk, hc⟩)⟩
    · cases h
  · split at h
    · obtain ⟨u, hu, rfl⟩ := Except.map_eq_ok.1 h
      obtain ⟨hk, hc⟩ := promotePrim_component ha hb hu
      exact ⟨.inr hc, .inr (.inr ⟨.inl hk, hc⟩), .inr (.inr ⟨.inr hb.complexKind, hc⟩)⟩
    · cases h
  · obtain ⟨hka, hkb, hkt⟩ := promotePrim_ok ha hb h
    exact ⟨.inl hkt, .inr (.inl ⟨hka, hkt⟩), .inr (.inl ⟨hkb, hkt⟩)⟩

theorem converts_of_widensTo {a b : Ty} (ha : a.isNumber = true) (hb : b.isNumber = true)
    (hne : a ≠ b) (h : a.widensTo b = true) : a.Converts b := by
  have ha := isScalar_of_isNumber ha
  rcases isScalar_of_isNumber hb with hb' | hb'
  · simp only [widensTo, Bool.or_eq_true, beq_iff_eq, hne, false_or, Bool.and_eq_true] at h
    have h := h.2
    split at h
    · rename_i t ht
      obtain rfl := eq_of_beq h
      obtain ⟨-, hconv | hconv, -⟩ := promote_ok ha.formed (formed_of_kind hb') ht
      · exact absurd hconv hne
      · exact hconv
    · cases h
  · exact .inr ⟨ha, hb'⟩

end Ty

theorem Value.formed_of_valid {v : Value} (hv : v.Valid) (he : v.toElem?.isSome) : v.ty.Formed := by
  cases v with
  | scalar t w =>
    obtain ⟨k, rfl, -⟩ := valid_scalar hv
    exact Ty.formed_of_kind (by simp [Value.ty])
  | complex t re im =>
    obtain ⟨k, rfl, hk, -⟩ := valid_complex hv
    exact Ty.formed_of_complexKind (by simp [Value.ty, hk])
  | _ => cases he

end NumericEngine
