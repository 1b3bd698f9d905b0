import NumericEngine.Proofs.Scalar.Integers
import NumericEngine.Ty.Promotion

/-!
# Conversion between integers

A conversion keeps the low bits of a word, so it reduces the integer modulo the
width of the target. A type widens only to one that holds all its integers, and
then nothing is lost.
-/

namespace NumericEngine.Scalar

variable {source target : Kind} {w : UInt64}

theorem represents_convert (hs : source.isInt ∨ source = .bool) (ht : target.isInt) (hw : source.Canonical w) :
    target.Represents (convert source target w) (source.toInt w) := by
  by_cases heq : source = target
  · subst heq
    have hsame : convert source source w = w := if_pos rfl
    rw [hsame]
    exact ⟨hw, Kind.inRange_toInt ht hw, .refl _⟩
  · have hcut : convert source target w = target.canonical w := by
      cases target with
      | bool | f32 | f64 => cases ht
      | _ =>
        cases source with
        | f32 | f64 => simp [Kind.isInt] at hs
        | _ => first | rfl | exact absurd rfl heq
    rw [hcut]
    exact Kind.represents_canonical ht ((source.modEq_toInt w).of_dvd (pow_dvd_pow 2 target.width_le)).symm

theorem inRange_of_widensTo (h : (Ty.ofKind source).widensTo (.ofKind target)) (hs : source.isInt)
    (ht : target.isInt) (hv : source.inRange v) : target.inRange v := by
  have hall (k : Kind) : k ∈ Kind.all := by
    cases k <;> decide
  have hwider : ∀ s ∈ Kind.all, ∀ t ∈ Kind.all, s.isInt → t.isInt → (Ty.ofKind s).widensTo (.ofKind t) →
      t.minInt ≤ s.minInt ∧ s.maxInt ≤ t.maxInt := by decide
  obtain ⟨hmin, hmax⟩ := hwider source (hall source) target (hall target) hs ht h
  simp only [Kind.inRange, Bool.and_eq_true, decide_eq_true_eq] at hv ⊢
  exact ⟨hmin.trans hv.1, hv.2.trans hmax⟩

/-- A conversion to an integer kind gives the one word of the kind whose integer is congruent to the old
one; an implicit conversion gives the same integer. -/
theorem integer_conversion_exact (hs : source.isInt ∨ source = .bool) (ht : target.isInt)
    (hw : source.Canonical w) :
    let r := convert source target w
    target.Canonical r ∧
      (target.inRange (target.toInt r) ∧ target.toInt r ≡ source.toInt w [ZMOD 2 ^ target.width]) ∧
      (∀ v, target.inRange v → v ≡ source.toInt w [ZMOD 2 ^ target.width] → v = target.toInt r) ∧
      (source.isInt → (Ty.ofKind source).widensTo (.ofKind target) → target.toInt r = source.toInt w) := by
  intro r
  have hr : target.Represents r (source.toInt w) := represents_convert hs ht hw
  refine ⟨hr.canonical, ⟨hr.inRange, hr.modEq⟩, fun v hv hmod => ?_, fun hint hwiden => ?_⟩
  · exact Kind.eq_of_modEq ht hv hr.inRange (hmod.trans hr.modEq.symm)
  · exact hr.toInt_eq ht (inRange_of_widensTo hwiden hint ht (Kind.inRange_toInt hint hw))

/-- Cut to eight bits, 65408 is -128; widened to sixteen, 200 stays. -/
theorem integer_conversion_exact_cut :
    (∀ v, Kind.i8.inRange v → v ≡ 65408 [ZMOD 2 ^ 8] → v = Kind.i8.toInt (convert .u16 .i8 65408)) ∧
      Kind.i8.toInt (convert .u16 .i8 65408) = -128 ∧ Kind.i16.toInt (convert .u8 .i16 200) = 200 :=
  ⟨(@integer_conversion_exact .u16 .i8 65408 (.inl rfl) rfl (by decide)).2.2.1, by decide,
    (@integer_conversion_exact .u8 .i16 200 (.inl rfl) rfl (by decide)).2.2.2 rfl (by decide)⟩

end NumericEngine.Scalar
