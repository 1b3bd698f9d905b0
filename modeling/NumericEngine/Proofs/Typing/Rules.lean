import NumericEngine.Proofs.Typing.Judgement
import NumericEngine.Typing.Rules

/-!
# The typing rules are sound

A rule that succeeds on well-typed operands gives a well-typed tree. Each lemma
reads the success of one rule as the rule of the node that it makes.
-/

namespace NumericEngine.Typing

open NumericEngine.Except (bind_eq_ok of_ite of_ite_not)
open List hiding count
open Source (Span)

variable {Δ : Context} {V : Visible} {e l r : TExpr} {t : Ty} {span : Span} {e' : TExpr}
  {hint : Option Ty} {a b : Ty}

@[simp] theorem refuse_ne {a : α} : refuse fault = .ok a ↔ False :=
  ⟨fun h => (nomatch h), False.elim⟩

@[simp] theorem refuseAt_ne {a : α} : refuseAt fault span = .ok a ↔ False :=
  ⟨fun h => (nomatch h), False.elim⟩

theorem isInt_iff : t.isInt = true ↔ ∃ k, t = .ofKind k ∧ k.isInt = true := by
  constructor
  · intro h
    obtain ⟨k, hk, hint⟩ := (Option.any_eq_true _ _).1 h
    exact ⟨k, Ty.eq_ofKind hk, hint⟩
  · rintro ⟨k, rfl, hk⟩
    simpa [Ty.isInt] using hk

theorem isFloat_iff : t.isFloat = true ↔ ∃ k, t = .ofKind k ∧ k.isFloat = true := by
  constructor
  · intro h
    obtain ⟨k, hk, hfloat⟩ := (Option.any_eq_true _ _).1 h
    exact ⟨k, Ty.eq_ofKind hk, hfloat⟩
  · rintro ⟨k, rfl, hk⟩
    simpa [Ty.isFloat] using hk

theorem isBool_iff : t.isBool = true ↔ t = .bool := by
  constructor
  · intro h
    exact Ty.eq_ofKind (eq_of_beq h)
  · rintro rfl
    rfl

theorem promote_ok (ha : a.Formed) (hb : b.Formed) (h : promote a b = .ok t) :
    t.IsScalar ∧ (a = t ∨ a.Converts t) ∧ (b = t ∨ b.Converts t) := by
  unfold promote at h
  cases hp : Ty.promote a b with
  | error => simp [hp, Except.mapError] at h
  | ok u =>
    obtain rfl : u = t := by simpa [hp, Except.mapError] using h
    exact Ty.promote_ok ha hb hp

theorem validate_ok (h : validate t = .ok ()) : t.Formed := by
  unfold validate at h
  cases hv : t.validate with
  | error => simp [hv, Except.mapError] at h
  | ok u => exact Ty.formed_of_validate hv

/-! ## Literals and conversions -/

theorem Literal.value_ok {lit : Literal} (h : lit.value hint = .ok v) : v.Valid ∧ v.toElem?.isSome := by
  have hscalar (k : Kind) (w : UInt64) : (Value.ofScalar k w).Valid ∧ (Value.ofScalar k w).toElem?.isSome :=
    ⟨Value.valid_ofScalar k w, rfl⟩
  have hint' {k : Kind} {i : Int} {v : Value} (h : intConst k i = .ok v) : v.Valid ∧ v.toElem?.isSome := by
    unfold intConst at h
    split at h
    · cases h
      exact hscalar _ _
    · simp at h
  have hcomplex {k : Kind} (hk : hint.bind Ty.complexKind? = some k) (w : UInt64) :
      (complexConst k w).Valid ∧ (complexConst k w).toElem?.isSome := by
    obtain ⟨u, -, hu⟩ := Option.bind_eq_some_iff.1 hk
    have hfloat := (Ty.eq_complexOf hu).2
    have hre : k.Canonical ((Floating.ofDouble? k w).getD w) := by
      cases k with
      | f32 => exact Floating.canonical_narrow w
      | f64 => rfl
      | _ => cases hfloat
    exact ⟨(show Value.Plain (fun _ => none) _ _ from
      Value.plain_ofComplex hfloat hre (Kind.canonical_zero k)).valid, rfl⟩
  cases lit with
  | int i =>
    simp only [value] at h
    split at h
    · exact hint' h
    · cases h
      exact hscalar _ _
    · cases h
      exact hcomplex ‹_› _
    · exact hint' h
  | float w =>
    simp only [value] at h
    split at h
    · cases h
      exact hscalar _ _
    · cases h
      exact hcomplex ‹_› _
    · cases h
      exact hscalar _ _

theorem convertTo_ok (he : e.Typed Δ V) (h : e.ty = t ∨ e.ty.Converts t) :
    (convertTo e t).Typed Δ V ∧ (convertTo e t).ty = t := by
  unfold convertTo
  split
  · exact ⟨he, ‹_›⟩
  · exact ⟨he.unary rfl (h.resolve_left ‹_›), rfl⟩

theorem reshapes_ok
    (hfits : ∀ ds es, fits ds es = true → ds.length = es.length) (h : reshapes fits a b = true) :
    ∃ et, a.element? = some et ∧ b.element? = some et ∧ a.rank? = b.rank? := by
  unfold reshapes at h
  split at h
  · rename_i ds es hds hes
    rw [Bool.and_eq_true, beq_iff_eq] at h
    have hrank : a.rank? = b.rank? := by simp [Ty.rank?, hds, hes, hfits ds es h.2]
    cases a with
    | vector et _ | tensor et _ => exact ⟨et, rfl, h.1.symm, hrank⟩
    | _ => cases hds
  · cases h

theorem dimsWiden_length (ds es : List Dim) (h : dimsWiden ds es = true) : ds.length = es.length := by
  rw [dimsWiden, Bool.and_eq_true] at h
  exact eq_of_beq h.1

theorem dimsCastable_length (ds es : List Dim) (h : dimsCastable ds es = true) : ds.length = es.length := by
  rw [dimsCastable, Bool.and_eq_true] at h
  exact eq_of_beq h.1

theorem coerce_ok (he : e.Typed Δ V) (h : coerce e t = .ok e') : e'.Typed Δ V ∧ e'.ty = t := by
  unfold coerce at h
  split at h
  · cases h
    exact ⟨he, ‹_›⟩
  rename_i hne
  split at h
  · rename_i hnum
    cases h
    rw [Bool.and_eq_true, Bool.and_eq_true] at hnum
    exact ⟨he.unary rfl (Ty.converts_of_widensTo hnum.1.1 hnum.1.2 hne hnum.2), rfl⟩
  obtain ⟨_, h⟩ := of_ite h
  cases h
  exact ⟨he.unary rfl (reshapes_ok dimsWiden_length ‹_›), rfl⟩

theorem requireBool_ok (h : requireBool e span = .ok e') : e' = e ∧ e.ty = .bool := by
  unfold requireBool at h
  obtain ⟨_, h⟩ := of_ite h
  cases h
  exact ⟨rfl, isBool_iff.1 ‹_›⟩

theorem castConverts_ok (ht : t.Formed) (h : castConverts a t = true) : a.Converts t := by
  unfold castConverts at h
  rcases Bool.or_eq_true_iff.1 h with h | h
  · exact .inl (Bool.and_eq_true_iff.1 h)
  · split at h
    · exact .inr ⟨Ty.isScalar_of_isNumber h, ht.complexKind⟩
    · cases h

theorem cast_ok (he : e.Typed Δ V) (ht : t.Formed) (h : cast e t span = .ok e') : e'.Typed Δ V := by
  unfold cast at h
  split at h
  · cases h
    exact he
  split at h
  · cases h
    exact he.unary rfl (castConverts_ok ht ‹_›)
  obtain ⟨_, h⟩ := of_ite h
  cases h
  exact he.unary rfl (reshapes_ok dimsCastable_length ‹_›)

/-! ## Operators -/

theorem unary_ok (he : e.Typed Δ V) (h : unary op e checked span = .ok e') : e'.Typed Δ V := by
  cases op with
  | neg =>
    simp only [unary] at h
    obtain ⟨hnum, h⟩ := of_ite h
    cases h
    refine he.unary rfl ⟨rfl, Ty.isScalar_of_isNumber hnum, fun k hk => ?_⟩
    obtain hty := Ty.eq_ofKind hk
    have hne : k ≠ .bool := by
      rintro rfl
      rw [hty] at hnum
      cases hnum
    cases k <;> first | rfl | contradiction
  | not =>
    simp only [unary] at h
    obtain ⟨hint, h⟩ := of_ite h
    cases h
    rw [Bool.or_eq_true, isBool_iff, isInt_iff] at hint
    obtain ⟨k, hty, hk⟩ : ∃ k, e.ty = .ofKind k ∧ k.isFloat = false := by
      rcases hint with hty | ⟨k, hty, hk⟩
      · exact ⟨.bool, hty, rfl⟩
      · exact ⟨k, hty, by cases k <;> first | rfl | cases hk⟩
    refine he.unary rfl ⟨rfl, k, by rw [hty, Ty.kind?_ofKind], ?_⟩
    cases k <;> first | rfl | cases hk

theorem scalarArithType_ok (ha : a.Formed) (hb : b.Formed) (h : scalarArithType op a b = .ok t) :
    ScalarArith op t t t ∧ (a = t ∨ a.Converts t) ∧ (b = t ∨ b.Converts t) := by
  have hint (hi : t.isInt = true) : ScalarArith op t t t := by
    obtain ⟨k, rfl, hk⟩ := isInt_iff.1 hi
    refine ⟨.inl (by simp), rfl, rfl, fun k' hk' => ?_, fun k' hk' => ?_⟩
    · rw [Ty.kind?_ofKind] at hk'
      cases hk'
      cases k <;> first | rfl | cases hk
    · rw [Ty.complexKind?_ofKind] at hk'
      cases hk'
  have hshift {fault : TypeFault} (h : (if a.isInt && b.isInt then .ok a else refuse fault) = .ok t) :
      ScalarArith op t t t ∧ (a = t ∨ a.Converts t) ∧ (b = t ∨ b.Converts t) := by
    obtain ⟨hi, h⟩ := of_ite h
    cases h
    rw [Bool.and_eq_true] at hi
    obtain ⟨k, hk, -⟩ := isInt_iff.1 hi.1
    obtain ⟨k', hk', -⟩ := isInt_iff.1 hi.2
    exact ⟨hint hi.1, .inl rfl, .inr (.inl ⟨by simp [hk'], by simp [hk]⟩)⟩
  have hbits {fault : Ty → TypeFault} (hop : Scalar.supports op .bool = true)
      (h : (do
        let t ← promote a b
        if t.isInt || t.isBool then return t else refuse (fault t)) = .ok t) :
      ScalarArith op t t t ∧ (a = t ∨ a.Converts t) ∧ (b = t ∨ b.Converts t) := by
    obtain ⟨u, hu, h⟩ := bind_eq_ok.1 h
    obtain ⟨hi, h⟩ := of_ite h
    cases h
    refine ⟨?_, (promote_ok ha hb hu).2⟩
    rw [Bool.or_eq_true, isBool_iff] at hi
    rcases hi with hi | rfl
    · exact hint hi
    · refine ⟨.inl rfl, rfl, rfl, fun k hk => ?_, fun k hk => nomatch hk⟩
      cases (Ty.kind?_ofKind .bool).symm.trans hk
      exact hop
  -- the operators that floats have: not on booleans, and no remainder of complex numbers
  have hnum (hop : op.onFloats = true)
      (h : (do
        let t ← promote a b
        if t.isBool || (t.complexKind?.isSome && op == ArithOp.rem) then refuse (.arithOperand op t)
        else return t) = .ok t) :
      ScalarArith op t t t ∧ (a = t ∨ a.Converts t) ∧ (b = t ∨ b.Converts t) := by
    obtain ⟨u, hu, h⟩ := bind_eq_ok.1 h
    obtain ⟨hneg, h⟩ := of_ite_not h
    cases h
    simp only [Bool.or_eq_true, Bool.and_eq_true, not_or, not_and] at hneg
    obtain ⟨hscalar, hconv⟩ := promote_ok ha hb hu
    refine ⟨⟨hscalar, rfl, rfl, fun k hk => ?_, fun k hk => ?_⟩, hconv⟩
    · cases k with
      | bool => exact absurd (isBool_iff.2 (Ty.eq_ofKind hk)) hneg.1
      | f32 | f64 => exact hop
      | _ => rfl
    · have hrem := hneg.2 (by rw [hk]; rfl)
      cases op <;> first | rfl | exact absurd rfl hrem | cases hop
  cases op with
  | shl | shr => exact hshift h
  | and | or | xor => exact hbits rfl h
  | add | sub | mul | div | rem => exact hnum rfl h

theorem mergeDims_cons {e : Dim} {a b : List Dim} (h : mergeDims (d :: a) (e :: b) = .ok ds) :
    ∃ m ds', mergeDims a b = .ok ds' ∧ ds = m :: ds' ∧ (m = d ∨ m = e) := by
  simp only [mergeDims, pure_bind] at h
  split at h
  · obtain ⟨-, h⟩ := of_ite h
    obtain ⟨ds', hds, h⟩ := bind_eq_ok.1 h
    cases h
    exact ⟨_, ds', hds, rfl, .inl rfl⟩
  · obtain ⟨ds', hds, h⟩ := bind_eq_ok.1 h
    cases h
    exact ⟨_, ds', hds, rfl, .inl rfl⟩
  · obtain ⟨ds', hds, h⟩ := bind_eq_ok.1 h
    cases h
    exact ⟨_, ds', hds, rfl, .inr rfl⟩

theorem mergeDims_ok {a b : List Dim} (h : mergeDims a b = .ok ds) (hlen : a.length = b.length)
    (ha : Shape.Conforms (a.map Dim.extent?) shape = true)
    (hb : Shape.Conforms (b.map Dim.extent?) shape = true) :
    Shape.Conforms (ds.map Dim.extent?) shape = true := by
  induction a generalizing b ds shape with
  | nil =>
    obtain rfl : b = [] := length_eq_zero_iff.1 hlen.symm
    cases h
    exact ha
  | cons d a ih =>
    obtain ⟨e, b, rfl⟩ := exists_cons_of_length_eq_add_one (hlen.symm.trans (length_cons ..))
    cases shape with
    | nil => simp [Shape.Conforms] at ha
    | cons n shape =>
      obtain ⟨m, ds', hds, rfl, hm⟩ := mergeDims_cons h
      simp only [Shape.Conforms, map_cons, length_cons, zip_cons_cons, all_cons,
        Bool.and_eq_true, beq_iff_eq, Nat.add_right_cancel_iff] at ha hb ih ⊢
      have hrest := ih hds (Nat.succ.inj hlen) ⟨ha.1, ha.2.2⟩ ⟨hb.1, hb.2.2⟩
      refine ⟨hrest.1, ?_, hrest.2⟩
      rcases hm with rfl | rfl
      · exact ha.2.1
      · exact hb.2.1

theorem mergeDims_length {a b : List Dim} (h : mergeDims a b = .ok ds) (hlen : a.length = b.length) :
    ds.length = a.length := by
  induction a generalizing b ds with
  | nil =>
    cases h
    rfl
  | cons d a ih =>
    obtain ⟨e, b, rfl⟩ := exists_cons_of_length_eq_add_one (hlen.symm.trans (length_cons ..))
    obtain ⟨m, ds', hds, rfl, -⟩ := mergeDims_cons h
    rw [length_cons, length_cons, ih hds (Nat.succ.inj hlen)]

theorem elementwiseType_ok {op : ArithOp} (h : elementwiseType op a b = .ok t) :
    (∃ et, a.element? = some et) → ElementArith op a b t := by
  rintro ⟨et, ha⟩
  unfold elementwiseType at h
  obtain ⟨hop, h⟩ := of_ite_not h
  obtain ⟨hel, h⟩ := of_ite_not h
  have hb : b.element? = some et := by rw [← Decidable.not_not.1 hel, ha]
  simp only [ha, Option.getD_some] at h
  obtain ⟨hrem, h⟩ := of_ite_not h
  have hsupports : ∀ e, et.asElem? = some e → e.supports op = true := by
    have hop : op.onFloats = true := by simpa using hop
    intro e he
    have hnum := Ty.asElem_numeric he
    have hty := Ty.eq_ofElem he
    cases e with
    | real k =>
      cases k with
      | bool => exact absurd rfl hnum
      | f32 | f64 => exact hop
      | _ => rfl
    | complex k =>
      have hk : et.complexKind? = some k := by rw [hty]; exact Ty.complexKind?_complexOf hnum
      have hrem : op ≠ .rem := fun h => hrem ⟨h, by rw [hk]; rfl⟩
      cases op <;> first | rfl | exact absurd rfl hrem | cases hop
  split at h
  · obtain ⟨-, h⟩ := of_ite h
    cases h
    exact ⟨⟨et, ha, hb, ha, hsupports⟩, fun shape h _ => h, rfl, rfl⟩
  · rename_i ea da eb db
    obtain ⟨ds, hds, rfl⟩ := Except.map_eq_ok.1 h
    unfold mergeShapes at hds
    obtain ⟨hlen, hds⟩ := of_ite hds
    refine ⟨⟨et, ha, hb, rfl, hsupports⟩, ?_, ?_⟩
    · rintro shape ⟨_, hda, hca⟩ ⟨_, hdb, hcb⟩
      cases hda
      cases hdb
      exact ⟨_, rfl, mergeDims_ok hds hlen hca hcb⟩
    · have := mergeDims_length hds hlen
      simp [Ty.rank?, Ty.dims?, this, hlen]
  · simp at h

theorem element_of_isContainer (h : t.isContainer = true) : ∃ et, t.element? = some et := by
  cases t with
  | vector et _ | tensor et _ => exact ⟨et, rfl⟩
  | _ => cases h

theorem scale_ok (hl : l.Typed Δ V) (hr : r.Typed Δ V)
    (hc : l.ty.isContainer = true) (h : scale l r checked span = .ok e') : e'.Typed Δ V := by
  obtain ⟨f, hf, h⟩ := bind_eq_ok.1 h
  cases h
  obtain ⟨et, het⟩ := element_of_isContainer hc
  obtain ⟨hf, hty⟩ := coerce_ok hr hf
  refine hl.binary hf rfl ⟨rfl, ?_⟩
  rw [hty, het]
  rfl

theorem arith_ok (hΔ : Δ.Formed) (hl : l.Typed Δ V)
    (hr : r.Typed Δ V) (h : arith op l r checked span = .ok e') : e'.Typed Δ V := by
  unfold arith at h
  split at h
  · obtain ⟨t, ht, h⟩ := bind_eq_ok.1 h
    cases h
    exact hl.binary hr rfl (.inr (elementwiseType_ok ht (element_of_isContainer ‹_›)))
  · exact scale_ok hl hr ‹_› h
  · exact scale_ok hr hl ‹_› h
  · obtain ⟨t, ht, h⟩ := bind_eq_ok.1 h
    cases h
    obtain ⟨harith, hcl, hcr⟩ := scalarArithType_ok (hl.formed hΔ) (hr.formed hΔ) ht
    obtain ⟨hl, hlt⟩ := convertTo_ok hl hcl
    obtain ⟨hr, hrt⟩ := convertTo_ok hr hcr
    exact hl.binary hr rfl (.inl ⟨harith.scalar, hlt, hrt, harith.real, harith.complex⟩)
  · simp at h

theorem compare_ok (hΔ : Δ.Formed) (hl : l.Typed Δ V) (hr : r.Typed Δ V)
    (h : compare op l r span = .ok e') : e'.Typed Δ V := by
  obtain ⟨t, ht, h⟩ := bind_eq_ok.1 h
  obtain ⟨hop, h⟩ := of_ite_not h
  cases h
  obtain ⟨hscalar, hcl, hcr⟩ := promote_ok (hl.formed hΔ) (hr.formed hΔ) ht
  obtain ⟨hl, hlt⟩ := convertTo_ok hl hcl
  obtain ⟨hr, hrt⟩ := convertTo_ok hr hcr
  refine hl.binary hr rfl ⟨rfl, hlt.trans hrt.symm, by rw [hlt]; exact hscalar, fun hk => ?_⟩
  rw [hlt] at hk
  have hnum : t.isNumeric = false := by simp [Ty.isNumeric, Ty.isInt, Ty.isFloat, hk]
  by_contra hne
  rw [not_or] at hne
  exact hop ⟨hne.1, hne.2, by rw [hnum]; rfl⟩

theorem conditional_ok {c : TExpr} (hc : c.Typed Δ V) (hcb : c.ty = .bool) (hl : l.Typed Δ V)
    (hr : r.Typed Δ V) (h : conditional c l r span = .ok e') : e'.Typed Δ V := by
  have hfin (t : Ty) (h : (do return TExpr.mk t (.ite c (← coerce l t) (← coerce r t)) span : Rule TExpr) =
    .ok e') :
      e'.Typed Δ V := by
    obtain ⟨a, ha, h⟩ := bind_eq_ok.1 h
    obtain ⟨b, hb, h⟩ := bind_eq_ok.1 h
    cases h
    obtain ⟨ha, hat⟩ := coerce_ok hl ha
    obtain ⟨hb, hbt⟩ := coerce_ok hr hb
    exact .mk (by simpa [TNode.operands] using ⟨hc, ha, hb⟩) ⟨hcb, hat, hbt⟩
  unfold conditional at h
  split at h
  · exact hfin _ h
  · obtain ⟨t, -, h⟩ := bind_eq_ok.1 h
    exact hfin t h

/-! ## Structured values -/

theorem floatPart_ok (hhint : ∀ h ∈ hint, h.isFloat = true)
    (h : floatPart u hint = .ok t) : u.isFloat = true ∧ t.isFloat = true := by
  unfold floatPart at h
  obtain ⟨hfloat, h⟩ := of_ite h
  refine ⟨hfloat, ?_⟩
  split at h
  · cases h
    split
    · exact hhint _ rfl
    · exact hfloat
  · cases h
    exact hfloat

theorem complexPartType_ok (ha : a.Formed) (hb : b.Formed)
    (hhint : ∀ h ∈ hint, h.isFloat = true) (h : complexPartType a b hint = .ok t) :
    t.isFloat = true ∧ a.kind?.isSome = true ∧ b.kind?.isSome = true := by
  obtain ⟨u, hu, h⟩ := bind_eq_ok.1 h
  obtain ⟨-, hau, hbu⟩ := promote_ok ha hb hu
  obtain ⟨hku, ht⟩ : u.kind?.isSome = true ∧ t.isFloat = true := by
    split at h
    · obtain ⟨w, -, h⟩ := bind_eq_ok.1 h
      exact ⟨Option.isSome_of_any ‹_›, (floatPart_ok hhint h).2⟩
    · obtain ⟨hfloat, ht⟩ := floatPart_ok hhint h
      exact ⟨Option.isSome_of_any hfloat, ht⟩
  have hreal {v : Ty} (hv : v = u ∨ v.Converts u) : v.kind?.isSome = true :=
    hv.elim (fun h => h ▸ hku) fun h => h.real hku
  exact ⟨ht, hreal hau, hreal hbu⟩

theorem makeComplex_ok (hΔ : Δ.Formed) (hl : l.Typed Δ V) (hr : r.Typed Δ V)
    (hhint : ∀ h ∈ hint, h.isFloat = true) (h : makeComplex l r hint span = .ok e') : e'.Typed Δ V := by
  obtain ⟨t, ht, h⟩ := bind_eq_ok.1 h
  cases h
  obtain ⟨hfloat, hkl, hkr⟩ := complexPartType_ok (hl.formed hΔ) (hr.formed hΔ) hhint ht
  have hkt : t.kind?.isSome = true := Option.isSome_of_any hfloat
  obtain ⟨hl, hlt⟩ := convertTo_ok hl (.inr (.inl ⟨hkl, hkt⟩))
  obtain ⟨hr, hrt⟩ := convertTo_ok hr (.inr (.inl ⟨hkr, hkt⟩))
  exact hl.binary hr rfl ⟨by rw [hlt], hrt.trans hlt.symm, by rw [hlt]; exact hfloat⟩

theorem elements_ok (hes : ∀ e ∈ es, e.Typed Δ V) (h : elements hint es = .ok (t, es')) :
    t.asElem?.isSome = true ∧ (∀ e ∈ es', e.Typed Δ V ∧ e.ty = t) ∧ es'.length = es.length := by
  obtain ⟨u, -, h⟩ := bind_eq_ok.1 h
  obtain ⟨hel, h⟩ := of_ite_not h
  obtain ⟨fs, hfs, h⟩ := bind_eq_ok.1 h
  cases h
  refine ⟨Option.isSome_iff_ne_none.2 (by simpa using hel), fun e he => ?_,
    (mapM_eq_ok.1 hfs).length_eq.symm⟩
  obtain ⟨e₀, he₀, hco⟩ := forall₂_exists_left (mapM_eq_ok.1 hfs) he
  exact coerce_ok (hes e₀ he₀) hco

theorem vector_ok (hes : ∀ e ∈ es, e.Typed Δ V) (h : vector hint es span = .ok e') : e'.Typed Δ V := by
  obtain ⟨⟨t, es'⟩, hel, h⟩ := bind_eq_ok.1 h
  cases h
  obtain ⟨hsome, hel, -⟩ := elements_ok hes hel
  refine .mk (fun e he => (hel e he).1)
    ⟨t, _, rfl, hsome, rfl, fun e he => (hel e he).2, fun hlen => ?_⟩
  simp [Shape.count, Word.mul, Nat.mod_eq_of_lt hlen]

theorem fixedShape?_fixed (shape : Shape) : (Ty.tensor t (shape.map .fixed)).fixedShape? = some shape := by
  simp only [Ty.fixedShape?, Ty.dims?, Option.bind_some]
  induction shape with
  | nil => rfl
  | cons n shape ih => simp [Dim.extent?, ih]

theorem tensor_ok {shape : Shape} (hes : ∀ e ∈ es, e.Typed Δ V) (hcount : shape.count = es.length)
    (h : tensor shape hint es span = .ok e') : e'.Typed Δ V := by
  obtain ⟨⟨t, es'⟩, hel, h⟩ := bind_eq_ok.1 h
  cases h
  obtain ⟨hsome, hel, hlen⟩ := elements_ok hes hel
  exact .mk (fun e he => (hel e he).1) ⟨t, shape, rfl, hsome, fixedShape?_fixed shape,
    fun e he => (hel e he).2, fun _ => hcount.trans hlen.symm⟩

theorem makeStruct_ok (hfs : ∀ f ∈ fs, f.2.Typed Δ V)
    (hplain : ∀ f ∈ fs, f.2.ty.holdsReference = false) : (makeStruct fs span).Typed Δ V := by
  refine .mk ?_ ⟨_, rfl, by simp, ?_⟩
  · intro e he
    obtain ⟨f, hf, rfl⟩ := mem_map.1 he
    exact hfs f hf
  · rw [Ty.holdsReference, Value.fieldsHoldReference_iff]
    intro d hd
    obtain ⟨f, hf, rfl⟩ := mem_map.1 hd
    exact hplain f hf

theorem findField_ok
    (h : findField decl name = some (i, t)) : ∃ j d, i = UInt32.ofNat j ∧ decl[j]? = some d ∧ d.2 = t := by
  obtain ⟨j, -, h⟩ := Option.bind_eq_some_iff.1 h
  obtain ⟨d, hd, h⟩ := Option.map_eq_some_iff.1 h
  cases h
  exact ⟨j, d, rfl, hd, rfl⟩

theorem field_ok (he : e.Typed Δ V) (h : field e name span = .ok e') : e'.Typed Δ V := by
  unfold field at h
  split at h
  · rename_i decl hdecl
    split at h
    · rename_i i t hfind
      cases h
      obtain ⟨j, d, hj, hd, ht⟩ := findField_ok hfind
      exact he.unary rfl ⟨decl, j, d, hdecl, hj, hd, ht⟩
    · simp at h
  · simp at h

theorem indexed_ok (h : indexed e count = .ok t) : e.ty.element? = some t ∧ e.ty.rank? = some count := by
  unfold indexed at h
  split at h
  · rename_i hds hel
    obtain ⟨hlen, h⟩ := of_ite h
    cases h
    exact ⟨hel, by simp [Ty.rank?, hds, hlen]⟩
  · simp at h

theorem indexOperand_ok (he : e.Typed Δ V) (h : indexOperand e span = .ok e') :
    e'.Typed Δ V ∧ e'.ty = .i64 := by
  unfold indexOperand at h
  obtain ⟨hint, h⟩ := of_ite h
  cases h
  exact convertTo_ok he (.inr (.inl ⟨Option.isSome_of_any hint, rfl⟩))

theorem deref_ok (he : e.Typed Δ V) (h : deref e span = .ok e') : e'.Typed Δ V := by
  unfold deref at h
  split at h
  · cases h
    exact he.unary rfl ⟨_, ‹_›⟩
  · simp at h

/-! ## Intrinsics -/

theorem dot_ok (hl : l.Typed Δ V) (hr : r.Typed Δ V) (h : dot l r span = .ok e') : e'.Typed Δ V := by
  unfold dot at h
  split at h
  · rename_i da db hda hdb
    obtain ⟨hone, h⟩ := of_ite_not h
    rw [not_or, Decidable.not_not, Decidable.not_not] at hone
    obtain ⟨_, -, h⟩ := bind_eq_ok.1 h
    obtain ⟨hel, h⟩ := of_ite_not h
    cases h
    have hel := Decidable.not_not.1 hel
    obtain ⟨et, het⟩ : ∃ et, l.ty.element? = some et := by
      cases hl : l.ty with
      | vector et _ | tensor et _ => exact ⟨et, rfl⟩
      | _ => simp [hl, Ty.dims?] at hda
    rw [het, Option.getD_some]
    exact hl.binary hr rfl ⟨het, hel ▸ het, by simp [Ty.rank?, hda, hone.1],
      by simp [Ty.rank?, hdb, hone.2]⟩
  · simp at h

theorem matmul_ok (hl : l.Typed Δ V) (hr : r.Typed Δ V) (h : matmul l r span = .ok e') : e'.Typed Δ V := by
  unfold matmul at h
  split at h
  · rename_i ea da eb db hlt hrt
    split at h
    · simp at h
    rename_i hel
    obtain rfl := Decidable.not_not.1 hel
    split at h
    · obtain ⟨_, -, h⟩ := bind_eq_ok.1 h
      obtain ⟨_, -, h⟩ := bind_eq_ok.1 h
      cases h
      exact hl.binary hr rfl ⟨ea, by rw [hlt]; rfl, by rw [hrt]; rfl, rfl, by rw [hlt]; rfl,
        by rw [hrt]; rfl, rfl⟩
    · simp at h
  · simp at h

theorem intrinsic_ok (hes : ∀ e ∈ es, e.Typed Δ V) (h : intrinsic op es span = .ok e') : e'.Typed Δ V := by
  unfold intrinsic at h
  split at h
  · rename_i e
    obtain ⟨hf, h⟩ := of_ite h
    cases h
    obtain ⟨k, hty, hk⟩ := isFloat_iff.1 hf
    refine (hes e mem_cons_self).unary rfl ⟨rfl, k, by rw [hty, Ty.kind?_ofKind], ?_⟩
    cases k <;> first | rfl | cases hk
  · rename_i e
    obtain ⟨hn, h⟩ := of_ite h
    cases h
    obtain ⟨k, hty, hk⟩ : ∃ k, e.ty = .ofKind k ∧ k ≠ .bool := by
      rw [Ty.isNumeric, Bool.or_eq_true, isInt_iff, isFloat_iff] at hn
      rcases hn with ⟨k, hty, hk⟩ | ⟨k, hty, hk⟩ <;> exact ⟨k, hty, by rintro rfl; cases hk⟩
    refine (hes e mem_cons_self).unary rfl ⟨rfl, k, by rw [hty, Ty.kind?_ofKind], ?_⟩
    cases k <;> first | rfl | exact absurd rfl hk
  · rename_i e
    obtain ⟨_, h⟩ := of_ite h
    cases h
    exact (hes e mem_cons_self).unary rfl ⟨rfl, ‹_›⟩
  · rename_i e
    split at h
    · cases h
      exact (hes e mem_cons_self).unary rfl ⟨_, ‹_›, rfl⟩
    · simp at h
  · rename_i e
    split at h
    · cases h
      exact (hes e mem_cons_self).unary rfl ⟨_, ‹_›, rfl⟩
    · simp at h
  · rename_i e
    split at h
    · cases h
      exact (hes e mem_cons_self).unary rfl ‹_›
    · simp at h
  · rename_i e
    split at h
    · obtain ⟨_, h⟩ := of_ite h
      cases h
      exact (hes e mem_cons_self).unary rfl ⟨rfl, _, ‹_›, ‹_›⟩
    · simp at h
  · exact dot_ok (hes _ mem_cons_self) (hes _ (by simp)) h
  · exact matmul_ok (hes _ mem_cons_self) (hes _ (by simp)) h
  · simp at h

end NumericEngine.Typing
