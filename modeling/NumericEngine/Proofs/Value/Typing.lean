import NumericEngine.Proofs.Tensor.Kernels

/-!
# Values of a type

What it means for a value to have a type while a function runs: it is valid, the
functions it holds are functions of the module, and it holds no reference,
unless it is a reference itself. The type of a reference is told up to its
mutability.
-/

namespace NumericEngine

namespace Ty

variable {t : Ty}

/-- Equal up to the mutability of a reference. -/
def Same (a b : Ty) : Prop := a = b ∨ ∃ t m m', a = .reference t m ∧ b = .reference t m'

theorem Same.refl (t : Ty) : Same t t := .inl rfl

theorem Same.symm (h : Same a b) : Same b a := by
  rcases h with rfl | ⟨t, m, m', rfl, rfl⟩
  · exact .inl rfl
  · exact .inr ⟨t, m', m, rfl, rfl⟩

theorem Same.trans (h : Same a b) (h' : Same b c) : Same a c := by
  rcases h with rfl | ⟨t, m, m', rfl, rfl⟩
  · exact h'
  · rcases h' with rfl | ⟨t', n, n', h, rfl⟩
    · exact .inr ⟨t, m, m', rfl, rfl⟩
    · cases h
      exact .inr ⟨t, m, n', rfl, rfl⟩

theorem Same.eq (h : Same a b) (hb : b.holdsReference = false) : a = b := by
  rcases h with rfl | ⟨t, m, m', rfl, rfl⟩
  · rfl
  · simp [holdsReference] at hb

theorem Same.of_reference (h : Same a (.reference t m)) : ∃ m', a = .reference t m' := by
  rcases h with rfl | ⟨t', m', n, rfl, h⟩
  · exact ⟨m, rfl⟩
  · cases h
    exact ⟨m', rfl⟩

theorem eq_ofKind (h : t.kind? = some k) : t = ofKind k := by
  cases t with
  | prim p w =>
    have := List.find?_some (show Kind.all.find? (fun k => ofKind k == prim p w) = some k from h)
    exact (eq_of_beq this).symm
  | _ => cases h

theorem eq_complexOf (h : t.complexKind? = some k) : t = complexOf k ∧ k.isFloat = true := by
  cases t with
  | complex e =>
    obtain ⟨hk, hf⟩ := Option.filter_eq_some_iff.1 h
    exact ⟨congrArg complex (eq_ofKind hk), hf⟩
  | _ => cases h

@[simp] theorem complexKind?_ofKind (k : Kind) : (ofKind k).complexKind? = none := by
  cases k <;> rfl

@[simp] theorem complexKind?_complexOf {k : Kind} (h : k.isFloat = true) :
    (complexOf k).complexKind? = some k := by
  simp [complexOf, complexKind?, h]

@[simp] theorem holdsReference_ofKind (k : Kind) : (ofKind k).holdsReference = false := by
  cases k <;> rfl

@[simp] theorem holdsReference_complexOf (k : Kind) : (complexOf k).holdsReference = false := rfl

@[simp] theorem element?_ofKind (k : Kind) : (ofKind k).element? = none := by
  cases k <;> rfl

theorem asElem_numeric (h : t.asElem? = some e) : e.Numeric := by
  unfold asElem? at h
  split at h
  · cases h
  · rename_i k hb hk
    cases h
    intro hk'
    exact hb hk'
  · obtain ⟨k, hk, rfl⟩ := Option.map_eq_some_iff.1 h
    exact (eq_complexOf hk).2

/-- The type of an element kind. -/
def ofElem : ElemKind → Ty
  | .real k => ofKind k
  | .complex k => complexOf k

theorem eq_ofElem (h : t.asElem? = some e) : t = ofElem e := by
  unfold asElem? at h
  split at h
  · cases h
  · rename_i hk
    cases h
    exact eq_ofKind hk
  · obtain ⟨k, hk, rfl⟩ := Option.map_eq_some_iff.1 h
    exact (eq_complexOf hk).1

theorem isContainer_of_element {t : Ty} (h : t.element? = some et) :
    ∃ ds, t.dims? = some ds ∧ t.holdsReference = false := by
  cases t with
  | vector e n | tensor e ds => exact ⟨_, rfl, rfl⟩
  | _ => cases h

/-- The number of axes of a container. -/
def rank? (t : Ty) : Option Nat := t.dims?.map List.length

/-- Whether a container of the type may have the shape. -/
def Admits (t : Ty) (shape : Shape) : Prop :=
  ∃ declared, t.declaredShape? = some declared ∧ Shape.Conforms declared shape = true

theorem Admits.length (h : t.Admits shape) (hds : t.dims? = some ds) : ds.length = shape.length := by
  obtain ⟨declared, hd, hs⟩ := h
  simp only [declaredShape?, hds, Option.map_some, Option.some.injEq] at hd
  subst hd
  simp only [Shape.Conforms, Bool.and_eq_true, beq_iff_eq, List.length_map] at hs
  exact hs.1

theorem admits_fixedShape (h : t.fixedShape? = some shape) : t.Admits shape := by
  obtain ⟨ds, hds, hshape⟩ := Option.bind_eq_some_iff.1 h
  refine ⟨ds.map Dim.extent?, by simp [declaredShape?, hds], ?_⟩
  clear hds h
  induction ds generalizing shape with
  | nil =>
    cases hshape
    rfl
  | cons d ds ih =>
    simp only [List.mapM_cons, Option.bind_eq_bind, Option.bind_eq_some_iff, Option.pure_def,
      Option.some.injEq] at hshape
    obtain ⟨n, hn, ns, hns, rfl⟩ := hshape
    have := ih hns
    simp only [Shape.Conforms, Bool.and_eq_true, beq_iff_eq] at this
    simp [Shape.Conforms, hn, this.1, this.2]

end Ty

/-! ## What a function can name -/

namespace Ir

/-- The types of what the instructions of a function can name. -/
structure Context where
  reg : Reg → Option Ty
  slot : UInt32 → Option Ty
  const : ConstId → Option Value
  /-- The type of a function. -/
  sig : FuncId → Option Ty
  /-- The place of a register in the order of definitions. -/
  rank : Reg → Nat

/-- The order in which registers are defined: parameters, and then by number. -/
def rank (params : List Reg) (r : Reg) : Nat := if r ∈ params then 0 else r.index.toNat + 1

/-- One context knows all that another knows. -/
structure Context.Le (Γ Δ : Context) : Prop where
  reg : ∀ r t, Γ.reg r = some t → Δ.reg r = some t
  slot : ∀ s t, Γ.slot s = some t → Δ.slot s = some t
  const : ∀ c v, Γ.const c = some v → Δ.const c = some v
  sig : ∀ f t, Γ.sig f = some t → Δ.sig f = some t
  rank : Δ.rank = Γ.rank

namespace Module

/-- The type of a function of the module. -/
def signature? (m : Module) (f : FuncId) : Option Ty := do
  let g ← m.function? f
  return .function (← m.paramTys? g) (← m.ty? g.retType)

def context (m : Module) (f : Function) : Context where
  reg := m.regTy? f
  slot s := f.slotTypes[s.toNat]?.bind m.ty?
  const := m.constants.get?
  sig := m.signature?
  rank := rank f.params

end Module

end Ir

/-! ## Values -/

namespace Value

variable {decl : List (String × Ty)}

mutual
/-- Every function that a value holds is known with its type. -/
def Resolved (sig : FuncId → Option Ty) : Value → Prop
  | function t id => sig id = some t
  | struct _ fs => ResolvedAll sig fs
  | _ => True
def ResolvedAll (sig : FuncId → Option Ty) : List Value → Prop
  | [] => True
  | v :: vs => v.Resolved sig ∧ ResolvedAll sig vs
end

theorem resolvedAll_iff : ResolvedAll sig vs ↔ ∀ v ∈ vs, v.Resolved sig := by
  induction vs with
  | nil => simp [ResolvedAll]
  | cons v vs ih => simp [ResolvedAll, ih]

/-- A value of type `t` that may leave its activation: it holds no reference. -/
structure Plain (sig : FuncId → Option Ty) (v : Value) (t : Ty) : Prop where
  ty : v.ty = t
  valid : v.Valid
  resolved : v.Resolved sig
  plain : t.holdsReference = false

/-- Whether a register or slot of type `t` may hold the value. -/
def Has (Γ : Ir.Context) (v : Value) (t : Ty) : Prop :=
  (∃ target m m' s, v = .ref (.reference target m) s ∧ t = .reference target m' ∧
    Γ.slot s = some target ∧ target.holdsReference = false) ∨
  v.Plain Γ.sig t

variable {Γ : Ir.Context} {sig : FuncId → Option Ty} {v : Value} {t : Ty}

theorem Plain.has (h : v.Plain Γ.sig t) : v.Has Γ t := .inr h

theorem Plain.ne_ref (h : v.Plain sig t) (u : Ty) (s : UInt32) : v ≠ .ref u s := by
  rintro rfl
  have hv := h.valid
  cases u with
  | reference =>
    have := h.plain
    rw [← h.ty] at this
    simp [Value.ty, Ty.holdsReference] at this
  | _ => cases hv

theorem Has.same (h : v.Has Γ t) : v.ty.Same t := by
  rcases h with ⟨target, m, m', s, rfl, rfl, -⟩ | h
  · exact .inr ⟨target, m, m', rfl, rfl⟩
  · exact .inl h.ty

theorem Has.valid (h : v.Has Γ t) : v.Valid := by
  rcases h with ⟨target, m, m', s, rfl, rfl, -⟩ | h
  · rfl
  · exact h.valid

theorem Has.of_same (h : v.Has Γ t) (hs : t.Same u) : v.Has Γ u := by
  rcases h with ⟨target, m, m', s, rfl, rfl, hslot⟩ | h
  · obtain ⟨m'', rfl⟩ := hs.symm.of_reference
    exact .inl ⟨target, m, m'', s, rfl, rfl, hslot⟩
  · obtain rfl := hs.symm.eq h.plain
    exact .inr h

theorem Has.plain (h : v.Has Γ t) (ht : t.holdsReference = false) : v.Plain Γ.sig t := by
  rcases h with ⟨target, m, m', s, rfl, rfl, -⟩ | h
  · simp [Ty.holdsReference] at ht
  · exact h

theorem Has.ref (h : v.Has Γ (.reference target m)) :
    ∃ m' s, v = .ref (.reference target m') s ∧ Γ.slot s = some target ∧
      target.holdsReference = false := by
  rcases h with ⟨target', m', m'', s, rfl, h, hslot⟩ | h
  · cases h
    exact ⟨m', s, rfl, hslot⟩
  · have := h.plain
    simp [Ty.holdsReference] at this

-- What values of each form of type look like.

theorem checkFields_iff {fs : List Value} :
    decl.length = fs.length ∧ checkFields decl fs = .ok () ↔
      List.Forall₂ (fun f d => f.ty = d.2 ∧ f.Valid) fs decl := by
  induction decl generalizing fs with
  | nil => cases fs <;> simp [checkFields]
  | cons d decl ih =>
    obtain ⟨n, t⟩ := d
    cases fs with
    | nil => simp
    | cons f fs =>
      rw [List.forall₂_cons, ← ih]
      simp only [checkFields, List.length_cons, Nat.add_right_cancel_iff]
      constructor
      · rintro ⟨hlen, h⟩
        split at h
        · obtain ⟨⟨⟩, hf, h⟩ := Except.bind_eq_ok.1 h
          exact ⟨⟨Eq.symm ‹_›, hf⟩, hlen, h⟩
        · cases h
      · rintro ⟨⟨rfl, hf⟩, hlen, h⟩
        have hf : f.check = .ok () := hf
        exact ⟨hlen, by simp [hf, h]⟩

theorem valid_tensor (h : (tensor t shape data).Valid) :
    ∃ elem e ds, t.element? = some elem ∧ elem.asElem? = some e ∧ t.dims? = some ds ∧
      Shape.Conforms (ds.map Dim.extent?) shape = true ∧ data.size = Word.mul shape.count e.size := by
  simp only [Valid, check, checkTensor] at h
  cases helem : t.element? with
  | none => simp [helem] at h
  | some elem =>
    cases hds : t.dims? with
    | none => simp [helem, Ty.declaredShape?, hds] at h
    | some ds =>
      simp only [helem, Ty.declaredShape?, hds, Option.map_some] at h
      cases he : elem.asElem? with
      | none => simp [he] at h
      | some e =>
        simp only [he] at h
        split at h
        · rename_i hshape
          split at h
          · exact ⟨elem, e, ds, rfl, he, rfl, hshape, ‹_›⟩
          · cases h
        · cases h

theorem valid_scalar (h : (scalar t w).Valid) : ∃ k, t = .ofKind k ∧ k.Canonical w := by
  simp only [Valid, check, checkScalar] at h
  split at h
  · rename_i k hk
    split at h
    · exact ⟨k, Ty.eq_ofKind hk, ‹_›⟩
    · cases h
  · cases h

theorem valid_complex (h : (complex t re im).Valid) :
    ∃ k, t = .complexOf k ∧ k.isFloat = true ∧ k.Canonical re ∧ k.Canonical im := by
  simp only [Valid, check, checkComplex] at h
  split at h
  · rename_i k hk
    split at h
    · obtain ⟨ht, hfloat⟩ := Ty.eq_complexOf hk
      exact ⟨k, ht, hfloat, ‹_ ∧ _›⟩
    · cases h
  · cases h

theorem valid_struct (h : (struct t vs).Valid) :
    ∃ decl, t = .struct decl ∧ List.Forall₂ (fun v d => v.ty = d.2 ∧ v.Valid) vs decl := by
  cases t with
  | struct decl =>
    simp only [Valid, check] at h
    split at h
    · exact ⟨decl, rfl, checkFields_iff.1 ⟨‹_›, h⟩⟩
    · cases h
  | _ => cases h

theorem Valid.scalar (h : v.Valid) (hty : v.ty = .ofKind k) :
    ∃ w, v = .scalar (.ofKind k) w ∧ k.Canonical w := by
  have hkind : v.ty.kind? = some k := by rw [hty, Ty.kind?_ofKind]
  cases v with
  | scalar t w =>
    obtain ⟨k', rfl, hw⟩ := valid_scalar h
    obtain rfl : k' = k := by simpa [ty] using hkind
    exact ⟨w, rfl, hw⟩
  | complex t re im =>
    obtain ⟨k', rfl, -⟩ := valid_complex h
    cases hkind
  | tensor t shape data =>
    obtain rfl : t = _ := hty
    obtain ⟨elem, _, _, helem, -⟩ := valid_tensor h
    simp at helem
  | struct t _ | function t _ | ref t _ => cases t <;> first | cases hkind | cases h

theorem Valid.complex (h : v.Valid) (hty : v.ty = .complexOf k) :
    k.isFloat = true ∧ ∃ re im, v = .complex (.complexOf k) re im ∧ k.Canonical re ∧ k.Canonical im := by
  cases v with
  | complex t re im =>
    obtain ⟨k', rfl, hk, hcanon⟩ := valid_complex h
    obtain rfl : k' = k := by simpa [Ty.kind?_ofKind] using congrArg Ty.kind? (Ty.complex.inj hty)
    exact ⟨hk, re, im, rfl, hcanon⟩
  | scalar t _ | tensor t _ _ | struct t _ | function t _ | ref t _ =>
    obtain rfl : t = _ := hty
    cases h

theorem Valid.struct (h : v.Valid) (hty : v.ty = .struct decl) :
    ∃ fs, v = .struct (.struct decl) fs ∧ List.Forall₂ (fun f d => f.ty = d.2 ∧ f.Valid) fs decl := by
  cases v with
  | struct t fs =>
    obtain ⟨decl', rfl, hfs⟩ := valid_struct h
    cases hty
    exact ⟨fs, rfl, hfs⟩
  | scalar t _ | complex t _ _ | tensor t _ _ | function t _ | ref t _ =>
    obtain rfl : t = _ := hty
    cases h

theorem Valid.function (h : v.Valid) (hty : v.ty = .function ps r) :
    ∃ id, v = .function (.function ps r) id := by
  cases v with
  | function t id => exact ⟨id, congrArg (Value.function · id) hty⟩
  | scalar t _ | complex t _ _ | tensor t _ _ | struct t _ | ref t _ =>
    obtain rfl : t = _ := hty
    cases h

theorem Valid.ref (h : v.Valid) (hty : v.ty = .reference target m) :
    ∃ s, v = .ref (.reference target m) s := by
  cases v with
  | ref t s => exact ⟨s, congrArg (Value.ref · s) hty⟩
  | scalar t _ | complex t _ _ | tensor t _ _ | struct t _ | function t _ =>
    obtain rfl : t = _ := hty
    cases h

theorem Has.scalar (h : v.Has Γ (.ofKind k)) : ∃ w, v = .scalar (.ofKind k) w ∧ k.Canonical w :=
  h.valid.scalar (h.plain (Ty.holdsReference_ofKind k)).ty

theorem Has.complex (h : v.Has Γ (.complexOf k)) :
    ∃ re im, v = .complex (.complexOf k) re im ∧ k.Canonical re ∧ k.Canonical im :=
  (h.valid.complex (h.plain (Ty.holdsReference_complexOf k)).ty).2

/-- A value of a container type has a view, of a shape that the type admits. -/
theorem Has.view (h : v.Has Γ t) (het : t.element? = some et) :
    ∃ e shape data view, v = .tensor t shape data ∧ et.asElem? = some e ∧ t.Admits shape ∧
      data.size = Word.mul shape.count e.size ∧ v.view? = some view ∧ view.elem = e ∧
      view.shape = shape := by
  obtain ⟨-, -, hr⟩ := Ty.isContainer_of_element het
  obtain ⟨hty, hv, -, -⟩ := h.plain hr
  cases v with
  | tensor t' shape data =>
    obtain rfl : t' = t := hty
    obtain ⟨elem, e, ds, helem, he, hds, hconf, hsize⟩ := valid_tensor hv
    obtain rfl := Option.some.inj (het.symm.trans helem)
    refine ⟨e, shape, data, ⟨e, shape, data, hsize⟩, rfl, he, ⟨_, by simp [Ty.declaredShape?, hds], hconf⟩,
      hsize, ?_, rfl, rfl⟩
    simp [view?, Ty.elemKind?, het, he, View.of?, hsize]
  | scalar t' _ | complex t' _ _ | struct t' _ | function t' _ | ref t' _ =>
    obtain rfl : t' = t := hty
    cases t' <;> first | (cases het; done) | cases hv

theorem fieldsHoldReference_iff :
    Ty.fieldsHoldReference decl = false ↔ ∀ d ∈ decl, d.2.holdsReference = false := by
  induction decl with
  | nil => simp [Ty.fieldsHoldReference]
  | cons d decl ih => simp [Ty.fieldsHoldReference, ih]

theorem Has.struct (h : v.Has Γ (.struct decl)) :
    ∃ fs, v = .struct (.struct decl) fs ∧ List.Forall₂ (fun f d => f.Plain Γ.sig d.2) fs decl := by
  rcases h with ⟨target, m, m', s, -, h, -⟩ | ⟨hty, hv, hr, hh⟩
  · cases h
  obtain ⟨fs, rfl, hfs⟩ := Valid.struct hv hty
  have hh : ∀ d ∈ decl, d.2.holdsReference = false :=
    fieldsHoldReference_iff.1 (by simpa [Ty.holdsReference] using hh)
  have hr : ∀ f ∈ fs, f.Resolved Γ.sig := resolvedAll_iff.1 hr
  exact ⟨fs, rfl, forall₂_imp_mem hfs fun f hf d hd ⟨hty, hv⟩ => ⟨hty, hv, hr f hf, hh d hd⟩⟩

theorem valid_of_fields (h : List.Forall₂ (fun f d => f.ty = d.2 ∧ f.Valid) fs decl) :
    (Value.struct (.struct decl) fs).Valid := by
  obtain ⟨hlen, hfields⟩ := checkFields_iff.2 h
  simp [Valid, check, hlen, hfields]

theorem plain_struct (h : List.Forall₂ (fun f d => f.Plain sig d.2) fs decl) :
    (Value.struct (.struct decl) fs).Plain sig (.struct decl) := by
  have hr : ∀ f ∈ fs, f.Resolved sig := by
    intro f hf
    obtain ⟨d, -, hf⟩ := forall₂_exists_right h hf
    exact hf.resolved
  have hh : ∀ d ∈ decl, d.2.holdsReference = false := by
    intro d hd
    obtain ⟨f, -, hf⟩ := forall₂_exists_left h hd
    exact hf.plain
  refine ⟨rfl, valid_of_fields (h.imp fun f d hf => ⟨hf.ty, hf.valid⟩), resolvedAll_iff.2 hr, ?_⟩
  simpa [Ty.holdsReference] using fieldsHoldReference_iff.2 hh

theorem Has.function (h : v.Has Γ (.function ps r)) :
    ∃ id, v = .function (.function ps r) id ∧ Γ.sig id = some (.function ps r) := by
  obtain ⟨hty, hv, hr, -⟩ := h.plain rfl
  obtain ⟨id, rfl⟩ := Valid.function hv hty
  exact ⟨id, rfl, hr⟩

theorem Has.toElem_fits (h : v.Has Γ et) (he : et.asElem? = some e) :
    ∃ x, v.toElem? = some x ∧ Elem.Fits e x := by
  have hty := Ty.eq_ofElem he
  cases e with
  | real k =>
    subst hty
    obtain ⟨w, rfl, -⟩ := Has.scalar h
    exact ⟨_, rfl, trivial⟩
  | complex k =>
    subst hty
    obtain ⟨re, im, rfl, -⟩ := Has.complex h
    exact ⟨_, rfl, trivial⟩

-- Plain values.

theorem plain_constant (hv : v.Valid) (he : v.toElem?.isSome) : v.Plain sig v.ty := by
  cases v with
  | scalar t w =>
    obtain ⟨k, rfl, -⟩ := valid_scalar hv
    exact ⟨rfl, hv, trivial, Ty.holdsReference_ofKind k⟩
  | complex t re im =>
    obtain ⟨k, rfl, -⟩ := valid_complex hv
    exact ⟨rfl, hv, trivial, rfl⟩
  | _ => cases he

theorem valid_ofScalar (k : Kind) (w : UInt64) : (ofScalar k w).Valid := by
  simp [Valid, ofScalar, check, checkScalar, Kind.canonical_canonical]

theorem plain_ofScalar (k : Kind) (w : UInt64) : (ofScalar k w).Plain sig (.ofKind k) :=
  ⟨rfl, valid_ofScalar k w, trivial, Ty.holdsReference_ofKind k⟩

theorem plain_ofBool (b : Bool) : (ofBool b).Plain sig .bool := plain_ofScalar _ _

theorem plain_ofComplex {k : Kind} (hk : k.isFloat = true) (hre : k.Canonical re)
    (him : k.Canonical im) : (ofComplex k re im).Plain sig (.complexOf k) := by
  refine ⟨rfl, ?_, trivial, rfl⟩
  simp only [Kind.Canonical] at hre him
  simp [Valid, ofComplex, check, checkComplex, hk, hre, him]

theorem plain_ofElem (he : et.asElem? = some e) (hx : Elem.Fits e x) : (ofElem e x).Plain sig et := by
  have hnum := Ty.asElem_numeric he
  rw [Ty.eq_ofElem he]
  cases e with
  | real k =>
    obtain ⟨w, rfl⟩ := hx.real
    exact plain_ofScalar k w
  | complex k =>
    obtain ⟨re, im, rfl⟩ := hx.complex
    exact plain_ofComplex hnum (k.canonical_of_canonical re) (k.canonical_of_canonical im)

theorem plain_tensor {data : Bytes}
    (het : t.element? = some et) (he : et.asElem? = some e) (hs : t.Admits shape)
    (hsize : data.size = Word.mul shape.count e.size) : (Value.tensor t shape data).Plain sig t := by
  obtain ⟨declared, hd, hs⟩ := hs
  refine ⟨rfl, ?_, trivial, (Ty.isContainer_of_element het).choose_spec.2⟩
  simp [Valid, check, checkTensor, het, hd, he, hs, hsize]

end Value

end NumericEngine
