import NumericEngine.Exec.Eval
import NumericEngine.Proofs.Ir.Typing

/-!
# Evaluation of typed right-hand sides

On a frame whose registers and slots have their types, a typed right-hand side
whose operands are defined gives a value of its type, or fails for a reason that
is not a broken invariant. A removable one does not fail at all.
-/

namespace NumericEngine

open NumericEngine.Except (ok_bind)

/-- A frame all of whose registers and slots hold values of their types. -/
structure Frame.Typed (Γ : Ir.Context) (frame : Frame) : Prop where
  reg : ∀ r v, frame.get r = .ok v → ∃ t, Γ.reg r = some t ∧ v.Has Γ t
  slot : ∀ s v, frame.load s = .ok v → ∃ t, Γ.slot s = some t ∧ v.Has Γ t

/-- A register holds a value of its type. -/
def Frame.Supplies (Γ : Ir.Context) (frame : Frame) (r : Reg) : Prop :=
  ∃ v, frame.get r = .ok v ∧ ∃ t, Γ.reg r = some t ∧ v.Has Γ t

theorem Frame.Typed.supplies {frame : Frame} (h : frame.Typed Γ)
    (hdef : ∃ v, frame.get r = .ok v) : frame.Supplies Γ r := by
  obtain ⟨v, hv⟩ := hdef
  exact ⟨v, hv, h.reg r v hv⟩

theorem Fault.kind_ofArith (h : e ≠ .unsupported) : (Fault.ofArith e).kind ≠ .internal := by
  cases e with
  | unsupported => contradiction
  | _ => simp [Fault.ofArith, Fault.kind]

theorem Fault.kind_ofTensor (h : e ≠ .arith .unsupported) : (Fault.ofTensor e).kind ≠ .internal := by
  cases e with
  | arith e => exact Fault.kind_ofArith (by simpa using h)
  | _ => simp [Fault.ofTensor, Fault.kind]

namespace Value

theorem conform_of_admits {t : Ty} (h : t.Admits shape) : conform t shape = .ok () := by
  obtain ⟨declared, hd, hs⟩ := h
  simp [conform, hd, Shape.conform, hs]

theorem conform_cases {t : Ty} (het : t.element? = some et) (shape : Shape) :
    t.Admits shape ∧ conform t shape = .ok () ∨
      ∃ e, conform t shape = .error e ∧ e.kind ≠ .internal := by
  obtain ⟨ds, hds, -⟩ := Ty.isContainer_of_element het
  have hdecl : t.declaredShape? = some (ds.map Dim.extent?) := by simp [Ty.declaredShape?, hds]
  cases hs : Shape.Conforms (ds.map Dim.extent?) shape with
  | true =>
    have ha : t.Admits shape := ⟨_, hdecl, hs⟩
    exact .inl ⟨ha, conform_of_admits ha⟩
  | false =>
    refine .inr ⟨.shapeMismatch ((ds.map Dim.extent?).map (·.getD 0)) shape (some t), ?_, ?_⟩
    · simp [conform, hdecl, Shape.conform, hs]
    · simp [Fault.kind]

end Value

/-- Right-hand sides that give a plain value, evaluated from their frame alone. -/
def Ir.Rhs.isPlain : Ir.Rhs → Bool
  | call .. | callIndirect .. | phi _ | stackSlot _ => false
  | _ => true

namespace Exec

open Ir Value

/-- A plain value of type `t`, or a failure that is allowed and not a broken invariant. -/
def Delivers (sig : FuncId → Option Ty) (t : Ty) (mayFail : Bool) : Except Fault Value → Prop
  | .ok v => v.Plain sig t
  | .error e => mayFail = true ∧ e.kind ≠ .internal

variable {m : Ir.Module} {f : Ir.Function} {frame : Frame}

theorem delivers_arith {k : α → Except Fault Value} (hx : x ≠ .error .unsupported)
    (hk : ∀ a, x = .ok a → Delivers sig t mayFail (k a)) (hok : mayFail = false → ∃ a, x = .ok a) :
    Delivers sig t mayFail (Value.arith x >>= k) := by
  cases x with
  | ok a => exact hk a rfl
  | error e =>
    refine ⟨?_, Fault.kind_ofArith (by simpa using hx)⟩
    cases mayFail with
    | true => rfl
    | false => simp at hok

theorem delivers_kernel {k : α → Except Fault Value} (hx : View.Works P x)
    (hk : ∀ a, P a → Delivers sig t true (k a)) : Delivers sig t true (Value.kernel x >>= k) := by
  cases x with
  | ok a => exact hk a hx
  | error e => exact ⟨rfl, Fault.kind_ofTensor hx⟩

theorem delivers_conform {data : Bytes} (het : t.element? = some et) (he : et.asElem? = some e)
    (hsize : data.size = Word.mul shape.count e.size) :
    Delivers sig t true (conform t shape >>= fun _ => .ok (.tensor t shape data)) := by
  rcases conform_cases het shape with ⟨hadm, hc⟩ | ⟨e, hc, hkind⟩
  · rw [hc]
    exact plain_tensor het he hadm hsize
  · rw [hc]
    exact ⟨rfl, hkind⟩

theorem operand (hr : (m.context f).At r u) (hdef : frame.Supplies (m.context f) r) :
    ∃ v, frame.get r = .ok v ∧ v.Has (m.context f) u := by
  obtain ⟨v, hv, w, hw, hhas⟩ := hdef
  obtain ⟨u', hu', hsame⟩ := hr
  obtain rfl := Option.some.inj (hu'.symm.trans hw)
  exact ⟨v, hv, hhas.of_same hsame⟩

theorem operands (hr : (m.context f).Regs rs ts) (hdef : ∀ r ∈ rs, frame.Supplies (m.context f) r) :
    ∃ vs, rs.mapM frame.get = .ok vs ∧ List.Forall₂ (fun v t => v.Has (m.context f) t) vs ts := by
  induction hr with
  | nil => exact ⟨[], rfl, .nil⟩
  | @cons r u rs ts hr _ ih =>
    obtain ⟨v, hv, hhas⟩ := operand hr (hdef r List.mem_cons_self)
    obtain ⟨vs, hvs, hall⟩ := ih fun r' hr' => hdef r' (List.mem_cons_of_mem r hr')
    exact ⟨v :: vs, by simp [hv, hvs, Except.pure_eq_ok], .cons hhas hall⟩

theorem operandPair (hr : (m.context f).Regs [l, r] [tl, tr])
    (hdef : ∀ x ∈ [l, r], frame.Supplies (m.context f) x) :
    ∃ a b, frame.get l = .ok a ∧ frame.get r = .ok b ∧ a.Has (m.context f) tl ∧
      b.Has (m.context f) tr := by
  obtain ⟨hl, hr⟩ := List.forall₂_cons.1 hr
  obtain ⟨hr, -⟩ := List.forall₂_cons.1 hr
  obtain ⟨a, ha, ha'⟩ := operand hl (hdef l (by simp))
  obtain ⟨b, hb, hb'⟩ := operand hr (hdef r (by simp))
  exact ⟨a, b, ha, hb, ha', hb'⟩

theorem viewPair (hr : (m.context f).Regs [l, r] [tl, tr])
    (hdef : ∀ x ∈ [l, r], frame.Supplies (m.context f) x) (hl : tl.element? = some et)
    (hr' : tr.element? = some et) :
    ∃ a b va vb, frame.get l = .ok a ∧ frame.get r = .ok b ∧ a.asView = .ok va ∧ b.asView = .ok vb ∧
      et.asElem? = some va.elem ∧ vb.elem = va.elem ∧ tl.Admits va.shape ∧ tr.Admits vb.shape := by
  obtain ⟨a, b, ha, hb, hta, htb⟩ := operandPair hr hdef
  obtain ⟨e, sa, da, va, -, he, hsa, -, hva, rfl, rfl⟩ := hta.view hl
  obtain ⟨e', sb, db, vb, -, he', hsb, -, hvb, rfl, rfl⟩ := htb.view hr'
  exact ⟨a, b, va, vb, ha, hb, by simp [asView, hva, expect], by simp [asView, hvb, expect], he,
    Option.some.inj (he'.symm.trans he), hsa, hsb⟩

theorem indices_isOk {is : List Reg} (hr : ∀ i ∈ is, (m.context f).At i .i64)
    (hdef : ∀ i ∈ is, frame.Supplies (m.context f) i) : ∃ xs, is.mapM (index frame) = .ok xs := by
  induction is with
  | nil => exact ⟨[], rfl⟩
  | cons i is ih =>
    rw [List.forall_mem_cons] at hr hdef
    obtain ⟨v, hv, htv⟩ := operand hr.1 hdef.1
    obtain ⟨w, rfl, -⟩ := htv.scalar
    obtain ⟨xs, hxs⟩ := ih hr.2 hdef.2
    refine ⟨w.toInt64.toInt :: xs, ?_⟩
    have hindex : index frame i = .ok w.toInt64.toInt := by
      simp only [index, hv, ok_bind]
      rfl
    simp [hindex, hxs, Except.pure_eq_ok]

theorem fill_isOk {et : Ty} (he : et.asElem? = some e)
    (hr : ∀ r ∈ es, (m.context f).At r et) (hdef : ∀ r ∈ es, frame.Supplies (m.context f) r)
    (i : Nat) (data : Bytes) :
    ∃ data', fill frame e i data es = .ok data' ∧ data'.size = data.size := by
  induction es generalizing i data with
  | nil => exact ⟨data, rfl, rfl⟩
  | cons r es ih =>
    rw [List.forall_mem_cons] at hr hdef
    obtain ⟨v, hv, hhas⟩ := operand hr.1 hdef.1
    obtain ⟨x, hx, -⟩ := hhas.toElem_fits he
    obtain ⟨data', hfill, hsize⟩ := ih hr.2 hdef.2 (i + 1) (data.overwrite (Word.mul i e.size) (Elem.bytes e x))
    refine ⟨data', ?_, by simpa using hsize⟩
    simp [fill, hv, hx, expect, hfill]

theorem delivers_eval (hdst : (m.context f).reg dst = some t) (htyped : rhs.Typed (m.context f) t)
    (hplain : rhs.isPlain = true) (hdef : ∀ r ∈ rhs.uses, frame.Supplies (m.context f) r)
    (hset : ∀ a u s, rhs = .load a → frame.get a = .ok (.ref u s) →
      ∃ v, frame.load s = .ok v ∧ ∃ t, (m.context f).slot s = some t ∧ v.Has (m.context f) t) :
    Delivers m.signature? t (!rhs.isRemovable) (eval m f frame dst rhs) := by
  have hregTy : regTy m f dst = .ok t := by
    have : m.regTy? f dst = some t := hdst
    simp [regTy, this, expect]
  -- each form reads its operands by their types, and computes on what values of these types look like
  cases rhs with
  | const c =>
    obtain ⟨v, hv, rfl, hvalid, helem⟩ := htyped
    have hv : m.constants.get? c = some v := hv
    simp only [eval, hv, expect]
    exact plain_constant hvalid helem
  | binary op k l r checked =>
    obtain ⟨rfl, hr, hop⟩ := htyped
    obtain ⟨a, b, ha, hb, hta, htb⟩ := operandPair hr hdef
    obtain ⟨x, rfl, -⟩ := hta.scalar
    obtain ⟨y, rfl, -⟩ := htb.scalar
    simp only [eval, ha, hb, ok_bind, asBits, bits?, expect]
    refine delivers_arith (Scalar.binary_ne_unsupported hop x y checked)
      (fun w _ => plain_ofScalar k w) ?_
    intro hrem
    obtain ⟨hc, hd⟩ : checked = false ∧ op.divides = false := by
      simpa [Rhs.isRemovable] using hrem
    subst hc
    exact Scalar.binary_isOk hop hd x y
  | compare op k l r =>
    obtain ⟨rfl, hr⟩ := htyped
    obtain ⟨a, b, ha, hb, hta, htb⟩ := operandPair hr hdef
    obtain ⟨x, rfl, -⟩ := hta.scalar
    obtain ⟨y, rfl, -⟩ := htb.scalar
    simp only [eval, ha, hb, ok_bind, asBits, bits?, expect]
    exact plain_ofBool _
  | unary op k s checked =>
    obtain ⟨rfl, hr, hop⟩ := htyped
    obtain ⟨a, ha, hta⟩ := operand hr (hdef s (by simp [Rhs.uses]))
    obtain ⟨x, rfl, -⟩ := hta.scalar
    simp only [eval, ha, ok_bind, asBits, bits?, expect]
    refine delivers_arith (Scalar.unary_ne_unsupported hop x checked)
      (fun w _ => plain_ofScalar k w) ?_
    intro hrem
    obtain rfl : checked = false := by simpa [Rhs.isRemovable] using hrem
    exact Scalar.unary_isOk hop x
  | convert a b s =>
    obtain ⟨rfl, hr⟩ := htyped
    obtain ⟨v, hv, htv⟩ := operand hr (hdef s (by simp [Rhs.uses]))
    obtain ⟨x, rfl, -⟩ := htv.scalar
    simp only [eval, hv, ok_bind, asBits, bits?, expect]
    exact plain_ofScalar b _
  | complexBinary op k l r =>
    obtain ⟨rfl, hk, hr, hop⟩ := htyped
    obtain ⟨a, b, ha, hb, hta, htb⟩ := operandPair hr hdef
    obtain ⟨ar, ai, rfl, -⟩ := hta.complex
    obtain ⟨br, bi, rfl, -⟩ := htb.complex
    obtain ⟨p, hp, hre, him⟩ := Complex.binary_isOk hop hk (ar, ai) (br, bi)
    simp only [eval, ha, hb, ok_bind, asParts, hp, Value.arith, Except.mapError]
    exact plain_ofComplex hk hre him
  | complexCompare op k l r =>
    obtain ⟨rfl, hk, hr, hop⟩ := htyped
    obtain ⟨a, b, ha, hb, hta, htb⟩ := operandPair hr hdef
    obtain ⟨ar, ai, rfl, -⟩ := hta.complex
    obtain ⟨br, bi, rfl, -⟩ := htb.complex
    simp only [eval, ha, hb, ok_bind, asParts]
    rcases hop with rfl | rfl <;> exact plain_ofBool _
  | complexUnary op k s =>
    obtain ⟨rfl, hk, hr⟩ := htyped
    obtain ⟨v, hv, htv⟩ := operand hr (hdef s (by simp [Rhs.uses]))
    obtain ⟨re, im, rfl, hre, -⟩ := htv.complex
    simp only [eval, hv, ok_bind, asParts]
    cases op with
    | neg =>
      obtain ⟨p, hp, hre, him⟩ := Complex.neg_isOk hk (re, im)
      simp only [hp, Value.arith, Except.mapError, ok_bind]
      exact plain_ofComplex hk hre him
    | conj =>
      obtain ⟨p, hp, hre, him⟩ := Complex.conj_isOk (a := (re, im)) hk hre
      simp only [hp, Value.arith, Except.mapError, ok_bind]
      exact plain_ofComplex hk hre him
  | complexPart part k s =>
    obtain ⟨rfl, hk, hr⟩ := htyped
    obtain ⟨v, hv, htv⟩ := operand hr (hdef s (by simp [Rhs.uses]))
    obtain ⟨re, im, rfl, -⟩ := htv.complex
    simp only [eval, hv, ok_bind, asParts]
    exact plain_ofScalar k _
  | makeComplex k re im =>
    obtain ⟨rfl, hk, hr⟩ := htyped
    obtain ⟨a, b, ha, hb, hta, htb⟩ := operandPair hr hdef
    obtain ⟨x, rfl, hx⟩ := hta.scalar
    obtain ⟨y, rfl, hy⟩ := htb.scalar
    simp only [eval, ha, hb, ok_bind, asBits, bits?, expect]
    exact plain_ofComplex hk hx hy
  | makeStruct fs =>
    obtain ⟨decl, rfl, hr, hh⟩ := htyped
    obtain ⟨vs, hvs, hall⟩ := operands hr hdef
    simp only [eval, hvs, hregTy, ok_bind]
    have hd : ∀ d ∈ decl, d.2.holdsReference = false :=
      fieldsHoldReference_iff.1 (by simpa [Ty.holdsReference] using hh)
    exact plain_struct (forall₂_imp_mem (List.forall₂_map_right_iff.1 hall)
      fun v _ d hmem hv => hv.plain (hd d hmem))
  | extractField s i =>
    obtain ⟨decl, d, hr, hd, rfl⟩ := htyped
    obtain ⟨v, hv, htv⟩ := operand hr (hdef s (by simp [Rhs.uses]))
    obtain ⟨fs, rfl, hfs⟩ := htv.struct
    obtain ⟨x, hx, htx⟩ := forall₂_getElem?_right hfs hd
    simp only [eval, hv, ok_bind, fields?, Option.bind_some, hx, expect]
    exact htx
  | insertField s i v =>
    obtain ⟨decl, d, rfl, hr, hd, hrv⟩ := htyped
    obtain ⟨a, ha, hta⟩ := operand hr (hdef s (by simp [Rhs.uses]))
    obtain ⟨x, hx, htx⟩ := operand hrv (hdef v (by simp [Rhs.uses]))
    obtain ⟨fs, rfl, hfs⟩ := hta.struct
    obtain ⟨y, hy, hty⟩ := forall₂_getElem?_right hfs hd
    have hlt : i.toNat < fs.length := (List.getElem?_eq_some_iff.1 hy).1
    simp only [eval, ha, hx, ok_bind, hlt, if_true]
    refine plain_struct (forall₂_set hfs ?_)
    intro d' hd'
    obtain rfl := Option.some.inj (hd.symm.trans hd')
    exact htx.plain hty.plain
  | load a =>
    obtain ⟨μ, hr⟩ := htyped
    obtain ⟨v, hv, htv⟩ := operand hr (hdef a (by simp [Rhs.uses]))
    obtain ⟨μ', s, rfl, hs, hp⟩ := htv.ref
    obtain ⟨x, hx, u, hu, htx⟩ := hset a _ s rfl hv
    obtain rfl := Option.some.inj (hs.symm.trans hu)
    simp only [eval, hv, ok_bind, asSlot, hx]
    exact htx.plain hp
  | funcRef g =>
    obtain ⟨hg, ps, r, rfl⟩ := htyped
    simp only [eval, hregTy, ok_bind]
    exact ⟨rfl, rfl, hg, rfl⟩
  | makeTensor es =>
    obtain ⟨et, e, shape, het, he, hs, hr, -⟩ := htyped
    obtain ⟨data, hdata, hsize⟩ := fill_isOk he hr hdef 0 (Bytes.zeros (Word.mul shape.count e.size))
    have helem : t.elemKind? = some e := by simp [Ty.elemKind?, het, he]
    simp only [eval, hregTy, ok_bind, makeTensor, helem, hs, hdata]
    exact plain_tensor het he (Ty.admits_fixedShape hs) (by simpa using hsize)
  | tensorBinary op l r checked =>
    obtain ⟨tl, tr, et, hr, hl, hrr, het, hop, hshape, -⟩ := htyped
    obtain ⟨a, b, va, vb, ha, hb, hva, hvb, he, heb, hsa, hsb⟩ := viewPair hr hdef hl hrr
    simp only [eval, ha, hb, ok_bind, hva, hvb, hregTy]
    refine delivers_kernel (View.works_elementwise (Ty.asElem_numeric he) (hop _ he) heb) ?_
    rintro data ⟨hsame, hsize⟩
    exact plain_tensor het he (hshape _ hsa (hsame ▸ hsb)) (hsize.trans va.size_data)
  | tensorScale s factor checked =>
    obtain ⟨et, hr, het⟩ := htyped
    obtain ⟨a, b, ha, hb, hta, htb⟩ := operandPair hr hdef
    obtain ⟨e, sa, da, va, -, he, hsa, -, hva, rfl, rfl⟩ := hta.view het
    obtain ⟨x, hx, hfits⟩ := htb.toElem_fits he
    simp only [eval, ha, hb, ok_bind, asElem, hx, asView, hva, expect, hregTy]
    exact delivers_kernel (View.works_scale (Ty.asElem_numeric he) hfits) fun data hsize =>
      plain_tensor het he hsa (hsize.trans va.size_data)
  | dot l r =>
    obtain ⟨tl, tr, hr, hl, hrr, -⟩ := htyped
    obtain ⟨a, b, va, vb, ha, hb, hva, hvb, he, heb, -⟩ := viewPair hr hdef hl hrr
    simp only [eval, ha, hb, ok_bind, hva, hvb]
    exact delivers_kernel (View.works_dot (Ty.asElem_numeric he) heb) fun x hx => plain_ofElem he hx
  | matmul l r =>
    obtain ⟨tl, tr, et, hr, hl, hrr, het, -⟩ := htyped
    obtain ⟨a, b, va, vb, ha, hb, hva, hvb, he, heb, -⟩ := viewPair hr hdef hl hrr
    simp only [eval, ha, hb, ok_bind, hva, hvb, hregTy]
    exact delivers_kernel (View.works_matmul (Ty.asElem_numeric he) heb) fun _ hsize =>
      delivers_conform het he hsize
  | sum s =>
    obtain ⟨ts, hr, het⟩ := htyped
    obtain ⟨v, hv, htv⟩ := operand hr (hdef s (by simp [Rhs.uses]))
    obtain ⟨e, shape, data, view, -, he, -, -, hview, rfl, -⟩ := htv.view het
    simp only [eval, hv, ok_bind, asView, hview, expect]
    exact delivers_kernel (View.works_sum (Ty.asElem_numeric he)) fun x hx => plain_ofElem he hx
  | extractElement s is =>
    obtain ⟨ts, hr, het, his, -⟩ := htyped
    obtain ⟨v, hv, htv⟩ := operand hr (hdef s (by simp [Rhs.uses]))
    obtain ⟨e, shape, data, view, -, he, -, -, hview, rfl, -⟩ := htv.view het
    obtain ⟨xs, hxs⟩ := indices_isOk his fun i hi => hdef i (by simp [Rhs.uses, hi])
    simp only [eval, hv, ok_bind, asView, hview, expect, hxs]
    refine delivers_kernel View.works_flatIndex fun i _ => ?_
    exact delivers_kernel (View.works_get view i) fun x hx => plain_ofElem he hx
  | dim s axis =>
    obtain ⟨rfl, ts, et, ds, hr, het, hds, hlt⟩ := htyped
    obtain ⟨v, hv, htv⟩ := operand hr (hdef s (by simp [Rhs.uses]))
    obtain ⟨e, shape, data, view, -, he, hadm, -, hview, -, rfl⟩ := htv.view het
    have hlen := hadm.length hds
    have hget : view.shape[axis.toNat]? = some (view.shape[axis.toNat]) :=
      List.getElem?_eq_getElem (hlen ▸ hlt)
    simp only [eval, hv, ok_bind, asView, hview, expect, hget]
    exact plain_ofScalar .i64 _
  | tensorCast s =>
    obtain ⟨ts, et, hr, hs, het, -⟩ := htyped
    obtain ⟨v, hv, htv⟩ := operand hr (hdef s (by simp [Rhs.uses]))
    obtain ⟨e, shape, data, view, rfl, he, -, hsize, -⟩ := htv.view hs
    simp only [eval, hregTy, hv, ok_bind]
    exact delivers_conform het he hsize
  | call | callIndirect | phi | stackSlot => cases hplain

end Exec

end NumericEngine
