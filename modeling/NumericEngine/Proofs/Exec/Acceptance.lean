import NumericEngine.Proofs.Exec.Change
import NumericEngine.Proofs.Exec.Dataflow
import NumericEngine.Proofs.Ir.Accepted
import NumericEngine.Proofs.Ir.Binary.RoundTrip
import NumericEngine.Proofs.Tensor.Bounds

/-!
# Accepted instructions on operands of their types

An instruction that verification accepts, on operands that have the types of
their registers, gives a value of the type of its register or fails for a reason
that is not a broken invariant. Some of what this needs is not checked before a
program runs, and is asked for here: operators that are defined on their
operands, results that have the shape their type declares, slots that have been
written, functions of the type of the value that names them, and tensors whose
bytes, over all numbers, are no more than a word counts.
-/

namespace NumericEngine

open NumericEngine.Except (ok_bind)
open List

/-- A valid value of a type, up to the mutability of a reference. -/
structure Value.Suits (v : Value) (t : Ty) : Prop where
  valid : v.Valid
  same : v.ty.Same t

/-- Numbers, vectors and tensors. -/
def Ty.isData : Ty → Bool
  | prim .. | complex _ | vector .. | tensor .. => true
  | _ => false

namespace Ty

@[simp] theorem isData_ofKind (k : Kind) : (ofKind k).isData = true := by
  cases k <;> rfl

theorem isData_of_element {t : Ty} (h : t.element? = some et) : t.isData = true := by
  cases t with
  | vector | tensor => rfl
  | _ => cases h

theorem holdsReference_of_isData {t : Ty} (h : t.isData = true) : t.holdsReference = false := by
  cases t with
  | prim | complex | vector | tensor => rfl
  | _ => cases h

theorem isData_of_asElem {t : Ty} (h : t.asElem? = some e) : t.isData = true := by
  rw [eq_ofElem h]
  cases e with
  | real k => exact isData_ofKind k
  | complex k => rfl

end Ty

namespace Value

variable {v : Value}

theorem Suits.of_same (h : v.Suits t) (hs : t.Same u) : v.Suits u :=
  ⟨h.valid, h.same.trans hs⟩

theorem Plain.suits (h : v.Plain sig t) : v.Suits t :=
  ⟨h.valid, .inl h.ty⟩

theorem Suits.has (h : v.Suits t) (ht : t.isData = true) : v.Has Γ t := by
  have hplain := Ty.holdsReference_of_isData ht
  have hty := h.same.eq hplain
  refine .inr ⟨hty, h.valid, ?_, hplain⟩
  have hvalid := h.valid
  cases v with
  | function u _ | struct u _ =>
    obtain rfl : u = t := hty
    cases u <;> first | (cases ht; done) | cases hvalid
  | _ => trivial

theorem Suits.struct (h : v.Suits (.struct decl)) :
    ∃ fs, v = .struct (.struct decl) fs ∧ List.Forall₂ (fun f d => f.ty = d.2 ∧ f.Valid) fs decl := by
  rcases h.same with hty | ⟨_, _, _, -, hty⟩
  · exact h.valid.struct hty
  · cases hty

theorem Suits.ref (h : v.Suits (.reference target m)) : ∃ m' s, v = .ref (.reference target m') s := by
  obtain ⟨m', hty⟩ := h.same.of_reference
  exact ⟨m', h.valid.ref hty⟩

theorem Suits.function (h : v.Suits (.function ps ret)) :
    ∃ id, v = .function (.function ps ret) id := h.valid.function (h.same.eq rfl)

theorem Suits.isFloat (h : v.Suits (.complexOf k)) : k.isFloat = true :=
  (h.valid.complex (h.same.eq rfl)).1

end Value

namespace Exec

open Ir Value

/-- The registers hold values of their types. -/
def Supplies (m : Ir.Module) (f : Ir.Function) (frame : Frame) (rs : List Reg) : Prop :=
  ∀ r ∈ rs, ∃ t v, m.regTy? f r = some t ∧ frame.get r = .ok v ∧ v.Suits t

end Exec

/-- What a right-hand side with a result of type `t` needs beyond the checks of verification. -/
def Ir.Rhs.Apt (m : Ir.Module) (f : Ir.Function) (frame : Frame) (t : Ty) : Ir.Rhs → Prop
  | binary op k _ _ _ => k = .bool → op = .and ∨ op = .or ∨ op = .xor
  | complexBinary op _ _ _ => Complex.supports op = true
  | complexCompare op _ _ _ => op = .eq ∨ op = .ne
  | makeComplex k _ _ => k.isFloat = true
  | makeStruct fields => ∀ vs decl, fields.mapM frame.get = .ok vs → t = .struct decl →
      vs.map Value.ty = decl.map (·.2)
  | insertField src i v => ∀ x decl d, frame.get v = .ok x → m.regTy? f src = some (.struct decl) →
      decl[i.toNat]? = some d → x.ty = d.2
  | load a => ∀ target μ slot, frame.get a = .ok (.ref (.reference target μ) slot) →
      ∃ v, frame.load slot = .ok v ∧ v.Suits target
  | callIndirect c _ => ∀ u id, frame.get c = .ok (.function u id) → m.signature? id = some u
  | makeTensor _ => t.fixedShape?.isSome = true ∧ t.elemKind?.isSome = true
  | tensorBinary op l r _ => (∀ e, t.elemKind? = some e → e.supports op = true) ∧
      ∀ tl tr shape, m.regTy? f l = some tl → m.regTy? f r = some tr → tl.Admits shape →
        tr.Admits shape → t.Admits shape
  | tensorScale src _ _ => ∀ ts shape, m.regTy? f src = some ts → ts.Admits shape → t.Admits shape
  | _ => True

/-- The tensors among the operands are exact, and a product of matrices has a buffer. -/
def Ir.Rhs.Exact (frame : Frame) : Ir.Rhs → Prop
  | tensorBinary _ l r _ | dot l r => ∀ a b, Exec.Views frame l a → Exec.Views frame r b → a.Exact ∧ b.Exact
  | matmul l r => ∀ a b, Exec.Views frame l a → Exec.Views frame r b → a.Exact ∧ b.Exact ∧
      ∀ m l n, a.shape = [m, l] → b.shape = [l, n] → m.toNat * n.toNat * a.elem.size < 2 ^ 63
  | tensorScale s _ _ | sum s | extractElement s _ => ∀ a, Exec.Views frame s a → a.Exact
  | _ => True

/-- What an instruction needs beyond the checks of verification. -/
def Ir.Instr.Apt (m : Ir.Module) (f : Ir.Function) (frame : Frame) : Ir.Instr → Prop
  | define dst rhs => rhs.Exact frame ∧ ∀ t, m.regTy? f dst = some t → rhs.Apt m f frame t
  | store addr _ => ∀ u slot, frame.get addr = .ok (.ref u slot) → slot.toNat < frame.slots.size

namespace Exec

open Ir Value

/-- A value of type `t`, or a failure that is not a broken invariant. -/
def Results (t : Ty) : Except Fault Value → Prop
  | .ok v => v.Suits t
  | .error e => e.kind ≠ .internal

theorem Delivers.results (h : Delivers sig t mayFail x) : Results t x := by
  cases x with
  | ok v => exact Plain.suits h
  | error e => exact h.2

section
variable {m : Ir.Module} {f : Ir.Function} {frame : Frame} {dst : Reg} {t : Ty} {r : Reg}

/-- An operand, of a type that is told up to the mutability of a reference. -/
theorem Supplies.at (h : Supplies m f frame rs) (hr : r ∈ rs)
    (hat : (m.context f).At r u) : ∃ v, frame.get r = .ok v ∧ v.Suits u := by
  obtain ⟨t, v, ht, hv, hsuits⟩ := h r hr
  obtain ⟨w, hw, hsame⟩ := hat
  obtain rfl := Option.some.inj (ht.symm.trans hw)
  exact ⟨v, hv, hsuits.of_same hsame⟩

theorem Supplies.reg (h : Supplies m f frame rs) (hr : r ∈ rs)
    (hreg : (m.context f).reg r = some u) : ∃ v, frame.get r = .ok v ∧ v.Suits u :=
  h.at hr (.of_reg hreg)

theorem Supplies.all (rs : List Reg) (h : Supplies m f frame rs) (hregs : (m.context f).Regs rs ts) :
    ∃ vs, rs.mapM frame.get = .ok vs ∧ List.Forall₂ (fun v t => v.Suits t) vs ts := by
  induction hregs with
  | nil => exact ⟨[], rfl, .nil⟩
  | @cons r u rs ts hr _ ih =>
    obtain ⟨v, hv, hsuits⟩ := h.at mem_cons_self hr
    obtain ⟨vs, hvs, hall⟩ := ih fun q hq => h q (mem_cons_of_mem r hq)
    exact ⟨v :: vs, by simp [hv, hvs, Except.pure_eq_ok], .cons hsuits hall⟩

theorem Supplies.elem (h : Supplies m f frame rs) (hr : r ∈ rs)
    {rank : Nat} (hholds : Scope.Holds ⟨m, f⟩ r et rank) : ∃ e, et.asElem? = some e := by
  obtain ⟨u, hu, het, -⟩ := hholds
  obtain ⟨v, -, hsuits⟩ := h.reg hr hu
  obtain ⟨e, _, _, _, _, he, -⟩ := Has.view (Γ := m.context f) (hsuits.has (Ty.isData_of_element het)) het
  exact ⟨e, he⟩

/-- A register for numbers, vectors and tensors. -/
def HoldsData (m : Ir.Module) (f : Ir.Function) (r : Reg) : Prop :=
  ∀ u, m.regTy? f r = some u → u.isData = true

theorem results_of_typed (hdst : m.regTy? f dst = some t) (htyped : rhs.Typed (m.context f) t)
    (hplain : rhs.isPlain = true) (hload : ∀ a, rhs ≠ .load a) (hsup : Supplies m f frame rhs.uses)
    (hdata : ∀ r ∈ rhs.uses, HoldsData m f r) : Results t (eval m f frame dst rhs) := by
  refine (delivers_eval hdst htyped hplain (fun r hr => ?_) fun a _ _ ha => absurd ha (hload a)).results
  obtain ⟨u, v, hu, hv, hsuits⟩ := hsup r hr
  exact ⟨v, hv, u, hu, hsuits.has (hdata r hr u hu)⟩

theorem holdsData_of_at (hat : (m.context f).At r u) (hu : u.isData = true) : HoldsData m f r := by
  intro u' hreg
  obtain rfl := Option.some.inj (hreg.symm.trans (hat.reg (Ty.holdsReference_of_isData hu)))
  exact hu

theorem holdsData_of_holds {rank : Nat} (h : Scope.Holds ⟨m, f⟩ r et rank) : HoldsData m f r := by
  intro u hreg
  obtain ⟨w, hw, het, -⟩ := h
  obtain rfl := Option.some.inj (hreg.symm.trans hw)
  exact Ty.isData_of_element het

theorem results_eval (hconst : ∀ c v, m.constants.get? c = some v → v.Valid)
    (hdst : m.regTy? f dst = some t) (hacc : rhs.Accepted ⟨m, f⟩ t) (hlocal : rhs.isLocal = true)
    (hsup : Supplies m f frame rhs.uses) (hapt : rhs.Apt m f frame t) :
    Results t (eval m f frame dst rhs) := by
  have hregTy : regTy m f dst = .ok t := by simp [regTy, hdst, expect]
  have hone : ∀ {src : Reg}, HoldsData m f src → ∀ x ∈ [src], HoldsData m f x := fun h x hx =>
    mem_singleton.1 hx ▸ h
  have htwo : ∀ {l r : Reg}, HoldsData m f l → HoldsData m f r → ∀ x ∈ [l, r], HoldsData m f x :=
    fun hl hr => forall_mem_cons.2 ⟨hl, hone hr⟩
  have hpair : ∀ {l r : Reg} {u : Ty}, (m.context f).Regs [l, r] [u, u] → u.isData = true →
      ∀ x ∈ [l, r], HoldsData m f x := by
    intro l r u hregs hu
    obtain ⟨hl, hr⟩ := Context.regs_pair.1 hregs
    exact htwo (holdsData_of_at hl hu) (holdsData_of_at hr hu)
  have hkind : ∀ {k : Kind}, t.Same (.ofKind k) → t = .ofKind k := fun h => h.eq (Ty.holdsReference_ofKind _)
  have hcomplex : ∀ {k : Kind}, t.Same (.complexOf k) → t = .complexOf k := fun h => h.eq rfl
  -- on data what is accepted is typed; forms that name other values are evaluated here
  cases rhs with
  | const c =>
    obtain ⟨v, hv, hsame⟩ := hacc
    have hv : m.constants.get? c = some v := hv
    simp only [eval, hv, expect]
    exact ⟨hconst c v hv, hsame.symm⟩
  | binary op k l r checked =>
    obtain ⟨hop, hsame, hregs⟩ := hacc
    obtain rfl := hkind hsame
    refine results_of_typed hdst ⟨rfl, hregs, ?_⟩ rfl (by simp) hsup (hpair hregs (Ty.isData_ofKind k))
    unfold Scalar.supports
    split
    · exact hop ‹_›
    · split
      · simpa [or_assoc] using hapt ‹_›
      · rfl
  | compare op k l r =>
    obtain ⟨hsame, hregs⟩ := hacc
    exact results_of_typed hdst ⟨hkind hsame, hregs⟩ rfl (by simp) hsup (hpair hregs (Ty.isData_ofKind k))
  | unary op k src checked =>
    obtain ⟨hop, hsame, hsrc⟩ := hacc
    obtain rfl := hkind hsame
    refine results_of_typed hdst ⟨rfl, hsrc, ?_⟩ rfl (by simp) hsup
      (hone (holdsData_of_at hsrc (Ty.isData_ofKind k)))
    cases op <;> cases k <;> first | rfl | cases hop
  | convert a b src =>
    obtain ⟨hsame, hsrc⟩ := hacc
    exact results_of_typed hdst ⟨hkind hsame, hsrc⟩ rfl (by simp) hsup
      (hone (holdsData_of_at hsrc (Ty.isData_ofKind a)))
  | complexBinary op k l r =>
    obtain ⟨hsame, hregs⟩ := hacc
    obtain rfl := hcomplex hsame
    obtain ⟨v, -, hv⟩ := hsup.at (by simp [Rhs.uses]) (Context.regs_pair.1 hregs).1
    exact results_of_typed hdst ⟨rfl, hv.isFloat, hregs, hapt⟩ rfl (by simp) hsup (hpair hregs rfl)
  | complexCompare op k l r =>
    obtain ⟨hsame, hregs⟩ := hacc
    obtain ⟨v, -, hv⟩ := hsup.at (by simp [Rhs.uses]) (Context.regs_pair.1 hregs).1
    exact results_of_typed hdst ⟨hkind hsame, hv.isFloat, hregs, hapt⟩ rfl (by simp) hsup (hpair hregs rfl)
  | complexUnary op k src =>
    obtain ⟨hsame, hsrc⟩ := hacc
    obtain rfl := hcomplex hsame
    obtain ⟨v, -, hv⟩ := hsup.at (by simp [Rhs.uses]) hsrc
    exact results_of_typed hdst ⟨rfl, hv.isFloat, hsrc⟩ rfl (by simp) hsup (hone (holdsData_of_at hsrc rfl))
  | complexPart part k src =>
    obtain ⟨hsame, hsrc⟩ := hacc
    obtain ⟨v, -, hv⟩ := hsup.at (by simp [Rhs.uses]) hsrc
    exact results_of_typed hdst ⟨hkind hsame, hv.isFloat, hsrc⟩ rfl (by simp) hsup
      (hone (holdsData_of_at hsrc rfl))
  | makeComplex k re im =>
    obtain ⟨hsame, hregs⟩ := hacc
    exact results_of_typed hdst ⟨hcomplex hsame, hapt, hregs⟩ rfl (by simp) hsup
      (hpair hregs (Ty.isData_ofKind k))
  | makeStruct fields =>
    obtain ⟨decl, rfl, hregs⟩ := hacc
    obtain ⟨vs, hvs, hall⟩ := Supplies.all fields hsup hregs
    simp only [eval, hvs, hregTy, ok_bind]
    have htys := hapt vs decl hvs rfl
    have hvalid : ∀ v ∈ vs, v.Valid := fun v hv => by
      obtain ⟨_, -, hsuits⟩ := forall₂_exists_right hall hv
      exact hsuits.valid
    refine ⟨valid_of_fields (forall₂_imp_mem (R := fun v d => v.ty = d.2) ?_
      fun v hv d _ hty => ⟨hty, hvalid v hv⟩), .refl _⟩
    rw [← forall₂_map_right_iff (f := fun d : String × Ty => d.2), ← htys,
      forall₂_map_right_iff, forall₂_same]
    exact fun _ _ => rfl
  | extractField src i =>
    obtain ⟨decl, d, hsrc, hd, hsame⟩ := hacc
    obtain ⟨v, hv, hsuits⟩ := hsup.reg (by simp [Rhs.uses]) hsrc
    obtain ⟨fs, rfl, hfs⟩ := hsuits.struct
    obtain ⟨x, hx, hty, hvalid⟩ := forall₂_getElem?_right hfs hd
    simp only [eval, hv, ok_bind, fields?, Option.bind_some, hx, expect]
    exact ⟨hvalid, hty ▸ hsame.symm⟩
  | insertField src i v =>
    obtain ⟨decl, d, hsrc, hd, hval, hsame⟩ := hacc
    obtain ⟨a, ha, hsuits⟩ := hsup.reg (by simp [Rhs.uses]) hsrc
    obtain ⟨x, hx, hsuitsx⟩ := hsup.at (r := v) (by simp [Rhs.uses]) hval
    obtain ⟨fs, rfl, hfs⟩ := hsuits.struct
    obtain ⟨y, hy, -⟩ := forall₂_getElem?_right hfs hd
    have hlt : i.toNat < fs.length := (List.getElem?_eq_some_iff.1 hy).1
    simp only [eval, ha, hx, ok_bind, hlt, if_true]
    refine ⟨valid_of_fields (forall₂_set hfs fun d' hd' => ?_), hsame.symm⟩
    obtain rfl := Option.some.inj (hd.symm.trans hd')
    exact ⟨hapt x decl d hx hsrc hd, hsuitsx.valid⟩
  | stackSlot slot =>
    obtain ⟨target, μ, -, rfl⟩ := hacc
    simp only [eval, hregTy, ok_bind]
    exact ⟨rfl, .refl _⟩
  | load a =>
    obtain ⟨target, μ, ha, hsame⟩ := hacc
    obtain ⟨v, hv, hsuits⟩ := hsup.reg (by simp [Rhs.uses]) ha
    obtain ⟨μ', slot, rfl⟩ := hsuits.ref
    obtain ⟨x, hx, hsuitsx⟩ := hapt target μ' slot hv
    simp only [eval, hv, ok_bind, asSlot, hx]
    exact hsuitsx.of_same hsame.symm
  | funcRef g =>
    obtain ⟨-, ps, ret, rfl⟩ := hacc
    simp only [eval, hregTy, ok_bind]
    exact ⟨rfl, .refl _⟩
  | makeTensor es =>
    obtain ⟨et, rank, het, -, hes, hcount⟩ := hacc
    obtain ⟨shape, hshape⟩ := Option.isSome_iff_exists.1 hapt.1
    obtain ⟨e, he⟩ := Option.isSome_iff_exists.1 hapt.2
    have he : et.asElem? = some e := by simpa [Ty.elemKind?, het] using he
    exact results_of_typed hdst ⟨et, e, shape, het, he, hshape, hes, fun _ => hcount shape hshape⟩ rfl
      (by simp) hsup fun r hr => holdsData_of_at (hes r hr) (Ty.isData_of_asElem he)
  | tensorBinary op l r checked =>
    obtain ⟨et, rank, het, hrank, ⟨tl, hl, hel, hrl⟩, ⟨tr, hr, her, hrr⟩⟩ := hacc
    exact results_of_typed hdst ⟨tl, tr, et, Context.regs_pair.2 ⟨.of_reg hl, .of_reg hr⟩, hel, her, het,
      fun e he => hapt.1 e (by simp [Ty.elemKind?, het, he]), fun shape => hapt.2 tl tr shape hl hr,
      hrl.trans hrank.symm, hrr.trans hrank.symm⟩ rfl (by simp) hsup
      (htwo (holdsData_of_holds ⟨tl, hl, hel, hrl⟩) (holdsData_of_holds ⟨tr, hr, her, hrr⟩))
  | tensorScale src factor checked =>
    obtain ⟨et, rank, het, -, ⟨ts, hts, hes, -⟩, hfactor⟩ := hacc
    obtain ⟨a, ha, hsuits⟩ := hsup.reg (by simp [Rhs.uses]) hts
    obtain ⟨e, shape, data, view, -, he, hadmits, -, hview, rfl, rfl⟩ :=
      Has.view (Γ := m.context f) (hsuits.has (Ty.isData_of_element hes)) hes
    obtain ⟨b, hb, hsuitsb⟩ := hsup.at (r := factor) (by simp [Rhs.uses]) hfactor
    obtain ⟨x, hx, hfits⟩ := Has.toElem_fits (Γ := m.context f)
      (hsuitsb.has (Ty.isData_of_asElem he)) he
    simp only [eval, ha, hb, ok_bind, asElem, hx, asView, hview, expect, hregTy]
    refine Delivers.results (?_ : Delivers m.signature? t true _)
    exact delivers_kernel (View.works_scale (Ty.asElem_numeric he) hfits) fun data hsize =>
      plain_tensor het he (hapt ts _ hts hadmits) (hsize.trans view.size_data)
  | dot l r =>
    obtain ⟨et, hl, hr, hsame⟩ := hacc
    obtain ⟨e, he⟩ := hsup.elem (by simp [Rhs.uses]) hl
    obtain rfl := hsame.eq (Ty.holdsReference_of_isData (Ty.isData_of_asElem he))
    have hdata := htwo (holdsData_of_holds hl) (holdsData_of_holds hr)
    obtain ⟨tl, htl, hel, hrl⟩ := hl
    obtain ⟨tr, htr, her, hrr⟩ := hr
    exact results_of_typed hdst ⟨tl, tr, Context.regs_pair.2 ⟨.of_reg htl, .of_reg htr⟩, hel, her, hrl, hrr⟩
      rfl (by simp) hsup hdata
  | matmul l r =>
    obtain ⟨et, hl, hr, het, hrank⟩ := hacc
    have hdata := htwo (holdsData_of_holds hl) (holdsData_of_holds hr)
    obtain ⟨tl, htl, hel, hrl⟩ := hl
    obtain ⟨tr, htr, her, hrr⟩ := hr
    exact results_of_typed hdst ⟨tl, tr, et, Context.regs_pair.2 ⟨.of_reg htl, .of_reg htr⟩, hel, her, het,
      hrl, hrr, hrank⟩ rfl (by simp) hsup hdata
  | sum src =>
    obtain ⟨et, rank, hsrc, hsame⟩ := hacc
    obtain ⟨e, he⟩ := hsup.elem (by simp [Rhs.uses]) hsrc
    obtain rfl := hsame.eq (Ty.holdsReference_of_isData (Ty.isData_of_asElem he))
    have hdata := hone (holdsData_of_holds hsrc)
    obtain ⟨ts, hts, hes, -⟩ := hsrc
    exact results_of_typed hdst ⟨ts, .of_reg hts, hes⟩ rfl (by simp) hsup hdata
  | extractElement src is =>
    obtain ⟨et, hsrc, his, hsame⟩ := hacc
    obtain ⟨e, he⟩ := hsup.elem (by simp [Rhs.uses]) hsrc
    obtain rfl := hsame.eq (Ty.holdsReference_of_isData (Ty.isData_of_asElem he))
    have hdata : ∀ r ∈ (Rhs.extractElement src is).uses, HoldsData m f r := forall_mem_cons.2
      ⟨holdsData_of_holds hsrc, fun r hr => holdsData_of_at (his r hr) (Ty.isData_ofKind .i64)⟩
    obtain ⟨ts, hts, hes, hrank⟩ := hsrc
    exact results_of_typed hdst ⟨ts, .of_reg hts, hes, his, hrank⟩ rfl (by simp) hsup hdata
  | dim src axis =>
    obtain ⟨et, rank, hsrc, haxis, hsame⟩ := hacc
    have hdata := hone (holdsData_of_holds hsrc)
    obtain ⟨ts, hts, hes, hrank⟩ := hsrc
    obtain ⟨ds, hds, hlen⟩ := Option.map_eq_some_iff.1 hrank
    exact results_of_typed hdst ⟨hkind hsame, ts, et, ds, .of_reg hts, hes, hds, hlen ▸ haxis⟩ rfl (by simp)
      hsup hdata
  | tensorCast src =>
    obtain ⟨et, rank, hsrc, het, hrank⟩ := hacc
    have hdata := hone (holdsData_of_holds hsrc)
    obtain ⟨ts, hts, hes, hsrank⟩ := hsrc
    exact results_of_typed hdst ⟨ts, et, .of_reg hts, hes, het, hsrank.trans hrank.symm⟩ rfl (by simp)
      hsup hdata
  | call | callIndirect | phi => cases hlocal

theorem ne_crash_of_isSafe {e : Fault} (h : e.isSafe = true) : e.kind ≠ .crash :=
  bne_iff_ne.1 (Bool.and_eq_true_iff.1 h).2

theorem kernel_ne_crash {x : Except TensorError α} (h : View.Safe P x) :
    Except.Fails (·.kind ≠ .crash) (kernel x) := by
  refine (safe_kernel fun hx => ?_).mono fun _ => ne_crash_of_isSafe
  rw [hx] at h
  exact h rfl

theorem kernelsFail_of_exact (h : rhs.Exact frame) : KernelsFail (·.kind ≠ .crash) frame rhs := by
  cases rhs with
  | tensorBinary =>
    exact fun a b ha hb => kernel_ne_crash ((h a b ha hb).1.safe_elementwise (h a b ha hb).2)
  | tensorScale => exact fun a _ ha => kernel_ne_crash (h a ha).safe_scale
  | dot => exact fun a b ha hb => kernel_ne_crash ((h a b ha hb).1.safe_dot (h a b ha hb).2)
  | matmul =>
    intro a b ha hb
    obtain ⟨hexact, hexact', hproduct⟩ := h a b ha hb
    exact kernel_ne_crash (hexact.safe_matmul hexact' hproduct)
  | sum => exact fun a ha => kernel_ne_crash (h a ha).safe_sum
  | extractElement =>
    exact fun a _ ha => ⟨kernel_ne_crash View.safe_flatIndex,
      fun _ hi => kernel_ne_crash ((h a ha).safe_get_flatIndex hi)⟩
  | _ => trivial

/-- On exact tensors, no evaluation accesses a byte outside of a buffer. -/
theorem eval_ne_crash (h : rhs.Exact frame) : Except.Fails (·.kind ≠ .crash) (eval m f frame dst rhs) := by
  refine fails_eval (fun _ => ne_crash_of_isSafe) m f dst (fun r _ e he => ?_) (kernelsFail_of_exact h)
  rw [(get_eq_error he).1]
  exact nofun

end

namespace Activation

variable {m : Ir.Module} {a : Activation} {f : Ir.Function}

/-- What an instruction comes to: a register with a value of its type, or a call of a function on
values of the types of its parameters, for a register that its result suits. -/
def Proceeds (m : Ir.Module) (a : Activation) (i : Instr) : Except Fault Event → Prop
  | .error e => e.kind ≠ .internal ∧ e.kind ≠ .crash
  | .ok (.next b) => ∀ dst, i.dst? = some dst → Supplies m a.func b.frame [dst]
  | .ok (.call b dst target args) => i.dst? = some dst ∧ ∃ g c, m.function? target = some g ∧
      Activation.new g args = .ok c ∧ Supplies m g c.frame g.params ∧
      ∀ ret v, m.ty? g.retType = some ret → v.Suits ret →
        ∃ b', b.setReg dst v = .ok b' ∧ Supplies m a.func b'.frame [dst]
  | .ok (.done _ _) => False

theorem regTys_of_paramTys {g : Ir.Function} (hg : ∀ r ∈ g.params, r.index.toNat < g.regTypes.size)
    (hps : m.paramTys? g = some ps) :
    List.Forall₂ (fun r p => m.regTy? g r = some p) g.params ps := by
  unfold Ir.Module.paramTys? Ir.Function.paramTypes at hps
  generalize g.params = rs at hg hps
  induction rs generalizing ps with
  | nil =>
    cases hps
    exact .nil
  | cons r rs ih =>
    obtain ⟨id, hid⟩ : ∃ id, g.regType? r = some id :=
      ⟨_, Array.getElem?_eq_getElem (hg r mem_cons_self)⟩
    rw [filterMap_cons, hid, mapM_eq_some, forall₂_cons_left_iff] at hps
    obtain ⟨p, qs, hp, hqs, rfl⟩ := hps
    refine .cons (by simp [Ir.Module.regTy?, hid, hp]) (ih (fun q hq => hg q (mem_cons_of_mem r hq)) ?_)
    exact mapM_eq_some.2 hqs

theorem new_supplies (hg : Scope.Checked ⟨m, g⟩) (hps : m.paramTys? g = some ps)
    (hargs : List.Forall₂ (fun v p => v.Suits p) args ps) :
    ∃ c, Activation.new g args = .ok c ∧ Supplies m g c.frame g.params := by
  have hlt : ∀ r ∈ g.params, r.index.toNat < g.regTypes.size := fun r hr =>
    Definitions.params_lt hg.definitions hr
  have htys := regTys_of_paramTys hlt hps
  have hlen : args.length = g.params.length := hargs.length_eq.trans htys.length_eq.symm
  obtain ⟨frame, hframe⟩ : ∃ c, Frame.new g.name g.params g.regTypes.size g.slotTypes.size args = .ok c :=
    Frame.new_isOk hlen hlt
  refine ⟨_, by simp only [Activation.new, hframe, ok_bind]; rfl, fun r hr => ?_⟩
  obtain ⟨v, hv⟩ : Defined frame r := by
    rw [Frame.new, if_pos hlen] at hframe
    refine defined_of_setAll hframe ?_
    rwa [map_fst_zip (by omega)]
  obtain ⟨t, ht, hsuits⟩ := forall₂_zip_of_forall₂ htys hargs ((Frame.of_new hframe).1 r v hv)
  exact ⟨t, v, ht, hv, hsuits⟩

theorem proceeds_call (hm : m.Checked) (hsig : m.signature? target = some (.function ps ret))
    (hargs : List.Forall₂ (fun v p => v.Suits p) args ps) {i : Instr}
    (hi : i.dst? = some dst) (hdst : m.regTy? a.func dst = some t) (hsame : t.Same ret)
    (hsize : a.frame.regs.size = a.func.regTypes.size) :
    a.Proceeds m i (.ok (.call a.rest dst target args)) := by
  obtain ⟨g, hg, hps, hret⟩ := Scope.signature_eq_some (s := ⟨m, a.func⟩) |>.1 hsig
  have hps : m.paramTys? g = some ps := by
    rw [Ir.Module.paramTys?, mapM_eq_some]
    exact (mapM_eq_ok.1 hps).imp fun _ _ => Scope.typeOfId_eq_ok.1
  obtain ⟨c, hc, hsup⟩ := new_supplies (hm g (mem_of_getElem? hg)) hps hargs
  refine ⟨hi, g, c, hg, hc, hsup, fun ret' v hret' hv => ?_⟩
  obtain rfl := Option.some.inj ((Scope.typeOfId_eq_ok.1 hret).symm.trans hret')
  have hlt : dst.index.toNat < a.frame.regs.size := hsize ▸ Ir.Module.reg_lt hdst
  have hset : a.frame.set dst v = .ok (a.frame.put dst v) := Frame.set_eq_ok.2 ⟨hlt, rfl⟩
  refine ⟨{ a.rest with frame := a.frame.put dst v }, ?_, fun r hr => ?_⟩
  · have hframe : a.rest.frame = a.frame := rfl
    simp [setReg, hframe, hset, Except.pure_eq_ok]
  · obtain rfl := mem_singleton.1 hr
    exact ⟨t, v, hdst, Frame.get_of_set_self hset, hv.of_same hsame.symm⟩

theorem proceeds_local {rhs : Rhs} (hlocal : rhs.isLocal = true)
    (hdst : m.regTy? a.func dst = some t) (hsize : a.frame.regs.size = a.func.regTypes.size)
    (h : Results t (eval m a.func a.frame dst rhs)) (hexact : rhs.Exact a.frame) :
    a.Proceeds m (.define dst rhs) (a.advanceInstr m (.define dst rhs)) := by
  rw [advanceInstr_local hlocal]
  cases heval : eval m a.func a.frame dst rhs with
  | error e =>
    rw [heval] at h
    exact ⟨h, eval_ne_crash hexact e heval⟩
  | ok v =>
    rw [heval] at h
    have hlt : dst.index.toNat < a.frame.regs.size := hsize ▸ Ir.Module.reg_lt hdst
    have hset : a.frame.set dst v = .ok (a.frame.put dst v) := Frame.set_eq_ok.2 ⟨hlt, rfl⟩
    simp only [ok_bind, hset]
    intro d hd
    cases hd
    intro r hr
    obtain rfl := mem_singleton.1 hr
    exact ⟨t, v, hdst, Frame.get_of_set_self hset, h⟩

theorem proceeds_instr (hm : m.Checked) (hconst : ∀ c v, m.constants.get? c = some v → v.Valid)
    (hsize : a.frame.regs.size = a.func.regTypes.size) {i : Instr} (hphi : i.isPhi = false)
    (hacc : i.Accepted ⟨m, a.func⟩) (hsup : Supplies m a.func a.frame i.uses)
    (hapt : i.Apt m a.func a.frame) : a.Proceeds m i (a.advanceInstr m i) := by
  cases i with
  | define dst rhs =>
    obtain ⟨t, hdst, hacc⟩ := hacc
    have hdst : m.regTy? a.func dst = some t := hdst
    obtain ⟨hexact, hapt⟩ := hapt
    have hapt := hapt t hdst
    cases hlocal : rhs.isLocal with
    | true => exact proceeds_local hlocal hdst hsize (results_eval hconst hdst hacc hlocal hsup hapt) hexact
    | false =>
      cases rhs with
      | call target args =>
        obtain ⟨ps, ret, hsig, hregs, hsame⟩ := hacc
        obtain ⟨vs, hvs, hall⟩ := Supplies.all args hsup hregs
        simp only [advanceInstr, hvs, ok_bind]
        exact proceeds_call hm hsig hall rfl hdst hsame hsize
      | callIndirect callee args =>
        obtain ⟨ps, ret, hcallee, hregs, hsame⟩ := hacc
        obtain ⟨v, hv, hsuits⟩ := hsup.reg (r := callee) mem_cons_self hcallee
        obtain ⟨id, rfl⟩ := hsuits.function
        obtain ⟨vs, hvs, hall⟩ := Supplies.all args
          (fun r hr => hsup r (mem_cons_of_mem callee hr)) hregs
        simp only [advanceInstr, hv, ok_bind, functionId?, expect, hvs]
        exact proceeds_call hm (hapt _ id hv) hall rfl hdst hsame hsize
      | phi => cases hphi
      | _ => cases hlocal
  | store addr value =>
    obtain ⟨target, μ, haddr, hvalue⟩ := hacc
    obtain ⟨v, hv, hsuits⟩ := hsup.reg (by simp [Instr.uses]) haddr
    obtain ⟨μ', slot, rfl⟩ := hsuits.ref
    obtain ⟨w, hw, -⟩ := hsup.at (r := value) (by simp [Instr.uses]) hvalue
    have hstore : a.frame.store slot w =
      .ok { a.frame with slots := a.frame.slots.setIfInBounds slot.toNat (some w) } :=
      Frame.store_eq_ok.2 ⟨hapt _ slot hv, rfl⟩
    simp only [advanceInstr, execInstr, hv, hw, ok_bind, asSlot, hstore]
    intro _ h
    cases h

theorem phiCopies_supply {b : Block} {frame : Frame}
    (hphis : ∀ dst incoming, .define dst (.phi incoming) ∈ b.instrs →
      source ∈ incoming.map (·.1) ∧ (Instr.define dst (.phi incoming)).Accepted ⟨m, f⟩)
    (hsup : ∀ dst incoming r, .define dst (.phi incoming) ∈ b.instrs → (source, r) ∈ incoming →
      Supplies m f frame [r]) :
    ∃ copies, phiCopies frame source b.instrs = .ok copies ∧
      ∀ c ∈ copies, ∃ t, m.regTy? f c.1 = some t ∧ c.2.Suits t := by
  have hfind : ∀ {incoming : List (BlockId × Reg)} {p}, incoming.find? (·.1 == source) = some p →
      p.1 = source ∧ p ∈ incoming := fun {incoming p} h =>
    ⟨by simpa using find?_some h, mem_of_find?_eq_some h⟩
  have hinputs : ∀ dst incoming, .define dst (.phi incoming) ∈ b.instrs →
      ∃ p, incoming.find? (·.1 == source) = some p ∧ Defined frame p.2 := fun dst incoming hd => by
    obtain ⟨p, hp, hsource⟩ := mem_map.1 (hphis dst incoming hd).1
    obtain ⟨q, hq⟩ := Option.isSome_iff_exists.1
      (find?_isSome (p := fun x : BlockId × Reg => x.1 == source).2 ⟨p, hp, by simp [hsource]⟩)
    obtain ⟨rfl, hin⟩ := hfind hq
    obtain ⟨_, v, -, hv, -⟩ := hsup dst incoming q.2 hd hin q.2 mem_cons_self
    exact ⟨q, hq, v, hv⟩
  obtain ⟨copies, hcopies, hmem, -⟩ := phiCopies_isOk hinputs
  refine ⟨copies, hcopies, fun c hc => ?_⟩
  obtain ⟨incoming, p, hd, hp, hv⟩ := hmem c hc
  obtain ⟨rfl, hin⟩ := hfind hp
  obtain ⟨t, ht, hacc⟩ := (hphis c.1 incoming hd).2
  obtain ⟨w, hw, hsuits⟩ := (hsup c.1 incoming p.2 hd hin).at mem_cons_self (hacc p hin)
  obtain rfl := Except.ok.inj (hv.symm.trans hw)
  exact ⟨t, ht, hsuits⟩

section
variable {strict : Bool} (hvalid : m.verify.valid strict = true) (hf : f ∈ m.functions) {index : Nat}
  {b : Block} (hb : f.blocks[index]? = some b) (hreached : f.graph.Reached index)
include hvalid hf hb hreached

theorem accepted_of_valid {i : Instr} (hi : i ∈ b.instrs) : i.Accepted ⟨m, f⟩ := by
  obtain ⟨k, hk⟩ := List.getElem?_of_mem hi
  exact Scope.instrErrors_eq_nil.1 ((Module.checked_of_valid hvalid f hf).instr index b hb hreached k i hk).2

theorem proceeds_of_valid (hconst : ∀ c v, m.constants.get? c = some v → v.Valid) (ha : a.func = f)
    (hsize : a.frame.regs.size = f.regTypes.size) {i : Instr} (hi : i ∈ b.instrs)
    (hp : a.pending = i :: is) (hphi : i.isPhi = false) (hsup : Supplies m f a.frame i.uses)
    (hapt : i.Apt m f a.frame) : a.Proceeds m i (a.advance m chain) := by
  subst ha
  rw [advance_cons hp]
  exact proceeds_instr (Module.checked_of_valid hvalid) hconst hsize hphi
    (accepted_of_valid hvalid hf hb hreached hi) hsup hapt

/-- The constants of a decoded module have been checked as they were read. -/
theorem proceeds_of_decode (hdecode : Ir.Module.decode bs = .ok m) (ha : a.func = f)
    (hsize : a.frame.regs.size = f.regTypes.size) {i : Instr} (hi : i ∈ b.instrs)
    (hp : a.pending = i :: is) (hphi : i.isPhi = false) (hsup : Supplies m f a.frame i.uses)
    (hapt : i.Apt m f a.frame) : a.Proceeds m i (a.advance m chain) :=
  proceeds_of_valid hvalid hf hb hreached (fun _ _ => Ir.Module.constants_of_decode hdecode) ha hsize
    hi hp hphi hsup hapt

theorem phiCopies_of_valid {frame : Frame} (hsource : source ∈ f.predecessorsOf index)
    (hsup : ∀ dst incoming r, .define dst (.phi incoming) ∈ b.instrs → (source, r) ∈ incoming →
      Supplies m f frame [r]) :
    ∃ copies, phiCopies frame source b.instrs = .ok copies ∧
      ∀ c ∈ copies, ∃ t, m.regTy? f c.1 = some t ∧ c.2.Suits t := by
  refine phiCopies_supply (fun dst incoming hd => ⟨?_, accepted_of_valid hvalid hf hb hreached hd⟩) hsup
  obtain ⟨k, hk⟩ := List.getElem?_of_mem hd
  exact ((Module.checked_of_valid hvalid f hf).instr index b hb hreached k _ hk).1.2.1.mem_iff.2 hsource

end

/-- In a valid module, what a reached block does on operands of their types: an instruction gives a
value of the type of its register, or starts a function of the module on arguments of the types of
its parameters, or fails for a reason other than a broken invariant or an access out of bounds; and
the phis take values of their types on every edge. Constants have to be valid, as those of a decoded
module are (`proceeds_of_decode`), and instructions `Apt`. -/
theorem verified_instrs_supply {strict : Bool} (hvalid : m.verify.valid strict = true)
    (hconst : ∀ c v, m.constants.get? c = some v → v.Valid) (hf : f ∈ m.functions) {index : Nat}
    {b : Block} (hb : f.blocks[index]? = some b) (hreached : f.graph.Reached index) :
    (∀ (a : Activation) (chain : Chain) (i : Instr) (rest : List Instr), a.func = f →
      a.frame.regs.size = f.regTypes.size → i ∈ b.instrs → a.pending = i :: rest → i.isPhi = false →
      Supplies m f a.frame i.uses → i.Apt m f a.frame → a.Proceeds m i (a.advance m chain)) ∧
    ∀ (frame : Frame) (source : BlockId), source ∈ f.predecessorsOf index →
      (∀ dst incoming r, .define dst (.phi incoming) ∈ b.instrs → (source, r) ∈ incoming →
        Supplies m f frame [r]) →
      ∃ copies, phiCopies frame source b.instrs = .ok copies ∧
        ∀ c ∈ copies, ∃ t, m.regTy? f c.1 = some t ∧ c.2.Suits t :=
  ⟨fun _ _ _ _ ha hsize hi hp hphi hsup hapt =>
    proceeds_of_valid hvalid hf hb hreached hconst ha hsize hi hp hphi hsup hapt,
   fun _ _ hsource hsup => phiCopies_of_valid hvalid hf hb hreached hsource hsup⟩

/-- The sum of two integers, in a block that a branch leads to. -/
def guardedSum : Ir.Module where
  types := ⟨#[.bool, .ofKind .i64]⟩
  functions := [{
    id := ⟨0⟩, name := "sum", params := [⟨0⟩, ⟨1⟩, ⟨2⟩], retType := ⟨1⟩
    regTypes := #[⟨0⟩, ⟨1⟩, ⟨1⟩, ⟨1⟩, ⟨1⟩], slotTypes := #[]
    blocks := [
      ⟨⟨0⟩, "entry", [], .branch ⟨0⟩ ⟨1⟩ ⟨2⟩⟩,
      ⟨⟨1⟩, "sum", [.define ⟨3⟩ (.binary .add .i64 ⟨1⟩ ⟨2⟩ true)], .jump ⟨2⟩⟩,
      ⟨⟨2⟩, "exit", [.define ⟨4⟩ (.phi [(⟨0⟩, ⟨1⟩), (⟨1⟩, ⟨3⟩)])], .ret ⟨4⟩⟩] }]

/-- Registers of the sum, before it is taken. -/
def guardedSum.frame : Frame where
  function := "sum"
  regs := #[some (.ofBool true), some (.ofI64 2), some (.ofI64 40), none, none]
  slots := #[]

theorem verified_instrs_supply_sum :
    guardedSum.verify.valid true = true ∧ ∃ f ∈ guardedSum.functions, ∃ b i rest,
      f.blocks[1]? = some b ∧ f.graph.Reached 1 ∧ b.instrs = i :: rest ∧ i.isPhi = false ∧
      Supplies guardedSum f guardedSum.frame i.uses ∧ i.Apt guardedSum f guardedSum.frame ∧
      ∃ a : Activation, a.frame = guardedSum.frame ∧ a.pending = b.instrs ∧
        a.Proceeds guardedSum i (a.advance guardedSum { maxDepth := 1 }) := by
  have hvalid : guardedSum.verify.valid true = true := by cbv
  have hreached : (guardedSum.functions.head (by simp [guardedSum])).graph.Reached 1 :=
    ⟨_, .step .start ⟨[0], rfl, List.mem_cons_self⟩⟩
  have hsup : Supplies guardedSum (guardedSum.functions.head (by simp [guardedSum])) guardedSum.frame
      [⟨1⟩, ⟨2⟩] := by
    intro r hr
    simp only [List.mem_cons, List.not_mem_nil, or_false] at hr
    rcases hr with rfl | rfl
    · exact ⟨.ofKind .i64, .ofI64 2, rfl, rfl, rfl, .refl _⟩
    · exact ⟨.ofKind .i64, .ofI64 40, rfl, rfl, rfl, .refl _⟩
  have hapt : (Instr.define ⟨3⟩ (.binary .add .i64 ⟨1⟩ ⟨2⟩ true)).Apt guardedSum
      (guardedSum.functions.head (by simp [guardedSum])) guardedSum.frame := by
    refine ⟨trivial, fun t _ hk => ?_⟩
    cases hk
  obtain ⟨hinstrs, -⟩ := verified_instrs_supply hvalid (by simp [guardedSum, ConstantPool.get?])
    (List.head_mem (l := guardedSum.functions) (by simp [guardedSum])) rfl hreached
  exact ⟨hvalid, _, List.head_mem _, _, _, _, rfl, hreached, rfl, rfl, hsup, hapt,
    ⟨_, guardedSum.frame, ⟨1⟩, _, none⟩, rfl, rfl,
    hinstrs ⟨_, guardedSum.frame, ⟨1⟩, _, none⟩ _ _ _ rfl rfl (List.mem_cons_self) rfl rfl hsup hapt⟩

/-- The sum of two truth values. -/
def boolSum : Ir.Module where
  types := ⟨#[.bool]⟩
  functions := [{
    id := ⟨0⟩, name := "f", params := [⟨0⟩, ⟨1⟩], retType := ⟨0⟩
    regTypes := #[⟨0⟩, ⟨0⟩, ⟨0⟩], slotTypes := #[]
    blocks := [⟨⟨0⟩, "entry", [.define ⟨2⟩ (.binary .add .bool ⟨0⟩ ⟨1⟩ false)], .ret ⟨2⟩⟩] }]

/-- A sum of truth values is accepted, and has no meaning on operands of their types. -/
theorem bool_sum_broken :
    boolSum.verify.valid true = true ∧ ∃ f ∈ boolSum.functions, f.graph.Reached 0 ∧
      ∃ a i rest, Activation.new f [.ofBool true, .ofBool true] = .ok a ∧ a.pending = i :: rest ∧
        Supplies boolSum f a.frame i.uses ∧
        a.advance boolSum { maxDepth := 1 } = .error (.internal .unsupportedOperator) := by
  refine ⟨by cbv, _, List.mem_singleton.2 rfl, ⟨_, .start⟩, _, _, _, rfl, rfl, fun r hr => ?_, rfl⟩
  refine ⟨.bool, .ofBool true, ?_⟩
  simp only [Instr.uses, Rhs.uses, List.mem_cons, List.not_mem_nil, or_false] at hr
  rcases hr with rfl | rfl
  · exact ⟨rfl, rfl, rfl, .refl _⟩
  · exact ⟨rfl, rfl, rfl, .refl _⟩

end Activation

end Exec

end NumericEngine
