import NumericEngine.Proofs.Value.Typing

/-!
# Typing of instructions

The rule of each right-hand side: the types of the registers it reads, and the
type of its result. The rules ask for no more than evaluation needs, and they
are kept when a module grows.
-/

namespace NumericEngine.Ir

open List

namespace Context

/-- A register of a type, up to the mutability of a reference. -/
def At (Γ : Context) (r : Reg) (t : Ty) : Prop := ∃ u, Γ.reg r = some u ∧ u.Same t

/-- Registers of the given types. -/
def Regs (Γ : Context) (rs : List Reg) (ts : List Ty) : Prop := List.Forall₂ Γ.At rs ts

end Context

/-- A right-hand side whose result has type `t`. -/
def Rhs.Typed (Γ : Context) (t : Ty) : Rhs → Prop
  | const c => ∃ v, Γ.const c = some v ∧ v.ty = t ∧ v.Valid ∧ v.toElem?.isSome
  | binary op k l r _ =>
    t = .ofKind k ∧ Γ.Regs [l, r] [t, t] ∧ Scalar.supports op k = true
  | compare _ k l r => t = .bool ∧ Γ.Regs [l, r] [.ofKind k, .ofKind k]
  | unary op k s _ => t = .ofKind k ∧ Γ.At s t ∧ Scalar.supportsUnary op k = true
  | convert a b s => t = .ofKind b ∧ Γ.At s (.ofKind a)
  | complexBinary op k l r =>
    t = .complexOf k ∧ k.isFloat = true ∧ Γ.Regs [l, r] [t, t] ∧ Complex.supports op = true
  | complexCompare op k l r =>
    t = .bool ∧ k.isFloat = true ∧ Γ.Regs [l, r] [.complexOf k, .complexOf k] ∧
      (op = .eq ∨ op = .ne)
  | complexUnary _ k s => t = .complexOf k ∧ k.isFloat = true ∧ Γ.At s t
  | complexPart _ k s => t = .ofKind k ∧ k.isFloat = true ∧ Γ.At s (.complexOf k)
  | makeComplex k re im =>
    t = .complexOf k ∧ k.isFloat = true ∧ Γ.Regs [re, im] [.ofKind k, .ofKind k]
  | makeStruct fs => ∃ decl, t = .struct decl ∧ Γ.Regs fs (decl.map (·.2)) ∧ t.holdsReference = false
  | extractField s i =>
    ∃ decl d, Γ.At s (.struct decl) ∧ decl[i.toNat]? = some d ∧ d.2 = t
  | insertField s i v =>
    ∃ decl d, t = .struct decl ∧ Γ.At s t ∧ decl[i.toNat]? = some d ∧ Γ.At v d.2
  | stackSlot s =>
    ∃ target m, t = .reference target m ∧ Γ.slot s = some target ∧ target.holdsReference = false
  | load a => ∃ m, Γ.At a (.reference t m)
  | call f args => ∃ ps, Γ.sig f = some (.function ps t) ∧ Γ.Regs args ps
  | funcRef f => Γ.sig f = some t ∧ ∃ ps r, t = .function ps r
  | callIndirect c args => ∃ ps, Γ.At c (.function ps t) ∧ Γ.Regs args ps
  | phi incoming => ∀ p ∈ incoming, Γ.At p.2 t
  | makeTensor es =>
    ∃ et e shape, t.element? = some et ∧ et.asElem? = some e ∧ t.fixedShape? = some shape ∧
      (∀ r ∈ es, Γ.At r et) ∧ (es.length < UInt64.size → Shape.count shape = es.length)
  | tensorBinary op l r _ =>
    ∃ tl tr et, Γ.Regs [l, r] [tl, tr] ∧ tl.element? = some et ∧ tr.element? = some et ∧
      t.element? = some et ∧ (∀ e, et.asElem? = some e → e.supports op = true) ∧
      (∀ shape, tl.Admits shape → tr.Admits shape → t.Admits shape) ∧
      tl.rank? = t.rank? ∧ tr.rank? = t.rank?
  | tensorScale s f _ => ∃ et, Γ.Regs [s, f] [t, et] ∧ t.element? = some et
  | dot l r =>
    ∃ tl tr, Γ.Regs [l, r] [tl, tr] ∧ tl.element? = some t ∧ tr.element? = some t ∧
      tl.rank? = some 1 ∧ tr.rank? = some 1
  | matmul l r =>
    ∃ tl tr et, Γ.Regs [l, r] [tl, tr] ∧ tl.element? = some et ∧ tr.element? = some et ∧
      t.element? = some et ∧ tl.rank? = some 2 ∧ tr.rank? = some 2 ∧ t.rank? = some 2
  | sum s => ∃ ts, Γ.At s ts ∧ ts.element? = some t
  | extractElement s is =>
    ∃ ts, Γ.At s ts ∧ ts.element? = some t ∧ (∀ i ∈ is, Γ.At i .i64) ∧ ts.rank? = some is.length
  | dim s axis =>
    t = .i64 ∧ ∃ ts et ds, Γ.At s ts ∧ ts.element? = some et ∧ ts.dims? = some ds ∧
      axis.toNat < ds.length
  | tensorCast s =>
    ∃ ts et, Γ.At s ts ∧ ts.element? = some et ∧ t.element? = some et ∧ ts.rank? = t.rank?

namespace Context

variable {Γ Δ : Context} {r : Reg}

theorem At.of_reg (h : Γ.reg r = some t) : Γ.At r t := ⟨t, h, .refl t⟩

theorem At.same (h : Γ.At r t) (hs : t.Same u) : Γ.At r u := by
  obtain ⟨w, hw, hsame⟩ := h
  exact ⟨w, hw, hsame.trans hs⟩

theorem At.reg (h : Γ.At r t) (ht : t.holdsReference = false) : Γ.reg r = some t := by
  obtain ⟨u, hu, hs⟩ := h
  exact hs.eq ht ▸ hu

theorem At.mono (h : Γ.Le Δ) (hr : Γ.At r t) : Δ.At r t := by
  obtain ⟨u, hu, hs⟩ := hr
  exact ⟨u, h.reg r u hu, hs⟩

theorem Regs.mono (h : Γ.Le Δ) (hr : Γ.Regs rs ts) : Δ.Regs rs ts :=
  List.Forall₂.imp (fun _ _ hr => hr.mono h) hr

theorem Regs.mem (h : Γ.Regs rs ts) (hr : r ∈ rs) : ∃ t, Γ.reg r = some t := by
  obtain ⟨t, -, u, hu, -⟩ := forall₂_exists_right h hr
  exact ⟨u, hu⟩

end Context

namespace Rhs

@[simp] theorem mapUses_id (rhs : Rhs) : rhs.mapUses id = rhs := by
  cases rhs <;> simp [mapUses]

@[simp] theorem uses_mapUses (ρ : Reg → Reg) (rhs : Rhs) : (rhs.mapUses ρ).uses = rhs.uses.map ρ := by
  cases rhs <;> simp [mapUses, uses]

variable {Γ Δ : Context} {t : Ty} {rhs : Rhs}

theorem Typed.rename (ht : rhs.Typed Γ t) (hreg : ∀ r ∈ rhs.uses, ∀ u, Γ.At r u → Δ.At (ρ r) u)
    (hslot : ∀ s u, Γ.slot s = some u → Δ.slot s = some u)
    (hconst : ∀ c v, Γ.const c = some v → Δ.const c = some v)
    (hsig : ∀ g u, Γ.sig g = some u → Δ.sig g = some u) : (rhs.mapUses ρ).Typed Δ t := by
  have hR : ∀ rs ts, (∀ r ∈ rs, r ∈ rhs.uses) → Γ.Regs rs ts → Δ.Regs (rs.map ρ) ts := by
    intro rs ts hmem h
    rw [Context.Regs, forall₂_map_left_iff]
    exact forall₂_imp_mem h fun r hr u _ => hreg r (hmem r hr) u
  cases rhs with
  | const c =>
    obtain ⟨v, hv, hr⟩ := ht
    exact ⟨v, hconst c v hv, hr⟩
  | binary => exact ⟨ht.1, hR _ _ (fun _ h => h) ht.2.1, ht.2.2⟩
  | compare => exact ⟨ht.1, hR _ _ (fun _ h => h) ht.2⟩
  | unary => exact ⟨ht.1, hreg _ mem_cons_self _ ht.2.1, ht.2.2⟩
  | convert => exact ⟨ht.1, hreg _ mem_cons_self _ ht.2⟩
  | complexBinary | complexCompare => exact ⟨ht.1, ht.2.1, hR _ _ (fun _ h => h) ht.2.2.1, ht.2.2.2⟩
  | complexUnary | complexPart => exact ⟨ht.1, ht.2.1, hreg _ mem_cons_self _ ht.2.2⟩
  | makeComplex => exact ⟨ht.1, ht.2.1, hR _ _ (fun _ h => h) ht.2.2⟩
  | makeStruct =>
    obtain ⟨decl, rfl, hr, hh⟩ := ht
    exact ⟨decl, rfl, hR _ _ (fun _ h => h) hr, hh⟩
  | extractField =>
    obtain ⟨decl, d, hr, hd⟩ := ht
    exact ⟨decl, d, hreg _ mem_cons_self _ hr, hd⟩
  | insertField =>
    obtain ⟨decl, d, rfl, hs, hd, hv⟩ := ht
    exact ⟨decl, d, rfl, hreg _ mem_cons_self _ hs, hd, hreg _ (by simp [uses]) _ hv⟩
  | stackSlot =>
    obtain ⟨target, m, rfl, hs, hp⟩ := ht
    exact ⟨target, m, rfl, hslot _ _ hs, hp⟩
  | load =>
    obtain ⟨m, hr⟩ := ht
    exact ⟨m, hreg _ mem_cons_self _ hr⟩
  | call =>
    obtain ⟨ps, hf, hr⟩ := ht
    exact ⟨ps, hsig _ _ hf, hR _ _ (fun _ h => h) hr⟩
  | funcRef => exact ⟨hsig _ _ ht.1, ht.2⟩
  | callIndirect =>
    obtain ⟨ps, hf, hr⟩ := ht
    exact ⟨ps, hreg _ mem_cons_self _ hf, hR _ _ (fun _ h => mem_cons_of_mem _ h) hr⟩
  | phi incoming =>
    intro q hq
    obtain ⟨p, hp, rfl⟩ := mem_map.1 hq
    exact hreg p.2 (mem_map_of_mem hp) t (ht p hp)
  | makeTensor =>
    obtain ⟨et, e, shape, het, he, hs, hr, hcount⟩ := ht
    refine ⟨et, e, shape, het, he, hs, fun q hq => ?_, by simpa using hcount⟩
    obtain ⟨r, hmem, rfl⟩ := mem_map.1 hq
    exact hreg r hmem et (hr r hmem)
  | tensorBinary =>
    obtain ⟨tl, tr, et, hr, hrest⟩ := ht
    exact ⟨tl, tr, et, hR _ _ (fun _ h => h) hr, hrest⟩
  | tensorScale =>
    obtain ⟨et, hr, het⟩ := ht
    exact ⟨et, hR _ _ (fun _ h => h) hr, het⟩
  | dot =>
    obtain ⟨tl, tr, hr, hrest⟩ := ht
    exact ⟨tl, tr, hR _ _ (fun _ h => h) hr, hrest⟩
  | matmul =>
    obtain ⟨tl, tr, et, hr, hrest⟩ := ht
    exact ⟨tl, tr, et, hR _ _ (fun _ h => h) hr, hrest⟩
  | sum =>
    obtain ⟨ts, hr, het⟩ := ht
    exact ⟨ts, hreg _ mem_cons_self _ hr, het⟩
  | extractElement =>
    obtain ⟨ts, hr, het, his, hrank⟩ := ht
    refine ⟨ts, hreg _ mem_cons_self _ hr, het, fun q hq => ?_, by simpa using hrank⟩
    obtain ⟨r, hmem, rfl⟩ := mem_map.1 hq
    exact hreg r (mem_cons_of_mem _ hmem) _ (his r hmem)
  | dim =>
    obtain ⟨rfl, ts, et, ds, hr, hrest⟩ := ht
    exact ⟨rfl, ts, et, ds, hreg _ mem_cons_self _ hr, hrest⟩
  | tensorCast =>
    obtain ⟨ts, et, hr, hrest⟩ := ht
    exact ⟨ts, et, hreg _ mem_cons_self _ hr, hrest⟩

theorem Typed.mono (h : Γ.Le Δ) (ht : rhs.Typed Γ t) : rhs.Typed Δ t :=
  mapUses_id rhs ▸ ht.rename (ρ := id) (fun _ _ _ hr => hr.mono h) h.slot h.const h.sig

end Rhs

end NumericEngine.Ir
