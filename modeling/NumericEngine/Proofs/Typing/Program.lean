import Mathlib.Data.List.Nodup
import NumericEngine.Proofs.Typing.Check

/-!
# Checked programs

`checkProgram_ok`: the functions of a checked program are well typed. Each
stands in the place of its id, its bindings are numbered in the order of their
introduction, and no reference enters or leaves it.
-/

namespace NumericEngine

open List

namespace TFunction

/-- The type of a binding of the function. -/
def bindingTy? (f : TFunction) (x : LocalId) : Option Ty := f.locals[x.index.toNat]?.map Local.ty

/-- The type of the function. -/
def ty (f : TFunction) : Ty := .function (f.params.filterMap f.bindingTy?) f.ret

/-- What the body refers to, in a program with functions of the given types. -/
def context (sig : FuncId → Option Ty) (f : TFunction) : Typing.Context where
  binding := f.bindingTy?
  sig := sig
  ret := f.ret
  taken x := ∃ l, f.locals[x.index.toNat]? = some l ∧ l.addressTaken = true

/-- A well-typed function. -/
structure Typed (sig : FuncId → Option Ty) (f : TFunction) : Prop where
  body : TStmt.TypedAll (f.context sig) (· ∈ f.params) f.body
  params : ∀ x ∈ f.params, ∃ t, f.bindingTy? x = some t ∧ t.holdsReference = false
  ret : f.ret.holdsReference = false
  taken : ∀ (i : Nat) (l : Local), f.locals[i]? = some l → l.addressTaken = true →
    l.ty.holdsReference = false
  numbers : (f.params ++ TStmt.letsAll f.body).map (·.index.toNat) = List.range f.locals.size
  placed : TStmt.PlacedAll False f.body
  formed : (f.context sig).Formed
  formedRet : f.ret.Formed

end TFunction

namespace Typing

open Check
open Source (Param Function Program)

/-- The types of a program's functions, by id. -/
def signature? (fs : List TFunction) (id : FuncId) : Option Ty := fs[id.index.toNat]?.map TFunction.ty

theorem checkParam_ok (h : checkParam p = .ok ()) : p.ty.holdsReference = false ∧ p.ty.Formed := by
  unfold checkParam at h
  split at h
  · cases h
  · split at h
    · cases h
    · exact ⟨eq_false_of_ne_true ‹_›, validate_ok ‹_›⟩

/-- The signature of a function, under an id. -/
structure SignatureOf (id : FuncId) (f : Function) (s : Signature) : Prop where
  id : s.id = id
  name : s.name = f.name
  params : s.params = f.params.map (·.ty)
  ret : s.ret = f.ret
  plain : ∀ p ∈ f.params, p.ty.holdsReference = false
  plainRet : f.ret.holdsReference = false
  formed : s.ty.Formed

theorem forM_ok {f : α → Rule Unit} {xs : List α} (h : xs.forM f = .ok ()) : ∀ x ∈ xs, f x = .ok () := by
  induction xs with
  | nil => simp
  | cons x xs ih =>
    obtain ⟨⟨⟩, hx, h⟩ := Except.bind_eq_ok.1 h
    exact forall_mem_cons.2 ⟨hx, ih h⟩

theorem checkSignature_ok {id : FuncId} (h : checkSignature id f = .ok s) : SignatureOf id f s := by
  obtain ⟨⟨⟩, hps, h⟩ := Except.bind_eq_ok.1 h
  split at h
  · cases h
  · split at h
    · cases h
    · cases h
      refine ⟨rfl, rfl, rfl, rfl, fun p hp => (checkParam_ok (forM_ok hps p hp)).1,
        eq_false_of_ne_true ‹_›, Ty.formedAll_iff.2 fun t ht => ?_, validate_ok ‹_›⟩
      obtain ⟨p, hp, rfl⟩ := mem_map.1 ht
      exact (checkParam_ok (forM_ok hps p hp)).2

theorem signaturesFrom_ok {n : Nat}
    (h : signaturesFrom n acc fs = .ok sigs) (hacc : (acc.map (·.name)).Nodup) :
    ∃ new, sigs = acc ++ new ∧ (sigs.map (·.name)).Nodup ∧ new.length = fs.length ∧
      ∀ i f s, fs[i]? = some f → new[i]? = some s → SignatureOf ⟨UInt32.ofNat (n + i)⟩ f s := by
  induction fs generalizing n acc with
  | nil =>
    cases h
    exact ⟨[], by simp, hacc, rfl, by simp⟩
  | cons f fs ih =>
    obtain ⟨s, hs, h⟩ := Except.bind_eq_ok.1 h
    split at h
    · cases h
    rename_i hname
    have hs := checkSignature_ok hs
    have hacc' : ((acc ++ [s]).map (·.name)).Nodup := by
      rw [map_append, nodup_append]
      refine ⟨hacc, by simp, ?_⟩
      rintro a ha b hb rfl
      obtain ⟨s', hs', rfl⟩ := mem_map.1 ha
      have : s'.name = s.name := by simpa using hb
      exact hname (any_eq_true.2 ⟨s', hs', by simp [this, hs.name]⟩)
    obtain ⟨new, rfl, hnodup, hlen, hnew⟩ := ih h hacc'
    refine ⟨s :: new, by simp, hnodup, by simp [hlen], ?_⟩
    intro i f' s' hf' hs'
    cases i with
    | zero =>
      cases hf'
      cases hs'
      exact hs
    | succ i => exact (show n + 1 + i = n + (i + 1) by omega) ▸ hnew i f' s' hf' hs'

theorem bindParams_ok {env : Env} (hs : env.scopes ≠ [])
    (hformed : ∀ p ∈ ps, p.ty.Formed) (h : bindParams ps env = (.ok xs, env')) :
    env.Binds env' (fun y => env.Sees y ∨ y ∈ xs) xs ∧
      (env'.locals.size ≤ 2 ^ 32 →
        List.Forall₂ (fun p x => env'.context.binding x = some p.ty) ps xs) := by
  induction ps generalizing env xs with
  | nil =>
    obtain ⟨rfl, rfl⟩ := pure_ok.1 h
    exact ⟨by simpa using (Env.Keeps.refl env).binds hs, fun _ => .nil⟩
  | cons p ps ih =>
    simp only [bindParams, bind_ok, newLocal_ok, pure_ok] at h
    obtain ⟨_, _, ⟨rfl, rfl⟩, xs, env₁, hxs, rfl, rfl⟩ := h
    rw [forall_mem_cons] at hformed
    have hb := Env.bind_binds hs p.name (fun _ => hformed.1) true
    obtain ⟨hbs, hty⟩ := ih hb.nonempty hformed.2 hxs
    constructor
    · have := hb.trans hbs
      rw [hb.sees] at this
      simpa [or_assoc] using this
    · intro hsize
      have hlt : env.locals.size < 2 ^ 32 := by
        have := Nat.le_trans hbs.size hsize
        simpa [Env.bind, Nat.succ_le_iff] using this
      exact .cons (hbs.context_le.binding _ _ (Env.bind_binding env p.name p.ty true hlt)) (hty hsize)

theorem checkFunction_ok {src : Function} {id : FuncId}
    (hnumbered : (Env.new sigs src.ret).Sound) (hs₀ : SignatureOf id src s₀)
    (h : checkFunction sigs src = .ok f) (hsize : f.locals.size ≤ 2 ^ 32) :
    f.Typed (Env.new sigs src.ret).context.sig ∧ f.ty = .function (src.params.map (·.ty)) src.ret ∧
      ∃ s ∈ sigs, s.name = src.name ∧ s.id = f.id := by
  unfold checkFunction at h
  split at h
  · cases h
  rename_i s hfind
  split at h
  · cases h
  rename_i ps body env hbody
  cases h
  simp only [checkBody, bind_ok, pure_ok, Prod.mk.injEq] at hbody
  obtain ⟨xs, env₁, hxs, ss, env₂, hss, ⟨rfl, rfl⟩, rfl⟩ := hbody
  have hformed : (∀ p ∈ src.params, p.ty.Formed) ∧ src.ret.Formed := by
    obtain ⟨hps, hr⟩ := hs₀.formed
    rw [hs₀.params] at hps
    rw [hs₀.ret] at hr
    exact ⟨fun p hp => Ty.formedAll_iff.1 hps p.ty (mem_map_of_mem hp), hr⟩
  obtain ⟨hb, htys⟩ := bindParams_ok (cons_ne_nil _ _) hformed.1 hxs
  obtain ⟨⟨V, hbs⟩, ht, hp⟩ := checkStmts_ok src.body (hb.sound hnumbered) hb.nonempty hss
  have hgrows := hb.toGrows.trans hbs.toGrows
  have hsize₁ := Nat.le_trans hbs.size hsize
  have hsees : env₁.Sees = (· ∈ xs) := by
    rw [hb.sees]
    funext y
    simp [Env.Sees, Env.new]
  have hcontext : env₂.context = TFunction.context (Env.new sigs src.ret).context.sig
      { id := s.id, name := src.name, params := xs, ret := src.ret, locals := env₂.locals, body := ss,
        span := src.span } := by
    have hsig := hgrows.context_le.sig
    have hr := hgrows.context_le.ret
    simp only [Env.context, TFunction.context, Typing.Context.mk.injEq] at hsig hr ⊢
    exact ⟨rfl, hsig, hr, rfl⟩
  have htys : List.Forall₂ (fun p x => env₂.context.binding x = some p.ty) src.params xs :=
    (htys hsize₁).imp fun p x hx => hbs.context_le.binding x p.ty hx
  refine ⟨⟨?_, ?_, hs₀.plainRet, ?_, ?_, ?_, ?_, hformed.2⟩, ?_, s, mem_of_find?_eq_some hfind,
    ?_, rfl⟩
  · rw [← hcontext, ← hsees]
    exact ht hsize
  · intro x hx
    obtain ⟨p, hp, hty⟩ := forall₂_exists_left htys hx
    exact ⟨p.ty, hty, hs₀.plain p hp⟩
  · exact hgrows.plain fun i l hl => by simp [Env.new] at hl
  · have hnum := (hb.trans hbs).numbers hsize
    rw [range_eq_range']
    exact hnum
  · have hloop : (env₁.loopDepth ≠ 0) = False := by
      rw [hb.depth]
      exact eq_false fun h => h rfl
    exact hloop ▸ hp
  · rw [← hcontext]
    exact (hgrows.sound hnumbered).formed
  · exact congrArg (Ty.function · src.ret) (filterMap_eq_map htys)
  · simpa using find?_some hfind

/-- The functions of a checked program are well typed, as long as there are numbers for the functions
and for the bindings of each. -/
theorem checkProgram_ok (h : checkProgram p = .ok fs)
    (hlen : fs.length ≤ 2 ^ 32) (hsize : ∀ f ∈ fs, f.locals.size ≤ 2 ^ 32) :
    (∀ f ∈ fs, f.Typed (signature? fs)) ∧
      ∀ (i : Nat) (f : TFunction), fs[i]? = some f → f.id = ⟨UInt32.ofNat i⟩ := by
  obtain ⟨sigs, hsigs, h⟩ := Except.bind_eq_ok.1 h
  have hfs := mapM_eq_ok.1 h
  obtain ⟨new, heq, hnodup, hnew, hsig⟩ := signaturesFrom_ok hsigs .nil
  obtain rfl : sigs = new := heq
  simp only [Nat.zero_add] at hsig
  have hcount : sigs.length = fs.length := hnew.trans hfs.length_eq
  have hplace : ∀ (i : Nat) (s : Signature), sigs[i]? = some s →
      ∃ src, SignatureOf ⟨UInt32.ofNat i⟩ src s := by
    intro i s hi
    have hlt : i < p.functions.length := hnew ▸ (List.getElem?_eq_some_iff.1 hi).1
    exact ⟨_, hsig i _ s (getElem?_eq_getElem hlt) hi⟩
  have hnumbered : ∀ ret, (Env.new sigs ret).Sound := by
    intro ret
    refine ⟨fun s hs => ?_, fun x t hx => ?_, fun f t hf => ?_⟩
    · obtain ⟨i, hi⟩ := getElem?_of_mem (show s ∈ sigs from hs)
      have hlt : i < sigs.length := (List.getElem?_eq_some_iff.1 hi).1
      obtain ⟨src, hsrc⟩ := hplace i s hi
      have hmod : (UInt32.ofNat i).toNat = i := by
        rw [UInt32.toNat_ofNat', Nat.mod_eq_of_lt]
        omega
      simp [Env.context, Env.new, hsrc.id, hmod, hi]
    · simp [Env.context, Env.local?, Env.new] at hx
    · obtain ⟨s, hs, rfl⟩ := Option.map_eq_some_iff.1 hf
      obtain ⟨src, hsrc⟩ := hplace _ s hs
      exact hsrc.formed
  -- what a function is found to be under its name is what stands in its place
  have hat : ∀ (i : Nat) (f : TFunction), fs[i]? = some f → ∃ src s, p.functions[i]? = some src ∧
    sigs[i]? = some s ∧
      SignatureOf ⟨UInt32.ofNat i⟩ src s ∧ checkFunction sigs src = .ok f := by
    intro i f hf
    obtain ⟨src, hsrc, hcheck⟩ := forall₂_getElem?_right hfs hf
    have hlt : i < sigs.length := hcount ▸ (List.getElem?_eq_some_iff.1 hf).1
    exact ⟨src, sigs[i], hsrc, getElem?_eq_getElem hlt,
      hsig i src _ hsrc (getElem?_eq_getElem hlt), hcheck⟩
  have hok : ∀ (i : Nat) (f : TFunction), fs[i]? = some f → ∃ src, p.functions[i]? = some src ∧
      f.Typed (Env.new sigs src.ret).context.sig ∧ f.ty = .function (src.params.map (·.ty)) src.ret ∧
      ∃ s ∈ sigs, s.name = src.name ∧ s.id = f.id := by
    intro i f hf
    obtain ⟨src, s, hsrc, -, hs, hcheck⟩ := hat i f hf
    exact ⟨src, hsrc, checkFunction_ok (hnumbered src.ret) hs hcheck
      (hsize f (mem_of_getElem? hf))⟩
  have hsignature : ∀ ret, (Env.new sigs ret).context.sig = signature? fs := by
    intro ret
    funext id
    simp only [Env.context, Env.new, signature?]
    cases hf : fs[id.index.toNat]? with
    | none =>
      have hle := getElem?_eq_none_iff.1 hf
      rw [← hcount] at hle
      simp [getElem?_eq_none hle]
    | some f =>
      obtain ⟨src, s, hsrc, hnews, hs, -⟩ := hat _ f hf
      obtain ⟨src', hsrc', -, hty, -⟩ := hok _ f hf
      cases hsrc.symm.trans hsrc'
      rw [hnews, Option.map_some, Option.map_some, hty, Signature.ty, hs.params, hs.ret]
  constructor
  · intro f hf
    obtain ⟨i, hi⟩ := getElem?_of_mem hf
    obtain ⟨src, -, htyped, -⟩ := hok i f hi
    rwa [hsignature] at htyped
  · intro i f hf
    obtain ⟨src, s, hsrc, hnews, hs, -⟩ := hat i f hf
    obtain ⟨src', hsrc', -, -, s', hs', hname, hid⟩ := hok i f hf
    cases hsrc.symm.trans hsrc'
    have heq : s' = s := inj_on_of_nodup_map hnodup hs' (mem_of_getElem? hnews)
      (hname.trans hs.name.symm)
    rw [← hid, heq, hs.id]

end Typing

end NumericEngine
