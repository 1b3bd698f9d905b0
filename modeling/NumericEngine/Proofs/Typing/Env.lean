import Mathlib.Algebra.Group.Nat.Defs
import NumericEngine.Proofs.Interning
import NumericEngine.Proofs.Typing.Judgement
import NumericEngine.Typing.Env

/-!
# Environments of the checker

What a check can do to the environment: bindings are added and references to
them are noted, and nothing that was known before is forgotten. A reference is
only ever taken to a binding that holds none, and all types are well formed.
-/

namespace NumericEngine.Typing

open Source (Span)

namespace Env

/-- What the environment knows. -/
def context (env : Env) : Context where
  binding x := (env.local? x).map (·.ty)
  sig f := env.functions[f.index.toNat]?.map Signature.ty
  ret := env.ret
  taken x := ∃ l, env.local? x = some l ∧ l.addressTaken = true

/-- The bindings in scope. -/
def Sees (env : Env) : Visible := fun x => ∃ scope ∈ env.scopes, ∃ name, (name, x) ∈ scope

/-- Every function stands in the place of its id, and all types are well formed. -/
structure Sound (env : Env) : Prop where
  functions : ∀ s ∈ env.functions, env.context.sig s.id = some s.ty
  formed : env.context.Formed

/-- References are taken to bindings that hold none. -/
def Plain (env : Env) : Prop :=
  ∀ (i : Nat) (l : Local), env.locals[i]? = some l → l.addressTaken = true → l.ty.holdsReference = false

/-- What every check leaves in place, also one that fails. -/
structure Retains (env env' : Env) : Prop where
  functions : env'.functions = env.functions
  ret : env'.ret = env.ret
  size : env.locals.size ≤ env'.locals.size
  locals : ∀ (i : Nat) (l : Local), env.locals[i]? = some l →
    ∃ b, env'.locals[i]? = some { l with addressTaken := b } ∧ (l.addressTaken = true → b = true)
  depth : env'.loopDepth = env.loopDepth

/-- What checks that succeed do to the environment. -/
structure Grows (env env' : Env) : Prop extends Retains env env' where
  plain : env.Plain → env'.Plain
  formed : env.context.Formed → env'.context.Formed

/-- What checks of expressions do to the environment. -/
structure Keeps (env env' : Env) : Prop extends Grows env env' where
  scopes : env'.scopes = env.scopes
  count : env'.locals.size = env.locals.size

/-- What checks of statements do: they introduce bindings `xs`, numbered in order as long as there
are numbers, and leave those of `V` in view. -/
structure Binds (env env' : Env) (V : Visible) (xs : List LocalId) : Prop extends Grows env env' where
  nonempty : env'.scopes ≠ []
  outer : env'.scopes.tail = env.scopes.tail
  sees : env'.Sees = V
  numbers : env'.locals.size ≤ 2 ^ 32 → xs.map (·.index.toNat) =
    List.range' env.locals.size (env'.locals.size - env.locals.size)

variable {env env' : Env}

theorem Retains.refl (env : Env) : env.Retains env :=
  ⟨rfl, rfl, Nat.le_refl _, fun _ l h => ⟨l.addressTaken, h, id⟩, rfl⟩

theorem Retains.trans (h : env.Retains env') (h' : env'.Retains env'') : env.Retains env'' where
  functions := h'.functions.trans h.functions
  ret := h'.ret.trans h.ret
  size := Nat.le_trans h.size h'.size
  locals i l hl := by
    obtain ⟨b, hb, htaken⟩ := h.locals i l hl
    obtain ⟨b', hb', htaken'⟩ := h'.locals i _ hb
    exact ⟨b', hb', fun h => htaken' (htaken h)⟩
  depth := h'.depth.trans h.depth

theorem Grows.refl (env : Env) : env.Grows env := ⟨.refl env, id, id⟩

theorem Grows.trans (h : env.Grows env') (h' : env'.Grows env'') : env.Grows env'' :=
  ⟨h.toRetains.trans h'.toRetains, fun hp => h'.plain (h.plain hp), fun hf => h'.formed (h.formed hf)⟩

theorem Grows.context_le (h : env.Grows env') : env.context.Le env'.context where
  binding x t hx := by
    obtain ⟨l, hl, rfl⟩ := Option.map_eq_some_iff.1 hx
    obtain ⟨b, hb, -⟩ := h.locals _ _ hl
    exact Option.map_eq_some_iff.2 ⟨_, hb, rfl⟩
  sig := by
    funext f
    simp only [context, h.functions]
  ret := h.ret
  taken x hx := by
    obtain ⟨l, hl, htaken⟩ := hx
    obtain ⟨b, hb, hmono⟩ := h.locals _ _ hl
    exact ⟨_, hb, hmono htaken⟩

theorem Grows.sound (h : env.Grows env') (hn : env.Sound) : env'.Sound where
  functions s hs := by
    rw [h.functions] at hs
    rw [h.context_le.sig]
    exact hn.functions s hs
  formed := h.formed hn.formed

theorem Sound.pushScope (h : env.Sound) : env.pushScope.Sound := ⟨h.functions, h.formed⟩

theorem Keeps.refl (env : Env) : env.Keeps env := ⟨.refl env, rfl, rfl⟩

theorem Keeps.trans (h : env.Keeps env') (h' : env'.Keeps env'') : env.Keeps env'' :=
  ⟨h.toGrows.trans h'.toGrows, h'.scopes.trans h.scopes, h'.count.trans h.count⟩

theorem Keeps.sees (h : env.Keeps env') : env'.Sees = env.Sees := by
  unfold Sees
  rw [h.scopes]

/-- Well typed in what an environment knows and sees. -/
abbrev Types (env : Env) (e : TExpr) : Prop := e.Typed env.context env.Sees

theorem Keeps.types (h : env.Keeps env') (he : env.Types e) : env'.Types e := by
  rw [Types, h.sees]
  exact he.mono h.context_le

theorem Keeps.typed (h : env.Keeps env') (he : env'.Types e) : e.Typed env'.context env.Sees :=
  h.sees ▸ he

theorem sees_of_lookup (h : env.lookup? name = some x) : env.Sees x := by
  obtain ⟨scope, hscope, hx⟩ := List.exists_of_findSome?_eq_some h
  exact ⟨scope, hscope, name, mem_of_lookup hx⟩

theorem takeAddress_retains (env : Env) (x : LocalId) : env.Retains (env.takeAddress x) := by
  refine ⟨rfl, rfl, by simp [takeAddress], ?_, rfl⟩
  intro i l hl
  simp only [takeAddress, Array.getElem?_modify, hl]
  split
  · exact ⟨true, rfl, fun _ => rfl⟩
  · exact ⟨l.addressTaken, rfl, id⟩

theorem takeAddress_keeps (hl : env.local? x = some l)
    (hp : l.ty.holdsReference = false) : env.Keeps (env.takeAddress x) := by
  refine ⟨⟨takeAddress_retains env x, ?_, ?_⟩, rfl, by simp [takeAddress]⟩
  · intro hplain i l' hl' htaken
    simp only [takeAddress, Array.getElem?_modify] at hl'
    split at hl'
    · rename_i hi
      obtain ⟨l₀, hl₀, rfl⟩ := Option.map_eq_some_iff.1 hl'
      rw [local?, hi] at hl
      cases hl.symm.trans hl₀
      exact hp
    · exact hplain i l' hl' htaken
  · intro hformed
    refine ⟨fun y t ht => hformed.binding y t ?_, hformed.sig⟩
    -- the types of the bindings stay
    simp only [context, local?, takeAddress, Array.getElem?_modify] at ht ⊢
    split at ht
    · simpa using ht
    · exact ht

theorem taken_takeAddress (hl : env.local? x = some l) : (env.takeAddress x).context.taken x := by
  refine ⟨{ l with addressTaken := true }, ?_, rfl⟩
  rw [local?] at hl
  simp [local?, takeAddress, Array.getElem?_modify, hl]

theorem Keeps.binds (h : env.Keeps env') (hs : env.scopes ≠ []) : env.Binds env' env.Sees [] :=
  ⟨h.toGrows, h.scopes ▸ hs, by rw [h.scopes], h.sees, by simp [h.count]⟩

theorem Binds.trans (h : env.Binds env' V xs)
    (h' : env'.Binds env'' W ys) : env.Binds env'' W (xs ++ ys) where
  toGrows := h.toGrows.trans h'.toGrows
  nonempty := h'.nonempty
  outer := h'.outer.trans h.outer
  sees := h'.sees
  numbers hsize := by
    have hle := h.size
    have hle' := h'.size
    have hn : env''.locals.size - env.locals.size =
        (env'.locals.size - env.locals.size) + (env''.locals.size - env'.locals.size) := by omega
    have hs : env.locals.size + 1 * (env'.locals.size - env.locals.size) = env'.locals.size := by omega
    rw [List.map_append, h.numbers (Nat.le_trans hle' hsize), h'.numbers hsize, hn, ← List.range'_append, hs]

theorem bind_retains (env : Env) (name : String) (ty : Ty) (mutable : Bool) :
    env.Retains (env.bind name ty mutable).2 :=
  ⟨rfl, rfl, by simp [bind], fun _ l hl => ⟨l.addressTaken, getElem?_push_of_some hl, id⟩, rfl⟩

theorem bind_grows (name : String) {ty : Ty} (hty : env.context.Formed → ty.Formed) (mutable : Bool) :
    env.Grows (env.bind name ty mutable).2 := by
  refine ⟨bind_retains env name ty mutable, ?_, ?_⟩
  · intro hplain i l hl htaken
    simp only [bind, Array.getElem?_push] at hl
    split at hl
    · cases hl
      cases htaken
    · exact hplain i l hl htaken
  · intro hformed
    refine ⟨fun y t ht => ?_, hformed.sig⟩
    simp only [context, local?, bind, Array.getElem?_push] at ht
    split at ht
    · cases ht
      exact hty hformed
    · exact hformed.binding y t ht

theorem bind_binding (env : Env) (name : String) (ty : Ty) (mutable : Bool)
    (h : env.locals.size < 2 ^ 32) :
    (env.bind name ty mutable).2.context.binding (env.bind name ty mutable).1 = some ty := by
  show ((env.locals.push { name, ty, mutable })[(UInt32.ofNat env.locals.size).toNat]?.map Local.ty) = _
  rw [UInt32.toNat_ofNat_of_lt' h, Array.getElem?_push_size]
  rfl

theorem bind_outer (env : Env) (name : String) (ty : Ty) (mutable : Bool) :
    (env.bind name ty mutable).2.scopes.tail = env.scopes.tail := by
  simp only [bind]
  split <;> simp_all

theorem bind_sees {env : Env} (h : env.scopes ≠ []) (name : String) (ty : Ty) (mutable : Bool) :
    (env.bind name ty mutable).2.Sees = fun y => env.Sees y ∨ y = (env.bind name ty mutable).1 := by
  obtain ⟨scope, outer, hs⟩ := List.exists_cons_of_ne_nil h
  funext y
  simp only [Sees, bind, hs, List.mem_cons, exists_eq_or_imp, Prod.mk.injEq, eq_iff_iff]
  constructor
  · rintro (⟨n, ⟨-, hy⟩ | hy⟩ | hy)
    · exact .inr hy
    · exact .inl (.inl ⟨n, hy⟩)
    · exact .inl (.inr hy)
  · rintro ((⟨n, hy⟩ | hy) | hy)
    · exact .inl ⟨n, .inr hy⟩
    · exact .inr hy
    · exact .inl ⟨name, .inl ⟨rfl, hy⟩⟩

theorem bind_binds (hs : env.scopes ≠ []) (name : String) {ty : Ty} (hty : env.context.Formed → ty.Formed)
    (mutable : Bool) :
    env.Binds (env.bind name ty mutable).2 (fun y => env.Sees y ∨ y = (env.bind name ty mutable).1)
      [(env.bind name ty mutable).1] where
  toGrows := bind_grows name hty mutable
  nonempty := by
    obtain ⟨scope, outer, hs⟩ := List.exists_cons_of_ne_nil hs
    simp [bind, hs]
  outer := bind_outer env name ty mutable
  sees := bind_sees hs name ty mutable
  numbers hsize := by
    have hpush : (env.bind name ty mutable).2.locals.size = env.locals.size + 1 := Array.size_push _
    have hlt : env.locals.size < 2 ^ 32 := by omega
    have hindex : (env.bind name ty mutable).1.index.toNat = env.locals.size :=
      UInt32.toNat_ofNat_of_lt' hlt
    rw [hpush, Nat.add_sub_cancel_left, List.map_singleton, hindex]
    rfl

theorem pushScope_sees (env : Env) : env.pushScope.Sees = env.Sees := by
  funext x
  simp [Sees, pushScope]

theorem Binds.popScope (h : env.pushScope.Binds env' V xs)
    (hs : env.scopes ≠ []) : env.Binds env'.popScope env.Sees xs := by
  have hscopes : env'.popScope.scopes = env.scopes := h.outer
  exact ⟨⟨⟨h.functions, h.ret, h.size, h.locals, h.depth⟩, h.plain, h.formed⟩, hscopes ▸ hs, by rw [hscopes],
    by unfold Sees; rw [hscopes], h.numbers⟩

end Env

/-! ## Checks that succeed -/

namespace Check

variable {α : Type} {env env' : Env} {a : α} {x : Check α}

theorem bind_apply (x : Check α) (f : α → Check β) (env : Env) : (x >>= f) env =
    match x env with
    | (.ok a, env₁) => f a env₁
    | (.error e, env₁) => (.error e, env₁) := by
  show ExceptT.bindCont f (x env).1 (x env).2 = _
  obtain ⟨_ | a, env₁⟩ : Except TypeError α × Env := x env <;> rfl

theorem bind_ok :
    (x >>= f) env = (.ok b, env') ↔ ∃ a env₁, x env = (.ok a, env₁) ∧ f a env₁ = (.ok b, env') := by
  rw [bind_apply]
  obtain ⟨_ | a, env₁⟩ : Except TypeError α × Env := x env
  · constructor
    · exact fun h => nomatch h
    · rintro ⟨a, env₂, h, -⟩
      cases h
  · constructor
    · exact fun h => ⟨a, env₁, rfl, h⟩
    · rintro ⟨a, env₂, h, hf⟩
      cases h
      exact hf

theorem pure_ok : (pure a : Check α) env = (.ok c, env') ↔ a = c ∧ env = env' := by
  show ((.ok a, env) : Except TypeError α × Env) = _ ↔ _
  simp

theorem rule_ok : rule r env = (.ok a, env') ↔ r = .ok a ∧ env = env' := by
  show ((r, env) : Except TypeError α × Env) = _ ↔ _
  simp

theorem get_ok : (get : Check Env) env = (.ok s, env') ↔ env = s ∧ env = env' := by
  show ((.ok env, env) : Except TypeError Env × Env) = _ ↔ _
  simp

theorem modify_ok : (modify f : Check PUnit) env = (.ok u, env') ↔ f env = env' := by
  show ((.ok ⟨⟩, f env) : Except TypeError PUnit × Env) = _ ↔ _
  simp

@[simp] theorem lift_refuse_ne :
    (liftM (Typing.refuse fault : Rule α) : Check α) env = (.ok a, env') ↔ False := by
  show ((.error _, env) : Except TypeError α × Env) = _ ↔ _
  simp

theorem ite_ok [Decidable c] : (if c then x else y) env = (.ok a, env') ↔
    (c ∧ x env = (.ok a, env')) ∨ (¬c ∧ y env = (.ok a, env')) := by
  by_cases h : c <;> simp [h]

theorem located_ok : located span x env = (.ok a, env') ↔ x env = (.ok a, env') := by
  unfold located
  split
  · rename_i e env₁ h
    rw [h]
    constructor <;> exact fun h => nomatch h
  · rfl

theorem inScope_ok (h : inScope x env = (.ok a, env')) :
    ∃ env₁, x env.pushScope = (.ok a, env₁) ∧ env₁.popScope = env' := by
  unfold inScope at h
  rcases hx : x env.pushScope with ⟨r, env₁⟩
  rw [hx] at h
  cases h
  exact ⟨env₁, rfl, rfl⟩

theorem inLoop_ok (h : inLoop x env = (.ok a, env')) :
    ∃ env₁, x { env with loopDepth := env.loopDepth + 1 } = (.ok a, env₁) ∧
      { env₁ with loopDepth := env₁.loopDepth - 1 } = env' := by
  unfold inLoop at h
  rcases hx : x { env with loopDepth := env.loopDepth + 1 } with ⟨r, env₁⟩
  rw [hx] at h
  cases h
  exact ⟨env₁, rfl, rfl⟩

theorem newLocal_ok {x : LocalId} :
    Check.bind name ty mutable env = (.ok x, env') ↔
      (env.bind name ty mutable).1 = x ∧ (env.bind name ty mutable).2 = env' := by
  show (((.ok (env.bind name ty mutable).1, (env.bind name ty mutable).2) :
    Except TypeError LocalId × Env)) = _ ↔ _
  simp

theorem lookup_ok {x : LocalId} (h : lookup name env = (.ok (x, l), env')) :
    env = env' ∧ env.Sees x ∧ env.local? x = some l := by
  unfold lookup at h
  split at h
  · rename_i hx
    split at h
    · rename_i hl
      cases h
      exact ⟨rfl, Env.sees_of_lookup hx, hl⟩
    · cases h
  · cases h

end Check

end NumericEngine.Typing
