import NumericEngine.Lowering.Expr
import NumericEngine.Proofs.Lowering.Builder
import NumericEngine.Proofs.Typing.Judgement

/-!
# Code of nodes

Most nodes compute all of their operands and then one instruction: its
right-hand side is `TNode.rhs`, and `expr_strict` says that this is the code of
the node. A well-typed node has a well-typed right-hand side.
-/

namespace NumericEngine

open Ir (Rhs)
open Lowering (Refusal Build)

namespace TNode

/-- Whether a node computes all of its operands, from the first to the last, and then its value. -/
def isStrict : TNode → Bool
  | var _ | ref _ | logical .. | ite .. => false
  | _ => true

/-- The kind of the components of a type, which has to be complex. -/
def complexKind (t : Ty) : Except Refusal Kind :=
  match t.complexKind? with
  | some k => .ok k
  | none => .error { fault := .notComplex t }

def kind (t : Ty) : Except Refusal Kind :=
  match t.kind? with
  | some k => .ok k
  | none => .error { fault := .notPrimitive t }

/-- The right-hand side that computes a node of type `t` from its operands. -/
def rhs (t : Ty) (span : Source.Span) : TNode → List Reg → Except Refusal Rhs
  | funcRef f, _ => .ok (.funcRef f)
  | arith op _ _ checked, [l, r] =>
    match t.kind?, t.complexKind? with
    | some k, _ => .ok (.binary op k l r checked)
    | none, some k => .ok (.complexBinary op k l r)
    | none, none =>
      if t.isContainer then .ok (.tensorBinary op l r checked)
      else .error { fault := .arithmeticOn t, span := some span }
  | scale _ _ checked, [s, f] => .ok (.tensorScale s f checked)
  | compare op lhs _, [l, r] =>
    match lhs.ty.kind? with
    | some k => .ok (.compare op k l r)
    | none => return .complexCompare op (← complexKind lhs.ty) l r
  | neg _ checked, [src] =>
    match t.kind? with
    | some k => .ok (.unary .neg k src checked)
    | none => return .complexUnary .neg (← complexKind t) src
  | not _, [src] => return .unary .not (← kind t) src false
  | sqrt _, [src] => return .unary .sqrt (← kind t) src false
  | abs _, [src] => return .unary .abs (← kind t) src false
  | part p e, [src] => return .complexPart p (← complexKind e.ty) src
  | conj _, [src] => return .complexUnary .conj (← complexKind t) src
  | tensorCast _, [src] => .ok (.tensorCast src)
  | makeComplex _ _, [re, im] => return .makeComplex (← complexKind t) re im
  | call f _, args => .ok (.call f args)
  | callIndirect _ _, callee :: args => .ok (.callIndirect callee args)
  | makeTensor _, es => .ok (.makeTensor es)
  | makeStruct _, fs => .ok (.makeStruct fs)
  | field _ i, [src] => .ok (.extractField src i)
  | index _ _, src :: is => .ok (.extractElement src is)
  | sum _, [src] => .ok (.sum src)
  | dot _ _, [l, r] => .ok (.dot l r)
  | matmul _ _, [l, r] => .ok (.matmul l r)
  | dim _ axis, [src] => .ok (.dim src axis)
  | deref _, [addr] => .ok (.load addr)
  | _, _ => .error default

/-- The code of a strict node once its operands are computed. -/
def code (t : Ty) (span : Source.Span) (node : TNode) (rs : List Reg) : Build Reg :=
  match node, rs with
  | const v, _ => do
    let c ← Build.constant v
    Build.define t (.const c)
  | convert e, [src] => Lowering.convert src e.ty t
  | node, rs => do
    let rhs ← liftM (node.rhs t span rs)
    Build.define t rhs

end TNode

namespace Lowering

open Build

theorem lift_kind (t : Ty) (f : Kind → Rhs) (k : Rhs → Build Reg) :
    (liftM (TNode.kind t >>= fun x => pure (f x)) >>= k : Build Reg) = kindOf t >>= fun x => k (f x) := by
  unfold TNode.kind kindOf
  cases t.kind? <;> rfl

theorem lift_complexKind (t : Ty) (f : Kind → Rhs) (k : Rhs → Build Reg) :
    (liftM (TNode.complexKind t >>= fun x => pure (f x)) >>= k : Build Reg) =
      complexKindOf t >>= fun x => k (f x) := by
  unfold TNode.complexKind complexKindOf
  cases t.complexKind? <;> rfl

theorem expr_strict {node : TNode} (h : node.isStrict = true) :
    expr (.mk t node span) = exprs node.operands >>= node.code t span := by
  cases node with
  | var | ref | logical | ite => cases h
  | arith op l r checked =>
    simp only [expr, TNode.operands, exprs, bind_assoc, pure_bind, TNode.code, TNode.rhs]
    congr 1; funext a; congr 1; funext b
    cases t.kind? with
    | some k => rfl
    | none =>
      cases t.complexKind? with
      | some k => rfl
      | none => cases t.isContainer <;> rfl
  | compare op l r =>
    simp only [expr, TNode.operands, exprs, bind_assoc, pure_bind, TNode.code, TNode.rhs]
    cases l.ty.kind? with
    | some k => rfl
    | none => simp only [lift_complexKind]
  | neg e checked =>
    simp only [expr, TNode.operands, exprs, bind_assoc, pure_bind, TNode.code, TNode.rhs]
    cases t.kind? with
    | some k => rfl
    | none => simp only [lift_complexKind]
  | not | sqrt | abs | part | conj | makeComplex =>
    simp only [expr, unary, TNode.operands, exprs, bind_assoc, pure_bind, TNode.code, TNode.rhs, lift_kind,
      lift_complexKind]
  | const v | convert e =>
    simp only [expr, TNode.operands, exprs, bind_assoc, pure_bind, TNode.code]
  | _ =>
    simp only [expr, TNode.operands, exprs, bind_assoc, pure_bind, TNode.code, TNode.rhs]
    rfl

end Lowering

namespace TNode

variable {t : Ty} {span : Source.Span} {node : TNode} {rs : List Reg} {rhs : Rhs}

theorem complexKind_of_isSome (h : t.complexKind?.isSome = true) :
    ∃ k, complexKind t = .ok k ∧ t = .complexOf k ∧ k.isFloat = true := by
  obtain ⟨k, hk⟩ := Option.isSome_iff_exists.1 h
  exact ⟨k, by simp [complexKind, hk], Ty.eq_complexOf hk⟩

open Typing in
/-- A well-typed node has a right-hand side. It reads the operands and nothing else, and is well typed
where they are. -/
theorem exists_rhs (hnode : NodeTyped Δ V t node) (hstrict : node.isStrict = true)
    (hconst : ∀ v, node ≠ .const v) (hconvert : ∀ e, node ≠ .convert e) (span : Source.Span)
    (hlen : rs.length = node.operands.length) :
    ∃ rhs, node.rhs t span rs = .ok rhs ∧ rhs.uses = rs ∧ rhs.isOperation = true ∧
      ∀ Γ : Ir.Context, (∀ f u, Δ.sig f = some u → Γ.sig f = some u) →
        (∀ r decl, Γ.reg r = some (.struct decl) → decl.length ≤ 2 ^ 32) →
        Γ.Regs rs (node.operands.map TExpr.ty) → rhs.Typed Γ t := by
  have one {e : TExpr} (hop : node.operands = [e]) : ∃ r, rs = [r] := by
    rw [hop] at hlen
    exact List.length_eq_one_iff.1 hlen
  have two {e e' : TExpr} (hop : node.operands = [e, e']) : ∃ r r', rs = [r, r'] := by
    rw [hop] at hlen
    exact List.length_eq_two.1 hlen
  have more {e : TExpr} {es : List TExpr} (hop : node.operands = e :: es) : ∃ r rs', rs = r :: rs' := by
    rw [hop] at hlen
    cases rs with
    | nil => cases hlen
    | cons r rs => exact ⟨r, rs, rfl⟩
  have single {Γ : Ir.Context} {r : Reg} {u : Ty} (h : Γ.Regs [r] [u]) : Γ.At r u := (List.forall₂_cons.1 h).1
  cases node with
  | var | ref | logical | ite => cases hstrict
  | const v => exact absurd rfl (hconst v)
  | convert e => exact absurd rfl (hconvert e)
  | funcRef f =>
    obtain rfl := List.length_eq_zero_iff.1 hlen
    exact ⟨_, rfl, rfl, rfl, fun _ hsig _ _ => ⟨hsig f t hnode.1, hnode.2⟩⟩
  | arith op l r checked =>
    obtain ⟨a, b, rfl⟩ := two rfl
    simp only [TNode.rhs]
    rcases hnode with ⟨hs, hl, hr, hreal, hcomplex⟩ | ⟨⟨et, hle, hre, hte, hsupports⟩, hshapes, hranks⟩
    · simp only [operands, List.map, hl, hr]
      cases hk : t.kind? with
      | some k => exact ⟨_, rfl, rfl, rfl, fun _ _ _ hregs => ⟨Ty.eq_ofKind hk, hregs, hreal k hk⟩⟩
      | none =>
        obtain ⟨k, hck⟩ := Option.isSome_iff_exists.1 (hs.resolve_left (by simp [hk]))
        obtain ⟨ht, hfloat⟩ := Ty.eq_complexOf hck
        rw [hck]
        exact ⟨_, rfl, rfl, rfl, fun _ _ _ hregs => ⟨ht, hfloat, hregs, hcomplex k hck⟩⟩
    · cases t with
      | vector | tensor =>
        exact ⟨_, rfl, rfl, rfl, fun _ _ _ hregs =>
          ⟨l.ty, r.ty, et, hregs, hle, hre, hte, hsupports, hshapes, hranks⟩⟩
      | _ => cases hte
  | scale s f checked =>
    obtain ⟨a, b, rfl⟩ := two rfl
    obtain ⟨rfl, hf⟩ := hnode
    exact ⟨_, rfl, rfl, rfl, fun _ _ _ hregs => ⟨f.ty, hregs, hf⟩⟩
  | compare op l r =>
    obtain ⟨a, b, rfl⟩ := two rfl
    obtain ⟨rfl, hlr, hs, hop⟩ := hnode
    simp only [TNode.rhs, operands, List.map, ← hlr]
    cases hk : l.ty.kind? with
    | some k => exact ⟨_, rfl, rfl, rfl, fun _ _ _ hregs => ⟨rfl, Ty.eq_ofKind hk ▸ hregs⟩⟩
    | none =>
      obtain ⟨k, hc, ht, hfloat⟩ := complexKind_of_isSome (hs.resolve_left (by simp [hk]))
      rw [hc]
      exact ⟨_, rfl, rfl, rfl, fun _ _ _ hregs => ⟨rfl, hfloat, ht ▸ hregs, hop hk⟩⟩
  | neg e checked =>
    obtain ⟨a, rfl⟩ := one rfl
    obtain ⟨ht, hs, hop⟩ := hnode
    simp only [TNode.rhs, operands, List.map, ht]
    cases hk : t.kind? with
    | some k => exact ⟨_, rfl, rfl, rfl, fun _ _ _ hregs => ⟨Ty.eq_ofKind hk, single hregs, hop k hk⟩⟩
    | none =>
      obtain ⟨k, hc, ht, hfloat⟩ := complexKind_of_isSome (hs.resolve_left (by simp [hk]))
      rw [hc]
      exact ⟨_, rfl, rfl, rfl, fun _ _ _ hregs => ⟨ht, hfloat, single hregs⟩⟩
  | not e | sqrt e | abs e =>
    obtain ⟨a, rfl⟩ := one rfl
    obtain ⟨rfl, k, hk, hop⟩ := hnode
    simp only [TNode.rhs, kind, hk]
    exact ⟨_, rfl, rfl, rfl, fun _ _ _ hregs => ⟨Ty.eq_ofKind hk, single hregs, hop⟩⟩
  | part p e =>
    obtain ⟨a, rfl⟩ := one rfl
    obtain ⟨k, hk, rfl⟩ := hnode
    obtain ⟨ht, hfloat⟩ := Ty.eq_complexOf hk
    simp only [TNode.rhs, complexKind, hk]
    exact ⟨_, rfl, rfl, rfl, fun _ _ _ hregs => ⟨rfl, hfloat, ht ▸ single hregs⟩⟩
  | conj e =>
    obtain ⟨a, rfl⟩ := one rfl
    obtain ⟨rfl, hs⟩ := hnode
    obtain ⟨k, hc, ht, hfloat⟩ := complexKind_of_isSome hs
    simp only [TNode.rhs, hc]
    exact ⟨_, rfl, rfl, rfl, fun _ _ _ hregs => ⟨ht, hfloat, single hregs⟩⟩
  | tensorCast e =>
    obtain ⟨a, rfl⟩ := one rfl
    obtain ⟨et, hrest⟩ := hnode
    exact ⟨_, rfl, rfl, rfl, fun _ _ _ hregs => ⟨e.ty, et, single hregs, hrest⟩⟩
  | makeComplex re im =>
    obtain ⟨a, b, rfl⟩ := two rfl
    obtain ⟨rfl, him, hfloat⟩ := hnode
    obtain ⟨k, hc, ht, hfloat⟩ := complexKind_of_isSome (Ty.Formed.complexKind hfloat)
    have hre : re.ty = .ofKind k := Ty.complex.inj ht
    simp only [TNode.rhs, hc]
    refine ⟨_, rfl, rfl, rfl, fun _ _ _ hregs => ⟨ht, hfloat, ?_⟩⟩
    simpa only [operands, List.map, him, hre] using hregs
  | call f args => exact ⟨_, rfl, rfl, rfl, fun _ hsig _ hregs => ⟨_, hsig f _ hnode, hregs⟩⟩
  | callIndirect c args =>
    obtain ⟨r, rs, rfl⟩ := more rfl
    refine ⟨_, rfl, rfl, rfl, fun _ _ _ hregs => ?_⟩
    obtain ⟨hc, hargs⟩ := List.forall₂_cons.1 hregs
    exact ⟨_, (show c.ty = _ from hnode) ▸ hc, hargs⟩
  | makeTensor es =>
    obtain ⟨et, shape, hte, hel, hshape, hes, hcount⟩ := hnode
    obtain ⟨e, he⟩ := Option.isSome_iff_exists.1 hel
    refine ⟨_, rfl, rfl, rfl, fun _ _ _ hregs => ⟨et, e, shape, hte, he, hshape, fun r hr => ?_, hlen ▸ hcount⟩⟩
    obtain ⟨u, hu, hat⟩ := forall₂_exists_right hregs hr
    obtain ⟨x, hx, rfl⟩ := List.mem_map.1 hu
    exact hes x hx ▸ hat
  | makeStruct fs =>
    obtain ⟨decl, rfl, htys, hplain⟩ := hnode
    exact ⟨_, rfl, rfl, rfl, fun _ _ _ hregs => ⟨decl, rfl, htys ▸ hregs, hplain⟩⟩
  | field e i =>
    obtain ⟨a, rfl⟩ := one rfl
    obtain ⟨decl, j, d, hdecl, rfl, hd, hdt⟩ := hnode
    refine ⟨_, rfl, rfl, rfl, fun Γ _ hfields hregs => ?_⟩
    obtain ⟨u, hu, hsame⟩ : Γ.At a (.struct decl) := hdecl ▸ single hregs
    have hlen : decl.length ≤ 2 ^ 32 := by
      rcases hsame with rfl | ⟨_, _, _, -, heq⟩
      · exact hfields a decl hu
      · cases heq
    have hlt := (List.getElem?_eq_some_iff.1 hd).1
    refine ⟨decl, d, ⟨u, hu, hsame⟩, ?_, hdt⟩
    rw [UInt32.toNat_ofNat', Nat.mod_eq_of_lt (Nat.lt_of_lt_of_le hlt hlen)]
    exact hd
  | index e is =>
    obtain ⟨r, rs, rfl⟩ := more rfl
    obtain ⟨hte, hix, hrank⟩ := hnode
    refine ⟨_, rfl, rfl, rfl, fun _ _ _ hregs => ?_⟩
    obtain ⟨ha, his⟩ := List.forall₂_cons.1 hregs
    refine ⟨e.ty, ha, hte, fun r hr => ?_, Nat.succ.inj hlen ▸ hrank⟩
    obtain ⟨u, hu, hat⟩ := forall₂_exists_right his hr
    obtain ⟨x, hx, rfl⟩ := List.mem_map.1 hu
    exact hix x hx ▸ hat
  | sum e =>
    obtain ⟨a, rfl⟩ := one rfl
    exact ⟨_, rfl, rfl, rfl, fun _ _ _ hregs => ⟨e.ty, single hregs, hnode⟩⟩
  | dot l r =>
    obtain ⟨a, b, rfl⟩ := two rfl
    exact ⟨_, rfl, rfl, rfl, fun _ _ _ hregs => ⟨l.ty, r.ty, hregs, hnode⟩⟩
  | matmul l r =>
    obtain ⟨a, b, rfl⟩ := two rfl
    obtain ⟨et, hrest⟩ := hnode
    exact ⟨_, rfl, rfl, rfl, fun _ _ _ hregs => ⟨l.ty, r.ty, et, hregs, hrest⟩⟩
  | dim e axis =>
    obtain ⟨a, rfl⟩ := one rfl
    obtain ⟨rfl, ds, hds, hlt⟩ := hnode
    obtain ⟨et, het⟩ : ∃ et, e.ty.element? = some et := by
      cases he : e.ty with
      | vector et _ | tensor et _ => exact ⟨et, rfl⟩
      | _ => simp [he, Ty.dims?] at hds
    exact ⟨_, rfl, rfl, rfl, fun _ _ _ hregs => ⟨rfl, e.ty, et, ds, single hregs, het, hds, hlt⟩⟩
  | deref e =>
    obtain ⟨a, rfl⟩ := one rfl
    obtain ⟨m, hm⟩ := hnode
    exact ⟨_, rfl, rfl, rfl, fun _ _ _ hregs => ⟨m, hm ▸ single hregs⟩⟩

end TNode

end NumericEngine
