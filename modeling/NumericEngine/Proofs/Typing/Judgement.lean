import NumericEngine.Proofs.Ty.Formed
import NumericEngine.Typing.Tree

/-!
# Well-typed trees

The rule of each node of a typed tree, in terms of the types of its operands. A
tree is well typed when every node keeps its rule. A rule names the bindings and
the functions that the node refers to, and asks of the operands no more than
evaluation needs.
-/

namespace NumericEngine

namespace TNode

/-- The operands of a node, in the order of their evaluation. -/
def operands : TNode → List TExpr
  | const _ | var _ | funcRef _ | ref _ => []
  | arith _ l r _ | scale l r _ | compare _ l r | logical _ l r | makeComplex l r | dot l r
  | matmul l r => [l, r]
  | neg e _ | not e | sqrt e | abs e | part _ e | conj e | convert e | tensorCast e | field e _
  | sum e | dim e _ | deref e => [e]
  | call _ args => args
  | callIndirect callee args => callee :: args
  | ite c t e => [c, t, e]
  | makeTensor es | makeStruct es => es
  | index base indices => base :: indices

theorem sizeOf_operand {node : TNode} (h : e ∈ node.operands) : sizeOf e < sizeOf node := by
  have hlist : ∀ {es : List TExpr}, e ∈ es → sizeOf e < sizeOf es := List.sizeOf_lt_of_mem
  cases node with
  | const | var | funcRef | ref => cases h
  | call f args | makeTensor args | makeStruct args =>
    have := hlist (show e ∈ args from h)
    simp
    omega
  | callIndirect c args | index c args =>
    rcases List.mem_cons.1 h with rfl | h
    · simp
      omega
    · have := hlist h
      simp
      omega
  | _ =>
    simp only [operands, List.mem_cons, List.not_mem_nil, or_false] at h
    rcases h with rfl | rfl | rfl <;> simp <;> omega

end TNode

namespace Typing

/-- What the body of a function refers to. -/
structure Context where
  binding : LocalId → Option Ty
  sig : FuncId → Option Ty
  /-- The type of the result. -/
  ret : Ty
  /-- The bindings that references are taken to. -/
  taken : LocalId → Prop

/-- One context knows all that another knows. -/
structure Context.Le (Δ Θ : Context) : Prop where
  binding : ∀ x t, Δ.binding x = some t → Θ.binding x = some t
  sig : Θ.sig = Δ.sig
  ret : Θ.ret = Δ.ret
  taken : ∀ x, Δ.taken x → Θ.taken x

/-- All types that a context knows are well formed. -/
structure Context.Formed (Δ : Context) : Prop where
  binding : ∀ x t, Δ.binding x = some t → t.Formed
  sig : ∀ f t, Δ.sig f = some t → t.Formed

/-- The bindings that a part of a body may refer to. -/
abbrev Visible := LocalId → Prop

/-- Arithmetic within one type of numbers. -/
structure ScalarArith (op : ArithOp) (l r t : Ty) : Prop where
  scalar : t.IsScalar
  left : l = t
  right : r = t
  real : ∀ k, t.kind? = some k → Scalar.supports op k = true
  complex : ∀ k, t.complexKind? = some k → Complex.supports op = true

/-- Arithmetic element by element. -/
structure ElementArith (op : ArithOp) (l r t : Ty) : Prop where
  elements : ∃ et, l.element? = some et ∧ r.element? = some et ∧ t.element? = some et ∧
    ∀ e, et.asElem? = some e → e.supports op = true
  shapes : ∀ shape, l.Admits shape → r.Admits shape → t.Admits shape
  ranks : l.rank? = t.rank? ∧ r.rank? = t.rank?

/-- The rule of a node of type `t`. -/
def NodeTyped (Δ : Context) (V : Visible) (t : Ty) : TNode → Prop
  | .const v => v.ty = t ∧ v.Valid ∧ v.toElem?.isSome
  | .var x => V x ∧ Δ.binding x = some t
  | .funcRef f => Δ.sig f = some t ∧ ∃ ps r, t = .function ps r
  | .arith op l r _ => ScalarArith op l.ty r.ty t ∨ ElementArith op l.ty r.ty t
  | .scale s f _ => s.ty = t ∧ t.element? = some f.ty
  | .compare op l r => t = .bool ∧ l.ty = r.ty ∧ l.ty.IsScalar ∧ (l.ty.kind? = none → op = .eq ∨ op = .ne)
  | .logical _ l r => t = .bool ∧ l.ty = .bool ∧ r.ty = .bool
  | .neg e _ =>
    e.ty = t ∧ t.IsScalar ∧ ∀ k, t.kind? = some k → Scalar.supportsUnary .neg k = true
  | .not e => e.ty = t ∧ ∃ k, t.kind? = some k ∧ Scalar.supportsUnary .not k = true
  | .sqrt e => e.ty = t ∧ ∃ k, t.kind? = some k ∧ Scalar.supportsUnary .sqrt k = true
  | .abs e => e.ty = t ∧ ∃ k, t.kind? = some k ∧ Scalar.supportsUnary .abs k = true
  | .part _ e => ∃ k, e.ty.complexKind? = some k ∧ t = .ofKind k
  | .conj e => e.ty = t ∧ t.complexKind?.isSome = true
  | .convert e => e.ty.Converts t
  | .tensorCast e => ∃ et, e.ty.element? = some et ∧ t.element? = some et ∧ e.ty.rank? = t.rank?
  | .makeComplex re im => t = .complex re.ty ∧ im.ty = re.ty ∧ re.ty.isFloat = true
  | .call f args => Δ.sig f = some (.function (args.map TExpr.ty) t)
  | .callIndirect c args => c.ty = .function (args.map TExpr.ty) t
  | .ite c a b => c.ty = .bool ∧ a.ty = t ∧ b.ty = t
  | .makeTensor es =>
    ∃ et shape, t.element? = some et ∧ et.asElem?.isSome ∧ t.fixedShape? = some shape ∧
      (∀ e ∈ es, e.ty = et) ∧ (es.length < UInt64.size → Shape.count shape = es.length)
  | .makeStruct fs =>
    ∃ decl, t = .struct decl ∧ fs.map TExpr.ty = decl.map (·.2) ∧ t.holdsReference = false
  | .field b i => ∃ decl j d, b.ty = .struct decl ∧ i = UInt32.ofNat j ∧ decl[j]? = some d ∧ d.2 = t
  | .index b is =>
    b.ty.element? = some t ∧ (∀ i ∈ is, i.ty = .i64) ∧ b.ty.rank? = some is.length
  | .sum e => e.ty.element? = some t
  | .dot l r =>
    l.ty.element? = some t ∧ r.ty.element? = some t ∧ l.ty.rank? = some 1 ∧ r.ty.rank? = some 1
  | .matmul l r =>
    ∃ et, l.ty.element? = some et ∧ r.ty.element? = some et ∧ t.element? = some et ∧
      l.ty.rank? = some 2 ∧ r.ty.rank? = some 2 ∧ t.rank? = some 2
  | .dim e axis => t = .i64 ∧ ∃ ds, e.ty.dims? = some ds ∧ axis.toNat < ds.length
  | .ref x =>
    V x ∧ Δ.taken x ∧ ∃ u m, t = .reference u m ∧ Δ.binding x = some u ∧ u.holdsReference = false
  | .deref e => ∃ m, e.ty = .reference t m

theorem NodeTyped.mono {Δ : Context} (h : Δ.Le Θ) (ht : NodeTyped Δ V t node) : NodeTyped Θ V t node := by
  cases node with
  | var x => exact ⟨ht.1, h.binding x t ht.2⟩
  | funcRef f | call f args =>
    simp only [NodeTyped, h.sig] at ht ⊢
    exact ht
  | ref x =>
    obtain ⟨hx, htaken, u, m, rfl, hu, hp⟩ := ht
    exact ⟨hx, h.taken x htaken, u, m, rfl, h.binding x u hu, hp⟩
  | _ => exact ht

end Typing

open Typing

/-- Induction over the operands of nodes. -/
theorem TExpr.operandInduction {P : TExpr → Prop}
    (h : ∀ t node span, (∀ e ∈ node.operands, P e) → P (.mk t node span)) : ∀ e, P e
  | .mk t node span => h t node span fun e _ => operandInduction h e
decreasing_by
  have := TNode.sizeOf_operand ‹_›
  simp
  omega

/-- A well-typed tree: every node keeps its rule. -/
inductive TExpr.Typed (Δ : Context) (V : Visible) : TExpr → Prop
  | mk {t : Ty} {node : TNode} {span : Source.Span} :
    (∀ e ∈ node.operands, e.Typed Δ V) → NodeTyped Δ V t node → (TExpr.mk t node span).Typed Δ V

namespace TExpr

variable {Δ : Context} {V : Visible}

theorem Typed.mono (h : Δ.Le Θ) {e : TExpr} (ht : e.Typed Δ V) : e.Typed Θ V := by
  induction ht with
  | mk _ hnode ih => exact .mk ih (hnode.mono h)

theorem Typed.formed (hΔ : Δ.Formed) {e : TExpr} (ht : e.Typed Δ V) : e.ty.Formed := by
  induction ht with
  | @mk t node span hops hnode ih =>
    show t.Formed
    have ih : ∀ e ∈ node.operands, e.ty.Formed := ih
    have one {e : TExpr} (hop : node.operands = [e]) : e.ty.Formed := ih e (by simp [hop])
    have hel {u et : Ty} (hu : u.Formed) (hue : u.element? = some et) (hte : t.element? = some et) :
        t.Formed := Ty.formed_of_element hte (hu.element hue)
    cases node with
    | const v => exact hnode.1 ▸ Value.formed_of_valid hnode.2.1 hnode.2.2
    | var x => exact hΔ.binding x t hnode.2
    | funcRef f => exact hΔ.sig f t hnode.1
    | arith op l r =>
      rcases hnode with hs | ⟨⟨et, hle, -, hte, -⟩, -⟩
      · exact hs.scalar.formed
      · exact hel (ih l (by simp [TNode.operands])) hle hte
    | scale s f => exact hnode.1 ▸ ih s (by simp [TNode.operands])
    | compare op l r | logical isAnd l r => exact hnode.1 ▸ Ty.formed_ofKind _
    | neg e | not e | sqrt e | abs e | conj e => exact hnode.1 ▸ one rfl
    | part p e =>
      obtain ⟨k, -, rfl⟩ := hnode
      exact Ty.formed_ofKind k
    | convert e => exact hnode.formed
    | tensorCast e =>
      obtain ⟨et, hse, hte, -⟩ := hnode
      exact hel (one rfl) hse hte
    | makeComplex re im =>
      obtain ⟨rfl, -, hf⟩ := hnode
      exact hf
    | call f args => exact (hΔ.sig f _ hnode).2
    | callIndirect c args =>
      have hc := ih c List.mem_cons_self
      rw [show c.ty = _ from hnode] at hc
      exact hc.2
    | ite c a b => exact hnode.2.1 ▸ ih a (by simp [TNode.operands])
    | makeTensor es =>
      obtain ⟨et, shape, hte, hel, -⟩ := hnode
      exact Ty.formed_of_element hte hel
    | makeStruct fs =>
      obtain ⟨decl, rfl, htys, -⟩ := hnode
      refine Ty.formedFields_iff.2 fun d hd => ?_
      have hd : d.2 ∈ fs.map TExpr.ty := htys ▸ List.mem_map_of_mem hd
      obtain ⟨e, he, heq⟩ := List.mem_map.1 hd
      exact heq ▸ ih e he
    | field b i =>
      obtain ⟨decl, j, d, hdecl, -, hd, rfl⟩ := hnode
      exact (hdecl ▸ one rfl).field hd
    | index b is => exact Ty.formed_of_asElem ((ih b List.mem_cons_self).element hnode.1)
    | sum e => exact Ty.formed_of_asElem ((one rfl).element hnode)
    | dot l r => exact Ty.formed_of_asElem ((ih l (by simp [TNode.operands])).element hnode.1)
    | matmul l r =>
      obtain ⟨et, hle, -, hte, -⟩ := hnode
      exact hel (ih l (by simp [TNode.operands])) hle hte
    | dim e axis => exact hnode.1 ▸ Ty.formed_ofKind _
    | ref x =>
      obtain ⟨-, -, u, m, rfl, hu, -⟩ := hnode
      exact hΔ.binding x u hu
    | deref e =>
      obtain ⟨m, hm⟩ := hnode
      have he := one rfl
      rw [hm] at he
      exact he

theorem typed_const {v : Value} (hv : v.Valid) (he : v.toElem?.isSome) (span : Source.Span) :
    (const v span).Typed Δ V :=
  .mk (by simp [TNode.operands]) ⟨rfl, hv, he⟩

theorem Typed.unary {node : TNode} {e : TExpr} {span : Source.Span} (he : e.Typed Δ V)
    (hop : node.operands = [e]) (h : NodeTyped Δ V t node) : (TExpr.mk t node span).Typed Δ V :=
  .mk (by simpa [hop] using he) h

theorem Typed.binary {node : TNode} {l r : TExpr} {span : Source.Span} (hl : l.Typed Δ V)
    (hr : r.Typed Δ V) (hop : node.operands = [l, r]) (h : NodeTyped Δ V t node) :
    (TExpr.mk t node span).Typed Δ V :=
  .mk (by simpa [hop] using ⟨hl, hr⟩) h

end TExpr

namespace TStmt

/-- The bindings visible after a statement. -/
def scope (V : Visible) : TStmt → Visible
  | .mk (.letBinding x _) _ => fun y => V y ∨ y = x
  | _ => V

mutual
/-- A well-typed statement. The bindings of the branches of a conditional, and of the body of a
loop, are theirs alone. -/
def Typed (Δ : Context) (V : Visible) : TStmt → Prop
  | .mk (.letBinding x e) _ => e.Typed Δ V ∧ Δ.binding x = some e.ty
  | .mk (.assign x e) _ => e.Typed Δ V ∧ V x ∧ Δ.binding x = some e.ty
  | .mk (.assignField x i e) _ =>
    e.Typed Δ V ∧ V x ∧
      ∃ decl j d, Δ.binding x = some (.struct decl) ∧ i = UInt32.ofNat j ∧ decl[j]? = some d ∧
        d.2 = e.ty
  | .mk (.store target e) _ => target.Typed Δ V ∧ e.Typed Δ V ∧ ∃ m, target.ty = .reference e.ty m
  | .mk (.ite c a b) _ => c.Typed Δ V ∧ c.ty = .bool ∧ TypedAll Δ V a ∧ TypedAll Δ V b
  | .mk (.while c body) _ => c.Typed Δ V ∧ c.ty = .bool ∧ TypedAll Δ V body
  | .mk .break _ => True
  | .mk .continue _ => True
  | .mk (.return e) _ => e.Typed Δ V ∧ e.ty = Δ.ret
  | .mk (.expr e) _ => e.Typed Δ V
def TypedAll (Δ : Context) (V : Visible) : List TStmt → Prop
  | [] => True
  | s :: ss => s.Typed Δ V ∧ TypedAll Δ (s.scope V) ss
end

mutual
/-- Statements that leave a loop stand in one. -/
def Placed (inLoop : Prop) : TStmt → Prop
  | .mk (.ite _ a b) _ => PlacedAll inLoop a ∧ PlacedAll inLoop b
  | .mk (.while _ body) _ => PlacedAll True body
  | .mk .break _ => inLoop
  | .mk .continue _ => inLoop
  | .mk _ _ => True
def PlacedAll (inLoop : Prop) : List TStmt → Prop
  | [] => True
  | s :: ss => s.Placed inLoop ∧ PlacedAll inLoop ss
end

mutual
/-- The bindings that a statement introduces, in order. -/
def lets : TStmt → List LocalId
  | .mk (.letBinding x _) _ => [x]
  | .mk (.ite _ a b) _ => letsAll a ++ letsAll b
  | .mk (.while _ body) _ => letsAll body
  | .mk _ _ => []
def letsAll : List TStmt → List LocalId
  | [] => []
  | s :: ss => s.lets ++ letsAll ss
end

mutual
theorem Typed.mono (h : Δ.Le Θ) : (s : TStmt) → s.Typed Δ V → s.Typed Θ V
  | .mk (.letBinding x e) _, ht => ⟨ht.1.mono h, h.binding _ _ ht.2⟩
  | .mk (.assign x e) _, ht => ⟨ht.1.mono h, ht.2.1, h.binding _ _ ht.2.2⟩
  | .mk (.assignField x i e) _, ht => by
    obtain ⟨he, hx, decl, j, d, hdecl, hrest⟩ := ht
    exact ⟨he.mono h, hx, decl, j, d, h.binding _ _ hdecl, hrest⟩
  | .mk (.store target e) _, ht => ⟨ht.1.mono h, ht.2.1.mono h, ht.2.2⟩
  | .mk (.ite c a b) _, ht =>
    ⟨ht.1.mono h, ht.2.1, TypedAll.mono h a ht.2.2.1, TypedAll.mono h b ht.2.2.2⟩
  | .mk (.while c body) _, ht => ⟨ht.1.mono h, ht.2.1, TypedAll.mono h body ht.2.2⟩
  | .mk .break _, _ => trivial
  | .mk .continue _, _ => trivial
  | .mk (.return e) _, ht => ⟨ht.1.mono h, ht.2.trans h.ret.symm⟩
  | .mk (.expr e) _, ht => TExpr.Typed.mono h ht
theorem TypedAll.mono (h : Δ.Le Θ) :
    (ss : List TStmt) → TypedAll Δ V ss → TypedAll Θ V ss
  | [], _ => trivial
  | s :: ss, ht => ⟨Typed.mono h s ht.1, TypedAll.mono h ss ht.2⟩
end

end TStmt

end NumericEngine
