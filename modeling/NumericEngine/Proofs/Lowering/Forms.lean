import NumericEngine.Proofs.Typing.Judgement

/-!
# The form of trees

How large trees are, whether control can get past a statement, and where the code
of an expression branches.
-/

namespace NumericEngine

open List

mutual
/-- The number of nodes of an expression. -/
def TExpr.nodes : TExpr → Nat
  | .mk _ node _ => node.nodes + 1
def TNode.nodes : TNode → Nat
  | .const _ | .var _ | .funcRef _ | .ref _ => 0
  | .arith _ l r _ | .scale l r _ | .compare _ l r | .logical _ l r | .makeComplex l r | .dot l r
  | .matmul l r => l.nodes + r.nodes
  | .neg e _ | .not e | .sqrt e | .abs e | .part _ e | .conj e | .convert e | .tensorCast e | .field e _
  | .sum e | .dim e _ | .deref e => e.nodes
  | .call _ args => TExpr.nodesAll args
  | .callIndirect callee args => callee.nodes + TExpr.nodesAll args
  | .ite c t e => c.nodes + (t.nodes + e.nodes)
  | .makeTensor es | .makeStruct es => TExpr.nodesAll es
  | .index base indices => base.nodes + TExpr.nodesAll indices
def TExpr.nodesAll : List TExpr → Nat
  | [] => 0
  | e :: es => e.nodes + TExpr.nodesAll es
end

theorem TNode.nodes_eq (node : TNode) : node.nodes = TExpr.nodesAll node.operands := by
  cases node <;> simp [TNode.nodes, TNode.operands, TExpr.nodesAll]

theorem TExpr.length_le_nodesAll (es : List TExpr) : es.length ≤ nodesAll es := by
  induction es with
  | nil => exact Nat.zero_le _
  | cons e es ih =>
    obtain ⟨t, node, span⟩ := e
    simp only [length_cons, nodesAll, nodes]
    omega

theorem TExpr.nodes_le_nodesAll {e : TExpr} (h : e ∈ es) : e.nodes ≤ nodesAll es := by
  induction h with
  | head =>
    simp only [nodesAll]
    omega
  | tail _ _ ih =>
    simp only [nodesAll]
    omega

namespace TStmt

mutual
/-- The number of nodes of a statement and its expressions. -/
def nodes : TStmt → Nat
  | .mk (.letBinding _ e) _ | .mk (.assign _ e) _ | .mk (.assignField _ _ e) _ | .mk (.return e) _
  | .mk (.expr e) _ => e.nodes + 1
  | .mk (.store target e) _ => target.nodes + e.nodes + 1
  | .mk (.ite c a b) _ => c.nodes + nodesAll a + nodesAll b + 1
  | .mk (.while c body) _ => c.nodes + nodesAll body + 1
  | .mk .break _ | .mk .continue _ => 1
def nodesAll : List TStmt → Nat
  | [] => 0
  | s :: ss => s.nodes + nodesAll ss
end

mutual
/-- Whether control can get past a statement, as far as its form tells. -/
def completes : TStmt → Bool
  | .mk (.ite _ a b) _ => completesAll a || completesAll b
  | .mk .break _ | .mk .continue _ | .mk (.return _) _ => false
  | .mk _ _ => true
def completesAll : List TStmt → Bool
  | [] => true
  | s :: ss => s.completes && completesAll ss
end

end TStmt

/-- Control gets to the end of a function that has to give a result. -/
def TFunction.lacksReturn (f : TFunction) : Bool := !f.ret.isUnit && TStmt.completesAll f.body

/-- An expression whose code does not branch. -/
inductive TExpr.Straight : TExpr → Prop
  | mk {t : Ty} {node : TNode} {span : Source.Span} : (∀ isAnd l r, node ≠ .logical isAnd l r) →
    (∀ c a b, node ≠ .ite c a b) → (∀ e ∈ node.operands, e.Straight) → (TExpr.mk t node span).Straight

theorem straight_mk {node : TNode} {span : Source.Span} : (TExpr.mk t node span).Straight ↔
    (∀ isAnd l r, node ≠ .logical isAnd l r) ∧ (∀ c a b, node ≠ .ite c a b) ∧
    ∀ e ∈ node.operands, e.Straight := by
  constructor
  · rintro ⟨hlogical, hite, hops⟩
    exact ⟨hlogical, hite, hops⟩
  · rintro ⟨hlogical, hite, hops⟩
    exact .mk hlogical hite hops

/-- No right operand of a short-circuit operator branches. -/
inductive TExpr.Forward : TExpr → Prop
  | mk {t : Ty} {node : TNode} {span : Source.Span} : (∀ isAnd l r, node = .logical isAnd l r → r.Straight) →
    (∀ e ∈ node.operands, e.Forward) → (TExpr.mk t node span).Forward

theorem forward_mk {node : TNode} {span : Source.Span} : (TExpr.mk t node span).Forward ↔
    (∀ isAnd l r, node = .logical isAnd l r → r.Straight) ∧ ∀ e ∈ node.operands, e.Forward :=
  ⟨fun ⟨hright, hops⟩ => ⟨hright, hops⟩, fun h => .mk h.1 h.2⟩

namespace TStmt

mutual
/-- There are no loops, and no right operand of a short-circuit operator branches. -/
def Forward : TStmt → Prop
  | .mk (.letBinding _ e) _ => e.Forward
  | .mk (.assign _ e) _ => e.Forward
  | .mk (.assignField _ _ e) _ => e.Forward
  | .mk (.store target e) _ => target.Forward ∧ e.Forward
  | .mk (.ite c a b) _ => c.Forward ∧ ForwardAll a ∧ ForwardAll b
  | .mk (.while _ _) _ => False
  | .mk .break _ => False
  | .mk .continue _ => False
  | .mk (.return e) _ => e.Forward
  | .mk (.expr e) _ => e.Forward
def ForwardAll : List TStmt → Prop
  | [] => True
  | s :: ss => s.Forward ∧ ForwardAll ss
end

end TStmt

end NumericEngine
