import NumericEngine.Proofs.Typing.Env
import NumericEngine.Proofs.Typing.Rules
import NumericEngine.Typing.Program

/-!
# The checker is sound

`synth_ok`: the tree that the checker makes of an expression is well typed in
the environment that it leaves. `checkStmts_ok` says the same of statements,
whose bindings come into view for the statements after them.

The proofs follow the checker function by function.
-/

namespace NumericEngine.Typing

open Check
open Source (Span Expr ExprNode Stmt StmtNode)

variable {env env' : Env} {e : TExpr} {name : String} {src : Expr}

theorem synthVar_ok (hn : env.Sound)
    (h : synthVar name span env = (.ok e, env')) : env.Keeps env' ∧ env'.Types e := by
  simp only [synthVar, bind_ok, get_ok] at h
  obtain ⟨_, _, ⟨rfl, rfl⟩, h⟩ := h
  cases hname : env.lookup? name with
  | some _ =>
    simp only [hname, bind_ok, pure_ok] at h
    obtain ⟨⟨x, l⟩, _, hl, rfl, rfl⟩ := h
    obtain ⟨rfl, hx, hl⟩ := lookup_ok hl
    exact ⟨.refl _, .mk (by simp [TNode.operands]) ⟨hx, by simp [Env.context, hl]⟩⟩
  | none =>
    cases hs : env.function? name with
    | some s =>
      simp only [hname, hs, pure_ok] at h
      obtain ⟨rfl, rfl⟩ := h
      exact ⟨.refl _, .mk (by simp [TNode.operands]) ⟨hn.functions s (List.mem_of_find?_eq_some hs), _, _, rfl⟩⟩
    | none => simp [hname, hs] at h

theorem synthCallee_ok {c : Callee} (hn : env.Sound) (h : synthCallee name span env = (.ok c, env')) :
    env = env' ∧ ∀ env₁, env.Keeps env₁ → ∀ args : List TExpr, (∀ a ∈ args, env₁.Types a) →
      args.map TExpr.ty = c.params → env₁.Types (c.apply args span) := by
  simp only [synthCallee, bind_ok, get_ok] at h
  obtain ⟨_, _, ⟨rfl, rfl⟩, h⟩ := h
  cases hname : env.lookup? name with
  | some _ =>
    simp only [hname, bind_ok] at h
    obtain ⟨⟨x, l⟩, _, hl, h⟩ := h
    obtain ⟨rfl, hx, hl⟩ := lookup_ok hl
    cases hty : l.ty with
    | function ps ret =>
      simp only [hty, pure_ok] at h
      obtain ⟨rfl, rfl⟩ := h
      refine ⟨rfl, fun env₁ hk args hargs hps => ?_⟩
      have hvar : env₁.Types (.mk (.function ps ret) (.var x) span) :=
        hk.types (.mk (by simp [TNode.operands]) ⟨hx, by simp [Env.context, hl, hty]⟩)
      refine .mk (List.forall_mem_cons.2 ⟨hvar, hargs⟩) ?_
      rw [NodeTyped, hps]
      rfl
    | _ => simp [hty] at h
  | none =>
    cases hs : env.function? name with
    | some s =>
      simp only [hname, hs, pure_ok] at h
      obtain ⟨rfl, rfl⟩ := h
      refine ⟨rfl, fun env₁ hk args hargs hps => .mk hargs ?_⟩
      have hsig := hn.functions s (List.mem_of_find?_eq_some hs)
      rw [NodeTyped, hps, hk.context_le.sig]
      exact hsig
    | none => simp [hname, hs] at h

theorem synthRef_ok {span : Span}
    (h : synthRef name mutable span env = (.ok e, env')) : env.Keeps env' ∧ env'.Types e := by
  obtain ⟨⟨x, l⟩, _, hl, h⟩ := bind_ok.1 h
  obtain ⟨rfl, hx, hl⟩ := lookup_ok hl
  rcases ite_ok.1 h with ⟨-, h⟩ | ⟨-, h⟩
  · simp at h
  rcases ite_ok.1 h with ⟨-, h⟩ | ⟨hplain, h⟩
  · simp at h
  obtain ⟨_, env₁, hm, h⟩ := bind_ok.1 h
  obtain rfl := modify_ok.1 hm
  obtain ⟨rfl, rfl⟩ := pure_ok.1 h
  have hk := Env.takeAddress_keeps hl (eq_false_of_ne_true hplain)
  have hb : (env.takeAddress x).context.binding x = some l.ty :=
    hk.context_le.binding x l.ty (by simp [Env.context, hl])
  exact ⟨hk, .mk (by simp [TNode.operands])
    ⟨hx, Env.taken_takeAddress hl, l.ty, _, rfl, hb, eq_false_of_ne_true hplain⟩⟩

theorem literal_ok {lit : Literal} {span : Span} (h : (do
      let v ← rule (lit.value hint)
      return TExpr.const v span : Check TExpr) env = (.ok e, env')) : env.Keeps env' ∧ env'.Types e := by
  simp only [bind_ok, rule_ok, pure_ok] at h
  obtain ⟨v, _, ⟨hv, rfl⟩, rfl, rfl⟩ := h
  obtain ⟨hvalid, helem⟩ := Literal.value_ok hv
  exact ⟨.refl _, TExpr.typed_const hvalid helem span⟩

theorem both_ok {env₂ : Env} (hn : env.Sound) (hx : env.Keeps env₁ ∧ env₁.Types x)
    (hy : env₁.Sound → env₁.Keeps env₂ ∧ env₂.Types y) :
    env.Keeps env₂ ∧ env₂.Sound ∧ env₂.Types x ∧ env₂.Types y := by
  obtain ⟨hk, hx⟩ := hx
  obtain ⟨hk', hy⟩ := hy (hk.sound hn)
  exact ⟨hk.trans hk', hk'.sound (hk.sound hn), hk'.types hx, hy⟩

mutual
theorem synth_ok (src : Expr) {env env' : Env} {e : TExpr} (hn : env.Sound)
    (h : synth src hint env = (.ok e, env')) : env.Keeps env' ∧ env'.Types e := by
  cases src with
  | mk node span =>
    rw [synth, located_ok] at h
    cases hlit : literal? node with
    | some lit =>
      simp only [hlit] at h
      exact literal_ok h
    | none =>
      simp only [hlit] at h
      exact synthNode_ok node hn h
theorem synthNode_ok (node : ExprNode) {hint : Option Ty} {span : Span} {env env' : Env} {e : TExpr}
    (hn : env.Sound) (h : synthNode node hint span env = (.ok e, env')) : env.Keeps env' ∧ env'.Types e := by
  cases node with
  | int | float =>
    rw [synthNode] at h
    exact literal_ok h
  | bool b =>
    rw [synthNode] at h
    obtain ⟨rfl, rfl⟩ := pure_ok.1 h
    have hb : (Value.ofBool b).Plain (fun _ => none) .bool := Value.plain_ofBool b
    exact ⟨.refl _, TExpr.typed_const hb.valid rfl span⟩
  | var name =>
    rw [synthNode] at h
    exact synthVar_ok hn h
  | binary op lhs rhs checked =>
    cases op with
    | and | or =>
      simp only [synthNode, bind_ok, rule_ok, pure_ok] at h
      obtain ⟨l, _, hl, _, _, ⟨hlb, rfl⟩, r, _, hr, _, _, ⟨hrb, rfl⟩, rfl, rfl⟩ := h
      obtain ⟨rfl, hlb⟩ := requireBool_ok hlb
      obtain ⟨rfl, hrb⟩ := requireBool_ok hrb
      obtain ⟨hk, -, hl, hr⟩ := both_ok hn (synth_ok lhs hn hl) fun hn => synth_ok rhs hn hr
      exact ⟨hk, hl.binary hr rfl ⟨rfl, hlb, hrb⟩⟩
    | arith op =>
      simp only [synthNode, ite_ok, bind_ok, rule_ok] at h
      rcases h with ⟨-, r, _, hr, l, _, hl, h, rfl⟩ | ⟨-, l, _, hl, r, _, hr, h, rfl⟩
      · obtain ⟨hk, hn', hr, hl⟩ := both_ok hn (synth_ok rhs hn hr) fun hn => synth_ok lhs hn hl
        exact ⟨hk, arith_ok hn'.formed hl hr h⟩
      · obtain ⟨hk, hn', hl, hr⟩ := both_ok hn (synth_ok lhs hn hl) fun hn => synth_ok rhs hn hr
        exact ⟨hk, arith_ok hn'.formed hl hr h⟩
    | compare op =>
      simp only [synthNode, ite_ok, bind_ok, rule_ok] at h
      rcases h with ⟨-, r, _, hr, l, _, hl, h, rfl⟩ | ⟨-, l, _, hl, r, _, hr, h, rfl⟩
      · obtain ⟨hk, hn', hr, hl⟩ := both_ok hn (synth_ok rhs hn hr) fun hn => synth_ok lhs hn hl
        exact ⟨hk, compare_ok hn'.formed hl hr h⟩
      · obtain ⟨hk, hn', hl, hr⟩ := both_ok hn (synth_ok lhs hn hl) fun hn => synth_ok rhs hn hr
        exact ⟨hk, compare_ok hn'.formed hl hr h⟩
  | unary op operand checked =>
    simp only [synthNode, bind_ok, rule_ok] at h
    obtain ⟨o, _, ho, h, rfl⟩ := h
    obtain ⟨hk, ho⟩ := synth_ok operand hn ho
    exact ⟨hk, unary_ok ho h⟩
  | call callee args =>
    simp only [synthNode, bind_ok, ite_ok, lift_refuse_ne, and_false, false_or, pure_ok] at h
    obtain ⟨c, _, hc, hlen, es, _, hes, rfl, rfl⟩ := h
    obtain ⟨rfl, happly⟩ := synthCallee_ok hn hc
    obtain ⟨hk, hes, htys⟩ := synthArgs_ok args hn (Decidable.not_not.1 hlen) hes
    exact ⟨hk, happly _ hk es hes htys⟩
  | ite cond thenExpr elseExpr =>
    simp only [synthNode, bind_ok, rule_ok] at h
    obtain ⟨c, _, hc, _, _, ⟨hcb, rfl⟩, t, _, ht, f, _, hf, h, rfl⟩ := h
    obtain ⟨rfl, hcb⟩ := requireBool_ok hcb
    obtain ⟨hk, hc⟩ := synth_ok cond hn hc
    obtain ⟨hk', ht⟩ := synth_ok thenExpr (hk.sound hn) ht
    obtain ⟨hk'', hf⟩ := synth_ok elseExpr (hk'.sound (hk.sound hn)) hf
    exact ⟨hk.trans (hk'.trans hk''),
      conditional_ok ((hk'.trans hk'').types hc) hcb (hk''.types ht) hf h⟩
  | cast operand ty =>
    simp only [synthNode, bind_ok, rule_ok] at h
    obtain ⟨_, _, ⟨hty, rfl⟩, o, _, ho, h, rfl⟩ := h
    obtain ⟨hk, ho⟩ := synth_ok operand hn ho
    exact ⟨hk, cast_ok ho (validate_ok hty) h⟩
  | complex re im =>
    simp only [synthNode, bind_ok, rule_ok] at h
    obtain ⟨r, _, hr, i, _, hi, h, rfl⟩ := h
    obtain ⟨hk, hn', hr, hi⟩ := both_ok hn (synth_ok re hn hr) fun hn => synth_ok im hn hi
    refine ⟨hk, makeComplex_ok hn'.formed hr hi ?_ h⟩
    intro t ht
    obtain ⟨k, hk, rfl⟩ := Option.map_eq_some_iff.1 ht
    obtain ⟨u, -, hu⟩ := Option.bind_eq_some_iff.1 hk
    exact (Ty.isFloat_ofKind k).trans (Ty.eq_complexOf hu).2
  | vector elems =>
    simp only [synthNode, bind_ok, rule_ok] at h
    obtain ⟨es, _, hes, h, rfl⟩ := h
    obtain ⟨hk, hes, -⟩ := synthEach_ok elems hn hes
    exact ⟨hk, vector_ok hes h⟩
  | tensor shape elems =>
    simp only [synthNode, ite_ok, lift_refuse_ne, and_false, false_or, bind_ok, rule_ok] at h
    obtain ⟨hcount, es, _, hes, h, rfl⟩ := h
    obtain ⟨hk, hes, hlen⟩ := synthEach_ok elems hn hes
    exact ⟨hk, tensor_ok hes ((Decidable.not_not.1 hcount).trans hlen.symm) h⟩
  | struct fields =>
    simp only [synthNode, bind_ok, pure_ok] at h
    obtain ⟨fs, _, hfs, rfl, rfl⟩ := h
    obtain ⟨hk, hfs⟩ := synthFields_ok fields hn hfs
    exact ⟨hk, makeStruct_ok (fun f hf => (hfs f hf).1) fun f hf => (hfs f hf).2⟩
  | field base name =>
    simp only [synthNode, bind_ok, rule_ok] at h
    obtain ⟨b, _, hb, h, rfl⟩ := h
    obtain ⟨hk, hb⟩ := synth_ok base hn hb
    exact ⟨hk, field_ok hb h⟩
  | index base indices =>
    simp only [synthNode, bind_ok, rule_ok, pure_ok] at h
    obtain ⟨b, _, hb, t, _, ⟨hix, rfl⟩, is, _, his, rfl, rfl⟩ := h
    obtain ⟨hk, hb⟩ := synth_ok base hn hb
    obtain ⟨hk', his, hlen⟩ := synthIndices_ok indices (hk.sound hn) his
    obtain ⟨hel, hrank⟩ := indexed_ok hix
    exact ⟨hk.trans hk', .mk (List.forall_mem_cons.2 ⟨hk'.types hb, fun i hi => (his i hi).1⟩)
      ⟨hel, fun i hi => (his i hi).2, hlen ▸ hrank⟩⟩
  | intrinsic op args =>
    simp only [synthNode, ite_ok, lift_refuse_ne, and_false, false_or, bind_ok, rule_ok] at h
    obtain ⟨-, es, _, hes, h, rfl⟩ := h
    obtain ⟨hk, hes, -⟩ := synthEach_ok args hn hes
    exact ⟨hk, intrinsic_ok hes h⟩
  | ref name mutable =>
    rw [synthNode] at h
    exact synthRef_ok h
  | deref operand =>
    simp only [synthNode, bind_ok, rule_ok] at h
    obtain ⟨o, _, ho, h, rfl⟩ := h
    obtain ⟨hk, ho⟩ := synth_ok operand hn ho
    exact ⟨hk, deref_ok ho h⟩
theorem synthEach_ok (srcs : List Expr) {env env' : Env} {es : List TExpr} (hn : env.Sound)
    (h : synthEach srcs hint env = (.ok es, env')) :
    env.Keeps env' ∧ (∀ e ∈ es, env'.Types e) ∧ es.length = srcs.length := by
  cases srcs with
  | nil =>
    rw [synthEach] at h
    obtain ⟨rfl, rfl⟩ := pure_ok.1 h
    exact ⟨.refl _, by simp, rfl⟩
  | cons src srcs =>
    simp only [synthEach, bind_ok, pure_ok] at h
    obtain ⟨e, env₁, he, es', env₂, hes, rfl, rfl⟩ := h
    obtain ⟨hk, he⟩ := synth_ok src hn he
    obtain ⟨hk', hes, hlen⟩ := synthEach_ok srcs (hk.sound hn) hes
    exact ⟨hk.trans hk', List.forall_mem_cons.2 ⟨hk'.types he, hes⟩, congrArg (· + 1) hlen⟩
theorem synthArgs_ok (srcs : List Expr) {ts : List Ty} {env env' : Env} {es : List TExpr} (hn : env.Sound)
    (hlen : ts.length = srcs.length) (h : synthArgs srcs ts env = (.ok es, env')) :
    env.Keeps env' ∧ (∀ e ∈ es, env'.Types e) ∧ es.map TExpr.ty = ts := by
  cases srcs with
  | nil =>
    obtain rfl := List.length_eq_zero_iff.1 hlen
    simp only [synthArgs, pure_ok] at h
    obtain ⟨rfl, rfl⟩ := h
    exact ⟨.refl _, by simp, rfl⟩
  | cons src srcs =>
    obtain ⟨t, ts, rfl⟩ := List.exists_cons_of_length_eq_add_one hlen
    simp only [synthArgs, bind_ok, rule_ok, pure_ok] at h
    obtain ⟨e, env₁, he, e', _, ⟨hco, rfl⟩, es', env₂, hes, rfl, rfl⟩ := h
    obtain ⟨hk, he⟩ := synth_ok src hn he
    obtain ⟨he', hty⟩ := coerce_ok he hco
    obtain ⟨hk', hes, htys⟩ := synthArgs_ok srcs (hk.sound hn) (Nat.succ.inj hlen) hes
    exact ⟨hk.trans hk', List.forall_mem_cons.2 ⟨hk'.types he', hes⟩, by simp [hty, htys]⟩
theorem synthIndices_ok (srcs : List Expr) {env env' : Env} {es : List TExpr} (hn : env.Sound)
    (h : synthIndices srcs env = (.ok es, env')) :
    env.Keeps env' ∧ (∀ e ∈ es, env'.Types e ∧ e.ty = .i64) ∧ es.length = srcs.length := by
  cases srcs with
  | nil =>
    rw [synthIndices] at h
    obtain ⟨rfl, rfl⟩ := pure_ok.1 h
    exact ⟨.refl _, by simp, rfl⟩
  | cons src srcs =>
    simp only [synthIndices, bind_ok, rule_ok, pure_ok] at h
    obtain ⟨e, env₁, he, e', _, ⟨hix, rfl⟩, es', env₂, hes, rfl, rfl⟩ := h
    obtain ⟨hk, he⟩ := synth_ok src hn he
    obtain ⟨he', hty⟩ := indexOperand_ok he hix
    obtain ⟨hk', hes, hlen⟩ := synthIndices_ok srcs (hk.sound hn) hes
    exact ⟨hk.trans hk', List.forall_mem_cons.2 ⟨⟨hk'.types he', hty⟩, hes⟩, congrArg (· + 1) hlen⟩
theorem synthFields_ok (srcs : List (String × Expr)) {seen : List String} {env env' : Env} (hn : env.Sound)
    (h : synthFields srcs hints seen env = (.ok fs, env')) :
    env.Keeps env' ∧ ∀ f ∈ fs, env'.Types f.2 ∧ f.2.ty.holdsReference = false := by
  cases srcs with
  | nil =>
    simp only [synthFields, pure_ok] at h
    obtain ⟨rfl, rfl⟩ := h
    exact ⟨.refl _, by simp⟩
  | cons field srcs =>
    obtain ⟨name, src⟩ := field
    simp only [synthFields, ite_ok, lift_refuse_ne, and_false, false_or, bind_ok] at h
    obtain ⟨-, v, env₁, hv, h⟩ := h
    obtain ⟨hk, hv⟩ := synth_ok src hn hv
    obtain ⟨w, hw, hplain, vs, _, hvs, rfl, rfl⟩ : ∃ w, env₁.Types w ∧ w.ty.holdsReference = false ∧
        ∃ vs env₂, synthFields srcs hints.tail (name :: seen) env₁ = (.ok vs, env₂) ∧
          (name, w) :: vs = fs ∧ env₂ = env' := by
      cases hhint : fieldHint hints name with
      | none =>
        simp only [hhint, bind_ok, ite_ok, rule_ok, refuseAt_ne, false_and, and_false, false_or,
          pure_ok] at h
        obtain ⟨_, _, ⟨rfl, rfl⟩, hplain, h⟩ := h
        exact ⟨v, hv, eq_false_of_ne_true hplain, h⟩
      | some t =>
        simp only [hhint, bind_ok, ite_ok, rule_ok, refuseAt_ne, false_and, and_false, false_or,
          pure_ok] at h
        obtain ⟨w, _, ⟨hco, rfl⟩, hplain, h⟩ := h
        exact ⟨w, (coerce_ok hv hco).1, eq_false_of_ne_true hplain, h⟩
    obtain ⟨hk', hvs⟩ := synthFields_ok srcs (hk.sound hn) hvs
    exact ⟨hk.trans hk', List.forall_mem_cons.2 ⟨⟨hk'.types hw, hplain⟩, hvs⟩⟩
end

/-! ## Statements -/

theorem synthAs_ok (hn : env.Sound) (h : synthAs src t env = (.ok e, env')) :
    env.Keeps env' ∧ env'.Types e ∧ e.ty = t := by
  simp only [synthAs, bind_ok, rule_ok] at h
  obtain ⟨v, _, hv, hco, rfl⟩ := h
  obtain ⟨hk, hv⟩ := synth_ok src hn hv
  exact ⟨hk, coerce_ok hv hco⟩

theorem checkBool_ok (hn : env.Sound) (h : checkBool src env = (.ok e, env')) :
    env.Keeps env' ∧ env'.Types e ∧ e.ty = .bool := by
  simp only [checkBool, bind_ok, rule_ok] at h
  obtain ⟨v, _, hv, hb, rfl⟩ := h
  obtain ⟨rfl, hb⟩ := requireBool_ok hb
  obtain ⟨hk, hv⟩ := synth_ok src hn hv
  exact ⟨hk, hv, hb⟩

theorem mutableLocal_ok (h : mutableLocal name env = (.ok (x, l), env')) :
    env = env' ∧ env.Sees x ∧ env.context.binding x = some l.ty := by
  simp only [mutableLocal, bind_ok, ite_ok, pure_ok, lift_refuse_ne, and_false, or_false] at h
  obtain ⟨⟨y, l'⟩, _, hl, -, heq, rfl⟩ := h
  cases heq
  obtain ⟨rfl, hx, hl⟩ := lookup_ok hl
  exact ⟨rfl, hx, by simp [Env.context, hl]⟩

/-- A statement and the bindings it introduces. It is well typed as long as there are numbers for
the bindings. -/
structure StmtOk (env env' : Env) (s : TStmt) : Prop where
  binds : env.Binds env' (s.scope env.Sees) s.lets
  typed : env'.locals.size ≤ 2 ^ 32 → s.Typed env'.context env.Sees
  placed : s.Placed (env.loopDepth ≠ 0)

/-- Statements and the bindings they introduce. -/
structure StmtsOk (env env' : Env) (ss : List TStmt) : Prop where
  binds : ∃ V, env.Binds env' V (TStmt.letsAll ss)
  typed : env'.locals.size ≤ 2 ^ 32 → TStmt.TypedAll env'.context env.Sees ss
  placed : TStmt.PlacedAll (env.loopDepth ≠ 0) ss

variable {node : TStmtNode} {span : Span}

theorem checkLet_ok
    (hn : env.Sound) (hs : env.scopes ≠ []) (h : checkLet name ty mutable src env = (.ok node, env')) :
    StmtOk env env' (.mk node span) := by
  have hfin {v : TExpr} {env₁ : Env} (hk : env.Keeps env₁) (hv : env₁.Types v)
      (h : (do
        let x ← Check.bind name v.ty mutable
        return TStmtNode.letBinding x v : Check TStmtNode) env₁ = (.ok node, env')) :
      StmtOk env env' (.mk node span) := by
    simp only [bind_ok, newLocal_ok, pure_ok] at h
    obtain ⟨_, _, ⟨rfl, rfl⟩, rfl, rfl⟩ := h
    have hb := Env.bind_binds (hk.scopes ▸ hs) name (fun hformed => hv.formed hformed) mutable
    rw [hk.sees] at hb
    refine ⟨(hk.binds hs).trans hb, fun hsize => ⟨(hk.typed hv).mono hb.context_le, ?_⟩, trivial⟩
    have hlt : env₁.locals.size < 2 ^ 32 := by simpa [Env.bind, Nat.succ_le_iff] using hsize
    exact Env.bind_binding env₁ name v.ty mutable hlt
  cases ty with
  | some t =>
    simp only [checkLet] at h
    obtain ⟨_, _, hv, h⟩ := bind_ok.1 h
    obtain ⟨-, rfl⟩ := rule_ok.1 hv
    obtain ⟨v, _, hv, h⟩ := bind_ok.1 h
    obtain ⟨hk, hv, -⟩ := synthAs_ok hn hv
    exact hfin hk hv h
  | none =>
    simp only [checkLet] at h
    obtain ⟨v, _, hv, h⟩ := bind_ok.1 h
    obtain ⟨hk, hv⟩ := synth_ok src hn hv
    exact hfin hk hv h

theorem StmtOk.of_keeps (hk : env.Keeps env') (hs : env.scopes ≠ [])
    (hscope : ∀ V : Visible, (TStmt.mk node span).scope V = V) (hlets : (TStmt.mk node span).lets = [])
    (hplaced : (TStmt.mk node span).Placed (env.loopDepth ≠ 0))
    (ht : (TStmt.mk node span).Typed env'.context env.Sees) : StmtOk env env' (.mk node span) := by
  refine ⟨?_, fun _ => ht, hplaced⟩
  rw [hscope, hlets]
  exact hk.binds hs

section

variable (hn : env.Sound) (hs : env.scopes ≠ [])
include hn hs

theorem checkAssign_ok (h : checkAssign name src env = (.ok node, env')) : StmtOk env env' (.mk node span) := by
  simp only [checkAssign, bind_ok, pure_ok] at h
  obtain ⟨⟨x, l⟩, _, hl, v, _, hv, rfl, rfl⟩ := h
  obtain ⟨rfl, hx, hb⟩ := mutableLocal_ok hl
  obtain ⟨hk, hv, hty⟩ := synthAs_ok hn hv
  exact .of_keeps hk hs (fun _ => rfl) rfl trivial
    ⟨hk.typed hv, hx, hty ▸ hk.context_le.binding x _ hb⟩

theorem checkAssignField_ok {field : String} (h : checkAssignField name field src env = (.ok node, env')) :
    StmtOk env env' (.mk node span) := by
  simp only [checkAssignField, bind_ok] at h
  obtain ⟨⟨x, l⟩, _, hl, h⟩ := h
  obtain ⟨rfl, hx, hb⟩ := mutableLocal_ok hl
  cases hty : l.ty with
  | struct decl =>
    simp only [hty] at h
    cases hfind : findField decl field with
    | some p =>
      obtain ⟨i, t⟩ := p
      simp only [hfind, bind_ok, pure_ok] at h
      obtain ⟨v, _, hv, rfl, rfl⟩ := h
      obtain ⟨hk, hv, hvt⟩ := synthAs_ok hn hv
      obtain ⟨j, d, hj, hd, hdt⟩ := findField_ok hfind
      exact .of_keeps hk hs (fun _ => rfl) rfl trivial
        ⟨hk.typed hv, hx, decl, j, d, hty ▸ hk.context_le.binding x _ hb, hj, hd, hdt.trans hvt.symm⟩
    | none => simp [hfind] at h
  | _ => simp [hty] at h

theorem checkStore_ok (h : checkStore target src env = (.ok node, env')) : StmtOk env env' (.mk node span) := by
  simp only [checkStore, bind_ok] at h
  obtain ⟨t, _, ht, h⟩ := h
  obtain ⟨hk, ht⟩ := synth_ok target hn ht
  cases hty : t.ty with
  | reference inner m =>
    cases m with
    | mutable =>
      simp only [hty, bind_ok, pure_ok] at h
      obtain ⟨v, _, hv, rfl, rfl⟩ := h
      obtain ⟨hk', hv, hvt⟩ := synthAs_ok (hk.sound hn) hv
      have hkk := hk.trans hk'
      exact .of_keeps hkk hs (fun _ => rfl) rfl trivial
        ⟨hkk.typed (hk'.types ht), hkk.typed hv, _, hvt ▸ hty⟩
    | shared => simp [hty] at h
  | _ => simp [hty] at h

theorem checkReturn_ok {src : Option Expr} (h : checkReturn src env = (.ok node, env')) :
    StmtOk env env' (.mk node span) := by
  simp only [checkReturn, bind_ok, get_ok] at h
  obtain ⟨_, _, ⟨rfl, rfl⟩, h⟩ := h
  cases src with
  | some src =>
    simp only [bind_ok, pure_ok] at h
    obtain ⟨v, _, hv, rfl, rfl⟩ := h
    obtain ⟨hk, hv, hty⟩ := synthAs_ok hn hv
    exact .of_keeps hk hs (fun _ => rfl) rfl trivial ⟨hk.typed hv, hty.trans hk.ret.symm⟩
  | none =>
    simp only [ite_ok, pure_ok, lift_refuse_ne, and_false, or_false] at h
    obtain ⟨hunit, rfl, rfl⟩ := h
    have hret : Ty.unit = env.ret := by
      unfold Ty.isUnit at hunit
      split at hunit
      · rename_i hret
        exact hret.symm
      · cases hunit
    exact .of_keeps (.refl env) hs (fun _ => rfl) rfl trivial
      ⟨.mk (by simp [TNode.operands]) ⟨[], rfl, rfl, rfl⟩, hret⟩

end

theorem checkJump_ok (hjump : jump = .break ∨ jump = .continue) (hs : env.scopes ≠ [])
    (h : checkJump jump env = (.ok node, env')) : StmtOk env env' (.mk node span) := by
  simp only [checkJump, bind_ok, get_ok, ite_ok, lift_refuse_ne, and_false, false_or, pure_ok] at h
  obtain ⟨_, _, ⟨rfl, rfl⟩, hdepth, rfl, rfl⟩ := h
  rcases hjump with rfl | rfl
  · exact .of_keeps (.refl env) hs (fun _ => rfl) rfl hdepth trivial
  · exact .of_keeps (.refl env) hs (fun _ => rfl) rfl hdepth trivial

theorem StmtsOk.inScope (h : StmtsOk env.pushScope env₁ ss) (hs : env.scopes ≠ []) :
    env.Binds env₁.popScope env.Sees (TStmt.letsAll ss) ∧
      (env₁.popScope.locals.size ≤ 2 ^ 32 → TStmt.TypedAll env₁.popScope.context env.Sees ss) ∧
      TStmt.PlacedAll (env.loopDepth ≠ 0) ss := by
  obtain ⟨⟨V, hb⟩, ht, hp⟩ := h
  exact ⟨hb.popScope hs, fun hsize => Env.pushScope_sees env ▸ ht hsize, hp⟩

mutual
theorem checkStmt_ok (src : Stmt) {env env' : Env} {s : TStmt} (hn : env.Sound) (hs : env.scopes ≠ [])
    (h : checkStmt src env = (.ok s, env')) : StmtOk env env' s := by
  cases src with
  | mk node span =>
    simp only [checkStmt, bind_ok, located_ok, pure_ok] at h
    obtain ⟨n, _, hnode, rfl, rfl⟩ := h
    exact checkNode_ok node hn hs hnode
theorem checkNode_ok (node : StmtNode) {span : Span} {env env' : Env} (hn : env.Sound)
    (hs : env.scopes ≠ []) (h : checkNode node env = (.ok n, env')) : StmtOk env env' (.mk n span) := by
  cases node with
  | letBinding =>
    rw [checkNode] at h
    exact checkLet_ok hn hs h
  | assign name value =>
    rw [checkNode] at h
    exact checkAssign_ok hn hs h
  | assignField name field value =>
    rw [checkNode] at h
    exact checkAssignField_ok hn hs h
  | store target value =>
    rw [checkNode] at h
    exact checkStore_ok hn hs h
  | ite cond thenBody elseBody =>
    simp only [checkNode, bind_ok, pure_ok] at h
    obtain ⟨c, env₁, hc, a, env₂, ha, b, env₃, hb, rfl, rfl⟩ := h
    obtain ⟨hk, hc, hcb⟩ := checkBool_ok hn hc
    have hs₁ := hk.scopes ▸ hs
    have hn₁ : env₁.pushScope.Sound := (hk.sound hn).pushScope
    obtain ⟨env₂, hsa, rfl⟩ := inScope_ok ha
    obtain ⟨hba, hta, hpa⟩ := (checkStmts_ok thenBody hn₁ (List.cons_ne_nil _ _) hsa).inScope hs₁
    have hn₂ : env₂.popScope.pushScope.Sound := (hba.sound (hk.sound hn)).pushScope
    obtain ⟨env₃, hsb, rfl⟩ := inScope_ok hb
    obtain ⟨hbb, htb, hpb⟩ := (checkStmts_ok elseBody hn₂ (List.cons_ne_nil _ _) hsb).inScope hba.nonempty
    rw [hk.sees] at hba hta
    rw [hba.sees] at hbb htb
    rw [hba.depth] at hpb
    rw [hk.depth] at hpa hpb
    refine ⟨(hk.binds hs).trans (hba.trans hbb), fun hsize => ⟨?_, hcb, ?_, htb hsize⟩, hpa, hpb⟩
    · exact (hk.typed hc).mono (hba.toGrows.trans hbb.toGrows).context_le
    · exact TStmt.TypedAll.mono hbb.context_le a (hta (Nat.le_trans hbb.size hsize))
  | «while» cond body =>
    simp only [checkNode, bind_ok, pure_ok] at h
    obtain ⟨c, env₁, hc, b, env₂, hb, rfl, rfl⟩ := h
    obtain ⟨hk, hc, hcb⟩ := checkBool_ok hn hc
    obtain ⟨_, hscope, rfl⟩ := inLoop_ok hb
    obtain ⟨env₂, hss, rfl⟩ := inScope_ok hscope
    -- the depth of loops is no part of what an environment knows
    have hn₁ : ({ env₁ with loopDepth := env₁.loopDepth + 1 } : Env).pushScope.Sound :=
      ⟨(hk.sound hn).functions, (hk.sound hn).formed⟩
    obtain ⟨hbb, htb, hpb⟩ := (checkStmts_ok body hn₁ (List.cons_ne_nil _ _) hss).inScope
      (show env₁.scopes ≠ [] from hk.scopes ▸ hs)
    have hbb : env₁.Binds { env₂.popScope with loopDepth := env₂.popScope.loopDepth - 1 } env₁.Sees
        (TStmt.letsAll b) :=
      ⟨⟨⟨hbb.functions, hbb.ret, hbb.size, hbb.locals, by simp [hbb.depth]⟩, hbb.plain, hbb.formed⟩,
        hbb.nonempty, hbb.outer, hbb.sees, hbb.numbers⟩
    rw [hk.sees] at hbb
    refine ⟨(hk.binds hs).trans hbb, fun hsize => ⟨(hk.typed hc).mono hbb.context_le, hcb, ?_⟩, ?_⟩
    · exact hk.sees ▸ htb hsize
    · have hloop : (env₁.loopDepth + 1 ≠ 0) = True := eq_true (Nat.succ_ne_zero _)
      show TStmt.PlacedAll True b
      exact hloop ▸ hpb
  | «break» =>
    rw [checkNode] at h
    exact checkJump_ok (.inl rfl) hs h
  | «continue» =>
    rw [checkNode] at h
    exact checkJump_ok (.inr rfl) hs h
  | «return» value =>
    rw [checkNode] at h
    exact checkReturn_ok hn hs h
  | expr value =>
    simp only [checkNode, bind_ok, pure_ok] at h
    obtain ⟨v, _, hv, rfl, rfl⟩ := h
    obtain ⟨hk, hv⟩ := synth_ok value hn hv
    exact .of_keeps hk hs (fun _ => rfl) rfl trivial (hk.typed hv)
theorem checkStmts_ok (srcs : List Stmt) {env env' : Env} (hn : env.Sound)
    (hs : env.scopes ≠ []) (h : checkStmts srcs env = (.ok ss, env')) : StmtsOk env env' ss := by
  cases srcs with
  | nil =>
    simp only [checkStmts, pure_ok] at h
    obtain ⟨rfl, rfl⟩ := h
    exact ⟨⟨_, (Env.Keeps.refl env).binds hs⟩, fun _ => trivial, trivial⟩
  | cons src srcs =>
    simp only [checkStmts, bind_ok, pure_ok] at h
    obtain ⟨s, env₁, hs', ss, env₂, hss, rfl, rfl⟩ := h
    obtain ⟨hb, ht, hp⟩ := checkStmt_ok src hn hs hs'
    obtain ⟨⟨V, hbs⟩, hts, hps⟩ := checkStmts_ok srcs (hb.sound hn) hb.nonempty hss
    refine ⟨⟨V, hb.trans hbs⟩, fun hsize => ⟨?_, hb.sees ▸ hts hsize⟩, hp, hb.depth ▸ hps⟩
    exact TStmt.Typed.mono hbs.context_le s (ht (Nat.le_trans hbs.size hsize))
end

end NumericEngine.Typing
