import NumericEngine.Proofs.Typing.Env
import NumericEngine.Typing.Check

/-!
# What checking leaves in place

A check works on one environment and can fail anywhere, inside nested scopes
and loops. Whether it fails or not, it closes the scopes and loops that it
opened. So a failed statement leaves every name with its meaning, and of the
statements that succeed, only a `let` gives a name another one.
-/

namespace NumericEngine.Typing

open Source (Span Expr ExprNode Stmt StmtNode)

namespace Env

variable {env env' env'' : Env} {n : Nat}

/-- All but the `n` innermost scopes stay as they are. -/
structure Frame (n : Nat) (env env' : Env) : Prop extends Retains env env' where
  count : env'.scopes.length = env.scopes.length
  outer : env'.scopes.drop n = env.scopes.drop n

theorem Frame.refl (n : Nat) (env : Env) : env.Frame n env := ⟨.refl env, rfl, rfl⟩

theorem Frame.trans (h : Frame n env env') (h' : Frame n env' env'') : Frame n env env'' :=
  ⟨h.toRetains.trans h'.toRetains, h'.count.trans h.count, h'.outer.trans h.outer⟩

theorem Frame.succ (h : Frame n env env') : Frame (n + 1) env env' := by
  refine ⟨h.toRetains, h.count, ?_⟩
  rw [← List.drop_drop, ← List.drop_drop, h.outer]

theorem Frame.lookup? (h : Frame 0 env env') (name : String) : env'.lookup? name = env.lookup? name := by
  rw [Env.lookup?, Env.lookup?, show env'.scopes = env.scopes from h.outer]

theorem frame_bind (env : Env) (name : String) (ty : Ty) (mutable : Bool) :
    Frame 1 env (env.bind name ty mutable).2 := by
  refine ⟨bind_retains env name ty mutable, ?_, ?_⟩
  · simp only [bind]
    split <;> simp_all
  · rw [List.drop_one, List.drop_one, bind_outer]

theorem lookup?_bind (hs : env.scopes ≠ []) (name other : String) (ty : Ty) (mutable : Bool) :
    (env.bind name ty mutable).2.lookup? other =
      if other = name then some (env.bind name ty mutable).1 else env.lookup? other := by
  obtain ⟨scope, outer, hs⟩ := List.exists_cons_of_ne_nil hs
  simp only [Env.lookup?, bind, hs, List.findSome?_cons, List.lookup_cons]
  by_cases h : other = name
  · simp [h]
  · simp [beq_false_of_ne h, h]

end Env

/-! ## Checks -/

/-- A check that keeps all but the `n` innermost scopes, whatever its outcome. -/
def Framed (n : Nat) {α : Type} (x : Check α) : Prop := ∀ env, Env.Frame n env (x env).2

variable {α β : Type} {n : Nat} {x : Check α}

namespace Framed

theorem same (h : ∀ env, (x env).2 = env) : Framed n x := fun env => (h env).symm ▸ .refl n env

theorem pure (a : α) : Framed n (pure a : Check α) := same fun _ => rfl

theorem rule (r : Rule α) : Framed n (Check.rule r) := same fun _ => rfl

theorem refuse (fault : TypeFault) : Framed n (liftM (Typing.refuse fault : Rule α) : Check α) :=
  same fun _ => rfl

theorem succ (h : Framed n x) : Framed (n + 1) x := fun env => (h env).succ

/-- The second check starts where the first one stopped, unless that failed. -/
theorem bind {f : α → Check β} (hx : Framed n x) (hf : ∀ a, Framed n (f a)) : Framed n (x >>= f) := by
  intro env
  have hx := hx env
  rw [Check.bind_apply]
  generalize x env = r at hx
  obtain ⟨_ | a, env₁⟩ : Except TypeError α × Env := r
  · exact hx
  · exact hx.trans (hf a env₁)

theorem ite {c : Prop} [Decidable c] {y : Check α} (hx : Framed n x) (hy : Framed n y) :
    Framed n (if c then x else y) := by
  split <;> assumption

theorem located (span : Span) (hx : Framed n x) : Framed n (Check.located span x) := by
  intro env
  have hx := hx env
  unfold Check.located
  split
  · rename_i heq
    rwa [heq] at hx
  · exact hx

theorem lookup (name : String) : Framed n (Check.lookup name) := by
  refine same fun env => ?_
  unfold Check.lookup
  repeat' split
  all_goals rfl

/-- The scope that was opened is the innermost one again when it is closed. -/
theorem inScope (hx : Framed 1 x) : Framed 0 (Check.inScope x) := by
  intro env
  have hx := hx env.pushScope
  have hscopes : (Check.inScope x env).2.scopes = env.scopes := by
    have houter := hx.outer
    rw [List.drop_one] at houter
    exact houter
  exact ⟨⟨hx.functions, hx.ret, hx.size, hx.locals, hx.depth⟩, by rw [hscopes], hscopes⟩

theorem inLoop (hx : Framed n x) : Framed n (Check.inLoop x) := by
  intro env
  have hx := hx { env with loopDepth := env.loopDepth + 1 }
  exact ⟨⟨hx.functions, hx.ret, hx.size, hx.locals, congrArg (· - 1) hx.depth⟩, hx.count, hx.outer⟩

end Framed

/-! ## Expressions -/

theorem synthVar_framed (name : String) (span : Span) : Framed 0 (synthVar name span) := by
  refine .bind (.same fun _ => rfl) fun env => ?_
  repeat' split
  · exact (Framed.lookup name).bind fun _ => .pure _
  · exact .pure _
  · exact .refuse _

theorem synthCallee_framed (name : String) (span : Span) : Framed 0 (synthCallee name span) := by
  refine .bind (.same fun _ => rfl) fun env => ?_
  split
  · refine (Framed.lookup name).bind fun r => ?_
    dsimp only
    split
    · exact .pure _
    · exact .refuse _
  · split
    · exact .pure _
    · exact .refuse _

theorem synthRef_framed (name : String) (mutable : Bool) (span : Span) :
    Framed 0 (synthRef name mutable span) := by
  refine (Framed.lookup name).bind fun r => .ite (.refuse _) (.ite (.refuse _) ?_)
  refine .bind (fun env => ?_) fun _ => .pure _
  exact ⟨Env.takeAddress_retains env r.1, rfl, rfl⟩

mutual
theorem synth_framed (e : Expr) (hint : Option Ty) : Framed 0 (synth e hint) := by
  obtain ⟨node, span⟩ := e
  rw [synth]
  refine .located span ?_
  split
  · exact (Framed.rule _).bind fun _ => .pure _
  · exact synthNode_framed node hint span
theorem synthNode_framed (node : ExprNode) (hint : Option Ty) (span : Span) :
    Framed 0 (synthNode node hint span) := by
  cases node with
  | int | float =>
    rw [synthNode]
    exact (Framed.rule _).bind fun _ => .pure _
  | bool =>
    rw [synthNode]
    exact .pure _
  | var name =>
    rw [synthNode]
    exact synthVar_framed name span
  | binary op lhs rhs checked =>
    cases op with
    | and | or =>
      rw [synthNode]
      exact (synth_framed lhs _).bind fun _ => (Framed.rule _).bind fun _ =>
        (synth_framed rhs _).bind fun _ => (Framed.rule _).bind fun _ => .pure _
    | arith | compare =>
      simp only [synthNode]
      exact .ite ((synth_framed rhs _).bind fun _ => (synth_framed lhs _).bind fun _ => .rule _)
        ((synth_framed lhs _).bind fun _ => (synth_framed rhs _).bind fun _ => .rule _)
  | unary op operand checked =>
    rw [synthNode]
    exact (synth_framed operand _).bind fun _ => .rule _
  | call callee args =>
    rw [synthNode]
    exact (synthCallee_framed callee span).bind fun _ =>
      .ite (.refuse _) ((synthArgs_framed args _).bind fun _ => .pure _)
  | ite cond thenExpr elseExpr =>
    rw [synthNode]
    exact (synth_framed cond _).bind fun _ => (Framed.rule _).bind fun _ =>
      (synth_framed thenExpr _).bind fun _ => (synth_framed elseExpr _).bind fun _ => .rule _
  | cast operand ty =>
    rw [synthNode]
    exact (Framed.rule _).bind fun _ => (synth_framed operand _).bind fun _ => .rule _
  | complex re im =>
    rw [synthNode]
    exact (synth_framed re _).bind fun _ => (synth_framed im _).bind fun _ => .rule _
  | vector elems =>
    rw [synthNode]
    exact (synthEach_framed elems _).bind fun _ => .rule _
  | tensor shape elems =>
    rw [synthNode]
    exact .ite (.refuse _) ((synthEach_framed elems _).bind fun _ => .rule _)
  | struct fields =>
    rw [synthNode]
    exact (synthFields_framed fields _ _).bind fun _ => .pure _
  | field base name =>
    rw [synthNode]
    exact (synth_framed base _).bind fun _ => .rule _
  | index base indices =>
    rw [synthNode]
    exact (synth_framed base _).bind fun _ => (Framed.rule _).bind fun _ =>
      (synthIndices_framed indices).bind fun _ => .pure _
  | intrinsic op args =>
    rw [synthNode]
    exact .ite (.refuse _) ((synthEach_framed args _).bind fun _ => .rule _)
  | ref name mutable =>
    rw [synthNode]
    exact synthRef_framed name mutable span
  | deref operand =>
    rw [synthNode]
    exact (synth_framed operand _).bind fun _ => .rule _
theorem synthEach_framed (es : List Expr) (hint : Option Ty) : Framed 0 (synthEach es hint) := by
  cases es with
  | nil => exact .pure _
  | cons e es =>
    rw [synthEach]
    exact (synth_framed e hint).bind fun _ => (synthEach_framed es hint).bind fun _ => .pure _
theorem synthArgs_framed (es : List Expr) (ts : List Ty) : Framed 0 (synthArgs es ts) := by
  cases es with
  | nil => cases ts <;> exact .pure _
  | cons e es =>
    cases ts with
    | nil => exact .pure _
    | cons t ts =>
      rw [synthArgs]
      exact (synth_framed e _).bind fun _ => (Framed.rule _).bind fun _ =>
        (synthArgs_framed es ts).bind fun _ => .pure _
theorem synthIndices_framed (es : List Expr) : Framed 0 (synthIndices es) := by
  cases es with
  | nil => exact .pure _
  | cons e es =>
    rw [synthIndices]
    exact (synth_framed e _).bind fun _ => (Framed.rule _).bind fun _ =>
      (synthIndices_framed es).bind fun _ => .pure _
theorem synthFields_framed (fields : List (String × Expr)) (hints : List (String × Ty)) (seen : List String) :
    Framed 0 (synthFields fields hints seen) := by
  match fields with
  | [] => exact .pure _
  | (name, e) :: rest =>
    rw [synthFields]
    refine .ite (.refuse _) ((synth_framed e _).bind fun v => ?_)
    dsimp only
    split
    · exact (Framed.rule _).bind fun _ => .ite (.rule _) ((synthFields_framed rest _ _).bind fun _ => .pure _)
    · exact (Framed.pure _).bind fun _ => .ite (.rule _) ((synthFields_framed rest _ _).bind fun _ => .pure _)
end

theorem synthAs_framed (e : Expr) (t : Ty) : Framed 0 (synthAs e t) :=
  (synth_framed e _).bind fun _ => .rule _

theorem checkBool_framed (e : Expr) : Framed 0 (checkBool e) := (synth_framed e _).bind fun _ => .rule _

theorem mutableLocal_framed (name : String) : Framed 0 (mutableLocal name) :=
  (Framed.lookup name).bind fun _ => .ite (.pure _) (.refuse _)

/-! ## Statements -/

/-- The environment after a statement, given whether it was accepted. -/
def Env.After (env : Env) (node : StmtNode) (accepted : Bool) (env' : Env) : Prop :=
  match node, accepted with
  | .letBinding name _ mutable _, true =>
    ∃ ty env₁, env.Frame 0 env₁ ∧ env' = (env₁.bind name ty mutable).2
  | _, _ => env.Frame 0 env'

theorem Env.After.frame {node : StmtNode} {accepted : Bool} {env env' : Env} (h : env.After node accepted env') :
    env.Frame 1 env' := by
  unfold Env.After at h
  split at h
  · obtain ⟨ty, env₁, h, rfl⟩ := h
    exact h.succ.trans (Env.frame_bind ..)
  · exact h.succ

/-- A check that leaves the environment as the statement does. -/
def Leaves (node : StmtNode) (x : Check α) : Prop :=
  ∀ env : Env, env.After node (x env).1.isOk (x env).2

theorem Leaves.bind {node : StmtNode} {f : α → Check β} (hx : Framed 0 x) (hf : ∀ a, Leaves node (f a)) :
    Leaves node (x >>= f) := by
  intro env
  have hx := hx env
  rw [Check.bind_apply]
  generalize x env = r at hx
  obtain ⟨_ | a, env₁⟩ : Except TypeError α × Env := r
  · cases node <;> exact hx
  · have hf := hf a env₁
    show env.After node (f a env₁).1.isOk (f a env₁).2
    unfold Env.After at hf ⊢
    split at hf
    · obtain ⟨ty, env₂, h, heq⟩ := hf
      exact ⟨ty, env₂, hx.trans h, heq⟩
    · exact hx.trans hf

/-- The binding is made last, when nothing can fail any more. -/
theorem leaves_bind (name : String) (ty : Option Ty) (mutable : Bool) (value : Expr) (v : TExpr) :
    Leaves (.letBinding name ty mutable value) (do
      let x ← Check.bind name v.ty mutable
      return .letBinding x v : Check TStmtNode) := fun env => ⟨v.ty, env, .refl 0 env, rfl⟩

theorem checkLet_leaves (name : String) (ty : Option Ty) (mutable : Bool) (value : Expr) :
    Leaves (.letBinding name ty mutable value) (checkLet name ty mutable value) := by
  unfold checkLet
  split
  · exact .bind (.rule _) fun _ => .bind (synthAs_framed value _) fun v => leaves_bind name _ mutable value v
  · exact .bind (synth_framed value _) fun v => leaves_bind name _ mutable value v

theorem checkAssignField_framed (name field : String) (value : Expr) :
    Framed 0 (checkAssignField name field value) := by
  refine (mutableLocal_framed name).bind fun r => ?_
  dsimp only
  split
  · split
    · exact (synthAs_framed value _).bind fun _ => .pure _
    · exact .refuse _
  · exact .refuse _

theorem checkStore_framed (target value : Expr) : Framed 0 (checkStore target value) := by
  refine (synth_framed target _).bind fun t => ?_
  split
  · exact (synthAs_framed value _).bind fun _ => .pure _
  · exact .refuse _

theorem checkReturn_framed (value : Option Expr) : Framed 0 (checkReturn value) := by
  refine .bind (.same fun _ => rfl) fun env => ?_
  dsimp only
  split
  · exact (synthAs_framed _ _).bind fun _ => .pure _
  · exact .ite (.pure _) (.refuse _)

theorem checkJump_framed (node : TStmtNode) : Framed 0 (checkJump node) :=
  .bind (.same fun _ => rfl) fun _ => .ite (.refuse _) (.pure _)

mutual
theorem checkStmt_leaves (s : Stmt) : Leaves s.node (checkStmt s) := by
  obtain ⟨node, span⟩ := s
  intro env
  have hnode := checkNode_leaves node env
  rw [checkStmt]
  unfold Check.located
  rw [Check.bind_apply]
  generalize checkNode node env = r at hnode
  obtain ⟨_ | n, env₁⟩ : Except TypeError TStmtNode × Env := r <;> exact hnode
theorem checkNode_leaves (node : StmtNode) : Leaves node (checkNode node) := by
  cases node with
  | letBinding name ty mutable value =>
    rw [checkNode]
    exact checkLet_leaves name ty mutable value
  | assign name value =>
    rw [checkNode]
    exact .bind (mutableLocal_framed name) fun _ => .bind (synthAs_framed value _) fun _ => .refl 0
  | assignField name field value =>
    rw [checkNode]
    exact checkAssignField_framed name field value
  | store target value =>
    rw [checkNode]
    exact checkStore_framed target value
  | ite cond thenBody elseBody =>
    rw [checkNode]
    exact (checkBool_framed cond).bind fun _ => (checkStmts_framed thenBody).inScope.bind fun _ =>
      (checkStmts_framed elseBody).inScope.bind fun _ => .pure _
  | «while» cond body =>
    rw [checkNode]
    exact (checkBool_framed cond).bind fun _ => (checkStmts_framed body).inScope.inLoop.bind fun _ => .pure _
  | «break» | «continue» =>
    rw [checkNode]
    exact checkJump_framed _
  | «return» value =>
    rw [checkNode]
    exact checkReturn_framed value
  | expr value =>
    rw [checkNode]
    exact (synth_framed value _).bind fun _ => .pure _
theorem checkStmts_framed (ss : List Stmt) : Framed 1 (checkStmts ss) := by
  cases ss with
  | nil => exact .pure _
  | cons s ss =>
    rw [checkStmts]
    exact .bind (fun env => (checkStmt_leaves s env).frame) fun _ => (checkStmts_framed ss).bind fun _ => .pure _
end

/-- Whatever its outcome, a checked statement keeps functions, result type, loop depth and outer scopes;
bindings keep their places, names, types and mutability, and stay taken; and a name changes its meaning
only when a `let` of that name was accepted, to that of the binding that it added last. -/
theorem checkStmt_frame (env : Env) (s : Stmt) {env' : Env} {r : Except TypeError TStmt}
    (hs : env.scopes ≠ []) (h : checkStmt s env = (r, env')) :
    (env'.scopes.length = env.scopes.length ∧ env'.scopes.tail = env.scopes.tail ∧
      env'.loopDepth = env.loopDepth ∧ env'.ret = env.ret ∧ env'.functions = env.functions) ∧
    (env.locals.size ≤ env'.locals.size ∧ ∀ (i : Nat) (l : Local), env.locals[i]? = some l →
      ∃ taken, env'.locals[i]? = some { l with addressTaken := taken } ∧
        (l.addressTaken = true → taken = true)) ∧
    (r.isOk = false → ∀ name, env'.lookup? name = env.lookup? name) ∧
    (r.isOk = true → match s.node with
      | .letBinding name _ mutable _ =>
        env'.lookup? name = some ⟨UInt32.ofNat (env'.locals.size - 1)⟩ ∧
        (∃ ty, env'.locals.back? = some { name, ty, mutable }) ∧
        ∀ other, other ≠ name → env'.lookup? other = env.lookup? other
      | _ => ∀ name, env'.lookup? name = env.lookup? name) := by
  have hafter := checkStmt_leaves s env
  rw [h] at hafter
  dsimp only at hafter
  generalize s.node = node at hafter ⊢
  have hframe := hafter.frame
  refine ⟨⟨hframe.count, by simpa using hframe.outer, hframe.depth, hframe.ret, hframe.functions⟩,
    ⟨hframe.size, hframe.locals⟩, fun hr => ?_, fun hr => ?_⟩
  · rw [hr] at hafter
    have hsame : env.Frame 0 env' := by cases node <;> exact hafter
    exact hsame.lookup?
  · rw [hr] at hafter
    cases node with
    | letBinding name ty mutable value =>
      obtain ⟨ty, env₁, hsame, rfl⟩ := hafter
      have hs₁ : env₁.scopes ≠ [] := by
        rw [show env₁.scopes = env.scopes from hsame.outer]
        exact hs
      refine ⟨?_, ⟨ty, by simp [Env.bind]⟩, fun other hother => ?_⟩
      · rw [Env.lookup?_bind hs₁, if_pos rfl]
        simp [Env.bind]
      · rw [Env.lookup?_bind hs₁, if_neg hother, hsame.lookup?]
    | _ => exact fun name => Env.Frame.lookup? hafter name

/-- A loop whose body takes a reference to `x`, names it `y`, and fails as `y` is then assigned to. -/
theorem checkStmt_frame_loop :
    let env : Env := { scopes := [[], [("x", ⟨0⟩)]], locals := #[{ name := "x", ty := .i64, mutable := false }] }
    let s : Stmt := .mk (.while (.mk (.bool true) {})
      [.mk (.letBinding "y" none false (.mk (.ref "x" false) {})) {}, .mk (.assign "y" (.mk (.int 1) {})) {}]) {}
    (checkStmt s env).1.isOk = false ∧ (checkStmt s env).2.locals.map (·.addressTaken) = #[true, false] ∧
      (checkStmt s env).2.scopes.length = 2 ∧ (checkStmt s env).2.loopDepth = 0 ∧
      (checkStmt s env).2.lookup? "x" = some ⟨0⟩ ∧ (checkStmt s env).2.lookup? "y" = none := by
  intro env s
  have hfails : (checkStmt s env).1.isOk = false := by decide +kernel
  obtain ⟨⟨hcount, -, hdepth, -⟩, -, hsame, -⟩ := checkStmt_frame env s (by decide) rfl
  exact ⟨hfails, by decide +kernel, hcount, hdepth, hsame hfails "x", hsame hfails "y"⟩

end NumericEngine.Typing
