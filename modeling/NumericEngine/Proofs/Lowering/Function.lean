import NumericEngine.Lowering.Program
import NumericEngine.Proofs.Lowering.Loop
import NumericEngine.Proofs.Typing.Program

/-!
# Code of functions

`stmts_executes` puts the code of statements together. The code of a function starts
with its parameters, which are the only registers known at the entry. Once all of it
is built there are states of it however far ways are followed back (`Finished`), and
so it is well scoped.
-/

namespace NumericEngine

open List

namespace TStmt

theorem nodup_assign {acc : List LocalId} (h : acc.Nodup) (x : LocalId) :
    (if acc.contains x then acc else acc ++ [x]).Nodup := by
  split
  · exact h
  · rename_i hx
    rw [nodup_append]
    refine ⟨h, by simp, ?_⟩
    rintro y hy _ hz rfl
    cases mem_singleton.1 hz
    exact hx (contains_iff_mem.2 hy)

mutual
theorem nodup_assigned {acc : List LocalId} (h : acc.Nodup) (s : TStmt) : (assigned acc s).Nodup := by
  obtain ⟨node, span⟩ := s
  cases node with
  | assign x | assignField x => simpa only [assigned] using nodup_assign h x
  | ite _ a b => simpa only [assigned] using nodup_assignedAll (nodup_assignedAll h a) b
  | «while» _ body => simpa only [assigned] using nodup_assignedAll h body
  | _ => simpa only [assigned] using h
theorem nodup_assignedAll {acc : List LocalId} (h : acc.Nodup) (ss : List TStmt) :
    (assignedAll acc ss).Nodup := by
  cases ss with
  | nil => simpa only [assignedAll] using h
  | cons s ss => simpa only [assignedAll] using nodup_assignedAll (nodup_assigned h s) ss
end

end TStmt

namespace Lowering

open Ir (Rhs Instr Terminator Body Mark)
open Typing (Visible)
open Build

variable {J : Job} {V V' : Visible} {b b' b'' : Builder} {S S' : Facts} {n m k : Nat}

theorem nodup_assignedIn (body : List TStmt) : (assignedIn body).Nodup :=
  (mergeSort_perm ..).symm.nodup (TStmt.nodup_assignedAll nodup_nil body)

theorem scope_of_visible {s : TStmt} {x : LocalId} (h : V x) : s.scope V x := by
  unfold TStmt.scope
  split
  · exact .inl h
  · exact h

theorem visible_of_scope {s : TStmt} {x : LocalId} (h : s.scope V x) : V x ∨ x ∈ s.lets := by
  unfold TStmt.scope at h
  split at h
  · refine h.imp_right ?_
    rintro rfl
    simp [TStmt.lets]
  · exact .inl h

theorem Runs.weaken (h : Runs J V' n b S b' S') (hV : ∀ x, V x → V' x) : Runs J V n b S b' S' :=
  { h with slots := fun x => (h.slots x).imp_right (.imp_left fun hx hV' => hx (hV x hV')) }

/-- A binding has a value after code that has parameters no more. -/
theorem Introduced.ran {x : LocalId} (h : Introduced J V x b S a b') (hE : Env J V b S)
    (hc : b.current.isSome = true) : Ran J V (fun y => V y ∨ y = x) 0 true b S a b' := by
  obtain ⟨hle, hcur, h⟩ := h
  obtain ⟨S', hr, hs⟩ := h fun z hz _ hf r hr _ hmem => by
    have := hE.settled (hz.fits hf) r hmem
    omega
  exact ⟨S', hr, hcur ▸ hc, fun _ => hE.later hle hs⟩

/-- A field of a binding gets a new value. -/
theorem assignField_executes {value : Build Reg} (hv : Computes J V u n st value) (hV : V x)
    (hx : J.ctx.binding x = some (.struct decl)) (hd : decl[j]? = some (y, u)) (hn : n ≤ k) :
    Executes J V V p k true (do
      let v ← value
      let src ← read x
      let updated ← define (← binding x).ty (.insertField src (UInt32.ofNat j) v)
      write x updated) := by
  refine hv.andThen (m := 0) (fun v b S hE hc hv _ => ?_) (by omega)
  refine .bind (read_gives (q := True) hE hc hV hx) ?_
  rintro src b₁ ⟨S₁, ho₁, hsrc⟩
  refine .reads ?_
  rw [((ho₁.env hE).locals x _ hx).1]
  have hv₁ := hv.onward ho₁
  refine .bind (operation_gives (q := True) (ho₁.env hE) ho₁.going rfl (fun hf => hf.binding x _ hx)
    (fun hf => ?_) ?_ (by simp)) ?_
  · have hindex : (UInt32.ofNat j).toNat = j := by
      obtain ⟨t, hreg, rfl | ⟨_, _, _, -, heq⟩⟩ := hsrc.at_reg hf
      · obtain ⟨id, -, hid⟩ := Option.bind_eq_some_iff.1 hreg
        rw [UInt32.toNat_ofNat', Nat.mod_eq_of_lt]
        exact Nat.lt_of_lt_of_le (List.getElem?_eq_some_iff.1 hd).1 (hf.fields id decl hid)
      · cases heq
    exact ⟨decl, (y, u), rfl, hsrc.at_reg hf, hindex.symm ▸ hd, hv₁.at_reg hf⟩
  · simpa [Rhs.uses] using ⟨hsrc.1, hv₁.1⟩
  rintro r b₂ ⟨S₂, ho₂, hr⟩
  have ho : Onward J 0 True b S b₂ S₂ := ho₁.trans ho₂ (by omega) fun h => ⟨h, h⟩
  exact .mono (write_gives ho.going hx hr (ho.env hE) hV) fun _ _ h => (ho.runs hc).ran h ho.going (by omega)

theorem store_executes {target value : Build Reg} (ht : Computes J V (.reference u q) n st target)
    (hv : Computes J V u m st' value) (hn : n + m ≤ k) : Executes J V V p k true (do
      let addr ← target
      let v ← value
      emit (.store addr v)) := by
  refine ht.andThen (m := m) (fun addr b S hE hc haddr _ => ?_) (by omega)
  refine .bind (hv b S hE hc) ?_
  rintro v b₁ ⟨S₁, ho, hv⟩
  obtain ⟨id, hid⟩ := Option.isSome_iff_exists.1 ho.going
  obtain ⟨b₂, hrun, he, hslots, htabled⟩ := emit_emitted (.store addr v) hid
  have haddr := haddr.onward ho
  have hran : Ran J V V 0 true b₁ S₁ () b₂ := by
    refine ⟨S₁, .of_goes (.emitted he ho.going (fun _ => htabled) (fun _ _ h => h)
      (fun h => h) fun _ _ is W _ hi => ?_) he.loops ho.going
      (fun _ => .inl (by rw [hslots])) (by simp [he.size]), he.current ▸ ho.going, fun _ => ?_⟩
    · exact .store hi he haddr.1 hv.1 haddr.2 hv.2
    · exact (ho.env hE).move he.le ⟨he.values, hslots, he.loops⟩ fun μ hμ => he.here ▸ hμ
  exact .of_ok hrun ((ho.runs hc).ran hran ho.going (by omega))

theorem stmts_idle (h : b.current = none) : stmts ss b = .ok ((), b) := by
  cases ss with
  | nil => rfl
  | cons s ss =>
    rw [stmts]
    refine bind_ok.2 ⟨b, b, rfl, ?_⟩
    simp [h, pure_ok]

mutual
theorem stmt_executes {V : Visible} {p : Prop} (s : TStmt) (ht : s.Typed J.ctx V) (hfresh : ∀ x ∈ s.lets, ¬V x)
    (hnodup : s.lets.Nodup) (hp : s.Placed p) (hb : J.back ∨ s.Forward) (hn : s.nodes ≤ J.limit) :
    Executes J V (s.scope V) p s.nodes s.completes (stmt s) := by
  obtain ⟨node, span⟩ := s
  cases node <;> rw [stmt]
  case letBinding x e =>
    rw [TStmt.nodes] at hn ⊢
    refine (expr_computes e ht.1 (by omega) hb).andThen (m := 0) (fun r b S hE hc hr _ => ?_) (by omega)
    exact .mono (introduce_gives hE.toScope hc ht.2 hr (hfresh x (by simp [TStmt.lets]))) fun _ _ h => h.ran hE hc
  case assign x e =>
    rw [TStmt.nodes] at hn ⊢
    refine (expr_computes e ht.1 (by omega) hb).andThen (m := 0) (fun r b S hE hc hr _ => ?_) (by omega)
    exact write_gives hc ht.2.2 hr hE ht.2.1
  case assignField x i e =>
    rw [TStmt.nodes] at hn ⊢
    obtain ⟨he, hV, decl, j, ⟨y, u⟩, hx, rfl, hd, rfl⟩ := ht
    exact assignField_executes (expr_computes e he (by omega) hb) hV hx hd (by omega)
  case store target e =>
    rw [TStmt.nodes] at hn ⊢
    obtain ⟨htarget, he, q, hq⟩ := ht
    exact store_executes (hq ▸ expr_computes target htarget (by omega) (hb.imp_right And.left))
      (expr_computes e he (by omega) (hb.imp_right And.right)) (by omega)
  case ite c a b =>
    rw [TStmt.nodes] at hn ⊢
    rw [TStmt.lets] at hfresh hnodup
    obtain ⟨hc, hbool, ha, hb'⟩ := ht
    obtain ⟨hna, hnb, -⟩ := nodup_append.1 hnodup
    obtain ⟨Va, hea⟩ := stmts_executes a ha (fun x hx => hfresh x (mem_append_left _ hx)) hna hp.1
      (hb.imp_right (·.2.1)) (by omega)
    obtain ⟨Vb, heb⟩ := stmts_executes b hb' (fun x hx => hfresh x (mem_append_right _ hx)) hnb hp.2
      (hb.imp_right (·.2.2)) (by omega)
    exact conditional_executes (hbool ▸ expr_computes c hc (by omega) (hb.imp_right And.left)) hea heb
  case «while» c body =>
    rw [TStmt.nodes] at hn ⊢
    rw [TStmt.lets] at hfresh hnodup
    obtain ⟨hc, hbool, hbody⟩ := ht
    have hback := hb.resolve_right id
    obtain ⟨Vb, heb⟩ := stmts_executes body hbody hfresh hnodup hp (.inl hback) (by omega)
    exact loop_executes hback (nodup_assignedIn body) (hbool ▸ expr_computes c hc (by omega) (.inl hback)) heb
  case «break» => exact exitLoop_executes (hb.resolve_right id) hp
  case «continue» => exact continueLoop_executes (hb.resolve_right id) hp
  case «return» e =>
    rw [TStmt.nodes] at hn ⊢
    refine (expr_computes e ht.1 (by omega) hb).andThen (m := 0) (fun r b S hE hc hr _ => ?_) (by omega)
    exact giveBack_gives hE hc (ht.2 ▸ hr)
  case expr e =>
    rw [TStmt.nodes] at hn ⊢
    refine (expr_computes e ht (by omega) hb).andThen (m := 0) (fun r b S hE hc _ _ => ?_) (by omega)
    exact .pure ⟨S, (Onward.refl (q := True) hc).runs hc, hc, fun _ => hE⟩
theorem stmts_executes {V : Visible} {p : Prop} : (ss : List TStmt) → TStmt.TypedAll J.ctx V ss →
    (∀ x ∈ TStmt.letsAll ss, ¬V x) → (TStmt.letsAll ss).Nodup → TStmt.PlacedAll p ss → J.back ∨
    TStmt.ForwardAll ss → TStmt.nodesAll ss ≤ J.limit →
    ∃ V', Executes J V V' p (TStmt.nodesAll ss) (TStmt.completesAll ss) (stmts ss)
  | [], _, _, _, _, _, _ => by
    refine ⟨V, fun b S hE hc _ => ?_⟩
    rw [stmts]
    exact .pure ⟨S, (Onward.refl (q := True) hc).runs hc, hc, fun _ => hE⟩
  | s :: ss, ht, hfresh, hnodup, hp, hb, hn => by
    rw [TStmt.letsAll] at hfresh hnodup
    rw [TStmt.nodesAll] at hn ⊢
    obtain ⟨hns, hnss, hdisjoint⟩ := nodup_append.1 hnodup
    have hs := stmt_executes s ht.1 (fun x hx => hfresh x (mem_append_left _ hx)) hns hp.1
      (hb.imp_right (·.1)) (by omega)
    obtain ⟨V', hss⟩ := stmts_executes ss ht.2 (fun x hx hscope => by
      rcases visible_of_scope hscope with hV | hlet
      · exact hfresh x (mem_append_right _ hx) hV
      · exact hdisjoint x hlet x hx rfl) hnss hp.2 (hb.imp_right (·.2)) (by omega)
    refine ⟨V', fun b S hE hc hloops => ?_⟩
    rw [stmts]
    refine .get ?_
    rw [if_neg (by simpa [Option.isSome_iff_ne_none] using hc)]
    refine .bind (hs b S hE hc hloops) ?_
    rintro _ b₁ ⟨S₁, hr₁, hcur₁, hE₁⟩
    rw [TStmt.completesAll]
    cases hlive : s.completes with
    | false =>
      rw [hlive, Option.isSome_eq_false_iff, Option.isNone_iff_eq_none] at hcur₁
      refine .of_ok (stmts_idle hcur₁) ⟨S₁, { hr₁ with count := ?_ }, by simp [hcur₁], by simp⟩
      have := hr₁.count
      omega
    | true =>
      rw [hlive] at hcur₁ hE₁
      refine .mono (hss b₁ S₁ (hE₁ rfl) hcur₁ fun hT h hnil => ?_) fun _ b₂ ⟨S₂, hr₂, hcur₂, hE₂⟩ => ?_
      · exact hloops hT h (Builder.targets_eq_nil.1 (hr₁.targets ▸ Builder.targets_eq_nil.2 hnil))
      · exact ⟨S₂, hr₁.trans (hr₂.weaken fun _ => scope_of_visible) (Nat.le_refl _) fun _ =>
          hcur₁, by simpa using hcur₂, by simpa using hE₂⟩
end

/-! ## Parameters -/

theorem introduce_ok (x : LocalId) (r : Reg) (hc : b.current.isSome = true) :
    ∃ b', introduce x r b = .ok ((), b') ∧ b.Le b' ∧ b'.current = b.current := by
  obtain ⟨c, hid⟩ := Option.isSome_iff_exists.1 hc
  have h : (introduce x r).Gives True b fun _ b' => b.Le b' ∧ b'.current = b.current := by
    refine .reads ?_
    split
    · refine .reads ?_
      obtain ⟨s, b₁, hrun₁, -, h₁, -⟩ := newSlot_slotted (b.decl x).ty b
      obtain ⟨addr, b₂, hrun₂, -, he₂, -⟩ := define_emitted (.reference (b.decl x).ty .mutable) (.stackSlot s)
        (h₁.current.trans hid)
      obtain ⟨b₃, hrun₃, he₃, -⟩ := emit_emitted (.store addr r) (he₂.current.trans (h₁.current.trans hid))
      refine .run hrun₁
        (.run hrun₂ (.run hrun₃ (.of_ok rfl ⟨?_, (he₃.current.trans he₂.current).trans h₁.current⟩)))
      exact (h₁.le.trans (he₂.le.trans he₃.le)).trans
        (b₃.le_of_tables rfl rfl rfl rfl rfl (Nat.le_refl _) fun _ _ h => h)
    · exact .of_ok rfl ⟨b.le_of_tables rfl rfl rfl rfl rfl (Nat.le_refl _) fun _ _ h => h, rfl⟩
  obtain ⟨⟨⟩, b', hrun, h⟩ := h.exists_ok trivial
  exact ⟨b', hrun, h⟩

theorem params_cons_ok (h : params (x :: xs) b = .ok (rs, b')) :
    ∃ r b₁ b₂ rs', newReg (b.decl x).ty b = .ok (r, b₁) ∧
      introduce x r b₁ = .ok ((), b₂) ∧ params xs b₂ = .ok (rs', b') ∧ rs = r :: rs' := by
  simp only [params, param, bind_ok, binding_ok, pure_ok] at h
  obtain ⟨_, _, ⟨_, _, ⟨rfl, rfl⟩, r, b₁, hr, ⟨⟩, b₂, hi, rfl, rfl⟩, rs', _, hrs, rfl, rfl⟩ := h
  exact ⟨r, b₁, b₂, rs', hr, hi, hrs, rfl⟩

theorem params_ok (xs : List LocalId) (hc : b.current.isSome = true) :
    ∃ rs b', params xs b = .ok (rs, b') ∧ b.Le b' ∧ b'.current = b.current ∧
      (b'.Fits → rs.Nodup ∧ ∀ r ∈ rs, b.regTypes.size ≤ r.index.toNat ∧ r.index.toNat < b'.regTypes.size) := by
  induction xs generalizing b with
  | nil => exact ⟨[], b, rfl, .refl b, rfl, fun _ => ⟨nodup_nil, by simp⟩⟩
  | cons x xs ih =>
    obtain ⟨r, b₁, hr, hreg, he, -⟩ := newReg_registered (b.decl x).ty b
    obtain ⟨b₂, hi, hle₂, hcur₂⟩ := introduce_ok x r (he.current ▸ hc)
    obtain ⟨rs, b₃, hrs, hle₃, hcur₃, hnumbers⟩ := ih (b := b₂) (by rw [hcur₂, he.current, hc])
    refine ⟨r :: rs, b₃, ?_, (he.le.trans hle₂).trans hle₃, (hcur₃.trans hcur₂).trans he.current, fun hf => ?_⟩
    · simp only [params, param, bind_ok, binding_ok, pure_ok]
      exact ⟨_, _, ⟨_, _, ⟨rfl, rfl⟩, r, b₁, hr, ⟨⟩, b₂, hi, rfl, rfl⟩, rs, _, hrs, rfl, rfl⟩
    · obtain ⟨hnodup, hnew⟩ := hnumbers hf
      have hindex := hreg.index ((hle₂.trans hle₃).fits hf)
      have := hreg.count
      have := hle₂.regCount
      have := hle₃.regCount
      refine ⟨nodup_cons.2 ⟨fun hmem => ?_, hnodup⟩, forall_mem_cons.2 ⟨by omega, fun s hs => ?_⟩⟩
      · have := hnew r hmem
        omega
      · have := hnew s hs
        omega

/-- The parameters come first; those of `done` have their registers already. -/
theorem params_runs {done : List Reg} (hE : Scope J V b S) (hc : b.current.isSome = true)
    (hS : ∀ r ∈ J.params, S b.here (.reg r))
    (hrun : params xs b = .ok (rs, b')) (hps : J.params = done ++ rs)
    (hdone : b.Fits → ∀ r ∈ done, r.index.toNat < b.regTypes.size)
    (hgoal : ∀ z, J.goal z → b'.Le z) (hxs : ∀ x ∈ xs, ∃ t, J.ctx.binding x = some t) (hV : ∀ x ∈ xs, ¬V x)
    (hnodup : xs.Nodup) : ∃ S', Runs J V 0 b S b' S' ∧ Scope J (fun y => V y ∨ y ∈ xs) b' S' ∧
      Forall₂ (fun x r => ∃ t, J.ctx.binding x = some t ∧ (b'.Fits → (J.names b').reg r = some t)) xs rs := by
  induction xs generalizing b V S done rs with
  | nil =>
    obtain ⟨rfl, rfl⟩ := pure_ok.1 hrun
    exact ⟨S, (Onward.refl (q := True) hc).runs hc, by simpa using hE, .nil⟩
  | cons x xs ih =>
    obtain ⟨r, b₁, b₂, rs, hr, hi, hrs, rfl⟩ := params_cons_ok hrun
    rw [nodup_cons] at hnodup
    obtain ⟨t, hx⟩ := hxs x mem_cons_self
    rw [(hE.locals x t hx).1] at hr
    obtain ⟨r', b₁', hr', hreg, he, hslots, hblocks⟩ := newReg_registered t b
    cases hr'.symm.trans hr
    have hc₁ : b₁.current.isSome = true := he.current ▸ hc
    have hE₁ : Scope J V b₁ S := hE.move he.le ⟨he.values, hslots, he.loops⟩ fun μ hμ => he.here ▸ hμ
    have hhas : Has J b₁ S r t := ⟨he.here ▸ hS r (by simp [hps]), .new hreg⟩
    obtain ⟨hle₂, hcur₂, hadded⟩ := (introduce_gives hE₁ hc₁ hx hhas (hV x mem_cons_self)).result hi
    have hc₂ : b₂.current.isSome = true := hcur₂ ▸ hc₁
    obtain ⟨rs', b₃', hrs', hle₃, hcur₃, hnumbers⟩ := params_ok xs hc₂
    cases hrs'.symm.trans hrs
    have hcount := hreg.count
    have hcount₂ := hle₂.regCount
    obtain ⟨S₂, hr₂, hE₂⟩ := hadded fun z _ hg hf d hold hnew hmem => by
      have hf' := (hgoal z hg).fits hf
      have hf₁ := (hle₂.trans hle₃).fits hf'
      rw [hps] at hmem
      rcases mem_append.1 hmem with hmem | hmem
      · have := hdone (he.le.fits hf₁) d hmem
        omega
      · rcases mem_cons.1 hmem with rfl | hmem
        · have := hreg.index hf₁
          omega
        · have := (hnumbers hf').2 d hmem
          omega
    have hr₁ : Runs J V 0 b S b₁ S :=
      .of_goes (.tables he.le (fun hf => hreg.tabled (hf.binding x t hx)) hblocks he.current) he.loops hc
      (fun _ => .inl (by rw [hslots])) (by rw [hblocks]; omega)
    have hruns := hr₁.trans hr₂ (Nat.le_refl 0) fun _ => hc₁
    have hdone₂ : b₂.Fits → ∀ s ∈ done ++ [r], s.index.toNat < b₂.regTypes.size := by
      intro hf s hs
      rcases mem_append.1 hs with hs | hs
      · have := hdone ((he.le.trans hle₂).fits hf) s hs
        omega
      · cases mem_singleton.1 hs
        have := hreg.index (hle₂.fits hf)
        omega
    have hV₂ : ∀ y ∈ xs, ¬(V y ∨ y = x) := by
      rintro y hy (hVy | rfl)
      · exact hV y (mem_cons_of_mem _ hy) hVy
      · exact hnodup.1 hy
    obtain ⟨S₃, hr₃, hE₃, hparams⟩ := ih hE₂ hc₂ (fun r hr => (hruns.goes []).carried hc₂ _ (hS r hr)) hrs
      (show J.params = (done ++ [r]) ++ rs by rw [hps, append_assoc]; rfl) hdone₂ (fun y hy =>
        hxs y (mem_cons_of_mem _ hy)) hV₂ hnodup.2
    refine ⟨S₃, hruns.trans (hr₃.weaken fun _ => .inl) (Nat.le_refl 0) fun _ =>
      hc₂, by simpa [or_assoc] using hE₃, .cons ⟨t, hx, fun hf => ?_⟩ hparams⟩
    exact ((hle₂.trans hle₃).context _ _).reg _ _ (hreg.reg ((hle₂.trans hle₃).fits hf) _ _)

/-! ## Functions -/

/-- All of the code is built, and in order however far ways are followed back. -/
structure Finished (J : Job) (b : Builder) : Prop where
  nonempty : 0 < b.blocks.size
  ended : ∀ i is, b.body i ≠ some (is, none)
  states : ∀ n, ∃ S, State J n b (fun _ => False) b S

theorem covers_of_at (h : b.body.At i k x) : b.Covers i k := by
  obtain ⟨is, t, hi, hx⟩ := h
  exact ⟨is, t, hi, (List.getElem?_eq_some_iff.1 hx).1⟩

/-- Code that is finished is well scoped. -/
theorem Finished.scoped (h : Finished J b) (hf : b.Fits) :
    b.body.Partial (J.names b) J.ctx.ret J.params b.regTypes.size (fun _ _ => False) (b.body.entry J.params) := by
  obtain ⟨S, h₀⟩ := h.states 0
  have hends : ∀ i is t, b.body i = some (is, t) → ∃ u, t = some u ∧ EndOk J 0 b i is.length u := by
    intro i is t hi
    cases t with
    | none => exact absurd hi (h.ended i is)
    | some u => exact ⟨u, rfl, h₀.ends i is u hi⟩
  refine Body.partial_of_levels rfl (fun n i k x hx => ?_) (fun n i is u hi => ?_) (fun i is t hi => ?_) ?_
    (fun i k x d hx hd => h₀.numbers hf i k x d (covers_of_at hx) hx hd)
    fun i k x d hx hd j l y e hy he => h₀.order hf i k x d (covers_of_at hx) hx hd j l y e (covers_of_at hy) hy he
  · obtain ⟨S, hs⟩ := h.states n
    exact hs.instrs hf i k x (covers_of_at hx) hx
  · obtain ⟨S, hs⟩ := h.states n
    exact (hs.ends i is u hi).reads hf
  · obtain ⟨u, -, hend⟩ := hends i is t hi
    exact hend.reached hf
  · rintro i j ⟨is, u, hi, s, hs, rfl⟩
    exact (h₀.ends i is u hi).targets s hs

variable {f : TFunction} {sig : FuncId → Option Ty} {types : TypeTable} {constants : ConstantPool} {K : Prop}

/-- Where the code of a function starts. -/
def Builder.start (f : TFunction) (types : TypeTable) (constants : ConstantPool) : Builder :=
  { locals := f.locals, types, constants, blocks := #[{ label := "entry" }], current := some ⟨0⟩ }

theorem Builder.body_start : (Builder.start f types constants).body i = if i =
    0 then some ([], none) else none := by
  unfold start body
  cases i <;> simp

theorem Builder.not_leads_start : ¬(Builder.start f types constants).body.Leads i j := by
  rintro ⟨is, u, hi, -⟩
  rw [body_start] at hi
  split at hi <;> cases hi

/-- The parameters are known at the entry. -/
def atEntry (ps : List Reg) : Facts := fun i μ => i = 0 ∧ (μ = .block 0 ∨ ∃ r ∈ ps, μ = .reg r)

theorem state_start {z : Builder} (hz : Ahead (fun _ => False) (Builder.start f types constants) z) :
    State J n z (fun _ => False) (Builder.start f types constants) (atEntry J.params) := by
  have hempty : ∀ {i k}, ¬(Builder.start f types constants).Covers i k := by
    rintro i k ⟨is, t, hi, hk⟩
    rw [Builder.body_start] at hi
    split at hi <;> cases hi
    cases hk
  refine ⟨fun _ _ _ _ h => absurd h hempty, fun i is u hi => ?_, fun _ _ _ _ _ h => absurd h hempty,
    fun _ _ _ _ _ h => absurd h hempty, fun _ _ _ _ h => absurd h hempty, ?_, ?_⟩
  · rw [Builder.body_start] at hi
    split at hi <;> cases hi
  · rintro i μ ⟨rfl, hμ⟩
    refine ⟨[], none, Builder.body_start, ?_⟩
    rcases hμ with rfl | ⟨r, hr, rfl⟩
    · exact .inr rfl
    · cases n with
      | zero => exact .inl trivial
      | succ n =>
        refine .inl ⟨fun _ => ⟨r, hr, rfl⟩, fun i hi => ?_⟩
        exact absurd ((hz.preds i 0 (by simp [Builder.start]) hi).resolve_left fun h => h) Builder.not_leads_start
  · rintro - i μ ⟨rfl, -⟩
    exact ⟨0, Nat.zero_le _, .start 0⟩

theorem scope_start (ht : f.Typed sig) (hctx : J.ctx = f.context sig) :
    Scope J (fun _ => False) (Builder.start f types constants) (atEntry J.params) where
  here := ⟨.block 0, rfl, .inl rfl⟩
  values := by simp [Builder.start, Bound]
  slots _ _ h := h.elim
  locals x t hx := by
    rw [hctx] at hx
    obtain ⟨l, hl, rfl⟩ := Option.map_eq_some_iff.1 hx
    rw [Builder.decl_eq hl]
    exact ⟨rfl, ht.taken _ l hl⟩
  taken _ _ := rfl
  located _ _ h := h.elim
  refs _ x hx := by
    rw [hctx] at hx
    obtain ⟨l, hl, htaken⟩ := hx
    rw [Builder.decl_eq hl, htaken]

theorem ok_start : Ok J [] (Builder.start f types constants) S where
  live _ := ⟨[], Builder.body_start⟩
  closed _ _ h := absurd h Builder.not_leads_start
  edges := by simp
  within := by simp
  loops := .nil
  bound := by simp [Builder.targets, Builder.start]
  nodup := by simp [Builder.targets, Builder.start]

/-- Code that starts with the parameters, at the end of which there is no current block. -/
theorem Runs.finished (h : Runs J V n (Builder.start f types constants) (atEntry J.params) b S)
    (hcur : b.current = none) (hgoal : J.goal b) (hroom : b.blocks.size ≤ 2 ^ 32) : Finished J b where
  nonempty := Nat.lt_of_lt_of_le Nat.zero_lt_one (h.goes []).le.blockCount
  ended i is hi := by
    rcases ((h.goes []).frame hroom ok_start).rests i is hi with rfl | ⟨hlt, hne⟩
    · simp [Builder.here, hcur, Builder.body_eq_none.2 (Nat.le_refl _)] at hi
    · simp [Builder.start, Builder.here] at hlt hne
      omega
  states n := by
    have hstep := (h.goes []).step hroom ok_start (fun _ => False) (fun _ => False.elim)
      (by simp [Builder.targets, Builder.start])
    have hz : Ahead (fun _ => False) b b := .refl _ hroom
    exact ⟨S, hstep.keeps b n hz hgoal (fun m _ => state_start (hstep.back b hz)) n (Nat.le_refl n)⟩

/-- The end of a body gives back the unit value, if control gets there. -/
theorem fallOffEnd_gives (hT : J.total) (hret : J.ctx.ret = f.ret) (hE : b.current.isSome = true → Env J V b S) :
    (fallOffEnd f).Gives (b.current.isSome = true → f.ret.isUnit = true) b fun _ b' => ∃ S',
    Runs J V 0 b S b' S' ∧ b'.current = none := by
  refine .get ?_
  split
  · rename_i hc
    have hE := hE hc
    split
    · rename_i hunit
      have hret : J.ctx.ret = .unit := by
        unfold Ty.isUnit at hunit
        split at hunit
        · exact hret.trans ‹_›
        · cases hunit
      have hvalue : (define .unit (.makeStruct [])).Gives J.total b (Yields J 0 True b S .unit) :=
        operation_gives hE hc rfl (fun _ => trivial) (fun _ => ⟨[], rfl, .nil, rfl⟩)
        (by simp [Rhs.uses]) (by simp)
      refine .imp (T := J.total) (.bind hvalue ?_) fun _ => hT
      rintro r b₁ ⟨S₁, ho, hr⟩
      have hback : (giveBack r).Gives J.total b₁ (Ran J V V 0 false b₁ S₁) :=
        giveBack_gives (ho.env hE) ho.going (hret ▸ hr)
      refine hback.mono fun _ b₂ hran => ?_
      obtain ⟨S₂, hr₂, hcur, -⟩ := (ho.runs (V := V) hc).ran hran ho.going (Nat.le_refl 0)
      exact ⟨S₂, hr₂, by simpa using hcur⟩
    · rename_i hunit
      exact .refuseAt fun h => hunit (h hc)
  · rename_i hc
    refine .pure ⟨S, ⟨fun P => ?_, fun _ hw => hw, rfl, fun _ => .inl rfl, by omega⟩, by simpa using hc⟩
    exact (Goes.tables (.refl b) (fun _ h => h) rfl rfl).change Ok.toSane fun _ h _ => h

/-- The lowering of a function whose parameters are `ps`, at `b`. -/
def job (K : Prop) (sig : FuncId → Option Ty) (f : TFunction) (ps : List Reg) (b : Builder) : Job :=
  { ctx := f.context sig, params := ps, total := True, back := K, limit := TStmt.nodesAll f.body, goal := b.Le }

/-- The code of a function is built. -/
structure Built (J : Job) (f : TFunction) (types : TypeTable) (constants : ConstantPool)
    (b : Builder) : Prop where
  finished : b.blocks.size ≤ 2 ^ 32 → Finished J b
  params : Forall₂ (fun x r => ∃ t, J.ctx.binding x = some t ∧
    (b.Fits → (J.names b).reg r = some t)) f.params J.params
  nodup : b.Fits → J.params.Nodup
  le : (Builder.start f types constants).Le b
  tabled : J.ctx.Formed → (Builder.start f types constants).Tabled → b.Tabled
  count : b.blocks.size ≤ 3 * TStmt.nodesAll f.body + 1

theorem body_built (types : TypeTable) (constants : ConstantPool) (ht : f.Typed sig)
    (hK : K ∨ TStmt.ForwardAll f.body) : ∃ rs b₂ b₃, params f.params (Builder.start f types constants) =
    .ok (rs, b₂) ∧ stmts f.body b₂ = .ok ((), b₃) ∧
      b₃.current.isSome = TStmt.completesAll f.body ∧
      (fallOffEnd f).Gives (b₃.current.isSome = true → f.ret.isUnit = true) b₃ fun _ b =>
      Built (job K sig f rs b₂) f types constants b := by
  obtain ⟨rs, b₂, hrs, hle₂, hcur₂, hnumbers⟩ := params_ok (b := Builder.start f types constants) f.params rfl
  have hnumbered : (f.params ++ TStmt.letsAll f.body).Nodup := by
    refine List.Nodup.of_map (fun x => x.index.toNat) ?_
    rw [ht.numbers]
    exact nodup_range
  obtain ⟨hpnodup, hlnodup, hdisjoint⟩ := nodup_append.1 hnumbered
  have hstart : Scope (job K sig f rs b₂) (fun _ => False) (Builder.start f types constants) (atEntry rs) :=
    scope_start ht rfl
  have hnone : (job K sig f rs b₂).params = [] ++ rs := rfl
  obtain ⟨S₂, hr₂, hE₂, hparams⟩ := params_runs hstart rfl (fun r hr => ⟨rfl, .inr ⟨r, hr, rfl⟩⟩)
    hrs hnone (by simp)
    (fun _ h => h) (fun x hx => ⟨_, (ht.params x hx).choose_spec.1⟩) (fun _ _ h => h) hpnodup
  have hE₂ : Env (job K sig f rs b₂) (· ∈ f.params) b₂ S₂ :=
    ⟨by simpa using hE₂, fun hf r hr => ((hnumbers hf).2 r hr).2⟩
  have hc₂ : b₂.current.isSome = true := by rw [hcur₂]; rfl
  obtain ⟨V', hstmts⟩ := stmts_executes (J := job K sig f rs b₂)
    (p := False) f.body ht.body (fun x hx hmem => hdisjoint x hmem x hx rfl)
    hlnodup ht.placed hK (Nat.le_refl _)
  obtain ⟨⟨⟩, b₃, hrun, S₃, hr₃, hcur₃, hE₃⟩ := (hstmts b₂ S₂ hE₂ hc₂ fun _ => False.elim).exists_ok trivial
  refine ⟨rs, b₂, b₃, hrs, hrun, hcur₃, .mono (fallOffEnd_gives (J := job K sig f rs b₂) trivial rfl fun hc =>
    hE₃ (hcur₃ ▸ hc)) ?_⟩
  rintro _ b₄ ⟨S₄, hr₄, hcur₄⟩
  have hle₄ := (hr₃.goes []).le.trans (hr₄.goes []).le
  have hruns := hr₂.trans ((hr₃.weaken (V := fun _ => False) fun _ => False.elim).trans (hr₄.weaken fun _ =>
    False.elim) (Nat.le_refl _) fun hc => by simp [hcur₄] at hc) (Nat.le_refl _) fun hc => by simp [hcur₄] at hc
  refine ⟨fun hroom => hruns.finished hcur₄ hle₄ hroom, ?_, fun hf => (hnumbers (hle₄.fits hf)).1,
    (hruns.goes []).le, (hruns.goes []).tabled, ?_⟩
  · exact hparams.imp fun x r ⟨t, hx, hr⟩ => ⟨t, hx, fun hf => (hle₄.context _ _).reg _ _ (hr (hle₄.fits hf))⟩
  · have := hruns.count
    simp [Builder.start] at this
    omega

/-- Blocks keep what they have when they are closed, and get their ids. -/
theorem closeBlocks_ok (h : closeBlocks k os = .ok blocks) :
    blocks.map (fun x => (x.label, x.instrs, some x.terminator)) =
    os.map (fun o => (o.label, o.instrs.toList, o.terminator)) ∧
      ∀ (i : Nat) x, blocks[i]? = some x → x.id = ⟨UInt32.ofNat (k + i)⟩ := by
  induction os generalizing k blocks with
  | nil =>
    cases h
    exact ⟨rfl, by simp⟩
  | cons o os ih =>
    obtain ⟨block, hblock, h⟩ := Except.bind_eq_ok.1 h
    obtain ⟨rest, hrest, h⟩ := Except.bind_eq_ok.1 h
    cases h
    obtain ⟨hmap, hids⟩ := ih hrest
    unfold closeBlock at hblock
    split at hblock
    · rename_i u hu
      cases hblock
      refine ⟨by simp [hmap, hu], fun i x hx => ?_⟩
      cases i with
      | zero =>
        cases hx
        rfl
      | succ i => rw [hids i x hx, show k + 1 + i = k + (i + 1) by omega]
    · cases hblock

theorem closeBlocks_total (i : Nat) (h : ∀ o ∈ os, o.terminator ≠ none) : ∃ blocks,
    closeBlocks i os = .ok blocks := by
  induction os generalizing i with
  | nil => exact ⟨[], rfl⟩
  | cons o os ih =>
    rw [forall_mem_cons] at h
    obtain ⟨u, hu⟩ := Option.ne_none_iff_exists'.1 h.1
    obtain ⟨blocks, hblocks⟩ := ih (i + 1) h.2
    exact ⟨_ :: blocks, Except.bind_eq_ok.2 ⟨_, by rw [closeBlock, hu], Except.bind_eq_ok.2 ⟨_, hblocks, rfl⟩⟩⟩

/-- The finished function. -/
def Builder.close (b : Builder) (f : TFunction) (params : List Reg) (blocks : List Ir.Block) :
    Ir.Function × Builder :=
  ({ id := f.id, name := f.name, params, retType := (b.types.intern f.ret).1, blocks, regTypes := b.regTypes
     slotTypes := b.slotTypes },
    { b with types := (b.types.intern f.ret).2 })

theorem bind_of_ok {f : α → Build β} (h : x b = .ok (a, b')) : (x >>= f) b = f a b' := by
  show (x b >>= fun p => f p.1 p.2) = _
  rw [h]
  rfl

theorem bind_of_error {f : α → Build β} (h : x b = .error e) : (x >>= f) b = .error e := by
  show (x b >>= fun p => f p.1 p.2) = _
  rw [h]
  rfl

/-- A well-typed function has code unless it lacks a return, and is refused for that if it does. -/
theorem function_cases (types : TypeTable) (constants : ConstantPool) (ht : f.Typed sig)
    (hK : K ∨ TStmt.ForwardAll f.body) : (f.lacksReturn = true ∧
    function f { locals := f.locals, types, constants } =
      .error { fault := .missingReturn f.ret, span := some f.span }) ∨
    ∃ rs b₂ b, f.lacksReturn = false ∧ Built (job K sig f rs b₂) f types constants b ∧
      function f { locals := f.locals, types, constants } =
        (closeBlocks 0 b.blocks.toList).map fun blocks => b.close f rs blocks := by
  obtain ⟨rs, b₂, b₃, hrs, hss, hcur, hfall⟩ := body_built types constants ht hK
  rw [TFunction.lacksReturn, ← hcur]
  have hrun : function f { locals := f.locals, types, constants } = (do
      fallOffEnd f
      let b ← get
      let blocks ← closeBlocks 0 b.blocks.toList
      let interned := b.types.intern f.ret
      set { b with types := interned.2 }
      return { id := f.id, name := f.name, params := rs, retType := interned.1, blocks, regTypes := b.regTypes,
               slotTypes := b.slotTypes } : Build Ir.Function) b₃ := by
    have hentry : newBlock "entry" { locals := f.locals, types, constants } =
      .ok (⟨0⟩, { Builder.start f types constants with current := none }) := rfl
    have hmove : moveTo (some ⟨0⟩) { Builder.start f types constants with current := none } =
      .ok ((), Builder.start f types constants) := rfl
    unfold function
    rw [bind_of_ok hentry, bind_of_ok hmove, bind_of_ok hrs, bind_of_ok hss]
  rw [hrun]
  by_cases hreturn : b₃.current.isSome = true → f.ret.isUnit = true
  · right
    obtain ⟨⟨⟩, b, hok, hbuilt⟩ := hfall.exists_ok hreturn
    refine ⟨rs, b₂, b, by grind, hbuilt, ?_⟩
    rw [bind_of_ok hok, bind_of_ok (a := b) (b := b) rfl]
    cases closeBlocks 0 b.blocks.toList <;> rfl
  · left
    rw [Classical.not_imp] at hreturn
    have herror : fallOffEnd f b₃ = .error { fault := .missingReturn f.ret, span := some f.span } := by
      unfold fallOffEnd
      rw [bind_of_ok (b := b₃) rfl, if_pos hreturn.1, if_neg hreturn.2]
      rfl
    exact ⟨by grind, bind_of_error herror⟩

end Lowering

end NumericEngine
