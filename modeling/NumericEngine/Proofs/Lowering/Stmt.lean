import NumericEngine.Lowering.Stmt
import NumericEngine.Proofs.Lowering.Branches

/-!
# Code of statements

The code of a statement either goes on in some block, or control does not get
past it. Loops that are open where it stands may get edges to their headers and
exits (`OpenLoop`).
-/

namespace NumericEngine.Lowering

open Ir (Rhs Instr Terminator Body Mark)
open Typing (Visible)
open Build

variable {J : Job} {b b' b'' : Builder} {S S' S'' : Facts} {V V' : Visible} {n m k : Nat}
  {id : BlockId} {u : Terminator}

/-- What is known wherever control is in a loop, and the block that leads to the loop. -/
structure Port where
  facts : Mark → Prop
  source : Nat

/-- What is known at the block that an edge leaves. -/
structure Way (J : Job) (b : Builder) (S : Facts) (facts : Mark → Prop) (e : Edge) : Prop where
  facts : ∀ μ, facts μ → S e.source.index.toNat μ
  values : Bound J b S e.source.index.toNat e.values

/-- What is known where control leaves an iteration of the innermost loops `P`. -/
structure Ways (J : Job) (P : List Port) (b : Builder) (S : Facts) : Prop where
  edges : ∀ q ∈ P.zip b.loops, ∀ e, e ∈ q.2.continues ∨ e ∈ q.2.breaks → Way J b S q.1.facts e
  within : b.current.isSome = true → ∀ p ∈ P, ∀ μ, p.facts μ → S b.here μ

/-- A loop whose body is being lowered. All of its edges so far are recorded. -/
structure OpenLoop (b : Builder) (p : Port) (l : Loop) : Prop where
  inside : p.facts (.block l.header.index.toNat)
  early : b.Early l.exit.index.toNat
  backs : ∀ i, b.body.Leads i l.header.index.toNat ↔ i = p.source ∨ ∃ e ∈ l.continues, e.source.index.toNat = i
  exits : ∀ i, b.body.Leads i l.exit.index.toNat ↔ ∃ e ∈ l.breaks, e.source.index.toNat = i
  continues : (p.source :: l.continues.map fun e => e.source.index.toNat).Nodup
  breaks : (l.breaks.map fun e => e.source.index.toNat).Nodup

/-- The headers and exits of the open loops. -/
def Builder.targets (b : Builder) : List Nat :=
  b.loops.flatMap fun l => [l.header.index.toNat, l.exit.index.toNat]

theorem Builder.targets_eq_nil : b.targets = [] ↔ b.loops = [] := by
  unfold targets
  cases b.loops <;> simp

/-- Where code can be put in the open loops `P`. -/
structure Ok (J : Job) (P : List Port) (b : Builder) (S : Facts) : Prop extends b.Sane, Ways J P b S where
  loops : List.Forall₂ (OpenLoop b) P b.loops
  bound : ∀ i ∈ b.targets, i < b.blocks.size
  nodup : b.targets.Nodup

theorem Way.mono (h : Way J b S F e) (hle : b.Le b') (hsub : ∀ i μ, S i μ → S' i μ) : Way J b' S' F e where
  facts μ hμ := hsub _ _ (h.facts μ hμ)
  values := h.values.mono hle (hsub _)

theorem Builder.Early.mono (h : b.Early j) (hle : b.Le b') : b'.Early j :=
  h.imp fun l hl => hl.imp_left (hle.labels j l)

theorem Ways.mono (h : Ways J P b S) (hle : b.Le b') (hloops : b'.loops = b.loops) (hsub : ∀ i μ, S i μ → S' i μ)
    (hwithin : b'.current.isSome = true → ∀ p ∈ P, ∀ μ, p.facts μ → S' b'.here μ) : Ways J P b' S' where
  edges q hq e he := (h.edges q (hloops ▸ hq) e he).mono hle hsub
  within := hwithin

theorem OpenLoop.mono (h : OpenLoop b p l) (hle : b.Le b')
    (hleads : ∀ i, ∀ j ∈ [l.header.index.toNat, l.exit.index.toNat], b'.body.Leads i j ↔ b.body.Leads i j) :
    OpenLoop b' p l where
  inside := h.inside
  early := h.early.mono hle
  backs i := (hleads i _ (by simp)).trans (h.backs i)
  exits i := (hleads i _ (by simp)).trans (h.exits i)
  continues := h.continues
  breaks := h.breaks

/-- Nothing happens to the open loops. -/
theorem Ok.mono (h : Ok J P b S) (hs : b'.Sane) (hw : Ways J P b' S') (hle : b.Le b')
    (hloops : b'.loops = b.loops) (hleads : ∀ i, ∀ j ∈ b.targets, b'.body.Leads i j ↔ b.body.Leads i j) :
    Ok J P b' S' where
  toSane := hs
  toWays := hw
  loops := by
    rw [hloops]
    refine forall₂_imp_mem h.loops fun p _ l hl hp => hp.mono hle fun i j hj => hleads i j ?_
    exact List.mem_flatMap.2 ⟨l, hl, hj⟩
  bound i hi := by
    have := h.bound i (by rwa [Builder.targets, hloops] at hi)
    have := hle.blockCount
    omega
  nodup := by
    rw [Builder.targets, hloops]
    exact h.nodup

theorem Goes.ways (h : Goes J L G G' b S b' S') (hloops : b'.loops = b.loops)
    (hcur : b'.current.isSome = true → b.current.isSome = true) (hw : Ways J P b S) : Ways J P b' S' :=
  hw.mono h.le hloops h.sub fun hc p hp μ hμ => h.carried hc μ (hw.within (hcur hc) p hp μ hμ)

/-- Code that has nothing to do with the loops. -/
theorem Goes.lift (h : Goes J [] G b'.Sane b S b' S') (hG : G₀ → Ok J P b S ∧ G) (hloops : b'.loops = b.loops)
    (hcur : b'.current.isSome = true → b.current.isSome = true) : Goes J L G₀ (Ok J P b' S') b S b' S' where
  le := h.le
  tabled := h.tabled
  sub := h.sub
  carried := h.carried
  frame hroom hg := h.frame hroom (hG hg).2
  kept hroom hg := by
    obtain ⟨hok, hg⟩ := hG hg
    exact hok.mono (h.kept hroom hg) (h.ways hloops hcur hok.toWays) h.le hloops
      fun i j hj => h.leads_iff hroom hg (by simp) (hok.bound j hj) (by simp)
  step hroom hg W hW _ := h.step hroom (hG hg).2 W hW (by simp)

/-- Code of at most `3 * n` blocks. -/
structure Runs (J : Job) (V : Visible) (n : Nat) (b : Builder) (S : Facts) (b' : Builder)
    (S' : Facts) : Prop where
  goes : ∀ P, Goes J b.targets (Ok J P b S) (Ok J P b' S') b S b' S'
  ways : ∀ P, Ways J P b S → Ways J P b' S'
  targets : b'.targets = b.targets
  slots : SlotsKept V b b'.slots
  count : b'.blocks.size ≤ b.blocks.size + 3 * n

theorem Runs.trans (h : Runs J V n b S b' S') (h' : Runs J V m b' S' b'' S'') (hn : n + m ≤ k)
    (hcur : b''.current.isSome = true → b'.current.isSome = true) : Runs J V k b S b'' S'' where
  goes P := (h.goes P).trans (h'.goes P) (h.targets ▸ List.Subset.refl _) hcur
  ways P hw := h'.ways P (h.ways P hw)
  targets := h'.targets.trans h.targets
  slots := h.slots.trans h'.slots (h.goes []).le
  count := by
    have := h.count
    have := h'.count
    omega

theorem Runs.of_goes (h : Goes J [] b.Sane b'.Sane b S b' S') (hloops : b'.loops = b.loops)
    (hc : b.current.isSome = true) (hslots : SlotsKept V b b'.slots)
    (hcount : b'.blocks.size ≤ b.blocks.size + 3 * n) : Runs J V n b S b' S' where
  goes P := h.lift (fun hok => ⟨hok, hok.toSane⟩) hloops fun _ => hc
  ways P := h.ways hloops fun _ => hc
  targets := by rw [Builder.targets, hloops, Builder.targets]
  slots := hslots
  count := hcount

theorem Onward.runs (h : Onward J n st b S b' S') (hc : b.current.isSome = true) : Runs J V n b S b' S' :=
  .of_goes h.toGoes h.loops hc (fun x => .inl (by rw [h.slots])) h.count

/-- The code from `b` to `b'` is that of a statement, and control goes on after it if `c` holds. -/
def Ran (J : Job) (V V' : Visible) (n : Nat) (c : Bool) (b : Builder) (S : Facts) (_ : Unit)
    (b' : Builder) : Prop :=
  ∃ S', Runs J V n b S b' S' ∧ b'.current.isSome = c ∧ (c = true → Env J V' b' S')

theorem Runs.ran (h : Runs J V n b S b' S') (hr : Ran J V V' m c b' S' a b'') (hc : b'.current.isSome = true)
    (hn : n + m ≤ k) : Ran J V V' k c b S a b'' := by
  obtain ⟨S'', hr, hcur, hE⟩ := hr
  exact ⟨S'', h.trans hr hn fun _ => hc, hcur, hE⟩

/-- A builder of statements, which may leave a loop if there is one. -/
def Executes (J : Job) (V V' : Visible) (inLoop : Prop) (n : Nat) (c : Bool) (x : Build Unit) : Prop :=
  ∀ b S, Env J V b S → b.current.isSome = true → (J.total → inLoop → b.loops ≠ []) →
    x.Gives J.total b (Ran J V V' n c b S)

theorem Computes.andThen {x : Build Reg} (h : Computes J V t n st x)
    (hf : ∀ r b S, Env J V b S → b.current.isSome = true →
      Has J b S r t → (J.total → p → b.loops ≠ []) → (f r).Gives J.total b (Ran J V V' m c b S))
      (hn : n + m ≤ k) :
    Executes J V V' p k c (x >>= f) := by
  intro b S hE hc hp
  refine .bind (h b S hE hc) ?_
  rintro r b₁ ⟨S₁, ho, hr⟩
  refine .mono (hf r b₁ S₁ (ho.env hE) ho.going hr fun hT h => ho.loops ▸ hp hT h) fun _ _ hran => ?_
  exact (ho.runs hc).ran hran ho.going hn

/-! ## Bindings -/

theorem Bindings.mem_set {vs : Bindings} (h : (y, s) ∈ vs.set x r) : (y = x ∧ s = r) ∨ (y, s) ∈ vs := by
  induction vs with
  | nil => simpa [Bindings.set] using h
  | cons p vs ih =>
    unfold Bindings.set at h
    grind

theorem lookup_cons_ite {xs : List (LocalId × Reg)} :
    ((x, r) :: xs).lookup y = if y = x then some r else xs.lookup y := by
  split
  · rename_i h
    simp [h]
  · rename_i h
    exact lookup_cons_of_ne h

theorem Bindings.get?_set (vs : Bindings) : (vs.set x r).get? y = if y = x then some r else vs.get? y := by
  unfold Bindings.get?
  induction vs with
  | nil => exact lookup_cons_ite
  | cons p vs ih =>
    unfold Bindings.set
    grind [lookup_cons_ite]

theorem bind_moved (x : LocalId) (r : Reg) (b : Builder) : ∃ b', Build.bind x r b = .ok ((), b') ∧
    Moved b.current b b' ∧ b' = { b with values := b.values.set x r } :=
  ⟨_, rfl, ⟨b.le_of_tables rfl rfl rfl rfl rfl (Nat.le_refl _) fun _ _ h => h, fun h =>
  ⟨h.types, h.constants, h.regs, h.slots⟩,
    rfl, rfl⟩, rfl⟩

section

variable {x : LocalId} {t : Ty} {r : Reg} (hE : Scope J V b S) (hc : b.current.isSome = true)
  (hx : J.ctx.binding x = some t)
  (hr : Has J b S r t)
include hE hx hr

/-- A binding that is not in a slot gets a new value. -/
theorem Scope.bind (hV : ∀ y, V' y → V y ∨ (y = x ∧ (b.decl y).addressTaken = false))
    (hb : b' = { b with values := b.values.set x r }) : Scope J V' b' S := by
  have hle : b.Le b' := hb ▸ b.le_of_tables rfl rfl rfl rfl rfl (Nat.le_refl _) fun _ _ h => h
  subst hb
  refine hE.renew hle (fun _ hμ => hμ) (fun y s hy => ?_) (fun y s hy hs => ?_) hE.taken fun hT y hy => ?_
  · rcases Bindings.mem_set hy with ⟨rfl, rfl⟩ | hy
    · exact .inr ⟨hr.1, t, hx, hr.2.mono hle⟩
    · exact .inl hy
  · rcases hV y hy with hy | ⟨-, huntaken⟩
    · exact .inl ⟨hy, hs⟩
    · cases (hE.taken y huntaken).symm.trans hs
  · have := hE.located hT y
    unfold Located at this ⊢
    rw [Bindings.get?_set]
    grind

include hc

omit hE in
theorem write_gives (hE : Env J V b S) (hV : V x) : (write x r).Gives J.total b (Ran J V V 0 true b S) := by
  refine .reads ?_
  cases hslot : b.slots.lookup x with
  | some addr =>
    obtain ⟨c, hid⟩ := Option.isSome_iff_exists.1 hc
    obtain ⟨b', hrun, he, hslots, ht⟩ := emit_emitted (.store addr r) hid
    obtain ⟨haddr, u, hu, hat⟩ := hE.slots x addr hV hslot
    cases hx.symm.trans hu
    refine .of_ok hrun ⟨S, .of_goes (.emitted he hc (fun _ => ht) (fun _ _ h => h)
      (fun h => h) fun _ _ is W _ hi => ?_) he.loops hc
      (fun _ => .inl (by rw [hslots])) (by simp [he.size]), he.current ▸ hc, fun _ => ?_⟩
    · exact .store hi he haddr hr.1 hat hr.2
    · exact hE.move he.le ⟨he.values, hslots, he.loops⟩ fun μ hμ => he.here ▸ hμ
  | none =>
    have hle : b.Le { b with values := b.values.set x r } :=
      b.le_of_tables rfl rfl rfl rfl rfl (Nat.le_refl _) fun _ _ h => h
    exact .of_ok rfl ⟨S, .of_goes (.tables hle (fun _ h => ⟨h.types, h.constants, h.regs, h.slots⟩) rfl rfl)
      rfl hc (fun _ => .inl rfl) (by simp), hc, fun _ =>
      hE.later hle (hE.toScope.bind hx hr (fun y hy => .inl hy) rfl)⟩

/-- The registers that `b'` has got are not parameters. -/
def Adds (J : Job) (b b' : Builder) : Prop := ∀ z, b.Le z → J.goal z → z.Fits → ∀ r : Reg,
  b.regTypes.size ≤ r.index.toNat → r.index.toNat < b'.regTypes.size → r ∉ J.params

/-- A binding has its first value, at `b'`. -/
def Introduced (J : Job) (V : Visible) (x : LocalId) (b : Builder) (S : Facts) (_ : Unit) (b' : Builder) : Prop :=
  b.Le b' ∧ b'.current = b.current ∧ (Adds J b b' → ∃ S', Runs J V 0 b S b' S' ∧
    Scope J (fun y => V y ∨ y = x) b' S')

/-- A binding gets a slot of its own. -/
theorem spill_gives (hV : ¬V x) (htaken : (b.decl x).addressTaken = true) :
    (spill x r).Gives J.total b (Introduced J V x b S) := by
  obtain ⟨c, hid⟩ := Option.isSome_iff_exists.1 hc
  obtain ⟨hty, hplain⟩ := hE.locals x t hx
  refine .reads ?_
  rw [hty]
  obtain ⟨s, b₁, hrun₁, hslot, h₁, hblocks, ht₁⟩ := newSlot_slotted t b
  obtain ⟨addr, b₂, hrun₂, hreg, he₂, hs₂⟩ := define_emitted (.reference t .mutable) (.stackSlot s)
    (h₁.current.trans hid)
  obtain ⟨b₃, hrun₃, he₃, hs₃, ht₃⟩ := emit_emitted (.store addr r) (he₂.current.trans (h₁.current.trans hid))
  have hE₁ : Scope J V b₁ S := hE.move h₁.le h₁.toKept fun μ hμ => by rwa
    [here_congr h₁.current (by rw [hblocks])]
  have hr₁ : Has J b₁ S r t := ⟨by rw [here_congr h₁.current (by rw [hblocks])]; exact hr.1, hr.2.mono h₁.le⟩
  have hformed : J.ctx.Formed → t.Formed := fun hf => hf.binding x t hx
  have hle : b₃.Le { b₃ with slots := (x, addr) :: b₃.slots } :=
    b₃.le_of_tables rfl rfl rfl rfl rfl (Nat.le_refl _) fun _ _ h => h
  have hle₃ := h₁.le.trans (he₂.le.trans he₃.le)
  have hgoing : b₃.current.isSome = true := by rw [he₃.current, he₂.current, h₁.current, hc]
  have hslots : ∀ y, y ≠ x → ((x, addr) :: b₃.slots).lookup y = b.slots.lookup y := fun y hne => by
    rw [lookup_cons_of_ne hne, hs₃, hs₂, h₁.slots]
  refine .run hrun₁
    (.run hrun₂ (.run hrun₃ (.of_ok rfl ⟨hle₃.trans hle, (he₃.current.trans he₂.current).trans h₁.current,
      fun hadds => ?_⟩)))
  have hgoes : Goes J [] b.Sane b₃.Sane b S b₃ (S.with b₁.here (.reg addr)) := by
    refine (Goes.tables h₁.le (fun hf => ht₁ (hformed hf)) hblocks h₁.current).trans ?_ (List.Subset.refl _)
      fun _ => h₁.current ▸ hc
    refine .emitted (he₂.trans he₃) (h₁.current ▸ hc) (fun hf h => ht₃ (hreg.tabled (hformed hf) h))
      (fun _ _ => .inl)
      (fun h => h) fun _ _ is W _ hi => ?_
    obtain ⟨μ, hμ⟩ := hE₁.here
    refine .spill hi hμ he₂ hreg he₃ (fun z hz hg hf => ?_)
      (fun hf => (he₂.le.context _ _).slot _ _ (hslot (he₂.le.fits hf) _ _))
      (hplain htaken) hr₁.1 hr₁.2
    have hindex := hreg.index (hz.fits hf)
    have hcount := h₁.le.regCount
    exact hadds z ((h₁.le.trans he₂.le).trans hz) hg hf addr (by omega)
      (Nat.lt_of_lt_of_le (by have := hreg.count; omega) he₃.le.regCount)
  refine ⟨S.with b₁.here (.reg addr), ?_, ?_⟩
  · refine .of_goes (hgoes.trans (.tables hle (fun _ h => ⟨h.types, h.constants, h.regs, h.slots⟩) rfl rfl)
      (List.Subset.refl _) fun h => h) (he₃.loops.trans (he₂.loops.trans h₁.loops)) hc (fun y => ?_) ?_
    · by_cases hyx : y = x
      · subst hyx
        exact .inr ⟨hV, htaken⟩
      · exact .inl (hslots y hyx)
    show b₃.blocks.size ≤ _
    rw [he₃.size, he₂.size, hblocks]
    omega
  · refine hE.renew (hle₃.trans hle) (hgoes.carried hgoing) (fun y s hy => .inl ?_)
      (fun y s hy hs => ?_) (fun y hy => ?_)
      fun hT y hy => ?_
    · rwa [← h₁.values, ← he₂.values, ← he₃.values]
    · by_cases hyx : y = x
      · subst hyx
        rw [lookup_cons_ite, if_pos rfl, Option.some.injEq] at hs
        subst hs
        exact .inr ⟨.inr ⟨(he₂.trans he₃).here, rfl⟩, t, hx, (Job.Typed.new hreg).mono (he₃.le.trans hle)⟩
      · exact .inl ⟨hy.resolve_right hyx, hslots y hyx ▸ hs⟩
    · have hne : y ≠ x := by
        rintro rfl
        rw [htaken] at hy
        cases hy
      exact (hslots y hne).trans (hE.taken y hy)
    · have := hE.located hT y
      unfold Located at this ⊢
      rw [(hle₃.trans hle).decl]
      simp only [he₃.values, he₂.values, h₁.values, lookup_cons_ite]
      grind

theorem introduce_gives (hV : ¬V x) : (introduce x r).Gives J.total b (Introduced J V x b S) := by
  refine .reads ?_
  split
  · rename_i htaken
    exact spill_gives hE hc hx hr hV htaken
  · rename_i huntaken
    have hle : b.Le { b with values := b.values.set x r } :=
      b.le_of_tables rfl rfl rfl rfl rfl (Nat.le_refl _) fun _ _ h => h
    refine .of_ok rfl ⟨hle, rfl, fun _ =>
      ⟨S, .of_goes (.tables hle (fun _ h => ⟨h.types, h.constants, h.regs, h.slots⟩) rfl rfl) rfl hc
      (fun _ => .inl rfl) (by simp), hE.bind hx hr (fun y hy => hy.imp_right fun h => ⟨h, ?_⟩) rfl⟩⟩
    exact h ▸ eq_false_of_ne_true huntaken

end

/-! ## Leaving a block for good -/

/-- The current block gets its end, and there is none after it. -/
structure Left (id : BlockId) (u : Terminator) (b b' : Builder) : Prop where
  le : b.Le b'
  tabled : b.Tabled → b'.Tabled
  slots : b'.slots = b.slots
  current : b'.current = none
  size : b'.blocks.size = b.blocks.size
  body : ∀ is, b.body id.index.toNat = some (is, none) → b'.body = b.body.set id.index.toNat (is, some u)

theorem left (id : BlockId) (u : Terminator) (ls : List Loop) (b : Builder) : ∃ b', (do
      modify fun b => { b with loops := ls }
      terminate id u
      moveTo none : Build Unit) b = .ok ((), b') ∧ Left id u b b' ∧ b'.loops = ls := by
  have hle : b.Le { b with loops := ls } := b.le_of_tables rfl rfl rfl rfl rfl (Nat.le_refl _) fun _ _ h => h
  obtain ⟨b₁, hrun₁, h₁⟩ := terminate_ended id u { b with loops := ls }
  obtain ⟨b₂, hrun₂, h₂, hk₂⟩ := moveTo_moved none b₁
  refine ⟨b₂, bind_ok.2 ⟨(), _, rfl, bind_ok.2 ⟨(), b₁, hrun₁, hrun₂⟩⟩,
    ⟨(hle.trans h₁.le).trans h₂.le, fun ht => ?_, ?_, h₂.current, ?_, fun is hi => ?_⟩, ?_⟩
  · exact h₂.tabled (h₁.tabled ⟨ht.types, ht.constants, ht.regs, ht.slots⟩)
  · exact hk₂.slots.trans h₁.slots
  · exact h₂.size.trans h₁.size
  · exact h₂.body.trans (h₁.body is hi)
  · exact hk₂.loops.trans h₁.loops

theorem Left.goes (h : Left id u b b') (hid : b.current = some id) (hS : S b.here μ)
    (hreads : Step.Reads J b S b.here u) (htargets : ∀ s ∈ u.successors, s.index.toNat ∈ b.targets)
    (horder : Ok J P b S → ∀ s ∈ u.successors, s.index.toNat ≤ b.here → J.back ∧
    (b.Early s.index.toNat ∨ S b.here (.block s.index.toNat)))
    (hok : Ok J P b S → b'.Sane → (∀ is, b.body b.here = some (is, none) → ∀ i j, b'.body.Leads i j ↔
      (i = b.here ∧ ∃ s ∈ u.successors, s.index.toNat = j) ∨ b.body.Leads i j) → Ok J P b' S) :
    Goes J b.targets (Ok J P b S) (Ok J P b' S) b S b' S := by
  have hhere := here_eq hid
  refine .of h.le (fun _ => h.tabled) (fun _ _ hμ => hμ)
    (fun hc => by rw [h.current] at hc; cases hc) fun hroom hg => ?_
  obtain ⟨is, hi⟩ := hg.live (by rw [hid]; rfl)
  have hbody := h.body is (hhere ▸ hi)
  have hleads : ∀ i j, b'.body.Leads i j ↔ (i = b.here ∧ ∃ s ∈ u.successors, s.index.toNat = j) ∨
    b.body.Leads i j := by
    intro i j
    rw [hbody, leads_set]
    have := not_leads_open (j := j) hi
    grind
  have hs : b'.Sane := by
    refine ⟨fun hc => (by rw [h.current] at hc; cases hc), fun i j hl => ?_⟩
    rw [h.size]
    rcases (hleads i j).1 hl with ⟨-, s, hs, rfl⟩ | hl
    · exact hg.bound _ (htargets s hs)
    · exact hg.closed i j hl
  refine ⟨⟨fun i _ hne => ?_, fun i js hj => ?_, .inr ?_⟩, hok hg hs fun _ _ => hleads, fun W hW hL => ?_⟩
  · rw [hbody, Body.set_of_ne (hhere ▸ hne)]
  · have := h.size
    rw [hbody] at hj
    rcases Body.set_eq_some hj with ⟨-, heq⟩ | ⟨hne, hj⟩
    · cases heq
    · exact .inr ⟨Builder.lt_of_body hj, hhere ▸ hne⟩
  · have := h.size
    simp [Builder.here, h.current, this]
  · rw [hhere] at hi hS hreads
    refine .ended h.le hi hbody hS hreads (fun s hs => ⟨hg.bound _ (htargets s hs), hL _ (htargets s hs)⟩) ?_
    exact hhere ▸ horder hg

theorem giveBack_gives (hE : Env J V b S) (hc : b.current.isSome = true) (hr : Has J b S r J.ctx.ret) :
    (giveBack r).Gives J.total b (Ran J V V' 0 false b S) := by
  refine .current (fun _ => hc) fun id hid => ?_
  obtain ⟨b', hrun, h, hloops⟩ := left id (.ret r) b.loops b
  obtain ⟨μ, hμ⟩ := hE.here
  have hways : ∀ P, Ways J P b S → Ways J P b' S := fun P hw =>
    hw.mono h.le hloops (fun _ _ hμ => hμ) fun hc' => by rw [h.current] at hc'; cases hc'
  refine .of_ok hrun ⟨S, ⟨fun P => h.goes hid hμ hr (by simp [Terminator.successors])
    (by simp [Terminator.successors]) fun hok hs hleads => ?_,
    hways, by rw [Builder.targets, hloops, Builder.targets], fun _ => .inl (by rw [h.slots]), by simp [h.size]⟩,
    by rw [h.current]; rfl, nofun⟩
  refine hok.mono hs (hways P hok.toWays) h.le hloops fun i j _ => ?_
  obtain ⟨is, hi⟩ := hok.live hc
  simp [hleads is hi, Terminator.successors]

/-- The edge that a `break` or a `continue` adds to a loop. -/
def Loop.Gains (l l' : Loop) (target : BlockId) (e : Edge) : Prop :=
  (target = l.exit ∧ l' = { l with breaks := l.breaks ++ [e] }) ∨
  (target = l.header ∧ l' = { l with continues := l.continues ++ [e] })

theorem Loop.Gains.targets (h : Gains l l' target e) : l'.header = l.header ∧ l'.exit = l.exit ∧
    (target = l.header ∨ target = l.exit) := by
  rcases h with ⟨rfl, rfl⟩ | ⟨rfl, rfl⟩ <;> simp

theorem Loop.Gains.edges (h : Gains l l' target e) (hq : q ∈ l'.continues ∨ q ∈ l'.breaks) :
    (q ∈ l.continues ∨ q ∈ l.breaks) ∨ q = e := by
  rcases h with ⟨-, rfl⟩ | ⟨-, rfl⟩ <;> grind

theorem nodup_concat {xs : List Nat} (h : xs.Nodup) (hx : x ∉ xs) : (xs ++ [x]).Nodup := by
  refine List.nodup_append.2 ⟨h, by simp, fun y hy z hz => ?_⟩
  cases List.mem_singleton.1 hz
  exact fun heq => hx (heq ▸ hy)

theorem OpenLoop.gain (h : OpenLoop b p l) (hg : l.Gains l' target ⟨id, vs⟩) (hle : b.Le b')
    (hleads : ∀ i j, b'.body.Leads i j ↔ (i = id.index.toNat ∧ target.index.toNat = j) ∨ b.body.Leads i j)
    (hopen : ∀ j, ¬b.body.Leads id.index.toNat j) (hne : l.header.index.toNat ≠ l.exit.index.toNat) :
    OpenLoop b' p l' := by
  have hcont : id.index.toNat ∉ p.source :: l.continues.map fun e => e.source.index.toNat := by
    intro hmem
    refine hopen _ ((h.backs _).2 ?_)
    simpa using hmem
  have hbreak : id.index.toNat ∉ l.breaks.map fun e => e.source.index.toNat := by
    intro hmem
    refine hopen _ ((h.exits _).2 ?_)
    simpa using hmem
  have hbacks := h.backs
  have hexits := h.exits
  rcases hg with ⟨rfl, rfl⟩ | ⟨rfl, rfl⟩
  · refine ⟨h.inside, h.early.mono hle, fun i => ?_, fun i => ?_, h.continues, ?_⟩
    · simp only [hleads, hbacks]
      grind
    · simp only [hleads, hexits, List.mem_append, List.mem_singleton, or_and_right, exists_or, exists_eq_left]
      grind
    · simpa using nodup_concat h.breaks hbreak
  · refine ⟨h.inside, h.early.mono hle, fun i => ?_, fun i => ?_, ?_, h.breaks⟩
    · simp only [hleads, hbacks, List.mem_append, List.mem_singleton, or_and_right, exists_or, exists_eq_left]
      grind
    · simp only [hleads, hexits]
      grind
    · simpa using nodup_concat h.continues hcont

/-- The two ways to leave an iteration differ in the edge that they add to the loop. -/
theorem leaveLoop_gives (hE : Env J V b S) (hc : b.current.isSome = true) (hb : J.back)
    (hloops : J.total → b.loops ≠ []) (fault : Fault) (edit : Loop → Edge → Loop) (target : Loop → BlockId)
    (hedit : ∀ l e, Loop.Gains l (edit l e) (target l) e) : (do
      let source ← Build.current
      let here : Edge := ⟨source, ← Build.values⟩
      match (← get).loops with
      | [] => Build.refuse fault
      | l :: rest =>
        modify fun b => { b with loops := edit l here :: rest }
        terminate source (.jump (target l))
        moveTo none : Build Unit).Gives J.total b (Ran J V V' n false b S) := by
  refine .current (fun _ => hc) fun id hid => .reads (.get ?_)
  cases hl : b.loops with
  | nil => exact .refuse fun hT => hloops hT hl
  | cons l rest =>
    obtain ⟨b', hrun, h, hloops'⟩ := left id (.jump (target l)) (edit l ⟨id, b.values⟩ :: rest) b
    obtain ⟨μ, hμ⟩ := hE.here
    have hg := hedit l ⟨id, b.values⟩
    obtain ⟨hheader, hexit, htarget⟩ := hg.targets
    have htargets : b'.targets = b.targets := by
      rw [Builder.targets, Builder.targets, hloops', hl, List.flatMap_cons, List.flatMap_cons, hheader, hexit]
    have hmem : (target l).index.toNat ∈ b.targets := by
      rw [Builder.targets, hl]
      rcases htarget with heq | heq <;> simp [heq]
    have hways : ∀ P, Ways J P b S → Ways J P b' S := by
      refine fun P hw => ⟨fun q hq e he => ?_, fun hc' => by rw [h.current] at hc'; cases hc'⟩
      have hold := hw.edges
      have hnew : ∀ p ∈ P, Way J b S p.facts ⟨id, b.values⟩ := fun p hp =>
        ⟨fun μ hμ => here_eq hid ▸ hw.within hc p hp μ hμ, fun x r hx => here_eq hid ▸ hE.values x r hx⟩
      rw [hl] at hold
      rw [hloops'] at hq
      refine Way.mono (b := b) (S := S) ?_ h.le fun _ _ hμ => hμ
      cases P with
      | nil => cases hq
      | cons p P =>
        rcases List.mem_cons.1 hq with rfl | hq
        · rcases hg.edges he with he | rfl
          · exact hold (p, l) (List.mem_cons_self ..) e he
          · exact hnew p (List.mem_cons_self ..)
        · exact hold q (List.mem_cons_of_mem _ hq) e he
    refine .of_ok hrun ⟨S, ⟨fun P => h.goes hid hμ trivial ?_ (fun hok => ?_) fun hok hs hleads => ?_, hways,
      htargets, fun _ => .inl (by rw [h.slots]), by simp [h.size]⟩, by rw [h.current]; rfl, nofun⟩
    · simpa [Terminator.successors] using hmem
    · have hforall := hok.loops
      rw [hl] at hforall
      cases hforall with
      | @cons p _ P _ hopen _ =>
        simp only [Terminator.successors, List.mem_singleton, forall_eq]
        refine fun _ => ⟨hb, htarget.symm.imp (fun heq => ?_) fun heq => ?_⟩
        · rw [heq]
          exact hopen.early
        · rw [heq]
          exact hok.within hc p (List.mem_cons_self ..) _ hopen.inside
    · obtain ⟨is, hi⟩ := hok.live hc
      have hnodup := hok.nodup
      have hforall := hok.loops
      rw [Builder.targets, hl, List.flatMap_cons] at hnodup
      rw [hl] at hforall
      have hleads : ∀ i j, b'.body.Leads i j ↔ (i = id.index.toNat ∧ (target l).index.toNat = j) ∨
        b.body.Leads i j := by
        simpa [Terminator.successors, here_eq hid] using hleads is hi
      refine ⟨hs, hways P hok.toWays, ?_, ?_, ?_⟩
      · rw [hloops']
        cases hforall with
        | @cons p _ P _ hopen hrest =>
          refine .cons (hopen.gain hg h.le hleads (fun j => not_leads_open (here_eq hid ▸ hi)) (by grind)) ?_
          refine forall₂_imp_mem hrest fun p _ l' hl' hp => hp.mono h.le fun i j hj => ?_
          rw [hleads]
          have : j ∈ rest.flatMap fun l => [l.header.index.toNat, l.exit.index.toNat] :=
            List.mem_flatMap.2 ⟨l', hl', hj⟩
          grind
      · rw [htargets, h.size]
        exact hok.bound
      · exact htargets ▸ hok.nodup

theorem exitLoop_executes (hb : J.back) (hp : p) : Executes J V V' p n false exitLoop := fun _ _ hE hc hloops =>
  leaveLoop_gives hE hc hb (fun hT => hloops hT hp) .breakOutsideLoop (fun l e =>
    { l with breaks := l.breaks ++ [e] }) Loop.exit fun _ _ => .inl ⟨rfl, rfl⟩

theorem continueLoop_executes (hb : J.back) (hp : p) : Executes J V V' p n false continueLoop :=
    fun _ _ hE hc hloops =>
  leaveLoop_gives hE hc hb (fun hT => hloops hT hp) .continueOutsideLoop (fun l e =>
    { l with continues := l.continues ++ [e] })
    Loop.header fun _ _ => .inr ⟨rfl, rfl⟩

end NumericEngine.Lowering
