import NumericEngine.Proofs.Lowering.Stmt

/-!
# Where edges meet

A binding has a phi where the edges that meet do not agree on its register. The
arms of a conditional meet after it, if control gets to the end of one.
-/

namespace NumericEngine.Lowering

open Ir (Rhs Instr Terminator Body Mark)
open Typing (Visible)
open Build

variable {J : Job} {b b' b'' : Builder} {S S' S'' : Facts} {V V' : Visible} {n m k N : Nat} {edges : List Edge}

/-- The edges meet at the current block, which has no instructions but phis of registers from `N` on. -/
structure Joining (N : Nat) (edges : List Edge) (b : Builder) : Prop extends b.Sane where
  start : b.here ≠ 0
  phis : ∃ is, b.body b.here = some (is, none) ∧
    ∀ x ∈ is, x.isPhi = true ∧ (b.Fits → ∀ d, x.dst? = some d → N ≤ d.index.toNat)
  preds : ∀ k, b.body.Leads k b.here ↔ ∃ e ∈ edges, e.source.index.toNat = k
  apart : (edges.map fun e => e.source.index.toNat).Nodup

/-- Phis may have been added to the current block. -/
structure Joins (J : Job) (N : Nat) (edges : List Edge) (b : Builder) (S : Facts) (b' : Builder) (S' : Facts) :
    Prop extends Steady b b' where
  size : b'.blocks.size = b.blocks.size
  goes : Goes J [] (Joining N edges b) (Joining N edges b') b S b' S'

theorem Joins.refl : Joins J N edges b S b S where
  toSteady := ⟨⟨rfl, rfl, rfl⟩, .refl b, rfl⟩
  size := rfl
  goes := (Goes.tables (.refl b) (fun _ h => h) rfl rfl).change Joining.toSane fun _ h _ => h

theorem Joins.trans (h : Joins J N edges b S b' S') (h' : Joins J N edges b' S' b'' S'')
    (hc : b.current.isSome = true) : Joins J N edges b S b'' S'' where
  toSteady := ⟨h.toKept.trans h'.toKept, h.le.trans h'.le, h'.current.trans h.current⟩
  size := h'.size.trans h.size
  goes := h.goes.trans h'.goes (List.Subset.refl _) fun _ => h.current ▸ hc

theorem Joins.here (h : Joins J N edges b S b' S') : b'.here = b.here := here_congr h.current h.size

section

variable {b₀ : Builder} {S₀ : Facts} (hc : b.current.isSome = true)
  (hset : b.Fits → ∀ r ∈ J.params, r.index.toNat < b.regTypes.size)
  (hle : b₀.Le b) (hhere : S b.here μ) (hsub : ∀ i μ, S₀ i μ → S i μ)
  (hcommon : ∀ r, (∀ e ∈ edges, S₀ e.source.index.toNat (.reg r)) → S b.here (.reg r))
include hc hset hle hhere hsub hcommon

theorem join_gives {x : LocalId} {t : Ty} (hty : (b.decl x).ty = t) (hformed : J.ctx.Formed → t.Formed)
    (hbase : J.Typed b₀ base t)
    (hv : ∀ e ∈ edges, S₀ e.source.index.toNat (.reg ((e.values.get? x).getD base)) ∧
    J.Typed b₀ ((e.values.get? x).getD base) t) :
    (join x base edges).Gives J.total b fun r b' => ∃ S', Joins J b₀.regTypes.size edges b S b' S' ∧
    Has J b' S' r t := by
  unfold join
  simp only []
  split
  · rename_i hall
    simp only [List.all_map, List.all_eq_true, beq_iff_eq, Function.comp] at hall
    refine .pure ⟨S, .refl, hcommon _ fun e he => hall e he ▸ (hv e he).1, ?_⟩
    cases edges with
    | nil => exact hbase.mono hle
    | cons e₀ rest => exact (hv e₀ (List.mem_cons_self ..)).2.mono hle
  · refine .reads ?_
    rw [hty]
    obtain ⟨c, hid⟩ := Option.isSome_iff_exists.1 hc
    obtain ⟨r, b', hrun, hr, he, hslots⟩ :=
      define_emitted t (.phi (edges.map fun e => (e.source, (e.values.get? x).getD base))) hid
    refine .of_ok hrun ⟨S.with b.here (.reg r), ⟨⟨⟨he.values, hslots, he.loops⟩, he.le, he.current⟩, he.size, ?_⟩,
      .inr ⟨he.here, rfl⟩, .new hr⟩
    have hin : ∀ p ∈ edges.map fun e => (e.source, (e.values.get? x).getD base), S₀ p.1.index.toNat (.reg p.2) ∧
      J.Typed b₀ p.2 t := by
      simpa using hv
    refine (Goes.emitted he hc (fun hf => hr.tabled (hformed hf))
      (fun _ _ => .inl) Joining.toSane fun _ hj is W _ hi => ?_).change
      (fun h => h) fun _ hj hs => ?_
    · obtain ⟨is', hi', hphis⟩ := hj.phis
      cases hi.symm.trans hi'
      refine .phi hi (fun y hy => (hphis y hy).1) hhere he hr hj.start (fun z hz _ hf hmem => ?_) fun _ =>
        ⟨fun p hp => ?_, fun p hp => ?_, ?_, fun k => ?_, fun hf p hp y hy d hd => ?_⟩
      · have := hset (he.le.fits (hz.fits hf)) r hmem
        have := hr.index (hz.fits hf)
        omega
      · exact (hin p hp).2.mono hle
      · exact hsub _ _ (hin p hp).1
      · rw [List.map_map]
        exact hj.apart
      · simp [hj.preds]
      · have := ((hin p (List.mem_of_head? hp)).2 (hle.fits hf)).2
        have := (hphis y hy).2 hf d hd
        omega
    · obtain ⟨is, hi, hphis⟩ := hj.phis
      have hbody := he.body is hi
      refine ⟨hs, he.here ▸ hj.start, ⟨_, by rw [he.here, hbody, Body.set_self], fun y hy => ?_⟩,
        fun k => ?_, hj.apart⟩
      · rcases List.mem_append.1 hy with hy | hy
        · exact (hphis y hy).imp_right fun h hf => h (he.le.fits hf)
        · cases List.mem_singleton.1 hy
          refine ⟨rfl, fun hf d hd => ?_⟩
          cases hd
          have := hr.index hf
          have := hle.regCount
          omega
      · rw [← hj.preds k, he.here, hbody, leads_set]
        have := not_leads_open (j := b.here) hi
        grind

theorem joinAll_gives {vs : Bindings} (hlocals : ∀ x t, J.ctx.binding x = some t → (b₀.decl x).ty = t)
    (hvs : ∀ x r, (x, r) ∈ vs → ∃ t, J.ctx.binding x = some t ∧ J.Typed b₀ r t ∧ ∀ e ∈ edges,
    S₀ e.source.index.toNat (.reg r)) (hways : ∀ e ∈ edges, Bound J b₀ S₀ e.source.index.toNat e.values) :
    (joinAll edges vs).Gives J.total b fun vs' b' => ∃ S', Joins J b₀.regTypes.size edges b S b' S' ∧
      Bound J b' S' b'.here vs' ∧ ∀ x, (vs'.get? x).isSome = (vs.get? x).isSome := by
  induction vs generalizing b S with
  | nil => exact .pure ⟨S, .refl, by simp [Bound], fun _ => rfl⟩
  | cons p vs ih =>
    obtain ⟨x, base⟩ := p
    obtain ⟨t, hx, htyped, hbase⟩ := hvs x base (List.mem_cons_self ..)
    refine .bind (join_gives hc hset hle hhere hsub hcommon (t := t) ?_ (fun hf => hf.binding x t hx)
      htyped fun e he => ?_) ?_
    · rw [hle.decl]
      exact hlocals x t hx
    · cases hget : e.values.get? x with
      | none => exact ⟨hbase e he, htyped⟩
      | some r =>
        obtain ⟨hr, u, hu, hru⟩ := hways e he x r (mem_of_lookup hget)
        cases hx.symm.trans hu
        exact ⟨hr, hru⟩
    rintro r b₁ ⟨S₁, hj₁, hr⟩
    refine .bind (ih (hj₁.current ▸ hc) (fun hf r hr =>
      Nat.lt_of_lt_of_le (hset (hj₁.le.fits hf) r hr) hj₁.le.regCount) (hle.trans hj₁.le)
      (hj₁.here ▸ hj₁.goes.sub _ _ hhere) (fun i μ hμ => hj₁.goes.sub i μ (hsub i μ hμ))
      (fun r hr => hj₁.here ▸ hj₁.goes.sub _ _ (hcommon r hr)) fun x r hx =>
        hvs x r (List.mem_cons_of_mem _ hx)) ?_
    rintro rs b₂ ⟨S₂, hj₂, hrs, hkeys⟩
    refine .pure ⟨S₂, hj₁.trans hj₂ hc, fun y s hy => ?_, fun y => ?_⟩
    · rcases List.mem_cons.1 hy with heq | hy
      · cases heq
        exact ⟨hj₂.here ▸ hj₂.goes.sub _ _ hr.1, t, hx, hr.2.mono hj₂.le⟩
      · exact hrs y s hy
    · simp only [Bindings.get?, lookup_cons_ite] at hkeys ⊢
      grind

/-- Edges have met. The bindings of `vs` have new registers. -/
structure Merged (J : Job) (N : Nat) (edges : List Edge) (vs : Bindings) (b : Builder) (S : Facts) (b' : Builder)
    (S' : Facts) : Prop where
  goes : Goes J [] (Joining N edges b) b'.Sane b S b' S'
  slots : b'.slots = b.slots
  loops : b'.loops = b.loops
  current : b'.current = b.current
  size : b'.blocks.size = b.blocks.size
  values : Bound J b' S' b'.here b'.values
  keys : ∀ x, (b'.values.get? x).isSome = (vs.get? x).isSome

theorem merge_gives {vs : Bindings} (hlocals : ∀ x t, J.ctx.binding x = some t → (b₀.decl x).ty = t)
    (hvs : ∀ x r, (x, r) ∈ vs → ∃ t, J.ctx.binding x = some t ∧ J.Typed b₀ r t ∧ ∀ e ∈ edges,
    S₀ e.source.index.toNat (.reg r)) (hways : ∀ e ∈ edges, Bound J b₀ S₀ e.source.index.toNat e.values) :
    (merge vs edges).Gives J.total b fun _ b' => ∃ S', Merged J b₀.regTypes.size edges vs b S b' S' := by
  refine .bind (joinAll_gives hc hset hle hhere hsub hcommon hlocals hvs hways) ?_
  rintro vs' b₁ ⟨S₁, hj, hvs', hkeys⟩
  have hle : b₁.Le { b₁ with values := vs' } := b₁.le_of_tables rfl rfl rfl rfl rfl (Nat.le_refl _) fun _ _ h => h
  refine .of_ok rfl ⟨S₁,
    ⟨hj.goes.trans ((Goes.tables hle (fun _ h => ⟨h.types, h.constants, h.regs, h.slots⟩) rfl rfl).change
    Joining.toSane fun _ _ hs => hs) (List.Subset.refl _) fun h => h, hj.slots, hj.loops, hj.current, hj.size,
    hvs'.mono hle fun _ h => h, hkeys⟩⟩

end

/-- What is known on all edges is known where they meet. -/
def Facts.meet (S : Facts) (i : Nat) (edges : List Edge) : Facts :=
  S.also i fun μ => ∀ e ∈ edges, S e.source.index.toNat μ

/-- The edges of code that started at `b` meet at `b₃`, and the bindings are those of `b₁` again. -/
theorem merge_ran {b₁ b₂ b₃ : Builder} {S₁ S₂ : Facts} (hE : Env J V b₁ S₁) (hfrom : b.Le b₁)
    (hsame : b₁.slots = b.slots) (hle₂ : b₁.Le b₂) (hle₃ : b₂.Le b₃) (hgoing : b₃.current.isSome = true)
    (hedges : ∀ e ∈ edges, Way J b₂ S₂ (S₁ b₁.here) e)
    (hgoes : ∀ P, Goes J b.targets (Ok J P b S) (Ok J P b₃ (S₂.meet b₃.here edges) ∧
    Joining b₂.regTypes.size edges b₃)
      b S b₃ (S₂.meet b₃.here edges))
    (hways : ∀ P, Ways J P b S → Ways J P b₃ (S₂.meet b₃.here edges)) (htargets : b₃.targets = b.targets)
    (hslots : SlotsKept V b₁ b₃.slots) (hcount : b₃.blocks.size ≤ b.blocks.size + 3 * n) :
    (merge b₁.values edges).Gives J.total b₃ (Ran J V V n true b S) := by
  obtain ⟨μ, hμ⟩ := hE.here
  have hle := hle₂.trans hle₃
  have hmeet : S₂.meet b₃.here edges b₃.here μ := .inr ⟨rfl, fun e he => (hedges e he).facts μ hμ⟩
  refine .mono (merge_gives hgoing (fun hf r hr => ?_) hle₃ hmeet (fun _ _ => .inl) (fun r hr => .inr ⟨rfl, hr⟩)
    (fun x t hx => ?_) (fun x r hx => ?_) fun e he => (hedges e he).values) fun _ b' ⟨S', h⟩ => ?_
  · exact Nat.lt_of_lt_of_le (hE.settled (hle.fits hf) r hr) hle.regCount
  · rw [hle₂.decl]
    exact (hE.locals x t hx).1
  · obtain ⟨hr, t, ht, hrt⟩ := hE.values x r hx
    exact ⟨t, ht, hrt.mono hle₂, fun e he => (hedges e he).facts _ hr⟩
  have hgoing' : b'.current.isSome = true := h.current ▸ hgoing
  have hlift (P) : Goes J [] _ (Ok J P b' S') b₃ _ b' S' := h.goes.lift (fun h => h) h.loops fun _ => hgoing
  have hkept : SlotsKept V b₁ b'.slots := h.slots ▸ hslots
  refine ⟨S', ⟨fun P => (hgoes P).trans (hlift P) (by simp) fun _ => hgoing,
    fun P hw => h.goes.ways h.loops (fun _ => hgoing) (hways P hw), ?_, ?_, h.size ▸ hcount⟩,
    hgoing', fun _ => ?_⟩
  · rw [← htargets, Builder.targets, h.loops, Builder.targets]
  · unfold SlotsKept at hkept ⊢
    rwa [hsame, hfrom.decl] at hkept
  · refine hE.resume (hle.trans h.goes.le) (fun μ hμ => ?_) (fun x r hx => .inr (h.values x r hx))
      (fun x hx => ?_) hkept
    · exact h.goes.carried hgoing' μ (.inr ⟨rfl, fun e he => (hedges e he).facts μ hμ⟩)
    · rwa [h.keys]

/-! ## Conditionals -/

/-- The edge that control would take from a builder. -/
def Builder.leaving (b : Builder) : List Edge :=
    (b.current.map fun source => ⟨source, b.values⟩ : Option Edge).toList

theorem Builder.sources_leaving (b : Builder) (i : Nat) : i ∈ b.leaving.map (fun e => e.source.index.toNat) ↔
    b.current.isSome = true ∧ i = b.here := by
  unfold leaving here
  cases b.current <;> simp

theorem Builder.nodup_leaving (b : Builder) : (b.leaving.map fun e => e.source.index.toNat).Nodup := by
  unfold leaving
  cases b.current <;> simp

theorem Env.leaving (hE : b.current.isSome = true → Env J V b S) (he : e ∈ b.leaving) :
    b.current.isSome = true ∧ e.source.index.toNat = b.here ∧ Bound J b S e.source.index.toNat e.values := by
  obtain ⟨id, hid, rfl⟩ := Option.map_eq_some_iff.1 (Option.mem_toList.1 he)
  have hc : b.current.isSome = true := by rw [hid]; rfl
  exact ⟨hc, (here_eq hid).symm, here_eq hid ▸ (hE hc).values⟩

theorem rebind (vs : Bindings) (i : Option BlockId) (b : Builder) : ∃ b', (setValues vs >>= fun _ => moveTo i) b =
    .ok ((), b') ∧ Moved i b b' ∧ b'.values = vs ∧ b'.slots = b.slots ∧ b'.loops = b.loops :=
  ⟨_, rfl, ⟨b.le_of_tables rfl rfl rfl rfl rfl (Nat.le_refl _) fun _ _ h => h, fun h =>
  ⟨h.types, h.constants, h.regs, h.slots⟩,
    rfl, rfl⟩, rfl, rfl, rfl⟩

theorem conditional_executes {test : Build Reg} {thenBody elseBody : Build Unit}
    (htest : Computes J V .bool n st test) (hthen : Executes J V V' p m c thenBody)
    (helse : Executes J V V'' p k c' elseBody) :
    Executes J V V p (n + m + k + 1) (c || c') (conditional test thenBody elseBody) := by
  intro b₀ S₀ hE hcur hp
  refine .bind (htest b₀ S₀ hE hcur) ?_
  rintro t b ⟨S, ho, ht⟩
  refine .current (fun _ => ho.going) fun l hl => fork_gives hl fun x y b₁ hk => .reads ?_
  obtain ⟨b₂, hrun, h₂, hk₂⟩ := moveTo_moved (some x) b₁
  have hE := ho.env hE
  have hE₂ : Env J V b₂ (S.also b₂.here (S b.here)) :=
    hE.move (hk.le.trans h₂.le) (hk.toKept.trans hk₂) fun μ hμ => .inr ⟨rfl, hμ⟩
  have hloops₂ : b₂.loops = b.loops := hk₂.loops.trans hk.loops
  refine .run hrun (.bind (hthen _ _ hE₂ (by rw [h₂.current]; rfl) (hloops₂ ▸ ho.loops ▸ hp)) ?_)
  rintro _ b₃ ⟨S₃, hr₃, hcur₃, hE₃⟩
  obtain ⟨b₄, hrun, h₄, hvalues₄, hslots₄, hloops₄⟩ := rebind b₁.values (some y) b₃
  refine .reads ?_
  rw [← bind_assoc]
  have hle₃ := (hk.le.trans h₂.le).trans (hr₃.goes []).le
  have hslots₃ : SlotsKept V b b₃.slots := by
    have := hr₃.slots
    unfold SlotsKept at this ⊢
    rwa [hk₂.slots, hk.slots, h₂.le.decl, hk.le.decl] at this
  have hE₄ : Env J V b₄ (S₃.also b₄.here (S b.here)) :=
    hE.resume (hle₃.trans h₄.le) (fun μ hμ => .inr ⟨rfl, hμ⟩)
    (fun x r hx => .inl (by rwa [hvalues₄, hk.values] at hx))
      (fun x hx => by rwa [hvalues₄, hk.values]) (hslots₄ ▸ hslots₃)
  have hways₂ : ∀ P, Ways J P b S → Ways J P b₂ (S.also b₂.here (S b.here)) := fun P hw =>
    hw.mono (hk.le.trans h₂.le) hloops₂ (fun _ _ => .inl) fun _ p hp μ hμ =>
      .inr ⟨rfl, hw.within ho.going p hp μ hμ⟩
  have hways₄ : ∀ P, Ways J P b S → Ways J P b₄ (S₃.also b₄.here (S b.here)) := fun P hw =>
    (hr₃.ways P (hways₂ P hw)).mono h₄.le hloops₄ (fun _ _ => .inl) fun _ p hp μ hμ =>
      .inr ⟨rfl, hw.within ho.going p hp μ hμ⟩
  have htargets₂ : b₂.targets = b.targets := by rw [Builder.targets, hloops₂, Builder.targets]
  have htargets₄ : b₄.targets = b.targets := by
    rw [Builder.targets, hloops₄]
    exact hr₃.targets.trans htargets₂
  refine .run hrun (.bind (helse _ _ hE₄ (by rw [h₄.current]; rfl) fun hT h hnil => ?_) ?_)
  · exact hp hT h (ho.loops ▸ Builder.targets_eq_nil.1 (htargets₄ ▸ Builder.targets_eq_nil.2 hnil))
  rintro _ b₅ ⟨S₅, hr₅, hcur₅, hE₅⟩
  refine .reads ?_
  suffices h : ∀ edges, b₃.leaving ++ b₅.leaving = edges → Gives J.total (if edges.isEmpty = true then do
        setValues b₁.values
        moveTo none
      else do
        let join ← newBlock "endif"
        edges.forM fun e => terminate e.source (.jump join)
        moveTo join
        merge b₁.values edges) b₅ (Ran J V V (n + m + k + 1) (c || c') b₀ S₀) from h _ rfl
  intro edges hedges
  have hmem : ∀ i, i ∈ edges.map (fun e => e.source.index.toNat) ↔ (b₃.current.isSome = true ∧ i = b₃.here) ∨
      (b₅.current.isSome = true ∧ i = b₅.here) := fun i => by
    rw [← hedges, List.map_append, List.mem_append, b₃.sources_leaving, b₅.sources_leaving]
  have hle₅ := hle₃.trans (h₄.le.trans (hr₅.goes []).le)
  have hslots₅ : SlotsKept V b b₅.slots :=
    (hslots₄ ▸ hslots₃ : SlotsKept V b b₄.slots).trans hr₅.slots (hle₃.trans h₄.le)
  have hsub : ∀ i μ, S i μ → S₅ i μ := fun i μ hμ =>
    (hr₅.goes []).sub i μ (.inl ((hr₃.goes []).sub i μ (.inl hμ)))
  have hcount₅ : b₅.blocks.size ≤ b.blocks.size + 3 * (m + k) + 2 := by
    have := hk.size
    have := h₂.size
    have := hr₃.count
    have := h₄.size
    have := hr₅.count
    omega
  have harms : ∀ P, b₅.blocks.size ≤ 2 ^ 32 → Ok J P b S → Armed b b₃ b₅ ∧ Ok J P b₅ S₅ ∧
      ∀ W : Nat → Prop, (∀ i, W i → i < b.blocks.size) → (∀ i ∈ b.targets, W i) → Step J W b S W b₅ S₅ := by
    intro P hroom hok
    have hn := ((h₂.le.trans (hr₃.goes []).le).trans (h₄.le.trans (hr₅.goes []).le)).blockCount
    have hn₁ := hk.size
    obtain ⟨is, hi⟩ := hok.live ho.going
    have hx := hk.left (by omega)
    have hy := hk.right (by omega)
    have g₃ := hr₃.goes P
    have g₅ := hr₅.goes P
    rw [htargets₂] at g₃
    rw [htargets₄] at g₅
    refine arms hk h₂ g₃ h₄ g₅ (fun hs => ?_) Ok.toSane (fun hok₃ hs => ?_) Ok.toSane hroom hok.toSane
      ho.going ht hok.bound
    · refine hok.mono hs (hways₂ P hok.toWays) (hk.le.trans h₂.le) hloops₂ fun i j hj => ?_
      have := hok.bound j hj
      rw [h₂.body, hk.leads hi]
      simp only [Terminator.successors, List.mem_cons, List.not_mem_nil, or_false,
        exists_eq_or_imp, exists_eq_left]
      grind
    · exact hok₃.mono hs (hways₄ P hok.toWays) h₄.le hloops₄ fun i j _ => by rw [h₄.body]
  have hlive : edges.isEmpty = !(c || c') := by
    rw [← hedges, ← hcur₃, ← hcur₅]
    unfold Builder.leaving
    cases b₃.current <;> cases b₅.current <;> rfl
  split
  · rename_i hempty
    rw [hempty, eq_comm, Bool.not_eq_true', Bool.or_eq_false_iff] at hlive
    obtain ⟨b₆, hrun, h₆, -, hslots₆, hloops₆⟩ := rebind b₁.values none b₅
    have hdead : b₆.current.isSome = true → False := by simp [h₆.current]
    have hways₆ : ∀ P, Ways J P b S → Ways J P b₆ S₅ := fun P hw =>
      (hr₅.ways P (hways₄ P hw)).mono h₆.le hloops₆ (fun _ _ h => h) fun h => (hdead h).elim
    refine .of_ok hrun ⟨S₅, (ho.runs hcur).trans (m := m + k + 1) ⟨fun P => ?_, hways₆, ?_, hslots₆ ▸ hslots₅, ?_⟩
      (by omega) fun h => (hdead h).elim, ?_, ?_⟩
    · refine .of (hle₅.trans h₆.le) (fun hf h => ?_) hsub (fun h => (hdead h).elim) fun hroom hok => ?_
      · exact h₆.tabled ((hr₅.goes P).tabled hf (h₄.tabled ((hr₃.goes P).tabled hf (h₂.tabled (hk.tabled h)))))
      have hn₆ := h₆.size
      have hn₅ := hle₅.blockCount
      obtain ⟨harmed, hok₅, hstep⟩ := harms P (by omega) hok
      refine ⟨⟨fun i hi hne => ?_, fun i js hj => ?_, .inr ?_⟩,
        hok₅.mono ⟨fun h => (hdead h).elim, fun i j hl => ?_⟩ (hways₆ P hok.toWays)
        h₆.le hloops₆ fun i j _ => (by rw [h₆.body]), fun W hW hL =>
        (hstep W hW hL).trans (.tables h₆.le h₆.body)⟩
      · rw [h₆.body, harmed.same i hi hne]
      · have := harmed.rests i js (h₆.body ▸ hj)
        grind
      · simp [Builder.here, h₆.current]
        omega
      · rw [h₆.size]
        exact hok₅.closed i j (h₆.body ▸ hl)
    · rw [Builder.targets, hloops₆]
      exact hr₅.targets.trans htargets₄
    · have := h₆.size
      omega
    · simp [h₆.current, hlive]
    · simp [hlive]
  · rename_i hne
    rw [eq_false_of_ne_true hne, eq_comm, Bool.not_eq_false'] at hlive
    rw [hlive]
    obtain ⟨j, b₆, hrun₆, h₆⟩ := newBlock_opened "endif" b₅
    obtain ⟨b₇, hrun₇, h₇⟩ := ends j (edges.map Edge.source) b₆
    obtain ⟨b₈, hrun₈, h₈, hk₈⟩ := moveTo_moved (some j) b₇
    have hrun₇ : (edges.forM fun e => terminate e.source (.jump j)) b₆ = .ok ((), b₇) := by
      rw [← hrun₇]
      simp
    refine .run hrun₆ (.run hrun₇ (.run hrun₈ ?_))
    have hle₈ := h₆.le.trans (h₇.le.trans h₈.le)
    have hgoing : b₈.current.isSome = true := by rw [h₈.current]; rfl
    -- what is known before the conditional, and the bindings, are known on the edges
    have hedge : ∀ e ∈ edges, Way J b₅ S₅ (S b.here) e := by
      intro e he
      rw [← hedges, List.mem_append] at he
      rcases he with he | he
      · obtain ⟨hc, hsource, hvalues⟩ := Env.leaving (fun hc => hE₃ (hcur₃ ▸ hc)) he
        have hsub : ∀ i μ, S₃ i μ → S₅ i μ := fun i μ hμ => (hr₅.goes []).sub i μ (.inl hμ)
        exact ⟨fun μ hμ => hsub _ _ (hsource ▸ (hr₃.goes []).carried hc μ (.inr ⟨rfl, hμ⟩)),
          hvalues.mono (h₄.le.trans (hr₅.goes []).le) (hsub _)⟩
      · obtain ⟨hc, hsource, hvalues⟩ := Env.leaving (fun hc => hE₅ (hcur₅ ▸ hc)) he
        exact ⟨fun μ hμ => hsource ▸ (hr₅.goes []).carried hc μ (.inr ⟨rfl, hμ⟩), hvalues⟩
    have hways₈ : ∀ P, Ways J P b S → Ways J P b₈ (S₅.meet b₈.here edges) := fun P hw =>
      (hr₅.ways P (hways₄ P hw)).mono hle₈ (hk₈.loops.trans (h₇.loops.trans h₆.loops)) (fun _ _ => .inl)
        fun _ p hp μ hμ => .inr ⟨rfl, fun e he => (hedge e he).facts μ (hw.within ho.going p hp μ hμ)⟩
    have hgoes : ∀ P, Goes J b.targets (Ok J P b S) (Ok J P b₈ (S₅.meet b₈.here edges) ∧
        Joining b₅.regTypes.size edges b₈) b S b₈ (S₅.meet b₈.here edges) := by
      intro P
      refine .of (hle₅.trans hle₈) (fun hf h => ?_) (fun i μ hμ => .inl (hsub i μ hμ))
        (fun _ μ hμ => .inr ⟨rfl, fun e he => (hedge e he).facts μ hμ⟩)
        fun hroom hok => ?_
      · have h := (hr₅.goes P).tabled hf (h₄.tabled ((hr₃.goes P).tabled hf (h₂.tabled (hk.tabled h))))
        exact h₈.tabled (h₇.tabled (h₆.tabled h))
      obtain ⟨harmed, hok₅, hstep⟩ := harms P (Nat.le_trans hle₈.blockCount hroom) hok
      obtain ⟨μ, hμ⟩ := hE.here
      have hnodup : (edges.map fun e => e.source.index.toNat).Nodup := by
        rw [← hedges, List.map_append, List.nodup_append]
        refine ⟨b₃.nodup_leaving, b₅.nodup_leaving, fun i hi j hj => ?_⟩
        rw [b₃.sources_leaving] at hi
        rw [b₅.sources_leaving] at hj
        exact hi.2 ▸ hj.2 ▸ harmed.apart hi.1
      obtain ⟨hframe, hmet, hjoin⟩ := harmed.meet (J := J) (S := S₅)
        (p := fun μ => ∀ e ∈ edges, S₅ e.source.index.toNat μ) h₆ h₇ h₈
        (by simpa using hmem) (by simpa [Function.comp_def] using hnodup)
          (by simpa using hne) hroom hle₅.blockCount
        (by simpa using fun e he => ⟨μ, (hedge e he).facts μ hμ⟩) (by simpa using fun e he μ hμ => hμ e he)
      refine ⟨hframe, ⟨hok₅.mono hmet.toSane (hways₈ P hok.toWays) hle₈
        (hk₈.loops.trans (h₇.loops.trans h₆.loops)) fun i j hj => ?_, hmet.toSane, hmet.start,
        ⟨[], hmet.nothing, by simp⟩, fun k => by simp [hmet.preds], hnodup⟩, fun W hW hL =>
        (hstep W hW hL).trans (hjoin W hW)⟩
      have hz := (hjoin (fun _ => False) (by simp)).back b₈ (.refl _ hroom)
      exact ⟨fun hl => (hz.preds i j (hok₅.bound j hj) hl).resolve_left (fun h => h), hz.leads⟩
    have hmerge : (merge b.values edges).Gives J.total b₈ (Ran J V V (m + k + 1) true b S) := by
      refine merge_ran hE (.refl b) rfl hle₅ hle₈ hgoing hedge hgoes hways₈ ?_ ?_ ?_
      · rw [Builder.targets, hk₈.loops, h₇.loops, h₆.loops]
        exact hr₅.targets.trans htargets₄
      · rwa [hk₈.slots, h₇.slots, h₆.slots]
      · have := h₈.size
        have := h₇.size
        have := h₆.size
        omega
    rw [hk.values]
    exact hmerge.mono fun _ _ h => (ho.runs hcur).ran h ho.going (by omega)

end NumericEngine.Lowering
