import NumericEngine.Proofs.Lowering.Straight

/-!
# Code of expressions

Short-circuit operators and conditional expressions have blocks of their own,
which meet in a phi. `expr_computes` puts the code of expressions together.
-/

namespace NumericEngine.Lowering

open Ir (Rhs Instr Terminator Body Mark)
open Typing (Visible NodeTyped)
open Build

variable {J : Job} {W W' : Nat → Prop} {b b' b'' : Builder} {S S' S'' : Facts} {V : Visible} {n : Nat} {st : Prop}
  {x y id : BlockId} {u : Terminator}

theorem leads_set {body : Body} : (body.set i (is, t)).Leads j k ↔
    (j = i ∧ ∃ v, t = some v ∧ ∃ s ∈ v.successors, s.index.toNat = k) ∨ (j ≠ i ∧ body.Leads j k) := by
  unfold Body.Leads Body.set
  by_cases h : j = i
  · simp [h]
  · simp [h]

/-- Control goes from the current block to two new ones. -/
structure Forked (stem : String) (b : Builder) (u : Terminator) (x y : BlockId) (b' : Builder) : Prop extends
    Steady b b' where
  tabled : b.Tabled → b'.Tabled
  size : b'.blocks.size = b.blocks.size + 2
  left : b'.blocks.size ≤ 2 ^ 32 → x.index.toNat = b.blocks.size
  right : b'.blocks.size ≤ 2 ^ 32 → y.index.toNat = b.blocks.size + 1
  body : ∀ is, b.body b.here = some (is, none) → b'.body =
    ((b.body.set b.blocks.size ([], none)).set (b.blocks.size + 1) ([], none)).set b.here (is, some u)
  label : b'.label (b.blocks.size + 1) = some (stem ++ toString (b.blocks.size + 1))
  steps : ∀ {J S is μ}, b'.blocks.size ≤ 2 ^ 32 → b.body b.here = some (is, none) → S b.here μ →
    Step.Reads J b S b.here u → (∀ s ∈ u.successors, s = x ∨ s = y) → ∀ W : Nat → Prop,
    (∀ i, W i → i < b.blocks.size) → Step J W b S (fun i => W i ∨ i = b.blocks.size ∨ i = b.blocks.size + 1) b' S

theorem Step.Reads.mono (h : Step.Reads J b S i u) (hle : b.Le b') : Step.Reads J b' S i u := by
  cases u with
  | jump => trivial
  | branch | ret => exact ⟨h.1, h.2.mono hle⟩

theorem fork_gives {k : BlockId → BlockId → Build β} {u : BlockId → BlockId → Terminator}
    (hid : b.current = some id) (hk : ∀ x y b', Forked stem' b (u x y) x y b' → (k x y).Gives T b' Q) :
    (do
      let x ← newBlock stem
      let y ← newBlock stem'
      terminate id (u x y)
      k x y).Gives T b Q := by
  obtain ⟨x, b₁, hx, h₁⟩ := newBlock_opened stem b
  obtain ⟨y, b₂, hy, h₂⟩ := newBlock_opened stem' b₁
  obtain ⟨b₃, hrun, h₃⟩ := terminate_ended id (u x y) b₂
  refine .run hx (.run hy (.run hrun ?_))
  have hhere : b.here = id.index.toNat := by simp [Builder.here, hid]
  have hsize := h₁.size
  have hsize' := h₂.size
  have hbody : ∀ is, b.body b.here = some (is, none) → b₂.body b.here = some (is, none) := by
    intro is hi
    have hlt := Builder.lt_of_body hi
    rw [h₂.body, h₁.body, Body.set_of_ne (by omega), Body.set_of_ne (by omega), hi]
  refine hk _ _ _ ⟨⟨(h₁.toKept.trans h₂.toKept).trans h₃.toKept, (h₁.le.trans h₂.le).trans h₃.le, ?_⟩, ?_, ?_,
    fun hroom => ?_, fun hroom => ?_, fun is hi => ?_, ?_, fun {J S is μ} hroom hi hS hreads hu W hW => ?_⟩
  · rw [h₃.current, h₂.current, h₁.current]
  · exact fun h => h₃.tabled (h₂.tabled (h₁.tabled h))
  · rw [h₃.size]
    omega
  · exact h₁.index (by have := h₃.size; omega)
  · rw [h₂.index (by have := h₃.size; omega), hsize]
  · rw [h₃.body is (hhere ▸ hbody is hi), h₂.body, h₁.body, hsize, hhere]
  · have hl := h₂.label (by omega)
    rw [hsize] at hl
    exact h₃.le.labels _ _ hl
  · have hsize₃ := h₃.size
    have hx := h₁.index (by omega)
    have hy := h₂.index (by omega)
    have hlt := Builder.lt_of_body hi
    have hu' : ∀ s ∈ (u x y).successors, s.index.toNat = b.blocks.size ∨ s.index.toNat = b.blocks.size + 1 := by
      intro s hs
      rcases hu s hs with rfl | rfl
      · exact .inl hx
      · exact .inr (by omega)
    refine (Step.opened (fun i => W i ∨ i = b.blocks.size) h₁ ?_ fun i hi => .inl hi).trans
      ((Step.opened (fun i => W i ∨ i = b.blocks.size ∨ i = b.blocks.size + 1) h₂ ?_ ?_).trans
        (Step.ended h₃.le (hhere ▸ hbody is hi) (h₃.body is (hhere ▸ hbody is hi)) (hhere ▸ hS)
        (hhere ▸ hreads.mono (h₁.le.trans h₂.le)) ?_ ?_))
    · rintro i hi (hw | rfl)
      · exact hw
      · omega
    · rintro i hi (hw | rfl | rfl)
      · exact .inl hw
      · exact .inr rfl
      · omega
    · exact fun i hi => hi.imp_right .inl
    · intro s hs
      have := hu' s hs
      exact ⟨by omega, .inr this⟩
    · intro s hs hle
      have := hu' s hs
      omega

theorem not_leads_open {body : Body} (h : body i = some (is, none)) : ¬body.Leads i j := by
  rintro ⟨js, v, hv, -⟩
  cases h.symm.trans hv

theorem Build.Ended.leads (h : Ended id u b b') (hi : b.body id.index.toNat = some (is, none)) :
    b'.body.Leads i j ↔ (i = id.index.toNat ∧ ∃ s ∈ u.successors, s.index.toNat = j) ∨ b.body.Leads i j := by
  rw [h.body is hi, leads_set]
  have := not_leads_open (j := j) hi
  grind

theorem Forked.leads (hk : Forked stem b u x y b') (hi : b.body b.here = some (is, none)) : b'.body.Leads i j ↔
    (i = b.here ∧ ∃ s ∈ u.successors, s.index.toNat = j) ∨ b.body.Leads i j := by
  have hnew : ∀ k, b.blocks.size ≤ k → ¬b.body.Leads k j := by
    rintro k hk ⟨js, v, hv, -⟩
    have := Builder.lt_of_body hv
    omega
  rw [hk.body is hi, leads_set, leads_set, leads_set]
  have := not_leads_open (j := j) hi
  have := hnew b.blocks.size (Nat.le_refl _)
  have := hnew (b.blocks.size + 1) (by omega)
  grind

theorem Forked.closed (hk : Forked stem b u x y b') (hroom : b'.blocks.size ≤ 2 ^ 32) (hs : b.Sane)
    (hi : b.body b.here = some (is, none)) (hu : ∀ s ∈ u.successors, s = x ∨ s = y) (hl : b'.body.Leads i j) :
    j < b'.blocks.size := by
  have := hk.size
  rcases (hk.leads hi).1 hl with ⟨-, s, hs', rfl⟩ | hl
  · rcases hu s hs' with rfl | rfl
    · rw [hk.left hroom]
      omega
    · rw [hk.right hroom]
      omega
  · have := hs.closed i j hl
    omega

/-- Code adds no edges to the blocks before it but the headers and exits of open loops. -/
theorem Goes.leads_iff (h : Goes J L G G' b S b' S') (hroom : b'.blocks.size ≤ 2 ^ 32) (hG : G)
    (hL : ∀ i ∈ L, i < b.blocks.size) (hj : j < b.blocks.size) (hnot : j ∉ L) :
    b'.body.Leads i j ↔ b.body.Leads i j := by
  have hz := (h.step hroom hG (· ∈ L) hL fun _ hi => hi).back b' (.refl _ hroom)
  exact ⟨fun hl => (hz.preds i j hj hl).resolve_left hnot, hz.leads⟩

/-- Code goes on in a block that is empty as yet, and that all edges lead to which will. -/
theorem Step.start (W' : Nat → Prop) (hb : b.body id.index.toNat = some ([], none)) (hm : Moved (some id) b b')
    (hW : ∀ i, W' i → W i) (hid : ¬W' id.index.toNat) (hrest : ∀ i, W i → W' i ∨ i = id.index.toNat)
    (hfirst : ∃ s < id.index.toNat, b.body.Leads s id.index.toNat ∧ ∃ μ, S s μ)
    (hS : ∀ s, b.body.Leads s id.index.toNat → ∀ μ, p μ → S s μ) : Step J W b S W' b' (S.also b'.here p) := by
  refine (Step.settle_plain hW fun i is t hi hWi hnew x hx => ?_).trans ((Step.enter hb hid hfirst).trans
    ((Step.forget fun i μ hμ => ?_).trans (.tables hm.le hm.body)))
  · cases (hrest i hWi).resolve_left hnew
    cases hb.symm.trans hi
    cases hx
  · rw [here_eq hm.current] at hμ
    exact hμ.imp_right (.imp_right fun hμ => .inr fun s hs => hS s hs μ hμ)

/-- The inputs of a phi after the phis `is` of the current block. -/
structure Inputs (J : Job) (b : Builder) (S : Facts) (is : List Instr) (t : Ty)
    (incoming : List (BlockId × Reg)) : Prop where
  typed : ∀ p ∈ incoming, J.Typed b p.2 t
  known : ∀ p ∈ incoming, S p.1.index.toNat (.reg p.2)
  sources : (incoming.map fun p => p.1.index.toNat).Nodup
  preds : ∀ j, b.body.Leads j b.here ↔ ∃ p ∈ incoming, p.1.index.toNat = j
  first : b.Fits → ∀ p, incoming.head? = some p → ∀ x ∈ is, ∀ d, x.dst? = some d → p.2.index.toNat < d.index.toNat

/-- A phi comes after phis, with inputs for the edges to its block, unless there are more to come. -/
theorem Step.phi (hi : b.body b.here = some (is, none)) (hphis : ∀ x ∈ is, x.isPhi = true) (hS : S b.here μ)
    (he : Emitted [.define r (.phi incoming)] b b') (hr : Registered ty b r b') (h0 : b.here ≠ 0)
    (hps : J.Fresh b' r) (hok : ¬W b.here → Inputs J b S is ty incoming) :
    Step J W b S W b' (S.with b.here (.reg r)) := by
  refine of (fun z hz => emitted_back hi he hz) fun z n hz hg hz₀ h => ?_
  have hlast : b'.body b.here = some (is ++ [.define r (.phi incoming)],
    none) := by rw [he.body is hi, Body.set_self]
  have hnew : ∃ incoming', (∀ y, z.body.At b.here is.length y ↔ y = .define r (.phi incoming')) ∧
      (¬W b.here → incoming' = incoming) := by
    obtain ⟨y, hy, hshape⟩ := hz.shape_at (k := is.length) hlast (by simp)
    simp only [List.getElem?_concat_length, Option.map_some, Option.some.injEq] at hshape
    have hphi : y.isPhi = true := by rw [← isPhi_shape, ← hshape]; rfl
    obtain ⟨d, incoming', rfl⟩ := Ir.Instr.isPhi_iff.1 hphi
    cases hshape
    have hat : ∀ y, z.body.At b.here is.length y ↔ y = .define r (.phi incoming') := by
      obtain ⟨js, u, hj, hy⟩ := hy
      intro y
      rw [Body.at_iff hj, hy, Option.some.injEq, eq_comm]
    refine ⟨incoming', hat, fun hW => ?_⟩
    have := (hz.at_iff (k := is.length) (x := .define r (.phi incoming)) hlast (by simp)
      (.inr hW)).1 ((hat _).2 rfl)
    cases this
    rfl
  obtain ⟨incoming', hat, hexact⟩ := hnew
  have hearly : ∀ l < is.length, ∀ y, z.body.At b.here l y → ∃ x ∈ is, is[l]? = some x ∧ shape x = shape y := by
    intro l hl y hy
    obtain ⟨y', hy', hshape⟩ := hz₀.shape_at hi hl
    obtain ⟨js, u, hj, hy⟩ := hy
    rw [Body.at_iff hj, hy] at hy'
    cases hy'
    rw [List.getElem?_eq_getElem hl] at hshape ⊢
    exact ⟨_, List.getElem_mem hl, rfl, Option.some.inj hshape⟩
  have hknown : State J n z W b' (S.with b.here (.reg r)) := by
    refine State.learn (S := S) (h.emit he.le hi (he.body is hi) (fun hf y hy => ?_)
      (fun hf y d hy hd => ?_) fun d es hy => ?_) ?_
    · cases (hat y).1 hy
      refine ⟨reached_new h hS hr hf hz.le, hps z hz.le hg hf, ty,
        (hz.le.context _ _).reg _ _ (hr.reg (hz.fits hf) _ _), h0, fun l hl y hy => ?_, fun hW => ?_⟩
      · obtain ⟨x, hx, -, hshape⟩ := hearly l hl y hy
        rw [← isPhi_shape, ← hshape, isPhi_shape]
        exact hphis x hx
      · have hin := hok hW
        rw [hexact hW]
        refine ⟨fun p hp => ((hin.typed p hp).mono hz₀.le hf).1, fun p hp => ?_, hin.sources, fun j => ?_,
          fun p hp x d hx hd => ?_⟩
        · obtain ⟨js, u, -, hknown⟩ := h.known _ _ (hin.known p hp)
          exact ⟨_, hknown⟩
        · rw [← hin.preds j]
          exact ⟨fun hj => (hz₀.preds j _ (Builder.lt_of_body hi) hj).resolve_left hW, hz₀.leads⟩
        · cases his : is with
          | nil =>
            subst his
            cases (hat x).1 hx ▸ hd
            have := (hin.typed p (List.mem_of_head? hp) (hz₀.fits hf)).2
            have := hr.index (hz.fits hf)
            omega
          | cons x₀ rest =>
            obtain ⟨x', hx', -, hshape⟩ := hearly 0 (by simp [his]) x hx
            refine hin.first (hz₀.fits hf) p hp x' hx' d ?_
            rw [← dst?_shape, hshape, dst?_shape, hd]
    · cases (hat y).1 hy ▸ hd
      have := hr.index (hz.fits hf)
      have := hr.count
      omega
    · cases (hat _).1 hy
    · rintro i ν (hν | ⟨rfl, rfl⟩)
      · exact .inl hν
      · refine .inr ⟨⟨_, _, hlast, .inr ⟨is.length, by simp, _, (hat _).2 rfl, rfl⟩⟩, fun hf => ?_⟩
        obtain ⟨N, hN, hreached⟩ := h.reached hf _ μ hS
        exact ⟨N, Nat.le_trans hN he.le.regCount, hreached⟩
  exact hknown

/-- Control from some blocks meets, after it has left `b₀`. -/
structure Met (b₀ b : Builder) (ids : List BlockId) : Prop extends b.Sane where
  start : b.here ≠ 0
  nothing : b.body b.here = some ([], none)
  preds : ∀ k, b.body.Leads k b.here ↔ ∃ s ∈ ids, s.index.toNat = k
  apart : (ids.map fun s => s.index.toNat).Nodup
  passed : ∀ is, b₀.body b₀.here = some (is, none) → ∃ u, b.body b₀.here = some (is, some u)

theorem Met.plain (h : Met b₀ b ids) (hf : Frame b b') : Plain b₀ b' := by
  intro is hi
  obtain ⟨u, hu⟩ := h.passed is hi
  refine ⟨[], some u, ?_, by simp⟩
  rw [hf.same _ (Builder.lt_of_body hu) fun heq => ?_, hu, List.append_nil]
  rw [heq, h.nothing] at hu
  cases hu

/-- The value of an expression comes from the blocks that meet. -/
theorem Onward.meet (ho : Onward J n st b₀ S₀ b S) (hE : Env J V b S)
    (hgoes : Goes J [] b.Sane (Met b b' [x, y]) b S b' S')
    (hkept : Kept b b') (hc : b'.current.isSome = true) (hcount : b'.blocks.size ≤ b.blocks.size + 3 * m)
    (hn : n + m ≤ k) (hty : J.ctx.Formed → ty.Formed) (h : S' x.index.toNat (.reg r)) (ht : J.Typed b' r ty)
    (h' : S' y.index.toNat (.reg q)) (ht' : J.Typed b' q ty) :
    (define ty (.phi [(x, r), (y, q)])).Gives J.total b' (Yields J k False b₀ S₀ ty) := by
  obtain ⟨c, hid⟩ := Option.isSome_iff_exists.1 hc
  obtain ⟨d, b'', hrun, hr, he, hslots⟩ := define_emitted ty (.phi [(x, r), (y, q)]) hid
  have hE' : Env J V b' S' := hE.move hgoes.le hkept (hgoes.carried hc)
  obtain ⟨μ, hμ⟩ := hE'.here
  have hphi : Goes J [] (Met b b' [x, y]) b''.Sane b' S' b'' (S'.with b'.here (.reg d)) := by
    refine .emitted he hc (fun hf => hr.tabled (hty hf)) (fun _ _ => .inl) Met.toSane fun hroom hm is W _ hi => ?_
    cases hm.nothing.symm.trans hi
    refine .phi hi (by simp) hμ he hr hm.start (hE'.fresh hr he.le) fun _ => ⟨?_, ?_, ?_, fun j => ?_, by simp⟩
    · simpa using ⟨ht, ht'⟩
    · simpa using ⟨h, h'⟩
    · simpa using hm.apart
    · simp [hm.preds]
  have hgoes' := hgoes.trans hphi (List.Subset.refl _) fun _ => hc
  refine .of_ok hrun ⟨_, ⟨ho.toGoes.trans hgoes' (List.Subset.refl _) fun _ => ho.going,
    ho.toKept.trans (hkept.trans ⟨he.values, hslots, he.loops⟩), he.current ▸ hc, ?_, fun hroom hs => ?_, nofun⟩,
    .inr ⟨he.here, rfl⟩, .new hr⟩
  · have := ho.count
    have := he.size
    omega
  · have hroom' := Nat.le_trans hgoes'.le.blockCount hroom
    have hs := ho.kept hroom' ‹_›
    have hm := hgoes.kept (Nat.le_trans he.le.blockCount hroom) hs
    exact (ho.plain hroom' ‹_›).trans (hm.plain (hphi.frame hroom hm))
      (hgoes'.frame hroom hs) ho.le (hs.live ho.going)

theorem shortCircuit_computes (hl : Computes J V .bool n st lhs) (hr : Computes J V .bool m st' rhs)
    (hback : J.back ∨ st') : Computes J V .bool (n + m + 1) False (shortCircuit isAnd lhs rhs) := by
  intro b₀ S₀ hE hc
  refine .bind (hl b₀ S₀ hE hc) ?_
  rintro a b ⟨S, ho, ha⟩
  refine .current (fun _ => ho.going) fun l hl => ?_
  refine fork_gives hl (u := fun x y => if isAnd then .branch a x y else .branch a y x) fun x y b₁ hk => ?_
  obtain ⟨b₂, hrun, h₂, hk₂⟩ := moveTo_moved (some x) b₁
  have hE₂ : Env J V b₂ (S.also b₂.here (S b.here)) :=
    (ho.env hE).move (hk.le.trans h₂.le) (hk.toKept.trans hk₂) fun μ hμ => .inr ⟨rfl, hμ⟩
  refine .run hrun (.bind (hr _ _ hE₂ (by rw [h₂.current]; rfl)) ?_)
  rintro c b₃ ⟨S₃, ho₃, hc₃⟩
  refine .current (fun _ => ho₃.going) fun l' hl' => ?_
  obtain ⟨b₄, hrun, h₄⟩ := terminate_ended l' (.jump y) b₃
  obtain ⟨b₅, hrun', h₅, hk₅⟩ := moveTo_moved (some y) b₄
  refine .run hrun (.run hrun' ?_)
  have hle₃ : b.Le b₃ := (hk.le.trans h₂.le).trans ho₃.le
  have hle₅ : b₃.Le b₅ := h₄.le.trans h₅.le
  have hkept := (hk.toKept.trans hk₂).trans (ho₃.toKept.trans (h₄.toKept.trans hk₅))
  have hgoing : b₅.current.isSome = true := by rw [h₅.current]; rfl
  have hgoes : Goes J [] b.Sane (Met b b₅ [l, l']) b S b₅
      (S₃.also b₅.here (S b.here)) := by
    refine .of (hle₃.trans hle₅) (fun hf ht => ?_) (fun i μ hμ => .inl (ho₃.sub i μ (.inl hμ)))
      (fun _ μ hμ => .inr ⟨rfl, hμ⟩) ?_
    · exact h₅.tabled (h₄.tabled (ho₃.tabled hf (h₂.tabled (hk.tabled ht))))
    intro hroom hs
    have hn₁ := hk.size
    have hn₂ := h₂.size
    have hn₃ := ho₃.le.blockCount
    have hn₄ := h₄.size
    have hn₅ := h₅.size
    obtain ⟨is, hi⟩ := hs.live ho.going
    have hlt := Builder.lt_of_body hi
    have hx := hk.left (by omega)
    have hy := hk.right (by omega)
    have hhere₂ := here_eq h₂.current
    have hhere₅ := here_eq h₅.current
    have hu : ∀ s ∈ (if isAnd then Terminator.branch a x y else .branch a y x).successors, s = x ∨ s = y := by
      cases isAnd <;> simp [Terminator.successors, or_comm]
    have hx₁ : ∃ s ∈ (if isAnd then Terminator.branch a x y else .branch a y x).successors,
      s.index.toNat = x.index.toNat := ⟨x, by cases isAnd <;> simp [Terminator.successors], rfl⟩
    have hy₁ : ∃ s ∈ (if isAnd then Terminator.branch a x y else .branch a y x).successors,
      s.index.toNat = y.index.toNat := ⟨y, by cases isAnd <;> simp [Terminator.successors], rfl⟩
    have hb₁ := hk.body is hi
    have hleads₁ := fun i j => hk.leads (i := i) (j := j) hi
    have hs₂ : b₂.Sane := by
      refine ⟨fun _ => ⟨[], ?_⟩, fun i j hl => ?_⟩
      · rw [h₂.body, hb₁, hhere₂]
        grind [Body.set]
      · rw [h₂.size]
        exact hk.closed (by omega) hs hi hu (h₂.body ▸ hl)
    have hs₃ := ho₃.kept (by omega) hs₂
    obtain ⟨is₃, hi₃⟩ := hs₃.live ho₃.going
    have hf₃ := ho₃.frame (by omega) hs₂
    have hnext := hf₃.next
    have hb₄ := h₄.body is₃ (here_eq hl' ▸ hi₃)
    have hleads₄ : ∀ i j, b₄.body.Leads i j ↔ (i = l'.index.toNat ∧ y.index.toNat = j) ∨ b₃.body.Leads i j := by
      simpa [Terminator.successors] using fun i j => h₄.leads (i := i) (j := j) (here_eq hl' ▸ hi₃)
    have hleads₃ : ∀ i, b₃.body.Leads i y.index.toNat ↔ b₁.body.Leads i y.index.toNat := fun i => by
      rw [ho₃.leads_iff (by omega) hs₂ (by simp) (by omega) (by simp), h₂.body]
    have hsame := hf₃.same
    have hrests := hf₃.rests
    have hclosed := hs.closed
    have hclosed₃ := hs₃.closed
    rw [h₂.body] at hsame
    have hhere := here_eq hl
    have hhere₃ := here_eq hl'
    simp only [funext_iff, Body.set] at hb₁ hb₄
    refine ⟨⟨fun i hi hne => ?_, fun i js hj => ?_, .inr ?_⟩,
      ⟨⟨fun _ => ⟨[], ?_⟩, fun i j hl => ?_⟩, ?_, ?_, fun i => ?_, ?_, fun js hj => ?_⟩, fun W hW _ => ?_⟩
    · rw [h₅.body]
      grind
    · rw [h₅.body] at hj
      grind
    · omega
    · rw [h₅.body]
      grind
    · rw [h₅.body] at hl
      grind
    · omega
    · rw [h₅.body]
      grind
    · rw [h₅.body, hhere₅]
      grind
    · grind
    · cases hi.symm.trans hj
      exact ⟨if isAnd then .branch a x y else .branch a y x, by rw [h₅.body]; grind⟩
    · have hhere := here_eq hl
      have hreads : Step.Reads J b S b.here (if isAnd then .branch a x y else .branch a y x) := by
        cases isAnd <;> exact ha
      refine (hk.steps (by omega) hi ha.1 hreads hu W hW).trans
        ((Step.start (fun i => W i ∨ i = y.index.toNat) ?_ h₂ ?_ ?_ ?_ ?_ ?_).trans
        ((ho₃.step (by omega) hs₂ _ ?_ (by simp)).trans
        ((Step.ended h₄.le (here_eq hl' ▸ hi₃) (h₄.body is₃ (here_eq hl' ▸ hi₃))
        (here_eq hl' ▸ hc₃.1) trivial ?_ ?_).trans
          (Step.start _ ?_ h₅ ?_ ?_ ?_ ?_ ?_))))
      · grind
      · grind
      · grind
      · grind
      · exact ⟨b.here, by omega, (hleads₁ _ _).2 (.inl ⟨rfl, hx₁⟩), _, ha.1⟩
      · grind
      · grind
      · simp [Terminator.successors]
        omega
      · simp only [Terminator.successors, List.mem_singleton, forall_eq]
        intro hle
        rcases hback with hback | hst
        · exact ⟨hback, .inl ⟨_, ho₃.le.labels _ _ (h₂.le.labels _ _ (hy ▸ hk.label)), .inl rfl⟩⟩
        · have := here_eq ((ho₃.straight hst).trans h₂.current)
          omega
      · grind
      · exact fun i hi => .inl hi
      · grind
      · exact fun i hi => hi
      · exact ⟨b.here, by omega, (hleads₄ _ _).2 (.inr ((hleads₃ _).2 ((hleads₁ _ _).2 (.inl ⟨rfl, hy₁⟩)))), _,
          ho₃.sub _ _ (.inl ha.1)⟩
      · intro s hs μ hμ
        have := ho₃.carried ho₃.going μ (.inr ⟨rfl, hμ⟩)
        have := ho₃.sub _ _ (.inl hμ)
        grind
  have ha₃ : S₃ l.index.toNat (.reg a) := ho₃.sub _ _ (.inl (here_eq hl ▸ ha.1))
  have hc₃' : S₃ l'.index.toNat (.reg c) := here_eq hl' ▸ hc₃.1
  refine ho.meet (m := m + 1) (ho.env hE) hgoes hkept hgoing ?_ (by omega)
    (fun _ => Ty.formed_ofKind .bool) (.inl ha₃)
    (ha.2.mono (hle₃.trans hle₅)) (.inl hc₃') (hc₃.2.mono hle₅)
  have := hk.size
  have := ho₃.count
  have := h₄.size
  have := h₅.size
  have := h₂.size
  omega

/-! ## Two arms -/

/-- Blocks get a jump to `j` as their end. -/
structure Ends (j : BlockId) (ids : List BlockId) (b b' : Builder) : Prop extends Steady b b' where
  tabled : b.Tabled → b'.Tabled
  size : b'.blocks.size = b.blocks.size
  ended : (ids.map fun s => s.index.toNat).Nodup → (∀ s ∈ ids, ∃ is, b.body s.index.toNat = some (is, none)) →
    (∀ i, i ∉ ids.map (fun s => s.index.toNat) → b'.body i = b.body i) ∧
    (∀ s ∈ ids, ∃ is, b.body s.index.toNat = some (is, none) ∧
    b'.body s.index.toNat = some (is, some (.jump j))) ∧
    ∀ {J W S}, j.index.toNat < b.blocks.size → W j.index.toNat →
      (∀ s ∈ ids, (j.index.toNat ≤ s.index.toNat → J.back ∧ S s.index.toNat (.block j.index.toNat)) ∧
      ∃ μ, S s.index.toNat μ) → Step J W b S W b' S

theorem ends (j : BlockId) (ids : List BlockId) (b : Builder) :
    ∃ b', (ids.forM fun s => terminate s (.jump j)) b = .ok ((), b') ∧ Ends j ids b b' := by
  induction ids generalizing b with
  | nil =>
    exact ⟨b, rfl, ⟨⟨⟨rfl, rfl, rfl⟩, .refl b, rfl⟩, fun h => h, rfl, fun _ _ =>
      ⟨fun _ _ => rfl, by simp, fun _ _ _ => .tables (.refl b) rfl⟩⟩⟩
  | cons s ids ih =>
    obtain ⟨b₁, hrun, h₁⟩ := terminate_ended s (.jump j) b
    obtain ⟨b₂, hrun', h₂⟩ := ih b₁
    refine ⟨b₂, bind_ok.2 ⟨_, _, hrun, hrun'⟩,
      ⟨⟨h₁.toKept.trans h₂.toKept, h₁.le.trans h₂.le, h₂.current.trans h₁.current⟩,
      fun h => h₂.tabled (h₁.tabled h), h₂.size.trans h₁.size, fun hnodup hopen => ?_⟩⟩
    simp only [List.map_cons, List.nodup_cons, List.mem_map, not_exists, not_and] at hnodup
    obtain ⟨is, hi⟩ := hopen s (List.mem_cons_self ..)
    have hb₁ := h₁.body is hi
    have hold : ∀ q ∈ ids, b₁.body q.index.toNat = b.body q.index.toNat := fun q hq => by
      rw [hb₁, Body.set_of_ne (hnodup.1 q hq)]
    obtain ⟨hothers, hended, hstep⟩ := h₂.ended hnodup.2 fun q hq =>
      hold q hq ▸ hopen q (List.mem_cons_of_mem _ hq)
    have hs₂ : b₂.body s.index.toNat = some (is, some (.jump j)) := by
      rw [hothers _ (by simpa using hnodup.1), hb₁, Body.set_self]
    refine ⟨fun i hi => ?_, fun q hq => ?_, fun {J W S} hj hW hS => ?_⟩
    · simp only [List.map_cons, List.mem_cons, not_or] at hi
      rw [hothers i hi.2, hb₁, Body.set_of_ne hi.1]
    · rcases List.mem_cons.1 hq with rfl | hq
      · exact ⟨is, hi, hs₂⟩
      · obtain ⟨js, hj, hj'⟩ := hended q hq
        exact ⟨js, hold q hq ▸ hj, hj'⟩
    · obtain ⟨horder, μ, hμ⟩ := hS s (List.mem_cons_self ..)
      refine (Step.ended h₁.le hi hb₁ hμ trivial ?_ ?_).trans (hstep (h₁.size ▸ hj) hW fun q hq =>
        hS q (List.mem_cons_of_mem _ hq))
      · simpa [Terminator.successors] using ⟨hj, hW⟩
      · simp only [Terminator.successors, List.mem_singleton, forall_eq]
        exact fun hle => (horder hle).imp_right .inr

theorem Ends.leads (h : Ends j ids b b') (hnodup : (ids.map fun s => s.index.toNat).Nodup)
    (hopen : ∀ s ∈ ids, ∃ is, b.body s.index.toNat = some (is, none)) (i k : Nat) : b'.body.Leads i k ↔
    (i ∈ ids.map (fun s => s.index.toNat) ∧ k = j.index.toNat) ∨ b.body.Leads i k := by
  obtain ⟨hothers, hended, -⟩ := h.ended hnodup hopen
  by_cases hi : i ∈ ids.map (fun s => s.index.toNat)
  · obtain ⟨s, hs, rfl⟩ := List.mem_map.1 hi
    obtain ⟨is, hi, hi'⟩ := hended s hs
    have := not_leads_open (j := k) hi
    simp [Body.Leads, hi', Terminator.successors]
    grind
  · simp [Body.Leads, hothers i hi, hi]

/-- Two arms have been lowered: `b'` is where the first ends, and `b''` where the second does. -/
structure Armed (b b' b'' : Builder) : Prop where
  same : ∀ i < b.blocks.size, i ≠ b.here → b''.body i = b.body i
  rests : ∀ i is, b''.body i = some (is, none) → (b'.current.isSome = true ∧ i = b'.here) ∨
    (b''.current.isSome = true ∧ i = b''.here) ∨ (i < b.blocks.size ∧ i ≠ b.here)
  first : b'.current.isSome = true → ∃ is, b''.body b'.here = some (is, none)
  sane : b''.Sane
  new : b.blocks.size ≤ b'.here ∧ b.blocks.size ≤ b''.here
  apart : b'.current.isSome = true → b'.here ≠ b''.here
  passed : ∀ is, b.body b.here = some (is, none) → ∃ u, b''.body b.here = some (is, some u)

theorem arms (hk : Forked stem b (.branch c x y) x y b₁) (h₂ : Moved (some x) b₁ b₂)
    (g₃ : Goes J L G₂ G₃ b₂ (S.also b₂.here (S b.here)) b₃ S₃) (h₄ : Moved (some y) b₃ b₄)
    (g₅ : Goes J L G₄ G₅ b₄ (S₃.also b₄.here (S b.here)) b₅ S₅) (hG₂ : b₂.Sane → G₂) (hG₃ : G₃ → b₃.Sane)
    (hG₄ : G₃ → b₄.Sane → G₄) (hG₅ : G₅ → b₅.Sane) (hroom : b₅.blocks.size ≤ 2 ^ 32) (hs : b.Sane)
    (hcur : b.current.isSome = true) (hc : Has J b S c .bool) (hL : ∀ i ∈ L, i < b.blocks.size) :
    Armed b b₃ b₅ ∧ G₅ ∧ ∀ W : Nat → Prop, (∀ i, W i → i < b.blocks.size) → (∀ i ∈ L, W i) →
      Step J W b S W b₅ S₅ := by
  have hn₁ := hk.size
  have hn₂ := h₂.size
  have hn₃ := g₃.le.blockCount
  have hn₄ := h₄.size
  have hn₅ := g₅.le.blockCount
  obtain ⟨is, hi⟩ := hs.live hcur
  have hlt := Builder.lt_of_body hi
  have hx := hk.left (by omega)
  have hy := hk.right (by omega)
  have hhere₂ := here_eq h₂.current
  have hhere₄ := here_eq h₄.current
  have hb₁ := hk.body is hi
  have hleads₁ := fun i j => hk.leads (i := i) (j := j) hi
  have hs₂ : b₂.Sane := by
    refine ⟨fun _ => ⟨[], ?_⟩, fun i j hl => ?_⟩
    · rw [h₂.body, hb₁, hhere₂]
      grind [Body.set]
    · rw [h₂.size]
      exact hk.closed (by omega) hs hi (by simp [Terminator.successors]) (h₂.body ▸ hl)
  have hg₃ := g₃.kept (by omega) (hG₂ hs₂)
  have hs₃ := hG₃ hg₃
  have hf₃ := g₃.frame (by omega) (hG₂ hs₂)
  have hy₃ : b₃.body y.index.toNat = some ([], none) := by
    rw [hf₃.same _ (by omega) (by omega), h₂.body, hb₁]
    grind [Body.set]
  have hs₄ : b₄.Sane := ⟨fun _ => ⟨[], by rw [h₄.body, hhere₄, hy₃]⟩, fun i j hl => by
    rw [h₄.size]
    exact hs₃.closed i j (h₄.body ▸ hl)⟩
  have hg₄ := hG₄ hg₃ hs₄
  have hg₅ := g₅.kept hroom hg₄
  have hf₅ := g₅.frame hroom hg₄
  have hnot : y.index.toNat ∉ L := fun hmem => by
    have := hL _ hmem
    omega
  have hleads₃ : ∀ i, b₃.body.Leads i y.index.toNat ↔ b₁.body.Leads i y.index.toNat := fun i => by
    rw [g₃.leads_iff (by omega) (hG₂ hs₂) (by grind) (by omega) hnot, h₂.body]
  have hlive₃ : b₃.current.isSome = true → b₃.here < b₃.blocks.size := fun h =>
    (hs₃.live h).elim fun _ => Builder.lt_of_body
  have hnext₃ := hf₃.next
  have hnext₅ := hf₅.next
  have hsame₃ := hf₃.same
  have hsame₅ := hf₅.same
  have hrests₃ := hf₃.rests
  have hrests₅ := hf₅.rests
  have hclosed := hs.closed
  rw [h₂.body] at hsame₃
  rw [h₄.body] at hsame₅
  refine ⟨⟨fun i hi hne => ?_, fun i js hj => ?_, fun h => ?_, hG₅ hg₅, by omega, fun h => ?_, fun js hj => ?_⟩,
    hg₅, fun W hW hLW => ?_⟩
  · rw [hsame₅ i (by omega) (by omega), hsame₃ i (by omega) (by omega), hb₁]
    grind [Body.set]
  · rcases hrests₅ i js hj with rfl | ⟨hlt₄, hne₄⟩
    · exact .inr (.inl ⟨isSome_of_body hj, rfl⟩)
    rw [hsame₅ i hlt₄ hne₄] at hj
    rcases hrests₃ i js hj with rfl | ⟨hlt₂, hne₂⟩
    · exact .inl ⟨isSome_of_body hj, rfl⟩
    rw [hsame₃ i hlt₂ hne₂, hb₁] at hj
    grind [Body.set]
  · obtain ⟨js, hj⟩ := hs₃.live h
    exact ⟨js, by rw [hsame₅ _ (by have := hlive₃ h; omega) (by omega), hj]⟩
  · have := hlive₃ h
    omega
  · cases hi.symm.trans hj
    exact ⟨_, by rw [hsame₅ _ (by omega) (by omega), hsame₃ _ (by omega) (by omega), hb₁, Body.set_self]⟩
  · have hsub : ∀ i μ, S i μ → S₃ i μ := fun i μ hμ => g₃.sub i μ (.inl hμ)
    refine (hk.steps (by omega) hi hc.1 hc (by simp [Terminator.successors]) W hW).trans
      ((Step.start (fun i => W i ∨ i = y.index.toNat) ?_ h₂ ?_ ?_ ?_ ?_ ?_).trans
      ((g₃.step (by omega) (hG₂ hs₂) _ ?_ ?_).trans
      ((Step.start W hy₃ h₄ ?_ ?_ ?_ ?_ ?_).trans (g₅.step hroom hg₄ W ?_ hLW))))
    · rw [hb₁]
      grind [Body.set]
    · grind
    · grind
    · grind
    · exact ⟨b.here, by omega, (hleads₁ _ _).2 (.inl ⟨rfl, x, by simp [Terminator.successors], rfl⟩), _, hc.1⟩
    · grind
    · grind
    · exact fun i hi => .inl (hLW i hi)
    · grind
    · grind
    · grind
    · exact ⟨b.here, by omega,
        (hleads₃ _).2 ((hleads₁ _ _).2 (.inl ⟨rfl, y, by simp [Terminator.successors], rfl⟩)), _, hsub _ _ hc.1⟩
    · grind
    · grind

/-- The arms that control gets to the end of meet in a new block. -/
theorem Armed.meet (h : Armed b b₃ b₅) (h₆ : Opened stem b₅ j b₆) (h₇ : Ends j ids b₆ b₇)
    (h₈ : Moved (some j) b₇ b₈) (hids : ∀ i, i ∈ ids.map (fun s => s.index.toNat) ↔
    (b₃.current.isSome = true ∧ i = b₃.here) ∨
      (b₅.current.isSome = true ∧ i = b₅.here)) (hnodup : (ids.map fun s => s.index.toNat).Nodup) (hne : ids ≠ [])
    (hroom : b₈.blocks.size ≤ 2 ^ 32) (hcount : b.blocks.size ≤ b₅.blocks.size)
      (hS : ∀ s ∈ ids, ∃ μ, S s.index.toNat μ)
    (hp : ∀ s ∈ ids, ∀ μ, p μ → S s.index.toNat μ) : Frame b b₈ ∧ Met b b₈ ids ∧
      ∀ W, (∀ i, W i → i < b.blocks.size) → Step J W b₅ S W b₈ (S.also b₈.here p) := by
  have hn₆ := h₆.size
  have hn₇ := h₇.size
  have hn₈ := h₈.size
  have hj := h₆.index (by omega)
  have hhere₈ := here_eq h₈.current
  have hb₆ := h₆.body
  have hopen : ∀ s ∈ ids, ∃ is, b₅.body s.index.toNat = some (is, none) := by
    intro s hs
    rcases (hids _).1 (List.mem_map_of_mem hs) with ⟨hc, heq⟩ | ⟨hc, heq⟩
    · exact heq ▸ h.first hc
    · exact heq ▸ h.sane.live hc
  have hlt : ∀ s ∈ ids, s.index.toNat < b₅.blocks.size :=
    fun s hs => (hopen s hs).elim fun _ => Builder.lt_of_body
  have hopen₆ : ∀ s ∈ ids, b₆.body s.index.toNat = b₅.body s.index.toNat := fun s hs => by
    rw [hb₆, Body.set_of_ne (Nat.ne_of_lt (hlt s hs))]
  obtain ⟨hothers₇, hended, hstep⟩ := h₇.ended hnodup fun s hs => hopen₆ s hs ▸ hopen s hs
  have hothers : ∀ i, i ∉ ids.map (fun s => s.index.toNat) → i ≠ b₅.blocks.size → b₇.body i = b₅.body i :=
    fun i hi hne => by
    rw [hothers₇ i hi, hb₆, Body.set_of_ne hne]
  have hnew : b₇.body b₅.blocks.size = some ([], none) := by
    rw [hothers₇ _ (by grind), hb₆, Body.set_self]
  have hleads : ∀ i k, b₇.body.Leads i k ↔ (i ∈ ids.map (fun s => s.index.toNat) ∧ k = j.index.toNat) ∨
    b₅.body.Leads i k := by
    intro i k
    rw [h₇.leads hnodup (fun s hs => hopen₆ s hs ▸ hopen s hs), hb₆, leads_set]
    have : ¬b₅.body.Leads b₅.blocks.size k := by
      rintro ⟨js, v, hv, -⟩
      have := Builder.lt_of_body hv
      omega
    grind
  have hsame := h.same
  have hrests := h.rests
  have := h.new
  have hclosed := h.sane.closed
  obtain ⟨s, hs⟩ := List.exists_mem_of_ne_nil _ hne
  refine ⟨⟨fun i hi hne => ?_, fun i js hj => ?_, .inr ?_⟩,
    ⟨⟨fun _ => ⟨[], ?_⟩, fun i k hl => ?_⟩, ?_, ?_, fun i => ?_, hnodup, fun js hj => ?_⟩, fun W hW => ?_⟩
  · rw [h₈.body, hothers i (by grind) (by omega), hsame i hi hne]
  · rw [h₈.body] at hj
    grind
  · omega
  · rw [h₈.body, hhere₈, hj, hnew]
  · rw [h₈.body] at hl
    grind
  · have := hlt s hs
    omega
  · rw [h₈.body, hhere₈, hj, hnew]
  · rw [h₈.body, hhere₈, hleads]
    grind
  · obtain ⟨u, hu⟩ := h.passed js hj
    have := Builder.lt_of_body hu
    exact ⟨u, by rw [h₈.body, hothers _ (by grind) (by omega), hu]⟩
  · refine (Step.opened (fun i => W i ∨ i = j.index.toNat) h₆ ?_ ?_).trans
      ((hstep ?_ ?_ ?_).trans (Step.start _ ?_ h₈ ?_ ?_ ?_ ?_ ?_))
    · grind
    · grind
    · omega
    · grind
    · grind
    · rw [hj, hnew]
    · grind
    · grind
    · grind
    · exact ⟨s.index.toNat, by grind, (hleads _ _).2 (.inl ⟨List.mem_map_of_mem hs, rfl⟩), hS s hs⟩
    · grind

theorem select_computes {test : Build Reg} (hty : J.ctx.Formed → ty.Formed) (htest : Computes J V .bool n st test)
    (hthen : Computes J V ty m st' thenArm) (helse : Computes J V ty k st'' elseArm) :
    Computes J V ty (n + (m + k) + 1) False (select ty test thenArm elseArm) := by
  intro b₀ S₀ hE hc
  refine .bind (htest b₀ S₀ hE hc) ?_
  rintro c b ⟨S, ho, hc⟩
  refine .current (fun _ => ho.going) fun l hl => fork_gives hl fun x y b₁ hk => ?_
  obtain ⟨b₂, hrun, h₂, hk₂⟩ := moveTo_moved (some x) b₁
  have hE₂ : Env J V b₂ (S.also b₂.here (S b.here)) :=
    (ho.env hE).move (hk.le.trans h₂.le) (hk.toKept.trans hk₂) fun μ hμ => .inr ⟨rfl, hμ⟩
  refine .run hrun (.bind (hthen _ _ hE₂ (by rw [h₂.current]; rfl)) ?_)
  rintro p b₃ ⟨S₃, ho₃, hp⟩
  refine .current (fun _ => ho₃.going) fun l₃ hl₃ => ?_
  obtain ⟨b₄, hrun, h₄, hk₄⟩ := moveTo_moved (some y) b₃
  have hle₃ := (hk.le.trans h₂.le).trans ho₃.le
  have hkept₄ := ((hk.toKept.trans hk₂).trans ho₃.toKept).trans hk₄
  have hE₄ : Env J V b₄ (S₃.also b₄.here (S b.here)) :=
    (ho.env hE).move (hle₃.trans h₄.le) hkept₄ fun μ hμ => .inr ⟨rfl, hμ⟩
  refine .run hrun (.bind (helse _ _ hE₄ (by rw [h₄.current]; rfl)) ?_)
  rintro q b₅ ⟨S₅, ho₅, hq⟩
  refine .current (fun _ => ho₅.going) fun l₅ hl₅ => ?_
  obtain ⟨j, b₆, hrun, h₆⟩ := newBlock_opened "join" b₅
  obtain ⟨b₇, hruns, h₇⟩ := ends j [l₃, l₅] b₆
  obtain ⟨_, b', hrun₃, hruns⟩ := bind_ok.1 hruns
  obtain ⟨_, _, hrun₅, hnil⟩ := bind_ok.1 hruns
  obtain ⟨-, rfl⟩ := pure_ok.1 hnil
  obtain ⟨b₈, hrun₈, h₈, hk₈⟩ := moveTo_moved (some j) _
  refine .run hrun (.run hrun₃ (.run hrun₅ (.run hrun₈ ?_)))
  have hle₅ := h₄.le.trans ho₅.le
  have hle₈ := h₆.le.trans (h₇.le.trans h₈.le)
  have hkept := (hkept₄.trans ho₅.toKept).trans (h₆.toKept.trans (h₇.toKept.trans hk₈))
  have hgoing : b₈.current.isSome = true := by rw [h₈.current]; rfl
  have hp₅ : S₅ l₃.index.toNat (.reg p) := ho₅.sub _ _ (.inl (here_eq hl₃ ▸ hp.1))
  have hq₅ : S₅ l₅.index.toNat (.reg q) := here_eq hl₅ ▸ hq.1
  have hgoes : Goes J [] b.Sane (Met b b₈ [l₃, l₅]) b S b₈ (S₅.also b₈.here (S b.here)) := by
    refine .of ((hle₃.trans hle₅).trans hle₈) (fun hf ht => ?_)
      (fun i μ hμ => .inl (ho₅.sub i μ (.inl (ho₃.sub i μ (.inl hμ)))))
        (fun _ μ hμ => .inr ⟨rfl, hμ⟩) fun hroom hs => ?_
    · have h₃ := ho₃.tabled hf (h₂.tabled (hk.tabled ht))
      exact h₈.tabled (h₇.tabled (h₆.tabled (ho₅.tabled hf (h₄.tabled h₃))))
    have hroom₅ := Nat.le_trans hle₈.blockCount hroom
    obtain ⟨harmed, -, hstep⟩ := arms hk h₂ ho₃.toGoes h₄ ho₅.toGoes (fun h => h) (fun h => h)
      (fun _ h => h) (fun h => h)
      hroom₅ hs ho.going hc (by simp)
    have hknown : ∀ s ∈ [l₃, l₅], ∀ μ, S b.here μ → S₅ s.index.toNat μ := by
      simp only [List.mem_cons, List.not_mem_nil, or_false, forall_eq_or_imp, forall_eq]
      exact ⟨fun μ hμ => ho₅.sub _ _ (.inl (here_eq hl₃ ▸ ho₃.carried ho₃.going μ (.inr ⟨rfl, hμ⟩))),
        fun μ hμ => here_eq hl₅ ▸ ho₅.carried ho₅.going μ (.inr ⟨rfl, hμ⟩)⟩
    have hapart := harmed.apart ho₃.going
    rw [here_eq hl₃, here_eq hl₅] at hapart
    obtain ⟨hframe, hmeets, hjoin⟩ := harmed.meet (J := J) (S := S₅) (p := S b.here) h₆ h₇ h₈
      (by simp [here_eq hl₃, here_eq hl₅, ho₃.going, ho₅.going]) (by simpa using hapart) (by simp) hroom
      (hle₃.trans hle₅).blockCount (by simpa using ⟨⟨_, hp₅⟩, _, hq₅⟩) hknown
    exact ⟨hframe, hmeets, fun W hW hL => (hstep W hW hL).trans (hjoin W hW)⟩
  refine ho.meet (m := m + k + 1) (ho.env hE) hgoes hkept hgoing ?_ (by omega) hty (.inl hp₅)
    (hp.2.mono (hle₅.trans hle₈))
    (.inl hq₅) (hq.2.mono hle₈)
  have := hk.size
  have := h₂.size
  have := ho₃.count
  have := h₄.size
  have := ho₅.count
  have := h₆.size
  have := h₇.size
  have := h₈.size
  omega

/-! ## Expressions -/

theorem ref_gives {x : LocalId} (hE : Env J V b S) (hc : b.current.isSome = true)
    (hnode : NodeTyped J.ctx V t (.ref x)) (span : Source.Span) :
    (expr (.mk t (.ref x) span)).Gives J.total b (Yields J n st b S t) := by
  obtain ⟨hV, htaken, u, m, rfl, hu, -⟩ := hnode
  refine .reads ?_
  cases hslot : b.slots.lookup x with
  | some addr =>
    obtain ⟨haddr, t, ht, hat⟩ := hE.slots x addr hV hslot
    cases hu.symm.trans ht
    exact .pure ⟨S, .refl hc, haddr, fun hf => ⟨(hat hf).1.same (.inr ⟨u, .mutable, m, rfl, rfl⟩), (hat hf).2⟩⟩
  | none =>
    refine .reads (.refuseAt fun hT => ?_)
    have hlocated := hE.located hT x hV
    unfold Located at hlocated
    rw [if_pos (hE.refs hT x htaken), hslot] at hlocated
    cases hlocated

theorem exprs_gives (hes : ∀ e ∈ es, Computes J V e.ty e.nodes e.Straight (expr e))
    (hst : st → ∀ e ∈ es, e.Straight) (hE : Env J V b S) (hc : b.current.isSome = true) :
    (exprs es).Gives J.total b fun rs b' => ∃ S', Onward J (TExpr.nodesAll es) st b S b' S' ∧
      List.Forall₂ (fun r e => Has J b' S' r e.ty) rs es := by
  induction es generalizing b S with
  | nil => exact .pure ⟨S, .refl hc, .nil⟩
  | cons e es ih =>
    refine .bind (hes e (List.mem_cons_self ..) b S hE hc) ?_
    rintro r b₁ ⟨S₁, ho₁, hr⟩
    refine .bind (ih (fun e he => hes e (List.mem_cons_of_mem _ he))
      (fun h e he => hst h e (List.mem_cons_of_mem _ he)) (ho₁.env hE) ho₁.going) ?_
    rintro rs b₂ ⟨S₂, ho₂, hrs⟩
    exact .pure ⟨S₂, ho₁.trans ho₂ (Nat.le_refl _) fun h => ⟨hst h e (List.mem_cons_self ..), h⟩,
      .cons (hr.onward ho₂) hrs⟩

theorem Computes.mono {x : Build Reg} (h : Computes J V t n st x) (hn : n ≤ m) (hst : st' → st) :
    Computes J V t m st' x :=
  fun b S hE hc => (h b S hE hc).mono fun _ _ hy =>
  (Onward.refl (n := 0) hc).yields hy (by omega) fun h => ⟨h, hst h⟩

theorem expr_computes (e : TExpr) (ht : e.Typed J.ctx V) (hn : e.nodes ≤ J.limit) (hb : J.back ∨ e.Forward) :
    Computes J V e.ty e.nodes e.Straight (expr e) := by
  induction e using TExpr.operandInduction with
  | h t node span ih =>
    have htyped := ht
    obtain ⟨hops, hnode⟩ := ht
    have hnodes : (TExpr.mk t node span).nodes = TExpr.nodesAll node.operands + 1 := by
      rw [← TNode.nodes_eq]
      rfl
    have hop : ∀ e ∈ node.operands, Computes J V e.ty e.nodes e.Straight (expr e) := by
      intro e he
      refine ih e he (hops e he) ?_ (hb.imp_right fun hf => (forward_mk.1 hf).2 e he)
      have := TExpr.nodes_le_nodesAll he
      omega
    by_cases hstrict : node.isStrict = true
    · rw [expr_strict hstrict]
      intro b S hE hc
      have hstraight : (TExpr.mk t node span).Straight → ∀ e ∈ node.operands, e.Straight := fun h =>
        (straight_mk.1 h).2.2
      refine .bind (exprs_gives hop hstraight hE hc) ?_
      rintro rs b₁ ⟨S₁, ho₁, hrs⟩
      have := TExpr.length_le_nodesAll node.operands
      exact .mono (code_gives (ho₁.env hE) ho₁.going hnode hstrict (fun hf => htyped.formed hf)
        (by omega) span hrs)
        fun r b' hy => ho₁.yields hy (by omega) fun h => ⟨h, h⟩
    cases node with
    | var x =>
      exact Computes.mono (n := 0) (fun b S hE hc => read_gives hE hc hnode.1 hnode.2) (Nat.zero_le _) fun h => h
    | ref x => exact fun b S hE hc => ref_gives hE hc hnode span
    | logical isAnd l r =>
      obtain ⟨rfl, hl, hr⟩ := hnode
      have hlhs := hop l (by simp [TNode.operands])
      have hrhs := hop r (by simp [TNode.operands])
      rw [hl] at hlhs
      rw [hr] at hrhs
      refine (shortCircuit_computes hlhs hrhs (hb.imp_right fun hf => (forward_mk.1 hf).1 isAnd l r rfl)).mono
        (Nat.le_refl _) ?_
      exact fun h => (straight_mk.1 h).1 isAnd l r rfl
    | ite c x y =>
      obtain ⟨hc, hx, hy⟩ := hnode
      have hcond := hop c (by simp [TNode.operands])
      have hthen := hop x (by simp [TNode.operands])
      have helse := hop y (by simp [TNode.operands])
      rw [hc] at hcond
      rw [hx] at hthen
      rw [hy] at helse
      refine (select_computes (fun hf => ?_) hcond hthen helse).mono (Nat.le_refl _) fun h =>
        (straight_mk.1 h).2.1 c x y rfl
      exact hx ▸ TExpr.Typed.formed hf (hops x (by simp [TNode.operands]))
    | _ => exact absurd rfl hstrict

end NumericEngine.Lowering
