import NumericEngine.Proofs.Lowering.Joins

/-!
# Code of loops

The header of a loop has a phi for each binding that the body assigns to. Its
inputs are there when the body has been lowered and all edges back to the header
are known; what control brings to the header it brings back to it.
-/

namespace NumericEngine.Lowering

open Ir (Rhs Instr Terminator Body Mark PhiOk)
open Typing (Visible)
open Build

variable {J : Job} {W : Nat → Prop} {b b' b'' : Builder} {S S' S'' : Facts} {V V' : Visible} {n m k N : Nat}
  {source header id : BlockId}
  {phis : List HeaderPhi}

/-! ## The phis of a header -/

/-- The inputs of a phi for the edges back to its header. -/
def HeaderPhi.inputs (edges : List Edge) (p : HeaderPhi) : List (BlockId × Reg) :=
  edges.map fun e => (e.source, (e.values.get? p.binding).getD p.reg)

/-- A phi of a header, with its inputs for the edges that are there. -/
def HeaderPhi.instr (source : BlockId) (init : LocalId → Reg) (edges : List Edge) (p : HeaderPhi) : Instr :=
  .define p.reg (.phi ((source, init p.binding) :: p.inputs edges))

/-- The current block is not the first, and has only phis. -/
structure Heading (b : Builder) : Prop extends b.Sane where
  start : b.here ≠ 0
  phis : ∀ is, b.body b.here = some (is, none) → ∀ x ∈ is, x.isPhi = true

/-- The phis `phis` have been put at the end of the header, which is the current block. -/
structure Headed (J : Job) (source : BlockId) (init : LocalId → Reg) (phis : List HeaderPhi) (b : Builder)
    (S : Facts) (b' : Builder) (S' : Facts) : Prop where
  goes : Goes J [b.here] (Heading b) (Heading b') b S b' S'
  slots : b'.slots = b.slots
  loops : b'.loops = b.loops
  current : b'.current = b.current
  size : b'.blocks.size = b.blocks.size
  body : ∀ is, b.body b.here = some (is, none) →
    b'.body = b.body.set b.here (is ++ phis.map (HeaderPhi.instr source init []), none) ∧
    phis.map HeaderPhi.position = List.range' is.length phis.length
  regs : ∀ p ∈ phis, S' b.here (.reg p.reg) ∧ ∃ t, J.ctx.binding p.binding = some t ∧ J.Typed b' p.reg t ∧
    (b'.Fits → (J.names b').reg p.reg = some t ∧ b.regTypes.size ≤ p.reg.index.toNat)

theorem headerPhis_gives {xs : List LocalId} (init : LocalId → Reg) (hE : Env J V b S)
    (hc : b.current = some header) (hxs : xs.Nodup)
    (hinit : ∀ x ∈ xs, ∀ r, b.values.get? x = some r → init x = r) :
    (headerPhis source header xs).Gives J.total b fun phis b' => ∃ S', Headed J source init phis b S b' S' ∧
    Env J V b' S' ∧
      ∀ p ∈ phis, p.binding ∈ xs ∧ b.values.get? p.binding = some (init p.binding) := by
  induction xs generalizing b S with
  | nil =>
    rw [headerPhis]
    refine .pure ⟨S, ⟨(Goes.tables (.refl b) (fun _ h => h) rfl rfl).change Heading.toSane fun _ h _ => h, rfl,
      rfl, rfl, rfl, fun is hi => ?_, by simp⟩, hE, by simp⟩
    simp [set_eq_self hi]
  | cons x xs ih =>
    rw [List.nodup_cons] at hxs
    rw [headerPhis]
    refine .reads ?_
    cases hget : b.values.get? x with
    | none =>
      refine .mono (ih hE hc hxs.2 fun y hy => hinit y (List.mem_cons_of_mem _ hy)) fun phis b' ⟨S',
        h, hE', hinits⟩ => ?_
      exact ⟨S', h, hE', fun p hp => (hinits p hp).imp_left (List.mem_cons_of_mem _)⟩
    | some r =>
      have hmem := mem_of_lookup hget
      obtain ⟨hr, t, hx, hrt⟩ := hE.values x r hmem
      refine .get (.reads ?_)
      rw [(hE.locals x t hx).1]
      obtain ⟨d, b₁, hrun, hd, he, hslots⟩ := define_emitted t (.phi [(source, r)]) hc
      obtain ⟨b₂, hrun₂, h₂, hb₂⟩ := bind_moved x d b₁
      have hE₁ : Env J V b₁ (S.with b.here (.reg d)) :=
        hE.move he.le ⟨he.values, hslots, he.loops⟩ fun μ hμ => .inl (he.here ▸ hμ)
      have hE₂ : Env J V b₂ (S.with b.here (.reg d)) :=
        hE₁.later h₂.le (hE₁.toScope.bind hx ⟨.inr ⟨he.here, rfl⟩, .new hd⟩ (fun y hy => .inl hy) hb₂)
      have hhere₂ : b₂.here = b.here := (here_congr h₂.current h₂.size).trans he.here
      have hvalues₂ : b₂.values = b.values.set x d := by rw [hb₂, ← he.values]
      refine .run hrun
        (.run hrun₂ (.bind (ih hE₂ (h₂.current.trans (he.current.trans hc)) hxs.2 fun y hy r hr => ?_) ?_))
      · have hne : y ≠ x := fun heq => hxs.1 (heq ▸ hy)
        rw [hvalues₂, Bindings.get?_set, if_neg hne] at hr
        exact hinit y (List.mem_cons_of_mem _ hy) r hr
      rintro rest b₃ ⟨S₃, h₃, hE₃, hinits⟩
      have hinitx := hinit x (List.mem_cons_self ..) r hget
      have hcur : b.current.isSome = true := by rw [hc]; rfl
      have hgoes : Goes J [b.here] (Heading b) (Heading b₂) b S b₂ (S.with b.here (.reg d)) := by
        obtain ⟨μ, hμ⟩ := hE.here
        refine ((Goes.emitted he hcur (fun hf => hd.tabled (hf.binding x t hx))
          (fun _ _ => .inl) Heading.toSane fun _ hh is W hL hi => ?_).trans
          (Goes.tables (L := []) h₂.le (fun _ => h₂.tabled) h₂.blocks h₂.current) (by simp) fun _ =>
          he.current ▸ hcur).change (fun h => h) fun _ hh hs => ⟨hs, hhere₂ ▸ hh.start, fun js hj => ?_⟩
        · exact .phi hi (hh.phis is hi) hμ he hd hh.start (hE.fresh hd he.le) fun hW =>
            absurd (hL _ (List.mem_singleton_self _)) hW
        · obtain ⟨is, hi⟩ := hh.live hcur
          rw [h₂.body, hhere₂, he.body is hi, Body.set_self] at hj
          cases hj
          simpa [or_imp, forall_and] using ⟨hh.phis is hi, rfl⟩
      refine .pure ⟨S₃, ⟨hgoes.trans h₃.goes (by simp [hhere₂]) (fun h => h₃.current ▸ h), h₃.slots.trans ?_,
        h₃.loops.trans ?_, ?_, ?_, fun is hi => ?_, fun p hp => ?_⟩, hE₃, fun p hp => ?_⟩
      · rw [hb₂, hslots]
      · rw [hb₂, he.loops]
      · rw [h₃.current, h₂.current, he.current]
      · rw [h₃.size, h₂.size, he.size]
      · have hbody := he.body is hi
        obtain ⟨hbody₃, hpos⟩ := h₃.body (is ++ [.define d (.phi [(source, r)])])
          (by rw [h₂.body, hhere₂, hbody, Body.set_self])
        refine ⟨?_, ?_⟩
        · rw [hbody₃, h₂.body, hhere₂, hbody, Body.set_set]
          simp [HeaderPhi.instr, HeaderPhi.inputs, hinitx]
        · simp [List.range'_succ] at hpos ⊢
          refine ⟨?_, hpos⟩
          obtain ⟨o, ho, rfl, -⟩ := Builder.body_eq_some.1 hi
          rw [← here_eq hc, ho]
          rfl
      · rcases List.mem_cons.1 hp with rfl | hp
        · refine ⟨h₃.goes.sub _ _ (.inr ⟨rfl, rfl⟩), t, hx,
            (Job.Typed.new hd).mono (h₂.le.trans h₃.goes.le), fun hf => ?_⟩
          have hf₁ := (h₂.le.trans h₃.goes.le).fits hf
          exact ⟨((h₂.le.trans h₃.goes.le).context _ _).reg _ _ (hd.reg hf₁ _ _),
            Nat.le_of_eq (hd.index hf₁).symm⟩
        · obtain ⟨hreg, u, hu, hru, hnum⟩ := h₃.regs p hp
          refine ⟨hhere₂ ▸ hreg, u, hu, hru, fun hf => ⟨(hnum hf).1, ?_⟩⟩
          exact Nat.le_trans (he.le.trans h₂.le).regCount (hnum hf).2
      · rcases List.mem_cons.1 hp with rfl | hp
        · exact ⟨List.mem_cons_self .., by rw [hget, hinitx]⟩
        · obtain ⟨hxs', hget'⟩ := hinits p hp
          have hne : p.binding ≠ x := fun heq => hxs.1 (heq ▸ hxs')
          rw [hvalues₂, Bindings.get?_set, if_neg hne] at hget'
          exact ⟨List.mem_cons_of_mem _ hxs', hget'⟩

/-- The phis `phis` of the header have inputs for the edges back to it. -/
structure Closed (source header : BlockId) (init : LocalId → Reg) (edges : List Edge) (phis : List HeaderPhi)
    (b b' : Builder) : Prop extends Steady b b' where
  tabled : b.Tabled → b'.Tabled
  size : b'.blocks.size = b.blocks.size
  body : ∀ is js t, b.body header.index.toNat = some (is ++ phis.map (HeaderPhi.instr source init []) ++ js, t) →
    phis.map HeaderPhi.position = List.range' is.length phis.length →
    b'.body = b.body.set header.index.toNat (is ++ phis.map (HeaderPhi.instr source init edges) ++ js, t)

theorem closePhis_closed (source header : BlockId) (init : LocalId → Reg) (edges : List Edge)
    (phis : List HeaderPhi) (b : Builder) : ∃ b', phis.forM (closePhi header edges) b = .ok ((), b') ∧
    Closed source header init edges phis b b' := by
  induction phis generalizing b with
  | nil =>
    exact ⟨b, rfl, ⟨⟨⟨rfl, rfl, rfl⟩, .refl b, rfl⟩, fun h => h, rfl,
      fun is js t hi _ => by simpa using (set_eq_self hi).symm⟩⟩
  | cons p phis ih =>
    obtain ⟨b', hrun, h⟩ := ih { b with
      blocks := b.blocks.modify header.index.toNat fun o =>
        { o with instrs := o.instrs.modify p.position (extendPhi (p.inputs edges)) } }
    refine ⟨b', bind_ok.2 ⟨(), _, rfl, hrun⟩,
      ⟨⟨⟨h.values, h.slots, h.loops⟩, (Builder.le_modify (by simp) _).trans h.le, h.current⟩,
      fun ht => h.tabled ⟨ht.types, ht.constants, ht.regs, ht.slots⟩, h.size.trans (by simp),
      fun is js t hi hpos => ?_⟩⟩
    simp only [List.map_cons, List.length_cons, List.range'_succ, List.cons.injEq] at hpos
    have hextend : ∀ o : OpenBlock, o.instrs.toList = is ++ (p :: phis).map (HeaderPhi.instr source init []) ++
      js → o.terminator = t →
        (o.instrs.modify p.position (extendPhi (p.inputs edges))).toList =
          is ++ HeaderPhi.instr source init edges p :: phis.map (HeaderPhi.instr source init []) ++ js ∧
          o.terminator = t := by
      intro o ho ht
      refine ⟨?_, ht⟩
      simp [Array.toList_modify, ho, hpos.1, List.modify_eq_take_drop, extendPhi,
        HeaderPhi.instr, HeaderPhi.inputs]
    have hbody := Builder.body_modify (b := b) hi hextend (f := fun o =>
      { o with instrs := o.instrs.modify p.position (extendPhi (p.inputs edges)) })
    rw [h.body (is ++ [HeaderPhi.instr source init edges p]) js t ?_ (by simpa using hpos.2), hbody, Body.set_set]
    · simp
    · rw [hbody, Body.set_self]
      simp

theorem shape_instr (p : HeaderPhi) : shape (p.instr source init edges) = .define p.reg (.phi []) := rfl

/-- The inputs of phis change where more edges are to come. -/
theorem Step.closed (h : Closed source header init edges phis b b')
    (hi : b.body header.index.toNat = some (phis.map (HeaderPhi.instr source init []) ++ js, t))
    (hpos : phis.map HeaderPhi.position = List.range' 0 phis.length) (hW : W header.index.toNat) :
    Step J W b S W b' S := by
  have hbody := h.body [] js t hi hpos
  have hlen : (phis.map (HeaderPhi.instr source init edges) ++ js).length =
    (phis.map (HeaderPhi.instr source init []) ++ js).length := by simp
  refine .of (fun z hz => hz.before h.le hbody (fun is u hu => ?_) (fun _ _ hw => hw) fun v hv s hs _ =>
    ?_) fun z n hz _ _ hs =>
    hs.same h.le ?_ (fun i is u hu => ?_) (fun i is u hu => ?_) fun _ hw => hw
  · cases hi.symm.trans hu
    exact ⟨by simp [Function.comp_def, shape_instr], fun hn => absurd hW hn, fun v hv => ⟨hv, hlen⟩⟩
  · exact .inr ⟨_, v, hv ▸ hi, s, hs, rfl⟩
  · rintro i k ⟨is, u, hu, hk⟩
    rw [hbody] at hu
    rcases Body.set_eq_some hu with ⟨rfl, heq⟩ | ⟨-, hu⟩
    · cases heq
      exact ⟨_, _, hi, by simpa using hk⟩
    · exact ⟨is, u, hu, hk⟩
  · rw [hbody]
    by_cases hik : i = header.index.toNat
    · subst hik
      cases hi.symm.trans hu
      exact ⟨_, _, Body.set_self _ _ _, hlen⟩
    · exact ⟨is, u, by rw [Body.set_of_ne hik, hu], rfl⟩
  · rw [hbody] at hu
    rcases Body.set_eq_some hu with ⟨rfl, heq⟩ | ⟨-, hu⟩
    · cases heq
      exact .inl ⟨_, hi, hlen.symm⟩
    · exact .inl ⟨is, hu, rfl⟩

/-- The phis of a header are in order when all edges to it are there. -/
theorem Step.settle_header {W' : Nat → Prop}
    (hbody : b.body header.index.toNat = some (phis.map (HeaderPhi.instr source init edges) ++ js, t))
    (hjs : ∀ x ∈ js, x.isPhi = false) (hW : ∀ i, W' i → W i) (hrest : ∀ i, W i → W' i ∨ i = header.index.toNat)
    (hheader : ¬W' header.index.toNat) (hregs : ∀ p ∈ phis, ∃ t, J.ctx.binding p.binding = some t ∧
    J.Typed b p.reg t ∧
      (b.Fits → (J.names b).reg p.reg = some t ∧ N ≤ p.reg.index.toNat))
    (hinit : ∀ p ∈ phis, S source.index.toNat (.reg (init p.binding)) ∧ ∃ t, J.ctx.binding p.binding = some t ∧
      J.Typed b (init p.binding) t ∧ (b.Fits → (init p.binding).index.toNat < N))
    (hedges : ∀ e ∈ edges, (∀ p ∈ phis, S e.source.index.toNat (.reg p.reg)) ∧ ∀ x r, (x, r) ∈ e.values →
      S e.source.index.toNat (.reg r) ∧ ∃ t, J.ctx.binding x = some t ∧ J.Typed b r t)
    (hnodup : (source.index.toNat :: edges.map fun e => e.source.index.toNat).Nodup)
    (hpreds : ∀ i, b.body.Leads i header.index.toNat ↔ i = source.index.toNat ∨ ∃ e ∈ edges,
      e.source.index.toNat = i) :
    Step J W b S W' b S := by
  refine .settle hW fun z n hz hs hf i hWi hnew k d incoming ty ⟨is, u, hi, hk⟩ hx hty => ?_
  cases (hrest i hWi).resolve_left hnew
  cases hbody.symm.trans hi
  have hfb := hz.fits hf
  have hat : ∀ l x, z.body.At header.index.toNat l x → l < phis.length → ∃ p ∈ phis,
    x = p.instr source init edges := by
    intro l x hx hl
    have hget : (phis.map (HeaderPhi.instr source init edges) ++ js)[l]? =
      some ((phis[l]).instr source init edges) := by
      rw [List.getElem?_append_left (by simpa using hl)]
      simp [hl]
    exact ⟨phis[l], List.getElem_mem hl, (hz.at_iff hbody hget (.inr hheader)).1 hx⟩
  have hlt : k < phis.length := by
    refine Nat.lt_of_not_le fun hle => ?_
    obtain ⟨y, hy⟩ : ∃ y, js[k - phis.length]? = some y := by
      simp only [List.length_append, List.length_map] at hk
      exact ⟨_, List.getElem?_eq_getElem (by omega)⟩
    have hget : (phis.map (HeaderPhi.instr source init edges) ++ js)[k]? = some y := by
      rw [List.getElem?_append_right (by simpa using hle), List.length_map, hy]
    have heq := (hz.at_iff hbody hget (.inr hheader)).1 hx
    have := hjs y (List.mem_iff_getElem?.2 ⟨_, hy⟩)
    rw [← heq] at this
    cases this
  obtain ⟨p, hp, heq⟩ := hat k _ hx hlt
  cases heq
  obtain ⟨v, hv, hreg, hnum⟩ := hregs p hp
  obtain ⟨hsource, v', hv', hinit, hbelow⟩ := hinit p hp
  obtain rfl : ty = v := Option.some.inj (hty.symm.trans ((hz.le.context _ _).reg _ _ (hnum hfb).1))
  obtain rfl : ty = v' := Option.some.inj (hv.symm.trans hv')
  have hin : ∀ q ∈ p.inputs edges, S q.1.index.toNat (.reg q.2) ∧ J.Typed b q.2 ty := by
    intro q hq
    obtain ⟨e, he, rfl⟩ := List.mem_map.1 hq
    cases hget : e.values.get? p.binding with
    | none => exact ⟨(hedges e he).1 p hp, hreg⟩
    | some r =>
      obtain ⟨hr, v, hv'', hrt⟩ := (hedges e he).2 _ r (mem_of_lookup hget)
      cases hv.symm.trans hv''
      exact ⟨hr, hrt⟩
  have hall : ∀ q ∈ (source, init p.binding) :: p.inputs edges, S q.1.index.toNat (.reg q.2) ∧ J.Typed b q.2 ty :=
    List.forall_mem_cons.2 ⟨⟨hsource, hinit⟩, hin⟩
  refine ⟨fun q hq => ((hall q hq).2.mono hz.le hf).1, fun q hq => ?_, ?_, fun i => ?_, fun q hq x d hx hd => ?_⟩
  · obtain ⟨js, v, -, hknown⟩ := (hs n (Nat.le_refl _)).known _ _ (hall q hq).1
    exact ⟨_, hknown⟩
  · simpa [HeaderPhi.inputs, Function.comp_def] using hnodup
  · rw [show z.body.Leads i header.index.toNat ↔ b.body.Leads i header.index.toNat from
      ⟨fun h => (hz.preds i _ (Builder.lt_of_body hbody) h).resolve_left hheader, hz.leads⟩, hpreds]
    simp [HeaderPhi.inputs, eq_comm]
  · cases hq
    obtain ⟨p₀, hp₀, rfl⟩ := hat 0 x hx (Nat.lt_of_le_of_lt (Nat.zero_le _) hlt)
    cases hd
    obtain ⟨_, -, -, hnum₀⟩ := hregs p₀ hp₀
    exact Nat.lt_of_lt_of_le (hbelow hfb) (hnum₀ hfb).2

/-! ## Through the loop -/

/-- Control goes on in a new block. -/
structure Onto (b : Builder) (header : BlockId) (b' : Builder) : Prop extends Kept b b' where
  le : b.Le b'
  tabled : b.Tabled → b'.Tabled
  current : b'.current = some header
  size : b'.blocks.size = b.blocks.size + 1
  index : b'.blocks.size ≤ 2 ^ 32 → header.index.toNat = b.blocks.size
  body : ∀ is, b.body b.here = some (is, none) →
    b'.body = (b.body.set b.blocks.size ([], none)).set b.here (is, some (.jump header))
  steps : ∀ {J S is μ}, b'.blocks.size ≤ 2 ^ 32 → b.body b.here = some (is, none) → S b.here μ → ∀ W : Nat → Prop,
    (∀ i, W i → i < b.blocks.size) → Step J W b S (fun i => W i ∨ i = b.blocks.size) b' S

theorem onto_gives {k : BlockId → Build β} (hid : b.current = some id)
    (hk : ∀ header b', Onto b header b' → (k header).Gives T b' Q) : (do
      let header ← newBlock stem
      terminate id (.jump header)
      moveTo header
      k header).Gives T b Q := by
  obtain ⟨header, b₁, hrun₁, h₁⟩ := newBlock_opened stem b
  obtain ⟨b₂, hrun₂, h₂⟩ := terminate_ended id (.jump header) b₁
  obtain ⟨b₃, hrun₃, h₃, hk₃⟩ := moveTo_moved (some header) b₂
  have hn₁ := h₁.size
  have hn₂ := h₂.size
  have hn₃ := h₃.size
  have hhere := here_eq hid
  have hold : ∀ is, b.body b.here = some (is, none) → b₁.body id.index.toNat = some (is, none) := by
    intro is hi
    have := Builder.lt_of_body hi
    rw [h₁.body, ← hhere, Body.set_of_ne (by omega), hi]
  refine .run hrun₁
    (.run hrun₂ (.run hrun₃ (hk _ _ ⟨(h₁.toKept.trans h₂.toKept).trans hk₃, (h₁.le.trans h₂.le).trans h₃.le,
    fun ht => h₃.tabled (h₂.tabled (h₁.tabled ht)), h₃.current, by omega, fun _ => h₁.index (by omega),
    fun is hi => ?_, fun {J S is μ} hroom hi hS W hW => ?_⟩)))
  · rw [h₃.body, h₂.body is (hold is hi), h₁.body, hhere]
  · have hheader := h₁.index (by omega)
    have := Builder.lt_of_body hi
    refine (Step.opened (fun i => W i ∨ i = b.blocks.size) h₁ ?_ fun i hi => .inl hi).trans
      ((Step.ended h₂.le (hold is hi) (h₂.body is (hold is hi)) (hhere ▸ hS) trivial ?_ ?_).trans
      (.tables h₃.le h₃.body))
    · rintro i hi (hw | rfl)
      · exact hw
      · omega
    · simp [Terminator.successors]
      omega
    · simp only [Terminator.successors, List.mem_singleton, forall_eq]
      omega

theorem openLoop_moved (l : Loop) (i : Option BlockId) (b : Builder) : ∃ b',
    ((modify fun b => { b with loops := l :: b.loops } : Build Unit) >>= fun _ => moveTo i) b = .ok ((), b') ∧
    Moved i b b' ∧
      b'.values = b.values ∧ b'.slots = b.slots ∧ b'.loops = l :: b.loops :=
  ⟨_, rfl, ⟨b.le_of_tables rfl rfl rfl rfl rfl (Nat.le_refl _) fun _ _ h => h, fun h =>
  ⟨h.types, h.constants, h.regs, h.slots⟩,
    rfl, rfl⟩, rfl, rfl, rfl⟩

theorem popLoop_moved (header : BlockId) (hl : b.loops = l :: rest) : ∃ b', popLoop header b = .ok (l, b') ∧
    Moved b.current b b' ∧ b'.values = b.values ∧ b'.slots = b.slots ∧ b'.loops = rest := by
  refine ⟨{ b with loops := rest }, ?_, ⟨b.le_of_tables rfl rfl rfl rfl rfl (Nat.le_refl _) fun _ _ h => h,
    fun h => ⟨h.types, h.constants, h.regs, h.slots⟩, rfl, rfl⟩, rfl, rfl, rfl⟩
  unfold popLoop
  rw [modifyGet_ok, hl]

/-- The block where a condition starts has its end when control has left the condition. -/
theorem Onward.passed (ho : Onward J n st b S b' S') (hk : Forked stem b' u x y b'')
    (hroom : b''.blocks.size ≤ 2 ^ 32) (hs : b.Sane)
    (hi : b.body b.here = some (is, none)) : ∃ js v, b''.body b.here = some (is ++ js, some v) ∧
    ∀ z ∈ js, z.isPhi = false := by
  have := hk.size
  have hs' := ho.kept (by omega) hs
  obtain ⟨is', hi'⟩ := hs'.live ho.going
  obtain ⟨js, v, hv, hjs⟩ := ho.plain (by omega) hs is hi
  have hlt := Builder.lt_of_body hv
  by_cases heq : b'.here = b.here
  · rw [heq] at hi'
    cases hv.symm.trans hi'
    exact ⟨js, u, by rw [hk.body _ (heq ▸ hv), heq, Body.set_self], hjs⟩
  · cases v with
    | none => exact absurd ((ho.frame (by omega) hs).rests _ _ hv) (by omega)
    | some v =>
      refine ⟨js, v, ?_, hjs⟩
      rw [hk.body _ hi', Body.set_of_ne (Ne.symm heq), Body.set_of_ne (by omega), Body.set_of_ne (by omega), hv]

/-- The body of a loop starts at `b'`. Control has come to the header of the loop at `b₀`, with nothing in
it yet. -/
structure Begun (J : Job) (b : Builder) (S : Facts) (header : BlockId) (b₀ : Builder) (S₀ : Facts)
    (is : List Instr) (l exit : BlockId) (b' : Builder) (S' : Facts) : Prop extends b'.Sane where
  head : header.index.toNat = b.blocks.size
  here : b.blocks.size < b'.here ∧ b'.here < exit.index.toNat ∧ exit.index.toNat + 1 = b'.blocks.size
  nothing : b'.body b'.here = some ([], none) ∧ b'.body exit.index.toNat = some ([], none)
  phis : ∃ js v, b'.body header.index.toNat = some (is ++ js, some v) ∧ ∀ x ∈ js, x.isPhi = false
  same : ∀ i < b.blocks.size, i ≠ b.here → b'.body i = b.body i
  rests : ∀ i js, b'.body i = some (js, none) → i = b'.here ∨ i = exit.index.toNat ∨
    (i < b.blocks.size ∧ i ≠ b.here)
  back : ∀ i, b'.body.Leads i header.index.toNat ↔ i = b.here
  out : ∀ i, b'.body.Leads i exit.index.toNat ↔ i = l.index.toNat
  leads : ∀ i, ∀ j < b.blocks.size, b'.body.Leads i j ↔ b.body.Leads i j
  early : b'.Early exit.index.toNat
  before : b₀.body header.index.toNat = some ([], none) ∧ b₀.body.Leads b.here header.index.toNat
  enters : ∀ W : Nat → Prop, (∀ i, W i → i < b.blocks.size) →
    Step J W b S (fun i => W i ∨ i = header.index.toNat) b₀ S
  starts : ∀ W : Nat → Prop, (∀ i, W i → i < b.blocks.size) → Step J (fun i => W i ∨ i = header.index.toNat) b₀ S₀
    (fun i => (W i ∨ i = header.index.toNat) ∨ i = exit.index.toNat) b' S'

theorem begun (h₃ : Onto b header b₃) (h₄ : Headed J source init phis b₃ S₃ b₄ S₄)
    (ho : Onward J n st b₄ S₄ b₅ S₅) (hl : b₅.current = some l) (ht : Has J b₅ S₅ t .bool)
    (hk : Forked "endloop" b₅ (.branch t x exit) x exit b₆) (h₇ : Moved (some x) b₆ b₇)
    (hroom : b₇.blocks.size ≤ 2 ^ 32) (hs : b.Sane) (hcur : b.current.isSome = true) (hμ : S b.here μ) :
    Begun J b S header b₃ S₃ (phis.map (HeaderPhi.instr source init [])) l exit b₇
    (S₅.also b₇.here (S₅ b₅.here)) := by
  have hn₃ := h₃.size
  have hn₄ := h₄.size
  have hn₅ := ho.le.blockCount
  have hn₆ := hk.size
  have hn₇ := h₇.size
  have hhere₃ := here_eq h₃.current
  have hhere₄ : b₄.here = b₃.here := here_congr h₄.current h₄.size
  have hhere₅ := here_eq hl
  have hhere₇ := here_eq h₇.current
  have hheader := h₃.index (by omega)
  have hx := hk.left (by omega)
  have he := hk.right (by omega)
  obtain ⟨is, hi⟩ := hs.live hcur
  have hlt := Builder.lt_of_body hi
  have hb₃ := h₃.body is hi
  have hnone : ∀ i, b.blocks.size ≤ i → ∀ j, ¬b.body.Leads i j := by
    rintro i hi j ⟨js, v, hv, -⟩
    have := Builder.lt_of_body hv
    omega
  have hleads₃ : ∀ i j, b₃.body.Leads i j ↔ (i = b.here ∧ j = header.index.toNat) ∨ b.body.Leads i j := by
    intro i j
    have := not_leads_open (j := j) hi
    have := hnone b.blocks.size (Nat.le_refl _) j
    rw [hb₃, leads_set, leads_set]
    simp only [Terminator.successors, List.mem_singleton, Option.some.injEq, exists_eq_left', exists_eq_left]
    grind
  have hi₃ : b₃.body b₃.here = some ([], none) := by
    rw [hb₃, hhere₃, Body.set_of_ne (by omega), hheader, Body.set_self]
  have hs₃ : Heading b₃ := by
    refine ⟨⟨fun _ => ⟨[], hi₃⟩, fun i j hl => ?_⟩, by omega, fun js hj => ?_⟩
    · rcases (hleads₃ i j).1 hl with ⟨-, rfl⟩ | hl
      · omega
      · have := hs.closed i j hl
        omega
    · cases hi₃.symm.trans hj
      simp
  have hs₄ := h₄.goes.kept (by omega) hs₃
  obtain ⟨hb₄, -⟩ := h₄.body [] hi₃
  have hi₄ : b₄.body b₄.here = some (phis.map (HeaderPhi.instr source init []), none) := by
    rw [hhere₄, hb₄, Body.set_self, List.nil_append]
  have hleads₄ : ∀ i j, b₄.body.Leads i j ↔ b₃.body.Leads i j := by
    intro i j
    have := not_leads_open (j := j) hi₃
    rw [hb₄, leads_set]
    grind
  have hs₅ := ho.kept (by omega) hs₄.toSane
  obtain ⟨is₅, hi₅⟩ := hs₅.live ho.going
  have hf₅ := ho.frame (by omega) hs₄.toSane
  have hnext := hf₅.next
  have hleads₇ : ∀ i j, b₇.body.Leads i j ↔ (i = b₅.here ∧ (j = x.index.toNat ∨ j = exit.index.toNat)) ∨
    b₅.body.Leads i j := by
    intro i j
    rw [h₇.body, hk.leads hi₅]
    simp only [Terminator.successors, List.mem_cons, List.not_mem_nil, or_false, exists_eq_or_imp, exists_eq_left]
    grind
  have hleads₅ : ∀ i, ∀ j < b₄.blocks.size, b₅.body.Leads i j ↔ b₃.body.Leads i j := fun i j hj => by
    rw [ho.leads_iff (by omega) hs₄.toSane (by simp) hj (by simp), hleads₄]
  have hclosed := hs.closed
  have hclosed₅ := hs₅.closed
  have hb₆ := hk.body is₅ hi₅
  have hsame := hf₅.same
  have hrests := hf₅.rests
  have hpassed := ho.passed hk (by omega) hs₄.toSane hi₄
  have hb₇ := h₇.body
  have hlt₅ := Builder.lt_of_body hi₅
  simp only [funext_iff, Body.set] at hb₃ hb₄ hb₆
  refine ⟨⟨fun _ => ⟨[], ?_⟩, fun i j hl => ?_⟩, hheader, by omega, ⟨?_, ?_⟩, ?_, fun i hi hne => ?_,
    fun i js hj => ?_, fun i => ?_, fun i => ?_, fun i j hj => ?_, ?_,
    ⟨hhere₃ ▸ hi₃, (hleads₃ _ _).2 (.inl ⟨rfl, rfl⟩)⟩, fun W hW => ?_, fun W hW => ?_⟩
  · rw [hb₇, hb₆]
    grind
  · rcases (hleads₇ i j).1 hl with ⟨-, hj⟩ | hl
    · omega
    · have := hclosed₅ i j hl
      omega
  · rw [hb₇, hb₆]
    grind
  · rw [hb₇, hb₆]
    grind
  · rw [hb₇, ← hhere₃, ← hhere₄]
    exact hpassed
  · rw [hb₇, hb₆]
    grind
  · rw [hb₇, hb₆] at hj
    grind
  · rw [hleads₇, hleads₅ i _ (by omega), hleads₃]
    grind
  · rw [hleads₇]
    grind
  · rw [hleads₇, hleads₅ i j (by omega), hleads₃]
    grind
  · exact ⟨_, h₇.le.labels _ _ (he ▸ hk.label), .inr rfl⟩
  · rw [hheader]
    exact h₃.steps (by omega) hi hμ W hW
  · have hW₃ : ∀ i, W i ∨ i = header.index.toNat → i < b₃.blocks.size := by grind
    refine (h₄.goes.step (by omega) hs₃ _ hW₃ (by simp [hhere₃])).trans
      ((ho.step (by omega) hs₄.toSane _ (by grind) (by simp)).trans
      ((hk.steps (by omega) hi₅ ht.1 ht (by simp [Terminator.successors]) _ (by grind)).trans
      (Step.start _ ?_ h₇ ?_ ?_ ?_ ?_ ?_)))
    · rw [hb₆]
      grind
    · grind
    · grind
    · grind
    · exact ⟨b₅.here, by omega, by rw [← hb₇, hleads₇]; exact .inl ⟨rfl, .inl rfl⟩, _, ht.1⟩
    · intro s hs μ hμ
      rw [← hb₇, hleads₇] at hs
      grind

/-- The edges back to the header of a loop are there, and its phis have inputs for them. -/
structure Round (J : Job) (b : Builder) (header exit : BlockId) (is : List Instr) (b₀ b' : Builder) : Prop where
  phis : ∃ js v, b'.body header.index.toNat = some (is ++ js, some v) ∧ ∀ x ∈ js, x.isPhi = false
  nothing : b'.body exit.index.toNat = some ([], none)
  same : ∀ i < b.blocks.size, i ≠ b.here → b'.body i = b.body i
  rests : ∀ i js, b'.body i = some (js, none) → i = exit.index.toNat ∨ (i < b.blocks.size ∧ i ≠ b.here)
  leads : ∀ i j, b'.body.Leads i j ↔ (b₀.current.isSome = true ∧ i = b₀.here ∧ j = header.index.toNat) ∨
    b₀.body.Leads i j
  steps : ∀ {W S}, J.back → (b₀.current.isSome = true → S b₀.here (.block header.index.toNat)) →
    W header.index.toNat → Step J W b₀ S W b' S

theorem round (hb : Begun J b S header b₃ S₃ (phis.map (HeaderPhi.instr source init [])) l exit b₇ S₇)
    (hs : b₈.Sane) (hf : Frame b₇ b₈) (hle : b₇.Le b₈) (h₉ : Moved c b₈ b₉)
    (h₁₀ : Ends header (b₈.leaving.map Edge.source) b₉ b₁₀)
    (h₁₁ : Closed source header init edges phis b₁₀ b₁₁)
    (hpos : phis.map HeaderPhi.position = List.range' 0 phis.length) :
    Round J b header exit (phis.map (HeaderPhi.instr source init edges)) b₈ b₁₁ := by
  have hmem : ∀ i, i ∈ (b₈.leaving.map Edge.source).map (fun s => s.index.toNat) ↔
    b₈.current.isSome = true ∧ i = b₈.here := by
    simpa [Function.comp_def] using b₈.sources_leaving
  have hnodup : ((b₈.leaving.map Edge.source).map fun s => s.index.toNat).Nodup := by
    simpa [Function.comp_def] using b₈.nodup_leaving
  have hopen : ∀ s ∈ b₈.leaving.map Edge.source, ∃ is, b₉.body s.index.toNat = some (is, none) := by
    intro s hs'
    obtain ⟨hc, heq⟩ := (hmem _).1 (List.mem_map_of_mem hs')
    rw [h₉.body, heq]
    exact hs.live hc
  obtain ⟨hothers, hended, hstep⟩ := h₁₀.ended hnodup hopen
  have hleads := h₁₀.leads hnodup hopen
  obtain ⟨js, v, hjs, hplain⟩ := hb.phis
  have hhead := hb.head
  have hwhere := hb.here
  have hn₈ := hle.blockCount
  have hsame := hb.same
  have hsame₈ := hf.same
  have hrests := hb.rests
  have hrests₈ := hf.rests
  have hnext := hf.next
  have hlive := hs.live
  have hbody₁₀ : b₁₀.body header.index.toNat =
    some (phis.map (HeaderPhi.instr source init []) ++ js, some v) := by
    have hheader : b₈.body header.index.toNat = b₇.body header.index.toNat := hsame₈ _ (by omega) (by omega)
    rw [hothers, h₉.body, hheader, hjs]
    rw [hmem]
    rintro ⟨hc, heq⟩
    obtain ⟨is, hi⟩ := hlive hc
    rw [← heq, hheader, hjs] at hi
    cases hi
  have hb₁₁ := h₁₁.body [] js (some v) hbody₁₀ hpos
  have hb₉ := h₉.body
  have hnothing := hb.nothing
  refine ⟨⟨js, v, by rw [hb₁₁, Body.set_self, List.nil_append], hplain⟩, ?_, fun i hi hne => ?_, fun i is hi =>
    ?_, fun i j => ?_, fun {W S} hback hS hW => ?_⟩
  · rw [hb₁₁, Body.set_of_ne (by omega), hothers _ (by grind), hb₉, hsame₈ _ (by omega) (by omega), hnothing.2]
  · rw [hb₁₁, Body.set_of_ne (by omega), hothers _ (by grind), hb₉,
      hsame₈ _ (by omega) (by omega), hsame i hi hne]
  · rw [hb₁₁] at hi
    rcases Body.set_eq_some hi with ⟨-, heq⟩ | ⟨hne, hi⟩
    · cases heq
    by_cases hleft : i ∈ (b₈.leaving.map Edge.source).map fun s => s.index.toNat
    · obtain ⟨s, hs', rfl⟩ := List.mem_map.1 hleft
      obtain ⟨_, -, heq⟩ := hended s hs'
      cases heq.symm.trans hi
    · rw [hothers i hleft, hb₉] at hi
      rcases hrests₈ i is hi with rfl | ⟨hlt, hne⟩
      · exact absurd ((hmem _).2 ⟨isSome_of_body hi, rfl⟩) hleft
      · exact (hrests i is (hsame₈ i hlt hne ▸ hi)).resolve_left hne
  · have hself : b₁₀.body.Leads header.index.toNat j ↔ ∃ s ∈ v.successors, s.index.toNat = j := by
      simp [Body.Leads, hbody₁₀]
    rw [hb₁₁, leads_set, ← h₉.body]
    have := hleads i j
    rw [hmem] at this
    grind
  · refine (Step.tables h₉.le hb₉).trans ((hstep ?_ hW fun s hs' => ?_).trans (Step.closed h₁₁ hbody₁₀ hpos hW))
    · have := h₉.size
      omega
    · obtain ⟨hc, heq⟩ := (hmem _).1 (List.mem_map_of_mem hs')
      rw [heq]
      exact ⟨fun _ => ⟨hback, hS hc⟩, _, hS hc⟩

theorem endIf_gives {o : Option Edge} {k : Unit → Build β}
    (hrun : ((o.toList.map Edge.source).forM fun s => terminate s (.jump header)) b = .ok ((), b'))
    (h : (k ()).Gives T b' Q) : (match o with
      | some e => terminate e.source (.jump header) >>= k
      | _ => k ()).Gives T b Q := by
  cases o with
  | none =>
    cases hrun
    exact h
  | some e =>
    obtain ⟨_, b₁, h₁, h₂⟩ := bind_ok.1 hrun
    cases h₂
    exact .run h₁ h

theorem loop_executes {xs : List LocalId} {test : Build Reg} {body : Build Unit} (hback : J.back) (hxs : xs.Nodup)
    (htest : Computes J V .bool n st test) (hbody : Executes J V V' True m c body) :
    Executes J V V p (n + m + 1) true (loop xs test body) := by
  intro b S hE hcur _
  refine .current (fun _ => hcur) fun source hsource => onto_gives hsource fun header b₃ h₃ => ?_
  have hhere₃ := here_eq h₃.current
  have hE₃ : Env J V b₃ (S.also header.index.toNat fun μ => S b.here μ ∨ μ = .block header.index.toNat) :=
    hE.move h₃.le h₃.toKept fun μ hμ => .inr ⟨hhere₃, .inl hμ⟩
  refine .bind (headerPhis_gives (fun x => (b₃.values.get? x).getD ⟨0⟩) hE₃ h₃.current hxs
    fun x _ r hr => by rw [hr]; rfl) ?_
  rintro phis b₄ ⟨S₄, h₄, hE₄, hinits⟩
  have hcur₄ : b₄.current.isSome = true := by rw [h₄.current, h₃.current]; rfl
  refine .bind (htest b₄ S₄ hE₄ hcur₄) ?_
  rintro t b₅ ⟨S₅, ho, ht⟩
  refine .current (fun _ => ho.going) fun l hl => fork_gives hl fun x e b₆ hk => .reads ?_
  obtain ⟨b₇, hrun₇, h₇, hvalues₇, hslots₇, hloops₇⟩ :=
    openLoop_moved { header, exit := e, breaks := [⟨l, b₆.values⟩] } (some x) b₆
  have hE₅ := ho.env hE₄
  have hle₇ : b₅.Le b₇ := hk.le.trans h₇.le
  have hE₇ : Env J V b₇ (S₅.also b₇.here (S₅ b₅.here)) :=
    hE₅.resume hle₇ (fun μ hμ => .inr ⟨rfl, hμ⟩) (fun x r hx => .inl (by rwa [hvalues₇, hk.values] at hx))
      (fun x hx => by rwa [hvalues₇, hk.values]) fun x => .inl (by rw [hslots₇, hk.slots])
  rw [← bind_assoc]
  refine .run hrun₇ (.bind (hbody b₇ _ hE₇ (by rw [h₇.current]; rfl) fun _ _ => by simp [hloops₇]) ?_)
  rintro _ b₈ ⟨S₈, hr, hcur₈, hE₈⟩
  have hloops₆ : b₆.loops = b.loops := by rw [hk.loops, ho.loops, h₄.loops, h₃.loops]
  have htargets := hr.targets
  rw [Builder.targets, Builder.targets, hloops₇, hloops₆, List.flatMap_cons] at htargets
  obtain ⟨done, rest, hdone⟩ : ∃ done rest, b₈.loops = done :: rest := by
    cases hloops : b₈.loops with
    | nil => simp [hloops] at htargets
    | cons done rest => exact ⟨done, rest, rfl⟩
  simp only [hdone, List.flatMap_cons, List.cons_append, List.nil_append, List.cons.injEq] at htargets
  obtain ⟨hheader, hexit, htargets⟩ := htargets
  obtain ⟨b₉, hrun₉, h₉, hvalues₉, hslots₉, hloops₉⟩ := popLoop_moved header hdone
  obtain ⟨b₁₀, hrun₁₀, h₁₀⟩ := ends header (b₈.leaving.map Edge.source) b₉
  obtain ⟨b₁₁, hrun₁₁, h₁₁⟩ := closePhis_closed source header (fun x => (b₃.values.get? x).getD ⟨0⟩)
    (done.continues ++ b₈.leaving) phis b₁₀
  obtain ⟨b₁₂, hrun₁₂, h₁₂, hk₁₂⟩ := moveTo_moved (some e) b₁₁
  refine .reads (.run hrun₉ (endIf_gives hrun₁₀ (.run hrun₁₁ (.run hrun₁₂ ?_))))
  have hgoing : b₁₂.current.isSome = true := by rw [h₁₂.current]; rfl
  have hle₈ := hle₇.trans (hr.goes []).le
  have hle₁₂ : b₈.Le b₁₂ := h₉.le.trans (h₁₀.le.trans (h₁₁.le.trans h₁₂.le))
  have hle₅ := h₃.le.trans (h₄.goes.le.trans ho.le)
  have hsub₅ : ∀ i μ, S i μ → S₅ i μ := fun i μ hμ => ho.sub i μ (h₄.goes.sub i μ (.inl hμ))
  have hcarried₅ : ∀ μ, S b.here μ ∨ μ = .block header.index.toNat → S₅ b₅.here μ := fun μ hμ =>
    ho.carried ho.going μ (h₄.goes.carried hcur₄ μ (.inr ⟨hhere₃, hμ⟩))
  have hsub₈ : ∀ i μ, S₅ i μ → S₈ i μ := fun i μ hμ => (hr.goes []).sub i μ (.inl hμ)
  have hways₇ : ∀ P, Ways J P b S → Ways J (⟨S₅ b₅.here, b.here⟩ :: P) b₇ (S₅.also b₇.here (S₅ b₅.here)) := by
    refine fun P hw => ⟨fun q hq e he => ?_, fun _ p hp μ hμ => .inr ⟨rfl, ?_⟩⟩
    · rw [hloops₇, hloops₆, List.zip_cons_cons] at hq
      rcases List.mem_cons.1 hq with rfl | hq
      · obtain rfl : e = ⟨l, b₆.values⟩ := by simpa using he
        refine ⟨fun μ hμ => .inl (here_eq hl ▸ hμ), fun x r hx => ?_⟩
        obtain ⟨hr, t, ht, hrt⟩ := hE₅.values x r (hk.values ▸ hx)
        exact ⟨.inl (here_eq hl ▸ hr), t, ht, hrt.mono hle₇⟩
      · exact (hw.edges q hq e he).mono (hle₅.trans hle₇) fun i μ hμ => .inl (hsub₅ i μ hμ)
    · rcases List.mem_cons.1 hp with rfl | hp
      · exact hμ
      · exact hcarried₅ μ (.inl (hw.within hcur p hp μ hμ))
  -- what is known before the body is known wherever control leaves it
  have hways : ∀ q, q ∈ done.continues ∨ q ∈ done.breaks → Way J b₈ S₈ (S₅ b₅.here) q := by
    have := (hr.ways _ (hways₇ [] ⟨by simp, by simp⟩)).edges
    rw [hdone] at this
    exact fun q hq => this (⟨S₅ b₅.here, b.here⟩, done) (by simp) q hq
  obtain ⟨μ₅, hμ₅⟩ := hE₅.here
  have hloops₁₂ : b₁₂.loops = rest := by rw [hk₁₂.loops, h₁₁.loops, h₁₀.loops, hloops₉]
  have htargets₁₂ : b₁₂.targets = b.targets := by rw [Builder.targets, hloops₁₂, htargets, Builder.targets]
  have hslots₁₂ : SlotsKept V b₄ b₁₂.slots := by
    have := hr.slots
    unfold SlotsKept at this ⊢
    rwa [hslots₇, hk.slots, ho.slots, hle₇.decl, ho.le.decl, ← hslots₉, ← h₁₀.slots, ← h₁₁.slots,
      ← hk₁₂.slots] at this
  have hways₁₂ : ∀ P, Ways J P b S → Ways J P b₁₂ (S₈.meet b₁₂.here done.breaks) := by
    refine fun P hw => ⟨fun q hq e he => ?_, fun _ p hp μ hμ => .inr ⟨rfl, fun q hq => ?_⟩⟩
    · refine ((hr.ways _ (hways₇ P hw)).edges q ?_ e he).mono hle₁₂ fun _ _ => .inl
      rw [hdone, List.zip_cons_cons]
      exact List.mem_cons_of_mem _ (hloops₁₂ ▸ hq)
    · exact (hways q (.inr hq)).facts μ (hcarried₅ μ (.inl (hw.within hcur p hp μ hμ)))
  have hedges : ∀ q ∈ done.continues ++ b₈.leaving, Way J b₈ S₈ (S₅ b₅.here) q := by
    intro q hq
    rcases List.mem_append.1 hq with hq | hq
    · exact hways q (.inl hq)
    · obtain ⟨hc, hsource, hvalues⟩ := Env.leaving (fun hc => hE₈ (hcur₈ ▸ hc)) hq
      exact ⟨fun μ hμ => hsource ▸ (hr.goes []).carried hc μ (.inr ⟨rfl, hμ⟩), hvalues⟩
  have hgoes : ∀ P, Goes J b.targets (Ok J P b S) (Ok J P b₁₂ (S₈.meet b₁₂.here done.breaks) ∧
      Joining b₈.regTypes.size done.breaks b₁₂) b S b₁₂ (S₈.meet b₁₂.here done.breaks) := by
    intro P
    refine .of ((hle₅.trans hle₈).trans hle₁₂) (fun hf h => ?_) (fun i μ hμ => .inl (hsub₈ i μ (hsub₅ i μ hμ)))
      (fun _ μ hμ => .inr ⟨rfl, fun q hq => (hways q (.inr hq)).facts μ (hcarried₅ μ (.inl hμ))⟩)
        fun hroom hok => ?_
    · have h := (hr.goes P).tabled hf (h₇.tabled (hk.tabled (ho.tabled hf (h₄.goes.tabled hf (h₃.tabled h)))))
      exact h₁₂.tabled (h₁₁.tabled (h₁₀.tabled (h₉.tabled h)))
    have hn₁₂ := h₁₂.size
    have hn₁₁ := h₁₁.size
    have hn₁₀ := h₁₀.size
    have hn₉ := h₉.size
    have hn₈ := (hr.goes []).le.blockCount
    obtain ⟨μ₀, hμ₀⟩ := hE.here
    have hb := begun h₃ h₄ ho hl ht hk h₇ (by omega) hok.toSane hcur hμ₀
    have hhead := hb.head
    have hwhere := hb.here
    have hbound := hok.bound
    have htargets₇ : b₇.targets = header.index.toNat :: e.index.toNat :: b.targets := by
      rw [Builder.targets, hloops₇, hloops₆]
      rfl
    have hok₇ : Ok J (⟨S₅ b₅.here, b.here⟩ :: P) b₇ (S₅.also b₇.here (S₅ b₅.here)) := by
      refine ⟨hb.toSane, hways₇ P hok.toWays, ?_, ?_, ?_⟩
      · rw [hloops₇, hloops₆]
        refine .cons ⟨hcarried₅ _ (.inr rfl), hb.early, fun i => ?_, fun i => ?_, by simp, by simp⟩
          (forall₂_imp_mem hok.loops fun p _ l hl hp => hp.mono (hle₅.trans hle₇) fun i j hj =>
            hb.leads i j (hok.bound j ?_))
        · simp [hb.back]
        · simp [hb.out, eq_comm]
        · exact List.mem_flatMap.2 ⟨l, hl, hj⟩
      · rw [htargets₇]
        grind
      · rw [htargets₇]
        have := hok.nodup
        grind
    have hok₈ := (hr.goes _).kept (by omega) hok₇
    have hf₈ := (hr.goes _).frame (by omega) hok₇
    have hloops₈ := hok₈.loops
    rw [hdone] at hloops₈
    obtain ⟨hopen, hrest⟩ : OpenLoop b₈ ⟨S₅ b₅.here, b.here⟩ done ∧ List.Forall₂ (OpenLoop b₈) P rest := by
      cases hloops₈ with
      | cons h hrest => exact ⟨h, hrest⟩
    have hbacks := hopen.backs
    have hexits := hopen.exits
    rw [hheader] at hbacks
    rw [hexit] at hexits
    have hpos : phis.map HeaderPhi.position = List.range' 0 phis.length := (h₄.body [] (hhere₃ ▸ hb.before.1)).2
    have hround := round hb hok₈.toSane hf₈ (hr.goes []).le h₉ h₁₀ h₁₁ hpos
    have hleads := hround.leads
    have hclosed := hok₈.closed
    have hhere₁₂ := here_eq h₁₂.current
    obtain ⟨js, v, hphis, hplain⟩ := hround.phis
    have hs₁₂ : b₁₂.Sane := by
      refine ⟨fun _ => ⟨[], by rw [h₁₂.body, hhere₁₂, hround.nothing]⟩, fun i j hl => ?_⟩
      rw [h₁₂.body, hleads] at hl
      grind
    have hbreaks : ∀ i, b₁₂.body.Leads i e.index.toNat ↔ ∃ q ∈ done.breaks,
      q.source.index.toNat = i := fun i => by
      rw [h₁₂.body, hleads, hexits]
      grind
    have hsources := b₈.sources_leaving
    simp only [List.mem_map] at hsources
    have hbackward : ∀ i, b₁₁.body.Leads i header.index.toNat ↔
        i = source.index.toNat ∨ ∃ q ∈ done.continues ++ b₈.leaving, q.source.index.toNat = i := by
      intro i
      rw [hleads, hbacks, here_eq hsource]
      simp only [List.mem_append, or_and_right, exists_or, hsources]
      grind
    have hapart : (source.index.toNat :: (done.continues ++ b₈.leaving).map fun q =>
      q.source.index.toNat).Nodup := by
      rw [List.map_append, ← List.cons_append, ← here_eq hsource]
      refine List.nodup_append.2 ⟨hopen.continues, b₈.nodup_leaving, fun i hi j hj heq => ?_⟩
      obtain ⟨hc, rfl⟩ := (b₈.sources_leaving j).1 hj
      obtain ⟨is, hi'⟩ := hok₈.live hc
      refine not_leads_open hi' ((hbacks _).2 ?_)
      simpa [← heq] using hi
    refine ⟨⟨fun i hi hne => ?_, fun i js hj => ?_, .inr ?_⟩,
      ⟨⟨hs₁₂, hways₁₂ P hok.toWays, ?_, ?_, ?_⟩, hs₁₂, ?_, ⟨[], ?_, by simp⟩, fun i => ?_, hopen.breaks⟩,
      fun W hW hL => ?_⟩
    · rw [h₁₂.body, hround.same i hi hne]
    · rw [hhere₁₂]
      exact hround.rests i js (h₁₂.body ▸ hj)
    · omega
    · rw [hloops₁₂]
      refine forall₂_imp_mem hrest fun p _ l hl hp => hp.mono hle₁₂ fun i j hj => ?_
      have : j ∈ b₁₂.targets := List.mem_flatMap.2 ⟨l, hloops₁₂ ▸ hl, hj⟩
      rw [h₁₂.body, hleads]
      grind
    · intro i hi
      have := hok.bound i (htargets₁₂ ▸ hi)
      omega
    · rw [htargets₁₂]
      exact hok.nodup
    · omega
    · rw [h₁₂.body, hhere₁₂, hround.nothing]
    · rw [hhere₁₂, hbreaks]
    · have hin := (hb.starts W hW).trans (((hr.goes _).step (by omega) hok₇ _ ?_ ?_).trans
        (hround.steps hback (fun hc => ?_) (.inl (.inr rfl))))
      · have hsettle : Step J (fun i => (W i ∨ i = header.index.toNat) ∨ i = e.index.toNat) b₁₁ S₈ (fun i => W i ∨
          i = e.index.toNat) b₁₁ S₈ := by
          have hle₁₁ : b₈.Le b₁₁ := h₉.le.trans (h₁₀.le.trans h₁₁.le)
          refine Step.settle_header (N := b₃.regTypes.size) hphis hplain (by grind) (by grind) (by grind)
            (fun p hp => ?_) (fun p hp => ?_)
            (fun q hq => ⟨fun p hp => ?_, fun x r hx => ?_⟩) hapart hbackward
          · obtain ⟨-, t, ht, hrt, hnum⟩ := h₄.regs p hp
            have hle := ho.le.trans (hle₈.trans hle₁₁)
            exact ⟨t, ht, hrt.mono hle, fun hf => (hnum (hle.fits hf)).imp_left ((hle.context _ _).reg _ _)⟩
          · have hmem := mem_of_lookup (hinits p hp).2
            rw [h₃.values] at hmem ⊢
            obtain ⟨hr, t, ht, hrt⟩ := hE.values _ _ hmem
            have hle := hle₅.trans (hle₈.trans hle₁₁)
            refine ⟨hsub₈ _ _ (hsub₅ _ _ (here_eq hsource ▸ hr)), t, ht, hrt.mono hle, fun hf => ?_⟩
            exact Nat.lt_of_lt_of_le (hrt (hle.fits hf)).2 h₃.le.regCount
          · exact (hedges q hq).facts _ (ho.carried ho.going _ (here_congr h₄.current h₄.size ▸ (h₄.regs p hp).1))
          · obtain ⟨hr, t, ht, hrt⟩ := (hedges q hq).values x r hx
            exact ⟨hr, t, ht, hrt.mono hle₁₁⟩
        refine ((hb.enters W hW).trans (Step.cycle hb.before.1 ⟨b.here, ?_, hb.before.2, μ₀, hμ₀⟩ hin ?_
          (fun i hi μ hμ => ?_) hsettle)).trans (Step.start _ hround.nothing h₁₂ ?_ ?_ ?_ ?_ fun i hi μ hμ => ?_)
        · obtain ⟨is, hi⟩ := hok.live hcur
          have := Builder.lt_of_body hi
          omega
        · grind
        · rcases (hbackward i).1 hi with rfl | ⟨q, hq, rfl⟩
          · exact .inl (here_eq hsource ▸ hμ)
          · exact .inr ((hedges q hq).facts μ (hcarried₅ μ (.inl hμ)))
        · grind
        · grind
        · grind
        · have hout := (hb.out l.index.toNat).2 rfl
          obtain ⟨is, u, hi, -⟩ := id hout
          have hlt := Builder.lt_of_body hi
          have hnothing := hb.nothing
          have hsame := hf₈.same l.index.toNat hlt (by grind)
          have hlead : b₈.body.Leads l.index.toNat e.index.toNat := by
            unfold Body.Leads
            rwa [hsame]
          refine ⟨l.index.toNat, by grind, (hleads _ _).2 (.inr hlead), _, hsub₈ _ _ (here_eq hl ▸ hμ₅)⟩
        · rw [← h₁₂.body] at hi
          obtain ⟨q, hq, rfl⟩ := (hbreaks i).1 hi
          exact hμ q hq
      · grind
      · rw [htargets₇]
        grind
      · exact (hr.goes []).carried hc _ (.inr ⟨rfl, hcarried₅ _ (.inr rfl)⟩)
  rw [hk.values, ho.values]
  refine merge_ran hE₄ (h₃.le.trans h₄.goes.le) (h₄.slots.trans h₃.slots)
    (ho.le.trans hle₈) hle₁₂ hgoing (fun q hq => ?_)
    hgoes hways₁₂ htargets₁₂ hslots₁₂ ?_
  · have hway := hways q (.inr hq)
    exact ⟨fun μ hμ => hway.facts μ (ho.carried ho.going μ hμ), hway.values⟩
  · have := h₁₂.size
    have := h₁₁.size
    have := h₁₀.size
    have := h₉.size
    have := hr.count
    have := h₇.size
    have := hk.size
    have := ho.count
    have := h₄.size
    have := h₃.size
    omega

end NumericEngine.Lowering
