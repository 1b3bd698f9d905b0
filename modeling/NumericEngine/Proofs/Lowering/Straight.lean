import NumericEngine.Proofs.Lowering.Forms
import NumericEngine.Proofs.Lowering.Nodes
import NumericEngine.Proofs.Lowering.Steps

/-!
# Code without branches

What code may rely on where it is put (`Env`), and what it leaves to the code
after it (`Goes`, `Onward`). Operations, reads and writes of bindings, and nodes
that compute all of their operands keep to the current block.
-/

namespace NumericEngine.Lowering

open Ir (Rhs Instr Terminator Body Mark)
open Typing (Visible NodeTyped)
open Build

variable {J : Job} {W : Nat → Prop} {L : List Nat} {b b' b'' : Builder} {S S' S'' : Facts} {V V' : Visible}
  {n : Nat} {q : Prop}

/-- Instructions can go to the current block, and edges lead to blocks that are there. -/
structure Builder.Sane (b : Builder) : Prop where
  live : b.current.isSome = true → ∃ is, b.body b.here = some (is, none)
  closed : ∀ i j, b.body.Leads i j → j < b.blocks.size

/-- Of the blocks of `b` only the current one may have changed, and of those that are new only the
current one has no end. -/
structure Frame (b b' : Builder) : Prop where
  same : ∀ i < b.blocks.size, i ≠ b.here → b'.body i = b.body i
  rests : ∀ i is, b'.body i = some (is, none) → i = b'.here ∨ (i < b.blocks.size ∧ i ≠ b.here)
  next : b'.here = b.here ∨ b.blocks.size ≤ b'.here

theorem Frame.trans (h : Frame b b') (h' : Frame b' b'') (hle : b.Le b') : Frame b b'' where
  same i hi hne := by
    have := hle.blockCount
    rw [h'.same i (by omega) (by have := h.next; omega), h.same i hi hne]
  rests i is hi := by
    rcases h'.rests i is hi with heq | ⟨hlt, hne⟩
    · exact .inl heq
    · exact .inr ((h.rests i is (h'.same i hlt hne ▸ hi)).resolve_left hne)
  next := by
    have := hle.blockCount
    have := h.next
    have := h'.next
    omega

/-- The block that was the current one has got no more phis. -/
def Plain (b b' : Builder) : Prop :=
  ∀ is, b.body b.here = some (is, none) → ∃ xs u, b'.body b.here = some (is ++ xs, u) ∧ ∀ x ∈ xs, x.isPhi = false

theorem Plain.trans (h : Plain b b') (h' : Plain b' b'') (hf' : Frame b' b'') (hle : b.Le b')
    (hlive : ∃ is, b'.body b'.here = some (is, none)) : Plain b b'' := by
  intro is hi
  obtain ⟨xs, u, hxs, hplain⟩ := h is hi
  have hlt := Builder.lt_of_body hi
  by_cases heq : b'.here = b.here
  · obtain ⟨js, hj⟩ := hlive
    cases (heq ▸ hxs).symm.trans hj
    obtain ⟨ys, v, hys, hplain'⟩ := h' _ hj
    exact ⟨xs ++ ys, v, by rw [← heq, hys, List.append_assoc], List.forall_mem_append.2 ⟨hplain, hplain'⟩⟩
  · have := hle.blockCount
    exact ⟨xs, u, by rw [hf'.same _ (by omega) fun h => heq h.symm, hxs], hplain⟩

/-- Code that goes from `b` to `b'`, where `G` is assumed, to where `G'` holds. Edges to old blocks
lead to the headers and exits `L` of open loops. -/
structure Goes (J : Job) (L : List Nat) (G G' : Prop) (b : Builder) (S : Facts) (b' : Builder) (S' : Facts) :
    Prop where
  le : b.Le b'
  tabled : J.ctx.Formed → b.Tabled → b'.Tabled
  sub : ∀ i μ, S i μ → S' i μ
  carried : b'.current.isSome = true → ∀ μ, S b.here μ → S' b'.here μ
  frame : b'.blocks.size ≤ 2 ^ 32 → G → Frame b b'
  kept : b'.blocks.size ≤ 2 ^ 32 → G → G'
  step : b'.blocks.size ≤ 2 ^ 32 → G → ∀ W : Nat → Prop, (∀ i, W i → i < b.blocks.size) →
    (∀ i ∈ L, W i) → Step J W b S W b' S'

theorem Goes.trans (h : Goes J L G G' b S b' S') (h' : Goes J L' G' G'' b' S' b'' S'') (hL : L' ⊆ L)
    (hcur : b''.current.isSome = true → b'.current.isSome = true) : Goes J L G G'' b S b'' S'' where
  le := h.le.trans h'.le
  tabled hf ht := h'.tabled hf (h.tabled hf ht)
  sub i μ hμ := h'.sub i μ (h.sub i μ hμ)
  carried hc μ hμ := h'.carried hc μ (h.carried (hcur hc) μ hμ)
  frame hroom hs := by
    have hroom' := Nat.le_trans h'.le.blockCount hroom
    exact (h.frame hroom' hs).trans (h'.frame hroom (h.kept hroom' hs)) h.le
  kept hroom hs := h'.kept hroom (h.kept (Nat.le_trans h'.le.blockCount hroom) hs)
  step hroom hs W hW hL' := by
    have hroom' := Nat.le_trans h'.le.blockCount hroom
    refine (h.step hroom' hs W hW hL').trans (h'.step hroom (h.kept hroom' hs) W (fun i hi => ?_) fun p hp =>
      hL' p (hL hp))
    exact Nat.lt_of_lt_of_le (hW i hi) h.le.blockCount

theorem Goes.change (h : Goes J L G G' b S b' S') (hG : G₁ → G) (hG' : b'.blocks.size ≤ 2 ^ 32 → G₁ → G' → G₂) :
    Goes J L G₁ G₂ b S b' S' :=
  { h with
    frame := fun hroom hg => h.frame hroom (hG hg)
    kept := fun hroom hg => hG' hroom hg (h.kept hroom (hG hg))
    step := fun hroom hg => h.step hroom (hG hg) }

/-- Nothing changes but tables and bindings. -/
theorem Goes.tables (hle : b.Le b') (ht : J.ctx.Formed → b.Tabled → b'.Tabled) (hb : b'.blocks = b.blocks)
    (hc : b'.current = b.current) : Goes J L b.Sane b'.Sane b S b' S := by
  have hbody : b'.body = b.body := by
    unfold Builder.body
    rw [hb]
  have hhere : b'.here = b.here := here_congr hc (by rw [hb])
  exact {
    le := hle
    tabled := ht
    sub := fun _ _ hμ => hμ
    carried := fun _ μ hμ => hhere ▸ hμ
    frame := fun _ _ => {
      same := fun i _ _ => by rw [hbody]
      rests := fun i is hi => by
        rw [hbody] at hi
        by_cases heq : i = b.here
        · exact .inl (heq.trans hhere.symm)
        · exact .inr ⟨Builder.lt_of_body hi, heq⟩
      next := .inl hhere }
    kept := fun _ hs => ⟨fun h => by rw [hbody, hhere]; exact hs.live (hc ▸ h),
      fun i j h => by rw [hb]; exact hs.closed i j (hbody ▸ h)⟩
    step := fun _ _ W _ _ => .tables hle hbody }

theorem Goes.of (hle : b.Le b') (ht : J.ctx.Formed → b.Tabled → b'.Tabled) (hsub : ∀ i μ, S i μ → S' i μ)
    (hcarried : b'.current.isSome = true → ∀ μ, S b.here μ → S' b'.here μ)
    (h : b'.blocks.size ≤ 2 ^ 32 → G → Frame b b' ∧ G' ∧ ∀ W : Nat → Prop, (∀ i, W i → i < b.blocks.size) →
      (∀ i ∈ L, W i) → Step J W b S W b' S') : Goes J L G G' b S b' S' :=
  ⟨hle, ht, hsub, hcarried, fun hroom hG => (h hroom hG).1, fun hroom hG => (h hroom hG).2.1,
    fun hroom hG => (h hroom hG).2.2⟩

/-- Instructions were added to the current block. -/
theorem Goes.emitted (he : Emitted xs b b') (hc : b.current.isSome = true)
    (ht : J.ctx.Formed → b.Tabled → b'.Tabled) (hsub : ∀ i μ, S i μ → S' i μ) (hG : G → b.Sane)
    (hstep : b.blocks.size ≤ 2 ^ 32 → G → ∀ is W, (∀ i ∈ L, W i) → b.body b.here = some (is, none) →
    Step J W b S W b' S') : Goes J L G b'.Sane b S b' S' := by
  refine .of he.le ht hsub (fun _ μ hμ => he.here ▸ hsub _ μ hμ) fun hroom hg => ?_
  obtain ⟨is, hi⟩ := (hG hg).live hc
  have hbody := he.body is hi
  refine ⟨⟨fun i _ hne => by rw [hbody, Body.set_of_ne hne], fun i js hj => ?_, .inl he.here⟩,
    ⟨fun _ => ⟨is ++ xs, by rw [he.here, hbody, Body.set_self]⟩, fun i j h => ?_⟩,
    fun W _ hL => hstep (he.size ▸ hroom) hg is W hL hi⟩
  · by_cases heq : i = b.here
    · exact .inl (heq.trans he.here.symm)
    · rw [hbody, Body.set_of_ne heq] at hj
      exact .inr ⟨Builder.lt_of_body hj, heq⟩
  · rw [hbody] at h
    rw [he.size]
    exact (hG hg).closed i j (Body.leads_set_open h).2

/-- What is declared of a binding. -/
abbrev Builder.decl (b : Builder) (x : LocalId) : Local := b.locals[x.index.toNat]?.getD default

theorem Builder.decl_eq (h : b.locals[x.index.toNat]? = some l) : b.decl x = l := by
  rw [decl, h, Option.getD_some]

theorem Builder.Le.decl (h : b.Le b') : b'.decl = b.decl := by
  funext x
  rw [Builder.decl, h.locals]

/-- A binding is where it is looked for: in a slot if its reference is taken, else in a register. -/
def Located (b : Builder) (x : LocalId) : Prop :=
  if (b.decl x).addressTaken = true then (b.slots.lookup x).isSome = true else (b.values.get? x).isSome = true

/-- Bindings have registers of their types, which are known at block `i`. -/
def Bound (J : Job) (b : Builder) (S : Facts) (i : Nat) (vs : Bindings) : Prop :=
  ∀ x r, (x, r) ∈ vs → S i (.reg r) ∧ ∃ t, J.ctx.binding x = some t ∧ J.Typed b r t

theorem Bound.mono (h : Bound J b S i vs) (hle : b.Le b') (hS : ∀ μ, S i μ → S' j μ) : Bound J b' S' j vs := by
  intro x r hx
  obtain ⟨hr, t, ht, hrt⟩ := h x r hx
  exact ⟨hS _ hr, t, ht, hrt.mono hle⟩

/-- The slots of the bindings in `V` stay, and no binding gets one whose reference is not taken. -/
def SlotsKept (V : Visible) (b : Builder) (slots : List (LocalId × Reg)) : Prop :=
  ∀ x, slots.lookup x = b.slots.lookup x ∨ (¬V x ∧ (b.decl x).addressTaken = true)

theorem SlotsKept.trans (h : SlotsKept V b b'.slots) (h' : SlotsKept V b' slots) (hle : b.Le b') :
    SlotsKept V b slots := by
  intro x
  have := h' x
  rw [hle.decl] at this
  grind [h x]

/-- The bindings of `V` can be read. -/
structure Scope (J : Job) (V : Visible) (b : Builder) (S : Facts) : Prop where
  here : ∃ μ, S b.here μ
  values : Bound J b S b.here b.values
  slots : ∀ x r, V x → b.slots.lookup x = some r → S b.here (.reg r) ∧
    ∃ t, J.ctx.binding x = some t ∧ J.Typed b r (.reference t .mutable)
  locals : ∀ x t, J.ctx.binding x = some t → (b.decl x).ty = t ∧
    ((b.decl x).addressTaken = true → t.holdsReference = false)
  /-- Only bindings whose reference is taken have a slot. -/
  taken : ∀ x : LocalId, (b.decl x).addressTaken = false → b.slots.lookup x = none
  located : J.total → ∀ x, V x → Located b x
  refs : J.total → ∀ x, J.ctx.taken x → (b.decl x).addressTaken = true

/-- What code in the scope of `V` relies on, once the parameters have their registers. -/
structure Env (J : Job) (V : Visible) (b : Builder) (S : Facts) : Prop extends Scope J V b S where
  settled : b.Fits → ∀ r ∈ J.params, r.index.toNat < b.regTypes.size

/-- Code of at most `3 * n` blocks that leaves the bindings as they are. It stays in its block if it is
straight. -/
structure Onward (J : Job) (n : Nat) (q : Prop) (b : Builder) (S : Facts) (b' : Builder) (S' : Facts) : Prop
    extends Goes J [] b.Sane b'.Sane b S b' S', Kept b b' where
  going : b'.current.isSome = true
  count : b'.blocks.size ≤ b.blocks.size + 3 * n
  plain : b'.blocks.size ≤ 2 ^ 32 → b.Sane → Plain b b'
  straight : q → b'.current = b.current

/-- What can be read after bindings have changed. -/
theorem Scope.renew (hE : Scope J V b S) (hle : b.Le b') (hS : ∀ μ, S b.here μ → S' b'.here μ)
    (hvalues : ∀ x r, (x, r) ∈ b'.values → (x, r) ∈ b.values ∨
      (S' b'.here (.reg r) ∧ ∃ t, J.ctx.binding x = some t ∧ J.Typed b' r t))
    (hslots : ∀ x r, V' x → b'.slots.lookup x = some r → (V x ∧ b.slots.lookup x = some r) ∨
      (S' b'.here (.reg r) ∧ ∃ t, J.ctx.binding x = some t ∧ J.Typed b' r (.reference t .mutable)))
    (htaken : ∀ x : LocalId, (b.decl x).addressTaken = false → b'.slots.lookup x = none)
    (hlocated : J.total → ∀ x, V' x → Located b' x) : Scope J V' b' S' where
  here := hE.here.imp hS
  values x r hx := by
    rcases hvalues x r hx with hx | hx
    · obtain ⟨hr, t, ht, hrt⟩ := hE.values x r hx
      exact ⟨hS _ hr, t, ht, hrt.mono hle⟩
    · exact hx
  slots x r hV hx := by
    rcases hslots x r hV hx with ⟨hV, hx⟩ | hx
    · obtain ⟨hr, t, ht, hrt⟩ := hE.slots x r hV hx
      exact ⟨hS _ hr, t, ht, hrt.mono hle⟩
    · exact hx
  locals := hle.decl ▸ hE.locals
  taken := hle.decl ▸ htaken
  located := hlocated
  refs := hle.decl ▸ hE.refs

theorem Scope.move (hE : Scope J V b S) (hle : b.Le b') (hk : Kept b b') (hS : ∀ μ, S b.here μ → S' b'.here μ) :
    Scope J V b' S' := by
  refine hE.renew hle hS (fun x r hx => .inl (hk.values ▸ hx)) (fun x r hV hx => .inl ⟨hV, hk.slots ▸ hx⟩)
    (hk.slots ▸ hE.taken)
    fun hT x hx => ?_
  unfold Located
  rw [hle.decl, hk.slots, hk.values]
  exact hE.located hT x hx

theorem Env.later (hE : Env J V b S) (hle : b.Le b') (h : Scope J V' b' S') : Env J V' b' S' :=
  ⟨h, fun hf r hr => Nat.lt_of_lt_of_le (hE.settled (hle.fits hf) r hr) hle.regCount⟩

theorem Env.move (hE : Env J V b S) (hle : b.Le b') (hk : Kept b b') (hS : ∀ μ, S b.here μ → S' b'.here μ) :
    Env J V b' S' :=
  hE.later hle (hE.toScope.move hle hk hS)

/-- The environment after code whose bindings do not outlive it. -/
theorem Env.resume (hE : Env J V b S) (hle : b.Le b') (hS : ∀ μ, S b.here μ → S' b'.here μ)
    (hvalues : ∀ x r, (x, r) ∈ b'.values → (x, r) ∈ b.values ∨
      (S' b'.here (.reg r) ∧ ∃ t, J.ctx.binding x = some t ∧ J.Typed b' r t))
    (hkeys : ∀ x, (b.values.get? x).isSome = true → (b'.values.get? x).isSome = true)
    (hslots : SlotsKept V b b'.slots) : Env J V b' S' := by
  refine hE.later hle (hE.toScope.renew hle hS hvalues (fun x r hV hx => ?_) (fun x hx => ?_) fun hT x hx => ?_)
  · rcases hslots x with heq | ⟨hnot, -⟩
    · exact .inl ⟨hV, heq ▸ hx⟩
    · exact absurd hV hnot
  · rcases hslots x with heq | ⟨-, htaken⟩
    · rw [heq, hE.taken x hx]
    · rw [htaken] at hx
      cases hx
  · have := hE.located hT x hx
    unfold Located at this ⊢
    rw [hle.decl]
    grind [SlotsKept]

theorem Onward.env (h : Onward J n q b S b' S') (hE : Env J V b S) : Env J V b' S' :=
  hE.move h.le h.toKept (h.carried h.going)

theorem Onward.trans (h : Onward J n q b S b' S') (h' : Onward J m q' b' S' b'' S'') (hn : n + m ≤ k)
    (hst : q'' → q ∧ q') : Onward J k q'' b S b'' S'' where
  toGoes := h.toGoes.trans h'.toGoes (List.Subset.refl _) fun _ => h.going
  toKept := h.toKept.trans h'.toKept
  going := h'.going
  count := by
    have := h.count
    have := h'.count
    omega
  plain hroom hs := by
    have hroom' := Nat.le_trans h'.le.blockCount hroom
    have hs' := h.kept hroom' hs
    exact (h.plain hroom' hs).trans (h'.plain hroom hs') (h'.frame hroom hs') h.le (hs'.live h.going)
  straight hs := (h'.straight (hst hs).2).trans (h.straight (hst hs).1)

theorem Onward.refl (hc : b.current.isSome = true) : Onward J n q b S b S where
  toGoes := .tables (.refl b) (fun _ h => h) rfl rfl
  toKept := ⟨rfl, rfl, rfl⟩
  going := hc
  count := by omega
  plain _ _ is hi := ⟨[], none, by simpa using hi, by simp⟩
  straight _ := rfl

/-- A register that holds a value of type `t` here. -/
def Has (J : Job) (b : Builder) (S : Facts) (r : Reg) (t : Ty) : Prop := S b.here (.reg r) ∧ J.Typed b r t

theorem Has.onward (h : Has J b S r t) (ho : Onward J n q b S b' S') : Has J b' S' r t :=
  ⟨ho.carried ho.going _ h.1, h.2.mono ho.le⟩

theorem Has.at_reg (h : Has J b S r t) (hf : b.Fits) : (J.names b).At r t := (h.2 hf).1

theorem Env.fresh (hE : Env J V b S) (hr : Registered ty b r b') (hle : b.Le b') : J.Fresh b' r := by
  intro z hz _ hf hmem
  have := hE.settled (hle.fits (hz.fits hf)) r hmem
  have := hr.index (hz.fits hf)
  omega

/-- The code from `b` to `b'` leaves a value of type `t` in a register. -/
def Yields (J : Job) (n : Nat) (q : Prop) (b : Builder) (S : Facts) (t : Ty) (r : Reg) (b' : Builder) : Prop :=
  ∃ S', Onward J n q b S b' S' ∧ Has J b' S' r t

theorem Onward.yields (h : Onward J n q b S b' S') (hy : Yields J m q' b' S' t r b'') (hn : n + m ≤ k)
    (hst : q'' → q ∧ q') : Yields J k q'' b S t r b'' := by
  obtain ⟨S'', ho, hr⟩ := hy
  exact ⟨S'', h.trans ho hn hst, hr⟩

/-- A builder leaves a value of type `t` in a register. -/
def Computes (J : Job) (V : Visible) (t : Ty) (n : Nat) (q : Prop) (x : Build Reg) : Prop :=
  ∀ b S, Env J V b S → b.current.isSome = true → x.Gives J.total b (Yields J n q b S t)

section

variable (hE : Env J V b S) (hc : b.current.isSome = true)
include hE hc

theorem operation_gives {ty : Ty} {rhs : Rhs} (hop : rhs.isOperation = true) (hty : J.ctx.Formed → ty.Formed)
    (htyped : b.Fits → rhs.Typed (J.names b) ty) (huses : ∀ q ∈ rhs.uses, S b.here (.reg q))
    (hlit : ∀ es, rhs = .makeTensor es → es.length ≤ J.limit) :
    (define ty rhs).Gives J.total b (Yields J 0 q b S ty) := by
  obtain ⟨c, hid⟩ := Option.isSome_iff_exists.1 hc
  obtain ⟨r, b', hrun, hr, he, hslots⟩ := define_emitted ty rhs hid
  obtain ⟨μ, hμ⟩ := hE.here
  refine .of_ok hrun ⟨S.with b.here (.reg r), ⟨.emitted he hc (fun hf => hr.tabled (hty hf)) (fun _ _ => .inl)
    (fun hs => hs) fun _ _ is W _ hi => ?_, ⟨he.values, hslots, he.loops⟩, he.current ▸ hc, by simp [he.size],
    fun _ _ is hi => ⟨_, _, by rw [he.body is hi, Body.set_self], ?_⟩, fun _ => he.current⟩,
    .inr ⟨he.here, rfl⟩, .new hr⟩
  · exact .operation hi hμ he hr hop (hE.fresh hr he.le)
      (fun hf => (htyped (he.le.fits hf)).mono (he.le.context _ _))
      huses hlit
  · simpa using isPhi_operation hop

theorem constant_gives {v : Value} (hvalid : v.Valid) (helem : v.toElem?.isSome) :
    (constant v >>= fun c => define v.ty (.const c)).Gives J.total b (Yields J 0 q b S v.ty) := by
  have hle : b.Le { b with constants := (b.constants.intern v).2 } :=
    ⟨rfl, .refl _, ConstantPool.le_intern _ v, fun _ _ h => h, fun _ _ h => h, Nat.le_refl _, Nat.le_refl _,
      Nat.le_refl _, fun _ _ h => h⟩
  have hformed := Value.formed_of_valid hvalid helem
  have ho : Onward J 0 q b S { b with constants := (b.constants.intern v).2 } S :=
    ⟨.tables hle (fun _ h => ⟨h.types, fun u hu => ?_, h.regs, h.slots⟩) rfl rfl, ⟨rfl, rfl, rfl⟩, hc, by simp,
      fun _ _ is hi => ⟨[], none, by rw [List.append_nil]; exact hi, by simp⟩, fun _ => rfl⟩
  · refine .bind (Q := fun c b' => c = (b.constants.intern v).1 ∧
      b' = { b with constants := (b.constants.intern v).2 })
      (.of_ok rfl ⟨rfl, rfl⟩) ?_
    rintro _ _ ⟨rfl, rfl⟩
    refine .mono (operation_gives (q := q) (ho.env hE) hc rfl (fun _ => hformed)
      (fun hf => ⟨v, ?_, rfl, hvalid, helem⟩) (by simp [Rhs.uses]) (by simp)) fun r b' hy =>
      ho.yields hy (Nat.le_refl _) fun h => ⟨h, h⟩
    exact ConstantPool.get?_intern hf.constants
  · rcases ConstantPool.mem_of_mem_intern hu with hu | rfl
    · exact h.constants u hu
    · exact ⟨hvalid, hformed⟩

theorem convertKind_gives (h : Has J b S src (.ofKind source)) :
    (convertKind source target src).Gives J.total b (Yields J 0 q b S (.ofKind target)) := by
  unfold convertKind
  split
  · rename_i heq
    exact .pure ⟨S, .refl hc, heq ▸ h⟩
  · exact operation_gives hE hc rfl (fun _ => Ty.formed_ofKind _) (fun hf => ⟨rfl, h.at_reg hf⟩)
      (by simpa [Rhs.uses] using h.1) (by simp)

omit hE hc in
theorem complexKindOf_gives (h : t.complexKind?.isSome = true) :
    (complexKindOf t).Gives J.total b fun k b' => t.complexKind? = some k ∧ b = b' := by
  obtain ⟨k, hk⟩ := Option.isSome_iff_exists.1 h
  unfold complexKindOf
  rw [hk]
  exact .pure ⟨rfl, rfl⟩

theorem convertToComplex_gives (h : Has J b S src source) (hs : source.IsScalar)
    (ht : target.complexKind?.isSome = true) :
    (convertToComplex src source target).Gives J.total b (Yields J 0 q b S target) := by
  refine .bind (complexKindOf_gives ht) ?_
  rintro elem _ ⟨hkind, rfl⟩
  obtain ⟨rfl, hfloat⟩ := Ty.eq_complexOf hkind
  have hmake : ∀ {b₁ S₁ b₂ S₂ re im}, Onward J 0 q b S b₁ S₁ → Has J b₁ S₁ re (.ofKind elem) →
      Onward J 0 q b₁ S₁ b₂ S₂ → Has J b₂ S₂ im (.ofKind elem) →
      (define (.complexOf elem) (.makeComplex elem re im)).Gives J.total b₂
      (Yields J 0 q b S (.complexOf elem)) := by
    intro b₁ S₁ b₂ S₂ re im ho₁ hre ho₂ him
    have hre := hre.onward ho₂
    refine .mono (operation_gives (q := q) (ho₂.env (ho₁.env hE)) ho₂.going rfl (fun _ =>
      Ty.formed_of_complexKind ht) (fun hf => ⟨rfl, hfloat, .cons (hre.at_reg hf) (.cons (him.at_reg hf) .nil)⟩)
      (by simpa [Rhs.uses] using ⟨hre.1, him.1⟩) (by simp)) fun r b' hy => ?_
    exact (ho₁.trans ho₂ (Nat.le_refl _) fun h => ⟨h, h⟩).yields hy (Nat.le_refl _) fun h => ⟨h, h⟩
  cases hk : source.kind? with
  | some k =>
    rw [Ty.eq_ofKind hk] at h
    refine .bind (convertKind_gives (q := q) hE hc h) ?_
    rintro re b₁ ⟨S₁, ho₁, hre⟩
    rw [← bind_assoc]
    refine .bind (constant_gives (q := q) (ho₁.env hE) ho₁.going (Value.valid_ofScalar elem 0) rfl) ?_
    rintro im b₂ ⟨S₂, ho₂, him⟩
    exact hmake ho₁ hre ho₂ him
  | none =>
    refine .bind (complexKindOf_gives (hs.resolve_left (by simp [hk]))) ?_
    rintro k _ ⟨hck, rfl⟩
    obtain ⟨rfl, hkfloat⟩ := Ty.eq_complexOf hck
    have hpart : ∀ {b₀ S₀} (p : ComplexPart), Onward J 0 q b S b₀ S₀ →
        (define (.ofKind k) (.complexPart p k src) >>= convertKind k elem).Gives J.total b₀
          (Yields J 0 q b₀ S₀ (.ofKind elem)) := by
      intro b₀ S₀ p ho
      have hsrc := h.onward ho
      refine .bind (operation_gives (q := q) (ho.env hE) ho.going rfl (fun _ => Ty.formed_ofKind _)
        (fun hf => ⟨rfl, hkfloat, hsrc.at_reg hf⟩) (by simpa [Rhs.uses] using hsrc.1) (by simp)) ?_
      rintro r b₁ ⟨S₁, ho₁, hr⟩
      exact (convertKind_gives (ho₁.env (ho.env hE)) ho₁.going hr).mono fun _ _ hy =>
        ho₁.yields hy (Nat.le_refl _) fun h => ⟨h, h⟩
    rw [← bind_assoc]
    refine .bind (hpart .re (.refl hc)) ?_
    rintro re b₁ ⟨S₁, ho₁, hre⟩
    rw [← bind_assoc]
    refine .bind (hpart .im ho₁) ?_
    rintro im b₂ ⟨S₂, ho₂, him⟩
    exact hmake ho₁ hre ho₂ him

theorem convert_gives (h : Has J b S src source) (hconv : source.Converts target) :
    (convert src source target).Gives J.total b (Yields J 0 q b S target) := by
  unfold convert
  split
  · rename_i heq
    exact .pure ⟨S, .refl hc, heq ▸ h⟩
  split
  · rename_i f t hf ht
    rw [Ty.eq_ofKind hf] at h
    exact operation_gives hE hc rfl (fun _ => hconv.formed) (fun hfits => ⟨Ty.eq_ofKind ht, h.at_reg hfits⟩)
      (by simpa [Rhs.uses] using h.1) (by simp)
  · rename_i hreal
    obtain ⟨hs, ht⟩ : source.IsScalar ∧ target.complexKind?.isSome = true := by
      rcases hconv with ⟨hs, ht⟩ | hc
      · obtain ⟨j, hj⟩ := Option.isSome_iff_exists.1 hs
        obtain ⟨k, hk⟩ := Option.isSome_iff_exists.1 ht
        exact absurd hk (hreal j k hj)
      · exact hc
    exact convertToComplex_gives hE hc h hs ht

theorem code_gives {node : TNode} (hnode : NodeTyped J.ctx V t node) (hstrict : node.isStrict = true)
    (hformed : J.ctx.Formed → t.Formed) (hn : node.operands.length ≤ J.limit) (span : Source.Span)
    (hrs : List.Forall₂ (fun r e => Has J b S r (TExpr.ty e)) rs node.operands) :
    (node.code t span rs).Gives J.total b (Yields J 0 q b S t) := by
  by_cases hconst : ∃ v, node = .const v
  · obtain ⟨v, rfl⟩ := hconst
    obtain ⟨rfl, hvalid, helem⟩ := hnode
    exact constant_gives hE hc hvalid helem
  by_cases hconvert : ∃ e, node = .convert e
  · obtain ⟨e, rfl⟩ := hconvert
    obtain ⟨r, _, hr, hnil, rfl⟩ := List.forall₂_cons_right_iff.1 hrs
    cases hnil
    exact convert_gives hE hc hr hnode
  obtain ⟨rhs, hrhs, huses, hop, htyped⟩ := TNode.exists_rhs hnode hstrict (fun v hv => hconst ⟨v, hv⟩)
    (fun e he => hconvert ⟨e, he⟩) span hrs.length_eq
  have hcode : node.code t span rs = define t rhs := by
    cases node with
    | const v => exact absurd ⟨v, rfl⟩ hconst
    | convert e => exact absurd ⟨e, rfl⟩ hconvert
    | _ =>
      simp only [TNode.code, hrhs]
      rfl
  rw [hcode]
  refine operation_gives hE hc hop hformed (fun hf => htyped _ (fun _ _ h => h) (fun r decl hr => ?_) ?_) ?_ ?_
  · obtain ⟨id, -, hid⟩ := Option.bind_eq_some_iff.1 hr
    exact hf.fields id decl hid
  · exact List.forall₂_map_right_iff.2 (hrs.imp fun r e hr => hr.at_reg hf)
  · intro q hq
    obtain ⟨e, -, hr⟩ := forall₂_exists_right hrs (huses ▸ hq)
    exact hr.1
  · rintro es rfl
    rw [show es = rs from huses, hrs.length_eq]
    exact hn

theorem read_gives (hV : V x) (hx : J.ctx.binding x = some t) :
    (read x).Gives J.total b (Yields J 0 q b S t) := by
  refine .reads ?_
  cases hslot : b.slots.lookup x with
  | some addr =>
    obtain ⟨haddr, u, hu, hat⟩ := hE.slots x addr hV hslot
    cases hx.symm.trans hu
    refine .reads ?_
    rw [(hE.locals x t hx).1]
    exact operation_gives hE hc rfl (fun hf => hf.binding x t hx) (fun hf => ⟨.mutable, (hat hf).1⟩)
      (by simpa [Rhs.uses] using haddr) (by simp)
  | none =>
    refine .reads ?_
    cases hget : b.values.get? x with
    | some r =>
      obtain ⟨hr, u, hu, hat⟩ := hE.values x r (mem_of_lookup hget)
      cases hx.symm.trans hu
      exact .pure ⟨S, .refl hc, hr, hat⟩
    | none =>
      refine .reads (.refuse fun hT => ?_)
      have hlocated := hE.located hT x hV
      unfold Located at hlocated
      split at hlocated
      · rw [hslot] at hlocated
        cases hlocated
      · rw [hget] at hlocated
        cases hlocated

end

end NumericEngine.Lowering
