import NumericEngine.Proofs.Ir.Construction

/-!
# What is known where

What every way to a place has passed: definitions of registers, and blocks. It is
described by how far ways are followed back, so that a fact about the header of a
loop may rest on the same fact one step earlier. When every instruction reads what
is known before it, however far one looks, the code is well scoped
(`Body.partial_of_levels`).
-/

namespace NumericEngine.Ir

open List

/-- Something that a way may have passed. -/
inductive Mark where
  | reg (r : Reg)
  | block (i : Nat)

namespace Body

/-- The instruction at a position. -/
def At (body : Body) (i k : Nat) (x : Instr) : Prop := ∃ is t, body i = some (is, t) ∧ is[k]? = some x

/-- Passed in block `i` before position `k`. -/
def Made (body : Body) (i k : Nat) : Mark → Prop
  | .reg r => ∃ l < k, ∃ x, body.At i l x ∧ x.dst? = some r
  | .block j => j = i

variable (body : Body) (ps : List Reg)

/-- Passed before the start of a block, as far as the last `n` edges tell. -/
def Brought : Nat → Nat → Mark → Prop
  | 0, _, _ => True
  | n + 1, j, μ => (j = 0 → ∃ r ∈ ps, μ = .reg r) ∧
    ∀ i, body.Leads i j → ∃ k, Brought n i μ ∨ body.Made i k μ

/-- Passed before position `k` of block `i`. -/
def Known (n i k : Nat) (μ : Mark) : Prop := body.Brought ps n i μ ∨ body.Made i k μ

/-- A chain of forward edges leads to block `i`, and what is defined on it comes before `N`. -/
inductive Reached : Nat → Nat → Prop
  | start (N : Nat) : Reached 0 N
  | step : Reached j M → j < i → body.Leads j i → M ≤ N →
    (∀ k x d, body.At j k x → x.dst? = some d → d.index.toNat < N) → Reached i N

variable {body ps} {n i k : Nat} {μ : Mark}

theorem Brought.pred (h : body.Brought ps (n + 1) i μ) : body.Brought ps n i μ := by
  induction n generalizing i with
  | zero => trivial
  | succ n ih =>
    refine ⟨h.1, fun j hj => ?_⟩
    obtain ⟨k, hk⟩ := h.2 j hj
    exact ⟨k, hk.imp_left ih⟩

theorem Made.mono (h : body.Made i k μ) (hk : k ≤ l) : body.Made i l μ := by
  cases μ with
  | reg r =>
    obtain ⟨p, hp, hx⟩ := h
    exact ⟨p, Nat.lt_of_lt_of_le hp hk, hx⟩
  | block j => exact h

theorem Known.mono (h : body.Known ps n i k μ) (hk : k ≤ l) : body.Known ps n i l μ :=
  h.imp_right fun hm => hm.mono hk

theorem brought_succ (hi : i ≠ 0) (h : ∀ j, body.Leads j i → ∃ k, body.Known ps n j k μ) :
    body.Brought ps (n + 1) i μ :=
  ⟨fun h0 => absurd h0 hi, h⟩

theorem brought_of_preds (hi : i ≠ 0) (h : ∀ j, body.Leads j i → ∃ k, body.Known ps n j k μ) :
    body.Brought ps n i μ :=
  (brought_succ hi h).pred

theorem Reached.mono (h : body.Reached i N) (hN : N ≤ M) : body.Reached i M := by
  cases h with
  | start => exact .start M
  | step hj hlt hlead hle hdsts =>
    exact .step hj hlt hlead (Nat.le_trans hle hN) fun k x d hx hd =>
      Nat.lt_of_lt_of_le (hdsts k x d hx hd) hN

theorem Reached.entered (h : body.Reached i N) : body.Entered i := by
  cases h with
  | start => exact .inl rfl
  | step _ hlt hlead => exact .inr ⟨_, hlt, hlead⟩

theorem Reached.lt (h : body.Reached i N) (hr : ∀ n, body.Brought ps n i (.reg r)) :
    r ∈ ps ∨ r.index.toNat < N := by
  induction h with
  | start =>
    obtain ⟨s, hs, heq⟩ := (hr 1).1 rfl
    cases heq
    exact .inl hs
  | @step j M i N _ _ hlead hle hdsts ih =>
    by_cases hmade : ∃ k, body.Made j k (.reg r)
    · obtain ⟨k, l, -, x, hx, hd⟩ := hmade
      exact .inr (hdsts l x r hx hd)
    · refine (ih fun n => ?_).imp_right fun hlt => Nat.lt_of_lt_of_le hlt hle
      obtain ⟨k, hk⟩ := (hr (n + 1)).2 j hlead
      exact hk.resolve_right fun hm => hmade ⟨k, hm⟩

end Body

section

variable (Γ : Context) (ps : List Reg) (body : Body) (n i : Nat)

/-- The inputs of a phi of type `t` in block `i` belong to the edges to it. -/
structure PhiOk (t : Ty) (incoming : List (BlockId × Reg)) : Prop where
  typed : ∀ p ∈ incoming, Γ.At p.2 t
  known : ∀ p ∈ incoming, ∃ k, body.Known ps n p.1.index.toNat k (.reg p.2)
  sources : (incoming.map fun p => p.1.index.toNat).Nodup
  preds : ∀ j, body.Leads j i ↔ ∃ p ∈ incoming, p.1.index.toNat = j
  first : ∀ p, incoming.head? = some p → ∀ x d, body.At i 0 x → x.dst? = some d →
    p.2.index.toNat < d.index.toNat

/-- An instruction at position `k` of block `i` reads what is known there. The inputs of a phi need not
be there yet if the block is `unsettled`. -/
def InstrOk (unsettled : Prop) (k : Nat) : Instr → Prop
  | .store addr value => body.Known ps n i k (.reg addr) ∧ body.Known ps n i k (.reg value) ∧
    ∃ t m, Γ.At addr (.reference t m) ∧ Γ.At value t
  | .define d rhs => (∃ N ≤ d.index.toNat, body.Reached i N) ∧ d ∉ ps ∧ ∃ t, Γ.reg d = some t ∧
    match rhs with
    | .phi incoming => i ≠ 0 ∧ (∀ l < k, ∀ x, body.At i l x → x.isPhi = true) ∧
      (¬unsettled → PhiOk Γ ps body n i t incoming)
    | .stackSlot s => (Rhs.stackSlot s).Typed Γ t ∧ ∃ v, body.At i (k + 1) (.store d v)
    | rhs => rhs.Typed Γ t ∧ ∀ r ∈ rhs.uses, body.Known ps n i k (.reg r)

end

variable {Γ : Context} {ps : List Reg} {body : Body} {n i k : Nat} {is : List Instr}

theorem InstrOk.operation {rhs : Rhs} (hop : rhs.isOperation = true) (hN : ∃ N ≤ d.index.toNat, body.Reached i N)
    (hd : d ∉ ps) (ht : Γ.reg d = some t) (htyped : rhs.Typed Γ t)
    (huses : ∀ r ∈ rhs.uses, body.Known ps n i k (.reg r)) :
    InstrOk Γ ps body n i op k (.define d rhs) := by
  refine ⟨hN, hd, t, ht, ?_⟩
  cases rhs with
  | phi | stackSlot => cases hop
  | _ => exact ⟨htyped, huses⟩

theorem InstrOk.loosen (h : InstrOk Γ ps body n i p k x) (hp : p → q) : InstrOk Γ ps body n i q k x := by
  cases x with
  | store => exact h
  | define d rhs =>
    obtain ⟨hN, hd, t, ht, hrhs⟩ := h
    refine ⟨hN, hd, t, ht, ?_⟩
    cases rhs with
    | phi => exact ⟨hrhs.1, hrhs.2.1, fun hq => hrhs.2.2 fun hp' => hq (hp hp')⟩
    | _ => exact hrhs

theorem Body.at_iff (h : body i = some (is, t)) : body.At i k x ↔ is[k]? = some x := by
  simp [At, h]

theorem Body.mem_dsts_iff (h : body i = some (is, t)) : r ∈ dsts is ↔ ∃ k x, body.At i k x ∧ x.dst? = some r := by
  simp only [Body.at_iff h, Ir.mem_dsts_iff]

theorem Sequence.of_positions {known : Reg → Prop}
    (h : ∀ (k : Nat) (x : Instr), is[k]? = some x → x.Scoped Γ (fun r => known r ∨ r ∈ dsts (is.take k))
    (is.drop (k + 1))) : Sequence Γ known is := by
  induction is generalizing known with
  | nil => trivial
  | cons x is ih =>
    refine ⟨by simpa [dsts] using h 0 x rfl, ih fun k y hy => ?_⟩
    have hknown : (fun r => x.after known r ∨ r ∈ dsts (is.take k)) =
        fun r => known r ∨ r ∈ dsts ((x :: is).take (k + 1)) :=
      funext fun r => propext Instr.after_or_dsts
    rw [hknown]
    exact h (k + 1) y hy

theorem PhisLead.of_positions (h : ∀ (k : Nat) (x : Instr), is[k]? = some x → x.isPhi = true →
    ∀ l < k, ∀ y : Instr, is[l]? = some y → y.isPhi = true) : PhisLead is := by
  induction is with
  | nil => exact .of_none nofun
  | cons x is ih =>
    cases hx : x.isPhi with
    | true =>
      refine (ih fun k y hy hphi l hl z hz => ?_).cons hx
      exact h (k + 1) y hy hphi (l + 1) (Nat.succ_lt_succ hl) z hz
    | false =>
      refine .of_none fun y hy => ?_
      obtain ⟨k, hk⟩ := mem_iff_getElem?.1 hy
      cases k with
      | zero => exact (Option.some.inj hk) ▸ hx
      | succ k =>
        refine Bool.eq_false_iff.2 fun hphi => ?_
        have := h (k + 1) y hk hphi 0 (Nat.succ_pos k) x rfl
        simp [hx] at this

namespace Body

/-- The registers that all ways bring to a block. -/
def entry (ps : List Reg) (body : Body) : Entry := fun i r =>
  (∃ b, body i = some b) ∧ ∀ n, body.Brought ps n i (.reg r)

theorem entry_or_made (hi : body i = some b) (h : ∀ n, ∃ k, body.Known ps n i k (.reg r)) :
    body.entry ps i r ∨ ∃ k, body.Made i k (.reg r) := by
  by_cases hmade : ∃ k, body.Made i k (.reg r)
  · exact .inr hmade
  · refine .inl ⟨⟨b, hi⟩, fun n => ?_⟩
    obtain ⟨k, hk⟩ := h n
    exact hk.resolve_right fun hm => hmade ⟨k, hm⟩

theorem available_of_levels (h : ∀ n, ∃ k, body.Known ps n i k (.reg r)) (hi : body i = some (is, t)) :
    Available (body.entry ps) body i r := by
  refine (entry_or_made hi h).imp_right ?_
  rintro ⟨k, l, -, x, hx, hd⟩
  exact ⟨is, t, hi, (Body.mem_dsts_iff hi).2 ⟨l, x, hx, hd⟩⟩

theorem known_of_levels (h : ∀ n, body.Known ps n i k (.reg r)) (hi : body i = some (is, t)) :
    body.entry ps i r ∨ r ∈ dsts (is.take k) := by
  by_cases hmade : body.Made i k (.reg r)
  · obtain ⟨l, hl, x, hx, hd⟩ := hmade
    refine .inr (mem_filterMap.2 ⟨x, mem_iff_getElem?.2 ⟨l, ?_⟩, hd⟩)
    rw [getElem?_take, if_pos hl]
    exact (at_iff hi).1 hx
  · exact .inl ⟨⟨_, hi⟩, fun n => (h n).resolve_right hmade⟩

variable {N : Nat} {ret : Ty}

/-- Code is well scoped when all of its parts are, however far ways are followed back. -/
theorem partial_of_levels (hrank : Γ.rank = Ir.rank ps)
    (hinstr : ∀ n i k x, body.At i k x → InstrOk Γ ps body n i False k x)
    (hend : ∀ n i is u, body i = some (is, some u) →
      u.Scoped Γ ret fun r => body.Known ps n i is.length (.reg r))
    (hreached : ∀ i is t, body i = some (is, t) → ∃ M ≤ N, body.Reached i M)
    (htargets : ∀ i j, body.Leads i j → ∃ b, body j = some b)
    (hnumbers : ∀ i k x d, body.At i k x → x.dst? = some d → d.index.toNat < N)
    (horder : ∀ i k x d, body.At i k x → x.dst? = some d → ∀ j l y e, body.At j l y → y.dst? = some e →
      (d = e → i = j) ∧ (i = j → k < l → d.index.toNat < e.index.toNat)) :
    body.Partial Γ ret ps N (fun _ _ => False) (body.entry ps) := by
  have hfresh : ∀ {i k x d}, body.At i k x → x.dst? = some d → d ∉ ps := by
    intro i k x d hx hd
    have hok := hinstr 0 i k x hx
    cases x with
    | store => cases hd
    | define d' rhs =>
      cases hd
      exact hok.2.1
  have hlt : ∀ {r d : Reg}, d ∉ ps → r ∈ ps ∨ r.index.toNat < d.index.toNat → Γ.rank r < Γ.rank d := by
    intro r d hd hr
    rw [hrank, Ir.rank, Ir.rank, if_neg hd]
    split
    · exact Nat.succ_pos _
    · exact Nat.succ_lt_succ (hr.resolve_left ‹_›)
  have hphi : ∀ {i k dst incoming}, body.At i k (.define dst (.phi incoming)) → i ≠ 0 ∧
      ∀ n, ∃ t, Γ.reg dst = some t ∧ PhiOk Γ ps body n i t incoming := by
    intro i k dst incoming hx
    obtain ⟨-, -, t, -, hi, -⟩ := hinstr 0 i k _ hx
    refine ⟨hi, fun n => ?_⟩
    obtain ⟨-, -, t, ht, -, -, hok⟩ := hinstr n i k _ hx
    exact ⟨t, ht, hok not_false⟩
  have hmem : ∀ {i is t dst incoming}, body i = some (is, t) → .define dst (.phi incoming) ∈ is →
      ∃ k, body.At i k (.define dst (.phi incoming)) := by
    intro i is t dst incoming hi hd
    obtain ⟨k, hk⟩ := mem_iff_getElem?.1 hd
    exact ⟨k, (at_iff hi).2 hk⟩
  have hinputs : ∀ {i k dst incoming}, body.At i k (.define dst (.phi incoming)) → ∀ p ∈ incoming,
      Available (body.entry ps) body p.1.index.toNat p.2 := by
    intro i k dst incoming hx p hp
    obtain ⟨t, -, hok⟩ := (hphi hx).2 0
    obtain ⟨is, u, hu, -⟩ := (hok.preds p.1.index.toNat).2 ⟨p, hp, rfl⟩
    refine available_of_levels (fun n => ?_) hu
    obtain ⟨t, -, hok⟩ := (hphi hx).2 n
    exact hok.known p hp
  refine {
    rank := hrank
    start := fun r hr => ?_
    block := fun {i is t} hi => {
      noPhis := fun h0 x hx => ?_
      sequence := .of_positions fun k x hx => ?_
      lead := .of_positions fun k x hx hp l hl y hy => ?_
      inputs := fun dst incoming hd => ?_
      first := fun dst incoming hd p hp d hdst => ?_
      terminator := ?_
      fresh := fun r hr hmem => ?_
      sources := fun dst incoming hd => ?_
      entered := .inr (hreached i is t hi).choose_spec.2.entered }
    edge := fun i j hij => ?_
    unique := fun i j is js t u hi hj r hr hr' => ?_
    below := fun i r hr => ?_
    closed := fun i r hr => hr.1 }
  · obtain ⟨s, hs, heq⟩ := (hr.2 1).1 rfl
    cases heq
    exact hs
  · refine Bool.eq_false_iff.2 fun hp => ?_
    obtain ⟨dst, incoming, rfl⟩ := Instr.isPhi_iff.1 hp
    obtain ⟨k, hk⟩ := hmem hi hx
    exact (hphi hk).1 h0
  · have hat := (at_iff hi).2 hx
    have hok := fun n => hinstr n i k x hat
    cases x with
    | store a v =>
      exact ⟨known_of_levels (fun n => (hok n).1) hi, known_of_levels (fun n => (hok n).2.1) hi, (hok 0).2.2⟩
    | define d rhs =>
      obtain ⟨⟨M, hM, hMr⟩, hd, t', ht', hrhs⟩ := hok 0
      refine ⟨fun r hr => hlt hd ?_, ⟨t', ht', ?_⟩, ?_⟩
      · rcases hr with hr | hr
        · exact (hMr.lt hr.2).imp_right fun hr => Nat.lt_of_lt_of_le hr hM
        · obtain ⟨y, hy, hdy⟩ := mem_filterMap.1 hr
          obtain ⟨l, hl⟩ := mem_iff_getElem?.1 hy
          rw [getElem?_take] at hl
          split at hl
          · exact .inr ((horder i l y r ((at_iff hi).2 hl) hdy i k _ d hat rfl).2 rfl ‹_›)
          · cases hl
      · cases rhs with
        | phi => exact (hrhs.2.2 not_false).typed
        | _ => exact hrhs.1
      · cases rhs with
        | phi => trivial
        | stackSlot =>
          obtain ⟨v, hv⟩ := hrhs.2
          exact ⟨v, by rw [head?_drop]; exact (at_iff hi).1 hv⟩
        | _ =>
          intro r hr
          refine known_of_levels (fun n => ?_) hi
          obtain ⟨-, -, -, -, -, huses⟩ := hok n
          exact huses r hr
  · obtain ⟨dst, incoming, rfl⟩ := Instr.isPhi_iff.1 hp
    obtain ⟨-, -, t, -, -, hlead, -⟩ := hinstr 0 i k _ ((at_iff hi).2 hx)
    exact hlead l hl y ((at_iff hi).2 hy)
  · obtain ⟨k, hk⟩ := hmem hi hd
    exact hinputs hk
  · obtain ⟨k, hk⟩ := hmem hi hd
    obtain ⟨t', -, hok⟩ := (hphi hk).2 0
    obtain ⟨l, y, hy, hdy⟩ := (Body.mem_dsts_iff hi).1 hdst
    refine hlt (hfresh hy hdy) (.inr ?_)
    -- the first definition of the block is the phi at its start
    obtain ⟨-, -, -, -, -, hlead, -⟩ := hinstr 0 i k _ hk
    have hzero : ∃ x d₀, body.At i 0 x ∧ x.dst? = some d₀ := by
      cases k with
      | zero => exact ⟨_, dst, hk, rfl⟩
      | succ k =>
        have hlen : 0 < is.length := Nat.lt_of_le_of_lt (Nat.zero_le _)
          (List.getElem?_eq_some_iff.1 ((at_iff hi).1 hk)).1
        have hat : body.At i 0 is[0] := (at_iff hi).2 (getElem?_eq_getElem hlen)
        obtain ⟨d₀, inc, heq⟩ := Instr.isPhi_iff.1 (hlead 0 (Nat.succ_pos k) _ hat)
        exact ⟨_, d₀, hat, by rw [heq]; rfl⟩
    obtain ⟨x, d₀, hx, hd₀⟩ := hzero
    have hfirst := hok.first p hp x d₀ hx hd₀
    cases l with
    | zero =>
      cases ((at_iff hi).1 hx).symm.trans ((at_iff hi).1 hy)
      cases hd₀.symm.trans hdy
      exact hfirst
    | succ l => exact Nat.lt_trans hfirst ((horder i 0 x d₀ hx hd₀ i (l + 1) y d hy hdy).2 rfl (Nat.succ_pos l))
  · rintro u rfl
    have hscoped := fun n => hend n i is u hi
    have hav : ∀ r, (∀ n, body.Known ps n i is.length (.reg r)) →
      Available (body.entry ps) body i r := fun r hr =>
      available_of_levels (fun n => ⟨_, hr n⟩) hi
    cases u with
    | jump => trivial
    | branch | ret => exact ⟨hav _ fun n => (hscoped n).1, (hscoped 0).2⟩
  · obtain ⟨k, x, hx, hd⟩ := (Body.mem_dsts_iff hi).1 hmem
    exact hfresh hx hd hr
  · obtain ⟨k, hk⟩ := hmem hi hd
    obtain ⟨t', -, hok⟩ := (hphi hk).2 0
    exact ⟨hok.sources, fun p hp => (hok.preds _).2 ⟨p, hp, rfl⟩⟩
  · obtain ⟨b, hb⟩ := htargets i j hij
    obtain ⟨is, t, hi, -⟩ := id hij
    refine ⟨b.1, b.2, hb, fun r hr => ?_, .inl fun dst incoming hd => ?_⟩
    · exact available_of_levels (fun n => (hr.2 (n + 1)).2 i hij) hi
    · obtain ⟨k, hk⟩ := hmem hb hd
      obtain ⟨t', -, hok⟩ := (hphi hk).2 0
      exact (hok.preds i).1 hij
  · obtain ⟨k, x, hx, hd⟩ := (Body.mem_dsts_iff hi).1 hr
    obtain ⟨l, y, hy, he⟩ := (Body.mem_dsts_iff hj).1 hr'
    exact (horder i k x r hx hd j l y r hy he).1 rfl
  · rcases hr with ⟨⟨b, hi⟩, hr⟩ | ⟨is, t, hi, hr⟩
    · obtain ⟨M, hM, hMr⟩ := hreached i b.1 b.2 hi
      exact (hMr.lt hr).imp_right fun hlt => Nat.lt_of_lt_of_le hlt hM
    · obtain ⟨k, x, hx, hd⟩ := (Body.mem_dsts_iff hi).1 hr
      exact .inr (hnumbers i k x r hx hd)

end Body

end NumericEngine.Ir

