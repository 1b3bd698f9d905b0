import NumericEngine.Proofs.Lowering.Builder
import NumericEngine.Proofs.Typing.Judgement

/-!
# Steps towards finished code

What is said of code under construction is said of the code that it becomes: what
a builder holds is a part of that (`Ahead`), and all of the part that is built is
in order (`State`). So nothing has to be said again when the builder goes on. A
step of construction has to be in order itself (`Step`).
-/

namespace NumericEngine.Lowering

open Ir (Rhs Instr Terminator Body Mark InstrOk PhiOk)
open Build

/-- An instruction but for the inputs of a phi. -/
def shape : Instr → Instr
  | .define d (.phi _) => .define d (.phi [])
  | x => x

@[simp] theorem isPhi_shape (x : Instr) : (shape x).isPhi = x.isPhi := by
  cases x with
  | store => rfl
  | define d rhs => cases rhs <;> rfl

@[simp] theorem dst?_shape (x : Instr) : (shape x).dst? = x.dst? := by
  cases x with
  | store => rfl
  | define d rhs => cases rhs <;> rfl

theorem shape_of_not_phi (hx : x.isPhi = false) : shape x = x := by
  cases x with
  | store => rfl
  | define d rhs =>
    cases rhs with
    | phi => cases hx
    | _ => rfl

theorem isPhi_operation {rhs : Rhs} (hop : rhs.isOperation = true) : (Instr.define d rhs).isPhi = false := by
  cases rhs with
  | phi => cases hop
  | _ => rfl

/-- Later contents of a block: it has got more instructions, or its end. The inputs of phis may have
changed where they are `loose`. -/
structure Grown (loose : Prop) (is : List Instr) (t : Option Terminator) (js : List Instr)
    (u : Option Terminator) : Prop where
  shapes : is.map shape <+: js.map shape
  kept : ¬loose → is <+: js
  ended : ∀ v, t = some v → u = some v ∧ js.length = is.length

/-- A builder may become `z`, and all edges to its blocks but those of `W` are there. -/
structure Ahead (W : Nat → Prop) (b z : Builder) : Prop where
  le : b.Le z
  room : z.blocks.size ≤ 2 ^ 32
  kept : ∀ i is t, b.body i = some (is, t) → ∃ js u, z.body i = some (js, u) ∧ Grown (W i) is t js u
  preds : ∀ i j, j < b.blocks.size → z.body.Leads i j → W j ∨ b.body.Leads i j

variable {W W' : Nat → Prop} {b b' z : Builder} {i j k : Nat} {is js : List Instr} {x y : Instr}

theorem Grown.trans (h : Grown p is t js u) (h' : Grown q js u ks v) (hq : q → p) : Grown p is t ks v where
  shapes := h.shapes.trans h'.shapes
  kept hp := (h.kept hp).trans (h'.kept fun hq' => hp (hq hq'))
  ended w hw := by
    obtain ⟨hu, hlen⟩ := h.ended w hw
    obtain ⟨hv, hlen'⟩ := h'.ended w hu
    exact ⟨hv, hlen'.trans hlen⟩

theorem Grown.append (p : Prop) (is xs : List Instr) : Grown p is none (is ++ xs) u where
  shapes := by simp
  kept _ := List.prefix_append is xs
  ended := nofun

theorem Grown.refl (p : Prop) (is : List Instr) (t : Option Terminator) : Grown p is t is t :=
  ⟨List.prefix_refl _, fun _ => List.prefix_refl _, fun _ hv => ⟨hv, rfl⟩⟩

namespace Ahead

theorem refl (W : Nat → Prop) (hroom : b.blocks.size ≤ 2 ^ 32) : Ahead W b b :=
  ⟨.refl b, hroom, fun _ is t hi => ⟨is, t, hi, .refl _ is t⟩, fun _ _ _ h => .inr h⟩

variable (h : Ahead W b z)
include h

theorem fits (hf : z.Fits) : b.Fits := h.le.fits hf

theorem mono (hW : ∀ i < b.blocks.size, W i → W' i) : Ahead W' b z where
  le := h.le
  room := h.room
  kept i is t hi := by
    obtain ⟨js, u, hz, hg⟩ := h.kept i is t hi
    exact ⟨js, u, hz, (Grown.refl _ is t).trans hg (hW i (Builder.lt_of_body hi))⟩
  preds i j hj hlead := (h.preds i j hj hlead).imp_left (hW j hj)

/-- What holds after a block was changed holds before. -/
theorem before {b₀ : Builder} (hle : b₀.Le b) (hbody : b.body = b₀.body.set k (js, u))
    (hgrown : ∀ is t, b₀.body k = some (is, t) → Grown (W' k) is t js u)
    (hW : ∀ i < b₀.blocks.size, W i → W' i)
    (hout : ∀ v, u = some v → ∀ s ∈ v.successors, s.index.toNat < b₀.blocks.size →
      W' s.index.toNat ∨ b₀.body.Leads k s.index.toNat) : Ahead W' b₀ z where
  le := hle.trans h.le
  room := h.room
  kept i is t hi := by
    by_cases hik : i = k
    · subst hik
      obtain ⟨ks, v, hz, hg⟩ := h.kept i js u (by rw [hbody, Body.set_self])
      exact ⟨ks, v, hz, (hgrown is t hi).trans hg (hW i (Builder.lt_of_body hi))⟩
    · obtain ⟨ks, v, hz, hg⟩ := h.kept i is t (by rw [hbody, Body.set_of_ne hik, hi])
      exact ⟨ks, v, hz, (Grown.refl _ is t).trans hg (hW i (Builder.lt_of_body hi))⟩
  preds i j hj hlead := by
    rcases h.preds i j (Nat.lt_of_lt_of_le hj hle.blockCount) hlead with hWj | ⟨is, v, hi, s, hs, rfl⟩
    · exact .inl (hW j hj hWj)
    · rw [hbody] at hi
      rcases Body.set_eq_some hi with ⟨rfl, heq⟩ | ⟨-, hi⟩
      · cases heq
        exact hout v rfl s hs hj
      · exact .inr ⟨is, v, hi, s, hs, rfl⟩

theorem same {b₀ : Builder} (hle : b₀.Le b) (hbody : b.body = b₀.body) : Ahead W b₀ z where
  le := hle.trans h.le
  room := h.room
  kept i is t hi := h.kept i is t (hbody ▸ hi)
  preds i j hj hlead := hbody ▸ h.preds i j (Nat.lt_of_lt_of_le hj hle.blockCount) hlead

theorem leads (hlead : b.body.Leads i j) : z.body.Leads i j := by
  obtain ⟨is, v, hi, hs⟩ := hlead
  obtain ⟨js, u, hz, hg⟩ := h.kept i is _ hi
  exact ⟨js, v, by rw [hz, (hg.ended v rfl).1], hs⟩

theorem exists_body (hi : i < b.blocks.size) : ∃ p, z.body i = some p := by
  cases hb : b.body i with
  | none => exact absurd (Builder.body_eq_none.1 hb) (by omega)
  | some p =>
    obtain ⟨js, u, hz, -⟩ := h.kept i p.1 p.2 hb
    exact ⟨_, hz⟩

theorem shape_at (hi : b.body i = some (is, t)) (hk : k < is.length) :
    ∃ y, z.body.At i k y ∧ is[k]?.map shape = some (shape y) := by
  obtain ⟨js, u, hz, hg⟩ := h.kept i is t hi
  obtain ⟨rest, hrest⟩ := hg.shapes
  have heq : (js.map shape)[k]? = (is.map shape)[k]? := by
    rw [← hrest, List.getElem?_append_left (by simpa using hk)]
  rw [List.getElem?_map, List.getElem?_map, List.getElem?_eq_getElem hk] at heq
  obtain ⟨y, hy, hshape⟩ := Option.map_eq_some_iff.1 heq
  refine ⟨y, (Body.at_iff hz).2 hy, ?_⟩
  rw [List.getElem?_eq_getElem hk, hshape]
  rfl

theorem at_iff (hi : b.body i = some (is, t)) (hx : is[k]? = some x) (hphi : x.isPhi = false ∨ ¬W i) :
    z.body.At i k y ↔ y = x := by
  have hat : z.body.At i k x := by
    rcases hphi with hphi | hW
    · obtain ⟨y, hy, hshape⟩ := h.shape_at hi (List.getElem?_eq_some_iff.1 hx).1
      rw [hx, Option.map_some, Option.some.injEq, shape_of_not_phi hphi] at hshape
      rw [hshape, shape_of_not_phi (by rw [← isPhi_shape, ← hshape, hphi])]
      exact hy
    · obtain ⟨js, u, hz, hg⟩ := h.kept i is t hi
      obtain ⟨rest, rfl⟩ := hg.kept hW
      exact (Body.at_iff hz).2 (by rw [List.getElem?_append_left (List.getElem?_eq_some_iff.1 hx).1, hx])
  obtain ⟨js, u, hz, hx⟩ := hat
  rw [Body.at_iff hz, hx, Option.some.injEq, eq_comm]

end Ahead

/-! ## States -/

/-- What the lowering of one function goes by. -/
structure Job where
  ctx : Typing.Context
  params : List Reg
  /-- Lowering is known to succeed. -/
  total : Prop
  /-- There may be edges to blocks that are no later. -/
  back : Prop
  /-- No tensor is made of more elements. -/
  limit : Nat
  /-- What finished code holds. -/
  goal : Builder → Prop

/-- What the instructions of finished code can name. -/
abbrev Job.names (J : Job) (z : Builder) : Ir.Context := z.context J.ctx.sig J.params

/-- What has been passed at the end of a block. -/
abbrev Facts := Nat → Mark → Prop

/-- The join of a short-circuit operator, or the exit of a loop. -/
def Builder.Early (b : Builder) (j : Nat) : Prop :=
  ∃ l, b.label j = some l ∧ (l = "sc" ++ toString j ∨ l = "endloop" ++ toString j)

/-- There is an instruction at a position. -/
def Builder.Covers (b : Builder) (i k : Nat) : Prop := ∃ is t, b.body i = some (is, t) ∧ k < is.length

/-- The end of block `i`, after `k` instructions. -/
structure EndOk (J : Job) (n : Nat) (z : Builder) (i k : Nat) (u : Terminator) : Prop where
  reads : z.Fits → u.Scoped (J.names z) J.ctx.ret fun r => z.body.Known J.params n i k (.reg r)
  reached : z.Fits → ∃ N ≤ z.regTypes.size, z.body.Reached i N
  targets : ∀ s ∈ u.successors, ∃ p, z.body s.index.toNat = some p
  order : ∀ s ∈ u.successors, s.index.toNat ≤ i →
    J.back ∧ (z.Early s.index.toNat ∨ z.body.Known J.params n i k (.block s.index.toNat))

/-- The part of `z` that `b` has built is in order, but for the phis of the blocks `W`. -/
structure State (J : Job) (n : Nat) (z : Builder) (W : Nat → Prop) (b : Builder) (S : Facts) : Prop where
  instrs : z.Fits → ∀ i k x, b.Covers i k → z.body.At i k x →
    InstrOk (J.names z) J.params z.body n i (W i) k x
  ends : ∀ i is u, b.body i = some (is, some u) → EndOk J n z i is.length u
  numbers : z.Fits → ∀ i k x d, b.Covers i k → z.body.At i k x → x.dst? = some d → d.index.toNat < b.regTypes.size
  order : z.Fits → ∀ i k x d, b.Covers i k → z.body.At i k x → x.dst? = some d →
    ∀ j l y e, b.Covers j l → z.body.At j l y → y.dst? = some e →
      (d = e → i = j) ∧ (i = j → k < l → d.index.toNat < e.index.toNat)
  literals : ∀ i k d es, b.Covers i k → z.body.At i k (.define d (.makeTensor es)) → es.length ≤ J.limit
  known : ∀ i μ, S i μ → ∃ is t, b.body i = some (is, t) ∧ z.body.Known J.params n i is.length μ
  reached : z.Fits → ∀ i μ, S i μ → ∃ N ≤ b.regTypes.size, z.body.Reached i N

variable {J : Job} {n : Nat} {S S' : Facts}

namespace State

variable (h : State J n z W b S)
include h

/-- Instructions stay; blocks may be new, or have got their end. -/
theorem same (hle : b.Le b') (hcovers : ∀ i k, b'.Covers i k → b.Covers i k)
    (hlength : ∀ i is t, b.body i = some (is, t) → ∃ js u, b'.body i = some (js, u) ∧ js.length = is.length)
    (hends : ∀ i is u, b'.body i = some (is, some u) →
      (∃ js, b.body i = some (js, some u) ∧ js.length = is.length) ∨ EndOk J n z i is.length u)
    (hW : ∀ i, W i → W' i) : State J n z W' b' S where
  instrs hf i k x hk hx := (h.instrs hf i k x (hcovers i k hk) hx).loosen (hW i)
  ends i is u hi := by
    rcases hends i is u hi with ⟨js, hj, hlen⟩ | hok
    · exact hlen ▸ h.ends i js u hj
    · exact hok
  numbers hf i k x d hk hx hd := Nat.lt_of_lt_of_le (h.numbers hf i k x d (hcovers i k hk) hx hd) hle.regCount
  order hf i k x d hk hx hd j l y e hl hy he :=
    h.order hf i k x d (hcovers i k hk) hx hd j l y e (hcovers j l hl) hy he
  literals i k d es hk hx := h.literals i k d es (hcovers i k hk) hx
  known i μ hμ := by
    obtain ⟨is, t, hi, hknown⟩ := h.known i μ hμ
    obtain ⟨js, u, hj, hlen⟩ := hlength i is t hi
    exact ⟨js, u, hj, hlen ▸ hknown⟩
  reached hf i μ hμ := by
    obtain ⟨N, hN, hr⟩ := h.reached hf i μ hμ
    exact ⟨N, Nat.le_trans hN hle.regCount, hr⟩

/-- One more instruction at the end of a block. -/
theorem emit (hle : b.Le b') (hk : b.body k = some (is, none)) (hbody : b'.body = b.body.set k (is ++ [x], none))
    (hok : z.Fits → ∀ y, z.body.At k is.length y → InstrOk (J.names z) J.params z.body n k (W k) is.length y)
    (hnew : z.Fits → ∀ y d, z.body.At k is.length y → y.dst? = some d →
      b.regTypes.size ≤ d.index.toNat ∧ d.index.toNat < b'.regTypes.size)
    (hlit : ∀ d es, z.body.At k is.length (.define d (.makeTensor es)) → es.length ≤ J.limit) :
    State J n z W b' S := by
  have hcovers : ∀ i l, b'.Covers i l → b.Covers i l ∨ (i = k ∧ l = is.length) := by
    rintro i l ⟨js, t, hi, hl⟩
    rw [hbody] at hi
    rcases Body.set_eq_some hi with ⟨rfl, heq⟩ | ⟨-, hi⟩
    · cases heq
      simp only [List.length_append, List.length_singleton] at hl
      by_cases hlt : l < is.length
      · exact .inl ⟨is, none, hk, hlt⟩
      · exact .inr ⟨rfl, by omega⟩
    · exact .inl ⟨js, t, hi, hl⟩
  exact {
    instrs := fun hf i l y hl hy => by
      rcases hcovers i l hl with hl | ⟨rfl, rfl⟩
      · exact h.instrs hf i l y hl hy
      · exact hok hf y hy
    ends := fun i js u hi => by
      rw [hbody] at hi
      rcases Body.set_eq_some hi with ⟨-, heq⟩ | ⟨-, hi⟩
      · cases heq
      · exact h.ends i js u hi
    numbers := fun hf i l y d hl hy hd => by
      rcases hcovers i l hl with hl | ⟨rfl, rfl⟩
      · exact Nat.lt_of_lt_of_le (h.numbers hf i l y d hl hy hd) hle.regCount
      · exact (hnew hf y d hy hd).2
    order := fun hf i l y d hl hy hd j m w e hm hw he => by
      rcases hcovers i l hl with hl | ⟨rfl, rfl⟩
      · rcases hcovers j m hm with hm | ⟨rfl, rfl⟩
        · exact h.order hf i l y d hl hy hd j m w e hm hw he
        · have hold := h.numbers hf i l y d hl hy hd
          have := (hnew hf w e hw he).1
          exact ⟨fun heq => by subst heq; omega, fun _ _ => by omega⟩
      · rcases hcovers j m hm with ⟨js, t, hj, hm⟩ | ⟨rfl, rfl⟩
        · have hold := h.numbers hf j m w e ⟨js, t, hj, hm⟩ hw he
          have := (hnew hf y d hy hd).1
          refine ⟨fun heq => by subst heq; omega, ?_⟩
          rintro rfl hlt
          cases hk.symm.trans hj
          omega
        · exact ⟨fun _ => rfl, fun _ hlt => absurd hlt (Nat.lt_irrefl _)⟩
    literals := fun i l d es hl hy => by
      rcases hcovers i l hl with hl | ⟨rfl, rfl⟩
      · exact h.literals i l d es hl hy
      · exact hlit d es hy
    known := fun i μ hμ => by
      obtain ⟨js, t, hi, hknown⟩ := h.known i μ hμ
      rw [hbody]
      by_cases hik : i = k
      · subst hik
        cases hk.symm.trans hi
        exact ⟨_, _, Body.set_self _ _ _, hknown.mono (by simp)⟩
      · exact ⟨js, t, by rw [Body.set_of_ne hik, hi], hknown⟩
    reached := fun hf i μ hμ => by
      obtain ⟨N, hN, hr⟩ := h.reached hf i μ hμ
      exact ⟨N, Nat.le_trans hN hle.regCount, hr⟩ }

/-- More is known. -/
theorem learn (hS : ∀ i μ, S' i μ → S i μ ∨
    ((∃ is t, b.body i = some (is, t) ∧ z.body.Known J.params n i is.length μ) ∧
      (z.Fits → ∃ N ≤ b.regTypes.size, z.body.Reached i N))) : State J n z W b S' :=
  { h with
    known := fun i μ hμ => (hS i μ hμ).elim (h.known i μ) And.left
    reached := fun hf i μ hμ => (hS i μ hμ).elim (h.reached hf i μ) fun hnew => hnew.2 hf }

end State

/-! ## Steps -/

/-- A register of a type. -/
def Job.Typed (J : Job) (b : Builder) (r : Reg) (t : Ty) : Prop :=
  b.Fits → (J.names b).At r t ∧ r.index.toNat < b.regTypes.size

theorem Job.Typed.mono (h : J.Typed b r t) (hle : b.Le b') : J.Typed b' r t := fun hf =>
  have ⟨hat, hlt⟩ := h (hle.fits hf)
  ⟨hat.mono (hle.context _ _), Nat.lt_of_lt_of_le hlt hle.regCount⟩

theorem Job.Typed.new (hr : Registered ty b r b') : J.Typed b' r ty := by
  refine fun hf => ⟨.of_reg (hr.reg hf _ _), ?_⟩
  have := hr.index hf
  have := hr.count
  omega

/-- A register that is not a parameter. -/
def Job.Fresh (J : Job) (b : Builder) (r : Reg) : Prop := ∀ z, b.Le z → J.goal z → z.Fits → r ∉ J.params

/-- From a state of `b` there is one of `b'`, in whatever finished code. -/
structure Step (J : Job) (W : Nat → Prop) (b : Builder) (S : Facts) (W' : Nat → Prop) (b' : Builder)
    (S' : Facts) : Prop where
  back : ∀ z, Ahead W' b' z → Ahead W b z
  keeps : ∀ z n, Ahead W' b' z → J.goal z → (∀ m ≤ n, State J m z W b S) → ∀ m ≤ n, State J m z W' b' S'

/-- One more fact. -/
def Facts.with (S : Facts) (i : Nat) (μ : Mark) : Facts := fun j ν => S j ν ∨ (j = i ∧ ν = μ)

/-- More facts about one block. -/
def Facts.also (S : Facts) (i : Nat) (p : Mark → Prop) : Facts := fun j μ => S j μ ∨ (j = i ∧ p μ)

/-- What is known at a block that all edges lead to which will. -/
def Facts.enter (S : Facts) (body : Body) (j : Nat) : Facts := fun i μ =>
  S i μ ∨ (i = j ∧ (μ = .block j ∨ ∀ s, body.Leads s j → S s μ))

namespace Step

variable {id : BlockId} {u : Terminator} {μ : Mark}

theorem of (hback : ∀ z, Ahead W' b' z → Ahead W b z)
    (hkeeps : ∀ z n, Ahead W' b' z → J.goal z → Ahead W b z → State J n z W b S → State J n z W' b' S') :
    Step J W b S W' b' S' :=
  ⟨hback, fun z _ hz hg h m hm => hkeeps z m hz hg (hback z hz) (h m hm)⟩

theorem trans (h : Step J W b S W' b' S') (h' : Step J W' b' S' W'' b'' S'') : Step J W b S W'' b'' S'' :=
  ⟨fun z hz => h.back z (h'.back z hz), fun z n hz hg hs => h'.keeps z n hz hg (h.keeps z n (h'.back z hz) hg hs)⟩

theorem forget (hS : ∀ i μ, S' i μ → S i μ) : Step J W b S W b S' :=
  of (fun _ hz => hz) fun _ _ _ _ _ h => h.learn fun i μ hμ => .inl (hS i μ hμ)

theorem tables (hle : b.Le b') (hbody : b'.body = b.body) : Step J W b S W b' S := by
  have hcovers : ∀ i k, b'.Covers i k → b.Covers i k := by
    rintro i k ⟨is, t, hi, hk⟩
    exact ⟨is, t, hbody ▸ hi, hk⟩
  refine of (fun z hz => hz.same hle hbody) fun z n _ _ _ h => h.same hle hcovers (fun i is t hi => ?_)
    (fun i is u hi => ?_)
    fun _ hi => hi
  · exact ⟨is, t, hbody ▸ hi, rfl⟩
  · exact .inl ⟨is, hbody ▸ hi, rfl⟩

/-- A new block; whether all edges to it are there is up to what follows. -/
theorem opened (W' : Nat → Prop) (h : Opened stem b id b') (hW : ∀ i < b.blocks.size, W' i → W i)
    (hW' : ∀ i, W i → W' i) : Step J W b S W' b' S := by
  have hnone : b.body b.blocks.size = none := Builder.body_eq_none.2 (Nat.le_refl _)
  have hne : ∀ {i is t}, b.body i = some (is, t) → i ≠ b.blocks.size :=
    fun hi => Nat.ne_of_lt (Builder.lt_of_body hi)
  have hold : ∀ {i is t}, b'.body i = some (is, t) → is = [] ∧ t = none ∨ b.body i = some (is, t) := by
    intro i is t hi
    rw [h.body] at hi
    rcases Body.set_eq_some hi with ⟨-, heq⟩ | ⟨-, hi⟩
    · cases heq
      exact .inl ⟨rfl, rfl⟩
    · exact .inr hi
  refine of (fun z hz => hz.before h.le h.body (fun is t hi => ?_) hW nofun) fun z n _ _ _ hs =>
    hs.same h.le ?_ (fun i is t hi => ?_) (fun i is u hi => ?_) hW'
  · cases hnone.symm.trans hi
  · rintro i k ⟨is, t, hi, hk⟩
    rcases hold hi with ⟨rfl, -⟩ | hi
    · cases hk
    · exact ⟨is, t, hi, hk⟩
  · exact ⟨is, t, by rw [h.body, Body.set_of_ne (hne hi), hi], rfl⟩
  · rcases hold hi with ⟨-, hu⟩ | hi
    · cases hu
    · exact .inl ⟨is, hi, rfl⟩

/-- What the end of block `i` reads is known there. -/
def Reads (J : Job) (b : Builder) (S : Facts) (i : Nat) : Terminator → Prop
  | .jump _ => True
  | .branch c _ _ => S i (.reg c) ∧ J.Typed b c .bool
  | .ret r => S i (.reg r) ∧ J.Typed b r J.ctx.ret

theorem ended (hle : b.Le b') (hi : b.body id.index.toNat = some (is, none))
    (hbody : b'.body = b.body.set id.index.toNat (is, some u)) (hS : S id.index.toNat μ)
    (hreads : Reads J b S id.index.toNat u) (htargets : ∀ s ∈ u.successors, s.index.toNat < b.blocks.size ∧
    W s.index.toNat) (horder : ∀ s ∈ u.successors, s.index.toNat ≤ id.index.toNat →
      J.back ∧ (b.Early s.index.toNat ∨ S id.index.toNat (.block s.index.toNat))) : Step J W b S W b' S := by
  refine of (fun z hz => hz.before hle hbody (fun js t hj => ?_) (fun _ _ hw => hw) ?_) fun z n hz _ hz₀ hs =>
    hs.same hle ?_ (fun i js t hj => ?_) (fun i js v hj => ?_) fun _ hw => hw
  · cases hi.symm.trans hj
    simpa using Grown.append _ is []
  · rintro v ⟨⟩ s hs -
    exact .inl (htargets s hs).2
  · rintro i k ⟨js, t, hj, hk⟩
    rw [hbody] at hj
    rcases Body.set_eq_some hj with ⟨rfl, heq⟩ | ⟨-, hj⟩
    · cases heq
      exact ⟨is, none, hi, hk⟩
    · exact ⟨js, t, hj, hk⟩
  · rw [hbody]
    by_cases hid : i = id.index.toNat
    · subst hid
      cases hi.symm.trans hj
      exact ⟨_, _, Body.set_self _ _ _, rfl⟩
    · exact ⟨js, t, by rw [Body.set_of_ne hid, hj], rfl⟩
  · rw [hbody] at hj
    rcases Body.set_eq_some hj with ⟨rfl, heq⟩ | ⟨-, hj⟩
    · cases heq
      have hknown : ∀ μ, S id.index.toNat μ → z.body.Known J.params n id.index.toNat is.length μ := by
        intro μ hμ
        obtain ⟨js, t, hj, hknown⟩ := hs.known _ μ hμ
        cases hi.symm.trans hj
        exact hknown
      refine .inr ⟨fun hf => ?_, fun hf => ?_, fun s hs' => ?_, fun s hs' hle => ?_⟩
      · have hat : ∀ {r t}, J.Typed b r t → (J.names z).At r t := fun ht => ((ht.mono hz₀.le) hf).1
        cases u with
        | jump => trivial
        | branch | ret => exact ⟨hknown _ hreads.1, hat hreads.2⟩
      · obtain ⟨N, hN, hr⟩ := hs.reached hf _ μ hS
        exact ⟨N, Nat.le_trans hN hz₀.le.regCount, hr⟩
      · exact hz₀.exists_body (htargets s hs').1
      · refine (horder s hs' hle).imp_right (.imp ?_ (hknown _))
        rintro ⟨l, hl, hlabel⟩
        exact ⟨l, hz₀.le.labels _ l hl, hlabel⟩
    · exact .inl ⟨js, hj, rfl⟩

/-- All edges to some blocks are there, and their phis are complete. -/
theorem settle (hW : ∀ i, W' i → W i)
    (hphi : ∀ z n, Ahead W' b z → (∀ m ≤ n, State J m z W b S) → z.Fits → ∀ i, W i → ¬W' i → ∀ k d incoming t,
      b.Covers i k → z.body.At i k (.define d (.phi incoming)) → (J.names z).reg d = some t →
        PhiOk (J.names z) J.params z.body n i t incoming) : Step J W b S W' b S where
  back z hz := hz.mono fun i _ => hW i
  keeps z n hz _ h m hm :=
    { h m hm with
      instrs := fun hf i k x hk hx => by
        have hok := (h m hm).instrs hf i k x hk hx
        by_cases hi : W i → W' i
        · exact hok.loosen hi
        obtain ⟨hWi, hnew⟩ := Classical.not_imp.1 hi
        cases x with
        | store => exact hok
        | define d rhs =>
          obtain ⟨hN, hd, t, ht, hrhs⟩ := hok
          refine ⟨hN, hd, t, ht, ?_⟩
          cases rhs with
          | phi incoming =>
            refine ⟨hrhs.1, hrhs.2.1, fun _ => ?_⟩
            exact hphi z m hz (fun l hl => h l (Nat.le_trans hl hm)) hf i hWi hnew k d incoming t hk hx ht
          | _ => exact hrhs }

/-- The blocks without phis may be settled at any time. -/
theorem settle_plain (hW : ∀ i, W' i → W i)
    (hphi : ∀ i is t, b.body i = some (is, t) → W i → ¬W' i → ∀ x ∈ is, x.isPhi = false) :
    Step J W b S W' b S := by
  refine settle hW fun z n hz _ _ i hWi hnew k d incoming t ⟨is, u, hi, hk⟩ hx _ => ?_
  obtain ⟨y, hy, hshape⟩ := hz.shape_at hi hk
  obtain ⟨js, v, hj, hx⟩ := hx
  rw [Body.at_iff hj, hx] at hy
  cases hy
  rw [List.getElem?_eq_getElem hk] at hshape
  have hnot := hphi i is u hi hWi hnew _ (List.getElem_mem hk)
  rw [← isPhi_shape, Option.some.inj hshape] at hnot
  cases hnot

/-- A block that has ended leads on, past all that is in it. -/
theorem reached_next (h : State J n z W b S) (hz : Ahead W b z) (hs : s < j) (hlead : b.body.Leads s j)
    (hμ : S s μ) (hf : z.Fits) : ∃ N ≤ b.regTypes.size, z.body.Reached j N := by
  obtain ⟨N, hN, hr⟩ := h.reached hf s μ hμ
  refine ⟨b.regTypes.size, Nat.le_refl _, .step hr hs (hz.leads hlead) hN fun k x d hx hd => ?_⟩
  obtain ⟨js, v, hv, -⟩ := hlead
  obtain ⟨ks, w, hw, hg⟩ := hz.kept s js _ hv
  refine h.numbers hf s k x d ⟨js, _, hv, ?_⟩ hx hd
  rw [← (hg.ended v rfl).2]
  exact (List.getElem?_eq_some_iff.1 ((Body.at_iff hw).1 hx)).1

/-- What is known at the end of all blocks that lead to a block is known at its start. -/
theorem enter (hj : b.body j = some (is, t)) (hW : ¬W j) (hfirst : ∃ s < j, b.body.Leads s j ∧ ∃ μ, S s μ) :
    Step J W b S W b (S.enter b.body j) := by
  refine of (fun _ hz => hz) fun z n hz _ _ h => h.learn ?_
  have hpreds : ∀ s, z.body.Leads s j → b.body.Leads s j := fun s hs =>
    (hz.preds s j (Builder.lt_of_body hj) hs).resolve_left hW
  obtain ⟨s, hs, hlead, μ₀, hμ₀⟩ := hfirst
  rintro i μ (hμ | ⟨rfl, hμ⟩)
  · exact .inl hμ
  refine .inr ⟨⟨is, t, hj, ?_⟩, reached_next h hz hs hlead hμ₀⟩
  rcases hμ with rfl | hμ
  · exact .inr rfl
  · refine .inl (Body.brought_of_preds (by omega) fun s hs => ?_)
    obtain ⟨js, u, -, hknown⟩ := h.known s μ (hμ s (hpreds s hs))
    exact ⟨_, hknown⟩

/-- What is known where control comes to a loop from is known at its header, if it is known where control
comes back to it from. -/
theorem cycle {F : Mark → Prop} (hb : b.body j = some (is, t)) (hfirst : ∃ s < j, b.body.Leads s j ∧ ∃ μ, S s μ)
    (hin : Step J W b (S.also j fun μ => F μ ∨ μ = .block j) W' b' S') (hj : ¬W'' j)
    (hpreds : ∀ i, b'.body.Leads i j → ∀ μ, F μ → S i μ ∨ S' i μ) (hsettle : Step J W' b' S' W'' b' S') :
    Step J W b S W'' b' S' := by
  obtain ⟨s, hs, hlead, μ₀, hμ₀⟩ := hfirst
  refine ⟨fun z hz => hin.back z (hsettle.back z hz), fun z n hz hg h => hsettle.keeps z n hz hg fun m => ?_⟩
  have hz' := hsettle.back z hz
  have hback := (hin.back b' (.refl _ (Nat.le_trans hz.le.blockCount hz.room))).le.blockCount
  have hlt := Nat.lt_of_lt_of_le (Builder.lt_of_body hb) hback
  -- the header's facts at one level come from those of the blocks that lead back to it at the level before
  induction m using Nat.strongRecOn with
  | ind m ih =>
    intro hm
    refine hin.keeps z m hz' hg (fun l hl => (h l (Nat.le_trans hl hm)).learn ?_) m (Nat.le_refl _)
    rintro i μ (hμ | ⟨rfl, hμ⟩)
    · exact .inl hμ
    refine .inr ⟨⟨is, t, hb, ?_⟩, reached_next (h l (Nat.le_trans hl hm)) (hin.back z hz') hs hlead hμ₀⟩
    rcases hμ with hF | rfl
    · cases l with
      | zero => exact .inl trivial
      | succ l =>
        refine .inl (Body.brought_succ (by omega) fun k hk => ?_)
        rcases hpreds k ((hz.preds k i hlt hk).resolve_left hj) μ hF with hμ | hμ
        · obtain ⟨js, u, -, hknown⟩ := (h l (by omega)).known k μ hμ
          exact ⟨_, hknown⟩
        · obtain ⟨js, u, -, hknown⟩ := (ih l (by omega) (by omega)).known k μ hμ
          exact ⟨_, hknown⟩
    · exact .inr rfl

theorem reached_new (h : State J n z W b S) (hS : S b.here μ) (hr : Registered ty b r b') (hf : z.Fits)
    (hle : b'.Le z) : ∃ N ≤ r.index.toNat, z.body.Reached b.here N := by
  rw [hr.index (hle.fits hf)]
  exact h.reached hf _ μ hS

section

variable {r : Reg} {rhs : Rhs} {ty : Ty} (hi : b.body b.here = some (is, none))
include hi

theorem emitted_back (he : Emitted xs b b') (hz : Ahead W b' z) : Ahead W b z := by
  refine hz.before he.le (he.body is hi) (fun js t hj => ?_) (fun _ _ hw => hw) nofun
  cases hi.symm.trans hj
  exact .append _ is xs

theorem at_emitted (he : Emitted xs b b') (hz : Ahead W b' z) (hx : xs[k]? = some x) (hphi : x.isPhi = false) :
    z.body.At b.here (is.length + k) y ↔ y = x := by
  have hbody : b'.body b.here = some (is ++ xs, none) := by rw [he.body is hi, Body.set_self]
  refine hz.at_iff hbody ?_ (.inl hphi)
  rw [List.getElem?_append_right (Nat.le_add_right _ _), Nat.add_sub_cancel_left, hx]

/-- What `z` knows at the end of the current block. -/
theorem known_here (h : State J n z W b S) (hμ : S b.here μ) : z.body.Known J.params n b.here is.length μ := by
  obtain ⟨js, t, hj, hknown⟩ := h.known _ μ hμ
  cases hi.symm.trans hj
  exact hknown

/-- A definition is known after it. -/
theorem learn_here (h : State J n z W b' S) (he : Emitted xs b b') (hxs : x ∈ xs) (hdst : x.dst? = some r)
    (hz : Ahead W b' z) (hphi : x.isPhi = false) (hS : S b.here μ) :
    State J n z W b' (S.with b.here (.reg r)) := by
  refine h.learn ?_
  rintro i ν (hν | ⟨rfl, rfl⟩)
  · exact .inl hν
  · obtain ⟨k, hk⟩ := List.mem_iff_getElem?.1 hxs
    refine .inr ⟨⟨_, _, by rw [he.body is hi, Body.set_self], .inr ⟨is.length + k, ?_, x, ?_, hdst⟩⟩, ?_⟩
    · have := (List.getElem?_eq_some_iff.1 hk).1
      simp only [List.length_append]
      omega
    · exact (at_emitted hi he hz hk hphi).2 rfl
    · exact fun hf => h.reached hf _ μ hS

theorem operation (hS : S b.here μ) (he : Emitted [.define r rhs] b b') (hr : Registered ty b r b')
    (hop : rhs.isOperation = true) (hps : J.Fresh b' r) (htyped : b'.Fits → rhs.Typed (J.names b') ty)
    (huses : ∀ q ∈ rhs.uses, S b.here (.reg q)) (hlit : ∀ es, rhs = .makeTensor es → es.length ≤ J.limit) :
    Step J W b S W b' (S.with b.here (.reg r)) := by
  have hphi := isPhi_operation (d := r) hop
  refine of (fun z hz => emitted_back hi he hz) fun z n hz hg hz₀ h => ?_
  have hat : ∀ {y}, z.body.At b.here is.length y ↔ y = .define r rhs := at_emitted (k := 0) hi he hz rfl hphi
  refine learn_here hi (h.emit he.le hi (he.body is hi) (fun hf y hy => ?_)
    (fun hf y d hy hd => ?_) fun d es hy => ?_)
    he (List.mem_singleton_self _) rfl hz hphi hS
  · rw [hat.1 hy]
    have hf' := hz.fits hf
    exact .operation hop (reached_new h hS hr hf hz.le) (hps z hz.le hg hf)
      ((hz.le.context _ _).reg _ _ (hr.reg hf' _ _))
      ((htyped hf').mono (hz.le.context _ _)) fun q hq => known_here hi h (huses q hq)
  · cases (hat.1 hy) ▸ hd
    have := hr.index (hz.fits hf)
    have := hr.count
    omega
  · exact hlit es (Instr.define.inj (hat.1 hy)).2.symm

theorem store (he : Emitted [.store addr v] b b') (haddr : S b.here (.reg addr)) (hv : S b.here (.reg v))
    (hta : J.Typed b addr (.reference t m)) (htv : J.Typed b v t) : Step J W b S W b' S := by
  refine of (fun z hz => emitted_back hi he hz) fun z n hz _ hz₀ h => ?_
  have hat : ∀ {y}, z.body.At b.here is.length y ↔ y = .store addr v := at_emitted (k := 0) hi he hz rfl rfl
  refine h.emit he.le hi (he.body is hi) (fun hf y hy => ?_) (fun hf y d hy hd => ?_) fun d es hy => ?_
  · rw [hat.1 hy]
    exact ⟨known_here hi h haddr, known_here hi h hv, t, m, (hta.mono hz₀.le hf).1, (htv.mono hz₀.le hf).1⟩
  · cases (hat.1 hy) ▸ hd
  · cases hat.1 hy

/-- A slot gets its first value where its address is made. -/
theorem spill (hS : S b.here μ) (he : Emitted [.define r (.stackSlot s)] b b₁)
    (hr : Registered (.reference t .mutable) b r b₁)
    (he' : Emitted [.store r v] b₁ b') (hps : J.Fresh b₁ r) (hslot : b₁.Fits → (J.names b₁).slot s = some t)
    (hplain : t.holdsReference = false) (hv : S b.here (.reg v)) (htv : J.Typed b v t) :
    Step J W b S W b' (S.with b.here (.reg r)) := by
  have hi₁ : b₁.body b₁.here = some (is ++ [.define r (.stackSlot s)], none) := by
    rw [he.here, he.body is hi, Body.set_self]
  have hnew : J.Typed b₁ r (.reference t .mutable) := .new hr
  have hstore : Step J W b₁ (S.with b.here (.reg r)) W b' (S.with b.here (.reg r)) :=
    store hi₁ he' (.inr ⟨he.here, rfl⟩) (.inl (he.here ▸ hv)) hnew (htv.mono he.le)
  refine ⟨fun z hz => emitted_back hi he (hstore.back z hz), fun z n hz hg hs =>
    hstore.keeps z n hz hg fun m hm => ?_⟩
  have hz₁ := hstore.back z hz
  have hat : ∀ {y}, z.body.At b.here is.length y ↔ y = .define r (.stackSlot s) :=
    at_emitted (k := 0) hi he hz₁ rfl rfl
  have h := hs m hm
  refine learn_here hi (h.emit he.le hi (he.body is hi) (fun hf y hy => ?_)
    (fun hf y d hy hd => ?_) fun d es hy => ?_)
    he (List.mem_singleton_self _) rfl hz₁ rfl hS
  · rw [hat.1 hy]
    have hf' := hz₁.fits hf
    refine ⟨reached_new h hS hr hf hz₁.le, hps z hz₁.le hg hf, _, (hz₁.le.context _ _).reg _ _ (hr.reg hf' _ _),
      ⟨t, .mutable, rfl, (hz₁.le.context _ _).slot _ _ (hslot hf'), hplain⟩, v, ?_⟩
    have := at_emitted (k := 0) hi₁ he' hz rfl rfl (y := .store r v)
    rw [he.here] at this
    simpa using this
  · cases (hat.1 hy) ▸ hd
    have := hr.index (hz₁.fits hf)
    have := hr.count
    omega
  · cases hat.1 hy

end

end Step

end NumericEngine.Lowering
