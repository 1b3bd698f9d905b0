import NumericEngine.Proofs.Lowering.Branches

/-!
# Builders that code is ready to go to

`Inv` says that the code built so far is well scoped, with the edges of open
loops. `Placed` adds what holds where instructions go next: which registers hold
the bindings there. It is `Ready` once the parameters have their registers.
-/

namespace NumericEngine.Lowering

open Ir (Rhs Instr Terminator Body Entry Available)
open Typing (Visible)

/-- An edge back to the header of an open loop waits for its inputs. -/
def Builder.Awaits (b : Builder) (i j : Nat) : Prop :=
  ∃ l ∈ b.loops, l.header.index.toNat = j ∧ ∃ e ∈ l.continues, e.source.index.toNat = i

variable (Δ : Typing.Context) (ps : List Reg)

/-- The registers of bindings can be read at the end of block `i`. -/
def Holds (entry : Entry) (b : Builder) (i : Nat) (vs : Bindings) : Prop :=
  ∀ x r, (x, r) ∈ vs → Available entry b.body i r ∧
    ∃ t, Δ.binding x = some t ∧ (b.context Δ.sig ps).At r t

/-- An open loop: its exit is empty, and the edges to it are known. -/
structure LoopOk (entry : Entry) (b : Builder) (l : Loop) : Prop where
  header : ∃ is u, b.body l.header.index.toNat = some (is, u)
  exit : b.body l.exit.index.toNat = some ([], none)
  preds : ∀ i, b.body.Leads i l.exit.index.toNat → ∃ e ∈ l.breaks, e.source.index.toNat = i
  breaks : ∀ e ∈ l.breaks, b.body.Leads e.source.index.toNat l.exit.index.toNat ∧
    Holds Δ ps entry b e.source.index.toNat e.values
  continues : ∀ e ∈ l.continues, b.body.Leads e.source.index.toNat l.header.index.toNat ∧
    Holds Δ ps entry b e.source.index.toNat e.values ∧
    ∀ r, entry l.exit.index.toNat r → Available entry b.body e.source.index.toNat r
  edges : (l.breaks.map fun e => e.source.index.toNat).Nodup ∧
    (l.continues.map fun e => e.source.index.toNat).Nodup ∧
    ∀ e ∈ l.continues, l.header.index.toNat ≤ e.source.index.toNat

/-- Code of a function with parameters `ps`, built in a builder for the bindings of `Δ`. -/
structure Inv (entry : Entry) (b : Builder) : Prop where
  code : b.body.Partial (b.context Δ.sig ps) Δ.ret ps b.regTypes.size b.Awaits entry
  loops : ∀ l ∈ b.loops, LoopOk Δ ps entry b l
  distinct : b.loops.Pairwise fun l l' => l.exit.index.toNat ≠ l'.exit.index.toNat
  headers : ∀ l ∈ b.loops, ∀ l' ∈ b.loops, l.header.index.toNat ≠ l'.exit.index.toNat
  locals : ∀ x t, Δ.binding x = some t → ∃ l, b.locals[x.index.toNat]? = some l ∧ l.ty = t ∧
    (l.addressTaken = true → t.holdsReference = false)
  nonempty : 0 < b.blocks.size
  /-- Only bindings whose reference is taken have a slot. -/
  taken : ∀ x : LocalId, (b.locals[x.index.toNat]?.getD default).addressTaken = false →
    b.slots.lookup x = none

/-- Instructions go to block `c`, where the bindings of `V` can be read. -/
structure Placed (V : Visible) (entry : Entry) (b : Builder) (c : Nat) : Prop
    extends Inv Δ ps entry b where
  current : ∃ id, b.current = some id ∧ id.index.toNat = c
  unfinished : ∃ is, b.body c = some (is, none)
  entered : b.body.Entered c
  apart : ∀ l ∈ b.loops, c ≠ l.exit.index.toNat
  inside : ∀ l ∈ b.loops, l.header.index.toNat ≤ c
  targets : ∀ l ∈ b.loops, ∀ r, entry l.header.index.toNat r ∨ entry l.exit.index.toNat r →
    Available entry b.body c r
  values : Holds Δ ps entry b c b.values
  slots : ∀ x r, V x → b.slots.lookup x = some r → Available entry b.body c r ∧
    ∃ t, Δ.binding x = some t ∧ (b.context Δ.sig ps).At r (.reference t .mutable)

/-- The parameters have their registers. -/
structure Ready (V : Visible) (entry : Entry) (b : Builder) (c : Nat) : Prop
    extends Placed Δ ps V entry b c where
  settled : ∀ r ∈ ps, r.index.toNat < b.regTypes.size

/-- Expressions of at most `n` nodes, of which no success is promised. -/
def reading (n : Nat) : Job where
  ctx := Δ
  params := ps
  total := False
  back := True
  limit := n
  goal _ := True

variable {Δ ps} {entry : Entry} {b : Builder} {c : Nat}

theorem Ready.sane (h : Ready Δ ps V entry b c) : b.Sane where
  live _ := by
    obtain ⟨id, hid, rfl⟩ := h.current
    rw [Build.here_eq hid]
    exact h.unfinished
  closed i j hlead := by
    obtain ⟨is, t, hj, -⟩ := h.code.edge i j hlead
    exact Builder.lt_of_body hj

theorem Ready.env (h : Ready Δ ps V entry b c) (n : Nat) : Env (reading Δ ps n) V b fun _ _ => True :=
  have hlt {i : Nat} {r : Reg} (hr : Available entry b.body i r) : r.index.toNat < b.regTypes.size :=
    (h.code.below i r hr).elim (h.settled r) id
  { here := ⟨.block 0, trivial⟩
    values := fun x r hx =>
      have ⟨hr, t, ht, hat⟩ := h.values x r hx
      ⟨trivial, t, ht, fun _ => ⟨hat, hlt hr⟩⟩
    slots := fun x r hV hx =>
      have ⟨hr, t, ht, hat⟩ := h.slots x r hV hx
      ⟨trivial, t, ht, fun _ => ⟨hat, hlt hr⟩⟩
    locals := fun x t hx =>
      have ⟨_, hl, hty⟩ := h.locals x t hx
      Builder.decl_eq hl ▸ hty
    taken := h.taken
    located := False.elim
    refs := False.elim
    settled := fun _ => h.settled }

end NumericEngine.Lowering
