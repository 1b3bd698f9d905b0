import NumericEngine.Proofs.Ir.Scoping

/-!
# Code under construction

Code that is well scoped as far as it goes. Blocks may lack a terminator, and an
edge into the header of an open loop may wait for the inputs of its phis.
-/

namespace NumericEngine.Ir

open List

variable {known : Reg → Prop} {is js : List Instr} {incoming : List (BlockId × Reg)}

def Body.set (body : Body) (i : Nat) (b : List Instr × Option Terminator) : Body := fun j =>
  if j = i then some b else body j

/-- Control may go from one block to another. -/
def Body.Leads (body : Body) (i j : Nat) : Prop :=
  ∃ is t, body i = some (is, some t) ∧ ∃ s ∈ t.successors, s.index.toNat = j

/-- The entry, or a block that an earlier one leads to. -/
def Body.Entered (body : Body) (i : Nat) : Prop := i = 0 ∨ ∃ j < i, body.Leads j i

section

variable {entry : Entry} {body : Body} {i j : Nat} {is : List Instr} {t : Option Terminator} {r : Reg}
  {b : List Instr × Option Terminator}

@[simp] theorem Body.set_self (body : Body) (i : Nat) (b : List Instr × Option Terminator) :
    body.set i b i = some b := if_pos rfl

theorem Body.set_of_ne (h : j ≠ i) :
    body.set i b j = body j := if_neg h

@[simp] theorem Body.set_set (body : Body) (i : Nat) (b b' : List Instr × Option Terminator) :
    (body.set i b).set i b' = body.set i b' := by
  funext j
  unfold set
  split <;> rfl

theorem Body.set_eq_some (h : body.set i b j = some (is', t')) :
    (j = i ∧ b = (is', t')) ∨ (j ≠ i ∧ body j = some (is', t')) := by
  unfold set at h
  split at h
  · exact .inl ⟨‹_›, Option.some.inj h⟩
  · exact .inr ⟨‹_›, h⟩

theorem mem_dsts_iff : r ∈ dsts is ↔ ∃ (k : Nat) (i : Instr), is[k]? = some i ∧ i.dst? = some r := by
  rw [dsts, List.mem_filterMap]
  constructor
  · rintro ⟨i, hi, hr⟩
    obtain ⟨k, hk⟩ := List.getElem?_of_mem hi
    exact ⟨k, i, hk, hr⟩
  · rintro ⟨k, i, hk, hr⟩
    exact ⟨i, List.mem_of_getElem? hk, hr⟩

theorem Body.leads_set_open : (body.set i (is', none)).Leads j k → j ≠ i ∧ body.Leads j k := by
  rintro ⟨js, u, hj, hs⟩
  rcases set_eq_some hj with ⟨-, h⟩ | ⟨hne, hj⟩
  · cases h
  · exact ⟨hne, js, u, hj, hs⟩

end

theorem Body.Entered.mono {body body' : Body} (h : body.Entered i)
    (hle : ∀ j < i, body.Leads j i → body'.Leads j i) : body'.Entered i :=
  h.imp_right fun ⟨j, hj, hlead⟩ => ⟨j, hj, hle j hj hlead⟩

theorem Sequence.mono {Γ : Context} (hle : Γ.Le Δ) (h : Sequence Γ known is) : Sequence Δ known is := by
  induction is generalizing known with
  | nil => trivial
  | cons i is ih =>
    refine ⟨?_, ih h.2⟩
    have hi := h.1
    cases i with
    | store =>
      obtain ⟨ha, hv, t, m, hat, hvt⟩ := hi
      exact ⟨ha, hv, t, m, hat.mono hle, hvt.mono hle⟩
    | define d rhs =>
      obtain ⟨hlt, ⟨t, hd, ht⟩, huses⟩ := hi
      exact ⟨fun r hr => hle.rank ▸ hlt r hr, ⟨t, hle.reg d t hd, ht.mono hle⟩, huses⟩

theorem Terminator.Scoped.inContext {Γ : Context} (hle : Γ.Le Δ) {ret : Ty}
    {u : Terminator} (h : u.Scoped Γ ret known) : u.Scoped Δ ret known := by
  cases u with
  | jump => trivial
  | branch | ret => exact ⟨h.1, h.2.mono hle⟩

theorem Body.Scoped.inContext {Γ : Context} (hle : Γ.Le Δ)
    {body : Body} (h : body.Scoped Γ ret params entry) :
    body.Scoped Δ ret params entry where
  start := h.start
  noPhis := h.noPhis
  sequence i is t hi := (h.sequence i is t hi).mono hle
  lead := h.lead
  inputs := h.inputs
  first i is t hi := hle.rank ▸ h.first i is t hi
  terminator i is t hi := (h.terminator i is t hi).inContext hle
  edge := h.edge
  unique := h.unique
  fresh := h.fresh

/-- One block of code that is well scoped so far. -/
structure BlockScoped (Γ : Context) (ret : Ty) (params : List Reg) (entry : Entry) (body : Body) (i : Nat)
    (is : List Instr) (t : Option Terminator) : Prop where
  noPhis : i = 0 → ∀ x ∈ is, x.isPhi = false
  sequence : Sequence Γ (entry i) is
  lead : PhisLead is
  inputs : ∀ dst incoming, .define dst (.phi incoming) ∈ is → ∀ p ∈ incoming,
    Available entry body p.1.index.toNat p.2
  first : ∀ dst incoming, .define dst (.phi incoming) ∈ is → ∀ p, incoming.head? = some p →
    ∀ d ∈ dsts is, Γ.rank p.2 < Γ.rank d
  terminator : ∀ u, t = some u → u.Scoped Γ ret (Available entry body i)
  fresh : ∀ r ∈ params, r ∉ dsts is
  /-- The inputs of a phi belong to different edges. -/
  sources : ∀ dst incoming, .define dst (.phi incoming) ∈ is →
    (incoming.map fun p => p.1.index.toNat).Nodup ∧ ∀ p ∈ incoming, body.Leads p.1.index.toNat i
  /-- A block in use can be reached. -/
  entered : (is = [] ∧ t = none) ∨ body.Entered i

/-- Code that is well scoped so far. Registers from `n` on are not used yet; the edges of `awaits` do
not have their inputs yet. -/
structure Body.Partial (Γ : Context) (ret : Ty) (params : List Reg) (n : Nat)
    (awaits : Nat → Nat → Prop) (entry : Entry) (body : Body) : Prop where
  rank : Γ.rank = Ir.rank params
  start : ∀ r, entry 0 r → r ∈ params
  block : ∀ {i is t}, body i = some (is, t) → BlockScoped Γ ret params entry body i is t
  edge : ∀ i j, body.Leads i j → ∃ is t, body j = some (is, t) ∧
    (∀ r, entry j r → Available entry body i r) ∧ (Covers i is ∨ awaits i j)
  unique : ∀ i j is js t u, body i = some (is, t) → body j = some (js, u) →
    ∀ r ∈ dsts is, r ∈ dsts js → i = j
  below : ∀ i r, Available entry body i r → r ∈ params ∨ r.index.toNat < n
  closed : ∀ i r, entry i r → ∃ b, body i = some b

/-- Well-scoped code has all edges; the rest tells how it came about. -/
theorem Body.Scoped.toPartial
    {body : Body} (h : body.Scoped Γ ret params entry) (hrank : Γ.rank = Ir.rank params)
    (hbelow : ∀ i r, Available entry body i r → r ∈ params ∨ r.index.toNat < n)
    (hclosed : ∀ i r, entry i r → ∃ b, body i = some b)
    (hsources : ∀ i is t, body i = some (is, t) → ∀ dst incoming, .define dst (.phi incoming) ∈ is →
      (incoming.map fun p => p.1.index.toNat).Nodup ∧ ∀ p ∈ incoming, body.Leads p.1.index.toNat i)
    (hentered : ∀ i is t, body i = some (is, t) → body.Entered i) :
    body.Partial Γ ret params n (fun _ _ => False) entry where
  rank := hrank
  start := h.start
  block {i is t} hi :=
    { noPhis := by
        rintro rfl
        exact h.noPhis is t hi
      sequence := h.sequence i is t hi
      lead := h.lead i is t hi
      inputs := h.inputs i is t hi
      first := h.first i is t hi
      terminator := by
        rintro u rfl
        exact h.terminator i is u hi
      fresh := h.fresh i is t hi
      sources := hsources i is t hi
      entered := .inr (hentered i is t hi) }
  edge := by
    rintro i _ ⟨is, t, hi, s, hs, rfl⟩
    obtain ⟨js, u, hj, hentry, hcovers⟩ := h.edge i is t hi s hs
    exact ⟨js, u, hj, hentry, .inl hcovers⟩
  unique := h.unique
  below := hbelow
  closed := hclosed

namespace Body.Partial

variable {Γ : Context} {ret : Ty} {params : List Reg} {n : Nat} {awaits : Nat → Nat → Prop}
  {entry : Entry} {body : Body} {i : Nat} {is : List Instr}

theorem body_scoped (h : body.Partial Γ ret params n (fun _ _ => False) entry) :
    body.Scoped Γ ret params entry where
  start := h.start
  noPhis _ _ hi := (h.block hi).noPhis rfl
  sequence _ _ _ hi := (h.block hi).sequence
  lead _ _ _ hi := (h.block hi).lead
  inputs _ _ _ hi := (h.block hi).inputs
  first _ _ _ hi := (h.block hi).first
  terminator _ _ t hi := (h.block hi).terminator t rfl
  edge i is t hi s hs := by
    obtain ⟨js, u, hj, hentry, hcovers⟩ := h.edge i s.index.toNat ⟨is, t, hi, s, hs, rfl⟩
    exact ⟨js, u, hj, hentry, hcovers.resolve_right id⟩
  unique := h.unique
  fresh _ _ _ hi := (h.block hi).fresh

theorem mono (h : body.Partial Γ ret params n awaits entry) (hle : Γ.Le Δ)
    (hn : n ≤ n') : body.Partial Δ ret params n' awaits entry :=
  { h with
    rank := hle.rank.trans h.rank
    block := fun hi =>
      { h.block hi with
        sequence := (h.block hi).sequence.mono hle
        first := by
          rw [hle.rank]
          exact (h.block hi).first
        terminator := fun u hu => ((h.block hi).terminator u hu).inContext hle }
    below := fun i r hr => (h.below i r hr).imp_right fun hlt => Nat.lt_of_lt_of_le hlt hn }

end Body.Partial

end NumericEngine.Ir
