import NumericEngine.Proofs.Ir.Typing

/-!
# Scoping of code

Code is well scoped when some choice of the registers available at the start of
each block makes every use refer to a register that is available there. The
choice is kept along edges, so no dominator tree is needed: what is available at
the start of a block is available at the end of every block that leads to it.

Two facts about the order of registers go with it. A register is defined after
all that are available before it, and the first input of a phi comes before
everything that its block defines.
-/

namespace NumericEngine.Ir

open List

variable {is : List Instr} {known : Reg → Prop} {Γ : Context} {i : Instr} {d : Reg}

/-- Code by the indices of its blocks; a block under construction has no terminator yet. -/
abbrev Body := Nat → Option (List Instr × Option Terminator)

def Function.body (f : Function) : Body := fun i =>
  f.blocks[i]?.map fun b => (b.instrs, some b.terminator)

theorem Function.body_eq_some {f : Function} {i : Nat} :
    f.body i = some (is, t) ↔ ∃ b, f.blocks[i]? = some b ∧ b.instrs = is ∧ some b.terminator = t := by
  simp [body]

theorem Function.body_of_getElem? {f : Function} {i : Nat} (h : f.blocks[i]? = some b) :
    f.body i = some (b.instrs, some b.terminator) := body_eq_some.2 ⟨b, h, rfl, rfl⟩

theorem Function.body_of_mem {f : Function} (hb : b ∈ f.blocks) :
    ∃ i, f.body i = some (b.instrs, some b.terminator) := by
  obtain ⟨i, hi⟩ := getElem?_of_mem hb
  exact ⟨i, body_of_getElem? hi⟩

/-- The registers that instructions define. -/
def dsts (is : List Instr) : List Reg := is.filterMap Instr.dst?

theorem Instr.isPhi_iff : i.isPhi = true ↔ ∃ dst incoming, i = .define dst (.phi incoming) := by
  unfold isPhi
  split <;> simp_all

/-- The phis come first. -/
def PhisLead (is : List Instr) : Prop :=
  ∃ phis rest, is = phis ++ rest ∧ (∀ i ∈ phis, i.isPhi = true) ∧ ∀ i ∈ rest, i.isPhi = false

theorem PhisLead.of_none (h : ∀ i ∈ is, i.isPhi = false) : PhisLead is :=
  ⟨[], is, rfl, by simp, h⟩

theorem PhisLead.tail (h : PhisLead (i :: is)) : PhisLead is := by
  obtain ⟨phis, rest, heq, hphis, hrest⟩ := h
  cases phis with
  | nil =>
    obtain rfl : i :: is = rest := heq
    exact .of_none fun j hj => hrest j (mem_cons_of_mem i hj)
  | cons j phis =>
    obtain ⟨rfl, rfl⟩ := List.cons.inj heq
    exact ⟨phis, rest, rfl, fun k hk => hphis k (mem_cons_of_mem _ hk), hrest⟩

theorem PhisLead.none_of_head (h : PhisLead (i :: is)) (hi : i.isPhi = false) : ∀ j ∈ is, j.isPhi = false := by
  obtain ⟨phis, rest, heq, hphis, hrest⟩ := h
  cases phis with
  | nil =>
    obtain rfl : i :: is = rest := heq
    exact fun j hj => hrest j (mem_cons_of_mem i hj)
  | cons j phis =>
    obtain ⟨rfl, rfl⟩ := List.cons.inj heq
    simp [hphis i mem_cons_self] at hi

theorem PhisLead.filter_of_head (h : PhisLead (i :: is))
    (hi : i.isPhi = false) : (i :: is).filter Instr.isPhi = [] := by
  rw [filter_eq_nil_iff, forall_mem_cons]
  exact ⟨by simp [hi], fun j hj => by simp [h.none_of_head hi j hj]⟩

theorem PhisLead.suffix (h : PhisLead is) (hs : js <:+ is) : PhisLead js := by
  obtain ⟨ks, rfl⟩ := hs
  induction ks with
  | nil => exact h
  | cons k ks ih => exact ih h.tail

theorem PhisLead.cons (h : PhisLead is) (hi : i.isPhi = true) : PhisLead (i :: is) := by
  obtain ⟨phis, rest, rfl, hphis, hrest⟩ := h
  exact ⟨i :: phis, rest, rfl, forall_mem_cons.2 ⟨hi, hphis⟩, hrest⟩

/-- Available registers, by the index of a block. -/
abbrev Entry := Nat → Reg → Prop

/-- Available at the end of a block: on its start, or defined in it. -/
def Available (entry : Entry) (body : Body) (i : Nat) (r : Reg) : Prop :=
  entry i r ∨ ∃ is t, body i = some (is, t) ∧ r ∈ dsts is

theorem available_of_body {i : Nat} (h : body i = some (is, t)) :
    Available entry body i r ↔ entry i r ∨ r ∈ dsts is := by
  simp [Available, h]

/-- An instruction where the registers of `known` are available, with those that follow it. -/
def Instr.Scoped (Γ : Context) (known : Reg → Prop) (rest : List Instr) : Instr → Prop
  | define dst rhs =>
    (∀ r, known r → Γ.rank r < Γ.rank dst) ∧ (∃ t, Γ.reg dst = some t ∧ rhs.Typed Γ t) ∧
      match rhs with
      | .phi _ => True
      | .stackSlot _ => ∃ v, rest.head? = some (.store dst v)
      | rhs => ∀ r ∈ rhs.uses, known r
  | store addr value =>
    known addr ∧ known value ∧
      ∃ t m, Γ.At addr (.reference t m) ∧ Γ.At value t

/-- Whether a right-hand side only reads registers: all but phis and addresses of slots. -/
def Rhs.isOperation : Rhs → Bool
  | phi _ | stackSlot _ => false
  | _ => true

theorem Instr.Scoped.uses (h : (define dst rhs).Scoped Γ known rest)
    (hphi : (define dst rhs).isPhi = false) : ∀ r ∈ rhs.uses, known r := by
  cases rhs with
  | phi => cases hphi
  | stackSlot s => intro r hr; cases hr
  | _ => exact h.2.2

/-- Available after an instruction. -/
def Instr.after (known : Reg → Prop) (i : Instr) : Reg → Prop := fun r =>
  known r ∨ i.dst? = some r

theorem Instr.after_or_dsts : i.after known r ∨ r ∈ dsts is ↔ known r ∨ r ∈ dsts (i :: is) := by
  unfold Instr.after dsts
  rw [filterMap_cons]
  cases i.dst? with
  | none => simp
  | some d => simp only [Option.some.injEq, mem_cons, or_assoc, eq_comm]

/-- Instructions in sequence. -/
def Sequence (Γ : Context) (known : Reg → Prop) : List Instr → Prop
  | [] => True
  | i :: is => i.Scoped Γ known is ∧ Sequence Γ (i.after known) is

theorem Sequence.typed (h : Sequence Γ known is) (hmem : .define dst rhs ∈ is) :
    ∃ t, Γ.reg dst = some t ∧ rhs.Typed Γ t := by
  induction is generalizing known with
  | nil => cases hmem
  | cons i is ih =>
    rcases mem_cons.1 hmem with rfl | hmem
    · exact h.1.2.1
    · exact ih h.2 hmem

theorem Sequence.store_typed (h : Sequence Γ known is) (hmem : .store addr value ∈ is) :
    ∃ t m, Γ.At addr (.reference t m) ∧ Γ.At value t := by
  induction is generalizing known with
  | nil => cases hmem
  | cons i is ih =>
    rcases mem_cons.1 hmem with rfl | hmem
    · exact h.1.2.2
    · exact ih h.2 hmem

theorem Sequence.lt (h : Sequence Γ known is) (hr : known r) (hd : d ∈ dsts is) : Γ.rank r < Γ.rank d := by
  induction is generalizing known with
  | nil => cases hd
  | cons i is ih =>
    cases i with
    | define d' rhs =>
      rcases mem_cons.1 (show d ∈ d' :: dsts is from hd) with rfl | hd
      · exact h.1.1 r hr
      · exact ih h.2 (.inl hr) hd
    | store addr value => exact ih h.2 (.inl hr) hd

theorem mem_dsts (h : .define d rhs ∈ is) : d ∈ dsts is :=
  mem_filterMap.2 ⟨_, h, rfl⟩

theorem mem_dsts_cons (h : d ∈ dsts is) : d ∈ dsts (i :: is) :=
  ((sublist_cons_self i is).filterMap _).subset h

theorem mem_dsts_define (h : d ∈ dsts is) : ∃ rhs, .define d rhs ∈ is := by
  obtain ⟨i, hi, hd⟩ := mem_filterMap.1 h
  cases i with
  | define d' rhs =>
    cases hd
    exact ⟨rhs, hi⟩
  | store => cases hd

theorem Sequence.nodup (h : Sequence Γ known is) : (dsts is).Nodup := by
  induction is generalizing known with
  | nil => exact .nil
  | cons i is ih =>
    cases i with
    | define d rhs =>
      exact nodup_cons.2 ⟨fun hmem => Nat.lt_irrefl _ (h.2.lt (.inr rfl) hmem), ih h.2⟩
    | store => exact ih h.2

theorem Sequence.eq_of_define (h : Sequence Γ known is) (hd : .define d rhs ∈ is)
    (hd' : .define d rhs' ∈ is) : rhs = rhs' := by
  induction is generalizing known with
  | nil => cases hd
  | cons i is ih =>
    have hlater : ∀ rhs, i.dst? = some d → .define d rhs ∈ is → False := fun rhs hi hmem =>
      Nat.lt_irrefl _ (h.2.lt (.inr hi) (mem_dsts hmem))
    rcases mem_cons.1 hd with hi | hmem
    · rcases mem_cons.1 hd' with hi' | hmem'
      · cases hi.trans hi'.symm
        rfl
      · exact (hlater rhs' (hi ▸ rfl) hmem').elim
    · rcases mem_cons.1 hd' with hi' | hmem'
      · exact (hlater rhs (hi' ▸ rfl) hmem).elim
      · exact ih h.2 hmem hmem'

/-- The end of a function that returns `ret`. -/
def Terminator.Scoped (Γ : Context) (ret : Ty) (known : Reg → Prop) : Terminator → Prop
  | jump _ => True
  | branch c _ _ => known c ∧ Γ.At c .bool
  | Terminator.ret r => known r ∧ Γ.At r ret

theorem Terminator.Scoped.mono {ret : Ty} {u : Terminator}
    (h : u.Scoped Γ ret known) (hsub : ∀ r, known r → known' r) : u.Scoped Γ ret known' := by
  cases u with
  | jump => trivial
  | branch | ret => exact ⟨hsub _ h.1, h.2⟩

/-- An edge along which the phis of the target have an input. -/
def Covers (source : Nat) (is : List Instr) : Prop :=
  ∀ dst incoming, .define dst (.phi incoming) ∈ is → ∃ p ∈ incoming, p.1.index.toNat = source

/-- Code that is well scoped and typed. -/
structure Body.Scoped (Γ : Context) (ret : Ty) (params : List Reg) (entry : Entry) (body : Body) :
    Prop where
  start : ∀ r, entry 0 r → r ∈ params
  noPhis : ∀ is t, body 0 = some (is, t) → ∀ i ∈ is, i.isPhi = false
  sequence : ∀ i is t, body i = some (is, t) → Sequence Γ (entry i) is
  lead : ∀ i is t, body i = some (is, t) → PhisLead is
  inputs : ∀ i is t, body i = some (is, t) → ∀ dst incoming, .define dst (.phi incoming) ∈ is →
    ∀ p ∈ incoming, Available entry body p.1.index.toNat p.2
  first : ∀ i is t, body i = some (is, t) → ∀ dst incoming, .define dst (.phi incoming) ∈ is →
    ∀ p, incoming.head? = some p → ∀ d ∈ dsts is, Γ.rank p.2 < Γ.rank d
  terminator : ∀ i is t, body i = some (is, some t) → t.Scoped Γ ret (Available entry body i)
  edge : ∀ i is t, body i = some (is, some t) → ∀ s ∈ t.successors,
    ∃ is' t', body s.index.toNat = some (is', t') ∧
      (∀ r, entry s.index.toNat r → Available entry body i r) ∧ Covers i is'
  unique : ∀ i j is js t u, body i = some (is, t) → body j = some (js, u) →
    ∀ r ∈ dsts is, r ∈ dsts js → i = j
  fresh : ∀ i is t, body i = some (is, t) → ∀ r ∈ params, r ∉ dsts is

/-- A function that is well formed in its module. -/
structure Function.WellFormed (m : Module) (f : Function) : Prop where
  code : ∃ entry ret, m.ty? f.retType = some ret ∧ ret.holdsReference = false ∧
    f.body.Scoped (m.context f) ret f.params entry
  params : ∃ ps, (m.context f).Regs f.params ps ∧ ∀ p ∈ ps, p.holdsReference = false
  nodup : f.params.Nodup
  nonempty : f.blocks ≠ []

/-- A module all of whose functions are well formed. -/
def Module.WellFormed (m : Module) : Prop := ∀ f ∈ m.functions, f.WellFormed m

namespace Module

variable {m : Module}

theorem paramTys?_of_regs (h : (m.context f).Regs f.params ps)
    (hp : ∀ p ∈ ps, p.holdsReference = false) : m.paramTys? f = some ps := by
  unfold paramTys? Function.paramTypes
  generalize f.params = rs at h
  induction h with
  | nil => rfl
  | @cons r p rs ps hr _ ih =>
    obtain ⟨id, hid, hty⟩ := Option.bind_eq_some_iff.1
      (show (f.regType? r).bind m.ty? = some p from hr.reg (hp p mem_cons_self))
    simp [hid, hty, ih fun q hq => hp q (mem_cons_of_mem p hq)]

theorem WellFormed.signature (hm : m.WellFormed) {id : FuncId}
    (h : m.signature? id = some (.function ps t)) :
    ∃ f, m.function? id = some f ∧ f.WellFormed m ∧ (m.context f).Regs f.params ps ∧
      m.ty? f.retType = some t ∧ t.holdsReference = false ∧ ∀ p ∈ ps, p.holdsReference = false := by
  simp only [signature?, Option.bind_eq_bind, Option.pure_def, Option.bind_eq_some_iff,
    Option.some.injEq, Ty.function.injEq] at h
  obtain ⟨f, hf, ps', hps, t', ht, rfl, rfl⟩ := h
  have hwf := hm f (mem_of_getElem? hf)
  obtain ⟨entry, ret, hret, hplain, -⟩ := hwf.code
  obtain ⟨qs, hqs, hqplain⟩ := hwf.params
  obtain rfl := Option.some.inj (ht.symm.trans hret)
  obtain rfl := Option.some.inj (hps.symm.trans (paramTys?_of_regs hqs hqplain))
  exact ⟨f, hf, hwf, hqs, ht, hplain, hqplain⟩

end Module

end NumericEngine.Ir

