import NumericEngine.Ir.Optimize
import NumericEngine.Proofs.Ir.Scoping

/-!
# Changes to code

What all optimisation passes have in common. A change replaces registers by
others of the same value, puts constants in place of operations on constants,
and drops definitions that nothing reads and phis all of whose inputs are the
same register by now. The code that is left is well scoped if the code before
was.
-/

namespace NumericEngine.Ir

open List

/-- What a change is based on. -/
structure Change where
  /-- The register that stands for another. -/
  subst : Reg → Reg := id
  /-- The registers that are read. -/
  live : Reg → Prop := fun _ => True
  /-- Registers that hold a known word. -/
  facts : Known := []

/-- The instructions of a block, before and after. -/
inductive Change.OnInstrs (c : Change) (m m' : Module) : List Instr → List Instr → Prop where
  | nil : OnInstrs c m m' [] []
  | keep {i : Instr} {is is' : List Instr} (uses : ∀ r ∈ i.uses, c.live r)
      (dst : ∀ d, i.dst? = some d → c.subst d = d)
      (facts : ∀ d rhs w, i = .define d rhs → (d, w) ∈ c.facts →
        ∃ k v, rhs = .const k ∧ m.constants.get? k = some v ∧ v.bits? = some w)
      (rest : OnInstrs c m m' is is') : OnInstrs c m m' (i :: is) (i.mapUses c.subst :: is')
  | fold {d : Reg} {rhs : Rhs} {k : ConstId} {v : Value} {known : Known} {is is' : List Instr}
      (dst : c.subst d = d) (known_subset : known ⊆ c.facts) (value : rhs.fold? known = some v)
      (const : m'.constants.get? k = some v) (facts : ∀ w, (d, w) ∈ c.facts → v.bits? = some w)
      (rest : OnInstrs c m m' is is') :
      OnInstrs c m m' (.define d rhs :: is) (.define d (.const k) :: is')
  | dead {d : Reg} {rhs : Rhs} {is is' : List Instr} (dead : ¬ c.live d)
      (removable : rhs.isRemovable = true) (facts : ∀ w, (d, w) ∉ c.facts)
      (rest : OnInstrs c m m' is is') : OnInstrs c m m' (.define d rhs :: is) is'
  | phi {d : Reg} {incoming : List (BlockId × Reg)} {is is' : List Instr}
      (inputs : ∀ p ∈ incoming, c.live p.2 ∧ c.subst p.2 = c.subst d) (nonempty : incoming ≠ [])
      (facts : ∀ w, (d, w) ∉ c.facts) (rest : OnInstrs c m m' is is') :
      OnInstrs c m m' (.define d (.phi incoming) :: is) is'

/-- A block, before and after. -/
structure Change.OnBlock (c : Change) (m m' : Module) (b b' : Block) : Prop where
  id : b'.id = b.id
  instrs : c.OnInstrs m m' b.instrs b'.instrs
  terminator : b'.terminator = b.terminator.mapUses c.subst
  uses : ∀ r ∈ b.terminator.uses, c.live r

/-- A function, before and after. -/
structure Change.OnFunction (c : Change) (m m' : Module) (f f' : Function) : Prop where
  header : f' = { f with blocks := f'.blocks }
  blocks : List.Forall₂ (c.OnBlock m m') f.blocks f'.blocks
  params : ∀ r ∈ f.params, c.subst r = r ∧ ∀ w, (r, w) ∉ c.facts
  le : ∀ r, rank f.params (c.subst r) ≤ rank f.params r
  typed : ∀ r t, (m.context f).At r t → (m.context f).At (c.subst r) t

/-- A module, before and after changes to its functions. -/
structure Module.Changes (m m' : Module) : Prop where
  types : m'.types = m.types
  constants : ∀ c v, m.constants.get? c = some v → m'.constants.get? c = some v
  functions : List.Forall₂ (fun f f' => ∃ c : Change, c.OnFunction m m' f f') m.functions m'.functions

variable {t : Ty}

theorem Rhs.Typed.fold {rhs : Rhs} (ht : rhs.Typed Γ t)
    (h : rhs.fold? known = some v) : ∃ k w, t = .ofKind k ∧ v = .ofScalar k w := by
  cases rhs with
  | binary op k l r checked =>
    simp only [fold?] at h
    split at h
    · obtain ⟨w, -, rfl⟩ := Option.map_eq_some_iff.1 h
      exact ⟨k, w, ht.1, rfl⟩
    · cases h
  | compare op k l r =>
    simp only [fold?] at h
    split at h
    · cases h
      exact ⟨.bool, _, ht.1, rfl⟩
    · cases h
  | unary op k s checked =>
    obtain ⟨a, -, h⟩ := Option.bind_eq_some_iff.1 h
    obtain ⟨w, -, rfl⟩ := Option.map_eq_some_iff.1 h
    exact ⟨k, w, ht.1, rfl⟩
  | convert a b s =>
    obtain ⟨w, -, rfl⟩ := Option.map_eq_some_iff.1 h
    exact ⟨b, _, ht.1, rfl⟩
  | _ => cases h

theorem Rhs.typed_const (h : Γ.const c = some (.ofScalar k w)) : (Rhs.const c).Typed Γ (.ofKind k) :=
  ⟨_, h, rfl, Value.valid_ofScalar k w, rfl⟩

/-- A phi that a register other than its own stands for. -/
def Change.Drops (c : Change) (is : List Instr) (d : Reg) : Prop :=
  ∃ incoming, .define d (.phi incoming) ∈ is ∧ incoming ≠ [] ∧
    ∀ p ∈ incoming, c.live p.2 ∧ c.subst p.2 = c.subst d

theorem Change.Drops.cons {c : Change} (h : c.Drops is d) : c.Drops (i :: is) d := by
  obtain ⟨incoming, hmem, hrest⟩ := h
  exact ⟨incoming, mem_cons_of_mem i hmem, hrest⟩

namespace Change.OnInstrs

variable {c : Change} {m m' : Module} {is is' : List Instr}

section

variable (h : c.OnInstrs m m' is is')
include h

theorem dsts_sublist : (dsts is').Sublist (dsts is) := by
  induction h with
  | nil => exact .refl _
  | @keep i is is' _ _ _ _ ih =>
    cases i with
    | define d rhs => exact ih.cons_cons d
    | store => exact ih
  | @fold d _ _ _ _ _ _ _ _ _ _ _ _ ih => exact ih.cons_cons d
  | @dead d _ _ _ _ _ _ _ ih | @phi d _ _ _ _ _ _ _ ih => exact ih.cons d

theorem mem_define (hmem : .define d rhs' ∈ is') :
    (∃ rhs, .define d rhs ∈ is ∧ rhs' = rhs.mapUses c.subst ∧ (∀ r ∈ rhs.uses, c.live r) ∧
      c.subst d = d) ∨ ∃ k, rhs' = .const k := by
  induction h with
  | nil => cases hmem
  | @keep i is is' huses hdst _ _ ih =>
    rcases mem_cons.1 hmem with heq | hmem
    · cases i with
      | define d' rhs =>
        cases heq
        exact .inl ⟨rhs, mem_cons_self, rfl, huses, hdst d rfl⟩
      | store => cases heq
    · exact (ih hmem).imp_left fun ⟨rhs, hrhs, hrest⟩ => ⟨rhs, mem_cons_of_mem _ hrhs, hrest⟩
  | fold _ _ _ _ _ _ ih =>
    rcases mem_cons.1 hmem with heq | hmem
    · cases heq
      exact .inr ⟨_, rfl⟩
    · exact (ih hmem).imp_left fun ⟨rhs, hrhs, hrest⟩ => ⟨rhs, mem_cons_of_mem _ hrhs, hrest⟩
  | dead _ _ _ _ ih | phi _ _ _ _ ih =>
    exact (ih hmem).imp_left fun ⟨rhs, hrhs, hrest⟩ => ⟨rhs, mem_cons_of_mem _ hrhs, hrest⟩

/-- A register that is read stays defined, unless it was a phi that another register replaces. -/
theorem mem_dsts (hmem : d ∈ dsts is) (hlive : c.live d) :
    (d ∈ dsts is' ∧ c.subst d = d) ∨ c.Drops is d := by
  induction h with
  | nil => cases hmem
  | @keep i is is' _ hdst _ _ ih =>
    cases i with
    | define d' rhs =>
      rcases mem_cons.1 (show d ∈ d' :: dsts is from hmem) with rfl | hmem
      · exact .inl ⟨mem_cons_self, hdst d rfl⟩
      · exact (ih hmem).imp (fun h => ⟨mem_cons_of_mem d' h.1, h.2⟩)
          fun h => h.cons
    | store =>
      exact (ih hmem).imp_right fun h => h.cons
  | @fold d' _ _ _ _ is is' hdst _ _ _ _ _ ih =>
    rcases mem_cons.1 (show d ∈ d' :: dsts is from hmem) with rfl | hmem
    · exact .inl ⟨mem_cons_self, hdst⟩
    · exact (ih hmem).imp (fun h => ⟨mem_cons_of_mem d' h.1, h.2⟩)
        fun h => h.cons
  | @dead d' _ is is' hdead _ _ _ ih =>
    rcases mem_cons.1 (show d ∈ d' :: dsts is from hmem) with rfl | hmem
    · exact absurd hlive hdead
    · exact (ih hmem).imp_right fun h => h.cons
  | @phi d' inc is is' hin hne _ _ ih =>
    rcases mem_cons.1 (show d ∈ d' :: dsts is from hmem) with rfl | hmem
    · exact .inr ⟨inc, mem_cons_self, hne, hin⟩
    · exact (ih hmem).imp_right fun h => h.cons

theorem mem_phi (hmem : .define d (.phi incoming') ∈ is') :
    ∃ incoming, .define d (.phi incoming) ∈ is ∧
      incoming' = incoming.map (fun p => (p.1, c.subst p.2)) ∧ (∀ p ∈ incoming, c.live p.2) ∧
      c.subst d = d := by
  rcases h.mem_define hmem with ⟨rhs, hd, heq, hlive, hdst⟩ | ⟨k, heq⟩
  · cases rhs with
    | phi incoming =>
      cases heq
      exact ⟨incoming, hd, rfl, fun p hp => hlive p.2 (mem_map_of_mem hp), hdst⟩
    | _ => cases heq
  · cases heq

/-- A phi that is read stays, unless another register replaces it. -/
theorem phi_mem (hmem : .define d (.phi incoming) ∈ is) (hlive : c.live d) :
    (.define d (.phi (incoming.map fun p => (p.1, c.subst p.2))) ∈ is' ∧ c.subst d = d) ∨
      c.Drops is d := by
  induction h with
  | nil => cases hmem
  | keep _ hdst _ _ ih =>
    rcases mem_cons.1 hmem with rfl | hmem
    · exact .inl ⟨mem_cons_self, hdst d rfl⟩
    · exact (ih hmem).imp (fun h => ⟨mem_cons_of_mem _ h.1, h.2⟩) fun h => h.cons
  | fold _ _ hvalue _ _ _ ih =>
    rcases mem_cons.1 hmem with heq | hmem
    · cases heq
      cases hvalue
    · exact (ih hmem).imp (fun h => ⟨mem_cons_of_mem _ h.1, h.2⟩) fun h => h.cons
  | dead hdead _ _ _ ih =>
    rcases mem_cons.1 hmem with heq | hmem
    · cases heq
      exact absurd hlive hdead
    · exact (ih hmem).imp_right fun h => h.cons
  | phi hin hne _ _ ih =>
    rcases mem_cons.1 hmem with heq | hmem
    · cases heq
      exact .inr ⟨_, mem_cons_self, hne, hin⟩
    · exact (ih hmem).imp_right fun h => h.cons

end

theorem isPhi_mapUses (i : Instr) : (i.mapUses ρ).isPhi = i.isPhi := by
  cases i with
  | define d rhs => cases rhs <;> rfl
  | store => rfl

variable (h : c.OnInstrs m m' is is')
include h

theorem noPhis (hno : ∀ i ∈ is, i.isPhi = false) : ∀ i ∈ is', i.isPhi = false := by
  induction h with
  | nil => exact hno
  | @keep i _ _ _ _ _ _ ih =>
    rw [forall_mem_cons] at hno ⊢
    exact ⟨(isPhi_mapUses i).trans hno.1, ih hno.2⟩
  | fold _ _ _ _ _ _ ih =>
    rw [forall_mem_cons] at hno ⊢
    exact ⟨rfl, ih hno.2⟩
  | dead _ _ _ _ ih | phi _ _ _ _ ih => exact ih (forall_mem_cons.1 hno).2

theorem phisLead (hlead : PhisLead is) : PhisLead is' := by
  induction h with
  | nil => exact hlead
  | @keep i _ _ _ _ _ hrest ih =>
    cases hphi : i.isPhi with
    | true => exact (ih hlead.tail).cons ((isPhi_mapUses i).trans hphi)
    | false =>
      exact .of_none (forall_mem_cons.2
        ⟨(isPhi_mapUses i).trans hphi, hrest.noPhis (hlead.none_of_head hphi)⟩)
  | @fold d rhs _ _ _ _ _ _ _ hvalue _ _ hrest ih =>
    have hphi : (Instr.define d rhs).isPhi = false := by
      cases rhs <;> first | rfl | cases hvalue
    exact .of_none (forall_mem_cons.2 ⟨rfl, hrest.noPhis (hlead.none_of_head hphi)⟩)
  | dead _ _ _ _ ih | phi _ _ _ _ ih => exact ih hlead.tail

theorem head?_store (hhead : is.head? = some (.store addr value)) :
    is'.head? = some (.store (c.subst addr) (c.subst value)) := by
  cases h with
  | keep =>
    cases hhead
    rfl
  | _ => cases hhead

theorem sequence (hconst : ∀ k, Δ.const k = m'.constants.get? k)
    (hle : Γ.Le Δ) (htyped : ∀ r t, Γ.At r t → Δ.At (c.subst r) t)
    (hseq : Sequence Γ known is) (hlt : ∀ r, known' r → ∀ d ∈ dsts is, Γ.rank r < Γ.rank d)
    (hknown : ∀ r, known r → c.live r → known' (c.subst r))
    (hdrop : ∀ d, c.Drops is d → c.live d → known' (c.subst d)) : Sequence Δ known' is' := by
  -- what stands for a register known before is known after; a definition adds one on both sides
  have hafter (i : Instr) (is : List Instr) (hdst : ∀ d, i.dst? = some d → c.subst d = d)
      {known known' : Reg → Prop} (hseq : Sequence Γ known (i :: is))
      (hlt : ∀ r, known' r → ∀ d ∈ dsts (i :: is), Γ.rank r < Γ.rank d)
      (hknown : ∀ r, known r → c.live r → known' (c.subst r)) :
      (∀ r, i.after known' r → ∀ d ∈ dsts is, Γ.rank r < Γ.rank d) ∧
        ∀ r, i.after known r → c.live r → i.after known' (c.subst r) := by
    constructor
    · rintro r (hr | hr) d hd
      · exact hlt r hr d (mem_dsts_cons hd)
      · exact hseq.2.lt (.inr hr) hd
    · rintro r (hr | hr) hlive
      · exact .inl (hknown r hr hlive)
      · exact .inr (hr.trans (congrArg some (hdst r hr).symm))
  induction h generalizing known known' with
  | nil => trivial
  | @keep i is is' huses hdst _ hrest ih =>
    obtain ⟨hlt', hknown'⟩ := hafter i is hdst hseq hlt hknown
    have hdst? : (i.mapUses c.subst).after known' = i.after known' := by cases i <;> rfl
    refine ⟨?_, hdst? ▸ ih hseq.2 hlt' hknown' fun d hd hlive => .inl (hdrop d hd.cons hlive)⟩
    cases i with
    | define d rhs =>
      obtain ⟨-, ⟨t, hd, ht⟩, hscoped⟩ := hseq.1
      refine ⟨fun r hr => hle.rank ▸ hlt r hr d mem_cons_self, ⟨t, hle.reg d t hd,
        ht.rename (fun r _ u => htyped r u) hle.slot hle.const hle.sig⟩, ?_⟩
      have hmap : (∀ r ∈ rhs.uses, known r) → ∀ r ∈ (rhs.mapUses c.subst).uses, known' r := by
        intro h r hr
        rw [Rhs.uses_mapUses] at hr
        obtain ⟨s, hs, rfl⟩ := mem_map.1 hr
        exact hknown s (h s hs) (huses s hs)
      cases rhs with
      | phi incoming => trivial
      | stackSlot s =>
        obtain ⟨v, hv⟩ := hscoped
        have hhead := hrest.head?_store hv
        rw [hdst d rfl] at hhead
        exact ⟨_, hhead⟩
      | _ => exact hmap hscoped
    | store addr value =>
      obtain ⟨haddr, hvalue, t, μ, htaddr, htvalue⟩ := hseq.1
      exact ⟨hknown addr haddr (huses addr (by simp [Instr.uses])),
        hknown value hvalue (huses value (by simp [Instr.uses])), t, μ, htyped _ _ htaddr,
        htyped _ _ htvalue⟩
  | @fold d rhs k v known _ _ hdst _ hvalue hk _ _ ih =>
    obtain ⟨hlt', hknown'⟩ := hafter (.define d rhs) _ (fun _ h => by cases h; exact hdst) hseq hlt hknown
    obtain ⟨-, ⟨t, hd, ht⟩, -⟩ := hseq.1
    obtain ⟨kind, w, rfl, rfl⟩ := ht.fold hvalue
    exact ⟨⟨fun r hr => hle.rank ▸ hlt r hr d mem_cons_self,
      ⟨_, hle.reg d _ hd, Rhs.typed_const ((hconst k).trans hk)⟩, fun r hr => absurd hr (by simp [Rhs.uses])⟩,
      ih hseq.2 hlt' hknown' fun e he hlive => .inl (hdrop e he.cons hlive)⟩
  | @dead d rhs is is' hdead _ _ _ ih =>
    refine ih hseq.2 (fun r hr e he => hlt r hr e (mem_dsts_cons he)) ?_
      fun e he hlive => hdrop e he.cons hlive
    rintro r (hr | hr) hlive
    · exact hknown r hr hlive
    · cases hr
      exact absurd hlive hdead
  | @phi d incoming is is' hin hne _ _ ih =>
    refine ih hseq.2 (fun r hr e he => hlt r hr e (mem_dsts_cons he)) ?_
      fun e he hlive => hdrop e he.cons hlive
    rintro r (hr | hr) hlive
    · exact hknown r hr hlive
    · cases hr
      exact hdrop d ⟨incoming, mem_cons_self, hne, hin⟩ hlive

end Change.OnInstrs

variable {c : Change} {m m' : Module} {f f' : Function}

namespace Module.Changes

theorem function_left (h : m.Changes m') {id : FuncId} (hf : m.function? id = some f) :
    ∃ f', ∃ c : Change, m'.function? id = some f' ∧ c.OnFunction m m' f f' := by
  obtain ⟨f', hf', c, hc⟩ := forall₂_getElem?_left h.functions hf
  exact ⟨f', c, hf', hc⟩

theorem function_none (h : m.Changes m') {id : FuncId} (hf : m.function? id = none) :
    m'.function? id = none := by
  rw [Module.function?, getElem?_eq_none_iff] at hf ⊢
  rwa [← h.functions.length_eq]

theorem ty? (h : m.Changes m') : m'.ty? = m.ty? := by
  funext t
  simp only [Module.ty?, h.types]

theorem signature? (h : m.Changes m') : m'.signature? = m.signature? := by
  funext id
  unfold Module.signature?
  cases hf : m.function? id with
  | none =>
    rw [h.function_none hf]
    rfl
  | some f =>
    obtain ⟨f', c, hf', hc⟩ := h.function_left hf
    rw [hf', hc.header]
    simp only [Option.bind_eq_bind, Option.bind_some, Module.paramTys?, Function.paramTypes,
      Function.regType?, h.ty?]
    rfl

end Module.Changes

/-- Available at the start of a block: what stands for a register that was, or for a phi that the
block has no more. -/
def Change.entry (c : Change) (f : Function) (entry : Entry) : Entry := fun i r' =>
  ∃ r, c.live r ∧ r' = c.subst r ∧ (entry i r ∨ ∃ is t, f.body i = some (is, t) ∧ c.Drops is r)

namespace Change.OnFunction

variable {i : Nat}

theorem regTy? (h : m.Changes m') (hf : c.OnFunction m m' f f') (r : Reg) :
    m'.regTy? f' r = m.regTy? f r := by
  rw [hf.header]
  simp only [Module.regTy?, Function.regType?, h.ty?]

theorem context_le (h : m.Changes m') (hf : c.OnFunction m m' f f') :
    (m.context f).Le (m'.context f') where
  reg r t hr := (hf.regTy? h r).trans hr
  slot s t hs := by
    rw [hf.header]
    simpa only [Module.context, h.ty?] using hs
  const := h.constants
  sig g t hg := (congrFun h.signature? g).trans hg
  rank := by
    rw [hf.header]
    rfl

theorem body_left (hf : c.OnFunction m m' f f') {t : Option Terminator}
    (h : f.body i = some (is, t)) : ∃ is' u, t = some u ∧
      f'.body i = some (is', some (u.mapUses c.subst)) ∧ c.OnInstrs m m' is is' ∧
      ∀ r ∈ u.uses, c.live r := by
  obtain ⟨b, hb, heq⟩ := Option.map_eq_some_iff.1 h
  cases heq
  obtain ⟨b', hb', hblock⟩ := forall₂_getElem?_left hf.blocks hb
  refine ⟨b'.instrs, b.terminator, rfl, ?_, hblock.instrs, hblock.uses⟩
  simp [Function.body, hb', hblock.terminator]

theorem body_right (hf : c.OnFunction m m' f f') (h : f'.body i = some (is', t')) : ∃ is u,
      f.body i = some (is, some u) ∧ t' = some (u.mapUses c.subst) ∧ c.OnInstrs m m' is is' ∧
      ∀ r ∈ u.uses, c.live r := by
  obtain ⟨b', hb', heq⟩ := Option.map_eq_some_iff.1 h
  cases heq
  obtain ⟨b, hb, hblock⟩ := forall₂_getElem?_right hf.blocks hb'
  refine ⟨b.instrs, b.terminator, ?_, by rw [hblock.terminator], hblock.instrs, hblock.uses⟩
  simp [Function.body, hb]

variable {entry : Entry} {ret : Ty}

section

variable (hf : c.OnFunction m m' f f')
include hf

theorem drops_lt (hbody : f.body.Scoped (m.context f) ret f.params entry)
    {t : Option Terminator} (hi : f.body i = some (is, t)) (hr : c.Drops is r)
    (hd : d ∈ dsts is) : rank f.params (c.subst r) < rank f.params d := by
  obtain ⟨incoming, hmem, hne, hin⟩ := hr
  obtain ⟨p, rest, rfl⟩ := exists_cons_of_ne_nil hne
  rw [← (hin p mem_cons_self).2]
  exact Nat.lt_of_le_of_lt (hf.le p.2) (hbody.first i is t hi r _ hmem p rfl d hd)

theorem entry_lt (hbody : f.body.Scoped (m.context f) ret f.params entry)
    {t : Option Terminator} (hi : f.body i = some (is, t)) (hr : c.entry f entry i r') (hd : d ∈ dsts is) :
    rank f.params r' < rank f.params d := by
  obtain ⟨r, -, rfl, hr | ⟨js, u, hjs, hr⟩⟩ := hr
  · exact Nat.lt_of_le_of_lt (hf.le r) ((hbody.sequence i is t hi).lt hr hd)
  · cases hi.symm.trans hjs
    exact hf.drops_lt hbody hi hr hd

theorem available (hr : Available entry f.body i r) (hlive : c.live r) :
    Available (c.entry f entry) f'.body i (c.subst r) := by
  rcases hr with hr | ⟨is, t, hi, hr⟩
  · exact .inl ⟨r, hlive, rfl, .inl hr⟩
  · obtain ⟨is', u, rfl, hi', hinstrs, -⟩ := hf.body_left hi
    rcases hinstrs.mem_dsts hr hlive with ⟨hr', heq⟩ | hdrop
    · exact .inr ⟨is', _, hi', heq.symm ▸ hr'⟩
    · exact .inl ⟨r, hlive, rfl, .inr ⟨is, _, hi, hdrop⟩⟩

theorem terminator_scoped (hle : (m.context f).Le (m'.context f'))
    (hknown : ∀ r, known r → c.live r → known' (c.subst r)) {t : Terminator}
    (ht : t.Scoped (m.context f) ret known) (hlive : ∀ r ∈ t.uses, c.live r) :
    (t.mapUses c.subst).Scoped (m'.context f') ret known' := by
  cases t with
  | jump => trivial
  | branch r _ _ =>
    exact ⟨hknown r ht.1 (hlive r mem_cons_self), (hf.typed r _ ht.2).mono hle⟩
  | ret r => exact ⟨hknown r ht.1 (hlive r mem_cons_self), (hf.typed r _ ht.2).mono hle⟩

end

@[simp] theorem successors_mapUses (ρ : Reg → Reg) (t : Terminator) :
    (t.mapUses ρ).successors = t.successors := by
  cases t <;> rfl

theorem body_scoped (h : m.Changes m') (hf : c.OnFunction m m' f f')
    (hbody : f.body.Scoped (m.context f) ret f.params entry) :
    f'.body.Scoped (m'.context f') ret f'.params (c.entry f entry) where
  start := by
    rintro r' ⟨r, -, rfl, hr | ⟨is, t, hi, inc, hinc, -⟩⟩
    · have hr := hbody.start r hr
      rw [(hf.params r hr).1, hf.header]
      exact hr
    · cases hbody.noPhis is t hi _ hinc
  noPhis is' t' hi' := by
    obtain ⟨is, u, hi, -, hinstrs, -⟩ := hf.body_right hi'
    exact hinstrs.noPhis (hbody.noPhis is _ hi)
  sequence i is' t' hi' := by
    obtain ⟨is, u, hi, -, hinstrs, -⟩ := hf.body_right hi'
    have hle := hf.context_le h
    exact hinstrs.sequence (fun _ => rfl) hle (fun r t hr => (hf.typed r t hr).mono hle)
      (hbody.sequence i is _ hi) (fun r hr d hd => hf.entry_lt hbody hi hr hd)
      (fun r hr hlive => ⟨r, hlive, rfl, .inl hr⟩)
      fun d hd hlive => ⟨d, hlive, rfl, .inr ⟨is, _, hi, hd⟩⟩
  lead i is' t' hi' := by
    obtain ⟨is, u, hi, -, hinstrs, -⟩ := hf.body_right hi'
    exact hinstrs.phisLead (hbody.lead i is _ hi)
  inputs i is' t' hi' d incoming' hd' p' hp' := by
    obtain ⟨is, u, hi, -, hinstrs, -⟩ := hf.body_right hi'
    obtain ⟨incoming, hd, rfl, hlive, -⟩ := hinstrs.mem_phi hd'
    obtain ⟨p, hp, rfl⟩ := mem_map.1 hp'
    exact hf.available (hbody.inputs i is _ hi d incoming hd p hp) (hlive p hp)
  first i is' t' hi' d incoming' hd' p' hp' e he := by
    obtain ⟨is, u, hi, -, hinstrs, -⟩ := hf.body_right hi'
    obtain ⟨incoming, hd, rfl, -, -⟩ := hinstrs.mem_phi hd'
    rw [head?_map] at hp'
    obtain ⟨p, hp, rfl⟩ := Option.map_eq_some_iff.1 hp'
    rw [(hf.context_le h).rank]
    exact Nat.lt_of_le_of_lt (hf.le p.2)
      (hbody.first i is _ hi d incoming hd p hp e (hinstrs.dsts_sublist.subset he))
  terminator i is' t' hi' := by
    obtain ⟨is, u, hi, ht, hinstrs, hlive⟩ := hf.body_right hi'
    cases ht
    exact hf.terminator_scoped (hf.context_le h) (fun r hr => hf.available hr)
      (hbody.terminator i is u hi) hlive
  edge i is' t' hi' s hs := by
    obtain ⟨is, u, hi, ht, hinstrs, -⟩ := hf.body_right hi'
    cases ht
    rw [successors_mapUses] at hs
    obtain ⟨js, v, hj, hentry, hcovers⟩ := hbody.edge i is u hi s hs
    obtain ⟨js', v', -, hj', hinstrs', -⟩ := hf.body_left hj
    refine ⟨js', _, hj', ?_, ?_⟩
    · rintro r' ⟨r, hlive, rfl, hr | ⟨ks, w, hk, incoming, hd, hne, hin⟩⟩
      · exact hf.available (hentry r hr) hlive
      -- what stands for a phi that is dropped comes along every edge as its input
      · cases hj.symm.trans hk
        obtain ⟨p, hp, hpi⟩ := hcovers r incoming hd
        have hav := hbody.inputs _ js _ hj r incoming hd p hp
        rw [hpi] at hav
        rw [← (hin p hp).2]
        exact hf.available hav (hin p hp).1
    · intro d incoming' hd'
      obtain ⟨incoming, hd, rfl, -, -⟩ := hinstrs'.mem_phi hd'
      obtain ⟨p, hp, hpi⟩ := hcovers d incoming hd
      exact ⟨_, mem_map_of_mem hp, hpi⟩
  unique i j is' js' t' u' hi' hj' r hr hr' := by
    obtain ⟨is, _, hi, -, hinstrs, -⟩ := hf.body_right hi'
    obtain ⟨js, _, hj, -, hinstrs', -⟩ := hf.body_right hj'
    exact hbody.unique i j is js _ _ hi hj r (hinstrs.dsts_sublist.subset hr)
      (hinstrs'.dsts_sublist.subset hr')
  fresh i is' t' hi' r hr hmem := by
    obtain ⟨is, _, hi, -, hinstrs, -⟩ := hf.body_right hi'
    rw [hf.header] at hr
    exact hbody.fresh i is _ hi r hr (hinstrs.dsts_sublist.subset hmem)

theorem wellFormed (h : m.Changes m') (hf : c.OnFunction m m' f f') (hwf : f.WellFormed m) :
    f'.WellFormed m' := by
  obtain ⟨entry, ret, hret, hplain, hbody⟩ := hwf.code
  obtain ⟨ps, hps, hpsplain⟩ := hwf.params
  have hparams : f'.params = f.params := by rw [hf.header]
  refine ⟨⟨_, ret, ?_, hplain, hf.body_scoped h hbody⟩, ⟨ps, ?_, hpsplain⟩, hparams ▸ hwf.nodup, ?_⟩
  · rw [hf.header]
    simpa only [h.ty?] using hret
  · exact hparams ▸ hps.mono (hf.context_le h)
  · intro hnil
    have := hf.blocks.length_eq
    simp [hnil, hwf.nonempty] at this

end Change.OnFunction

/-- A module stays well formed. -/
theorem Module.Changes.wellFormed (h : m.Changes m') (hm : m.WellFormed) : m'.WellFormed := by
  intro f' hf'
  obtain ⟨f, hf, c, hc⟩ := forall₂_exists_left h.functions hf'
  exact hc.wellFormed h (hm f hf)

end NumericEngine.Ir
