import NumericEngine.Lowering.Builder
import NumericEngine.Proofs.Ir.Availability
import NumericEngine.Proofs.Ty.Formed
import NumericEngine.Proofs.Ty.Table
import NumericEngine.Proofs.Value.Pool

/-!
# Builders

What a builder holds, and how one that succeeds is taken apart into its steps.
`Build.Gives` says what the result of a builder is, and that there is one where
that is known.
-/

namespace NumericEngine

/-- A value that can stand in a table of constants. -/
structure Value.IsConstant (v : Value) : Prop where
  valid : v.Valid
  formed : v.ty.Formed

theorem Value.isConstant_ofScalar (k : Kind) (w : UInt64) : (Value.ofScalar k w).IsConstant :=
  ⟨valid_ofScalar k w, Ty.formed_ofKind k⟩

/-- A type id that a table of types has an entry for. -/
abbrev TypeTable.Knows (t : TypeTable) (id : TypeId) : Prop := id.index.toNat < t.size

namespace Lowering

open Ir (Rhs Instr Terminator Body)

namespace Builder

/-- The code built so far. -/
def body (b : Builder) : Body := fun i => b.blocks[i]?.map fun o => (o.instrs.toList, o.terminator)

/-- The label of a block. -/
def label (b : Builder) (i : Nat) : Option String := b.blocks[i]?.map OpenBlock.label

/-- The block that receives instructions; none is as good as one that does not exist. -/
def here (b : Builder) : Nat := (b.current.map fun id => id.index.toNat).getD b.blocks.size

/-- What the instructions of the function can name so far. -/
def context (sig : FuncId → Option Ty) (params : List Reg) (b : Builder) : Ir.Context where
  reg r := b.regTypes[r.index.toNat]?.bind b.types.get?
  slot s := b.slotTypes[s.toNat]?.bind b.types.get?
  const := b.constants.get?
  sig := sig
  rank := Ir.rank params

/-- One builder holds what another does, under the same ids. -/
structure Le (b b' : Builder) : Prop where
  locals : b'.locals = b.locals
  types : b.types.Le b'.types
  constants : b.constants.Le b'.constants
  regs : ∀ (i : Nat) (t : TypeId), b.regTypes[i]? = some t → b'.regTypes[i]? = some t
  slots : ∀ (i : Nat) (t : TypeId), b.slotTypes[i]? = some t → b'.slotTypes[i]? = some t
  regCount : b.regTypes.size ≤ b'.regTypes.size
  slotCount : b.slotTypes.size ≤ b'.slotTypes.size
  blockCount : b.blocks.size ≤ b'.blocks.size
  labels : ∀ i l, b.label i = some l → b'.label i = some l

/-- Only the tables and the blocks count. -/
theorem le_of_tables {b b' : Builder} (hl : b'.locals = b.locals) (ht : b'.types = b.types)
    (hc : b'.constants = b.constants) (hr : b'.regTypes = b.regTypes) (hs : b'.slotTypes = b.slotTypes)
    (hb : b.blocks.size ≤ b'.blocks.size) (hlabels : ∀ i l, b.label i = some l → b'.label i = some l) : b.Le b' :=
  ⟨hl, ht ▸ .refl _, hc ▸ .refl _, fun _ _ h => hr ▸ h, fun _ _ h => hs ▸ h,
    hr ▸ Nat.le_refl _, hs ▸ Nat.le_refl _, hb, hlabels⟩

theorem Le.refl (b : Builder) : b.Le b := le_of_tables rfl rfl rfl rfl rfl (Nat.le_refl _) fun _ _ h => h

theorem Le.trans {b : Builder} (h : b.Le b') (h' : b'.Le b'') : b.Le b'' :=
  ⟨h'.locals.trans h.locals, h.types.trans h'.types, h.constants.trans h'.constants,
    fun i t hi => h'.regs i t (h.regs i t hi), fun i t hi => h'.slots i t (h.slots i t hi),
    Nat.le_trans h.regCount h'.regCount, Nat.le_trans h.slotCount h'.slotCount,
    Nat.le_trans h.blockCount h'.blockCount, fun i l hi => h'.labels i l (h.labels i l hi)⟩

theorem Le.context {b : Builder} (h : b.Le b') (sig : FuncId → Option Ty) (params : List Reg) :
    (b.context sig params).Le (b'.context sig params) where
  reg r t hr := by
    obtain ⟨id, hid, ht⟩ := Option.bind_eq_some_iff.1 hr
    exact Option.bind_eq_some_iff.2 ⟨id, h.regs _ _ hid, h.types.get? _ _ ht⟩
  slot s t hs := by
    obtain ⟨id, hid, ht⟩ := Option.bind_eq_some_iff.1 hs
    exact Option.bind_eq_some_iff.2 ⟨id, h.slots _ _ hid, h.types.get? _ _ ht⟩
  const c v hc := h.constants.get? c v hc
  sig _ _ hf := hf
  rank := rfl

theorem le_moveTo (b : Builder) (i : Option BlockId) : b.Le { b with current := i } :=
  le_of_tables rfl rfl rfl rfl rfl (Nat.le_refl _) fun _ _ h => h

/-- Every table of the builder has ids for its entries. -/
structure Fits (b : Builder) : Prop where
  types : b.types.size ≤ 2 ^ 32
  constants : b.constants.size ≤ 2 ^ 32
  regs : b.regTypes.size ≤ 2 ^ 32
  slots : b.slotTypes.size ≤ 2 ^ 32
  blocks : b.blocks.size ≤ 2 ^ 32
  fields : ∀ id decl, b.types.get? id = some (.struct decl) → decl.length ≤ 2 ^ 32

theorem Le.fits {b : Builder} (h : b.Le b') (hf : b'.Fits) : b.Fits :=
  ⟨Nat.le_trans h.types.size hf.types, Nat.le_trans h.constants.size hf.constants,
    Nat.le_trans h.regCount hf.regs, Nat.le_trans h.slotCount hf.slots,
    Nat.le_trans h.blockCount hf.blocks,
    fun id decl hid => hf.fields id decl (h.types.get? id _ hid)⟩

/-- The tables of a builder hold what they should. -/
structure Tabled (b : Builder) : Prop where
  types : ∀ t ∈ b.types.types, t.Formed
  constants : ∀ v ∈ b.constants.values, v.IsConstant
  regs : ∀ id ∈ b.regTypes, b.types.Knows id
  slots : ∀ id ∈ b.slotTypes, b.types.Knows id

theorem label_modify {b : Builder} {f : OpenBlock → OpenBlock} (hf : ∀ o, (f o).label = o.label) (k : Nat) :
    ({ b with blocks := b.blocks.modify k f } : Builder).label = b.label := by
  funext i
  unfold label
  simp only [Array.getElem?_modify]
  split
  · cases b.blocks[i]? <;> simp [hf]
  · rfl

theorem le_modify {b : Builder} {f : OpenBlock → OpenBlock} (hf : ∀ o, (f o).label = o.label) (k : Nat) :
    b.Le { b with blocks := b.blocks.modify k f } :=
  le_of_tables rfl rfl rfl rfl rfl (by simp) fun i l hi => (congrFun (label_modify hf k) i).trans hi

-- The code after changes to blocks.

variable {b : Builder} {i : Nat} {is : List Instr} {t : Option Terminator}

theorem body_eq_some : b.body i = some (is, t) ↔
    ∃ o, b.blocks[i]? = some o ∧ o.instrs.toList = is ∧ o.terminator = t := by
  simp only [body, Option.map_eq_some_iff, Prod.mk.injEq]

theorem lt_of_body (h : b.body i = some (is, t)) : i < b.blocks.size := by
  obtain ⟨o, ho, -⟩ := body_eq_some.1 h
  exact (Array.getElem?_eq_some_iff.1 ho).1

theorem body_eq_none : b.body i = none ↔ b.blocks.size ≤ i := by
  simp [body]

theorem body_push : ({ b with blocks := b.blocks.push o } : Builder).body =
    b.body.set b.blocks.size (o.instrs.toList, o.terminator) := by
  funext j
  unfold body Body.set
  simp only [Array.getElem?_push]
  split <;> simp_all

theorem body_modify (h : b.body i = some (is, t)) (hf : ∀ o, o.instrs.toList = is → o.terminator = t →
      (f o).instrs.toList = is' ∧ (f o).terminator = t') :
    ({ b with blocks := b.blocks.modify i f } : Builder).body = b.body.set i (is', t') := by
  obtain ⟨o, ho, hi, ht⟩ := body_eq_some.1 h
  funext j
  unfold body Body.set
  simp only [Array.getElem?_modify]
  by_cases hij : i = j
  · subst hij
    obtain ⟨hi', ht'⟩ := hf o hi ht
    simp [ho, hi', ht']
  · simp [hij, Ne.symm hij]

theorem body_emit (h : b.body i = some (is, t)) (x : Instr) :
    ({ b with blocks := b.blocks.modify i fun o => { o with instrs := o.instrs.push x } } :
      Builder).body = b.body.set i (is ++ [x], t) :=
  body_modify h fun o hi ht => by simp [← hi, ht]

theorem body_terminate (h : b.body i = some (is, none)) (u : Terminator) :
    ({ b with blocks := b.blocks.modify i fun o =>
      { o with terminator := o.terminator.or (some u) } } : Builder).body = b.body.set i (is, some u) :=
  body_modify h fun o hi ht => by simp [hi, ht]

end Builder

namespace Build

variable {α : Type} {b b' : Builder} {a : α}

/-! ## Builders that succeed -/

theorem bind_ok {f : α → Build β} :
    (x >>= f) b = .ok (c, b') ↔ ∃ a b₁, x b = .ok (a, b₁) ∧ f a b₁ = .ok (c, b') := by
  show (x b >>= fun p => f p.1 p.2) = _ ↔ _
  cases x b with
  | error e => simp
  | ok p =>
    obtain ⟨a, b₁⟩ := p
    constructor
    · exact fun h => ⟨a, b₁, rfl, h⟩
    · rintro ⟨a, b₂, h, hf⟩
      cases h
      exact hf

theorem pure_ok : (pure a : Build α) b = .ok (d, b') ↔ a = d ∧ b = b' := by
  show Except.ok (a, b) = _ ↔ _
  simp

theorem get_ok : (get : Build Builder) b = .ok (d, b') ↔ b = d ∧ b = b' := by
  show Except.ok (b, b) = _ ↔ _
  simp

theorem modifyGet_ok : (modifyGet f : Build α) b = .ok (a, b') ↔ f b = (a, b') := by
  show Except.ok (f b) = _ ↔ _
  simp

@[simp] theorem refuse_ne : (refuse fault : Build α) b = .ok (a, b') ↔ False :=
  ⟨fun h => (nomatch h), False.elim⟩

theorem reads_ok {g : Builder → α} :
    (do return g (← get) : Build α) b = .ok (a, b') ↔ g b = a ∧ b = b' := by
  simp only [bind_ok, get_ok, pure_ok]
  constructor
  · rintro ⟨_, _, ⟨rfl, rfl⟩, rfl, rfl⟩
    exact ⟨rfl, rfl⟩
  · rintro ⟨rfl, rfl⟩
    exact ⟨b, b, ⟨rfl, rfl⟩, rfl, rfl⟩

theorem binding_ok : binding x b = .ok (l, b') ↔
    b.locals[x.index.toNat]?.getD default = l ∧ b = b' := reads_ok

theorem current_ok : current b = .ok (i, b') ↔ b.current = some i ∧ b = b' := by
  simp only [current, bind_ok, get_ok]
  constructor
  · rintro ⟨_, _, ⟨rfl, rfl⟩, h⟩
    cases hc : b.current with
    | none => simp [hc] at h
    | some j =>
      simp only [hc, pure_ok] at h
      exact ⟨congrArg some h.1, h.2⟩
  · rintro ⟨hc, rfl⟩
    refine ⟨b, b, ⟨rfl, rfl⟩, ?_⟩
    simp [hc, pure_ok]

/-! ## What builders do to their tables -/

theorem define_ok :
    define ty rhs b = .ok (r, b') ↔ ∃ b₁, newReg ty b = .ok (r, b₁) ∧ emit (.define r rhs) b₁ = .ok ((), b') := by
  simp only [define, bind_ok, pure_ok]
  constructor
  · rintro ⟨r, b₁, hr, u, b₂, he, rfl, rfl⟩
    exact ⟨b₁, hr, he⟩
  · rintro ⟨b₁, hr, he⟩
    exact ⟨r, b₁, hr, (), b', he, rfl, rfl⟩

/-! ## What single steps do -/

/-- The bindings and the loops stay. -/
structure Kept (b b' : Builder) : Prop where
  values : b'.values = b.values
  slots : b'.slots = b.slots
  loops : b'.loops = b.loops

theorem Kept.trans (h : Kept b b') (h' : Kept b' b'') : Kept b b'' :=
  ⟨h'.values.trans h.values, h'.slots.trans h.slots, h'.loops.trans h.loops⟩

/-- The current block stays, too. -/
structure Steady (b b' : Builder) : Prop extends Kept b b' where
  le : b.Le b'
  current : b'.current = b.current

/-- A new block. -/
structure Opened (stem : String) (b : Builder) (id : BlockId) (b' : Builder) : Prop extends Steady b b' where
  tabled : b.Tabled → b'.Tabled
  size : b'.blocks.size = b.blocks.size + 1
  index : b'.blocks.size ≤ 2 ^ 32 → id.index.toNat = b.blocks.size
  body : b'.body = b.body.set b.blocks.size ([], none)
  label : b.blocks.size ≠ 0 → b'.label b.blocks.size = some (stem ++ toString b.blocks.size)

/-- A block gets its end. -/
structure Ended (id : BlockId) (u : Terminator) (b b' : Builder) : Prop extends Steady b b' where
  tabled : b.Tabled → b'.Tabled
  size : b'.blocks.size = b.blocks.size
  body : ∀ is, b.body id.index.toNat = some (is, none) → b'.body = b.body.set id.index.toNat (is, some u)

/-- Code goes on elsewhere. -/
structure Moved (id : Option BlockId) (b b' : Builder) : Prop where
  le : b.Le b'
  tabled : b.Tabled → b'.Tabled
  blocks : b'.blocks = b.blocks
  current : b'.current = id

/-- Instructions at the end of the current block. -/
structure Emitted (xs : List Instr) (b b' : Builder) : Prop where
  le : b.Le b'
  values : b'.values = b.values
  loops : b'.loops = b.loops
  current : b'.current = b.current
  size : b'.blocks.size = b.blocks.size
  body : ∀ is, b.body b.here = some (is, none) → b'.body = b.body.set b.here (is ++ xs, none)

/-- A new register. -/
structure Registered (ty : Ty) (b : Builder) (r : Reg) (b' : Builder) : Prop where
  tabled : ty.Formed → b.Tabled → b'.Tabled
  count : b.regTypes.size < b'.regTypes.size
  index : b'.Fits → r.index.toNat = b.regTypes.size
  reg : b'.Fits → ∀ sig ps, (b'.context sig ps).reg r = some ty

theorem here_congr (hc : b'.current = b.current) (hs : b'.blocks.size = b.blocks.size) : b'.here = b.here := by
  unfold Builder.here
  rw [hc, hs]

theorem here_eq {id : BlockId} (hc : b.current = some id) : b.here = id.index.toNat := by simp [Builder.here, hc]

theorem isSome_of_body (h : b.body b.here = some (is, t)) : b.current.isSome = true := by
  have hlt := Builder.lt_of_body h
  cases hc : b.current with
  | none => simp [Builder.here, hc] at hlt
  | some id => rfl

theorem Moved.body (h : Moved c b b') : b'.body = b.body := by
  unfold Builder.body
  rw [h.blocks]

theorem Moved.size (h : Moved c b b') : b'.blocks.size = b.blocks.size := by rw [h.blocks]

theorem Emitted.here (h : Emitted xs b b') : b'.here = b.here := here_congr h.current h.size

theorem Emitted.trans (h : Emitted xs b b') (h' : Emitted ys b' b'') : Emitted (xs ++ ys) b b'' where
  le := h.le.trans h'.le
  values := h'.values.trans h.values
  loops := h'.loops.trans h.loops
  current := h'.current.trans h.current
  size := h'.size.trans h.size
  body is hi := by
    have hbody := h.body is hi
    rw [h'.body (is ++ xs) (by rw [h.here, hbody, Body.set_self]), hbody, h.here, Body.set_set,
      List.append_assoc]

theorem set_eq_self {body : Body} (h : body i = some p) : body.set i p = body := by
  funext j
  unfold Body.set
  split
  · rename_i hj
    rw [hj, h]
  · rfl

theorem Emitted.nil (hle : b.Le b') (hv : b'.values = b.values) (hl : b'.loops = b.loops)
    (hc : b'.current = b.current) (hb : b'.blocks = b.blocks) : Emitted [] b b' where
  le := hle
  values := hv
  loops := hl
  current := hc
  size := by rw [hb]
  body is hi := by
    have hbody : b'.body = b.body := by
      unfold Builder.body
      rw [hb]
    rw [hbody, List.append_nil, set_eq_self hi]

theorem newBlock_opened (stem : String) (b : Builder) :
    ∃ id b', newBlock stem b = .ok (id, b') ∧ Opened stem b id b' := by
  refine ⟨_, _, rfl, ?_⟩
  constructor
  · refine ⟨⟨rfl, rfl, rfl⟩, Builder.le_of_tables rfl rfl rfl rfl rfl (by simp) fun i l hi => ?_, rfl⟩
    obtain ⟨o, ho, rfl⟩ := Option.map_eq_some_iff.1 hi
    exact Option.map_eq_some_iff.2 ⟨o, getElem?_push_of_some ho, rfl⟩
  · exact fun h => ⟨h.types, h.constants, h.regs, h.slots⟩
  · simp
  · intro hroom
    simp only [Array.size_push] at hroom
    rw [UInt32.toNat_ofNat', Nat.mod_eq_of_lt (by omega)]
  · exact Builder.body_push
  · intro hne
    simp [Builder.label, hne]

theorem terminate_ended (id : BlockId) (u : Terminator) (b : Builder) :
    ∃ b', terminate id u b = .ok ((), b') ∧ Ended id u b b' :=
  ⟨_, rfl, ⟨⟨⟨rfl, rfl, rfl⟩, Builder.le_modify (by simp) _, rfl⟩, fun h =>
  ⟨h.types, h.constants, h.regs, h.slots⟩,
    by simp, fun is hi => Builder.body_terminate hi u⟩⟩

theorem moveTo_moved (id : Option BlockId) (b : Builder) : ∃ b', moveTo id b = .ok ((), b') ∧
    Moved id b b' ∧ Kept b b' :=
  ⟨_, rfl, ⟨b.le_moveTo id, fun h => ⟨h.types, h.constants, h.regs, h.slots⟩, rfl, rfl⟩, rfl, rfl, rfl⟩

theorem emit_emitted (x : Instr) (hc : b.current = some c) :
    ∃ b', emit x b = .ok ((), b') ∧ Emitted [x] b b' ∧ b'.slots = b.slots ∧ (b.Tabled → b'.Tabled) := by
  have hrun : emit x b = .ok ((), { b with
      blocks := b.blocks.modify c.index.toNat fun o => { o with instrs := o.instrs.push x } }) :=
    bind_ok.2 ⟨c, b, current_ok.2 ⟨hc, rfl⟩, rfl⟩
  have hhere : b.here = c.index.toNat := by simp [Builder.here, hc]
  refine ⟨_, hrun, ⟨Builder.le_modify (by simp) _, rfl, rfl, rfl, by simp, fun is hi => ?_⟩, rfl,
    fun h => ⟨h.types, h.constants, h.regs, h.slots⟩⟩
  rw [hhere] at hi ⊢
  exact Builder.body_emit hi x

theorem knows_intern {t : TypeTable} {ids : Array TypeId} (h : ∀ id ∈ ids, t.Knows id) :
    ∀ id ∈ ids, (t.intern u).2.Knows id :=
  fun id hid => Nat.lt_of_lt_of_le (h id hid) (t.le_intern u).size

theorem knows_push {t : TypeTable} {ids : Array TypeId} (h : ∀ id ∈ ids, t.Knows id) :
    ∀ id ∈ ids.push (t.intern u).1, (t.intern u).2.Knows id := by
  intro id hid
  rcases Array.mem_push.1 hid with hid | rfl
  · exact knows_intern h id hid
  · exact t.intern_lt u

theorem formed_intern {t : TypeTable} {u : Ty} (h : ∀ v ∈ t.types, v.Formed) (hu : u.Formed) :
    ∀ v ∈ (t.intern u).2.types, v.Formed := by
  intro v hv
  rcases TypeTable.mem_of_mem_intern hv with hv | rfl
  · exact h v hv
  · exact hu

theorem newReg_registered (ty : Ty) (b : Builder) :
    ∃ r b', newReg ty b = .ok (r, b') ∧ Registered ty b r b' ∧ Emitted [] b b' ∧ b'.slots = b.slots ∧
    b'.blocks = b.blocks := by
  refine ⟨_, _, rfl, ⟨fun ht h => ?_, by simp, fun hf => ?_, fun hf sig ps => ?_⟩,
    .nil ⟨rfl, b.types.le_intern ty, .refl _, fun _ _ h => getElem?_push_of_some h, fun _ _ h => h, by simp,
      Nat.le_refl _, Nat.le_refl _, fun _ _ h => h⟩ rfl rfl rfl rfl, rfl, rfl⟩
  · exact ⟨formed_intern h.types ht, h.constants, knows_push h.regs, knows_intern h.slots⟩
  · have := hf.regs
    simp only [Array.size_push] at this
    rw [UInt32.toNat_ofNat', Nat.mod_eq_of_lt (by omega)]
  · have := hf.regs
    simp only [Array.size_push] at this
    refine Option.bind_eq_some_iff.2 ⟨(b.types.intern ty).1, ?_, TypeTable.get?_intern hf.types⟩
    rw [UInt32.toNat_ofNat', Nat.mod_eq_of_lt (by omega)]
    simp
    rfl

theorem newSlot_slotted (ty : Ty) (b : Builder) :
    ∃ s b', newSlot ty b = .ok (s, b') ∧ (b'.Fits → ∀ sig ps, (b'.context sig ps).slot s = some ty) ∧
    Steady b b' ∧
      b'.blocks = b.blocks ∧ (ty.Formed → b.Tabled → b'.Tabled) := by
  refine ⟨_, _, rfl, fun hf sig ps => ?_, ⟨⟨rfl, rfl, rfl⟩, ⟨rfl, b.types.le_intern ty, .refl _, fun _ _ h => h,
    fun _ _ h => getElem?_push_of_some h, Nat.le_refl _, by simp, Nat.le_refl _, fun _ _ h => h⟩, rfl⟩, rfl,
    fun ht h => ⟨formed_intern h.types ht, h.constants, knows_intern h.regs, knows_push h.slots⟩⟩
  have := hf.slots
  simp only [Array.size_push] at this
  refine Option.bind_eq_some_iff.2 ⟨(b.types.intern ty).1, ?_, TypeTable.get?_intern hf.types⟩
  rw [UInt32.toNat_ofNat', Nat.mod_eq_of_lt (by omega)]
  simp
  rfl

theorem define_emitted (ty : Ty) (rhs : Rhs) (hc : b.current = some c) :
    ∃ r b', define ty rhs b = .ok (r, b') ∧ Registered ty b r b' ∧ Emitted [.define r rhs] b b' ∧
      b'.slots = b.slots := by
  obtain ⟨r, b₁, hr, hreg, he₁, hs₁, -⟩ := newReg_registered ty b
  obtain ⟨b₂, hb₂, he₂, hs₂, ht₂⟩ := emit_emitted (.define r rhs) (he₁.current.trans hc)
  refine ⟨r, b₂, define_ok.2 ⟨b₁, hr, hb₂⟩, ⟨fun ht h => ht₂ (hreg.tabled ht h), ?_, ?_, ?_⟩, he₁.trans he₂,
    hs₂.trans hs₁⟩
  · exact Nat.lt_of_lt_of_le hreg.count he₂.le.regCount
  · exact fun hf => hreg.index (he₂.le.fits hf)
  · exact fun hf sig ps => (he₂.le.context sig ps).reg r ty (hreg.reg (he₂.le.fits hf) sig ps)

/-! ## What builders give -/

/-- A builder gives a result with the property `Q` if it gives one, and it does if `T` holds. -/
def Gives (T : Prop) (x : Build α) (b : Builder) (Q : α → Builder → Prop) : Prop :=
  match x b with
  | .ok (a, b') => Q a b'
  | .error _ => ¬T

namespace Gives

variable {T : Prop} {x : Build α} {f : α → Build β} {b b' : Builder} {Q R : α → Builder → Prop}
  {S : β → Builder → Prop}

theorem of_ok (h : x b = .ok (a, b')) (hq : Q a b') : x.Gives T b Q := by
  unfold Gives
  rw [h]
  exact hq

theorem result (h : x.Gives T b Q) (hx : x b = .ok (a, b')) : Q a b' := by
  unfold Gives at h
  rwa [hx] at h

theorem exists_ok (h : x.Gives T b Q) (hT : T) : ∃ a b', x b = .ok (a, b') ∧ Q a b' := by
  unfold Gives at h
  split at h
  · exact ⟨_, _, ‹_›, h⟩
  · exact absurd hT h

theorem mono (h : x.Gives T b Q) (hq : ∀ a b', Q a b' → R a b') : x.Gives T b R := by
  unfold Gives at h ⊢
  split at h
  · exact hq _ _ h
  · exact h

theorem imp (h : x.Gives T b Q) (hT : T' → T) : x.Gives T' b Q := by
  unfold Gives at h ⊢
  split at h
  · exact h
  · exact fun hT' => h (hT hT')

theorem pure (h : Q a b) : (pure a : Build α).Gives T b Q := h

theorem bind (h : x.Gives T b Q) (hf : ∀ a b', Q a b' → (f a).Gives T b' S) : (x >>= f).Gives T b S := by
  unfold Gives at h
  split at h
  · rename_i a b' hx
    have hrun : (x >>= f) b = f a b' := by
      show (x b >>= fun p => f p.1 p.2) = _
      rw [hx]
      rfl
    have hf := hf a b' h
    unfold Gives at hf ⊢
    rwa [hrun]
  · rename_i e hx
    have hrun : (x >>= f) b = .error e := by
      show (x b >>= fun p => f p.1 p.2) = _
      rw [hx]
      rfl
    unfold Gives
    rw [hrun]
    exact h

theorem run (hx : x b = .ok (a, b')) (h : (f a).Gives T b' S) : (x >>= f).Gives T b S := by
  refine bind (Q := fun c d => c = a ∧ d = b') (of_ok hx ⟨rfl, rfl⟩) ?_
  rintro _ _ ⟨rfl, rfl⟩
  exact h

theorem refuse (h : ¬T) : (refuse fault : Build α).Gives T b Q := h

theorem refuseAt (h : ¬T) : (refuseAt fault span : Build α).Gives T b Q := h

theorem get {f : Builder → Build β} (h : (f b).Gives T b S) : (get >>= f).Gives T b S := h

/-- A builder that only looks at the state. -/
theorem reads {g : Builder → α} (h : (f (g b)).Gives T b S) :
    ((do return g (← MonadState.get)) >>= f).Gives T b S := h

theorem current {f : BlockId → Build β} (hT : T → b.current.isSome)
    (h : ∀ id, b.current = some id → (f id).Gives T b S) : (current >>= f).Gives T b S := by
  have hcurrent : (Build.current).Gives T b fun id b' => b.current = some id ∧ b' = b := by
    unfold Gives
    cases hrun : Build.current b with
    | error =>
      intro ht
      obtain ⟨id, hid⟩ := Option.isSome_iff_exists.1 (hT ht)
      cases hrun.symm.trans (current_ok.2 ⟨hid, rfl⟩)
    | ok p =>
      obtain ⟨hid, hb⟩ := current_ok.1 hrun
      exact ⟨hid, hb.symm⟩
  refine hcurrent.bind ?_
  rintro id _ ⟨hid, rfl⟩
  exact h id hid

end Gives

end Build

end Lowering

end NumericEngine

