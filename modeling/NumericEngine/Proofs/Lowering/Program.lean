import NumericEngine.Proofs.Ir.Verified
import NumericEngine.Proofs.Lowering.Function

/-!
# Code of programs

A well-typed program has code unless a function of it lacks a return
(`programFrom_total`), and the code is well formed as long as its tables have ids
for their entries (`program_wellFormed`). The tables hold what they should
(`program_tabled`). An edge to a block that is no later leads to the header of a
loop, which dominates where it comes from, or to a block that was made early.
-/

namespace NumericEngine

/-- All tables of a module have ids for their entries. -/
structure Ir.Module.Sized (m : Ir.Module) : Prop where
  types : m.types.size ≤ 2 ^ 32
  constants : m.constants.size ≤ 2 ^ 32
  functions : m.functions.length ≤ 2 ^ 32
  fields : ∀ id decl, m.types.get? id = some (.struct decl) → decl.length ≤ 2 ^ 32
  regs : ∀ f ∈ m.functions, f.regTypes.size ≤ 2 ^ 32
  slots : ∀ f ∈ m.functions, f.slotTypes.size ≤ 2 ^ 32
  blocks : ∀ f ∈ m.functions, f.blocks.length ≤ 2 ^ 32

/-- Whether they have. -/
def Ir.Module.isSized (m : Ir.Module) : Bool :=
  m.types.size ≤ 2 ^ 32 && m.constants.size ≤ 2 ^ 32 && m.functions.length ≤ 2 ^ 32 &&
    (m.types.types.all fun | .struct decl => decl.length ≤ 2 ^ 32 | _ => true) &&
    m.functions.all fun f => f.regTypes.size ≤ 2 ^ 32 && f.slotTypes.size ≤ 2 ^ 32 && f.blocks.length ≤ 2 ^ 32

theorem Ir.Module.sized_of_isSized {m : Ir.Module} (h : m.isSized = true) : m.Sized := by
  simp only [isSized, Bool.and_eq_true, decide_eq_true_eq, List.all_eq_true] at h
  obtain ⟨⟨⟨⟨htypes, hconstants⟩, hfunctions⟩, hfields⟩, htables⟩ := h
  refine ⟨htypes, hconstants, hfunctions, fun id decl hid => ?_, fun f hf => (htables f hf).1.1,
    fun f hf => (htables f hf).1.2, fun f hf => (htables f hf).2⟩
  exact of_decide_eq_true (Array.all_eq_true_iff_forall_mem.1 hfields _ (Array.mem_of_getElem? hid))

/-- The types of a function's registers, slots and result are in a table. -/
structure Ir.Function.Tabled (f : Ir.Function) (t : TypeTable) : Prop where
  ret : t.Knows f.retType
  regs : ∀ id ∈ f.regTypes, t.Knows id
  slots : ∀ id ∈ f.slotTypes, t.Knows id

theorem Ir.Function.Tabled.mono {f : Ir.Function} (h : f.Tabled t) (hle : t.Le u) : f.Tabled u :=
  ⟨Nat.lt_of_lt_of_le h.ret hle.size, fun id hid => Nat.lt_of_lt_of_le (h.regs id hid) hle.size,
    fun id hid => Nat.lt_of_lt_of_le (h.slots id hid) hle.size⟩

/-- The tables of a module hold what they should, and the types that its functions mention. -/
structure Ir.Module.Tabled (m : Ir.Module) : Prop where
  types : ∀ t ∈ m.types.types, t.Formed
  constants : ∀ v ∈ m.constants.values, v.IsConstant
  functions : ∀ f ∈ m.functions, f.Tabled m.types

/-- The join of a short-circuit operator or the exit of a loop, by its label. -/
def Ir.Function.MadeEarly (g : Ir.Function) (j : Nat) : Prop :=
  ∃ b, g.blocks[j]? = some b ∧ (b.label = "sc" ++ toString j ∨ b.label = "endloop" ++ toString j)

/-- An edge to a block that is no later leads to a block that was made early, or to one that dominates
where it comes from. There are such edges only when `K` holds. -/
def Ir.Function.Ordered (K : Prop) (g : Ir.Function) : Prop :=
  ∀ (i : Nat) b, g.blocks[i]? = some b → ∀ t ∈ b.terminator.successors, t.index.toNat ≤ i →
    K ∧ (g.MadeEarly t.index.toNat ∨ ∀ l, g.Way i l → t.index.toNat ∈ l)

namespace Lowering

open Build List

variable {fs : List TFunction} {m : Ir.Module} {f : TFunction} {g : Ir.Function} {b b' : Builder} {J : Job}
  {types : TypeTable} {constants : ConstantPool} {sig : FuncId → Option Ty}

/-! ## Functions -/

theorem function_built (ht : f.Typed sig) (hK : K ∨ TStmt.ForwardAll f.body)
    (h : function f { locals := f.locals, types, constants } = .ok (g, b')) :
    ∃ rs b₂ b blocks, Built (job K sig f rs b₂) f types constants b ∧ closeBlocks 0 b.blocks.toList = .ok blocks ∧
      (g, b') = b.close f rs blocks := by
  rcases function_cases types constants ht hK with ⟨-, herror⟩ | ⟨rs, b₂, b, -, hbuilt, hrun⟩
  · cases h.symm.trans herror
  · rw [h] at hrun
    cases hclose : closeBlocks 0 b.blocks.toList with
    | error e =>
      rw [hclose] at hrun
      cases hrun
    | ok blocks =>
      rw [hclose] at hrun
      exact ⟨rs, b₂, b, blocks, hbuilt, hclose, Except.ok.inj hrun⟩

theorem length_closeBlocks (h : closeBlocks 0 b.blocks.toList = .ok g.blocks) :
    g.blocks.length = b.blocks.size := by
  simpa using congrArg length (closeBlocks_ok h).1

theorem getElem?_closeBlocks (h : closeBlocks 0 b.blocks.toList = .ok g.blocks) (i : Nat) :
    g.blocks[i]?.map (fun x => (x.label, x.instrs, some x.terminator)) =
      b.blocks[i]?.map fun o => (o.label, o.instrs.toList, o.terminator) := by
  simpa using congrArg (·[i]?) (closeBlocks_ok h).1

theorem body_closeBlocks (h : closeBlocks 0 b.blocks.toList = .ok g.blocks) : g.body = b.body := by
  funext i
  simpa [Ir.Function.body, Builder.body, Function.comp_def] using congrArg (Option.map Prod.snd)
    (getElem?_closeBlocks h i)

theorem label_closeBlocks (h : closeBlocks 0 b.blocks.toList = .ok g.blocks) (i : Nat) :
    g.blocks[i]?.map (·.label) = b.label i := by
  simpa [Builder.label, Function.comp_def] using congrArg (Option.map Prod.fst) (getElem?_closeBlocks h i)

/-- The blocks that a way passes are those known to be passed where it leads. -/
theorem mem_way (hway : g.Way i l) (hn : l.length ≤ n) (h : g.body.Known ps n i k (.block j)) : j ∈ l := by
  induction hway generalizing n k with
  | start =>
    rcases h with h | h
    · obtain ⟨n, rfl⟩ : ∃ n', n = n' + 1 := ⟨n - 1, by simp at hn; omega⟩
      obtain ⟨r, -, hr⟩ := h.1 rfl
      cases hr
    · exact mem_singleton.2 h
  | @step p l block t hway hblock ht ih =>
    rcases h with h | h
    · obtain ⟨n, rfl⟩ : ∃ n', n = n' + 1 := ⟨n - 1, by simp at hn; omega⟩
      obtain ⟨k, h⟩ := h.2 p ⟨block.instrs, block.terminator, by simp [Ir.Function.body, hblock], t, ht, rfl⟩
      exact mem_cons_of_mem _ (ih (by simpa using hn) h)
    · cases h
      exact mem_cons_self

theorem Finished.ordered (h : Finished J b) (hblocks : closeBlocks 0 b.blocks.toList = .ok g.blocks) :
    g.Ordered J.back := by
  intro i block hblock t ht hle
  have hi : b.body i = some (block.instrs, some block.terminator) := by
    rw [← body_closeBlocks hblocks, Ir.Function.body, hblock]
    rfl
  have hend (n : Nat) : J.back ∧ (b.Early t.index.toNat ∨
    b.body.Known J.params n i block.instrs.length (.block t.index.toNat)) := by
    obtain ⟨S, hS⟩ := h.states n
    exact (hS.ends i _ _ hi).order t ht hle
  refine ⟨(hend 0).1, Classical.or_iff_not_imp_left.2 fun hearly l hway => ?_⟩
  refine mem_way hway (Nat.le_refl _) (body_closeBlocks hblocks ▸ (hend l.length).2.resolve_left ?_)
  rintro ⟨label, hlabel, h⟩
  refine hearly ?_
  rw [← label_closeBlocks hblocks] at hlabel
  obtain ⟨x, hx, rfl⟩ := Option.map_eq_some_iff.1 hlabel
  exact ⟨x, hx, h⟩

/-- No tensor of a function is made of more elements than can be counted. -/
def Counted (g : Ir.Function) : Prop :=
  ∀ block ∈ g.blocks, ∀ dst es, .define dst (.makeTensor es) ∈ block.instrs → es.length < UInt64.size

theorem Finished.counted (h : Finished J b) (hblocks : closeBlocks 0 b.blocks.toList = .ok g.blocks)
    (hJ : J.limit < UInt64.size) : Counted g := by
  intro block hblock dst es hmem
  obtain ⟨i, hi⟩ := getElem?_of_mem hblock
  obtain ⟨k, hk⟩ := getElem?_of_mem hmem
  have hat : b.body.At i k (.define dst (.makeTensor es)) := by
    refine ⟨block.instrs, block.terminator, ?_, hk⟩
    rw [← body_closeBlocks hblocks, Ir.Function.body, hi]
    rfl
  obtain ⟨S, hS⟩ := h.states 0
  exact Nat.lt_of_le_of_lt (hS.literals i k dst es (covers_of_at hat) hat) hJ

/-- A well-typed function has code unless it lacks a return, and is refused for that if it does. -/
theorem function_total (types : TypeTable) (constants : ConstantPool) (ht : f.Typed sig)
    (hn : TStmt.nodesAll f.body ≤ 2 ^ 30) (hK : K ∨ TStmt.ForwardAll f.body) :
    (f.lacksReturn = true ∧ function f { locals := f.locals, types, constants } =
      .error { fault := .missingReturn f.ret, span := some f.span }) ∨
    (f.lacksReturn = false ∧
      ∃ g b, function f { locals := f.locals, types, constants } = .ok (g, b) ∧ Counted g ∧ g.Ordered K) := by
  refine (function_cases types constants ht hK).imp_right ?_
  rintro ⟨rs, b₂, b, hlacks, hbuilt, hrun⟩
  have hfinished := hbuilt.finished (by have := hbuilt.count; omega)
  have hended : ∀ o ∈ b.blocks.toList, o.terminator ≠ none := by
    intro o ho hnone
    obtain ⟨i, hi⟩ := Array.getElem?_of_mem (Array.mem_toList_iff.1 ho)
    exact hfinished.ended i o.instrs.toList (by simp [Builder.body, hi, hnone])
  obtain ⟨blocks, hblocks⟩ := closeBlocks_total 0 hended
  rw [hblocks] at hrun
  exact ⟨hlacks, _, _, hrun, hfinished.counted hblocks (Nat.lt_of_le_of_lt hn (by decide)),
    hfinished.ordered hblocks⟩

/-- What the instructions of a function can name, for tables of types and of constants. -/
def contextIn (sig : FuncId → Option Ty) (types : TypeTable) (constants : ConstantPool)
    (g : Ir.Function) : Ir.Context where
  reg r := (g.regType? r).bind types.get?
  slot s := g.slotTypes[s.toNat]?.bind types.get?
  const := constants.get?
  sig := sig
  rank := Ir.rank g.params

/-- The code of a function, as lowering makes it. -/
structure Lowers (sig : FuncId → Option Ty) (types : TypeTable) (constants : ConstantPool)
    (f : TFunction) (g : Ir.Function) : Prop where
  id : g.id = f.id
  code : ∃ entry, g.body.Partial (contextIn sig types constants g) f.ret g.params g.regTypes.size
    (fun _ _ => False) entry
  params : List.Forall₂ (fun x r => ∃ t, f.bindingTy? x = some t ∧
    (contextIn sig types constants g).reg r = some t) f.params g.params
  nodup : g.params.Nodup
  ret : types.get? g.retType = some f.ret
  blockIds : ∀ (i : Nat) (b : Ir.Block), g.blocks[i]? = some b → b.id.index.toNat = i
  nonempty : g.blocks ≠ []

theorem contextIn_mono (ht : types.Le types') (hc : constants.Le constants') :
    (contextIn sig types constants g).Le (contextIn sig types' constants' g) where
  reg r t hr := by
    obtain ⟨id, hid, hty⟩ := Option.bind_eq_some_iff.1 hr
    exact Option.bind_eq_some_iff.2 ⟨id, hid, ht.get? _ _ hty⟩
  slot s t hs := by
    obtain ⟨id, hid, hty⟩ := Option.bind_eq_some_iff.1 hs
    exact Option.bind_eq_some_iff.2 ⟨id, hid, ht.get? _ _ hty⟩
  const c v hv := hc.get? c v hv
  sig _ _ hf := hf
  rank := rfl

theorem function_le (ht : f.Typed sig) (h : function f { locals := f.locals, types, constants } = .ok (g, b')) :
    types.Le b'.types ∧ constants.Le b'.constants := by
  obtain ⟨rs, b₂, b, blocks, hbuilt, -, heq⟩ := function_built ht (.inl trivial) h
  cases heq
  exact ⟨hbuilt.le.types.trans (TypeTable.le_intern _ _), hbuilt.le.constants⟩

theorem function_tabled (ht : f.Typed sig)
    (h : function f { locals := f.locals, types := m.types, constants := m.constants } = .ok (g, b'))
    (hm : m.Tabled) : Ir.Module.Tabled
    { types := b'.types, constants := b'.constants, functions := m.functions ++ [g] } := by
  have hle := (function_le ht h).1
  obtain ⟨rs, b₂, b, blocks, hbuilt, hblocks, heq⟩ := function_built ht (.inl trivial) h
  cases heq
  have hb := hbuilt.tabled ht.formed ⟨hm.types, hm.constants, by simp [Builder.start], by simp [Builder.start]⟩
  refine ⟨formed_intern hb.types ht.formedRet, hb.constants, fun f' hf' => ?_⟩
  rcases mem_append.1 hf' with hf' | hf'
  · exact (hm.functions f' hf').mono hle
  · cases mem_singleton.1 hf'
    exact ⟨b.types.intern_lt f.ret, knows_intern hb.regs, knows_intern hb.slots⟩

/-! ## Programs -/

theorem programFrom_cons_ok (h : programFrom m (f :: fs) = .ok m') :
    ∃ g b, function f { locals := f.locals, types := m.types, constants := m.constants } = .ok (g, b) ∧
      programFrom { types := b.types, constants := b.constants, functions := m.functions ++ [g] } fs =
        .ok m' := by
  rw [programFrom] at h
  split at h
  · cases h
  · rename_i g b hrun
    exact ⟨g, b, hrun, h⟩

theorem length_programFrom (h : programFrom m fs = .ok m') :
    m'.functions.length = m.functions.length + fs.length := by
  induction fs generalizing m with
  | nil =>
    cases h
    rfl
  | cons f fs ih =>
    obtain ⟨g, b, -, hrest⟩ := programFrom_cons_ok h
    simp only [ih hrest, List.length_append, List.length_cons, List.length_nil]
    omega

/-- What lowering one function gives, once a whole program has been lowered. -/
def Lowered (m : Ir.Module) (f : TFunction) (g : Ir.Function) : Prop :=
  ∃ types constants b, function f { locals := f.locals, types, constants } = .ok (g, b) ∧
    b.types.Le m.types ∧ b.constants.Le m.constants

theorem programFrom_lowered (h : programFrom m fs = .ok m') (ht : ∀ f ∈ fs, f.Typed sig) :
    m.types.Le m'.types ∧ m.constants.Le m'.constants ∧
      ∃ gs, m'.functions = m.functions ++ gs ∧ Forall₂ (Lowered m') fs gs := by
  induction fs generalizing m with
  | nil =>
    cases h
    exact ⟨.refl _, .refl _, [], (append_nil _).symm, .nil⟩
  | cons f fs ih =>
    rw [forall_mem_cons] at ht
    obtain ⟨g, b, hg, hrest⟩ := programFrom_cons_ok h
    obtain ⟨htypes, hconstants, gs, hgs, hlowered⟩ := ih hrest ht.2
    have hle := function_le ht.1 hg
    refine ⟨hle.1.trans htypes, hle.2.trans hconstants, g :: gs, ?_,
      .cons ⟨_, _, b, hg, htypes, hconstants⟩ hlowered⟩
    rw [hgs, append_assoc]
    rfl

theorem program_lowered (h : program fs = .ok m) (ht : ∀ f ∈ fs, f.Typed sig) :
    Forall₂ (Lowered m) fs m.functions := by
  obtain ⟨-, -, gs, hgs, hlowered⟩ := programFrom_lowered h ht
  rw [hgs]
  exact hlowered

/-- The code of a well-typed function is well scoped. -/
theorem Lowered.lowers (h : Lowered m f g) (ht : f.Typed sig) (hm : m.Sized) (hg : g ∈ m.functions) :
    Lowers sig m.types m.constants f g := by
  obtain ⟨types, constants, b', hrun, htypes, hconstants⟩ := h
  obtain ⟨rs, b₂, b, blocks, hbuilt, hblocks, heq⟩ := function_built ht (.inl trivial) hrun
  cases heq
  have hblocks : closeBlocks 0 b.blocks.toList = .ok (b.close f rs blocks).1.blocks := hblocks
  have hlen := length_closeBlocks hblocks
  have hle := (TypeTable.le_intern b.types f.ret).trans htypes
  have hf : b.Fits :=
    { types := Nat.le_trans hle.size hm.types
      constants := Nat.le_trans hconstants.size hm.constants
      regs := hm.regs _ hg
      slots := hm.slots _ hg
      blocks := hlen ▸ hm.blocks _ hg
      fields := fun id decl hid => hm.fields id decl (hle.get? id _ hid) }
  have hfinished := hbuilt.finished hf.blocks
  have hnames : ((job True sig f rs b₂).names b).Le (contextIn sig m.types m.constants (b.close f rs blocks).1) :=
    contextIn_mono (g := (b.close f rs blocks).1) hle hconstants
  refine
  { id := rfl
    code := ⟨b.body.entry rs, ?_⟩
    params := hbuilt.params.imp fun x r ⟨t, hx, hr⟩ => ⟨t, hx, hnames.reg r t (hr hf)⟩
    nodup := hbuilt.nodup hf
    ret := htypes.get? _ _ (TypeTable.get?_intern (Nat.le_trans htypes.size hm.types))
    blockIds := fun i x hx => ?_
    nonempty := fun hnil => ?_ }
  · show Ir.Body.Partial _ _ _ _ _ _ (b.close f rs blocks).1.body
    rw [body_closeBlocks hblocks]
    exact (hfinished.scoped hf).mono hnames (Nat.le_refl _)
  · rw [(closeBlocks_ok hblocks).2 i x hx, Nat.zero_add]
    exact Nat.mod_eq_of_lt (Nat.lt_of_lt_of_le (List.getElem?_eq_some_iff.1 hx).1 (hm.blocks _ hg))
  · have hzero : 0 = b.blocks.size := by rwa [show (b.close f rs blocks).1.blocks = [] from hnil] at hlen
    exact absurd hfinished.nonempty (by omega)

theorem Lowers.paramTys? (h : Lowers sig m.types m.constants f g) :
    m.paramTys? g = some (f.params.filterMap f.bindingTy?) := by
  have hparams := h.params
  unfold Ir.Module.paramTys? Ir.Function.paramTypes
  generalize g.params = rs at hparams
  generalize f.params = xs at hparams
  induction hparams with
  | nil => rfl
  | @cons x r xs rs hr _ ih =>
    obtain ⟨t, hx, hreg⟩ := hr
    obtain ⟨id, hid, hty⟩ := Option.bind_eq_some_iff.1 hreg
    have hty : m.ty? id = some t := hty
    simp [hid, hty, hx, ih]

theorem signature?_of_lowers (h : List.Forall₂ (Lowers sig m.types m.constants) fs m.functions)
    {id : FuncId} (ht : Typing.signature? fs id = some t) : m.signature? id = some t := by
  obtain ⟨f, hf, rfl⟩ := Option.map_eq_some_iff.1 ht
  obtain ⟨g, hg, hlowers⟩ := forall₂_getElem?_left h hf
  have hret : m.ty? g.retType = some f.ret := hlowers.ret
  have hfun : m.function? id = some g := hg
  simp [Ir.Module.signature?, hfun, hlowers.paramTys?, hret, TFunction.ty]

theorem contextIn_le (h : List.Forall₂ (Lowers (Typing.signature? fs) m.types m.constants) fs m.functions)
    (g : Ir.Function) : (contextIn (Typing.signature? fs) m.types m.constants g).Le (m.context g) where
  reg _ _ hr := hr
  slot _ _ hs := hs
  const _ _ hc := hc
  sig _ _ hs := signature?_of_lowers h hs
  rank := rfl

theorem Lowers.wellFormed
    (h : Lowers (Typing.signature? fs) m.types m.constants f g) (ht : f.Typed (Typing.signature? fs))
    (hm : List.Forall₂ (Lowers (Typing.signature? fs) m.types m.constants) fs m.functions) :
    g.WellFormed m := by
  have hle := contextIn_le hm g
  obtain ⟨entry, hcode⟩ := h.code
  refine ⟨⟨entry, f.ret, h.ret, ht.ret, (hcode.mono hle (Nat.le_refl _)).body_scoped⟩, ?_, h.nodup,
    h.nonempty⟩
  have hparams : List.Forall₂ (fun x r => ∃ t, f.bindingTy? x = some t ∧ (m.context g).At r t ∧
      t.holdsReference = false) f.params g.params := by
    refine forall₂_imp_mem h.params fun x hx r _ ⟨t, hxt, hr⟩ => ?_
    obtain ⟨u, hu, hplain⟩ := ht.params x hx
    cases hxt.symm.trans hu
    exact ⟨t, hxt, .of_reg (hle.reg r t hr), hplain⟩
  clear h
  generalize g.params = rs at hparams
  generalize f.params = xs at hparams
  induction hparams with
  | nil => exact ⟨[], .nil, nofun⟩
  | cons hr _ ih =>
    obtain ⟨ts, hts, hplain⟩ := ih
    obtain ⟨t, -, hat, ht⟩ := hr
    exact ⟨t :: ts, .cons hat hts, List.forall_mem_cons.2 ⟨ht, hplain⟩⟩

theorem program_lowers (h : program fs = .ok m) (ht : ∀ f ∈ fs, f.Typed sig) (hm : m.Sized) :
    Forall₂ (Lowers sig m.types m.constants) fs m.functions :=
  forall₂_imp_mem (program_lowered h ht) fun f hf _ hg hfg => hfg.lowers (ht f hf) hm hg

theorem program_wellFormed (h : program fs = .ok m) (ht : ∀ f ∈ fs, f.Typed (Typing.signature? fs))
    (hm : m.Sized) : m.WellFormed := by
  have hlowers := program_lowers h ht hm
  intro g hg
  obtain ⟨i, hi⟩ := List.getElem?_of_mem hg
  obtain ⟨f, hf, hfg⟩ := forall₂_getElem?_right hlowers hi
  exact hfg.wellFormed (ht f (List.mem_of_getElem? hf)) hlowers

theorem programFrom_tabled (h : programFrom m fs = .ok m') (ht : ∀ f ∈ fs, f.Typed sig)
    (hm : m.Tabled) : m'.Tabled := by
  induction fs generalizing m with
  | nil =>
    cases h
    exact hm
  | cons f fs ih =>
    obtain ⟨g, b, hg, hrest⟩ := programFrom_cons_ok h
    rw [List.forall_mem_cons] at ht
    exact ih hrest ht.2 (function_tabled ht.1 hg hm)

theorem program_tabled (h : program fs = .ok m) (ht : ∀ f ∈ fs, f.Typed sig) : m.Tabled :=
  programFrom_tabled h ht ⟨by simp, by simp, by simp⟩

theorem programFrom_total {m : Ir.Module} (ht : ∀ f ∈ fs, f.Typed sig)
    (hn : ∀ f ∈ fs, TStmt.nodesAll f.body ≤ 2 ^ 30) (hm : ∀ g ∈ m.functions, Counted g) :
    (∃ f, fs.find? TFunction.lacksReturn = some f ∧
      programFrom m fs = .error (f.name, { fault := .missingReturn f.ret, span := some f.span })) ∨
    (fs.find? TFunction.lacksReturn = none ∧
      ∃ m', programFrom m fs = .ok m' ∧ ∀ g ∈ m'.functions, Counted g) := by
  induction fs generalizing m with
  | nil => exact .inr ⟨rfl, m, rfl, hm⟩
  | cons f fs ih =>
    rw [forall_mem_cons] at ht hn
    rcases function_total m.types m.constants ht.1 hn.1 (.inl trivial) with
      ⟨hlacks, herror⟩ | ⟨hlacks, g, b, hok, hg, -⟩
    · refine .inl ⟨f, find?_cons_of_pos hlacks, ?_⟩
      rw [programFrom, StateT.run, herror]
    · rw [find?_cons_of_neg (by simp [hlacks]), programFrom, StateT.run, hok]
      refine ih ht.2 hn.2 fun g' hg' => ?_
      rcases mem_append.1 hg' with hg' | hg'
      · exact hm g' hg'
      · cases mem_singleton.1 hg'
        exact hg

end Lowering

end NumericEngine
