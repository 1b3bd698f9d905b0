import NumericEngine.Engine.Invoke
import NumericEngine.Proofs.Compile.TypeClosure
import NumericEngine.Proofs.Exec.Optimize
import NumericEngine.Proofs.Ir.Shape
import NumericEngine.Proofs.Lowering.Program

/-!
# Compiled units are well formed

Lowering makes a well-formed module of a checked program. Optimisation and the
closing of the type table keep it so. The tables of the unit are the largest on
the way, so it is enough that they have ids for their entries.
-/

namespace NumericEngine

/-! ## Closing the table of types -/

namespace Ir.Module

variable {m : Module} {level : Nat}

theorem signature?_closeTypes (hm : m.WellFormed) : m.closeTypes.signature? = m.signature? := by
  funext id
  unfold signature?
  have hfun : m.closeTypes.function? id = m.function? id := rfl
  rw [hfun]
  cases hf : m.function? id with
  | none => rfl
  | some f =>
    have hwf := hm f (List.mem_of_getElem? hf)
    obtain ⟨entry, ret, hret, -⟩ := hwf.code
    obtain ⟨ps, hps, hplain⟩ := hwf.params
    have hps' : (m.closeTypes.context f).Regs f.params ps := by
      refine hps.imp fun r t ⟨u, hu, hsame⟩ => ⟨u, ?_, hsame⟩
      obtain ⟨i, hi, ht⟩ := Option.bind_eq_some_iff.1 hu
      exact Option.bind_eq_some_iff.2 ⟨i, hi, m.le_closeTypes.get? _ _ ht⟩
    have hret' : m.closeTypes.ty? f.retType = some ret := m.le_closeTypes.get? _ _ hret
    simp [paramTys?_of_regs hps hplain, paramTys?_of_regs hps' hplain, hret, hret']

theorem context_closeTypes (hm : m.WellFormed) (f : Function) :
    (m.context f).Le (m.closeTypes.context f) where
  reg r t hr := by
    obtain ⟨i, hi, ht⟩ := Option.bind_eq_some_iff.1 hr
    exact Option.bind_eq_some_iff.2 ⟨i, hi, m.le_closeTypes.get? _ _ ht⟩
  slot s t hs := by
    obtain ⟨i, hi, ht⟩ := Option.bind_eq_some_iff.1 hs
    exact Option.bind_eq_some_iff.2 ⟨i, hi, m.le_closeTypes.get? _ _ ht⟩
  const _ _ hc := hc
  sig f t hf := by
    show m.closeTypes.signature? f = some t
    rw [signature?_closeTypes hm]
    exact hf
  rank := rfl

theorem wellFormed_closeTypes (hm : m.WellFormed) : m.closeTypes.WellFormed := by
  intro f hf
  have hwf := hm f hf
  have hle := context_closeTypes hm f
  obtain ⟨entry, ret, hret, hplain, hbody⟩ := hwf.code
  obtain ⟨ps, hps, hpsPlain⟩ := hwf.params
  exact ⟨⟨entry, ret, m.le_closeTypes.get? _ _ hret, hplain, hbody.inContext hle⟩, ⟨ps, hps.mono hle, hpsPlain⟩,
    hwf.nodup, hwf.nonempty⟩

/-! ## Room for ids -/

theorem Sized.of_closeTypes (h : m.closeTypes.Sized) : m.Sized where
  types := Nat.le_trans m.le_closeTypes.size h.types
  constants := h.constants
  functions := h.functions
  fields id decl hid := h.fields id decl (m.le_closeTypes.get? _ _ hid)
  regs := h.regs
  slots := h.slots
  blocks := h.blocks

theorem gains_optimize (m : Module) (level : Nat) : Gains m.constants (m.optimize level).1.constants := by
  unfold optimize
  split
  · exact .refl _
  · exact gains_optimizeAll _ _ _ _

theorem Sized.of_optimize (h : (m.optimize level).1.Sized) : m.Sized := by
  have hshape := m.shaped_optimize level
  have hmem : ∀ f ∈ m.functions, ∃ f' ∈ (m.optimize level).1.functions, f.Shaped f' := fun f hf =>
    forall₂_exists_right hshape hf
  have htypes := m.types_optimize level
  refine ⟨htypes ▸ h.types, Nat.le_trans (m.gains_optimize level).size h.constants,
    hshape.length_eq ▸ h.functions, fun id decl hid => h.fields id decl (htypes.symm ▸ hid), ?_, ?_, ?_⟩
  · intro f hf
    obtain ⟨f', hf', hs⟩ := hmem f hf
    have := h.regs f' hf'
    rwa [hs.header] at this
  · intro f hf
    obtain ⟨f', hf', hs⟩ := hmem f hf
    have := h.slots f' hf'
    rwa [hs.header] at this
  · intro f hf
    obtain ⟨f', hf', hs⟩ := hmem f hf
    exact hs.blocks.length_eq ▸ h.blocks f' hf'

end Ir.Module

/-! ## Units -/

/-- No function of the checked program has more bindings than there are ids for them. -/
def Source.Program.BindingsFit (p : Source.Program) : Prop :=
  ∀ fs, Typing.checkProgram p = .ok fs → ∀ f ∈ fs, f.locals.size ≤ 2 ^ 32

instance (p : Source.Program) : Decidable p.BindingsFit :=
  decidable_of_iff ((Typing.checkProgram p).toOption.all fun fs => fs.all fun f => f.locals.size ≤ 2 ^ 32) <| by
    unfold Source.Program.BindingsFit
    cases Typing.checkProgram p <;> simp [Except.toOption]

namespace CompileOptions

variable {o : CompileOptions} {p : Source.Program} {m : Ir.Module} {u : CompiledUnit}

theorem lower_ok (h : lower p = .ok m) :
    ∃ fs, Typing.checkProgram p = .ok fs ∧ Lowering.program fs = .ok m := by
  unfold lower at h
  split at h
  · cases h
  · rename_i fs hfs
    split at h
    · cases h
    · rename_i m' hm
      cases h
      exact ⟨fs, hfs, hm⟩

theorem lower_wellFormed (h : lower p = .ok m) (hp : p.BindingsFit) (hm : m.Sized) : m.WellFormed := by
  obtain ⟨fs, hfs, hlower⟩ := lower_ok h
  have hlen : fs.length ≤ 2 ^ 32 := by
    have := Lowering.length_programFrom hlower
    simp only [List.length_nil, Nat.zero_add] at this
    exact this ▸ hm.functions
  obtain ⟨htyped, -⟩ := Typing.checkProgram_ok hfs hlen (hp fs hfs)
  exact Lowering.program_wellFormed hlower htyped hm

theorem compile_checked (h : o.compile p = .ok u) :
    ∃ m, lower p = .ok m ∧ o.check .lowering m = .ok () ∧ u.module = (m.optimize o.level).1.closeTypes := by
  obtain ⟨m, hm, h⟩ := Except.bind_eq_ok.1 h
  obtain ⟨⟨⟩, hcheck, h⟩ := Except.bind_eq_ok.1 h
  refine ⟨m, hm, hcheck, ?_⟩
  generalize m.optimize o.level = r at h
  obtain ⟨optimized, savings⟩ := r
  dsimp only at h
  split at h
  · obtain ⟨⟨⟩, -, h⟩ := Except.bind_eq_ok.1 h
    cases h
    rfl
  · cases h
    rfl

theorem compile_ok (h : o.compile p = .ok u) :
    ∃ m, lower p = .ok m ∧ u.module = (m.optimize o.level).1.closeTypes := by
  obtain ⟨m, hm, -, hu⟩ := compile_checked h
  exact ⟨m, hm, hu⟩

theorem compile_wellFormed (h : o.compile p = .ok u) (hp : p.BindingsFit) (hu : u.module.Sized) :
    u.module.WellFormed := by
  obtain ⟨m, hm, heq⟩ := compile_ok h
  rw [heq] at hu ⊢
  have hwf := lower_wellFormed hm hp hu.of_closeTypes.of_optimize
  exact Ir.Module.wellFormed_closeTypes (Exec.preserves_optimize hwf hu.of_closeTypes.constants).wellFormed

end CompileOptions

end NumericEngine
