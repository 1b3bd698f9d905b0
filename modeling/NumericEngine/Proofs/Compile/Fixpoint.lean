import NumericEngine.Proofs.Compile.Encoding
import NumericEngine.Proofs.Compile.Verification
import NumericEngine.Proofs.Ir.Fixpoint

/-!
# Compiling again changes nothing

The module of a compiled unit is verified, the optimiser has come to rest on it,
and its table of types holds all that the types in it call for. So the unit made
of it with the same options has the same module, and no savings.
-/

namespace NumericEngine

open List

namespace Ir

namespace Module

variable {m : Module}

theorem paramTys?_closeTypes (hm : m.WellFormed) (hf : f ∈ m.functions) :
    ∃ ps, m.paramTys? f = some ps ∧ m.closeTypes.paramTys? f = some ps := by
  obtain ⟨ps, hps, hplain⟩ := (hm f hf).params
  exact ⟨ps, paramTys?_of_regs hps hplain, paramTys?_of_regs (hps.mono (context_closeTypes hm f)) hplain⟩

/-- Types are closed once and for all. -/
theorem closeTypes_closeTypes (hm : m.WellFormed) : m.closeTypes.closeTypes = m.closeTypes := by
  obtain ⟨hclosed, hroots⟩ := closeTypes_closed m
  have htypes : m.closeTypes.closeTypes.types = m.closeTypes.types := by
    refine TypeTable.closeFrom_of_closed hclosed fun u hu => ?_
    rcases mem_append.1 (mem_reverse.1 hu) with hu | hu
    · exact Array.mem_toList_iff.1 hu
    · obtain ⟨ps, hps, rfl⟩ := mem_map.1 hu
      obtain ⟨f, hf, hps⟩ := mem_filterMap.1 hps
      obtain ⟨ps', hbefore, hafter⟩ := paramTys?_closeTypes hm hf
      cases hps.symm.trans hafter
      refine hroots _ (mem_append_right _ (mem_map.2 ⟨ps, ?_, rfl⟩))
      exact mem_filterMap.2 ⟨f, hf, hbefore⟩
  exact congrArg (Module.mk · m.constants m.functions) htypes

end Module

theorem Function.Complete.closeTypes {m : Module} {f : Function} (hm : m.WellFormed) (h : f.Complete m) :
    f.Complete m.closeTypes where
  code := by
    obtain ⟨entry, ret, hret, hcode⟩ := h.code
    exact ⟨entry, ret, m.le_closeTypes.get? _ _ hret, hcode.mono (Module.context_closeTypes hm f) (Nat.le_refl _)⟩
  nodup := h.nodup
  params := h.params
  ids := h.ids
  nonempty := h.nonempty
  literals := h.literals

/-- The verifier has nothing to say of the types that closing adds. -/
theorem Module.errors_closeTypes {m : Module} (hm : m.WellFormed) (ht : m.Tabled)
    (hcomplete : ∀ f ∈ m.functions, f.Complete m) : m.closeTypes.verify.errors = m.verify.errors := by
  have hcomplete' : ∀ f ∈ m.closeTypes.functions, f.Complete m.closeTypes := fun f hf =>
    (hcomplete f hf).closeTypes hm
  rw [errors_verify_complete hcomplete, errors_verify_complete hcomplete']
  refine flatMap_congr fun f hf => congrArg (List.map _) ?_
  refine filterMap_congr fun id hid => ?_
  have hlt : id.index.toNat < m.types.size := by
    rcases mem_append.1 hid with hid | hid
    · exact (ht.functions f hf).regs id (Array.mem_toList_iff.1 hid)
    · exact (ht.functions f hf).slots id (Array.mem_toList_iff.1 hid)
  have hid : m.ty? id = some m.types.types[id.index.toNat] := Array.getElem?_eq_getElem hlt
  have hid' : m.closeTypes.ty? id = some m.types.types[id.index.toNat] := m.le_closeTypes.get? _ _ hid
  rw [hid, hid']

end Ir

/-! ## Units -/

namespace CompileOptions

open Ir.Function (Settles SettlesAll)

/-- Optimisation comes to rest on every module, and all of compilation on the modules it makes:
compiled again with the same options, the module of a unit is as it was, and nothing is saved. -/
theorem recompile_fixpoint :
    (∀ (m : Ir.Module) (level : Nat), level ≠ 0 → SettlesAll level m.functions m.constants {}
      ((m.optimize level).1.functions, (m.optimize level).1.constants, (m.optimize level).2)) ∧
    ∀ (o : CompileOptions) (p : Source.Program) (u : CompiledUnit), o.compile p = .ok u →
      (∀ fs, Typing.checkProgram p = .ok fs → Typing.Fits fs) → u.module.Sized →
      ∃ stats, o.compileModule u.module = .ok ⟨u.module, stats⟩ ∧ stats.savings = {} := by
  refine ⟨fun m level hlevel => ?_, fun o p u h hfits hsized => ?_⟩
  · rw [Ir.Module.optimize, if_neg hlevel]
    exact Ir.settles_optimizeAll level m.functions m.constants {}
  obtain ⟨m, hm, hcheck, hu⟩ := compile_checked h
  have hbindings : p.BindingsFit := fun fs hfs => (hfits fs hfs).bindings
  rw [hu] at hsized ⊢
  have hbefore := hsized.of_closeTypes
  have hwf := lower_wellFormed hm hbindings hbefore.of_optimize
  have hwf' : (m.optimize o.level).1.WellFormed :=
    (Ir.Module.changesTo_optimize hwf hbefore.constants).wellFormed hwf
  have hstill : (m.optimize o.level).1.closeTypes.optimize o.level = ((m.optimize o.level).1.closeTypes, {}) :=
    Ir.Module.optimize_of_still fun hlevel => Ir.Module.still_optimize hwf hlevel hbefore.constants
  have herrors : (m.optimize o.level).1.closeTypes.verify.errors = m.verify.errors := by
    have htabled := (lower_tabled hm hbindings hbefore.of_optimize).1.optimize o.level
    rw [Ir.Module.errors_closeTypes hwf' htabled (optimize_complete hm hfits hbefore).2,
      errors_optimize hm hfits hbefore]
  obtain ⟨stats, hok, hsavings⟩ := compileModule_of_check (o := o) (m := (m.optimize o.level).1.closeTypes)
    (check_eq_ok.2 (herrors ▸ check_eq_ok.1 hcheck)) (by rw [hstill])
  rw [hstill] at hok hsavings
  rw [Ir.Module.closeTypes_closeTypes hwf'] at hok
  exact ⟨stats, hok, hsavings⟩

theorem recompile_fixpoint_offset : ∃ u, ({} : CompileOptions).compile offset = .ok u ∧ u.stats.savings ≠ {} ∧
    ∃ stats, ({} : CompileOptions).compileModule u.module = .ok ⟨u.module, stats⟩ ∧ stats.savings = {} := by
  have hfits : ((Typing.checkProgram offset).toOption.all fun fs => decide (Typing.Fits fs)) = true := by
    decide +kernel
  have hsaved : (({} : CompileOptions).compile offset).toOption.all fun u => decide (u.stats.savings ≠ {}) := by
    decide +kernel
  obtain ⟨stats, hu⟩ := compile_offset
  rw [hu] at hsaved
  refine ⟨_, hu, of_decide_eq_true hsaved, recompile_fixpoint.2 {} offset _ hu (fun fs hfs => ?_) sized_offset⟩
  rw [hfs] at hfits
  exact of_decide_eq_true hfits

end CompileOptions

end NumericEngine
