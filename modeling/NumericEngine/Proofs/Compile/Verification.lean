import NumericEngine.Proofs.Compile.Lowering

/-!
# Optimised code passes verification

A change to complete code leaves it complete: what stands for a register is
defined no later, the phis that are left have the inputs they had, and control
goes where it went. So the verifier says of a module the same before and after
optimisation, and whether a program is compiled does not depend on the level.
-/

namespace NumericEngine

namespace Ir

variable {c : Change} {m m' : Module} {f f' : Function} {ret : Ty} {entry : Entry}

namespace Change.OnFunction

theorem leads_iff (hf : c.OnFunction m m' f f') : f'.body.Leads i j ↔ f.body.Leads i j := by
  constructor
  · rintro ⟨is', t', hi', s, hs, hj⟩
    obtain ⟨is, u, hi, ht, -, -⟩ := hf.body_right hi'
    cases ht
    exact ⟨is, u, hi, s, successors_mapUses c.subst u ▸ hs, hj⟩
  · rintro ⟨is, t, hi, s, hs, hj⟩
    obtain ⟨is', u, ht, hi', -, -⟩ := hf.body_left hi
    cases ht
    exact ⟨is', _, hi', s, (successors_mapUses c.subst t).symm ▸ hs, hj⟩

theorem below_subst (hf : c.OnFunction m m' f f')
    (h : r ∈ f.params ∨ r.index.toNat < n) : c.subst r ∈ f.params ∨ (c.subst r).index.toNat < n := by
  have hle := hf.le r
  by_cases hr : r ∈ f.params
  · rw [(hf.params r hr).1]
    exact .inl hr
  · by_cases hs : c.subst r ∈ f.params
    · exact .inl hs
    · rw [rank, rank, if_neg hr, if_neg hs, Nat.add_le_add_iff_right] at hle
      exact .inr (Nat.lt_of_le_of_lt hle (h.resolve_left hr))

theorem body_partial (h : m.Changes m') (hf : c.OnFunction m m' f f')
    (hcode : f.body.Partial (m.context f) ret f.params f.regTypes.size (fun _ _ => False) entry) :
    f'.body.Partial (m'.context f') ret f'.params f'.regTypes.size (fun _ _ => False) (c.entry f entry) := by
  have hparams : f'.params = f.params := by rw [hf.header]
  have hregs : f'.regTypes = f.regTypes := by rw [hf.header]
  refine (hf.body_scoped h hcode.body_scoped).toPartial rfl ?_ ?_ ?_ ?_
  · rw [hparams, hregs]
    rintro i r' (⟨r, -, rfl, hr | ⟨is, t, hi, incoming, hmem, -⟩⟩ | ⟨is', t', hi', hmem⟩)
    · exact hf.below_subst (hcode.below i r (.inl hr))
    · exact hf.below_subst (hcode.below i r (.inr ⟨is, t, hi, mem_dsts hmem⟩))
    · obtain ⟨is, u, hi, -, hinstrs, -⟩ := hf.body_right hi'
      exact hcode.below i r' (.inr ⟨is, _, hi, hinstrs.dsts_sublist.subset hmem⟩)
  · rintro i r' ⟨r, -, -, hr⟩
    obtain ⟨⟨is, t⟩, hi⟩ : ∃ b, f.body i = some b := hr.elim (hcode.closed i r) fun ⟨_, _, hi, _⟩ => ⟨_, hi⟩
    obtain ⟨is', u, -, hi', -⟩ := hf.body_left hi
    exact ⟨_, hi'⟩
  · intro i is' t' hi' dst incoming' hd'
    obtain ⟨is, u, hi, -, hinstrs, -⟩ := hf.body_right hi'
    obtain ⟨incoming, hd, rfl, -, -⟩ := hinstrs.mem_phi hd'
    obtain ⟨hnodup, hleads⟩ := (hcode.block hi).sources dst incoming hd
    rw [List.map_map]
    refine ⟨hnodup, fun p' hp' => ?_⟩
    obtain ⟨p, hp, rfl⟩ := List.mem_map.1 hp'
    exact hf.leads_iff.2 (hleads p hp)
  · intro i is' t' hi'
    obtain ⟨is, u, hi, -, -, -⟩ := hf.body_right hi'
    rcases (hcode.block hi).entered with ⟨-, hnone⟩ | hentered
    · cases hnone
    · exact hentered.mono fun j _ hlead => hf.leads_iff.2 hlead

theorem complete (h : m.Changes m') (hf : c.OnFunction m m' f f') (hcomplete : f.Complete m) :
    f'.Complete m' where
  code := by
    obtain ⟨entry, ret, hret, hcode⟩ := hcomplete.code
    refine ⟨_, ret, ?_, hf.body_partial h hcode⟩
    rw [hf.header]
    simpa only [h.ty?] using hret
  nodup := by
    rw [hf.header]
    exact hcomplete.nodup
  params := by
    rw [hf.header]
    exact hcomplete.params
  ids i b' hb' := by
    obtain ⟨b, hb, hblock⟩ := forall₂_getElem?_right hf.blocks hb'
    rw [hblock.id]
    exact hcomplete.ids i b hb
  nonempty hnil := by
    have hlength := hf.blocks.length_eq
    simp [hnil, hcomplete.nonempty] at hlength
  literals b' hb' dst es' hmem' := by
    obtain ⟨b, hb, hblock⟩ := forall₂_exists_left hf.blocks hb'
    rcases hblock.instrs.mem_define hmem' with ⟨rhs, hmem, heq, -⟩ | ⟨k, heq⟩
    · cases rhs with
      | makeTensor es =>
        cases heq
        rw [List.length_map]
        exact hcomplete.literals b hb dst es hmem
      | _ => cases heq
    · cases heq

end Change.OnFunction

namespace Module

theorem ChangesTo.complete (h : m.ChangesTo m') (hm : ∀ f ∈ m.functions, f.Complete m) :
    ∀ f ∈ m'.functions, f.Complete m' := by
  induction h with
  | refl => exact hm
  | tail _ hstep ih =>
    intro f' hf'
    obtain ⟨f, hf, c, hc⟩ := forall₂_exists_left hstep.functions hf'
    exact hc.complete hstep (ih f hf)

/-- Two modules whose functions are complete and have the same types get the same verdict. -/
theorem errors_verify_shaped (hm : ∀ f ∈ m.functions, f.Complete m)
    (hm' : ∀ f ∈ m'.functions, f.Complete m') (htypes : m'.types = m.types)
    (hshape : List.Forall₂ Function.Shaped m.functions m'.functions) :
    m'.verify.errors = m.verify.errors := by
  rw [errors_verify_complete hm, errors_verify_complete hm']
  have hsame : ∀ f f', f.Shaped f' → (m'.oversizedErrors f').map (Diagnostic.mk f'.name) =
      (m.oversizedErrors f).map (Diagnostic.mk f.name) := by
    intro f f' h
    rw [h.header]
    simp only [oversizedErrors, ty?, htypes]
  clear hm hm'
  generalize m.functions = fs, m'.functions = fs' at hshape
  induction hshape with
  | nil => rfl
  | cons h _ ih => rw [List.flatMap_cons, List.flatMap_cons, hsame _ _ h, ih]

end Module

end Ir

namespace CompileOptions

variable {o o' : CompileOptions} {p : Source.Program} {m : Ir.Module} {level : Nat}

section

variable (h : lower p = .ok m) (hfits : ∀ fs, Typing.checkProgram p = .ok fs → Typing.Fits fs)
  (hsized : (m.optimize level).1.Sized)
include h hfits hsized

theorem optimize_complete :
    (∀ f ∈ m.functions, f.Complete m) ∧ ∀ f ∈ (m.optimize level).1.functions,
    f.Complete (m.optimize level).1 := by
  obtain ⟨fs, hfs, hlower⟩ := lower_ok h
  have hcomplete := Lowering.program_complete hfs (hfits fs hfs) hlower hsized.of_optimize
  have hbindings : p.BindingsFit := fun fs hfs => (hfits fs hfs).bindings
  have hwf := lower_wellFormed h hbindings hsized.of_optimize
  exact ⟨hcomplete, (Ir.Module.changesTo_optimize hwf hsized.constants).complete hcomplete⟩

theorem errors_optimize : (m.optimize level).1.verify.errors = m.verify.errors := by
  obtain ⟨hbefore, hafter⟩ := optimize_complete h hfits hsized
  exact Ir.Module.errors_verify_shaped hbefore hafter (m.types_optimize level) (m.shaped_optimize level)

end

theorem check_eq_ok : o.check after m = .ok () ↔ (o.verify = true → m.verify.errors = []) := by
  unfold check
  split
  · cases m.verify.errors <;> simp [*]
  · simp [*]

theorem compileModule_of_check (h : o.check .lowering m = .ok ())
    (hsame : (m.optimize o.level).1.verify.errors = m.verify.errors) :
    ∃ stats, o.compileModule m = .ok ⟨(m.optimize o.level).1.closeTypes, stats⟩ ∧
      stats.savings = (m.optimize o.level).2 := by
  have hagain : o.check .optimization (m.optimize o.level).1 = .ok () := by
    rw [check_eq_ok, hsame]
    exact check_eq_ok.1 h
  unfold compileModule
  rw [h]
  generalize m.optimize o.level = r at hagain
  obtain ⟨optimized, savings⟩ := r
  simp only [bind, Except.bind, pure, Except.pure]
  split
  · rw [hagain]
    exact ⟨_, rfl, rfl⟩
  · exact ⟨_, rfl, rfl⟩

theorem compileModule_eq_error (hsame : (m.optimize o.level).1.verify.errors = m.verify.errors) :
    o.compileModule m = .error e ↔ o.check .lowering m = .error e := by
  cases hcheck : o.check .lowering m with
  | error e' =>
    unfold compileModule
    rw [hcheck]
    simp [bind, Except.bind]
  | ok =>
    obtain ⟨stats, hok, -⟩ := compileModule_of_check hcheck hsame
    simp [hok]

/-- The verifier has the same to say of the code of a program after optimisation as before: what
types are too large, and nothing else. So with verification a program is compiled at all levels or
at none, and then for the same reason. -/
theorem optimize_keeps_verdict (hfits : ∀ fs, Typing.checkProgram p = .ok fs → Typing.Fits fs) :
    (∀ m level, lower p = .ok m → (m.optimize level).1.Sized →
      (m.optimize level).1.verify.errors = m.verify.errors ∧
      (∀ d ∈ m.verify.errors, ∃ id, d.error = .oversizedType id) ∧
      (m.optimize level).1.verify.warnings = []) ∧
    ∀ o o' : CompileOptions, o.verify = true → o'.verify = true →
      (∀ m, lower p = .ok m → (m.optimize o.level).1.Sized ∧ (m.optimize o'.level).1.Sized) →
      ((∃ u, o.compile p = .ok u) ↔ ∃ u, o'.compile p = .ok u) ∧
      ∀ e, o.compile p = .error e ↔ o'.compile p = .error e := by
  refine ⟨fun m level h hsized => ?_, fun o o' hverify hverify' hsized => ?_⟩
  · obtain ⟨hbefore, hafter⟩ := optimize_complete h hfits hsized
    exact ⟨errors_optimize h hfits hsized, (Ir.Module.verify_complete hbefore).1,
      (Ir.Module.verify_complete hafter).2⟩
  · have herror : ∀ e, o.compile p = .error e ↔ o'.compile p = .error e := by
      intro e
      unfold compile
      cases h : lower p with
      | error e' => rfl
      | ok m =>
        obtain ⟨hsized, hsized'⟩ := hsized m h
        show o.compileModule m = .error e ↔ o'.compileModule m = .error e
        rw [compileModule_eq_error (errors_optimize h hfits hsized),
          compileModule_eq_error (errors_optimize h hfits hsized'), check, check, hverify, hverify']
    have hok : ∀ o : CompileOptions, (∃ u, o.compile p = .ok u) ↔ ∀ e, o.compile p ≠ .error e := by
      intro o
      cases o.compile p <;> simp
    exact ⟨by simp only [hok, ne_eq, herror], herror⟩

/-- Two loops that leave a variable as it is, and a sum of constants. -/
def idle : Source.Program where
  functions := [{
    name := "idle", params := [⟨"n", .i64, {}⟩], ret := .i64,
    body := [
      .mk (.letBinding "m" none true (.mk (.var "n") {})) {},
      .mk (.while (.mk (.binary (.compare .gt) (.mk (.var "m") {}) (.mk (.int 0) {}) true) {}) [
        .mk (.while (.mk (.binary (.compare .lt) (.mk (.var "m") {}) (.mk (.int 0) {}) true) {})
          [.mk (.assign "m" (.mk (.var "m") {})) {}]) {}]) {},
      .mk (.return (some (.mk (.binary (.arith .add) (.mk (.var "m") {})
        (.mk (.binary (.arith .add) (.mk (.int 2) {}) (.mk (.int 3) {}) true) {}) true) {}))) {}] }]

/-- The phis of both loops go, one after the other, and so does the sum. -/
theorem optimize_keeps_verdict_idle :
    (∀ fs, Typing.checkProgram idle = .ok fs → Typing.Fits fs) ∧
    ∃ m, lower idle = .ok m ∧ (m.optimize 2).1.Sized ∧ (m.optimize 2).2 = ⟨1, 2, 2⟩ ∧
      (m.optimize 2).1.verify.errors = m.verify.errors ∧ (m.optimize 2).1.verify.warnings = [] ∧
      ((∃ u, ({ optLevel := 0 } : CompileOptions).compile idle = .ok u) ↔
        ∃ u, ({ optLevel := 2 } : CompileOptions).compile idle = .ok u) := by
  have hfits : ((Typing.checkProgram idle).toOption.all fun fs => decide (Typing.Fits fs)) = true := by
    decide +kernel
  have hidle : ((lower idle).toOption.any fun m => decide ((m.optimize 2).2 = ⟨1, 2, 2⟩) &&
      (m.optimize 2).1.isSized) = true := by decide +kernel
  simp only [Option.any_eq_true, Bool.and_eq_true, decide_eq_true_eq] at hidle
  obtain ⟨m, hm, hsavings, hsized⟩ := hidle
  have hm := Except.toOption_eq_some hm
  have hsized := Ir.Module.sized_of_isSized hsized
  have hfits : ∀ fs, Typing.checkProgram idle = .ok fs → Typing.Fits fs := by
    intro fs hfs
    rw [hfs] at hfits
    exact of_decide_eq_true hfits
  obtain ⟨hverdict, hcompile⟩ := optimize_keeps_verdict hfits
  obtain ⟨herrors, -, hwarnings⟩ := hverdict m 2 hm hsized
  refine ⟨hfits, m, hm, hsized, hsavings, herrors, hwarnings, (hcompile _ _ rfl rfl fun m' hm' => ?_).1⟩
  cases hm.symm.trans hm'
  exact ⟨hsized.of_optimize, hsized⟩

end CompileOptions

end NumericEngine
