import NumericEngine.Proofs.Exec.Change
import NumericEngine.Proofs.Ir.Optimize

/-!
# Optimisation keeps outcomes

Each change of a module keeps the outcomes of all its functions, and so does the
optimiser as a whole.
-/

namespace NumericEngine.Exec

open Ir Activation

namespace Interpreter

variable {σ : Type} {m : Ir.Module}

/-- The interpreter, started on a function of the module, comes to an end with a result. -/
def Ends (m : Ir.Module) (bridge : Bridge σ) (session : Session σ) (f : FuncId)
    (args : List Value) (r : Except Fault Value) : Prop :=
  ∃ g limit s, m.function? f = some g ∧ Interpreter.run m bridge limit g args session = some (r, s)

theorem ends_iff (hg : m.function? f = some g) (ha : Activation.new g args = .ok a) {session : Session σ} :
    Ends m bridge session f args r ↔
      ∃ n i, Run.iterate (step m bridge) n ⟨a, [], session⟩ = some (r, i) := by
  constructor
  · rintro ⟨g', limit, s, hg', hrun⟩
    cases hg.symm.trans hg'
    rw [run_of_new ha] at hrun
    obtain ⟨⟨r', i⟩, hi, heq⟩ := Option.map_eq_some_iff.1 hrun
    cases heq
    exact ⟨limit, i, hi⟩
  · rintro ⟨limit, i, hi⟩
    exact ⟨g, limit, _, hg, (run_of_new ha limit session).trans (congrArg (Option.map _) hi)⟩

end Interpreter

open Interpreter (Ends)

/-- One module has the functions of another, with the same outcomes. -/
structure Preserves (m m' : Ir.Module) : Prop where
  wellFormed : m'.WellFormed
  types : m'.types = m.types
  signature : m'.signature? = m.signature?
  outcome : ∀ id ps t args, m.signature? id = some (.function ps t) →
    List.Forall₂ (fun v p => v.Plain m.signature? p) args ps → ∀ {σ : Type} (bridge : Bridge σ),
    bridge.Interprets → ∀ session r, Ends m bridge session id args r ↔ Ends m' bridge session id args r

variable {m : Ir.Module}

theorem Preserves.refl (hm : m.WellFormed) : Preserves m m :=
  ⟨hm, rfl, rfl, fun _ _ _ _ _ _ _ _ _ _ _ => .rfl⟩

theorem Preserves.trans (h : Preserves m m') (h' : Preserves m' m'') : Preserves m m'' where
  wellFormed := h'.wellFormed
  types := h'.types.trans h.types
  signature := h'.signature.trans h.signature
  outcome id ps t args hsig hargs _ bridge hb session r :=
    (h.outcome id ps t args hsig hargs bridge hb session r).trans
      (h'.outcome id ps t args (h.signature ▸ hsig) (h.signature ▸ hargs) bridge hb session r)

theorem Preserves.of_changes (hm : m.WellFormed) (h : m.Changes m') : Preserves m m' where
  wellFormed := h.wellFormed hm
  types := h.types
  signature := h.signature?
  outcome id ps t args hsig hargs σ bridge hb session r := by
    have hsim := simulation_of_changes hm h
    obtain ⟨f, f', a, a', hf, ha, hf', ha', hsound, hrel⟩ := hsim.start id ps t args hsig hargs
    have hlink : Interpreter.Linked m (Related m m') ⟨a, [], session⟩ ⟨a', [], session⟩ :=
      ⟨rfl, hrel, t, hsound, trivial⟩
    rw [Interpreter.ends_iff hf ha, Interpreter.ends_iff hf' ha']
    constructor
    · rintro ⟨n, i, hi⟩
      exact hsim.forward hm hb hlink hi
    · rintro ⟨n, i, hi⟩
      exact hsim.backward hm hb hlink hi

theorem Preserves.of_changesTo (hm : m.WellFormed) (h : m.ChangesTo m') : Preserves m m' := by
  induction h with
  | refl => exact .refl hm
  | tail _ hstep ih => exact ih.trans (.of_changes ih.wellFormed hstep)

/-- The optimiser keeps the outcomes of every function. -/
theorem preserves_optimize (hm : m.WellFormed)
    (hsize : (m.optimize level).1.constants.size ≤ 2 ^ 32) : Preserves m (m.optimize level).1 :=
  .of_changesTo hm (Module.changesTo_optimize hm hsize)

end NumericEngine.Exec
