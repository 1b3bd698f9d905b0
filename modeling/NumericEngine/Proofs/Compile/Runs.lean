import NumericEngine.Proofs.Compile.Unit

/-!
# Runs of compiled code

The interpreter, on code that was compiled from a checked program: optimisation
changes no outcome, and no run breaks an invariant.
-/

namespace NumericEngine

/-- Arguments for a function of the module: they are well formed, have the types of the parameters,
and every function among them is one of the module. -/
def Ir.Module.Accepts (m : Ir.Module) (f : FuncId) (args : List Value) : Prop :=
  ∃ g ps, m.function? f = some g ∧ m.paramTys? g = some ps ∧
    List.Forall₂ (fun v p => v.ty = p ∧ v.Valid ∧ v.Resolved m.signature?) args ps

namespace Exec

variable {m : Ir.Module} {σ : Type} {bridge : Bridge σ} {f : FuncId} {args : List Value}

theorem accepts_signature (hm : m.WellFormed) (h : m.Accepts f args) :
    ∃ ps t, m.signature? f = some (.function ps t) ∧
      List.Forall₂ (fun v p => v.Plain m.signature? p) args ps := by
  obtain ⟨g, ps, hg, hps, hargs⟩ := h
  have hwf := hm g (List.mem_of_getElem? hg)
  obtain ⟨entry, ret, hret, -⟩ := hwf.code
  obtain ⟨qs, hqs, hplain⟩ := hwf.params
  cases hps.symm.trans (Ir.Module.paramTys?_of_regs hqs hplain)
  refine ⟨ps, ret, by simp [Ir.Module.signature?, hg, hps, hret], ?_⟩
  exact forall₂_imp_mem hargs fun v _ p hp hv => ⟨hv.1, hv.2.1, hv.2.2, hplain p hp⟩

theorem accepts_new (hm : m.WellFormed) (h : m.Accepts f args) :
    ∃ g ret a, m.function? f = some g ∧ m.ty? g.retType = some ret ∧ Activation.new g args = .ok a ∧
      a.Sound m ret := by
  obtain ⟨ps, t, hsig, hargs⟩ := accepts_signature hm h
  obtain ⟨g, hg, hwf, hregs, hret, -, -⟩ := hm.signature hsig
  obtain ⟨a, ha, -, hsound⟩ := Activation.new_sound hwf hregs hret hargs
  exact ⟨g, t, a, hg, hret, ha, hsound⟩

end Exec

namespace CompileOptions

open Exec

variable {p : Source.Program} {m : Ir.Module} {σ : Type} {bridge : Bridge σ} {f : FuncId}
  {args : List Value}

/-- A function that adds `2 + 3` to its parameter. -/
def offset : Source.Program where
  functions := [{
    name := "offset", params := [⟨"n", .i64, {}⟩], ret := .i64,
    body := [.mk (.return (some (.mk (.binary (.arith .add) (.mk (.var "n") {})
      (.mk (.binary (.arith .add) (.mk (.int 2) {}) (.mk (.int 3) {}) true) {}) true) {}))) {}] }]

/-- Code for `offset`. -/
def offsetWith (types : Array Ty) (constants : Array Value) (sum : List Ir.Instr) : Ir.Module where
  types := ⟨types⟩
  constants := ⟨constants⟩
  functions := [{
    id := ⟨0⟩, name := "offset", params := [⟨0⟩], retType := ⟨0⟩,
    blocks := [{ id := ⟨0⟩, label := "entry",
                 instrs := sum ++ [.define ⟨4⟩ (.binary .add .i64 ⟨0⟩ ⟨3⟩ true)],
                 terminator := .ret ⟨4⟩ }],
    regTypes := #[⟨0⟩, ⟨0⟩, ⟨0⟩, ⟨0⟩, ⟨0⟩], slotTypes := #[] }]

/-- The sum as it was written. -/
def offsetCode : Ir.Module :=
  offsetWith #[.i64] #[.ofScalar .i64 2, .ofScalar .i64 3] [.define ⟨1⟩ (.const ⟨0⟩),
    .define ⟨2⟩ (.const ⟨1⟩), .define ⟨3⟩ (.binary .add .i64 ⟨1⟩ ⟨2⟩ true)]

/-- The sum as a constant. -/
def offsetFolded (types : Array Ty) : Ir.Module :=
  offsetWith types #[.ofScalar .i64 2, .ofScalar .i64 3, .ofScalar .i64 5] [.define ⟨3⟩ (.const ⟨2⟩)]

theorem bindingsFit_offset : offset.BindingsFit := by decide +kernel

theorem compile_offset : ∃ stats, ({} : CompileOptions).compile offset =
    .ok ⟨offsetFolded #[.i64, .record [.i64]], stats⟩ := by
  have hmodule : (({} : CompileOptions).compile offset).toOption.map (·.module) =
      some (offsetFolded #[.i64, .record [.i64]]) := by decide +kernel
  obtain ⟨⟨_, stats⟩, hu, rfl⟩ := Option.map_eq_some_iff.1 hmodule
  exact ⟨stats, Except.toOption_eq_some hu⟩

theorem sized_offset : (offsetFolded #[.i64, .record [.i64]]).Sized :=
    Ir.Module.sized_of_isSized (by decide +kernel)

/-- The optimiser never changes what a function of a checked program comes to. -/
theorem optimize_keeps_outcomes (hm : lower p = .ok m) (hp : p.BindingsFit) {level : Nat}
    (hsized : (m.optimize level).1.Sized) (hargs : m.Accepts f args) (hb : bridge.Interprets)
    (session : Session σ) (r : Except Fault Value) :
    Interpreter.Ends m bridge session f args r ↔
      Interpreter.Ends (m.optimize level).1 bridge session f args r := by
  have hwf := lower_wellFormed hm hp hsized.of_optimize
  have hkeeps := preserves_optimize hwf hsized.constants
  obtain ⟨ps, t, hsig, hplain⟩ := accepts_signature hwf hargs
  exact hkeeps.outcome f ps t args hsig hplain bridge hb session r

theorem optimize_keeps_outcomes_offset :
    lower offset = .ok offsetCode ∧ (offsetCode.optimize 1).1 = offsetFolded #[.i64] ∧
      ∀ bridge : Bridge Unit, bridge.Interprets → ∀ session r,
        Interpreter.Ends offsetCode bridge session ⟨0⟩ [.ofScalar .i64 4] r ↔
          Interpreter.Ends (offsetFolded #[.i64]) bridge session ⟨0⟩ [.ofScalar .i64 4] r := by
  have hlower : lower offset = .ok offsetCode := by decide +kernel
  have hfolded : (offsetCode.optimize 1).1 = offsetFolded #[.i64] := by decide +kernel
  have hsized : (offsetCode.optimize 1).1.Sized := Ir.Module.sized_of_isSized (by decide +kernel)
  have hargs : offsetCode.Accepts ⟨0⟩ [.ofScalar .i64 4] :=
    ⟨_, [.i64], rfl, by decide +kernel, .cons ⟨rfl, rfl, trivial⟩ .nil⟩
  refine ⟨hlower, hfolded, fun bridge hb session r => ?_⟩
  rw [← hfolded]
  exact optimize_keeps_outcomes hlower bindingsFit_offset hsized hargs hb session r

end CompileOptions

/-! ## Types at run time -/

/-- Every register and slot that holds a value holds a well-formed one of its type. -/
structure Exec.Activation.Typed (m : Ir.Module) (a : Activation) : Prop where
  regs : ∀ r v, a.frame.get r = .ok v →
    ∃ t, (a.func.regType? r).bind m.ty? = some t ∧ v.ty.Same t ∧ v.Valid
  slots : ∀ s v, a.frame.load s = .ok v →
    ∃ t, a.func.slotTypes[s.toNat]?.bind m.ty? = some t ∧ v.ty.Same t ∧ v.Valid

/-- So it is in every frame of the interpreter. -/
def Exec.Interpreter.Typed {σ : Type} (m : Ir.Module) (i : Interpreter σ) : Prop :=
  ∀ a, a = i.active ∨ a ∈ i.suspended.map (·.1) → a.Typed m

theorem Exec.Interpreter.Sound.interpreterTyped {i : Interpreter σ} (hi : i.Sound m) : i.Typed m := by
  intro a ha
  have htyped := hi.typed ha
  constructor
  · intro r v hv
    obtain ⟨t, ht, hhas⟩ := htyped.reg r v hv
    exact ⟨t, ht, hhas.same, hhas.valid⟩
  · intro s v hv
    obtain ⟨t, ht, hhas⟩ := htyped.slot s v hv
    exact ⟨t, ht, hhas.same, hhas.valid⟩

namespace Engine

open Exec

variable {e : Engine} {f : FuncId} {args : List Value}

theorem checkArgs_ok (h : checkArgs f i ps args = .ok ())
    (hlen : ps.length = args.length) : List.Forall₂ (fun v p => v.ty = p ∧ v.Valid) args ps := by
  induction ps generalizing i args with
  | nil =>
    cases args with
    | nil => exact .nil
    | cons => cases hlen
  | cons p ps ih =>
    cases args with
    | nil => cases hlen
    | cons v vs =>
      unfold checkArgs at h
      split at h
      · cases h
      · rename_i hty
        split at h
        · cases h
        · rename_i hvalid
          exact .cons ⟨not_not.1 hty, hvalid⟩ (ih h (Nat.succ.inj hlen))

theorem checkArguments_ok (h : e.checkArguments f args = .ok ())
    (hfuns : ∀ v ∈ args, v.Resolved e.unit.module.signature?) : e.unit.module.Accepts f args := by
  unfold checkArguments at h
  split at h
  · cases h
  · rename_i ps hps
    split at h
    · cases h
    · rename_i hlen
      obtain ⟨g, hg, hps⟩ := Option.bind_eq_some_iff.1 hps
      refine ⟨g, ps, hg, hps, ?_⟩
      exact forall₂_imp_mem (checkArgs_ok h (not_not.1 hlen)) fun v hv p _ hvp =>
        ⟨hvp.1, hvp.2, hfuns v hv⟩

/-- Interpreted code that was compiled from a checked program never goes wrong: on arguments that
pass their check, every reachable state is typed, a failure is never a broken invariant, and a
result has the type that the function declares. -/
theorem interpreter_sound {o : CompileOptions} {p : Source.Program} (h : o.compile p = .ok e.unit)
    (hp : p.BindingsFit) (hsized : e.unit.module.Sized) (hargs : e.checkArguments f args = .ok ())
    (hfuns : ∀ v ∈ args, v.Resolved e.unit.module.signature?) {σ : Type} {bridge : Bridge σ}
    (hb : bridge.Interprets) (session : Session σ) :
    ∃ g ret a, e.unit.function? f = some g ∧ e.unit.retTy? f = some ret ∧
      Activation.new g args = .ok a ∧
      (∀ n i, Interpreter.StepsTo e.unit.module bridge n ⟨a, [], session⟩ i → i.Typed e.unit.module) ∧
      ∀ limit r s, Interpreter.run e.unit.module bridge limit g args session = some (r, s) →
        match r with
        | .ok v => v.ty = ret ∧ v.Valid
        | .error fault => fault.kind ≠ .internal := by
  have hwf := CompileOptions.compile_wellFormed h hp hsized
  obtain ⟨g, ret, a, hg, hret, ha, hsound⟩ := accepts_new hwf (checkArguments_ok hargs hfuns)
  have hstart : Interpreter.Returns e.unit.module (fun _ => True) ret ⟨a, [], session⟩ :=
    ⟨trivial, ret, hsound, rfl⟩
  refine ⟨g, ret, a, hg, Option.bind_eq_some_iff.2 ⟨g, hg, hret⟩, ha, ?_, ?_⟩
  · intro n i hsteps
    exact (hsteps.sound hwf hb ⟨ret, hstart⟩).interpreterTyped
  · intro limit r s hrun
    rw [Interpreter.run_of_new ha] at hrun
    obtain ⟨⟨r', i⟩, hi, heq⟩ := Option.map_eq_some_iff.1 hrun
    cases heq
    have hends := hstart.iterate hwf hb.supplies hi
    cases r' with
    | ok v => exact ⟨hends.ty, hends.valid⟩
    | error fault => exact hends.resolve_right (hb.not_fails fault)

open CompileOptions in
theorem interpreter_sound_offset : ∃ u : CompiledUnit, ({} : CompileOptions).compile offset = .ok u ∧
    ∀ bridge : Bridge Unit, bridge.Interprets → ∀ session : Session Unit, ∃ g a,
      u.function? ⟨0⟩ = some g ∧ Activation.new g [.ofScalar .i64 4] = .ok a ∧
      ∀ n i, Interpreter.StepsTo u.module bridge n ⟨a, [], session⟩ i → i.Typed u.module := by
  obtain ⟨stats, hu⟩ := compile_offset
  refine ⟨_, hu, fun bridge hb session => ?_⟩
  have hargs : Engine.checkArguments ⟨⟨offsetFolded #[.i64, .record [.i64]], stats⟩, {}⟩ ⟨0⟩
      [.ofScalar .i64 4] = .ok () := rfl
  obtain ⟨g, -, a, hg, -, ha, htyped, -⟩ := interpreter_sound hu bindingsFit_offset sized_offset hargs
    (by simp [Value.ofScalar, Value.Resolved]) hb session
  exact ⟨g, a, hg, ha, htyped⟩

end Engine

end NumericEngine
