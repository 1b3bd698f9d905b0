import NumericEngine.Proofs.Compile.Unit
import NumericEngine.Proofs.Ir.Passing
import NumericEngine.Proofs.Lowering.Program

/-!
# Checked programs have verified code

A checked program has code unless control gets to the end of a function that has
to give a result. The verifier finds no fault with the code but for types that
are too large, and no block in it that cannot be reached.
-/

namespace NumericEngine

/-- There are ids for the functions of a program, for the bindings of each, and for the blocks that
the nodes of its body can have. -/
structure Typing.Fits (fs : List TFunction) : Prop where
  functions : fs.length ≤ 2 ^ 32
  bindings : ∀ f ∈ fs, f.locals.size ≤ 2 ^ 32
  nodes : ∀ f ∈ fs, TStmt.nodesAll f.body ≤ 2 ^ 30

instance (fs : List TFunction) : Decidable (Typing.Fits fs) :=
  decidable_of_iff (fs.length ≤ 2 ^ 32 ∧ ∀ f ∈ fs, f.locals.size ≤ 2 ^ 32 ∧
    TStmt.nodesAll f.body ≤ 2 ^ 30) ⟨fun h => ⟨h.1, fun f hf => (h.2 f hf).1, fun f hf => (h.2 f hf).2⟩,
      fun h => ⟨h.functions, fun f hf => ⟨h.bindings f hf, h.nodes f hf⟩⟩⟩

namespace Lowering

open Ir (Module)

variable {fs : List TFunction} {f : TFunction} {m : Module}

theorem Lowers.complete (h : Lowers (Typing.signature? fs) m.types m.constants f g)
    (hm : List.Forall₂ (Lowers (Typing.signature? fs) m.types m.constants) fs m.functions)
    (hg : Counted g) : g.Complete m where
  code := by
    obtain ⟨entry, hcode⟩ := h.code
    exact ⟨entry, f.ret, h.ret, hcode.mono (contextIn_le hm g) (Nat.le_refl _)⟩
  nodup := h.nodup
  params r hr := by
    obtain ⟨x, -, t, -, hreg⟩ := forall₂_exists_left h.params hr
    obtain ⟨id, hid, -⟩ := Option.bind_eq_some_iff.1 hreg
    exact (Array.getElem?_eq_some_iff.1 hid).1
  ids := h.blockIds
  nonempty := h.nonempty
  literals := hg

theorem program_complete_of_typed (h : program fs = .ok m) (ht : ∀ f ∈ fs, f.Typed (Typing.signature? fs))
    (hm : m.Sized) (hcounted : ∀ g ∈ m.functions, Counted g) : ∀ g ∈ m.functions, g.Complete m := by
  intro g hg
  have hlowers := program_lowers h ht hm
  obtain ⟨f, -, hfg⟩ := forall₂_exists_left hlowers hg
  exact hfg.complete hlowers (hcounted g hg)

theorem program_complete (hfs : Typing.checkProgram p = .ok fs)
    (hfits : Typing.Fits fs) (h : program fs = .ok m) (hm : m.Sized) : ∀ g ∈ m.functions, g.Complete m := by
  obtain ⟨ht, -⟩ := Typing.checkProgram_ok hfs hfits.functions hfits.bindings
  rcases programFrom_total (m := {}) ht hfits.nodes (by simp) with ⟨f, -, hrun⟩ | ⟨-, m', hrun, hcounted⟩
  · cases h.symm.trans hrun
  · cases h.symm.trans hrun
    exact program_complete_of_typed h ht hm hcounted

/-- A checked program is refused code exactly when a function lacks a return, and then because the
first such function does. Else its code passes the verifier, but for the sizes of types. -/
theorem checked_program_code {p : Source.Program} (h : Typing.checkProgram p = .ok fs)
    (hfits : Typing.Fits fs) :
    ((∃ e, program fs = .error e) ↔ ∃ f ∈ fs, f.ret.isUnit = false ∧ TStmt.completesAll f.body = true) ∧
    (∀ e, program fs = .error e → ∃ f, fs.find? TFunction.lacksReturn = some f ∧
      e = (f.name, { fault := .missingReturn f.ret, span := some f.span })) ∧
    ∀ m, program fs = .ok m → m.Sized →
      (∀ d ∈ m.verify.errors, ∃ id, d.error = .oversizedType id) ∧ m.verify.warnings = [] := by
  obtain ⟨ht, -⟩ := Typing.checkProgram_ok h hfits.functions hfits.bindings
  have hlacks : (∃ f ∈ fs, f.ret.isUnit = false ∧ TStmt.completesAll f.body = true) ↔
      ∃ f, fs.find? TFunction.lacksReturn = some f := by
    rw [← Option.isSome_iff_exists, List.find?_isSome]
    simp [TFunction.lacksReturn]
  rw [hlacks]
  have hnone : ∀ g ∈ ({} : Ir.Module).functions, Counted g := by simp
  rcases programFrom_total (m := {}) ht hfits.nodes hnone with ⟨f, hf, hrun⟩ | ⟨hf, m, hrun, hcounted⟩
  · have hrun : program fs = _ := hrun
    rw [hrun]
    refine ⟨⟨fun _ => ⟨f, hf⟩, fun _ => ⟨_, rfl⟩⟩, fun e he => ?_, by simp⟩
    exact ⟨f, hf, (Except.error.inj he).symm⟩
  · have hok : program fs = .ok m := hrun
    rw [hok, hf]
    refine ⟨by simp, by simp, fun m' hm' hsized => ?_⟩
    cases hm'
    exact Module.verify_complete (program_complete_of_typed hok ht hsized hcounted)

/-- Counts down from its argument, to three at the latest. -/
def countdown : Source.Program where
  functions := [{
    name := "countdown", params := [⟨"n", .i64, {}⟩], ret := .i64,
    body := [
      .mk (.letBinding "m" none true (.mk (.var "n") {})) {},
      .mk (.while (.mk (.binary .and (.mk (.bool true) {})
          (.mk (.binary (.compare .gt) (.mk (.var "m") {}) (.mk (.int 0) {}) true) {}) true) {}) [
        .mk (.ite (.mk (.binary (.compare .eq) (.mk (.var "m") {}) (.mk (.int 3) {}) true) {})
          [.mk .break {}]
          [.mk (.assign "m" (.mk (.binary (.arith .sub) (.mk (.var "m") {}) (.mk (.int 1) {}) true) {})) {},
            .mk .continue {}]) {}]) {},
      .mk (.return (some (.mk (.var "m") {}))) {}] }]

/-- A loop that never ends, after which there is no return. -/
def unending : Source.Program where
  functions := [{
    name := "unending", params := [⟨"n", .i64, {}⟩], ret := .i64,
    body := [.mk (.while (.mk (.bool true) {}) [.mk (.return (some (.mk (.var "n") {}))) {}]) {}] }]

theorem checked_program_code_countdown :
    (∃ fs m, Typing.checkProgram countdown = .ok fs ∧ Typing.Fits fs ∧ program fs = .ok m ∧ m.Sized ∧
      (∀ d ∈ m.verify.errors, ∃ id, d.error = .oversizedType id) ∧ m.verify.warnings = []) ∧
    ∃ fs, Typing.checkProgram unending = .ok fs ∧ Typing.Fits fs ∧ ∃ e, program fs = .error e := by
  have hcountdown : ((Typing.checkProgram countdown).toOption.any fun fs => decide (Typing.Fits fs) &&
      (program fs).toOption.any Module.isSized) = true := by decide +kernel
  have hunending : ((Typing.checkProgram unending).toOption.any fun fs => decide (Typing.Fits fs ∧
      ∃ f ∈ fs, f.ret.isUnit = false ∧ TStmt.completesAll f.body = true)) = true := by decide +kernel
  simp only [Option.any_eq_true, Bool.and_eq_true, decide_eq_true_eq] at hcountdown hunending
  constructor
  · obtain ⟨fs, hfs, hfits, m, hm, hsized⟩ := hcountdown
    have hfs := Except.toOption_eq_some hfs
    have hm := Except.toOption_eq_some hm
    have hsized := Module.sized_of_isSized hsized
    exact ⟨fs, m, hfs, hfits, hm, hsized, (checked_program_code hfs hfits).2.2 m hm hsized⟩
  · obtain ⟨fs, hfs, hfits, hlacks⟩ := hunending
    have hfs := Except.toOption_eq_some hfs
    exact ⟨fs, hfs, hfits, (checked_program_code hfs hfits).1.2 hlacks⟩

end Lowering

end NumericEngine
