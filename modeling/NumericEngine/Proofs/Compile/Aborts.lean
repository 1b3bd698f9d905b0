import NumericEngine.Proofs.Compile.Lowering
import NumericEngine.Proofs.Exec.Polling

/-!
# Where lowered code sees a request to abort

Blocks are numbered as they are made, and the interpreter takes every edge to a
block that is no later for one that closes a loop. Lowered code has other such
edges too: a short-circuit operator makes its join before the code of its right
operand, and a loop makes its exit before its body. So code without loops may
see a request, if the right operand of such an operator branches in turn.
-/

namespace NumericEngine

open Exec Lowering

variable {fs : List TFunction} {m : Ir.Module}

theorem Lowering.Lowered.ordered {K : Prop} (h : Lowered m f g) (ht : f.Typed sig)
    (hn : TStmt.nodesAll f.body ≤ 2 ^ 30) (hK : K ∨ TStmt.ForwardAll f.body) : g.Ordered K := by
  obtain ⟨types, constants, b, hf, -, -⟩ := h
  rcases function_total types constants ht hn hK with ⟨-, herror⟩ | ⟨-, g', b', hok, -, hordered⟩
  · cases hf.symm.trans herror
  · cases hf.symm.trans hok
    exact hordered

/-- A step that does not call sees a request to abort only where control may go to a block that is no
later. In the code of a checked program such an edge closes a loop, whose header dominates where it
comes from, or leads to a block that was made early. A run without calls never ends because of a request
when its function has no loops, and no short-circuit operator with a right operand that branches. -/
theorem abort_observed (h : Typing.checkProgram p = .ok fs) (hfits : Typing.Fits fs) (hm : program fs = .ok m) :
    (∀ (a : Activation) chain e, a.advance m chain = .error e → e.kind = .aborted →
      ∃ t s, a.terminator = some t ∧ s ∈ t.successors ∧ s.index ≤ a.block.index) ∧
    (∀ g ∈ m.functions, ∀ (i : Nat) b, g.blocks[i]? = some b → ∀ t ∈ b.terminator.successors, t.index.toNat ≤ i →
      g.MadeEarly t.index.toNat ∨ ∀ l, g.Way i l → t.index.toNat ∈ l) ∧
    ∀ (k : Nat) f g, fs[k]? = some f → m.functions[k]? = some g → TStmt.ForwardAll f.body →
      (∀ b ∈ g.blocks, ∀ x ∈ b.instrs, x.isCall = false) →
      ∀ {σ : Type} (bridge : Bridge σ) limit args s e s',
        Interpreter.run m bridge limit g args s = some (.error e, s') → e.kind ≠ .aborted := by
  obtain ⟨ht, -⟩ := Typing.checkProgram_ok h hfits.functions hfits.bindings
  have hlowered := program_lowered hm ht
  refine ⟨fun a chain e hadvance hkind => ?_, fun g hg i b hb t hedge hle => ?_, ?_⟩
  · rcases Activation.advance_fails e hadvance with he | ⟨-, hedge⟩
    · exact absurd hkind (Fault.kind_of_isOwn he)
    · exact hedge
  · obtain ⟨f, hf, hfg⟩ := forall₂_exists_left hlowered hg
    exact (hfg.ordered (ht f hf) (hfits.nodes f hf) (.inl trivial) i b hb t hedge hle).2
  · intro k f g hf hg hforward hcalls σ bridge limit args s e s' hrun
    obtain ⟨g', hg', hfg⟩ := forall₂_getElem?_left hlowered hf
    cases hg.symm.trans hg'
    have hmem := List.mem_of_getElem? hf
    have hordered : g.Ordered False := hfg.ordered (ht f hmem) (hfits.nodes f hmem) (.inr hforward)
    refine Interpreter.run_unpolled ⟨fun i b hb t ht => ?_, hcalls⟩ hrun
    -- an edge to a block that is no later would need a loop or an early join
    exact Nat.lt_of_not_le fun hle => (hordered i b hb t ht hle).1

/-- A function of three truth values. -/
def truth (e : Source.Expr) : Source.Program where
  functions := [{
    name := "truth", params := [⟨"a", .bool, {}⟩, ⟨"b", .bool, {}⟩, ⟨"c", .bool, {}⟩], ret := .bool,
    body := [.mk (.return (some e)) {}] }]

def conjunction (l r : Source.Expr) : Source.Expr := .mk (.binary .and l r true) {}

def truthVar (i : UInt32) : TExpr := .mk .bool (.var ⟨i⟩) {}

/-- The checked form of a conjunction of conjunctions that associates to the left. -/
def checkedTruth : TFunction where
  id := ⟨0⟩
  name := "truth"
  params := [⟨0⟩, ⟨1⟩, ⟨2⟩]
  ret := .bool
  locals := #[⟨"a", .bool, true, false⟩, ⟨"b", .bool, true, false⟩, ⟨"c", .bool, true, false⟩]
  body := [.mk (.return (.mk .bool (.logical true (.mk .bool (.logical true (truthVar 0) (truthVar 1)) {})
    (truthVar 2)) {})) {}]
  span := {}

theorem forward_checkedTruth : TStmt.ForwardAll checkedTruth.body := by
  have hvar (i : UInt32) : (truthVar i).Forward ∧ (truthVar i).Straight :=
    ⟨.mk nofun nofun, .mk nofun nofun nofun⟩
  have hand {l : TExpr} {i : UInt32} (hl : l.Forward) :
    (TExpr.mk .bool (.logical true l (truthVar i)) {}).Forward := by
    refine .mk (fun _ _ _ h => ?_) (by simpa [TNode.operands] using ⟨hl, (hvar i).1⟩)
    cases h
    exact (hvar i).2
  exact ⟨hand (hand (hvar 0).1), trivial⟩

theorem abort_observed_conjunction : ∃ m g,
    Typing.checkProgram (truth (conjunction (conjunction (.mk (.var "a") {}) (.mk (.var "b") {}))
    (.mk (.var "c") {}))) =
      .ok [checkedTruth] ∧ Typing.Fits [checkedTruth] ∧ program [checkedTruth] = .ok m ∧
    m.functions[0]? = some g ∧ ∀ limit args s e s',
      Interpreter.run m .closed limit g args s = some (.error e, s') → e.kind ≠ .aborted := by
  have hcode : ((program [checkedTruth]).toOption.any fun m => m.functions[0]?.any fun g =>
      decide (∀ b ∈ g.blocks, ∀ x ∈ b.instrs, x.isCall = false)) = true := by decide +kernel
  simp only [Option.any_eq_true, decide_eq_true_eq] at hcode
  obtain ⟨m, hm, g, hg, hcalls⟩ := hcode
  have hm := Except.toOption_eq_some hm
  have hfits : Typing.Fits [checkedTruth] := by decide +kernel
  have hchecked : Typing.checkProgram (truth (conjunction (conjunction (.mk (.var "a") {}) (.mk (.var "b") {}))
      (.mk (.var "c") {}))) = .ok [checkedTruth] := by rfl
  exact ⟨m, g, hchecked, hfits, hm, hg,
    (abort_observed hchecked hfits hm).2.2 0 _ g rfl hg forward_checkedTruth hcalls .closed⟩

/-- The inner join leads to the outer one, which was made before it, does not dominate it and looks
at the request. -/
theorem conjunction_aborts : ∃ fs m g,
    Typing.checkProgram (truth (conjunction (.mk (.var "a") {})
    (conjunction (.mk (.var "b") {}) (.mk (.var "c") {})))) =
      .ok fs ∧ program fs = .ok m ∧
    m.functions[0]? = some g ∧ (∀ b ∈ g.blocks, ∀ x ∈ b.instrs, x.isCall = false) ∧
    (∃ b, g.blocks[4]? = some b ∧ ⟨2⟩ ∈ b.terminator.successors ∧ ¬∀ l, g.Way 4 l → 2 ∈ l) ∧
    ∃ s', Interpreter.run m .closed 16 g (List.replicate 3 (.ofScalar .bool 1))
      ⟨{ maxDepth := 1, depth := 1, aborted := true }, ()⟩ = some (.error (.aborted 1), s') := by
  have hcode : ((Typing.checkProgram (truth (conjunction (.mk (.var "a") {})
      (conjunction (.mk (.var "b") {}) (.mk (.var "c") {}))))).toOption.any fun fs => (program fs).toOption.any
      fun m => m.functions[0]?.any fun g => decide (∀ b ∈ g.blocks, ∀ x ∈ b.instrs, x.isCall = false) &&
        ((g.blocks[0]?.any fun b => decide (⟨1⟩ ∈ b.terminator.successors)) &&
          ((g.blocks[1]?.any fun b => decide (⟨4⟩ ∈ b.terminator.successors)) &&
            (g.blocks[4]?.any fun b => decide (⟨2⟩ ∈ b.terminator.successors)))) &&
        (Interpreter.run m .closed 16 g (List.replicate 3 (.ofScalar .bool 1))
          ⟨{ maxDepth := 1, depth := 1, aborted := true }, ()⟩).any (fun r =>
          decide (r.1 = .error (.aborted 1)))) =
      true := by decide +kernel
  simp only [Option.any_eq_true, Bool.and_eq_true, decide_eq_true_eq] at hcode
  obtain ⟨fs, hfs, m, hm, g, hg, ⟨hcalls, ⟨b₀, hb₀, ht₀⟩, ⟨b₁, hb₁, ht₁⟩, b₄, hb₄, ht₄⟩, ⟨r, s'⟩, hrun, hr⟩ :=
    hcode
  cases hr
  have hway : g.Way 4 [4, 1, 0] := (Ir.Function.Way.start.step hb₀ ht₀).step hb₁ ht₁
  exact ⟨fs, m, g, Except.toOption_eq_some hfs, Except.toOption_eq_some hm, hg, hcalls,
    ⟨b₄, hb₄, ht₄, fun h => absurd (h _ hway) (by decide)⟩, s', hrun⟩

end NumericEngine
