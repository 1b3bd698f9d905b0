import NumericEngine.Ir.Verify
import NumericEngine.Proofs.Exec.Frame
import NumericEngine.Proofs.Ir.Dominance
import NumericEngine.Proofs.Ir.Scoping

/-!
# What verification establishes

Reads a verdict without errors as facts about the function: where its blocks
are, what leads to what, where each register is defined, and that every use is
reached by its definition.
-/

namespace NumericEngine.Ir

open List

theorem BlockId.ext_toNat {a b : BlockId} (h : a.index.toNat = b.index.toNat) : a = b := by
  cases a
  cases b
  exact congrArg BlockId.mk (UInt32.toNat_inj.1 h)

/-! ## Edges -/

namespace Function

variable {f : Function}

/-- A block has an edge to the block at an index. -/
def Leads (b : Block) (index : Nat) : Prop := ∃ t ∈ b.terminator.successors, t.index.toNat = index

theorem mem_predecessorsOf : p ∈ f.predecessorsOf index ↔ ∃ b ∈ f.blocks, Leads b index ∧ b.id = p := by
  unfold predecessorsOf
  suffices h : ∀ (bs : List Block) (acc : List BlockId), p ∈ bs.foldl (fun acc b =>
      if b.terminator.successors.any (·.index.toNat == index) && !acc.contains b.id then
        acc ++ [b.id] else acc) acc ↔ p ∈ acc ∨ ∃ b ∈ bs, Leads b index ∧ b.id = p by
    simpa using h f.blocks []
  intro bs
  induction bs with
  | nil => simp
  | cons b bs ih =>
    intro acc
    have hleads : b.terminator.successors.any (·.index.toNat == index) = true ↔ Leads b index := by
      simp [Leads]
    rw [foldl_cons, ih]
    simp only [exists_mem_cons_iff]
    by_cases hb : Leads b index
    · by_cases hmem : b.id ∈ acc
      · rw [if_neg (by simp [hmem])]
        constructor
        · rintro (h | h)
          · exact .inl h
          · exact .inr (.inr h)
        · rintro (h | ⟨-, rfl⟩ | h)
          · exact .inl h
          · exact .inl hmem
          · exact .inr h
      · rw [if_pos (Bool.and_eq_true_iff.2 ⟨hleads.2 hb, by simp [hmem]⟩), mem_append, mem_singleton, or_assoc,
          eq_comm (a := p), and_iff_right hb]
    · rw [if_neg fun h => hb (hleads.1 (Bool.and_eq_true_iff.1 h).1)]
      simp only [hb, false_and, false_or]

theorem nodup_predecessorsOf (index : Nat) : (f.predecessorsOf index).Nodup := by
  unfold predecessorsOf
  suffices h : ∀ (bs : List Block) (acc : List BlockId), acc.Nodup → (bs.foldl (fun acc b =>
      if b.terminator.successors.any (·.index.toNat == index) && !acc.contains b.id then
        acc ++ [b.id] else acc) acc).Nodup from h f.blocks [] .nil
  intro bs
  induction bs with
  | nil => exact fun _ h => h
  | cons b bs ih =>
    intro acc hacc
    rw [foldl_cons]
    refine ih _ ?_
    split
    · rename_i h
      have hmem : b.id ∉ acc := by simpa using (Bool.and_eq_true_iff.1 h).2
      exact nodup_append.2 ⟨hacc, nodup_singleton _,
        fun x hx y hy => by rintro rfl; exact hmem (mem_singleton.1 hy ▸ hx)⟩
    · exact hacc

/-- The predecessors of every block, by index. -/
def graph (f : Function) : Preds := f.predecessors.map fun ps => ps.map fun p => p.index.toNat

@[simp] theorem length_graph : f.graph.length = f.blocks.length := by
  simp [graph, predecessors]

theorem edge_graph : f.graph.Edge p index ↔
    index < f.blocks.length ∧ ∃ b ∈ f.blocks, Leads b index ∧ b.id.index.toNat = p := by
  have hget : f.graph[index]? = if index < f.blocks.length then
      some ((f.predecessorsOf index).map fun p => p.index.toNat) else none := by
    simp only [graph, predecessors, map_map, getElem?_map]
    split
    · rename_i h
      rw [getElem?_range h]
      rfl
    · rename_i h
      rw [getElem?_eq_none (by simpa using Nat.not_lt.1 h)]
      rfl
  unfold Preds.Edge
  rw [hget]
  split
  · rename_i h
    simp only [h, Option.some.injEq, exists_eq_left', mem_map, mem_predecessorsOf, true_and]
    constructor
    · rintro ⟨_, ⟨b, hb, hleads, rfl⟩, rfl⟩
      exact ⟨b, hb, hleads, rfl⟩
    · rintro ⟨b, hb, hleads, rfl⟩
      exact ⟨b.id, ⟨b, hb, hleads, rfl⟩, rfl⟩
  · rename_i h
    simp [h]

/-- Every block is where its id says, and leads to blocks. -/
structure Indexed (f : Function) : Prop where
  ids : ∀ (index : Nat) (b : Block), f.blocks[index]? = some b → b.id.index.toNat = index
  targets : ∀ b ∈ f.blocks, ∀ t ∈ b.terminator.successors, t.index.toNat < f.blocks.length

theorem shapeErrors_eq_nil : Scope.shapeErrors f = [] ↔ f.Indexed := by
  simp only [Scope.shapeErrors, flatMap_eq_nil_iff, append_eq_nil_iff, ite_eq_left_iff,
    map_eq_nil_iff, filter_eq_nil_iff, decide_eq_true_eq, Nat.not_le, Prod.forall,
    mem_zipIdx_iff_getElem?]
  constructor
  · intro h
    refine ⟨fun index b hb => ?_, fun b hb => ?_⟩
    · by_contra hne
      exact absurd ((h b index hb).1 hne) (by simp)
    · obtain ⟨index, hindex⟩ := getElem?_of_mem hb
      exact (h b index hindex).2
  · intro h b index hb
    exact ⟨fun hne => absurd (h.ids index b hb) hne, h.targets b (mem_of_getElem? hb)⟩

theorem Indexed.getElem? (hf : f.Indexed) (hb : b ∈ f.blocks) : f.blocks[b.id.index.toNat]? = some b := by
  obtain ⟨index, hindex⟩ := getElem?_of_mem hb
  rw [hf.ids index b hindex]
  exact hindex

theorem Indexed.edge (hf : f.Indexed) (hb : b ∈ f.blocks)
    (ht : t ∈ b.terminator.successors) : f.graph.Edge b.id.index.toNat t.index.toNat :=
  edge_graph.2 ⟨hf.targets b hb t ht, b, hb, ⟨t, ht, rfl⟩, rfl⟩

/-- The blocks that control passes on its way from the entry to a block, the latest first. -/
inductive Way (f : Function) : Nat → List Nat → Prop
  | start : Way f 0 [0]
  | step {index : Nat} {l : List Nat} {b : Block} {t : BlockId} (way : Way f index l)
      (block : f.blocks[index]? = some b) (target : t ∈ b.terminator.successors) :
      Way f t.index.toNat (t.index.toNat :: l)

theorem Indexed.path_graph (hf : f.Indexed) : f.graph.Path index l ↔ f.Way index l := by
  constructor
  · intro h
    induction h with
    | start => exact .start
    | step _ hedge ih =>
      obtain ⟨-, b, hb, ⟨t, ht, rfl⟩, rfl⟩ := edge_graph.1 hedge
      exact ih.step (hf.getElem? hb) ht
  · intro h
    induction h with
    | start => exact .start
    | step _ hb ht ih =>
      have hedge := hf.edge (mem_of_getElem? hb) ht
      rw [hf.ids _ _ hb] at hedge
      exact ih.step hedge

/-- The sweeps end in a state that one more leaves as it is. Then a block that control cannot get
to has no set, and the set of any other block holds just the blocks that all ways to it pass. -/
theorem dominators_exact (hne : f.blocks ≠ []) (hf : f.Indexed) :
    (∃ k ≤ f.blocks.length * f.blocks.length + 1,
      dominators f.graph = (Dominators.sweep f.graph)^[k] (Dominators.initial f.graph)) ∧
    Dominators.sweep f.graph (dominators f.graph) = dominators f.graph ∧
    (∀ b < f.blocks.length, (dominators f.graph)[b]? = some none ↔ ¬∃ l, f.Way b l) ∧
    ∀ b, (∃ l, f.Way b l) → ∃ s, (dominators f.graph)[b]? = some (some s) ∧
      s.length = f.blocks.length ∧ ∀ a, s[a]? = some true ↔ ∀ l, f.Way b l → a ∈ l := by
  have hn : 0 < f.graph.length := by simpa using List.length_pos_of_ne_nil hne
  have hway : ∀ b, f.graph.Reached b ↔ ∃ l, f.Way b l := fun b => by simp [Preds.Reached, hf.path_graph]
  have hsettled := settled_dominators hn
  obtain ⟨hlength, hsets, hreached⟩ := hsettled.closing.formed
  obtain ⟨k, hk, hruns⟩ := Dominators.settle_eq_iterate f.graph
    (f.graph.length * f.graph.length + 1) (Dominators.initial f.graph)
  refine ⟨⟨k, length_graph (f := f) ▸ hk, hruns⟩, hsettled.still, fun b hb => ?_, fun b hb => ?_⟩
  · rw [← hway, ← hreached]
    obtain ⟨o, ho⟩ : ∃ o, (dominators f.graph)[b]? = some o :=
      ⟨_, List.getElem?_eq_getElem (by simpa [hlength] using hb)⟩
    cases o <;> simp [ho]
  · rw [← hway] at hb
    obtain ⟨s, hs⟩ := (hreached b).2 hb
    refine ⟨s, hs, by simpa using hsets b s hs, fun a => ?_⟩
    have hdominates := dominates_dominators hn hb (a := a)
    simp only [Preds.Dominates, hf.path_graph, Dominators.dominates, hs] at hdominates
    rw [← hdominates, List.getD_eq_getElem?_getD]
    cases s[a]? <;> simp

/-- A loop with two ways in, an edge back to the entry, and a block that only leads away. -/
def tangle : Function where
  id := ⟨0⟩
  name := "tangle"
  params := [⟨0⟩]
  retType := ⟨0⟩
  blocks := [⟨⟨0⟩, "entry", [], .branch ⟨0⟩ ⟨1⟩ ⟨2⟩⟩, ⟨⟨1⟩, "left", [], .branch ⟨0⟩ ⟨0⟩ ⟨2⟩⟩,
    ⟨⟨2⟩, "right", [], .branch ⟨0⟩ ⟨1⟩ ⟨3⟩⟩, ⟨⟨3⟩, "exit", [], .ret ⟨0⟩⟩, ⟨⟨4⟩, "aside", [], .jump ⟨1⟩⟩]
  regTypes := #[⟨0⟩]
  slotTypes := #[]

/-- Either side of the loop can be entered without the other, and the way out is on one side. -/
theorem dominators_exact_tangle : (tangle.blocks ≠ [] ∧ tangle.Indexed) ∧
    (¬∃ l, tangle.Way 4 l) ∧ (∀ l, tangle.Way 3 l → 2 ∈ l) ∧
      (¬∀ l, tangle.Way 1 l → 2 ∈ l) ∧ ¬∀ l, tangle.Way 3 l → 1 ∈ l := by
  have hne : tangle.blocks ≠ [] := by decide
  have hindexed : tangle.Indexed := shapeErrors_eq_nil.1 (by decide +kernel)
  obtain ⟨-, -, hnone, hsome⟩ := dominators_exact hne hindexed
  have hvalue : dominators tangle.graph = [some [true, false, false, false, false],
      some [true, true, false, false, false], some [true, false, true, false, false],
      some [true, false, true, true, false], none] := by decide +kernel
  rw [hvalue] at hnone hsome
  have hentry : tangle.Way 0 [0] := .start
  have hleft : tangle.Way 1 [1, 0] := hentry.step rfl List.mem_cons_self
  have hexit : tangle.Way 3 [3, 2, 0] :=
    (hentry.step (t := ⟨2⟩) rfl (by decide)).step (t := ⟨3⟩) rfl (by decide)
  obtain ⟨s, hs, -, hside⟩ := hsome 1 ⟨_, hleft⟩
  obtain ⟨t, ht, -, hout⟩ := hsome 3 ⟨_, hexit⟩
  cases hs
  cases ht
  exact ⟨⟨hne, hindexed⟩, (hnone 4 (by decide)).1 rfl, (hout 2).1 rfl,
    fun h => absurd ((hside 2).2 h) (by decide), fun h => absurd ((hout 1).2 h) (by decide)⟩

end Function

/-! ## Definitions -/

namespace Definitions

variable {d : Definitions} {block : BlockId}

theorem sites_of_add (h : (d.add block reg site).sites[r]? = some (some s)) :
    d.sites[r]? = some (some s) ∨ reg.index.toNat = r ∧ s = site := by
  unfold add at h
  split at h
  · exact .inl h
  · exact .inl h
  · rw [Array.getElem?_setIfInBounds] at h
    split at h
    · rename_i hr
      split at h
      · exact .inr ⟨hr, (Option.some.inj (Option.some.inj h)).symm⟩
      · cases h
    · exact .inl h

theorem sites_of_addInstrs {r : Nat} (h : (addInstrs block d site is).sites[r]? = some (some s)) :
    d.sites[r]? = some (some s) ∨ ∃ k i reg, is[k]? = some i ∧ i.dst? = some reg ∧
      reg.index.toNat = r ∧ s = ⟨site.block, site.position + k⟩ := by
  induction is generalizing d site with
  | nil => exact .inl h
  | cons i is ih =>
    rcases ih h with h | ⟨k, j, reg, hj, hdst, hr, hs⟩
    · cases hi : i.dst? with
      | none =>
        simp only [hi] at h
        exact .inl h
      | some reg =>
        simp only [hi] at h
        rcases sites_of_add h with h | ⟨hr, hs⟩
        · exact .inl h
        · exact .inr ⟨0, i, reg, rfl, hi, hr, hs⟩
    · refine .inr ⟨k + 1, j, reg, by simpa using hj, hdst, hr, ?_⟩
      rw [hs, Site.mk.injEq]
      exact ⟨rfl, Nat.add_right_comm _ _ _⟩

theorem sites_of_addBlocks {s : Site} (h : (addBlocks d index bs).sites[r]? = some (some s)) :
    d.sites[r]? = some (some s) ∨ ∃ n b k i reg, bs[n]? = some b ∧ b.instrs[k]? = some i ∧
      i.dst? = some reg ∧ reg.index.toNat = r ∧ s = ⟨index + n, k + 1⟩ := by
  induction bs generalizing d index with
  | nil => exact .inl h
  | cons b bs ih =>
    rcases ih h with h | ⟨n, c, k, i, reg, hc, hi, hdst, hr, hs⟩
    · rcases sites_of_addInstrs h with h | ⟨k, i, reg, hi, hdst, hr, hs⟩
      · exact .inl h
      · exact .inr ⟨0, b, k, i, reg, rfl, hi, hdst, hr, by rw [hs, Nat.add_comm k 1]; rfl⟩
    · refine .inr ⟨n + 1, c, k, i, reg, by simpa using hc, hi, hdst, hr, ?_⟩
      rw [hs, Site.mk.injEq]
      exact ⟨by omega, rfl⟩

theorem sites_of_params {rs : List Reg}
    (h : (rs.foldl (fun d r => d.add ⟨0⟩ r ⟨0, 0⟩) d).sites[r]? = some (some s)) :
    d.sites[r]? = some (some s) ∨ (∃ reg ∈ rs, reg.index.toNat = r) ∧ s = ⟨0, 0⟩ := by
  induction rs generalizing d with
  | nil => exact .inl h
  | cons reg rs ih =>
    rcases ih h with h | ⟨⟨q, hq, hr⟩, hs⟩
    · rcases sites_of_add h with h | ⟨hr, hs⟩
      · exact .inl h
      · exact .inr ⟨⟨reg, mem_cons_self, hr⟩, hs⟩
    · exact .inr ⟨⟨q, mem_cons_of_mem _ hq, hr⟩, hs⟩

/-- A register is a parameter, or the destination of the instruction at its site. -/
def Defines (f : Function) (r : Reg) (s : Site) : Prop :=
  (r ∈ f.params ∧ s = ⟨0, 0⟩) ∨ ∃ b k i, f.blocks[s.block]? = some b ∧ s.position = k + 1 ∧
    b.instrs[k]? = some i ∧ i.dst? = some r

theorem defines_of_sites {r : Reg} {s : Site}
    (h : (of f).sites[r.index.toNat]? = some (some s)) : Defines f r s := by
  rcases sites_of_addBlocks h with h | ⟨n, b, k, i, reg, hb, hi, hdst, hr, rfl⟩
  · rcases sites_of_params h with h | ⟨⟨reg, hreg, hr⟩, hs⟩
    · simp [Array.getElem?_replicate] at h
    · exact .inl ⟨Reg.ext_toNat hr ▸ hreg, hs⟩
  · refine .inr ⟨b, k, i, ?_, rfl, hi, Reg.ext_toNat hr ▸ hdst⟩
    simpa using hb

-- Errors are only ever added.

theorem errors_add (h : (d.add block reg site).errors = []) :
    d.errors = [] ∧ reg.index.toNat < d.sites.size := by
  unfold add at h
  split at h
  · simp at h
  · simp at h
  · rename_i hnone
    exact ⟨h, (Array.getElem?_eq_some_iff.1 hnone).1⟩

theorem size_add : (d.add block reg site).sites.size = d.sites.size := by
  unfold add
  split
  · rfl
  · rfl
  · simp

theorem errors_addInstrs (h : (addInstrs block d site is).errors = []) : d.errors = [] := by
  induction is generalizing d site with
  | nil => exact h
  | cons i is ih =>
    have h := ih h
    cases hi : i.dst? with
    | none => simpa only [hi] using h
    | some reg =>
      simp only [hi] at h
      exact (errors_add h).1

theorem errors_addBlocks (h : (addBlocks d index bs).errors = []) : d.errors = [] := by
  induction bs generalizing d index with
  | nil => exact h
  | cons b bs ih => exact errors_addInstrs (ih h)

theorem errors_params {rs : List Reg} (h : (rs.foldl (fun d r => d.add ⟨0⟩ r ⟨0, 0⟩) d).errors = []) :
    d.errors = [] ∧ ∀ r ∈ rs, r.index.toNat < d.sites.size := by
  induction rs generalizing d with
  | nil => exact ⟨h, by simp⟩
  | cons reg rs ih =>
    obtain ⟨hadd, hrest⟩ := ih h
    obtain ⟨hd, hreg⟩ := errors_add hadd
    rw [size_add] at hrest
    exact ⟨hd, forall_mem_cons.2 ⟨hreg, hrest⟩⟩

theorem params_lt (h : (of f).errors = []) (hr : r ∈ f.params) : r.index.toNat < f.regTypes.size := by
  simpa using (errors_params (errors_addBlocks h)).2 r hr

end Definitions

/-! ## Uses -/

namespace Flow

variable {fl : Flow}

/-- The definition of a register reaches every execution of a position. -/
def Reaches (fl : Flow) (r : Reg) (index : Nat) (position : Option Nat) : Prop :=
  ∃ site, fl.sites[r.index.toNat]? = some (some site) ∧ fl.available site index position = true

theorem useErrors_eq_nil : fl.useErrors block r index position = [] ↔ fl.Reaches r index position := by
  unfold useErrors Reaches
  split
  · rename_i h
    simp [h]
  · rename_i h
    simp [h]
  · rename_i site h
    simp [h]

theorem sorted_eq_iff : sorted as = sorted bs ↔ as.Perm bs := by
  constructor
  · intro h
    have has : (sorted as).Perm as := mergeSort_perm as _
    have hbs : (sorted bs).Perm bs := mergeSort_perm bs _
    exact has.symm.trans (h ▸ hbs)
  · intro h
    have hsorted : ∀ l : List BlockId, (sorted l).Pairwise fun a b => a.index ≤ b.index := fun l => by
      have htrans : ∀ a b c : BlockId, decide (a.index ≤ b.index) = true →
          decide (b.index ≤ c.index) = true → decide (a.index ≤ c.index) = true := fun a b c hab hbc =>
        decide_eq_true (UInt32.le_trans (of_decide_eq_true hab) (of_decide_eq_true hbc))
      have htotal : ∀ a b : BlockId,
          (decide (a.index ≤ b.index) || decide (b.index ≤ a.index)) = true := fun a b => by
        simpa using UInt32.le_total a.index b.index
      exact (pairwise_mergeSort htrans htotal l).imp fun h => of_decide_eq_true h
    refine List.Perm.eq_of_pairwise (fun a b _ _ hab hba => ?_) (hsorted as) (hsorted bs)
      ((mergeSort_perm as _).trans (h.trans (mergeSort_perm bs _).symm))
    cases a
    cases b
    exact congrArg BlockId.mk (UInt32.le_antisymm hab hba)

/-- What an instruction needs of the flow: a phi comes first and has one input for each
predecessor, available at its end; any other instruction has its operands. -/
def Serves (fl : Flow) (preds : List BlockId) (index position : Nat) (led : Bool) : Instr → Prop
  | .define _ (.phi incoming) =>
    led = true ∧ (incoming.map (·.1)).Perm preds ∧
      ∀ p ∈ incoming, fl.Reaches p.2 p.1.index.toNat none
  | i => ∀ r ∈ i.uses, fl.Reaches r index (some position)

theorem phiErrors_eq_nil
    : fl.phiErrors block dst incoming preds = [] ↔
      (incoming.map (·.1)).Perm preds ∧ ∀ p ∈ incoming, fl.Reaches p.2 p.1.index.toNat none := by
  simp only [phiErrors, append_eq_nil_iff, flatMap_eq_nil_iff, useErrors_eq_nil,
    sorted_eq_iff, ite_eq_left_iff, cons_ne_nil, imp_false, not_not]

end Flow

theorem Scope.blockErrors_cons {s : Scope}
    :
    s.blockErrors fl index block preds position led (i :: is) = [] ↔
      (fl.Serves preds index position led i ∧ s.instrErrors block i = []) ∧
        s.blockErrors fl index block preds (position + 1) (led && i.isPhi) is = [] := by
  by_cases hphi : ∃ dst incoming, i = .define dst (.phi incoming)
  · obtain ⟨dst, incoming, rfl⟩ := hphi
    simp only [blockErrors, append_eq_nil_iff, ite_eq_left_iff, cons_ne_nil, imp_false,
      not_not, Flow.phiErrors_eq_nil, Flow.Serves]
  · have hne : ∀ dst incoming, i = .define dst (.phi incoming) → False := fun dst incoming h =>
      hphi ⟨dst, incoming, h⟩
    have hserves : fl.Serves preds index position led i ↔
        ∀ r ∈ i.uses, fl.Reaches r index (some position) := by
      unfold Flow.Serves
      split
      · exact absurd rfl (hne _ _)
      · rfl
    rw [blockErrors, append_eq_nil_iff, append_eq_nil_iff, hserves]
    · simp only [flatMap_eq_nil_iff, Flow.useErrors_eq_nil]
    · exact hne

theorem Scope.blockErrors_eq_nil {s : Scope}
    :
    s.blockErrors fl index block preds position led is = [] ↔ ∀ (k : Nat) (i : Instr), is[k]? = some i →
      fl.Serves preds index (position + k) (led && (is.take k).all Instr.isPhi) i ∧
        s.instrErrors block i = [] := by
  induction is generalizing position led with
  | nil => simp [blockErrors]
  | cons x is ih =>
    rw [blockErrors_cons, ih]
    constructor
    · rintro ⟨hfirst, hrest⟩ k i hi
      cases k with
      | zero =>
        cases hi
        simpa using hfirst
      | succ k =>
        have h := hrest k i (by simpa using hi)
        rwa [Nat.add_right_comm, Bool.and_assoc] at h
    · intro h
      refine ⟨by simpa using h 0 x rfl, fun k i hi => ?_⟩
      have h := h (k + 1) i (by simpa using hi)
      rwa [take_succ_cons, all_cons, ← Bool.and_assoc, ← Nat.add_assoc,
        Nat.add_right_comm] at h

/-! ## Functions -/

/-- The flow of a function. -/
def Function.flow (f : Function) : Flow := ⟨(Definitions.of f).sites, dominators f.graph⟩

/-- A function without faults. -/
structure Scope.Checked (s : Scope) : Prop where
  nonempty : s.func.blocks ≠ []
  indexed : s.func.Indexed
  definitions : (Definitions.of s.func).errors = []
  instr : ∀ (index : Nat) (b : Block), s.func.blocks[index]? = some b → s.func.graph.Reached index →
    ∀ (k : Nat) (i : Instr), b.instrs[k]? = some i →
      s.func.flow.Serves (s.func.predecessorsOf index) index (k + 1) ((b.instrs.take k).all Instr.isPhi) i ∧
        s.instrErrors b.id i = []
  terminator : ∀ (index : Nat) (b : Block), s.func.blocks[index]? = some b → s.func.graph.Reached index →
    (∀ r ∈ b.terminator.uses, s.func.flow.Reaches r index (some (b.instrs.length + 1))) ∧
      s.checkTerminator b.terminator = .ok ()

theorem Scope.terminatorErrors_eq_nil {s : Scope} :
    s.terminatorErrors fl index b = [] ↔
      (∀ r ∈ b.terminator.uses, fl.Reaches r index (some (b.instrs.length + 1))) ∧
        s.checkTerminator b.terminator = .ok () := by
  simp only [terminatorErrors, append_eq_nil_iff, flatMap_eq_nil_iff, Flow.useErrors_eq_nil]
  refine and_congr_right fun _ => ?_
  split
  · rename_i h
    simp [h]
  · rename_i h
    simp [h]

theorem Scope.check_eq_nil {s : Scope} : s.check.1 = [] ↔ s.Checked := by
  unfold check
  dsimp only
  by_cases hempty : s.func.blocks = []
  · simp only [hempty, isEmpty_nil, if_true, cons_ne_nil, false_iff]
    exact fun h => h.nonempty hempty
  rw [if_neg (by simpa using hempty)]
  by_cases hshape : shapeErrors s.func = []
  swap
  · rw [if_pos hshape]
    exact ⟨fun h => absurd h hshape, fun h => absurd (Function.shapeErrors_eq_nil.2 h.indexed) hshape⟩
  rw [if_neg (by simpa using hshape)]
  have hn : 0 < s.func.graph.length := by
    rw [Function.length_graph]
    exact length_pos_iff.2 hempty
  have hreached : ∀ index, ((dominators s.func.graph).getD index none).isSome = true ↔
      s.func.graph.Reached index := isSome_dominators hn
  have hpreds : ∀ index b, s.func.blocks[index]? = some b →
      s.func.predecessors.getD index [] = s.func.predecessorsOf index := by
    intro index b hb
    have hlt := (List.getElem?_eq_some_iff.1 hb).1
    simp [Function.predecessors, getD_eq_getElem?_getD, hlt]
  have hblock : ∀ index b, s.func.blocks[index]? = some b →
      ((if ((dominators s.func.graph).getD index none).isSome then
        s.blockErrors s.func.flow index b.id (s.func.predecessors.getD index []) 1 true b.instrs ++
          s.terminatorErrors s.func.flow index b
        else []) = [] ↔ (s.func.graph.Reached index →
        (∀ k i, b.instrs[k]? = some i → s.func.flow.Serves (s.func.predecessorsOf index) index (k + 1)
          ((b.instrs.take k).all Instr.isPhi) i ∧ s.instrErrors b.id i = []) ∧
        (∀ r ∈ b.terminator.uses, s.func.flow.Reaches r index (some (b.instrs.length + 1))) ∧
          s.checkTerminator b.terminator = .ok ())) := by
    intro index b hb
    rw [hpreds index b hb]
    split
    · rename_i h
      simp only [(hreached index).1 h, append_eq_nil_iff, blockErrors_eq_nil, Bool.true_and,
        Nat.add_comm 1, terminatorErrors_eq_nil, forall_const]
    · rename_i h
      exact ⟨fun _ hr => absurd ((hreached index).2 hr) h, fun _ => rfl⟩
  show (Definitions.of s.func).errors ++ s.func.blocks.zipIdx.flatMap (fun p =>
    if ((dominators s.func.graph).getD p.2 none).isSome then
      s.blockErrors s.func.flow p.2 p.1.id (s.func.predecessors.getD p.2 []) 1 true p.1.instrs ++
        s.terminatorErrors s.func.flow p.2 p.1
      else []) = [] ↔ _
  simp only [append_eq_nil_iff, flatMap_eq_nil_iff, Prod.forall, mem_zipIdx_iff_getElem?]
  constructor
  · rintro ⟨hdefs, hblocks⟩
    exact ⟨hempty, Function.shapeErrors_eq_nil.1 hshape, hdefs,
      fun index b hb hr => ((hblock index b hb).1 (hblocks b index hb) hr).1,
      fun index b hb hr => ((hblock index b hb).1 (hblocks b index hb) hr).2⟩
  · intro h
    exact ⟨h.definitions, fun b index hb => (hblock index b hb).2 fun hr =>
      ⟨h.instr index b hb hr, h.terminator index b hb hr⟩⟩

/-- A module all of whose functions are without faults. -/
def Module.Checked (m : Module) : Prop := ∀ f ∈ m.functions, Scope.Checked ⟨m, f⟩

theorem Module.checked_of_valid {m : Module} (h : m.verify.valid strict = true) : m.Checked := by
  have herrors : m.verify.errors = [] := by
    simpa using (Bool.and_eq_true_iff.1 h).1
  simp only [verify, flatMap_eq_nil_iff, forall_mem_map, verifyFunction,
    map_eq_nil_iff, append_eq_nil_iff] at herrors
  exact fun f hf => Scope.check_eq_nil.1 (herrors f hf).2

end NumericEngine.Ir
