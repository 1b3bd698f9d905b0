import NumericEngine.Proofs.Ir.Optimize

/-!
# The optimiser comes to rest

Every round that changes a function makes it lighter, where a constant weighs
less than any other instruction. So the rounds come to an end, within as many as
the fuel allows, and they end with a function that a further round leaves as it
is.
-/

namespace NumericEngine.Ir

open List

/-- A constant weighs one, every other instruction two. -/
def Instr.weight : Instr → Nat
  | define _ (.const _) => 1
  | _ => 2

theorem Instr.weight_mapUses (ρ : Reg → Reg) (i : Instr) : (i.mapUses ρ).weight = i.weight := by
  cases i with
  | store => rfl
  | define dst rhs => cases rhs <;> rfl

def weight (is : List Instr) : Nat := (is.map Instr.weight).sum

theorem weight_filter (keep : Instr → Bool) (is : List Instr) :
    weight (is.filter keep) + is.length ≤ weight is + (is.filter keep).length := by
  induction is with
  | nil => exact Nat.le_refl _
  | cons i is ih =>
    have hpos : 1 ≤ i.weight := by
      unfold Instr.weight
      split <;> decide
    simp only [weight, filter_cons, map_cons, sum_cons, length_cons] at ih ⊢
    split
    · simp only [map_cons, sum_cons, length_cons]
      omega
    · omega

/-! ## Folding -/

namespace Folding

variable {s : Folding}

theorem instr_cases (s : Folding) (i : Instr) :
    (s.instr i = (i, s) ∧ ∀ dst rhs, i = .define dst rhs → rhs.fold? s.known = none) ∨
      i.weight = 2 ∧ (s.instr i).1.weight = 1 ∧ (s.instr i).2.folded = s.folded + 1 := by
  cases i with
  | store => exact .inl ⟨rfl, nofun⟩
  | define dst rhs =>
    cases hfold : rhs.fold? s.known with
    | none =>
      refine .inl ⟨by simp only [instr, hfold], fun _ _ heq => ?_⟩
      cases heq
      exact hfold
    | some v =>
      refine .inr ⟨?_, by simp only [instr, hfold]; rfl, by simp only [instr, hfold]⟩
      cases rhs <;> first | rfl | cases hfold

theorem weight_instrs (s : Folding) (is : List Instr) :
    (s.instrs is).2.folded + weight (s.instrs is).1 = s.folded + weight is := by
  induction is generalizing s with
  | nil => rfl
  | cons i is ih =>
    have hrest := ih (s.instr i).2
    simp only [instrs, weight, map_cons, sum_cons] at hrest ⊢
    rcases s.instr_cases i with ⟨heq, -⟩ | ⟨hbefore, hafter, hfolded⟩
    · rw [heq] at hrest ⊢
      dsimp only at hrest ⊢
      omega
    · omega

theorem none_of_instrs (h : (s.instrs is).2.folded = s.folded) :
    ∀ dst rhs, .define dst rhs ∈ is → rhs.fold? s.known = none := by
  have hle : ∀ (is : List Instr) (s : Folding), s.folded ≤ (s.instrs is).2.folded := by
    intro is
    induction is with
    | nil => exact fun s => Nat.le_refl _
    | cons i is ih =>
      intro s
      refine Nat.le_trans ?_ (ih (s.instr i).2)
      rcases s.instr_cases i with ⟨heq, -⟩ | ⟨-, -, hfolded⟩
      · exact Nat.le_of_eq (by rw [heq])
      · omega
  induction is with
  | nil => exact nofun
  | cons i is ih =>
    intro dst rhs hmem
    rcases s.instr_cases i with ⟨heq, hnone⟩ | ⟨-, -, hfolded⟩
    · rw [instrs, heq] at h
      rcases mem_cons.1 hmem with hi | hmem
      · exact hnone dst rhs hi.symm
      · exact ih h dst rhs hmem
    · have := hle is (s.instr i).2
      rw [instrs] at h
      dsimp only at h
      omega

theorem instrs_of_none (h : ∀ dst rhs, .define dst rhs ∈ is → rhs.fold? s.known = none) :
    s.instrs is = (is, s) := by
  induction is with
  | nil => rfl
  | cons i is ih =>
    have hi : s.instr i = (i, s) := by
      cases i with
      | store => rfl
      | define dst rhs => simp only [instr, h dst rhs mem_cons_self]
    rw [instrs, hi]
    dsimp only
    rw [ih fun dst rhs hmem => h dst rhs (mem_cons_of_mem _ hmem)]

theorem instrs_append (s : Folding) (is js : List Instr) : s.instrs (is ++ js) =
    ((s.instrs is).1 ++ ((s.instrs is).2.instrs js).1, ((s.instrs is).2.instrs js).2) := by
  induction is generalizing s with
  | nil => rfl
  | cons i is ih => simp only [cons_append, instrs, ih]

/-- Block by block is one instruction after the other. -/
theorem code_blocks (s : Folding) (bs : List Block) :
    ((s.blocks bs).1.flatMap (·.instrs), (s.blocks bs).2) = s.instrs (bs.flatMap (·.instrs)) := by
  induction bs generalizing s with
  | nil => rfl
  | cons b bs ih =>
    simp only [blocks, flatMap_cons, instrs_append, ← ih]

theorem blocks_of_none {bs : List Block}
    (h : ∀ dst rhs, .define dst rhs ∈ bs.flatMap (·.instrs) → rhs.fold? s.known = none) :
    s.blocks bs = (bs, s) := by
  induction bs with
  | nil => rfl
  | cons b bs ih =>
    simp only [flatMap_cons, mem_append] at h
    rw [blocks, instrs_of_none fun dst rhs hmem => h dst rhs (.inl hmem)]
    dsimp only
    rw [ih fun dst rhs hmem => h dst rhs (.inr hmem)]

end Folding

/-! ## Rounds -/

namespace Function

variable {f : Function} {level : Nat} {p : ConstantPool}

def code (f : Function) : List Instr := f.blocks.flatMap (·.instrs)

theorem length_code (f : Function) : f.code.length = f.instrCount := by
  unfold code instrCount
  induction f.blocks with
  | nil => rfl
  | cons b bs ih => simp [ih]

theorem weight_foldConstants (f : Function) (p : ConstantPool) :
    (f.foldConstants p).2.2 + weight (f.foldConstants p).1.code = weight f.code := by
  have hblocks := Folding.code_blocks { known := f.known p, constants := p } f.blocks
  have hweight := Folding.weight_instrs { known := f.known p, constants := p } f.code
  rw [code, ← hblocks, Nat.zero_add] at hweight
  exact hweight

theorem code_removePhis (f : Function) : ∃ keep ρ,
    f.removePhis.1.code = (f.code.filter keep).map (·.mapUses ρ) ∧
      (f.removePhis.2 ≠ 0 → ∃ i ∈ f.code, keep i = false) := by
  unfold removePhis
  dsimp only
  split
  · refine ⟨fun _ => true, fun r => r, ?_, fun h => absurd rfl h⟩
    rw [filter_true]
    exact ((map_congr_left fun i _ => i.mapUses_id).trans (map_id _)).symm
  · rename_i hsome
    let keep (i : Instr) : Bool := !(i.isPhi && i.dst?.any fun dst => (f.replacements.lookup dst).isSome)
    refine ⟨keep, resolve f.replacements (f.replacements.length + 1), ?_, fun _ => ?_⟩
    · simp only [code, flatMap_map, Block.substitute, filter_flatMap, map_flatMap]
      rfl
    · obtain ⟨⟨d, s⟩, rest, heq⟩ : ∃ e rest, f.replacements = e :: rest :=
        exists_cons_of_ne_nil fun h => hsome (by simp [h])
      obtain ⟨b, hb, i, hi, hsole⟩ := mem_replacements (heq ▸ mem_cons_self)
      obtain ⟨incoming, rfl, -⟩ := Instr.sole?_eq_some hsole
      refine ⟨_, mem_flatMap.2 ⟨b, hb, hi⟩, ?_⟩
      simp [keep, Instr.isPhi, Instr.dst?, heq]

theorem weight_removePhis (f : Function) : weight f.removePhis.1.code ≤ weight f.code ∧
    (f.removePhis.2 ≠ 0 → weight f.removePhis.1.code < weight f.code) := by
  obtain ⟨keep, ρ, hcode, hdrop⟩ := f.code_removePhis
  have hmap : weight f.removePhis.1.code = weight (f.code.filter keep) := by
    rw [hcode, weight, weight, map_map]
    exact congrArg List.sum (map_congr_left fun i _ => i.weight_mapUses ρ)
  have hle := weight_filter keep f.code
  have hlength := length_filter_le keep f.code
  refine ⟨by omega, fun h => ?_⟩
  obtain ⟨i, hi, hkeep⟩ := hdrop h
  have := length_filter_lt_length_iff_exists.2 ⟨i, hi, by simpa using hkeep⟩
  omega

theorem code_removeDead (f : Function) : f.removeDead.1.code = f.code.filter (·.live f.used) := by
  simp only [removeDead, code, flatMap_map, filter_flatMap]

theorem count_removeDead (f : Function) :
    f.removeDead.2 = f.code.length - (f.code.filter (·.live f.used)).length := by
  rw [← code_removeDead, length_code, length_code]
  rfl

theorem weight_removeDead (f : Function) : weight f.removeDead.1.code ≤ weight f.code ∧
    (f.removeDead.2 ≠ 0 → weight f.removeDead.1.code < weight f.code) := by
  have hle := weight_filter (·.live f.used) f.code
  have hlength := length_filter_le (·.live f.used) f.code
  rw [count_removeDead, code_removeDead]
  omega

theorem weight_round (h : (f.round level p).2.2 ≠ {}) :
    weight (f.round level p).1.code < weight f.code := by
  have hfold := f.weight_foldConstants p
  unfold round at h ⊢
  generalize f.foldConstants p = x at h hfold ⊢
  obtain ⟨f₁, p₁, folded⟩ := x
  dsimp only at h hfold ⊢
  have hphis : weight (if 2 ≤ level then f₁.removePhis else (f₁, 0)).1.code ≤ weight f₁.code ∧
      ((if 2 ≤ level then f₁.removePhis else (f₁, 0)).2 ≠ 0 →
        weight (if 2 ≤ level then f₁.removePhis else (f₁, 0)).1.code < weight f₁.code) := by
    split
    · exact f₁.weight_removePhis
    · exact ⟨Nat.le_refl _, fun h => absurd rfl h⟩
  generalize (if 2 ≤ level then f₁.removePhis else (f₁, 0)) = y at h hphis ⊢
  obtain ⟨f₂, phisRemoved⟩ := y
  have hdead := f₂.weight_removeDead
  generalize f₂.removeDead = z at h hdead ⊢
  obtain ⟨f₃, removed⟩ := z
  dsimp only at h hphis hdead ⊢
  -- no pass adds weight, and each that counts something takes some
  by_cases hzero : folded = 0 ∧ phisRemoved = 0 ∧ removed = 0
  · obtain ⟨rfl, rfl, rfl⟩ := hzero
    exact absurd rfl h
  · omega

/-- No pass finds anything to do. -/
structure Still (level : Nat) (p : ConstantPool) (f : Function) : Prop where
  unfolded : ∀ dst rhs, .define dst rhs ∈ f.code → rhs.fold? (f.known p) = none
  phis : 2 ≤ level → f.replacements = []
  live : ∀ i ∈ f.code, i.live f.used = true

theorem foldConstants_of_none (h : ∀ dst rhs, .define dst rhs ∈ f.code → rhs.fold? (f.known p) = none) :
    f.foldConstants p = (f, p, 0) := by
  have hblocks : Folding.blocks { known := f.known p, constants := p } f.blocks = _ := Folding.blocks_of_none h
  rw [foldConstants, hblocks]

theorem removePhis_of_nil (h : 2 ≤ level → f.replacements = []) :
    (if 2 ≤ level then f.removePhis else (f, 0)) = (f, 0) := by
  split
  · simp [removePhis, h ‹_›]
  · rfl

theorem removeDead_of_live (h : ∀ i ∈ f.code, i.live f.used = true) : f.removeDead = (f, 0) := by
  have hblocks : (f.blocks.map fun b => { b with instrs := b.instrs.filter (·.live f.used) }) = f.blocks := by
    refine (map_congr_left fun b hb => ?_).trans (map_id _)
    rw [filter_eq_self.2 fun i hi => h i (mem_flatMap.2 ⟨b, hb, hi⟩)]
    rfl
  simp only [removeDead, hblocks, Nat.sub_self]

theorem Still.round (h : f.Still level p) : f.round level p = (f, p, {}) := by
  simp only [Function.round, foldConstants_of_none h.unfolded, removePhis_of_nil h.phis,
    removeDead_of_live h.live]

theorem still_of_round (h : (f.round level p).2.2 = {}) : f.Still level p := by
  have hfolded : (f.foldConstants p).2.2 = 0 := congrArg Savings.folded h
  have hnone : ∀ dst rhs, .define dst rhs ∈ f.code → rhs.fold? (f.known p) = none := by
    have hblocks := Folding.code_blocks { known := f.known p, constants := p } f.blocks
    refine Folding.none_of_instrs (s := { known := f.known p, constants := p }) ?_
    rw [code, ← hblocks]
    exact hfolded
  have hphis : (if 2 ≤ level then f.removePhis else (f, 0)).2 = 0 := by
    have := congrArg Savings.phisRemoved h
    simpa only [Function.round, foldConstants_of_none hnone] using this
  have hnil : 2 ≤ level → f.replacements = [] := by
    intro hlevel
    rw [if_pos hlevel] at hphis
    unfold removePhis at hphis
    dsimp only at hphis
    split at hphis
    · exact isEmpty_iff.1 ‹_›
    · exact eq_nil_of_length_eq_zero hphis
  have hremoved : f.removeDead.2 = 0 := by
    have := congrArg Savings.removed h
    simpa only [Function.round, foldConstants_of_none hnone, removePhis_of_nil hnil] using this
  refine ⟨hnone, hnil, length_filter_eq_length_iff.1 ?_⟩
  rw [count_removeDead] at hremoved
  exact Nat.le_antisymm (length_filter_le _ _) (Nat.sub_eq_zero_iff_le.1 hremoved)

/-! ## The loop -/

/-- The loop without a bound: rounds are made, and their savings added, up to the first round that
saves nothing. -/
inductive Settles (level : Nat) : Function → ConstantPool → Savings → Function × ConstantPool × Savings → Prop
  | stop {f f' : Function} {p p' : ConstantPool} {total : Savings} (h : f.round level p = (f', p', {})) :
    Settles level f p total (f', p', total)
  | next {f f' : Function} {p p' : ConstantPool} {s total : Savings} {out : Function × ConstantPool × Savings}
    (h : f.round level p = (f', p', s)) (hs : s ≠ {}) (rest : Settles level f' p' (total + s) out) :
    Settles level f p total out

/-- The functions of a module in turn, over one pool of constants. -/
inductive SettlesAll (level : Nat) :
    List Function → ConstantPool → Savings → List Function × ConstantPool × Savings → Prop
  | nil {p : ConstantPool} {total : Savings} : SettlesAll level [] p total ([], p, total)
  | cons {f f' : Function} {fs fs' : List Function} {p p' q : ConstantPool} {s total total' : Savings}
    (hf : Settles level f p {} (f', p', s)) (hfs : SettlesAll level fs p' (total + s) (fs', q, total')) :
    SettlesAll level (f :: fs) p total (f' :: fs', q, total')

theorem Settles.still (h : Settles level f p total out) : out.1.Still level out.2.1 := by
  induction h with
  | stop h =>
    have hstill := still_of_round (congrArg (·.2.2) h)
    cases hstill.round.symm.trans h
    exact hstill
  | next _ _ _ ih => exact ih

theorem settles_rounds (h : weight f.code < fuel) :
    Settles level f p total (f.rounds level fuel p total) := by
  induction fuel generalizing f p total with
  | zero => cases h
  | succ fuel ih =>
    have hlt := @weight_round f level p
    rw [rounds]
    rcases hround : f.round level p with ⟨f', p', s⟩
    rw [hround] at hlt
    dsimp only at hlt ⊢
    split
    · rename_i hdone
      exact .stop (hdone ▸ hround)
    · rename_i hmore
      exact .next hround hmore (ih (Nat.lt_of_lt_of_le (hlt hmore) (Nat.le_of_lt_succ h)))

/-- The bound on the rounds is never met. -/
theorem optimize_settles (level : Nat) (f : Function) (p : ConstantPool) :
    Settles level f p {} (f.optimize level p) := by
  refine settles_rounds ?_
  -- no instruction weighs more than two
  have hle : ∀ is : List Instr, weight is ≤ 2 * is.length := by
    intro is
    induction is with
    | nil => exact Nat.le_refl _
    | cons i is ih =>
      have hi : i.weight ≤ 2 := by
        unfold Instr.weight
        split <;> decide
      simp only [weight, map_cons, sum_cons, length_cons] at ih ⊢
      omega
  have := hle f.code
  rw [length_code] at this
  omega

theorem Still.optimize (h : f.Still level p) : f.optimize level p = (f, p, {}) := by
  simp [Function.optimize, rounds, h.round]

/-- More constants give nothing to do to a function whose constants are all there. -/
theorem Still.mono (h : f.Still level p) (hle : p.Le q)
    (hconst : ∀ dst c, .define dst (.const c) ∈ f.code → ∃ v, p.get? c = some v) : f.Still level q := by
  have hknown : f.known q = f.known p := by
    unfold known
    refine foldl_ext _ _ _ fun acc b hb => foldl_ext _ _ _ fun acc i hi => ?_
    split
    · rename_i dst c
      obtain ⟨v, hv⟩ := hconst dst c (mem_flatMap.2 ⟨b, hb, hi⟩)
      rw [hv, hle.get? c v hv]
    · rfl
  exact ⟨hknown ▸ h.unfolded, h.phis, h.live⟩

end Function

/-! ## Modules -/

theorem settles_optimizeAll (level : Nat) (fs : List Function) (p : ConstantPool) (total : Savings) :
    Function.SettlesAll level fs p total (optimizeAll level fs p total) := by
  induction fs generalizing p total with
  | nil => exact .nil
  | cons f fs ih => exact .cons (f.optimize_settles level p) (ih _ _)

theorem optimizeAll_of_still
    (h : ∀ f ∈ fs, f.Still level p) (total : Savings) : optimizeAll level fs p total = (fs, p, total) := by
  induction fs generalizing total with
  | nil => rfl
  | cons f fs ih =>
    obtain ⟨hf, hfs⟩ := forall_mem_cons.1 h
    rw [optimizeAll_cons, hf.optimize]
    exact Prod.ext (congrArg (f :: ·) (congrArg (·.1) (ih hfs total))) (congrArg (·.2) (ih hfs total))

theorem Module.optimize_of_still {m : Module}
    (h : level ≠ 0 → ∀ f ∈ m.functions, f.Still level m.constants) : m.optimize level = (m, {}) := by
  unfold optimize
  split
  · rfl
  · rw [optimizeAll_of_still (h ‹_›)]

theorem still_optimizeAll (fs : List Function) (hm : Module.WellFormed ⟨types, p, fs ++ gs⟩)
    (hsize : (optimizeAll level gs p total).2.1.size ≤ 2 ^ 32) :
    ∀ g ∈ (optimizeAll level gs p total).1, g.Still level (optimizeAll level gs p total).2.1 := by
  induction gs generalizing fs p total with
  | nil => exact nofun
  | cons g gs ih =>
    rw [optimizeAll_cons] at hsize ⊢
    have hgains := gains_optimizeAll level gs (g.optimize level p).2.1 (total + (g.optimize level p).2.2)
    have hone : Module.WellFormed
        ⟨types, (g.optimize level p).2.1, fs ++ (g.optimize level p).1 :: gs⟩ :=
      (changesTo_rounds hm (Nat.le_trans hgains.size hsize)).wellFormed hm
    refine forall_mem_cons.2 ⟨?_, ih (fs ++ [(g.optimize level p).1]) (by simpa using hone) hsize⟩
    refine (g.optimize_settles level p).still.mono hgains.toLe fun dst c hc => ?_
    obtain ⟨entry, ret, hbody⟩ := scoped_of_wellFormed hone
    obtain ⟨b, hb, hc⟩ := mem_flatMap.1 hc
    obtain ⟨i, hi⟩ := Function.body_of_mem hb
    obtain ⟨t, -, v, hv, -⟩ := (hbody.sequence i _ _ hi).typed hc
    exact ⟨v, hv⟩

theorem Module.still_optimize {m : Module} (hm : m.WellFormed) (hlevel : level ≠ 0)
    (hsize : (m.optimize level).1.constants.size ≤ 2 ^ 32) :
    ∀ f ∈ (m.optimize level).1.functions, f.Still level (m.optimize level).1.constants := by
  unfold optimize at hsize ⊢
  rw [if_neg hlevel] at hsize ⊢
  exact still_optimizeAll [] hm hsize

end NumericEngine.Ir
