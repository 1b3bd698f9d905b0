import NumericEngine.Proofs.Ir.Change

/-!
# What optimisation leaves of a function

The passes change the instructions of blocks and the registers that terminators
read. Blocks stay in their places, and control goes where it went.
-/

namespace NumericEngine.Ir

/-- A block that has kept its name and its edges. -/
structure Block.Shaped (b b' : Block) : Prop where
  id : b'.id = b.id
  label : b'.label = b.label
  successors : b'.terminator.successors = b.terminator.successors

/-- A function that has kept everything but the insides of its blocks. -/
structure Function.Shaped (f f' : Function) : Prop where
  header : f' = { f with blocks := f'.blocks }
  blocks : List.Forall₂ Block.Shaped f.blocks f'.blocks

namespace Function.Shaped

variable {f : Function}

theorem refl (f : Function) : f.Shaped f := ⟨rfl, List.forall₂_same.2 fun _ _ => ⟨rfl, rfl, rfl⟩⟩

theorem trans (h : f.Shaped f') (h' : f'.Shaped f'') : f.Shaped f'' where
  header := by
    rw [h'.header, h.header]
  blocks := forall₂_comp h.blocks h'.blocks fun _ _ _ hb hb' =>
    ⟨hb'.id.trans hb.id, hb'.label.trans hb.label, hb'.successors.trans hb.successors⟩

theorem of_map (f : Function) (h : ∀ b : Block, b.Shaped (g b)) :
    f.Shaped { f with blocks := f.blocks.map g } where
  header := rfl
  blocks := by
    rw [List.forall₂_map_right_iff, List.forall₂_same]
    exact fun b _ => h b

end Function.Shaped

theorem Folding.shaped_blocks {s : Folding} : List.Forall₂ Block.Shaped bs (s.blocks bs).1 := by
  induction bs generalizing s with
  | nil => exact .nil
  | cons b bs ih => exact .cons ⟨rfl, rfl, rfl⟩ ih

namespace Function

theorem shaped_foldConstants (f : Function) (p : ConstantPool) : f.Shaped (f.foldConstants p).1 :=
  ⟨rfl, Folding.shaped_blocks⟩

theorem shaped_removePhis (f : Function) : f.Shaped f.removePhis.1 := by
  unfold removePhis
  dsimp only
  split
  · exact .refl f
  · exact .of_map f fun b => ⟨rfl, rfl, Change.OnFunction.successors_mapUses _ _⟩

theorem shaped_removeDead (f : Function) : f.Shaped f.removeDead.1 :=
  .of_map f fun _ => ⟨rfl, rfl, rfl⟩

theorem shaped_round (level : Nat) (f : Function) (p : ConstantPool) : f.Shaped (f.round level p).1 := by
  unfold round
  have hfold := shaped_foldConstants f p
  generalize f.foldConstants p = o at hfold ⊢
  obtain ⟨g, q, n⟩ := o
  have hphis : g.Shaped (if 2 ≤ level then g.removePhis else (g, 0)).1 := by
    split
    · exact shaped_removePhis g
    · exact .refl g
  exact hfold.trans (hphis.trans (shaped_removeDead _))

theorem shaped_rounds (f : Function) (p : ConstantPool) : f.Shaped (f.rounds level n p total).1 := by
  induction n generalizing f p total with
  | zero => exact .refl f
  | succ n ih =>
    rw [rounds]
    have hround := shaped_round level f p
    generalize f.round level p = o at hround ⊢
    obtain ⟨g, q, s⟩ := o
    dsimp only
    split
    · exact hround
    · exact hround.trans (ih _ _)

end Function

theorem shaped_optimizeAll : List.Forall₂ Function.Shaped fs (optimizeAll level fs p total).1 := by
  induction fs generalizing p total with
  | nil => exact .nil
  | cons f fs ih =>
    unfold optimizeAll
    have hf : f.Shaped (f.optimize level p).1 := Function.shaped_rounds f p
    generalize f.optimize level p = o at hf ⊢
    exact .cons hf ih

theorem Module.shaped_optimize (m : Module) (level : Nat) :
    List.Forall₂ Function.Shaped m.functions (m.optimize level).1.functions := by
  unfold optimize
  split
  · exact List.forall₂_same.2 fun f _ => .refl f
  · exact shaped_optimizeAll

theorem Module.types_optimize (m : Module) (level : Nat) : (m.optimize level).1.types = m.types := by
  unfold optimize
  split <;> rfl

end NumericEngine.Ir
