import NumericEngine.Proofs.Interning
import NumericEngine.Ty.Table

/-!
# Growth of type tables

Interning keeps the ids of what a table holds already, and gives an id that leads
to the type interned, as long as the table has no more entries than ids.
-/

namespace NumericEngine.TypeTable

variable {t : TypeTable} {ty : Ty}

/-- One table holds what another does, under the same ids. -/
structure Le (t u : TypeTable) : Prop where
  size : t.size ≤ u.size
  get? : ∀ id ty, t.get? id = some ty → u.get? id = some ty

theorem Le.refl (t : TypeTable) : t.Le t := ⟨Nat.le_refl _, fun _ _ h => h⟩

theorem Le.trans (h : t.Le u) (h' : u.Le v) : t.Le v :=
  ⟨Nat.le_trans h.size h'.size, fun id ty hid => h'.get? id ty (h.get? id ty hid)⟩

theorem intern_eq (t : TypeTable) (ty : Ty) :
    t.intern ty = (⟨(interned t.types ty).1⟩, ⟨(interned t.types ty).2⟩) := by
  unfold intern find? interned firstId
  cases t.types.findIdx? (· == ty) <;> rfl

theorem le_intern (t : TypeTable) (ty : Ty) : t.Le (t.intern ty).2 := by
  rw [intern_eq]
  exact ⟨size_le_interned t.types ty, fun _ _ => getElem?_interned⟩

theorem get?_intern (h : (t.intern ty).2.size ≤ 2 ^ 32) :
    (t.intern ty).2.get? (t.intern ty).1 = some ty := by
  rw [intern_eq] at h ⊢
  exact getElem?_interned_self h

theorem mem_of_mem_intern (h : u ∈ (t.intern ty).2.types) : u ∈ t.types ∨ u = ty := by
  rw [intern_eq] at h
  exact mem_of_mem_interned h

theorem mem_intern (t : TypeTable) (ty : Ty) : ty ∈ (t.intern ty).2.types := by
  unfold intern
  split
  · rename_i hfind
    obtain ⟨i, hi, -⟩ := Option.map_eq_some_iff.1 hfind
    obtain ⟨hlt, heq, -⟩ := Array.findIdx?_eq_some_iff_getElem.1 hi
    exact eq_of_beq heq ▸ Array.getElem_mem hlt
  · exact Array.mem_push_self

theorem mem_intern_of_mem (h : u ∈ t.types) : u ∈ (t.intern ty).2.types := by
  unfold intern
  split
  · exact h
  · exact Array.mem_push_of_mem _ h

theorem intern_of_mem (h : ty ∈ t.types) : (t.intern ty).2 = t := by
  unfold intern
  split
  · rfl
  · rename_i hfind
    have hnone := Array.findIdx?_eq_none_iff.1 (Option.map_eq_none_iff.1 hfind) ty h
    simp at hnone

theorem intern_lt (t : TypeTable) (ty : Ty) : (t.intern ty).1.index.toNat < (t.intern ty).2.size := by
  have hle (n : Nat) : (UInt32.ofNat n).toNat ≤ n := Nat.mod_le _ _
  unfold intern
  split
  · rename_i id hfind
    obtain ⟨i, hi, rfl⟩ := Option.map_eq_some_iff.1 hfind
    exact Nat.lt_of_le_of_lt (hle i) (Array.findIdx?_eq_some_iff_getElem.1 hi).1
  · exact Nat.lt_of_le_of_lt (hle t.size) (by simp [size])

end NumericEngine.TypeTable
