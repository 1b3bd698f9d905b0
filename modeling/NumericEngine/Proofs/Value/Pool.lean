import NumericEngine.Proofs.Interning
import NumericEngine.Value.Pool

/-!
# Growth of constant pools

Interning keeps the ids of what a pool holds already, and gives an id that leads
to the value interned, as long as the pool has no more entries than ids.
-/

namespace NumericEngine.ConstantPool

variable {p : ConstantPool}

/-- One pool holds what another does, under the same ids. -/
structure Le (p q : ConstantPool) : Prop where
  size : p.size ≤ q.size
  get? : ∀ c v, p.get? c = some v → q.get? c = some v

theorem Le.refl (p : ConstantPool) : p.Le p := ⟨Nat.le_refl _, fun _ _ h => h⟩

theorem Le.trans (h : p.Le q) (h' : q.Le r) : p.Le r :=
  ⟨Nat.le_trans h.size h'.size, fun c v hc => h'.get? c v (h.get? c v hc)⟩

theorem intern_eq (p : ConstantPool) (v : Value) :
    p.intern v = (⟨(interned p.values v).1⟩, ⟨(interned p.values v).2⟩) := by
  unfold intern find? interned firstId
  cases p.values.findIdx? (· == v) <;> rfl

theorem le_intern (p : ConstantPool) (v : Value) : p.Le (p.intern v).2 := by
  rw [intern_eq]
  exact ⟨size_le_interned p.values v, fun _ _ => getElem?_interned⟩

theorem get?_intern (h : (p.intern v).2.size ≤ 2 ^ 32) : (p.intern v).2.get? (p.intern v).1 = some v := by
  rw [intern_eq] at h ⊢
  exact getElem?_interned_self h

theorem mem_of_mem_intern (h : u ∈ (p.intern v).2.values) : u ∈ p.values ∨ u = v := by
  rw [intern_eq] at h
  exact mem_of_mem_interned h

end NumericEngine.ConstantPool
