import NumericEngine.Exec.Frame
import NumericEngine.Proofs.Effects

/-!
# Laws of frames

What a write does to the registers and slots of a frame, and when it succeeds.
-/

namespace NumericEngine

theorem Reg.ext_toNat {r s : Reg} (h : r.index.toNat = s.index.toNat) : r = s := by
  cases r
  cases s
  exact congrArg Reg.mk (UInt32.toNat_inj.1 h)

namespace Frame

variable {f g : Frame} {r : Reg} {v : Value} {s : UInt32}

theorem get_eq_ok : f.get r = .ok v ↔ f.regs[r.index.toNat]? = some (some v) := by
  unfold get
  split
  · rename_i w hw
    simp [hw]
  · rename_i h
    simp only [reduceCtorEq, false_iff]
    exact fun hv => h v hv

theorem load_eq_ok : f.load s = .ok v ↔ f.slots[s.toNat]? = some (some v) := by
  unfold load
  split
  · rename_i w hw
    simp [hw]
  · rename_i h
    simp only [reduceCtorEq, false_iff]
    exact fun hv => h v hv

/-- The frame with a register written, when there is such a register. -/
def put (f : Frame) (r : Reg) (v : Value) : Frame :=
  { f with regs := f.regs.setIfInBounds r.index.toNat (some v) }

theorem set_eq_ok : f.set r v = .ok g ↔ r.index.toNat < f.regs.size ∧ g = f.put r v := by
  unfold set
  split
  · simp [put, *, eq_comm]
  · simp [*]

section

variable (h : f.set r v = .ok g)
include h

theorem get_of_set (s : Reg) : g.get s = if s = r then .ok v else f.get s := by
  obtain ⟨hlt, rfl⟩ := set_eq_ok.1 h
  by_cases hs : s = r
  · subst hs
    simp [get, put, hlt]
  · have hne : r.index.toNat ≠ s.index.toNat := fun h => hs (Reg.ext_toNat h).symm
    simp [get, put, hs, Array.getElem?_setIfInBounds_ne hne]

theorem get_of_set_self : g.get r = .ok v := by
  simp [get_of_set h]

theorem get_of_set_ne {s : Reg} (hs : s ≠ r) : g.get s = f.get s := by
  simp [get_of_set h, hs]

theorem load_of_set (s : UInt32) : g.load s = f.load s := by
  obtain ⟨-, rfl⟩ := set_eq_ok.1 h
  rfl

theorem size_of_set : g.regs.size = f.regs.size ∧ g.slots.size = f.slots.size := by
  obtain ⟨-, rfl⟩ := set_eq_ok.1 h
  simp [put]

theorem function_of_set : g.function = f.function := by
  obtain ⟨-, rfl⟩ := set_eq_ok.1 h
  rfl

end

theorem store_eq_ok : f.store s v = .ok g ↔
    s.toNat < f.slots.size ∧ g = { f with slots := f.slots.setIfInBounds s.toNat (some v) } := by
  unfold store
  split
  · simp [*, eq_comm]
  · simp [*]

theorem load_of_store (h : f.store s v = .ok g) (s' : UInt32) :
    g.load s' = if s' = s then .ok v else f.load s' := by
  obtain ⟨hlt, rfl⟩ := store_eq_ok.1 h
  by_cases hs : s' = s
  · subst hs
    simp [load, hlt]
  · have hne : s.toNat ≠ s'.toNat := fun h => hs (UInt32.toNat_inj.1 h).symm
    simp [load, hs, Array.getElem?_setIfInBounds_ne hne]

theorem get_of_store (h : f.store s v = .ok g) (r : Reg) : g.get r = f.get r := by
  obtain ⟨-, rfl⟩ := store_eq_ok.1 h
  rfl

theorem size_of_store (h : f.store s v = .ok g) :
    g.regs.size = f.regs.size ∧ g.slots.size = f.slots.size := by
  obtain ⟨-, rfl⟩ := store_eq_ok.1 h
  simp

-- Writes of several registers.

section
variable {copies : List (Reg × Value)}

theorem setAll_isOk (h : ∀ c ∈ copies, c.1.index.toNat < f.regs.size) : ∃ g, f.setAll copies = .ok g := by
  induction copies generalizing f with
  | nil => exact ⟨f, rfl⟩
  | cons c copies ih =>
    obtain ⟨r, v⟩ := c
    have hset : f.set r v = .ok (f.put r v) := set_eq_ok.2 ⟨h _ List.mem_cons_self, rfl⟩
    obtain ⟨g, hg⟩ := ih (f := f.put r v) fun c hc => by
      simpa [put] using h c (List.mem_cons_of_mem _ hc)
    exact ⟨g, by simp [setAll, hset, hg]⟩

theorem keep_of_setAll (h : f.setAll copies = .ok g) :
    (∀ s, g.load s = f.load s) ∧ g.regs.size = f.regs.size ∧ g.slots.size = f.slots.size ∧
      g.function = f.function := by
  induction copies generalizing f with
  | nil =>
    cases h
    exact ⟨fun _ => rfl, rfl, rfl, rfl⟩
  | cons c copies ih =>
    obtain ⟨f', hset, h⟩ := Except.bind_eq_ok.1 h
    obtain ⟨hl, hr, hs, hn⟩ := ih h
    obtain ⟨hr', hs'⟩ := size_of_set hset
    exact ⟨fun s => (hl s).trans (load_of_set hset s), hr.trans hr', hs.trans hs',
      hn.trans (function_of_set hset)⟩

theorem get_of_setAll_not_mem (h : f.setAll copies = .ok g)
    (hr : r ∉ copies.map (·.1)) : g.get r = f.get r := by
  induction copies generalizing f with
  | nil =>
    cases h
    rfl
  | cons c copies ih =>
    obtain ⟨f', hset, h⟩ := Except.bind_eq_ok.1 h
    simp only [List.map_cons, List.mem_cons, not_or] at hr
    rw [ih h hr.2, get_of_set_ne hset hr.1]

theorem get_of_setAll (h : f.setAll copies = .ok g) (hnodup : (copies.map (·.1)).Nodup)
    (hc : c ∈ copies) : g.get c.1 = .ok c.2 := by
  induction copies generalizing f with
  | nil => cases hc
  | cons d copies ih =>
    obtain ⟨f', hset, h⟩ := Except.bind_eq_ok.1 h
    rw [List.map_cons, List.nodup_cons] at hnodup
    rcases List.mem_cons.1 hc with hcd | hc
    · have hkeep := get_of_setAll_not_mem h hnodup.1
      rw [hcd, hkeep, get_of_set_self hset]
    · exact ih h hnodup.2 hc

end

theorem mem_of_setAll (h : f.setAll copies = .ok g)
    (hr : r ∈ copies.map (·.1)) (hv : g.get r = .ok v) : (r, v) ∈ copies := by
  induction copies generalizing f with
  | nil => cases hr
  | cons c copies ih =>
    obtain ⟨f', hset, h⟩ := Except.bind_eq_ok.1 h
    by_cases hmem : r ∈ copies.map (·.1)
    · exact List.mem_cons_of_mem c (ih h hmem)
    · have hrc : r = c.1 := by simpa [hmem] using hr
      have hkeep := get_of_setAll_not_mem h hmem
      rw [hv, hrc, get_of_set_self hset] at hkeep
      rw [Except.ok.inj hkeep, hrc]
      exact List.mem_cons_self

theorem of_new {regs slots : Nat} (h : Frame.new name params regs slots args = .ok g) :
    (∀ r v, g.get r = .ok v → (r, v) ∈ params.zip args) ∧ (∀ s v, g.load s ≠ .ok v) ∧
      g.regs.size = regs ∧ g.slots.size = slots := by
  unfold Frame.new at h
  split at h
  · obtain ⟨hload, hregs, hslots, -⟩ := keep_of_setAll h
    refine ⟨?_, ?_, by simpa using hregs, by simpa using hslots⟩
    · intro r v hv
      by_cases hr : r ∈ (params.zip args).map (·.1)
      · exact mem_of_setAll h hr hv
      · rw [get_of_setAll_not_mem h hr, get_eq_ok] at hv
        simp [Array.getElem?_replicate] at hv
    · intro s v hv
      rw [hload, load_eq_ok] at hv
      simp [Array.getElem?_replicate] at hv
  · cases h

theorem new_isOk {params : List Reg} {regs slots : Nat} {args : List Value}
    (hlen : args.length = params.length) (h : ∀ r ∈ params, r.index.toNat < regs) :
    ∃ g, Frame.new name params regs slots args = .ok g := by
  rw [Frame.new, if_pos hlen]
  refine setAll_isOk fun c hc => ?_
  simpa using h c.1 (List.of_mem_zip hc).1

end Frame

end NumericEngine
