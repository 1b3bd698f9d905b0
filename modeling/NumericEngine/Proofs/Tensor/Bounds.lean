import NumericEngine.Proofs.Tensor.Indexing

/-!
# Kernels on exact views

A view is exact where its shape calls for less than `2 ^ 64` bytes. Its buffer
holds all elements then, and kernels access nothing outside of it.
-/

namespace NumericEngine

theorem Shape.volume_take_le {shape : Shape} (h : shape.Within indices) (k : Nat) :
    volume (shape.take k) ≤ volume shape := by
  induction h generalizing k with
  | nil => exact Nat.le_of_eq (by rw [List.take_nil])
  | @cons d i shape indices hi _ ih =>
    cases k with
    | zero =>
      have hrest := ih 0
      rw [List.take_zero] at hrest ⊢
      calc volume [] = 1 * volume [] := (Nat.one_mul _).symm
        _ ≤ d.toNat * volume shape := Nat.mul_le_mul (by omega) hrest
    | succ k => exact Nat.mul_le_mul_left _ (ih k)

namespace View

variable {α : Type} {a b v : View} {e : ElemKind} {i j m n : Nat} {x : Elem}

/-- The bytes that the shape calls for, over all numbers, are a word. -/
def Exact (v : View) : Prop := v.shape.volume * v.elem.size < 2 ^ 64

instance (v : View) : Decidable v.Exact := inferInstanceAs (Decidable (_ < _))

theorem lt_of_mul_size {N : Nat} (h : n * e.size < N) : n < N :=
  Nat.lt_of_le_of_lt (Nat.le_mul_of_pos_right n (size_bounds e).1) h

theorem Exact.length (h : v.Exact) : v.length = v.shape.volume := Shape.count_of_lt (lt_of_mul_size h)

theorem Exact.whole (h : v.Exact) : v.Whole := whole_iff.2 (h.length ▸ h)

/-! ## Entries of matrices -/

theorem cell_lt (hi : i < m) (hj : j < n) : i * n + j < m * n := by
  calc i * n + j < i * n + n := Nat.add_lt_add_left hj _
    _ = (i + 1) * n := (Nat.succ_mul _ _).symm
    _ ≤ m * n := Nat.mul_le_mul_right _ hi

theorem entry_eq (hi : i < m) (hj : j < n) (h : m * n < 2 ^ 64) : entry n i j = i * n + j := by
  have hcell := cell_lt hi hj
  rw [entry, Word.mul_of_lt (by omega), Word.add_of_lt (by omega)]

theorem Exact.get_entry {m n : UInt64} (h : v.Exact) (hs : v.shape = [m, n]) (hi : i < m.toNat)
    (hj : j < n.toNat) : v.get (entry n.toNat i j) = .ok (v.element (i * n.toNat + j)) := by
  have hlength : v.length = m.toNat * n.toNat := by
    rw [h.length, hs, Shape.volume, Shape.volume, Shape.volume, Nat.mul_one]
  have hlt : v.length < 2 ^ 64 := h.length ▸ lt_of_mul_size h
  rw [entry_eq hi hj (hlength ▸ hlt)]
  exact h.whole.get (hlength ▸ cell_lt hi hj)

/-! ## Kernels -/

/-- A kernel that accesses nothing outside of a buffer, and gives what has a property. -/
abbrev Safe (P : α → Prop) (x : Except TensorError α) : Prop := Except.Ends (· ≠ .crash) P x

theorem safe_arith (x : Except ArithError α) : Safe (fun _ => True) (arith x) := by
  cases x with
  | error err => exact nofun
  | ok a => trivial

theorem Exact.safe_get (h : v.Exact) (hi : i < v.length) : Safe (fun _ => True) (v.get i) := by
  rw [h.whole.get hi]
  trivial

theorem safe_setElem {out : Bytes} (hsize : out.size = n * e.size) (hn : n * e.size < 2 ^ 64) (hi : i < n)
    (x : Elem) : Safe (fun out' : Bytes => out'.size = n * e.size) (setElem e out i x) := by
  rw [setElem_of_le (hsize ▸ Nat.mul_le_mul_right _ hi) (hsize ▸ hn)]
  exact (Bytes.size_overwrite ..).trans hsize

theorem safe_fill {value : Nat → Except TensorError Elem} (hn : n * e.size < 2 ^ 64)
    (h : ∀ i < n, Safe (fun _ => True) (value i)) :
    Safe (fun out : Bytes => out.size = n * e.size) (fill e value n (Bytes.zeros (n * e.size))) :=
  loop_ends (I := fun _ (out : Bytes) => out.size = n * e.size) (Bytes.size_zeros _)
  (Nat.zero_add n) fun i hi _ hout =>
    .bind (h i hi) fun x _ => safe_setElem hout hn hi x

theorem safe_sameShape : Safe (fun _ => a.shape = b.shape) (sameShape a b) := by
  unfold sameShape
  split
  · assumption
  · exact nofun

theorem safe_innerProduct {f g : Nat → Except TensorError Elem} (hf : ∀ i < n, Safe (fun _ => True) (f i))
    (hg : ∀ i < n, Safe (fun _ => True) (g i)) : Safe (fun _ => True) (innerProduct e n f g checked) :=
  loop_ends (I := fun _ _ => True) trivial (Nat.zero_add n) fun i hi _ _ =>
    .bind (hf i hi) fun _ _ => .bind (hg i hi) fun _ _ => .bind (safe_arith _) fun _ _ => safe_arith _

namespace Exact

theorem safe_elementwise (ha : a.Exact) (hb : b.Exact) : Safe (fun _ => True) (a.elementwise op b checked) := by
  refine .bind safe_sameShape fun _ hs => ?_
  rw [ha.whole]
  refine Except.Ends.mono (safe_fill (whole_iff.1 ha.whole) fun i hi => ?_) fun _ _ => trivial
  exact .bind (ha.safe_get hi) fun _ _ => .bind (hb.safe_get (Nat.lt_of_lt_of_eq hi (congrArg Shape.count hs)))
    fun _ _ => safe_arith _

theorem safe_scale (h : v.Exact) : Safe (fun _ => True) (v.scale x checked) := by
  rw [scale, h.whole]
  refine Except.Ends.mono (safe_fill (whole_iff.1 h.whole) fun i hi => ?_) fun _ _ => trivial
  exact .bind (h.safe_get hi) fun _ _ => safe_arith _

theorem safe_sum (h : v.Exact) : Safe (fun _ => True) (v.sum checked) :=
  loop_ends (I := fun _ _ => True) trivial (Nat.zero_add _) fun _ hi _ _ =>
    .bind (h.safe_get hi) fun _ _ => safe_arith _

theorem safe_dot (ha : a.Exact) (hb : b.Exact) : Safe (fun _ => True) (a.dot b checked) :=
  .bind safe_sameShape fun _ hs => safe_innerProduct (fun _ => ha.safe_get) fun _ hi =>
    hb.safe_get (Nat.lt_of_lt_of_eq hi (congrArg Shape.count hs))

/-- A product needs a buffer of its own, which the operands say nothing about where their common extent
is zero. -/
theorem safe_matmul (ha : a.Exact) (hb : b.Exact)
    (hab : ∀ m l n, a.shape = [m, l] → b.shape = [l, n] → m.toNat * n.toNat * a.elem.size < 2 ^ 63) :
    Safe (fun _ => True) (a.matmul b checked) := by
  unfold matmul
  split
  · rename_i m l l' n hsa hsb
    split
    · rename_i hl
      subst hl
      have hsize := hab m l n hsa hsb
      have hroom : m.toNat * n.toNat * a.elem.size < 2 ^ 64 := hsize.trans (by decide)
      have hcells : m.toNat * n.toNat < 2 ^ 64 := lt_of_mul_size hroom
      rw [Word.mul_of_lt hcells, Word.mul_of_lt hroom, zeroed_of_lt hsize, Except.ok_bind]
      -- the buffer keeps its size, so that each entry has its place in it
      refine .bind (loop_ends (I := fun _ (out : Bytes) => out.size = m.toNat * n.toNat * a.elem.size)
        (Bytes.size_zeros _) (Nat.zero_add _) fun i hi _ hrow =>
        loop_ends (I := fun _ (out : Bytes) => out.size = m.toNat * n.toNat * a.elem.size)
          hrow (Nat.zero_add _) fun j hj out hout => ?_) fun _ _ => trivial
      refine .bind (safe_innerProduct (fun p hp => ?_) fun p hp => ?_) fun x _ => ?_
      · rw [ha.get_entry hsa hi hp]
        trivial
      · rw [hb.get_entry hsb hp hj]
        trivial
      · rw [entry_eq hi hj hcells]
        exact safe_setElem hout hroom (cell_lt hi hj) x
    · exact nofun
  · exact nofun

end Exact

theorem safe_position (acc : Nat) (shape : Shape) (indices : List Int) :
    Safe (fun _ => True) (Shape.position acc shape indices) := by
  fun_induction Shape.position with
  | case1 => intro h; cases h
  | case2 _ _ _ _ _ _ ih => exact ih
  | case3 => trivial

theorem safe_flatIndex {shape : Shape} : Safe (fun _ => True) (shape.flatIndex indices) := by
  unfold Shape.flatIndex
  split
  · exact safe_position 0 shape indices
  · exact nofun

/-- Indices inside a shape lead to an element. -/
theorem Exact.safe_get_flatIndex (h : v.Exact) (hi : v.shape.flatIndex indices = .ok i) :
    Safe (fun _ => True) (v.get i) := by
  refine h.safe_get (h.length ▸ Shape.flatIndex_lt (fun k => ?_) hi)
  exact Nat.lt_of_le_of_lt (Shape.volume_take_le (Shape.within_of_flatIndex hi) k) (lt_of_mul_size h)

end View

end NumericEngine
