import Mathlib.Algebra.Group.Nat.Defs
import Mathlib.Data.List.Forall2
import NumericEngine.Proofs.Tensor.Elements

/-!
# Positions of elements

Indices inside a shape and positions below its number of elements are the same
thing in two forms: `flatIndex` goes from the first to the second, `indicesAt`
goes back. Where the products of a shape's leading extents are words, so is all
that computing a position goes through, and nothing wraps around.
-/

namespace NumericEngine

namespace Shape

/-- The number of elements. -/
def volume : Shape → Nat
  | [] => 1
  | d :: rest => d.toNat * volume rest

/-- One index for each axis, inside its extent. -/
def Within : Shape → List Int → Prop := List.Forall₂ fun d i => 0 ≤ i ∧ i < d.toNat

/-- Each index counts the elements that a step along its axis passes over. -/
def rowMajor : Shape → List Int → Nat
  | _ :: shape, i :: indices => i.toNat * volume shape + rowMajor shape indices
  | _, _ => 0

/-- The indices of the element at a position. -/
def indicesAt : Shape → Nat → List Int
  | [], _ => []
  | _ :: shape, n => (n / volume shape : Nat) :: indicesAt shape (n % volume shape)

variable {shape : Shape} {indices : List Int} {n : Nat}

theorem count_eq (shape : Shape) : count shape = volume shape % 0x10000000000000000 := by
  induction shape with
  | nil => rfl
  | cons d shape ih => rw [count, Word.mul, ih, Nat.mul_mod_mod, volume]

theorem count_of_lt (h : volume shape < 2 ^ 64) : count shape = volume shape := by
  rw [count_eq]
  exact Nat.mod_eq_of_lt h

theorem rowMajor_lt (h : shape.Within indices) : rowMajor shape indices < volume shape := by
  induction h with
  | nil => exact Nat.zero_lt_one
  | @cons d i shape indices hi _ ih =>
    calc i.toNat * volume shape + rowMajor shape indices
      _ < i.toNat * volume shape + volume shape := Nat.add_lt_add_left ih _
      _ = (i.toNat + 1) * volume shape := (Nat.succ_mul _ _).symm
      _ ≤ d.toNat * volume shape := Nat.mul_le_mul_right _ (by omega)

theorem indicesAt_rowMajor (h : shape.Within indices) : indicesAt shape (rowMajor shape indices) = indices := by
  induction h with
  | nil => rfl
  | @cons d i shape indices hi hrest ih =>
    have hlt := rowMajor_lt hrest
    have hpos : 0 < volume shape := Nat.zero_lt_of_lt hlt
    rw [rowMajor, indicesAt, Nat.mul_comm, Nat.mul_add_div hpos, Nat.mul_add_mod, Nat.div_eq_of_lt hlt,
      Nat.mod_eq_of_lt hlt, ih, Nat.add_zero, Int.toNat_of_nonneg hi.1]

theorem within_indicesAt (h : n < volume shape) : shape.Within (indicesAt shape n) := by
  induction shape generalizing n with
  | nil => exact .nil
  | cons d shape ih =>
    have hpos : 0 < volume shape := Nat.pos_of_mul_pos_left (Nat.zero_lt_of_lt h)
    have hdiv : n / volume shape < d.toNat := (Nat.div_lt_iff_lt_mul hpos).2 h
    exact .cons ⟨Int.natCast_nonneg _, Int.ofNat_lt.2 hdiv⟩ (ih (Nat.mod_lt n hpos))

theorem rowMajor_indicesAt (h : n < volume shape) : rowMajor shape (indicesAt shape n) = n := by
  induction shape generalizing n with
  | nil => exact (Nat.lt_one_iff.1 h).symm
  | cons d shape ih =>
    have hpos : 0 < volume shape := Nat.pos_of_mul_pos_left (Nat.zero_lt_of_lt h)
    rw [indicesAt, rowMajor, ih (Nat.mod_lt n hpos), Int.toNat_natCast, Nat.mul_comm, Nat.div_add_mod]

/-- `p` is the product of the extents that the indices before `acc` went through. -/
theorem position_of_within (h : shape.Within indices) {acc p : Nat} (hacc : acc < p)
    (hword : ∀ k, p * volume (shape.take k) < 2 ^ 64) :
    position acc shape indices = .ok (acc * volume shape + rowMajor shape indices) := by
  induction h generalizing acc p with
  | nil => simp [position, volume, rowMajor]
  | @cons d i shape indices hi _ ih =>
    have hin : (i < 0 || d.toNat ≤ i) = false := by
      simp only [Bool.or_eq_false_iff, decide_eq_false_iff_not]
      omega
    have hp : p * d.toNat < 2 ^ 64 := by simpa [volume] using hword 1
    have hlt : acc * d.toNat + i.toNat < p * d.toNat := by
      have hrow : (acc + 1) * d.toNat ≤ p * d.toNat := Nat.mul_le_mul_right _ hacc
      rw [Nat.succ_mul] at hrow
      omega
    have hrest (k : Nat) : p * d.toNat * volume (shape.take k) < 2 ^ 64 := by
      simpa [volume, Nat.mul_assoc] using hword (k + 1)
    rw [position, hin, Word.mul_of_lt (by omega), Word.add_of_lt (by omega), volume, rowMajor, ← Nat.add_assoc,
      ← Nat.mul_assoc, ← Nat.add_mul]
    exact ih hlt hrest

/-- The first index outside its extent is reported, with that extent. -/
theorem position_of_not_within (hlen : shape.length = indices.length) (h : ¬shape.Within indices) (acc : Nat) :
    ∃ k d i, shape[k]? = some d ∧ indices[k]? = some i ∧ ¬(0 ≤ i ∧ i < d.toNat) ∧
      Within (shape.take k) (indices.take k) ∧
      position acc shape indices = .error (.indexOutOfBounds i d) := by
  induction shape generalizing indices acc with
  | nil =>
    obtain rfl := List.length_eq_zero_iff.1 hlen.symm
    exact absurd .nil h
  | cons d shape ih =>
    obtain ⟨i, indices, rfl⟩ := List.exists_cons_of_length_eq_add_one hlen.symm
    by_cases hi : 0 ≤ i ∧ i < d.toNat
    · have hrest : ¬Within shape indices := fun hw => h (.cons hi hw)
      obtain ⟨k, e, j, hd, hj, hout, hbefore, herr⟩ :=
        ih (Nat.succ.inj hlen) hrest (Word.add (Word.mul acc d.toNat) i.toNat)
      have hin : (i < 0 || d.toNat ≤ i) = false := by
        simp only [Bool.or_eq_false_iff, decide_eq_false_iff_not]
        omega
      refine ⟨k + 1, e, j, hd, hj, hout, .cons hi hbefore, ?_⟩
      rw [position, hin]
      exact herr
    · have hout : (i < 0 || d.toNat ≤ i) = true := by
        simp only [Bool.or_eq_true, decide_eq_true_eq]
        omega
      refine ⟨0, d, i, rfl, rfl, hi, .nil, ?_⟩
      rw [position, hout]
      rfl

theorem within_of_flatIndex (h : flatIndex shape indices = .ok n) : shape.Within indices := by
  by_contra hw
  unfold flatIndex at h
  split at h
  · obtain ⟨_, _, _, -, -, -, -, herr⟩ := position_of_not_within ‹_› hw 0
    cases herr.symm.trans h
  · cases h

section
variable (hword : ∀ k, volume (shape.take k) < 2 ^ 64)
include hword

theorem flatIndex_of_within (h : shape.Within indices) : flatIndex shape indices =
    .ok (rowMajor shape indices) := by
  rw [flatIndex, if_pos h.length_eq, position_of_within h Nat.zero_lt_one (by simpa using hword), Nat.zero_mul,
    Nat.zero_add]

theorem eq_rowMajor (h : flatIndex shape indices = .ok n) : n = rowMajor shape indices :=
  (Except.ok.inj ((flatIndex_of_within hword (within_of_flatIndex h)).symm.trans h)).symm

theorem flatIndex_lt (h : flatIndex shape indices = .ok n) : n < volume shape :=
  eq_rowMajor hword h ▸ rowMajor_lt (within_of_flatIndex h)

end

/-- Indices inside a shape and positions below its number of elements correspond one to one, in
row-major order; what is outside is reported by its first axis. The elements at all positions are inside
of a buffer if, and only if, it holds all elements. -/
theorem flatIndex_exact (shape : Shape) (hword : ∀ k, volume (shape.take k) < 2 ^ 63) :
    (∀ indices, (∃ n, flatIndex shape indices = .ok n) ↔ shape.Within indices) ∧
    (∀ indices n, flatIndex shape indices = .ok n → n = rowMajor shape indices ∧ n < count shape) ∧
    count shape = volume shape ∧
    (∀ indices indices' n, flatIndex shape indices = .ok n → flatIndex shape indices' = .ok n →
      indices = indices') ∧
    (∀ n < count shape, ∃ indices, flatIndex shape indices = .ok n) ∧
    (∀ elem data v, View.of? elem shape data = some v →
      (v.Whole → ∀ indices n, flatIndex shape indices = .ok n →
        (n + 1) * elem.size ≤ v.data.size ∧ v.get n = .ok (v.element n)) ∧
      ((∀ indices n, flatIndex shape indices = .ok n → ∃ x, v.get n = .ok x) → v.Whole)) ∧
    (∀ indices, shape.length ≠ indices.length → flatIndex shape indices =
      .error (.shapeMismatch shape [UInt64.ofNat indices.length])) ∧
    ∀ indices, shape.length = indices.length → ¬shape.Within indices →
      ∃ k d i, shape[k]? = some d ∧ indices[k]? = some i ∧ ¬(0 ≤ i ∧ i < d.toNat) ∧
        Within (shape.take k) (indices.take k) ∧
        flatIndex shape indices = .error (.indexOutOfBounds i d) := by
  have hwide (k : Nat) : volume (shape.take k) < 2 ^ 64 := (hword k).trans (by decide)
  have hcount : count shape = volume shape := count_of_lt (by simpa using hwide shape.length)
  have hreached : ∀ n < count shape, ∃ indices, flatIndex shape indices = .ok n := by
    intro n h
    rw [hcount] at h
    exact ⟨indicesAt shape n, by rw [flatIndex_of_within hwide (within_indicesAt h), rowMajor_indicesAt h]⟩
  refine ⟨fun indices => ⟨fun ⟨n, h⟩ => within_of_flatIndex h, fun h => ⟨_, flatIndex_of_within hwide h⟩⟩,
    fun indices n h => ⟨eq_rowMajor hwide h, hcount ▸ flatIndex_lt hwide h⟩, hcount,
    fun indices indices' n h h' => ?_, hreached, fun elem data v hv => ?_, fun indices h => if_neg h,
    fun indices hlen h => ?_⟩
  · rw [← indicesAt_rowMajor (within_of_flatIndex h), ← eq_rowMajor hwide h, eq_rowMajor hwide h',
      indicesAt_rowMajor (within_of_flatIndex h')]
  · obtain ⟨hsize, hv⟩ := Option.dite_none_right_eq_some.1 hv
    cases hv
    refine ⟨fun hwhole indices n h => ?_, fun hreads => View.whole_of_reads fun n hn => ?_⟩
    · have hin : (n + 1) * elem.size ≤ data.size := by
        rw [hwhole]
        exact Nat.mul_le_mul_right _ ((flatIndex_lt hwide h).trans_eq hcount.symm)
      exact ⟨hin, View.get_of_le hin⟩
    · obtain ⟨indices, h⟩ := hreached n hn
      exact hreads indices n h
  · rw [flatIndex, if_pos hlen]
    exact position_of_not_within hlen h 0

/-- The last cell of a table of two rows, and indices that miss it on both axes. -/
theorem flatIndex_exact_cells :
    (∀ k, volume (([2, 3] : Shape).take k) < 2 ^ 63) ∧ flatIndex [2, 3] [1, 2] = .ok 5 ∧
      rowMajor [2, 3] [1, 2] = 5 ∧ flatIndex [2, 3] [2, -1] = .error (.indexOutOfBounds 2 2) := by
  have hword : ∀ k, volume (([2, 3] : Shape).take k) < 2 ^ 63 := by
    intro k
    match k with
    | 0 | 1 | k + 2 => simp [volume]
  obtain ⟨-, hpos, -⟩ := flatIndex_exact [2, 3] hword
  exact ⟨hword, rfl, (hpos [1, 2] 5 rfl).1.symm, rfl⟩

/-- The first of `2 ^ 61` doubles has a position, but the buffer that belongs to them as a word is empty. -/
theorem hollow_element_outside :
    (∀ k, volume (([0x2000000000000000] : Shape).take k) < 2 ^ 63) ∧ flatIndex [0x2000000000000000] [0] = .ok 0 ∧
      (View.of? (.real .f64) [0x2000000000000000] #[]).map (·.get 0) = some (.error .crash) := by
  refine ⟨fun k => ?_, by decide +kernel, by decide +kernel⟩
  match k with
  | 0 => decide
  | k + 1 =>
    rw [List.take_succ_cons, List.take_nil]
    decide +kernel

end Shape

end NumericEngine
