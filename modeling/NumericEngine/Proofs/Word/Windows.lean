import Mathlib.Data.List.Basic
import NumericEngine.Word.Bytes

/-!
# Windows of a buffer

Overwriting a window replaces the bytes in it and no others.
-/

namespace NumericEngine.Bytes

variable {b : Bytes} {start n : Nat}

theorem window_eq (b : Bytes) (start n : Nat) : b.window start n = (b.toList.drop start).take n := by
  simp [window, List.extract_eq_take_drop]

theorem length_window (h : start + n ≤ b.size) : (b.window start n).length = n := by
  simp [window]
  omega

theorem getElem?_overwrite (b : Bytes) (start : Nat) (src : List UInt8) (i : Nat) :
    (b.overwrite start src)[i]? =
      if start ≤ i ∧ i < start + src.length ∧ i < b.size then src[i - start]? else b[i]? := by
  induction src generalizing b start with
  | nil =>
    rw [overwrite, if_neg]
    simp
    omega
  | cons x src ih =>
    rw [overwrite, ih, Array.size_setIfInBounds, Array.getElem?_setIfInBounds, List.length_cons]
    rcases Nat.lt_trichotomy i start with hlt | rfl | hgt
    · rw [if_neg (by omega), if_neg (by omega), if_neg (by omega)]
    · rw [if_neg (by omega), if_pos rfl, Nat.sub_self, List.getElem?_cons_zero]
      by_cases hsize : i < b.size
      · rw [if_pos hsize, if_pos (by omega)]
      · rw [if_neg hsize, if_neg (by omega), Array.getElem?_eq_none (by omega)]
    · have hsub : i - start = i - (start + 1) + 1 := by omega
      rw [hsub, List.getElem?_cons_succ, if_neg (Nat.ne_of_lt hgt)]
      by_cases hin : i < start + (src.length + 1) ∧ i < b.size
      · rw [if_pos (by omega), if_pos (by omega)]
      · rw [if_neg (by omega), if_neg (by omega)]

theorem getElem?_window (b : Bytes) (start n i : Nat) :
    (b.window start n)[i]? = if i < n then b[start + i]? else none := by
  rw [window_eq, List.getElem?_take]
  split
  · rw [List.getElem?_drop]
    simp
  · rfl

theorem window_overwrite (h : start + src.length ≤ b.size) :
    (b.overwrite start src).window start src.length = src := by
  refine List.ext_getElem? fun i => ?_
  rw [getElem?_window, getElem?_overwrite]
  split
  · rw [if_pos (by omega), Nat.add_sub_cancel_left]
  · rw [List.getElem?_eq_none (by omega)]

/-- A window that shares no byte with what was written stays. -/
theorem window_overwrite_apart (h : ∀ i, start ≤ i → i < start + src.length → ¬ (s ≤ i ∧ i < s + n)) :
    (b.overwrite start src).window s n = b.window s n := by
  refine List.ext_getElem? fun i => ?_
  rw [getElem?_window, getElem?_window]
  split
  · rw [getElem?_overwrite, if_neg]
    rintro ⟨hle, hlt, -⟩
    exact h (s + i) hle hlt (by omega)
  · rfl

theorem window_append (c : Bytes) (h : start + n ≤ b.size) : (b ++ c).window start n = b.window start n := by
  refine List.ext_getElem? fun i => ?_
  rw [getElem?_window, getElem?_window]
  split
  · rw [Array.getElem?_append_left (by omega)]
  · rfl

theorem window_shrink (h : start + n ≤ k) : window (b.shrink k) start n = b.window start n := by
  rw [window_eq, window_eq, Array.toList_shrink, List.drop_take, List.take_take,
    Nat.min_eq_left (by omega)]

end NumericEngine.Bytes

