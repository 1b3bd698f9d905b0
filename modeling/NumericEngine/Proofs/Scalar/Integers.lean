import Mathlib.Data.Int.ModEq
import NumericEngine.Proofs.Scalar.Canonical

/-!
# Integer arithmetic

The words of an integer kind are its low bits, extended by sign or by zeros, so
a canonical word is the only one for its integer, and a word modulo the width
fixes it. Every operator on integers is then exact: it gives the word of its
result over all integers, reduced to the width, or refuses a result that is out
of range.
-/

namespace NumericEngine

namespace Kind

variable {k : Kind} {a : UInt64}

/-- The bits of a word that its kind keeps. -/
def pattern (k : Kind) (w : UInt64) : BitVec k.width := w.toBitVec.setWidth k.width

theorem width_le (k : Kind) : k.width ≤ 64 := by
  cases k <;> decide

theorem inRange_iff (hk : k.isInt) (v : Int) :
    k.inRange v ↔ if k.isSigned then -2 ^ k.width ≤ 2 * v ∧ 2 * v < 2 ^ k.width else 0 ≤ v ∧ v < 2 ^ k.width := by
  cases k with
  | bool | f32 | f64 => cases hk
  | _ =>
    simp [inRange, minInt, maxInt, isSigned, width]
    omega

theorem toBitVec_canonical (hk : k.isInt) (w : UInt64) :
    (k.canonical w).toBitVec =
      if k.isSigned then (k.pattern w).signExtend 64 else (k.pattern w).setWidth 64 := by
  cases k with
  | bool | f32 | f64 => cases hk
  | i8 | i16 | i32 | i64 | u64 => simp [canonical, pattern, isSigned, width]
  | u8 | u16 | u32 =>
    apply BitVec.eq_of_toNat_eq
    simp only [canonical, pattern, isSigned, width]
    simp
    omega

theorem pattern_canonical (hk : k.isInt) (w : UInt64) : k.pattern (k.canonical w) = k.pattern w := by
  rw [pattern, toBitVec_canonical hk]
  split
  · exact setWidth_signExtend _ k.width_le
  · rw [BitVec.setWidth_setWidth_of_le _ k.width_le, BitVec.setWidth_eq]

theorem inRange_toInt (hk : k.isInt) (ha : k.Canonical a) : k.inRange (k.toInt a) := by
  have hbits := toBitVec_canonical hk a
  rw [show k.canonical a = a from ha] at hbits
  rw [inRange_iff hk, toInt]
  split at hbits
  · rename_i hs
    have hint : a.toInt64.toInt = (k.pattern a).toInt := by
      rw [← BitVec.toInt_signExtend_of_le k.width_le, ← hbits]
      rfl
    rw [if_pos hs, if_pos hs, hint]
    exact ⟨BitVec.le_two_mul_toInt, BitVec.two_mul_toInt_lt⟩
  · rename_i hs
    have hnat : a.toNat = (k.pattern a).toNat := by
      have hle := (k.pattern a).isLt.trans_le (Nat.pow_le_pow_right Nat.two_pos k.width_le)
      rw [← UInt64.toNat_toBitVec, hbits, BitVec.toNat_setWidth, Nat.mod_eq_of_lt hle]
    rw [if_neg hs, if_neg hs, hnat]
    exact ⟨Int.natCast_nonneg _, by exact_mod_cast (k.pattern a).isLt⟩

theorem modEq_toInt (k : Kind) (w : UInt64) : k.toInt w ≡ w.toNat [ZMOD 2 ^ 64] := by
  unfold toInt
  split
  · have hbits : w.toInt64.toInt = (w.toNat : Int).bmod (2 ^ 64) := BitVec.toInt_eq_toNat_bmod _
    rw [hbits]
    exact Int.bmod_emod
  · exact Int.ModEq.refl _

theorem modEq_canonical (hk : k.isInt) (w : UInt64) :
    k.toInt (k.canonical w) ≡ w.toNat [ZMOD 2 ^ k.width] := by
  have hdvd : (2 ^ k.width : Int) ∣ 2 ^ 64 := pow_dvd_pow 2 k.width_le
  refine ((k.modEq_toInt _).of_dvd hdvd).trans ?_
  have hbits := congrArg BitVec.toNat (pattern_canonical hk w)
  simp only [pattern, BitVec.toNat_setWidth, UInt64.toNat_toBitVec] at hbits
  unfold Int.ModEq
  exact_mod_cast hbits

theorem eq_of_modEq (hk : k.isInt) (hx : k.inRange x) (hy : k.inRange y)
    (h : x ≡ y [ZMOD 2 ^ k.width]) : x = y := by
  rw [inRange_iff hk] at hx hy
  have hlt : |y - x| < 2 ^ k.width := by
    split at hx <;> grind
  exact (sub_eq_zero.1 (Int.eq_zero_of_abs_lt_dvd h.dvd hlt)).symm

/-- A word is that of the one integer of the kind that is congruent to `v`. -/
structure Represents (k : Kind) (r : UInt64) (v : Int) : Prop where
  canonical : k.Canonical r
  inRange : k.inRange (k.toInt r)
  modEq : k.toInt r ≡ v [ZMOD 2 ^ k.width]

theorem represents_canonical (hk : k.isInt) {w : UInt64}
    (h : (w.toNat : Int) ≡ v [ZMOD 2 ^ k.width]) : k.Represents (k.canonical w) v where
  canonical := k.canonical_of_canonical w
  inRange := inRange_toInt hk (k.canonical_of_canonical w)
  modEq := (modEq_canonical hk w).trans h

theorem represents_wrap (hk : k.isInt) (v : Int) : k.Represents (k.wrap v) v := by
  refine represents_canonical hk ?_
  have hword : ((UInt64.ofInt v).toNat : Int) ≡ v [ZMOD 2 ^ 64] := by
    have hnat : (UInt64.ofInt v).toNat = (v % 2 ^ 64).toNat :=
      UInt64.toNat_ofNat_of_lt' (by change (v % 2 ^ 64).toNat < 2 ^ 64; omega)
    rw [hnat, Int.toNat_of_nonneg (Int.emod_nonneg v (by decide))]
    exact Int.mod_modEq v _
  exact hword.of_dvd (pow_dvd_pow 2 k.width_le)

theorem toInt_canonical (hk : k.isInt) (h : k.inRange (k.toInt w)) :
    k.toInt (k.canonical w) = k.toInt w := by
  have hmod := (k.modEq_toInt w).of_dvd (pow_dvd_pow 2 k.width_le)
  exact eq_of_modEq hk (inRange_toInt hk (k.canonical_of_canonical w)) h ((modEq_canonical hk w).trans hmod.symm)

theorem Represents.toInt_eq (hk : k.isInt) (h : k.Represents r v) (hv : k.inRange v) : k.toInt r = v :=
  eq_of_modEq hk h.inRange hv h.modEq

end Kind

namespace Scalar

variable {k : Kind} {a b : UInt64}

/-! ## Shifts -/

theorem toNat_amount (hk : k.isInt) (b : UInt64) :
    (b &&& UInt64.ofNat (k.width - 1)).toNat = (k.toInt b % k.width).toNat ∧
      (k.toInt b % k.width).toNat < 64 := by
  have hlow : (b &&& UInt64.ofNat (k.width - 1)).toNat = b.toNat % k.width := by
    cases k with
    | bool | f32 | f64 => cases hk
    | i8 | u8 => exact Nat.and_two_pow_sub_one_eq_mod b.toNat 3
    | i16 | u16 => exact Nat.and_two_pow_sub_one_eq_mod b.toNat 4
    | i32 | u32 => exact Nat.and_two_pow_sub_one_eq_mod b.toNat 5
    | i64 | u64 => exact Nat.and_two_pow_sub_one_eq_mod b.toNat 6
  have hdvd : (k.width : Int) ∣ 2 ^ 64 := by
    cases k <;> decide
  have hmod : k.toInt b % k.width = (b.toNat : Int) % k.width := (k.modEq_toInt b).of_dvd hdvd
  have hpos : 0 < k.width := by
    cases k <;> decide
  rw [hlow, hmod, ← Int.natCast_emod, Int.toNat_natCast]
  exact ⟨rfl, (Nat.mod_lt _ hpos).trans_le k.width_le⟩

theorem toInt_shiftRight (a : UInt64) {amount : UInt64} (h : amount.toNat < 64) :
    (a.toInt64 >>> amount.toInt64).toInt = a.toInt64.toInt / 2 ^ amount.toNat := by
  have hmsb : amount.toBitVec.msb = false := by
    rw [BitVec.msb_eq_false_iff_two_mul_lt]
    exact Nat.lt_of_lt_of_le (Nat.mul_lt_mul_of_pos_left h Nat.two_pos) (by decide)
  have hsmod : (amount.toBitVec.smod 64).toNat = amount.toNat := by
    rw [BitVec.smod_eq, hmsb, show BitVec.msb (64 : BitVec 64) = false from rfl]
    exact Nat.mod_eq_of_lt h
  change (a.toInt64 >>> amount.toInt64).toBitVec.toInt = _
  rw [Int64.toBitVec_shiftRight, BitVec.toInt_sshiftRight']
  change a.toBitVec.toInt >>> (amount.toBitVec.smod 64).toNat = _
  rw [hsmod, Int.shiftRight_eq_div_pow]
  norm_cast

theorem shift_left (hk : k.isInt) (a b : UInt64) :
    k.Represents (shift .shl k a b) (k.toInt a * 2 ^ (k.toInt b % k.width).toNat) := by
  obtain ⟨hamount, hlt⟩ := toNat_amount hk b
  have hword : (a <<< (b &&& UInt64.ofNat (k.width - 1))).toNat =
      a.toNat * 2 ^ (k.toInt b % k.width).toNat % 2 ^ 64 := by
    rw [UInt64.toNat_shiftLeft, hamount, Nat.mod_eq_of_lt hlt, Nat.shiftLeft_eq]
  refine Kind.represents_canonical hk ?_
  rw [if_pos rfl, hword]
  refine Int.ModEq.of_dvd (pow_dvd_pow 2 k.width_le) ?_
  push_cast
  exact (Int.mod_modEq _ _).trans ((k.modEq_toInt a).symm.mul_right _)

theorem inRange_div (hk : k.isInt) (hx : k.inRange x) (s : Nat) : k.inRange (x / 2 ^ s) := by
  have hpos : (0 : Int) < 2 ^ s := Int.pow_pos (by decide)
  have hwidth : (0 : Int) < 2 ^ k.width := Int.pow_pos (by decide)
  -- a quotient lies between its dividend and zero
  have hbounds : min x 0 ≤ x / 2 ^ s ∧ x / 2 ^ s ≤ max x 0 := by
    rcases Int.le_total 0 x with hx | hx
    · have hle := Int.ediv_le_self (2 ^ s) hx
      have hge := Int.ediv_nonneg hx hpos.le
      omega
    · have hle : x / 2 ^ s ≤ 0 := Int.ediv_nonpos_of_nonpos_of_neg hx hpos
      have hge : x ≤ x / 2 ^ s := (Int.le_ediv_iff_mul_le hpos).2
        (by simpa using Int.mul_le_mul_of_nonpos_left hx hpos)
      omega
  rw [Kind.inRange_iff hk] at hx ⊢
  split at hx
  · rw [if_pos ‹_›]
    omega
  · rw [if_neg ‹_›]
    omega

theorem shift_right (hk : k.isInt) (ha : k.Canonical a) (b : UInt64) :
    k.Canonical (shift .shr k a b) ∧
      k.toInt (shift .shr k a b) = k.toInt a / 2 ^ (k.toInt b % k.width).toNat := by
  obtain ⟨hamount, hlt⟩ := toNat_amount hk b
  simp only [shift, reduceCtorEq, if_false]
  generalize b &&& UInt64.ofNat (k.width - 1) = amount at hamount ⊢
  have hword : k.toInt (if k.isSigned then (a.toInt64 >>> amount.toInt64).toUInt64 else a >>> amount) =
      k.toInt a / 2 ^ (k.toInt b % k.width).toNat := by
    rw [← hamount] at hlt ⊢
    unfold Kind.toInt
    cases hs : k.isSigned with
    | true => exact toInt_shiftRight a hlt
    | false => simp [Nat.mod_eq_of_lt hlt, Nat.shiftRight_eq_div_pow]
  have hrange := inRange_div hk (Kind.inRange_toInt hk ha) (k.toInt b % k.width).toNat
  rw [← hword] at hrange ⊢
  exact ⟨k.canonical_of_canonical _, Kind.toInt_canonical hk hrange⟩

/-! ## Operators -/

/-- The outcome of an operator whose exact result is `v`: its word where `v` is in range; else the word
of its residue, or a refusal where that is checked. -/
def Exact (k : Kind) (checked : Bool) (v : Int) (out : Except ArithError UInt64) : Prop :=
  if k.inRange v then ∃ r, out = .ok r ∧ k.Canonical r ∧ k.toInt r = v
  else if checked then out = .error .overflow
  else ∃ r, out = .ok r ∧ k.Represents r v

theorem exact_fit (hk : k.isInt) (checked : Bool) (h : exactResult? op (k.toInt a) (k.toInt b) = some v) :
    Exact k checked v (fit op k a b checked v) := by
  have hwrap := Kind.represents_wrap hk v
  rw [fit_eq h]
  unfold Exact
  by_cases hv : k.inRange v
  · rw [if_pos hv, hv]
    exact ⟨_, by simp, hwrap.canonical, hwrap.toInt_eq hk hv⟩
  · rw [if_neg hv, eq_false_of_ne_true hv]
    cases checked with
    | true => rfl
    | false => exact ⟨_, rfl, hwrap⟩

/-- What an operator answers for two integers of a kind. -/
def IntegerAnswer (op : ArithOp) (k : Kind) (a b : UInt64) (checked : Bool)
    (out : Except ArithError UInt64) : Prop :=
  let x := k.toInt a
  let y := k.toInt b
  let s := (y % k.width).toNat
  match op with
  | .add => Exact k checked (x + y) out
  | .sub => Exact k checked (x - y) out
  | .mul => Exact k checked (x * y) out
  | .div => if y = 0 then out = .error .divisionByZero else Exact k checked (x.tdiv y) out
  | .rem => if y = 0 then out = .error .divisionByZero else Exact k checked (x.tmod y) out
  | .shl =>
    if checked ∧ (y < 0 ∨ k.width ≤ y) then out = .error .overflow
    else ∃ r, out = .ok r ∧ k.Represents r (x * 2 ^ s)
  | .shr =>
    if checked ∧ (y < 0 ∨ k.width ≤ y) then out = .error .overflow
    else ∃ r, out = .ok r ∧ k.Canonical r ∧ k.toInt r = x / 2 ^ s
  | .and => ∃ r, out = .ok r ∧ k.Canonical r ∧ k.pattern r = k.pattern a &&& k.pattern b
  | .or => ∃ r, out = .ok r ∧ k.Canonical r ∧ k.pattern r = k.pattern a ||| k.pattern b
  | .xor => ∃ r, out = .ok r ∧ k.Canonical r ∧ k.pattern r = k.pattern a ^^^ k.pattern b

theorem binary_of_isInt (hk : k.isInt) : binary op k a b checked = intBinary op k a b checked := by
  cases k <;> first | rfl | cases hk

/-- Integer arithmetic is exact. -/
theorem integer_binary_exact (op : ArithOp) (hk : k.isInt) (ha : k.Canonical a) (b : UInt64)
    (checked : Bool) : IntegerAnswer op k a b checked (binary op k a b checked) := by
  rw [binary_of_isInt hk]
  cases op with
  | add | sub | mul => exact exact_fit hk checked rfl
  | div | rem =>
    simp only [IntegerAnswer, intBinary, ArithOp.divides, Bool.true_and, decide_eq_true_eq]
    split
    · rfl
    · exact exact_fit hk checked rfl
  | shl =>
    simp only [IntegerAnswer, intBinary, Bool.and_eq_true, Bool.or_eq_true, decide_eq_true_eq]
    split
    · rfl
    · exact ⟨_, rfl, shift_left hk a b⟩
  | shr =>
    simp only [IntegerAnswer, intBinary, Bool.and_eq_true, Bool.or_eq_true, decide_eq_true_eq]
    split
    · rfl
    · exact ⟨_, rfl, shift_right hk ha b⟩
  | and | or | xor =>
    refine ⟨_, rfl, k.canonical_of_canonical _, ?_⟩
    rw [Kind.pattern_canonical hk]
    simp [Kind.pattern]

/-- The least integer of a kind has no opposite. -/
theorem integer_binary_exact_least :
    IntegerAnswer .div .i8 (-128) (-1) true (binary .div .i8 (-128) (-1) true) ∧
      binary .div .i8 (-128) (-1) true = .error .overflow ∧
      binary .div .i8 (-128) (-1) false = .ok (-128) :=
  ⟨integer_binary_exact .div (by decide) (by decide) (-1) true, by decide, by decide⟩

end Scalar

end NumericEngine
