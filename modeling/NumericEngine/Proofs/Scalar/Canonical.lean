import NumericEngine.Proofs.Word.Bytes
import NumericEngine.Scalar.Complex

/-!
# Canonical words

Every scalar operation gives a canonical word, and supports every operator of
its kind: on operands of the right kind only a checked overflow or a division by
zero stops it.
-/

namespace NumericEngine

theorem setWidth_signExtend (x : BitVec w) (h : w ≤ v) : (x.signExtend v).setWidth w = x := by
  ext i hi
  simp only [BitVec.getElem_setWidth, BitVec.getLsbD_signExtend]
  simp [hi, show i < v by omega]

namespace Kind

theorem canonical_canonical (k : Kind) (w : UInt64) : k.canonical (k.canonical w) = k.canonical w := by
  cases k with
  | bool =>
    simp only [canonical]
    split <;> rfl
  | i8 | i16 | i32 =>
    simp only [canonical]
    apply UInt64.eq_of_toBitVec_eq
    simp [setWidth_signExtend]
  | u8 => simp only [canonical, UInt8.toUInt8_toUInt64]
  | u16 => simp only [canonical, UInt16.toUInt16_toUInt64]
  | u32 | f32 => simp only [canonical, UInt32.toUInt32_toUInt64]
  | i64 | u64 | f64 => rfl

theorem canonical_of_canonical (k : Kind) (w : UInt64) : k.Canonical (k.canonical w) :=
  k.canonical_canonical w

@[simp] theorem canonical_zero (k : Kind) : k.canonical 0 = 0 := by
  cases k <;> decide

theorem canonical_f32_iff : Kind.f32.Canonical w ↔ w.toNat < 2 ^ 32 := by
  simp only [Canonical, canonical, ← UInt64.toNat_inj, UInt32.toNat_toUInt64, UInt64.toNat_toUInt32]
  omega

theorem canonical_f32_toUInt64 (w : UInt32) : Kind.f32.Canonical w.toUInt64 := by
  simp only [Canonical, canonical, UInt32.toUInt32_toUInt64]

theorem canonical_bool_iff : Kind.bool.Canonical w ↔ w = 0 ∨ w = 1 := by
  unfold Canonical canonical
  grind

theorem size_le (k : Kind) : k.size ≤ 8 := by
  cases k <;> decide

theorem read_bytes {k : Kind} (h : k.Canonical w) (rest : List UInt8) :
    k.read (k.bytes w ++ rest) = w := by
  have htake : (k.bytes w ++ rest).take k.size = leBytes k.size w := by
    rw [bytes, List.take_left' (length_leBytes _ _)]
  rw [read, htake]
  have hmod := toNat_ofLeBytes_leBytes k.size_le w
  generalize ofLeBytes (leBytes k.size w) = x at hmod
  have h8 (hs : k.size = 1) : x.toUInt8 = w.toUInt8 := by
    rw [← UInt8.toNat_inj, UInt64.toNat_toUInt8, UInt64.toNat_toUInt8, hmod, hs]
    exact Nat.mod_mod _ _
  have h16 (hs : k.size = 2) : x.toUInt16 = w.toUInt16 := by
    rw [← UInt16.toNat_inj, UInt64.toNat_toUInt16, UInt64.toNat_toUInt16, hmod, hs]
    exact Nat.mod_mod _ _
  have h32 (hs : k.size = 4) : x.toUInt32 = w.toUInt32 := by
    rw [← UInt32.toNat_inj, UInt64.toNat_toUInt32, UInt64.toNat_toUInt32, hmod, hs]
    exact Nat.mod_mod _ _
  have h64 (hs : k.size = 8) : x = w := by
    rw [← UInt64.toNat_inj, hmod, hs]
    exact Nat.mod_eq_of_lt w.toNat_lt
  cases k with
  | bool =>
    rcases canonical_bool_iff.1 h with rfl | rfl
    · rw [show x = 0 from UInt64.toNat_inj.1 hmod]
      rfl
    · rw [show x = 1 from UInt64.toNat_inj.1 hmod]
      rfl
  | i8 | u8 =>
    rw [Canonical, canonical] at h
    rw [canonical, h8 rfl, h]
  | i16 | u16 =>
    rw [Canonical, canonical] at h
    rw [canonical, h16 rfl, h]
  | i32 | u32 | f32 =>
    rw [Canonical, canonical] at h
    rw [canonical, h32 rfl, h]
  | i64 | u64 | f64 => rw [canonical, h64 rfl]

end Kind

/-! ## Floats -/

namespace Floating

theorem canonical_quiet_f32 (w : UInt64) : Kind.f32.Canonical (quiet .f32 w) := by
  have hw := Kind.canonical_f32_iff.1 (Kind.canonical_of_canonical .f32 w)
  rw [Kind.canonical_f32_iff, quiet, UInt64.toNat_or]
  exact Nat.or_lt_two_pow hw (by decide)

theorem canonical_settle_f32 (hr : Kind.f32.Canonical r) : Kind.f32.Canonical (settle .f32 a b r) := by
  unfold settle
  split
  · exact canonical_quiet_f32 a
  split
  · exact canonical_quiet_f32 b
  split
  · decide
  · exact hr

theorem canonical_narrow (w : UInt64) : Kind.f32.Canonical (narrow w) := by
  unfold narrow
  split
  · rw [Kind.canonical_f32_iff]
    simp only [UInt64.toNat_or, UInt64.toNat_and]
    refine Nat.or_lt_two_pow (Nat.or_lt_two_pow ?_ ?_) (by decide)
    · exact Nat.lt_of_le_of_lt Nat.and_le_right (by decide)
    · exact Nat.lt_of_le_of_lt Nat.and_le_right (by decide)
  · exact Kind.canonical_f32_toUInt64 _

theorem canonical_arithF32 (h : arithF32? op a b = some r) : Kind.f32.Canonical r := by
  cases op with
  | add | sub | mul | div =>
    cases h
    exact canonical_settle_f32 (Kind.canonical_f32_toUInt64 _)
  | rem =>
    cases h
    exact canonical_settle_f32 (canonical_narrow _)
  | and | or | xor | shl | shr => cases h

theorem canonical_arith (h : arith? k op a b = some r) : k.Canonical r := by
  cases k with
  | f32 => exact canonical_arithF32 h
  | f64 => rfl
  | _ => cases h

theorem arith_isSome {k : Kind} (hk : k.isFloat) {op : ArithOp} (hop : op.onFloats) (a b : UInt64) :
    ∃ r, arith? k op a b = some r := by
  cases k with
  | f32 | f64 => cases op <;> first | exact ⟨_, rfl⟩ | cases hop
  | _ => cases hk

end Floating

namespace Scalar

variable {k : Kind}

theorem canonical_neg (hk : k.isFloat) (a : UInt64) (checked : Bool) :
    ∃ r, unary .neg k a checked = .ok r ∧ k.Canonical r := by
  cases k with
  | f64 => exact ⟨_, rfl, rfl⟩
  | f32 =>
    refine ⟨_, rfl, ?_⟩
    have ha := Kind.canonical_f32_iff.1 (Kind.canonical_of_canonical .f32 a)
    rw [Kind.canonical_f32_iff, UInt64.toNat_xor]
    exact Nat.xor_lt_two_pow ha (by decide)
  | _ => cases hk

theorem eq_some_of_elim {x : Option α} (h : x.elim (.error e) .ok = Except.ok a) : x = some a := by
  cases x with
  | none => cases h
  | some b => exact congrArg some (Except.ok.inj h)

theorem canonical_and_one (w : UInt64) : Kind.bool.Canonical (w &&& 1) := by
  have hle : (w &&& 1).toNat ≤ 1 := by
    rw [UInt64.toNat_and]
    exact Nat.and_le_right
  rw [Kind.canonical_bool_iff, ← UInt64.toNat_inj, ← UInt64.toNat_inj]
  exact Nat.le_one_iff_eq_zero_or_eq_one.1 hle

/-! ## Results that 128 bits hold -/

theorem toInt_bounds (k : Kind) (w : UInt64) : -0x8000000000000000 ≤ k.toInt w ∧
    k.toInt w ≤ if k.isSigned then 0x7fffffffffffffff else 0xffffffffffffffff := by
  unfold Kind.toInt
  split
  · have := w.toInt64.le_toInt
    have := w.toInt64.toInt_lt
    omega
  · have := w.toNat_lt
    omega

theorem wide_of_inRange (h : k.inRange v) : wide? v = some v := by
  refine if_pos ?_
  cases k <;> simp [Kind.inRange, Kind.minInt, Kind.maxInt, Kind.isSigned, Kind.width] at h <;> omega

theorem eq_of_wide (h : wide? v = some u) : u = v := by
  unfold wide? at h
  split at h
  · exact (Option.some.inj h).symm
  · cases h

/-- Only products of unsigned words can be too large. -/
theorem wide_exactResult {k : Kind} {a b : UInt64} (h : exactResult? op (k.toInt a) (k.toInt b) = some v) :
    wide? v = some v ∨ (op = .mul ∧ k.isSigned = false) := by
  have ha := toInt_bounds k a
  have hb := toInt_bounds k b
  cases op with
  | add | sub =>
    cases h
    exact .inl (if_pos (by split at ha <;> omega))
  | mul =>
    cases h
    cases hs : k.isSigned with
    | false => exact .inr ⟨rfl, rfl⟩
    | true =>
      rw [hs, if_pos rfl] at ha hb
      have hprod : (k.toInt a * k.toInt b).natAbs ≤ 0x8000000000000000 * 0x8000000000000000 := by
        rw [Int.natAbs_mul]
        exact Nat.mul_le_mul (by omega) (by omega)
      exact .inl (if_pos (by omega))
  | div =>
    cases h
    have := Int.natAbs_tdiv_le_natAbs (k.toInt a) (k.toInt b)
    exact .inl (if_pos (by split at ha <;> omega))
  | rem =>
    cases h
    have := Int.natAbs_tmod (k.toInt a) (k.toInt b)
    have := Nat.mod_le (k.toInt a).natAbs (k.toInt b).natAbs
    exact .inl (if_pos (by split at ha <;> omega))
  | _ => cases h

/-- The product of the words is that of the integers, modulo the width. -/
theorem fit_eq {k : Kind} {a b : UInt64} (h : exactResult? op (k.toInt a) (k.toInt b) = some v) :
    fit op k a b checked v = if checked && !k.inRange v then .error .overflow else .ok (k.wrap v) := by
  unfold fit
  cases hv : wide? v with
  | some u => rw [eq_of_wide hv]
  | none =>
    obtain ⟨rfl, hs⟩ := (wide_exactResult h).resolve_left (by rw [hv]; nofun)
    cases h
    have hout : k.inRange (k.toInt a * k.toInt b) = false := by
      refine eq_false_of_ne_true fun hin => ?_
      cases (wide_of_inRange hin).symm.trans hv
    have hprod : UInt64.ofInt (k.toInt a * k.toInt b) = a * b := by
      rw [Kind.toInt, Kind.toInt, hs, ← UInt64.toNat_inj, UInt64.toNat_mul]
      change (UInt64.ofNat ((a.toNat : Int) * b.toNat % 0x10000000000000000).toNat).toNat = _
      rw [UInt64.toNat_ofNat_of_lt' (by change _ < 0x10000000000000000; omega)]
      omega
    simp [Kind.wrap, hprod, hout]

/-! ## Operators -/

theorem canonical_fit {a b : UInt64} (h : fit op k a b checked v = .ok r) : k.Canonical r := by
  unfold fit at h
  split at h
  all_goals
    split at h
    · cases h
    · cases h
      exact k.canonical_of_canonical _

theorem canonical_intBinary (h : intBinary op k a b checked = .ok r) : k.Canonical r := by
  cases op with
  | and | or | xor =>
    cases h
    exact k.canonical_of_canonical _
  | shl | shr =>
    simp only [intBinary] at h
    split at h
    · cases h
    · cases h
      exact k.canonical_of_canonical _
  | add | sub | mul | div | rem =>
    simp only [intBinary, exactResult?] at h
    split at h
    · cases h
    · exact canonical_fit h

theorem canonical_binary (h : binary op k a b checked = .ok r) : k.Canonical r := by
  cases k with
  | f32 | f64 => exact Floating.canonical_arith (eq_some_of_elim h)
  | bool =>
    cases op with
    | and | or | xor =>
      cases h
      exact canonical_and_one _
    | _ => cases h
  | _ => exact canonical_intBinary h

/-! ## Operators that a kind has -/

/-- Whether numbers of a kind have a binary operator. -/
def supports (op : ArithOp) (k : Kind) : Bool :=
  if k.isFloat then op.onFloats
  else if k = .bool then op = .and || op = .or || op = .xor
  else true

/-- Whether numbers of a kind have a unary operator. -/
def supportsUnary (op : UnaryOp) (k : Kind) : Bool :=
  if k.isFloat then op ≠ .not
  else if k = .bool then op = .not
  else op ≠ .sqrt

theorem intBinary_ne_unsupported (op : ArithOp) (k : Kind) (a b : UInt64) (checked : Bool) :
    intBinary op k a b checked ≠ .error .unsupported := by
  cases op with
  | and | or | xor => simp [intBinary]
  | shl | shr =>
    simp only [intBinary]
    split <;> simp
  | add | sub | mul | div | rem =>
    simp only [intBinary, exactResult?]
    split
    · simp
    · rw [fit_eq rfl]
      split <;> simp

theorem binary_of_int (hf : k.isFloat = false) (hb : k ≠ .bool) (op : ArithOp)
    (a b : UInt64) (checked : Bool) : binary op k a b checked = intBinary op k a b checked := by
  cases k <;> first | rfl | contradiction

theorem binary_ne_unsupported (h : supports op k) (a b : UInt64)
    (checked : Bool) : binary op k a b checked ≠ .error .unsupported := by
  by_cases hf : k.isFloat
  · have hop : op.onFloats := by simpa [supports, hf] using h
    obtain ⟨r, hr⟩ := Floating.arith_isSome hf hop a b
    cases k with
    | f32 | f64 => simp [binary, hr]
    | _ => cases hf
  · by_cases hb : k = .bool
    · subst hb
      cases op with
      | and | or | xor => simp [binary, boolBinary]
      | _ => simp [supports, Kind.isFloat] at h
    · rw [binary_of_int (by simpa using hf) hb]
      exact intBinary_ne_unsupported op k a b checked

theorem binary_isOk (h : supports op k) (hd : op.divides = false)
    (a b : UInt64) : ∃ r, binary op k a b false = .ok r := by
  by_cases hf : k.isFloat
  · have hop : op.onFloats := by simpa [supports, hf] using h
    obtain ⟨r, hr⟩ := Floating.arith_isSome hf hop a b
    cases k with
    | f32 | f64 => exact ⟨r, by simp [binary, hr]⟩
    | _ => cases hf
  · by_cases hb : k = .bool
    · subst hb
      cases op with
      | and | or | xor => exact ⟨_, rfl⟩
      | _ => simp [supports, Kind.isFloat] at h
    · rw [binary_of_int (by simpa using hf) hb]
      cases op with
      | div | rem => cases hd
      | add | sub | mul => exact ⟨_, fit_eq rfl⟩
      | _ => simp [intBinary]

theorem supports_of_int (hf : k.isFloat = false) (hb : k ≠ .bool) (op : ArithOp) : supports op k := by
  simp [supports, hf, hb]

theorem unary_of_int (hf : k.isFloat = false) (hb : k ≠ .bool) (op : UnaryOp) (a : UInt64) (checked : Bool) :
    unary op k a checked = match op with
      | .not => .ok (k.canonical (~~~a))
      | .neg => binary .sub k 0 a checked
      | .abs => if k.isSigned && a.toInt64 < 0 then binary .sub k 0 a checked else .ok a
      | .sqrt => .error .unsupported := by
  cases k <;> first | rfl | contradiction

theorem unary_ne_unsupported (h : supportsUnary op k) (a : UInt64)
    (checked : Bool) : unary op k a checked ≠ .error .unsupported := by
  by_cases hf : k.isFloat
  · cases k with
    | f32 | f64 => cases op <;> first | (simp [unary]; done) | cases h
    | _ => cases hf
  · by_cases hb : k = .bool
    · subst hb
      cases op <;> first | (simp [unary]; done) | cases h
    · have hf := eq_false_of_ne_true hf
      have hsub := binary_ne_unsupported (supports_of_int hf hb .sub) 0 a checked
      rw [unary_of_int hf hb]
      cases op with
      | not => simp
      | neg => exact hsub
      | abs =>
        simp only
        split
        · exact hsub
        · simp
      | sqrt => simp [supportsUnary, hf, hb] at h

theorem unary_isOk (h : supportsUnary op k) (a : UInt64) : ∃ r, unary op k a false = .ok r := by
  by_cases hf : k.isFloat
  · cases k with
    | f32 | f64 => cases op <;> first | exact ⟨_, rfl⟩ | cases h
    | _ => cases hf
  · by_cases hb : k = .bool
    · subst hb
      cases op <;> first | exact ⟨_, rfl⟩ | cases h
    · have hf := eq_false_of_ne_true hf
      have hsub := binary_isOk (supports_of_int hf hb .sub) rfl 0 a
      rw [unary_of_int hf hb]
      cases op with
      | not => exact ⟨_, rfl⟩
      | neg => exact hsub
      | abs =>
        simp only
        split
        · exact hsub
        · exact ⟨_, rfl⟩
      | sqrt => simp [supportsUnary, hf, hb] at h

end Scalar

namespace Complex

/-- Whether complex numbers have a binary operator. -/
def supports : ArithOp → Bool
  | .add | .sub | .mul | .div => true
  | _ => false

theorem binary_isOk (hop : supports op) {k : Kind} (hk : k.isFloat) (a b : Parts) :
    ∃ p, binary op k a b = .ok p ∧ k.Canonical p.1 ∧ k.Canonical p.2 := by
  have total (op : ArithOp) (hop : op.onFloats) (x y : UInt64) :
      ∃ r, Floating.arith? k op x y = some r ∧ k.Canonical r := by
    obtain ⟨r, hr⟩ := Floating.arith_isSome hk hop x y
    exact ⟨r, hr, Floating.canonical_arith hr⟩
  cases op with
  | add =>
    obtain ⟨re, hre, cre⟩ := total .add rfl a.1 b.1
    obtain ⟨im, him, cim⟩ := total .add rfl a.2 b.2
    exact ⟨(re, im), by simp [binary, parts?, hre, him], cre, cim⟩
  | sub =>
    obtain ⟨re, hre, cre⟩ := total .sub rfl a.1 b.1
    obtain ⟨im, him, cim⟩ := total .sub rfl a.2 b.2
    exact ⟨(re, im), by simp [binary, parts?, hre, him], cre, cim⟩
  | mul =>
    obtain ⟨x, hx, -⟩ := total .mul rfl a.1 b.1
    obtain ⟨y, hy, -⟩ := total .mul rfl a.2 b.2
    obtain ⟨z, hz, -⟩ := total .mul rfl a.1 b.2
    obtain ⟨w, hw, -⟩ := total .mul rfl a.2 b.1
    obtain ⟨re, hre, cre⟩ := total .sub rfl x y
    obtain ⟨im, him, cim⟩ := total .add rfl z w
    exact ⟨(re, im), by simp [binary, parts?, hx, hy, hz, hw, hre, him], cre, cim⟩
  | div =>
    obtain ⟨x, hx, -⟩ := total .mul rfl b.1 b.1
    obtain ⟨y, hy, -⟩ := total .mul rfl b.2 b.2
    obtain ⟨d, hd, -⟩ := total .add rfl x y
    obtain ⟨p, hp, -⟩ := total .mul rfl a.1 b.1
    obtain ⟨q, hq, -⟩ := total .mul rfl a.2 b.2
    obtain ⟨s, hs, -⟩ := total .add rfl p q
    obtain ⟨t, ht, -⟩ := total .mul rfl a.2 b.1
    obtain ⟨u, hu, -⟩ := total .mul rfl a.1 b.2
    obtain ⟨v, hv, -⟩ := total .sub rfl t u
    obtain ⟨re, hre, cre⟩ := total .div rfl s d
    obtain ⟨im, him, cim⟩ := total .div rfl v d
    exact ⟨(re, im), by simp [binary, parts?, hx, hy, hd, hp, hq, hs, ht, hu, hv, hre, him], cre, cim⟩
  | _ => cases hop

theorem canonical_binary {k : Kind} (h : binary op k a b = .ok p) : k.Canonical p.1 ∧ k.Canonical p.2 := by
  have h := Scalar.eq_some_of_elim h
  cases op with
  | add | sub | mul | div =>
    simp only [parts?, Option.bind_eq_bind, Option.bind_eq_some_iff, Option.pure_def, Option.some.injEq] at h
    grind [Floating.canonical_arith]
  | _ => cases h

theorem neg_isOk {k : Kind} (hk : k.isFloat) (a : Parts) :
    ∃ p, neg k a = .ok p ∧ k.Canonical p.1 ∧ k.Canonical p.2 := by
  obtain ⟨re, hre, cre⟩ := Scalar.canonical_neg hk a.1 false
  obtain ⟨im, him, cim⟩ := Scalar.canonical_neg hk a.2 false
  exact ⟨(re, im), by rw [neg, hre, him]; rfl, cre, cim⟩

theorem conj_isOk {k : Kind} (hk : k.isFloat) (ha : k.Canonical a.1) :
    ∃ p, conj k a = .ok p ∧ k.Canonical p.1 ∧ k.Canonical p.2 := by
  obtain ⟨im, him, cim⟩ := Scalar.canonical_neg hk a.2 false
  exact ⟨(a.1, im), by rw [conj, him]; rfl, ha, cim⟩

end Complex

end NumericEngine

