import NumericEngine.Word.Bytes
import Mathlib.Algebra.Order.Ring.Nat
import Mathlib.Data.Nat.Bitwise

/-!
# Laws of little-endian words

Up to eight bytes and the word that they stand for determine each other.
-/

namespace NumericEngine

theorem toNat_ofLeBytes_lt {bs : List UInt8} (h : bs.length ≤ 8) :
    (ofLeBytes bs).toNat < 2 ^ (8 * bs.length) := by
  induction bs with
  | nil => simp [ofLeBytes]
  | cons b bs ih =>
    have hlen : bs.length ≤ 7 := Nat.le_of_succ_le_succ h
    have hb : b.toNat < 2 ^ 8 := b.toNat_lt
    have hrest := ih (by omega)
    have hpow : 2 ^ (8 * (bs.length + 1)) = 2 ^ (8 * bs.length) * 2 ^ 8 := by rw [← pow_add]; congr 1
    simp only [ofLeBytes, UInt64.toNat_or, UInt64.toNat_shiftLeft, UInt8.toNat_toUInt64,
      List.length_cons]
    refine Nat.or_lt_two_pow ?_ ?_
    · calc b.toNat < 2 ^ 8 := hb
        _ ≤ 2 ^ (8 * (bs.length + 1)) := Nat.pow_le_pow_right (by omega) (by omega)
    · refine lt_of_le_of_lt (Nat.mod_le _ _) ?_
      rw [Nat.shiftLeft_eq, hpow]
      exact Nat.mul_lt_mul_of_pos_right hrest (by decide)

theorem toNat_ofLeBytes_cons {bs : List UInt8} (h : bs.length ≤ 7) :
    (ofLeBytes (b :: bs)).toNat = b.toNat + 2 ^ 8 * (ofLeBytes bs).toNat := by
  have hb : b.toNat < 2 ^ 8 := b.toNat_lt
  have hrest : (ofLeBytes bs).toNat < 2 ^ (8 * bs.length) := toNat_ofLeBytes_lt (by omega)
  have hlt : (ofLeBytes bs).toNat * 2 ^ 8 < 2 ^ 64 := by
    calc (ofLeBytes bs).toNat * 2 ^ 8 < 2 ^ (8 * bs.length) * 2 ^ 8 :=
          Nat.mul_lt_mul_of_pos_right hrest (by decide)
      _ = 2 ^ (8 * bs.length + 8) := by rw [← pow_add]
      _ ≤ 2 ^ 64 := Nat.pow_le_pow_right (by omega) (by omega)
  simp only [ofLeBytes, UInt64.toNat_or, UInt64.toNat_shiftLeft, UInt8.toNat_toUInt64]
  have h8 : (8 : UInt64).toNat % 64 = 8 := rfl
  rw [h8, Nat.shiftLeft_eq, Nat.mod_eq_of_lt hlt, Nat.or_comm, Nat.mul_comm,
    ← Nat.two_pow_add_eq_or_of_lt hb, Nat.add_comm]

theorem leBytes_ofLeBytes {bs : List UInt8} (h : bs.length ≤ 8) :
    leBytes bs.length (ofLeBytes bs) = bs := by
  induction bs with
  | nil => rfl
  | cons b bs ih =>
    have hlen : bs.length ≤ 7 := Nat.le_of_succ_le_succ h
    have hb : b.toNat < 2 ^ 8 := b.toNat_lt
    have hcons := toNat_ofLeBytes_cons (b := b) hlen
    have hlow : (ofLeBytes (b :: bs)).toUInt8 = b := by
      apply UInt8.toNat_inj.1
      rw [UInt64.toNat_toUInt8, hcons]
      omega
    have hhigh : ofLeBytes (b :: bs) >>> 8 = ofLeBytes bs := by
      apply UInt64.toNat_inj.1
      have h8 : (8 : UInt64).toNat % 64 = 8 := rfl
      rw [UInt64.toNat_shiftRight, h8, hcons, Nat.shiftRight_eq_div_pow]
      omega
    rw [List.length_cons, leBytes, hlow, hhigh, ih (by omega)]

theorem toNat_ofLeBytes_leBytes (h : n ≤ 8) (w : UInt64) :
    (ofLeBytes (leBytes n w)).toNat = w.toNat % 2 ^ (8 * n) := by
  induction n generalizing w with
  | zero => simp [leBytes, ofLeBytes, Nat.mod_one]
  | succ n ih =>
    have h8 : (8 : UInt64).toNat % 64 = 8 := rfl
    have hpow : 2 ^ (8 * (n + 1)) = 2 ^ 8 * 2 ^ (8 * n) := by
      rw [← pow_add]; congr 1; omega
    rw [leBytes, toNat_ofLeBytes_cons (by simp; omega), ih (by omega), UInt64.toNat_shiftRight, h8,
      UInt64.toNat_toUInt8, Nat.shiftRight_eq_div_pow, hpow, Nat.mod_mul]

theorem ofLeBytes_leBytes (h : n ≤ 8) {w : UInt64} (hw : w.toNat < 2 ^ (8 * n)) :
    ofLeBytes (leBytes n w) = w := by
  apply UInt64.toNat_inj.1
  rw [toNat_ofLeBytes_leBytes h, Nat.mod_eq_of_lt hw]

end NumericEngine

