/-!
# Sizes as words

Sizes, offsets and counts are words. A sum or a product that leaves the words
starts again from zero, so it is exact below `2 ^ 64` only.
-/

namespace NumericEngine.Word

/-- The sum of two sizes. -/
def add (a b : Nat) : Nat := (a + b) % 0x10000000000000000

/-- The product of two sizes. -/
def mul (a b : Nat) : Nat := a * b % 0x10000000000000000

theorem add_lt (a b : Nat) : add a b < 0x10000000000000000 := Nat.mod_lt _ (by decide)

theorem mul_lt (a b : Nat) : mul a b < 0x10000000000000000 := Nat.mod_lt _ (by decide)

theorem add_of_lt {a b : Nat} (h : a + b < 0x10000000000000000) : add a b = a + b := Nat.mod_eq_of_lt h

theorem mul_of_lt {a b : Nat} (h : a * b < 0x10000000000000000) : mul a b = a * b := Nat.mod_eq_of_lt h

theorem mul_le (a b : Nat) : mul a b ≤ a * b := Nat.mod_le _ _

end NumericEngine.Word
