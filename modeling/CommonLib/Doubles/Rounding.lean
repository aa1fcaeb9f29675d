import Mathlib.Algebra.Group.Nat.Defs
import Mathlib.Algebra.Order.Ring.Nat

/- Whole numbers in a binary floating-point format of so many bits. -/
namespace Doubles

def unit (p n : Nat) : Nat := 2 ^ (Nat.log2 n + 1 - p)

/-- The nearest number with `p` bits, ties to the even one. -/
def nearest (p n : Nat) : Nat :=
  let low := n / unit p n * unit p n
  if 2 * (n % unit p n) < unit p n ∨ 2 * (n % unit p n) = unit p n ∧ n / unit p n % 2 = 0 then low
  else low + unit p n

theorem unit_pos (p n : Nat) : 0 < unit p n := Nat.two_pow_pos _

theorem unit_small {p n : Nat} (small : n < 2 ^ p) (some_ : 0 < p) : unit p n = 1 := by
  have bits : Nat.log2 n + 1 - p = 0 := by
    by_cases zero : n = 0
    · subst zero
      rw [Nat.log2_zero]
      omega
    · have below := (Nat.log2_lt zero).mpr small
      omega
  rw [unit, bits, Nat.pow_zero]

theorem nearest_small {p n : Nat} (small : n < 2 ^ p) (some_ : 0 < p) : nearest p n = n := by
  rw [nearest, unit_small small some_]
  simp [Nat.mod_one]

theorem unit_le {p n : Nat} (large : 2 ^ p ≤ n) (some_ : 0 < p) :
    unit p n * 2 ^ (p - 1) ≤ n := by
  have positive : n ≠ 0 := by
    have one := Nat.two_pow_pos p
    omega
  have bits : p ≤ Nat.log2 n := (Nat.le_log2 positive).mpr large
  rw [unit, ← Nat.pow_add, show Nat.log2 n + 1 - p + (p - 1) = Nat.log2 n by omega]
  exact Nat.log2_self_le positive

theorem nearest_ge (p n : Nat) : n < nearest p n + unit p n := by
  have whole := Nat.div_add_mod' n (unit p n)
  have rest := Nat.mod_lt n (unit_pos p n)
  rw [nearest]
  split <;> omega

example : nearest 53 (2 ^ 53 + 1) = 2 ^ 53 ∧ nearest 53 (2 ^ 53 + 3) = 2 ^ 53 + 4 := by decide

end Doubles
