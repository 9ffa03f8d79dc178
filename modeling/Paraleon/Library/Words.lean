import Mathlib.Algebra.Group.Int.Defs
import Mathlib.Algebra.Ring.Nat
import Mathlib.Data.Nat.Basic

/-!
# Fixed-width unsigned arithmetic on natural numbers

A `uint32_t` or `uint64_t` variable is a natural number below `2 ^ 32` or
`2 ^ 64`. `u32` and `u64` are the stored values of a computed number; `sub32`
and `sub64` are the wrapping subtractions.
-/

namespace Words

def u32 (n : Nat) : Nat := n % 2 ^ 32
def u64 (n : Nat) : Nat := n % 2 ^ 64

/-- Below zero, the subtraction of two words wraps. -/
def sub32 (a b : Nat) : Nat := if b ≤ a then a - b else a + 2 ^ 32 - b

def sub64 (a b : Nat) : Nat := if b ≤ a then a - b else a + 2 ^ 64 - b

theorem u32_le (n : Nat) : u32 n ≤ n := Nat.mod_le n _

theorem u32_lt (n : Nat) : u32 n < 2 ^ 32 := Nat.mod_lt n (Nat.two_pow_pos 32)

theorem u32_of_lt {n : Nat} (h : n < 2 ^ 32) : u32 n = n := Nat.mod_eq_of_lt h

theorem u64_of_lt {n : Nat} (h : n < 2 ^ 64) : u64 n = n := Nat.mod_eq_of_lt h

/-- A subtraction that does not go below zero is the ordinary one. -/
theorem sub32_of_le {a b : Nat} (h : b ≤ a) : sub32 a b = a - b := if_pos h

/-- A subtraction, wrapped or not, leaves a word. -/
theorem sub32_lt {a : Nat} (h : a < 2 ^ 32) (b : Nat) : sub32 a b < 2 ^ 32 := by
  unfold sub32
  split <;> omega

theorem sub64_of_le {a b : Nat} (h : b ≤ a) : sub64 a b = a - b := if_pos h

end Words
