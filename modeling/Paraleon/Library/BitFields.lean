import Mathlib.Algebra.Ring.Nat
import Mathlib.Data.Nat.Bitwise

/-!
# Bit-fields

A field of `width` bits from bit `off` on in a word, which is a natural number: `get` reads
it, and `set` stores the low bits of a value in it. A field is read as it was stored, and a
store leaves the fields beside it alone.
-/

namespace BitFields

def get (off width n : Nat) : Nat := n / 2 ^ off % 2 ^ width

def set (off width v n : Nat) : Nat :=
  n % 2 ^ off + 2 ^ off * (v % 2 ^ width + 2 ^ width * (n / 2 ^ (off + width)))

variable {off width off' width' v n : Nat}

theorem get_lt (off width n : Nat) : get off width n < 2 ^ width :=
  Nat.mod_lt _ (Nat.two_pow_pos width)

theorem set_div (off width v n : Nat) :
    set off width v n / 2 ^ off = v % 2 ^ width + 2 ^ width * (n / 2 ^ (off + width)) := by
  rw [set, Nat.add_mul_div_left _ _ (Nat.two_pow_pos off),
    Nat.div_eq_of_lt (Nat.mod_lt _ (Nat.two_pow_pos off)), Nat.zero_add]

theorem set_mod (off width v n : Nat) : set off width v n % 2 ^ off = n % 2 ^ off := by
  rw [set, Nat.add_mul_mod_self_left, Nat.mod_mod]

theorem set_div_end (off width v n : Nat) :
    set off width v n / 2 ^ (off + width) = n / 2 ^ (off + width) := by
  rw [Nat.pow_add, ← Nat.div_div_eq_div_mul, set_div,
    Nat.add_mul_div_left _ _ (Nat.two_pow_pos width),
    Nat.div_eq_of_lt (Nat.mod_lt _ (Nat.two_pow_pos width)), Nat.zero_add, Nat.pow_add]

@[simp] theorem get_set_self (off width v n : Nat) :
    get off width (set off width v n) = v % 2 ^ width := by
  rw [get, set_div, Nat.add_mul_mod_self_left, Nat.mod_mod]

/-- A field below `k` is one of the word below bit `k`. -/
theorem get_mod {k : Nat} (h : off + width ≤ k) (n : Nat) :
    get off width (n % 2 ^ k) = get off width n := by
  refine Nat.eq_of_testBit_eq fun i => ?_
  rw [get, get, Nat.testBit_mod_two_pow, Nat.testBit_mod_two_pow]
  by_cases hi : i < width
  · have hlt : i + off < k := by omega
    simp [Nat.testBit_div_two_pow, Nat.testBit_mod_two_pow, hlt]
  · simp [hi]

/-- A field from `k` on is one of the word from bit `k` on. -/
theorem get_div {k : Nat} (h : k ≤ off) (n : Nat) :
    get off width n = get (off - k) width (n / 2 ^ k) := by
  rw [get, get, Nat.div_div_eq_div_mul, ← Nat.pow_add, Nat.add_sub_cancel' h]

theorem get_set_below (h : off' + width' ≤ off) (v n : Nat) :
    get off' width' (set off width v n) = get off' width' n := by
  rw [← get_mod h, set_mod, get_mod h]

theorem get_set_above (h : off + width ≤ off') (v n : Nat) :
    get off' width' (set off width v n) = get off' width' n := by
  rw [get_div h, set_div_end, ← get_div h]

/-- A store stays within a word that is large enough. -/
theorem set_lt {k : Nat} (hk : off + width ≤ k) (hn : n < 2 ^ k) (v : Nat) :
    set off width v n < 2 ^ k := by
  have hend : set off width v n / 2 ^ (off + width) < 2 ^ (k - (off + width)) := by
    rw [set_div_end, Nat.div_lt_iff_lt_mul (Nat.two_pow_pos _), ← Nat.pow_add,
      Nat.sub_add_cancel hk]
    exact hn
  rw [Nat.div_lt_iff_lt_mul (Nat.two_pow_pos _), ← Nat.pow_add, Nat.sub_add_cancel hk] at hend
  exact hend

end BitFields
