import Mathlib.Algebra.BigOperators.Intervals
import Mathlib.Algebra.BigOperators.Ring.Finset
import Mathlib.Data.Fintype.Basic
import Mathlib.Order.Interval.Finset.Nat

/-!
# Histograms

How often each number is a value of a function.

* `move_spec`: a histogram is kept by moving one unit at each change of the function.
* `sum_count`, `sum_count_mul`: a histogram has the number of the nonzero values, and their sum.
* `foldl_range'_one`: a loop from 1 on computes such a sum.
-/

namespace Histogram

open Function

variable {ι : Type*} [Fintype ι]

/-- The number of arguments at which `f` is `v` -/
def count (f : ι → ℕ) (v : ℕ) : ℕ := (Finset.univ.filter fun p => f p = v).card

/-- One unit less for the old value, and one more for the new one -/
def move (d : ℕ → ℤ) (oldVal newVal : ℕ) : ℕ → ℤ :=
  let d := update d oldVal (d oldVal - 1)
  update d newVal (d newVal + 1)

theorem move_apply (d : ℕ → ℤ) (oldVal newVal v : ℕ) :
    move d oldVal newVal v =
      d v - (if oldVal = v then 1 else 0) + (if newVal = v then 1 else 0) := by
  have hold : ∀ w, update d oldVal (d oldVal - 1) w = d w - if oldVal = w then 1 else 0 := by
    intro w
    rcases eq_or_ne oldVal w with rfl | hw
    · rw [update_self, if_pos rfl]
    · rw [update_of_ne hw.symm, if_neg hw, sub_zero]
  rw [move]
  rcases eq_or_ne newVal v with rfl | hv
  · rw [update_self, hold, if_pos (rfl : newVal = newVal)]
  · rw [update_of_ne hv.symm, hold, if_neg hv, add_zero]

variable [DecidableEq ι]

theorem count_update (f : ι → ℕ) (p : ι) (x v : ℕ) :
    (count (update f p x) v : ℤ) =
      count f v - (if f p = v then 1 else 0) + (if x = v then 1 else 0) := by
  have hsum : ∀ g : ι → ℕ, (count g v : ℤ) =
      (if g p = v then 1 else 0) + ∑ q ∈ Finset.univ.erase p, if g q = v then 1 else 0 := by
    intro g
    rw [Finset.add_sum_erase _ (fun q => if g q = v then (1 : ℤ) else 0) (Finset.mem_univ p),
      count, Finset.card_filter, Nat.cast_sum]
    exact Finset.sum_congr rfl fun q _ => by rw [Nat.cast_ite, Nat.cast_one, Nat.cast_zero]
  have hrest : ∑ q ∈ Finset.univ.erase p, (if update f p x q = v then (1 : ℤ) else 0) =
      ∑ q ∈ Finset.univ.erase p, if f q = v then 1 else 0 :=
    Finset.sum_congr rfl fun q hq => by rw [update_of_ne (Finset.ne_of_mem_erase hq)]
  rw [hsum, hsum f, hrest, update_self]
  lia

/-- A histogram, up to a constant for each value, is one after the change of a value too. -/
theorem move_spec {d : ℕ → ℤ} {f : ι → ℕ} {k : ℕ → ℤ} (h : ∀ v, d v = count f v - k v) (p : ι)
    (x v : ℕ) : move d (f p) x v = count (update f p x) v - k v := by
  rw [move_apply, count_update, h]
  lia

variable {n : ℕ} {f : ι → ℕ}

omit [DecidableEq ι] in
/-- The values from 1 on, up to a bound -/
theorem sum_count (h : ∀ p, f p ≤ n) :
    ∑ v ∈ Finset.Icc 1 n, count f v = (Finset.univ.filter fun p => f p ≠ 0).card := by
  have hmaps : ∀ p ∈ Finset.univ.filter (fun p => f p ≠ 0), f p ∈ Finset.Icc 1 n := fun p hp =>
    Finset.mem_Icc.mpr ⟨Nat.one_le_iff_ne_zero.mpr (Finset.mem_filter.mp hp).2, h p⟩
  rw [Finset.card_eq_sum_card_fiberwise hmaps]
  refine Finset.sum_congr rfl fun v hv => ?_
  rw [count, Finset.filter_filter]
  refine congrArg Finset.card (Finset.filter_congr fun p _ => ?_)
  exact ⟨fun hp => ⟨hp ▸ Nat.one_le_iff_ne_zero.mp (Finset.mem_Icc.mp hv).1, hp⟩, fun hp => hp.2⟩

omit [DecidableEq ι] in
theorem sum_count_mul (h : ∀ p, f p ≤ n) :
    ∑ v ∈ Finset.Icc 1 n, count f v * v = ∑ p, f p := by
  have hmaps : ∀ p ∈ Finset.univ, f p ∈ Finset.Icc 0 n := fun p _ =>
    Finset.mem_Icc.mpr ⟨Nat.zero_le _, h p⟩
  rw [← Finset.sum_fiberwise_of_maps_to hmaps f]
  have hfiber : ∀ v, ∑ p ∈ Finset.univ.filter (fun p => f p = v), f p = count f v * v := fun v =>
    Finset.sum_const_nat fun p hp => (Finset.mem_filter.mp hp).2
  simp only [hfiber]
  -- the value 0 adds nothing
  refine Finset.sum_subset (Finset.Icc_subset_Icc_left (Nat.zero_le 1)) fun v hv hne => ?_
  have hv0 : v = 0 := by
    by_contra h0
    exact hne (Finset.mem_Icc.mpr ⟨Nat.one_le_iff_ne_zero.mpr h0, (Finset.mem_Icc.mp hv).2⟩)
  rw [hv0, Nat.mul_zero]

/-- A loop that adds, over the numbers from 1 on -/
theorem foldl_range'_one (g : ℕ → ℤ) (n : ℕ) (tot : ℤ) :
    (List.range' 1 n).foldl (fun acc i => acc + g i) tot = tot + ∑ i ∈ Finset.Icc 1 n, g i := by
  induction n with
  | zero => rw [List.range'_zero, List.foldl_nil, Finset.Icc_eq_empty_of_lt Nat.zero_lt_one,
      Finset.sum_empty, add_zero]
  | succ n ih =>
    rw [List.range'_1_concat, List.foldl_append, ih, List.foldl_cons, List.foldl_nil,
      Finset.sum_Icc_succ_top (Nat.le_add_left 1 n), Nat.add_comm 1 n, add_assoc]

end Histogram
