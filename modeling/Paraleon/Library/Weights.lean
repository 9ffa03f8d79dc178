import Mathlib.Algebra.BigOperators.Group.Finset.Piecewise
import Mathlib.Algebra.BigOperators.Group.List.Basic
import Mathlib.Algebra.Order.BigOperators.Group.Finset
import Mathlib.Algebra.Ring.Nat
import Mathlib.Data.Fintype.Basic

/-!
# Weighted lists and tables of counters

A table of counters agrees with a list when each counter is the weight of the
list's elements with its key (`weightOf`). This module says how that weight
changes when the list gains or loses an element, that the weights of all keys
add up to the weight of the list, and how a sum over a table changes when one
entry is updated.
-/

namespace Weights

section Lists

variable {α κ : Type*} [DecidableEq κ] (w : α → ℕ) (key : α → κ) (k : κ)

/-- The weight of the elements of `l`. -/
def total (l : List α) : ℕ := (l.map w).sum

/-- The weight of the elements of `l` with key `k`. -/
def weightOf (l : List α) : ℕ := total w (l.filter fun a => key a = k)

@[simp] theorem total_nil : total w [] = 0 := rfl

@[simp] theorem total_cons (a : α) (l : List α) : total w (a :: l) = w a + total w l := rfl

@[simp] theorem total_append (l l' : List α) : total w (l ++ l') = total w l + total w l' := by
  simp [total]

@[simp] theorem weightOf_nil : weightOf w key k [] = 0 := rfl

theorem weightOf_cons (a : α) (l : List α) :
    weightOf w key k (a :: l) = (if key a = k then w a else 0) + weightOf w key k l := by
  unfold weightOf
  by_cases h : key a = k <;> simp [h]

@[simp] theorem weightOf_append (l l' : List α) :
    weightOf w key k (l ++ l') = weightOf w key k l + weightOf w key k l' := by
  simp [weightOf]

theorem weightOf_snoc (a : α) (l : List α) :
    weightOf w key k (l ++ [a]) = weightOf w key k l + if key a = k then w a else 0 := by
  simp [weightOf_cons]

/-- The element taken out of a list, and the weight that goes with it. -/
theorem weightOf_eraseIdx {l : List α} {i : ℕ} {a : α} (h : l[i]? = some a) :
    weightOf w key k (l.eraseIdx i) + (if key a = k then w a else 0) = weightOf w key k l := by
  induction l generalizing i with
  | nil => simp at h
  | cons b l ih =>
    cases i with
    | zero =>
      obtain rfl : b = a := by simpa using h
      rw [List.eraseIdx_cons_zero, weightOf_cons]
      omega
    | succ i =>
      have := ih (by simpa using h)
      rw [List.eraseIdx_cons_succ, weightOf_cons, weightOf_cons]
      omega

theorem weightOf_snoc_self (a : α) (l : List α) :
    weightOf w key (key a) (l ++ [a]) = weightOf w key (key a) l + w a := by
  rw [weightOf_snoc, if_pos rfl]

variable {k} in
theorem weightOf_snoc_other {a : α} (l : List α) (h : k ≠ key a) :
    weightOf w key k (l ++ [a]) = weightOf w key k l := by
  rw [weightOf_snoc, if_neg (Ne.symm h), Nat.add_zero]

theorem weightOf_eraseIdx_self {l : List α} {i : ℕ} {a : α} (h : l[i]? = some a) :
    weightOf w key (key a) (l.eraseIdx i) + w a = weightOf w key (key a) l := by
  have := weightOf_eraseIdx w key (key a) h
  rwa [if_pos rfl] at this

variable {k} in
theorem weightOf_eraseIdx_other {l : List α} {i : ℕ} {a : α} (h : l[i]? = some a)
    (hk : k ≠ key a) : weightOf w key k (l.eraseIdx i) = weightOf w key k l := by
  have := weightOf_eraseIdx w key k h
  rwa [if_neg (Ne.symm hk), Nat.add_zero] at this

theorem total_eraseIdx {l : List α} {i : ℕ} {a : α} (h : l[i]? = some a) :
    total w (l.eraseIdx i) + w a = total w l := by
  simpa [weightOf] using weightOf_eraseIdx w (fun _ => ()) () h

theorem le_total {a : α} {l : List α} (h : a ∈ l) : w a ≤ total w l := by
  obtain ⟨i, hi⟩ := List.mem_iff_getElem?.mp h
  have := total_eraseIdx w hi
  omega

theorem le_weightOf {a : α} {l : List α} (h : a ∈ l) : w a ≤ weightOf w key (key a) l :=
  le_total w (List.mem_filter.mpr ⟨h, by simp⟩)

theorem weightOf_le_total (l : List α) : weightOf w key k l ≤ total w l := by
  induction l with
  | nil => exact Nat.le_refl 0
  | cons a l ih =>
    rw [weightOf_cons, total_cons]
    split <;> omega

/-- The weights of all keys together. -/
theorem sum_weightOf [Fintype κ] (l : List α) : ∑ k, weightOf w key k l = total w l := by
  induction l with
  | nil => simp
  | cons a l ih => simp [weightOf_cons, Finset.sum_add_distrib, ih]

end Lists

section Tables

variable {ι : Type*} [DecidableEq ι] [Fintype ι]

/-- A sum over a table of which one entry changes. -/
theorem sum_changed {f f' : ι → ℕ} {i : ι} (hother : ∀ j ≠ i, f' j = f j) :
    ∑ j, f' j + f i = ∑ j, f j + f' i := by
  have hrest : ∑ j ∈ Finset.univ.erase i, f' j = ∑ j ∈ Finset.univ.erase i, f j :=
    Finset.sum_congr rfl fun j hj => hother j (Finset.ne_of_mem_erase hj)
  have hf := Finset.add_sum_erase Finset.univ f (Finset.mem_univ i)
  have hf' := Finset.add_sum_erase Finset.univ f' (Finset.mem_univ i)
  omega

omit [DecidableEq ι] in
/-- No entry of a table exceeds the sum. -/
theorem entry_le_sum (f : ι → ℕ) (i : ι) : f i ≤ ∑ j, f j :=
  Finset.single_le_sum (fun _ _ => Nat.zero_le _) (Finset.mem_univ i)

/-- Nor do two entries together. -/
theorem pair_le_sum (f : ι → ℕ) {i j : ι} (h : i ≠ j) : f i + f j ≤ ∑ k, f k :=
  calc f i + f j = ∑ k ∈ {i, j}, f k := (Finset.sum_pair h).symm
    _ ≤ ∑ k, f k := Finset.sum_le_sum_of_subset (Finset.subset_univ _)

end Tables

end Weights
