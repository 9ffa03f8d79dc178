import Mathlib.Data.Fin.VecNotation
import Mathlib.Data.Nat.Bitwise
import Mathlib.Order.MinMax

/-!
# Vector registers of 32-bit lanes

The vector instructions by which a loop over a few 32-bit numbers is written without branches.
Registers are functions from the lanes.

* `movemask_cmpeq_eq_zero_iff`, `tzcnt_movemask_cmpeq`: comparing, taking the mask and counting
  its trailing zeros finds the first lane in which two registers agree.
* `horizontalMin_spec`: three rounds of shuffles and minima leave the least of eight lanes, if
  none of them is negative as a signed number.
-/

namespace Lanes

variable {n : ℕ}

/-- `set1_epi32` -/
def set1 (x : ℕ) : Fin n → ℕ := fun _ => x

/-- `cmpeq_epi32` -/
def cmpeq (a b : Fin n → ℕ) : Fin n → ℕ := fun j => if a j = b j then 0xFFFFFFFF else 0

/-- `movemask_ps`: the sign bits -/
def movemask (a : Fin n → ℕ) : ℕ := Nat.ofBits fun j => (a j).testBit 31

/-- `tzcnt_u32`, which is 32 for zero -/
def tzcnt (m : ℕ) : ℕ := ((List.range 32).find? fun i => m.testBit i).getD 32

/-- `and_ps` -/
def and (a b : Fin n → ℕ) : Fin n → ℕ := fun j => a j &&& b j

/-- `or_ps` -/
def or (a b : Fin n → ℕ) : Fin n → ℕ := fun j => a j ||| b j

/-- A lane as a signed number -/
def signed (x : ℕ) : ℤ := if x < 2 ^ 31 then x else x - 2 ^ 32

/-- `min_epi32` -/
def minEpi32 (a b : Fin n → ℕ) : Fin n → ℕ := fun j =>
  if signed (a j) ≤ signed (b j) then a j else b j

/-- `shuffle_epi32`, by the lanes that are taken -/
def shuffle (i j k l : Fin 4) (a : Fin 4 → ℕ) : Fin 4 → ℕ := ![a i, a j, a k, a l]

/-- The minimum over eight lanes, in the first lane after three rounds -/
def horizontalMin (a : Fin 8 → ℕ) : ℕ :=
  let low : Fin 4 → ℕ := ![a 0, a 1, a 2, a 3]
  let high : Fin 4 → ℕ := ![a 4, a 5, a 6, a 7]
  let x := minEpi32 low high
  let min1 := shuffle 2 3 0 0 x
  let min2 := minEpi32 x min1
  let min3 := shuffle 1 0 0 0 min2
  let min4 := minEpi32 min2 min3
  min4 0

variable {a b : Fin n → ℕ}

theorem testBit_movemask_cmpeq (j : Fin n) :
    (movemask (cmpeq a b)).testBit j = decide (a j = b j) := by
  rw [movemask, Nat.testBit_ofBits_lt _ _ j.isLt, cmpeq]
  split
  · next h => rw [decide_eq_true h]; rfl
  · next h => rw [decide_eq_false h]; rfl

theorem movemask_cmpeq_eq_zero_iff : movemask (cmpeq a b) = 0 ↔ ∀ j, a j ≠ b j := by
  constructor
  · intro h j heq
    have hbit := testBit_movemask_cmpeq (a := a) (b := b) j
    rw [h, Nat.zero_testBit, decide_eq_true heq] at hbit
    exact Bool.false_ne_true hbit
  · intro h
    refine Nat.eq_of_testBit_eq fun i => ?_
    rw [Nat.zero_testBit]
    rcases lt_or_ge i n with hi | hi
    · rw [testBit_movemask_cmpeq ⟨i, hi⟩, decide_eq_false (h ⟨i, hi⟩)]
    · exact Nat.testBit_ofBits_ge _ _ hi

/-- The first lane in which the registers agree -/
theorem tzcnt_movemask_cmpeq {j : Fin n} (hn : n ≤ 32) (heq : a j = b j)
    (hfirst : ∀ i < j, a i ≠ b i) : tzcnt (movemask (cmpeq a b)) = j := by
  have hfind : (List.range 32).find? (fun i => (movemask (cmpeq a b)).testBit i) = some j.val := by
    refine List.find?_eq_some_iff_getElem.mpr ⟨?_, j, ?_, ?_, fun i hi => ?_⟩
    · rw [testBit_movemask_cmpeq, decide_eq_true heq]
    · rw [List.length_range]
      exact j.isLt.trans_le hn
    · exact List.getElem_range _
    · have hin : i < n := hi.trans j.isLt
      rw [List.getElem_range, testBit_movemask_cmpeq ⟨i, hin⟩, decide_eq_false (hfirst ⟨i, hin⟩ hi)]
      rfl
  rw [tzcnt, hfind, Option.getD_some]

theorem minEpi32_eq (ha : ∀ j, a j < 2 ^ 31) (hb : ∀ j, b j < 2 ^ 31) :
    minEpi32 a b = fun j => min (a j) (b j) := by
  funext j
  rw [minEpi32, signed, signed, if_pos (ha j), if_pos (hb j), min_def]
  simp only [Int.ofNat_le]

theorem forall_four {p : ℕ → Prop} {w x y z : ℕ} (hw : p w) (hx : p x) (hy : p y) (hz : p z)
    (j : Fin 4) : p (![w, x, y, z] j) := by
  match j with
  | 0 => exact hw
  | 1 => exact hx
  | 2 => exact hy
  | 3 => exact hz

theorem horizontalMin_eq {a : Fin 8 → ℕ} (h : ∀ j, a j < 2 ^ 31) :
    horizontalMin a = min (min (min (a 0) (a 4)) (min (a 2) (a 6)))
      (min (min (a 1) (a 5)) (min (a 3) (a 7))) := by
  have hlow := forall_four (p := (· < 2 ^ 31)) (h 0) (h 1) (h 2) (h 3)
  have hhigh := forall_four (p := (· < 2 ^ 31)) (h 4) (h 5) (h 6) (h 7)
  have hmin : ∀ {x y : Fin 4 → ℕ}, (∀ j, x j < 2 ^ 31) → ∀ j, min (x j) (y j) < 2 ^ 31 :=
    fun hx j => (min_le_left _ _).trans_lt (hx j)
  have hx := hmin (y := ![a 4, a 5, a 6, a 7]) hlow
  have hx' : ∀ (y : Fin 4 → ℕ) (j : Fin 4),
      min (min (![a 0, a 1, a 2, a 3] j) (![a 4, a 5, a 6, a 7] j)) (y j) < 2 ^ 31 :=
    fun y => hmin (y := y) hx
  rw [horizontalMin, minEpi32_eq hlow hhigh, shuffle,
    minEpi32_eq hx (forall_four (p := (· < 2 ^ 31)) (hx 2) (hx 3) (hx 0) (hx 0)), shuffle,
    minEpi32_eq (hx' _) (forall_four (p := (· < 2 ^ 31)) (hx' _ 1) (hx' _ 0) (hx' _ 0) (hx' _ 0))]
  rfl

/-- The least of eight lanes that are not negative -/
theorem horizontalMin_spec {a : Fin 8 → ℕ} (h : ∀ j, a j < 2 ^ 31) :
    (∀ j, horizontalMin a ≤ a j) ∧ ∃ j, a j = horizontalMin a := by
  rw [horizontalMin_eq h]
  constructor
  · intro j
    match j with
    | 0 | 1 | 2 | 3 | 4 | 5 | 6 | 7 => simp only [min_le_iff, le_refl, true_or, or_true]
  · -- a minimum is one of the two
    have hpair : ∀ {x y : ℕ}, (∃ j, a j = x) → (∃ j, a j = y) → ∃ j, a j = min x y :=
      fun {x y} hx hy => by
        rcases min_choice x y with hxy | hxy <;> rw [hxy]
        · exact hx
        · exact hy
    exact hpair (hpair (hpair ⟨0, rfl⟩ ⟨4, rfl⟩) (hpair ⟨2, rfl⟩ ⟨6, rfl⟩))
      (hpair (hpair ⟨1, rfl⟩ ⟨5, rfl⟩) (hpair ⟨3, rfl⟩ ⟨7, rfl⟩))

end Lanes
