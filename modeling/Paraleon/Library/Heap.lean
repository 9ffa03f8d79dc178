import Mathlib.Order.Lattice
import Mathlib.Logic.Equiv.Basic

/-!
# Binary heaps whose positions start at one

A heap is the values `h 1`, …, `h n`; the children of position `i` are `2 * i` and
`2 * i + 1`. A sift repairs a heap that is out of order at one position only. What it may
assume there is one of two conditions, both of which leave out the pairs at the position:

* `Ordered.root_le`: the root of a heap is its least value.
* `OpenAbove.exchange`, `OpenAbove.ordered`: one turn of a sift towards the root, and its end.
* `OpenBelow.exchange`, `OpenBelow.ordered`: one turn of a sift away from the root, and its end.
* `Ordered.openBelow_iff`: the last value may take the place of another, and be sifted away
  from the root, exactly when it is not less than the parent of that place.
-/

namespace Heap

variable {β : Type*} {h : ℕ → β} {n k c : ℕ}

/-- The heap after the values at `a` and `b` have changed places -/
def exchange (h : ℕ → β) (a b : ℕ) : ℕ → β := h ∘ Equiv.swap a b

theorem exchange_left (h : ℕ → β) (a b : ℕ) : exchange h a b a = h b := by simp [exchange]

theorem exchange_right (h : ℕ → β) (a b : ℕ) : exchange h a b b = h a := by simp [exchange]

theorem exchange_of_ne {a b i : ℕ} (ha : i ≠ a) (hb : i ≠ b) : exchange h a b i = h i := by
  simp [exchange, Equiv.swap_apply_of_ne_of_ne ha hb]

theorem half_lt {i : ℕ} (hi : 2 ≤ i) : i / 2 < i := Nat.div_lt_self (by lia) (by lia)

theorem half_ne {i : ℕ} (hi : 2 ≤ i) : i ≠ i / 2 := (half_lt hi).ne'

variable [LinearOrder β]

/-- No value is less than its parent. -/
def Ordered (h : ℕ → β) (n : ℕ) : Prop := ∀ i, 2 ≤ i → i ≤ n → h (i / 2) ≤ h i

/-- Only `k` and its parent may be out of order. -/
structure OpenAbove (h : ℕ → β) (n k : ℕ) : Prop where
  pairs : ∀ i, 2 ≤ i → i ≤ n → i ≠ k → h (i / 2) ≤ h i
  grand : 2 ≤ k → ∀ i, i ≤ n → i / 2 = k → h (k / 2) ≤ h i

/-- Only `k` and its children may be out of order. -/
structure OpenBelow (h : ℕ → β) (n k : ℕ) : Prop where
  pairs : ∀ i, 2 ≤ i → i ≤ n → i / 2 ≠ k → h (i / 2) ≤ h i
  grand : 2 ≤ k → ∀ i, i ≤ n → i / 2 = k → h (k / 2) ≤ h i

/-- The root is the least value: every value is at least its parent, which is nearer to the
root. -/
theorem Ordered.root_le (ho : Ordered h n) {i : ℕ} (hi : 1 ≤ i) (hn : i ≤ n) : h 1 ≤ h i := by
  induction i using Nat.strong_induction_on with
  | _ i ih =>
    rcases hi.eq_or_lt with rfl | hi
    · exact le_rfl
    · have hup : h 1 ≤ h (i / 2) :=
        ih (i / 2) (half_lt hi) (by lia) ((half_lt hi).le.trans hn)
      exact hup.trans (ho i hi hn)

/-- A value may be put behind the last one and sifted towards the root. -/
theorem Ordered.openAbove (ho : Ordered h n) : OpenAbove h (n + 1) (n + 1) where
  pairs i hi hn hne := ho i hi (by lia)
  grand hk i hn hi := absurd hi (by lia)

theorem Ordered.openBelow (ho : Ordered h n) (k : ℕ) : OpenBelow h n k where
  pairs i hi hn _ := ho i hi hn
  grand hk i hn hi := (ho k hk (by lia)).trans (hi ▸ ho i (by lia) hn)

theorem Ordered.congr {h' : ℕ → β} (ho : Ordered h n) (heq : ∀ i ≤ n, h' i = h i) :
    Ordered h' n := fun i hi hn => by
  rw [heq i hn, heq (i / 2) (by lia)]
  exact ho i hi hn

theorem OpenBelow.congr {h' : ℕ → β} (ho : OpenBelow h n k) (heq : ∀ i ≤ n, h' i = h i) :
    OpenBelow h' n k where
  pairs i hi hn hp := by
    rw [heq i hn, heq (i / 2) (by lia)]
    exact ho.pairs i hi hn hp
  grand hk i hn hi := by
    rw [heq i hn, heq (k / 2) (by lia)]
    exact ho.grand hk i hn hi

/-! ## Towards the root -/

/-- A sift towards the root ends at the root, or where the parent is not greater. -/
theorem OpenAbove.ordered (ho : OpenAbove h n k) (hstop : 2 ≤ k → h (k / 2) ≤ h k) :
    Ordered h n := by
  intro i hi hn
  rcases eq_or_ne i k with rfl | hne
  · exact hstop hi
  · exact ho.pairs i hi hn hne

/-- A value that is less than its parent changes places with it. -/
theorem OpenAbove.exchange (ho : OpenAbove h n k) (hk : 2 ≤ k) (hn : k ≤ n)
    (hlt : h k < h (k / 2)) : OpenAbove (exchange h k (k / 2)) n (k / 2) where
  pairs i hi hin hne := by
    rcases eq_or_ne i k with rfl | hik
    · rw [exchange_left, exchange_right]
      exact hlt.le
    rw [exchange_of_ne hik hne]
    rcases eq_or_ne (i / 2) k with hpk | hpk
    · -- a child of the old place now stands below the old parent
      rw [hpk, exchange_left]
      exact ho.grand hk i hin hpk
    rcases eq_or_ne (i / 2) (k / 2) with hpp | hpp
    · -- the sibling was at least the old parent, and so is more than the value
      rw [hpp, exchange_right]
      exact hlt.le.trans (hpp ▸ ho.pairs i hi hin hik)
    · rw [exchange_of_ne hpk hpp]
      exact ho.pairs i hi hin hik
  grand hk2 i hin hi := by
    have hup : h (k / 2 / 2) ≤ h (k / 2) := ho.pairs _ hk2 (by lia) (by lia)
    rw [exchange_of_ne (by lia) (by lia)]
    rcases eq_or_ne i k with rfl | hik
    · rw [exchange_left]
      exact hup
    · rw [exchange_of_ne hik (by lia)]
      exact hup.trans (hi ▸ ho.pairs i (by lia) hin hik)

/-! ## Away from the root -/

/-- A sift away from the root ends where no child is less. -/
theorem OpenBelow.ordered (ho : OpenBelow h n k)
    (hstop : ∀ i, 2 ≤ i → i ≤ n → i / 2 = k → h k ≤ h i) : Ordered h n := by
  intro i hi hn
  rcases eq_or_ne (i / 2) k with hp | hp
  · exact hp ▸ hstop i hi hn hp
  · exact ho.pairs i hi hn hp

/-- A value changes places with the least of its children, when that is not greater. -/
theorem OpenBelow.exchange (ho : OpenBelow h n k) (hc2 : 2 ≤ c) (hcn : c ≤ n) (hck : c / 2 = k)
    (hle : h c ≤ h k) (hleast : ∀ i, 2 ≤ i → i ≤ n → i / 2 = k → h c ≤ h i) :
    OpenBelow (exchange h k c) n c where
  pairs i hi hin hne := by
    have hpc : i / 2 ≠ c := hne
    rcases eq_or_ne i k with rfl | hik
    · -- the pair above the old place: the child was at least the old place's parent
      rw [exchange_left, exchange_of_ne (half_ne hi).symm hpc]
      exact ho.grand hi c hcn hck
    rcases eq_or_ne i c with rfl | hic
    · rw [exchange_right, hck, exchange_left]
      exact hle
    rw [exchange_of_ne hik hic]
    rcases eq_or_ne (i / 2) k with hpk | hpk
    · rw [hpk, exchange_left]
      exact hleast i hi hin hpk
    · rw [exchange_of_ne hpk hpc]
      exact ho.pairs i hi hin hpk
  grand _ i hin hi := by
    rw [hck, exchange_left, exchange_of_ne (by lia) (by lia)]
    exact hi ▸ ho.pairs i (by lia) hin (by lia)

/-! ## Taking a value out -/

/-- The values but the last, with the last one in the place of `k`, can be sifted away from
the root exactly when the last one is not less than the parent of `k`. -/
theorem Ordered.openBelow_iff (ho : Ordered h (n + 1)) (hk : 1 ≤ k) (hkn : k ≤ n) :
    OpenBelow (Heap.exchange h k (n + 1)) n k ↔ (2 ≤ k → h (k / 2) ≤ h (n + 1)) := by
  have hoff : ∀ i, i ≤ n → i ≠ k → Heap.exchange h k (n + 1) i = h i := fun i hi hik =>
    exchange_of_ne hik (by lia)
  constructor
  · intro hopen hk2
    have hpair := hopen.pairs k hk2 hkn (half_ne hk2).symm
    rwa [exchange_left, hoff _ (by lia) (half_ne hk2).symm] at hpair
  · intro hlast
    constructor
    · intro i hi hin hpk
      rw [hoff _ (by lia) hpk]
      rcases eq_or_ne i k with rfl | hik
      · rw [exchange_left]
        exact hlast hi
      · rw [hoff i hin hik]
        exact ho i hi (by lia)
    · intro hk2 i hin hik
      rw [hoff _ (by lia) (half_ne hk2).symm, hoff i hin (by lia)]
      exact (ho k hk2 (by lia)).trans (hik ▸ ho i (by lia) (by lia))

end Heap
