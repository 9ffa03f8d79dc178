import Mathlib.Data.List.Basic

/-!
# Tilings of an interval

A list of ranges `(start, length)` tiles `[a, b)` when the first range starts at
`a`, every range starts where the one before it ends, none is empty, and the
last one ends at `b`.
-/

namespace Tiling

/-- The ranges `rs`, in this order, tile the interval `[a, b)`. -/
def Tiles : Nat → List (Nat × Nat) → Nat → Prop
  | a, [], b => a = b
  | a, r :: rs, b => r.1 = a ∧ 0 < r.2 ∧ Tiles (a + r.2) rs b

theorem Tiles.append {a b c : Nat} {rs ss : List (Nat × Nat)} (h : Tiles a rs b)
    (h' : Tiles b ss c) : Tiles a (rs ++ ss) c := by
  induction rs generalizing a with
  | nil => cases h; exact h'
  | cons r rs ih => exact ⟨h.1, h.2.1, ih h.2.2⟩

/-- A tiling grows by a range that starts at its end. -/
theorem Tiles.snoc {a b n : Nat} {rs : List (Nat × Nat)} (h : Tiles a rs b) (hn : 0 < n) :
    Tiles a (rs ++ [(b, n)]) (b + n) :=
  h.append ⟨rfl, hn, rfl⟩

theorem Tiles.le {a b : Nat} {rs : List (Nat × Nat)} (h : Tiles a rs b) : a ≤ b := by
  induction rs generalizing a with
  | nil => exact Nat.le_of_eq h
  | cons r rs ih => exact Nat.le_trans (Nat.le_add_right a r.2) (ih h.2.2)

/-- The ranges of a tiling lie inside the interval. -/
theorem Tiles.bounds {a b : Nat} {rs : List (Nat × Nat)} (h : Tiles a rs b) {r : Nat × Nat}
    (hr : r ∈ rs) : a ≤ r.1 ∧ 0 < r.2 ∧ r.1 + r.2 ≤ b := by
  induction rs generalizing a with
  | nil => exact absurd hr List.not_mem_nil
  | cons q rs ih =>
    obtain ⟨hq, hpos, hrest⟩ := h
    rcases List.mem_cons.mp hr with rfl | hr
    · exact ⟨Nat.le_of_eq hq.symm, hpos, by rw [hq]; exact hrest.le⟩
    · obtain ⟨hlo, hr2, hhi⟩ := ih hrest hr
      exact ⟨by omega, hr2, hhi⟩

/-- The ranges of a tiling cover exactly the points of the interval. -/
theorem Tiles.cover {a b : Nat} {rs : List (Nat × Nat)} (h : Tiles a rs b) (x : Nat) :
    (∃ r ∈ rs, r.1 ≤ x ∧ x < r.1 + r.2) ↔ a ≤ x ∧ x < b := by
  constructor
  · rintro ⟨r, hr, hlo, hhi⟩
    have := h.bounds hr
    omega
  · induction rs generalizing a with
    | nil => intro hx; have : a = b := h; omega
    | cons q rs ih =>
      rintro ⟨hlo, hhi⟩
      obtain ⟨hq, _, hrest⟩ := h
      by_cases hx : x < a + q.2
      · exact ⟨q, List.mem_cons_self, by omega, by omega⟩
      · obtain ⟨r, hr, hrx⟩ := ih hrest ⟨by omega, hhi⟩
        exact ⟨r, List.mem_cons_of_mem _ hr, hrx⟩

/-- The ranges of a tiling come in order and do not overlap. -/
theorem Tiles.ordered {a b : Nat} {rs : List (Nat × Nat)} (h : Tiles a rs b) :
    rs.Pairwise fun r r' => r.1 + r.2 ≤ r'.1 := by
  induction rs generalizing a with
  | nil => exact List.Pairwise.nil
  | cons q rs ih =>
    refine List.pairwise_cons.mpr ⟨fun r hr => ?_, ih h.2.2⟩
    have := (Tiles.bounds h.2.2 hr).1
    have := h.1
    omega

end Tiling
