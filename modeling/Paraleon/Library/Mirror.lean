import Mathlib.Data.List.Chain

/-!
# A value and its copy at the other end of a queue

The owner of a value sends every new value through a FIFO queue to a copy. As
long as it sends only changes, each value in the queue differs from the one
before it, and the last one is the owner's.
-/

namespace Mirror

variable {α : Type*} {copy x master : α} {inFlight : List α}

/-- The value of the copy when everything in flight has been applied. -/
def settle (copy : α) (inFlight : List α) : α := inFlight.foldl (fun _ x => x) copy

/-- What is in flight changes the copy at every step and ends in the value of
the owner. -/
structure Mirrored (copy : α) (inFlight : List α) (master : α) : Prop where
  alternates : (copy :: inFlight).IsChain (· ≠ ·)
  settles : settle copy inFlight = master

@[simp] theorem settle_nil (copy : α) : settle copy [] = copy := rfl

@[simp] theorem settle_cons (copy x : α) (l : List α) : settle copy (x :: l) = settle x l := rfl

@[simp] theorem settle_snoc (copy x : α) (l : List α) : settle copy (l ++ [x]) = x := by
  simp [settle]

theorem isChain_snoc {copy x : α} {l : List α} (h : (copy :: l).IsChain (· ≠ ·))
    (hne : settle copy l ≠ x) : (copy :: (l ++ [x])).IsChain (· ≠ ·) := by
  induction l generalizing copy with
  | nil => exact .cons_cons hne (.singleton x)
  | cons y l ih =>
    obtain ⟨hy, hl⟩ := List.isChain_cons_cons.mp h
    exact .cons_cons hy (ih hl hne)

theorem Mirrored.start (x : α) : Mirrored x [] x := ⟨.singleton x, rfl⟩

/-- The owner changes its value and sends the new one. -/
theorem Mirrored.send (h : Mirrored copy inFlight master) (hne : master ≠ x) :
    Mirrored copy (inFlight ++ [x]) x :=
  ⟨isChain_snoc h.alternates (by rw [h.settles]; exact hne), settle_snoc _ _ _⟩

/-- The copy takes the oldest value in flight, which is a change for it. -/
theorem Mirrored.receive (h : Mirrored copy (x :: inFlight) master) :
    copy ≠ x ∧ Mirrored x inFlight master := by
  obtain ⟨hne, hrest⟩ := List.isChain_cons_cons.mp h.alternates
  exact ⟨hne, hrest, h.settles⟩

theorem Mirrored.eq_of_nil (h : Mirrored copy [] master) : copy = master := h.settles

end Mirror
