import Mathlib.Data.List.Pairwise
import Mathlib.Order.Lattice

/-!
# Maps as sorted lists of entries

A map that is iterated in the order of its keys, such as `std::map`, is a list of entries
with increasing keys. `mem_insert` says what an assignment `m[k] = v` leaves in the map.
-/

namespace SortedMap

variable {κ β : Type*} [LinearOrder κ]

/-- `m[k] = v` -/
def insert (k : κ) (v : β) : List (κ × β) → List (κ × β)
  | [] => [(k, v)]
  | e :: m =>
    if k = e.1 then (k, v) :: m
    else if k < e.1 then (k, v) :: e :: m
    else e :: insert k v m

def Sorted (m : List (κ × β)) : Prop := m.Pairwise fun e e' => e.1 < e'.1

variable {k : κ} {v : β} {m : List (κ × β)}

theorem sorted_nil : Sorted ([] : List (κ × β)) := List.Pairwise.nil

theorem mem_of_mem_insert {e : κ × β} (h : e ∈ insert k v m) : e = (k, v) ∨ e ∈ m := by
  induction m with
  | nil => exact .inl (List.mem_singleton.mp h)
  | cons d m ih =>
    rw [insert] at h
    split at h
    · rcases List.mem_cons.mp h with h | h
      · exact .inl h
      · exact .inr (List.mem_cons_of_mem d h)
    · split at h
      · exact List.mem_cons.mp h
      · rcases List.mem_cons.mp h with rfl | h
        · exact .inr List.mem_cons_self
        · exact (ih h).imp_right (List.mem_cons_of_mem d)

theorem Sorted.insert (h : Sorted m) (k : κ) (v : β) : Sorted (insert k v m) := by
  induction m with
  | nil => exact List.pairwise_singleton ..
  | cons d m ih =>
    obtain ⟨hd, hm⟩ := List.pairwise_cons.mp h
    rw [SortedMap.insert]
    split
    · next hk => exact List.pairwise_cons.mpr ⟨fun e he => hk ▸ hd e he, hm⟩
    · next hk =>
      split
      · next hlt =>
        refine List.pairwise_cons.mpr ⟨fun e he => ?_, h⟩
        rcases List.mem_cons.mp he with rfl | he
        · exact hlt
        · exact hlt.trans (hd e he)
      · next hlt =>
        refine List.pairwise_cons.mpr ⟨fun e he => ?_, ih hm⟩
        rcases mem_of_mem_insert he with rfl | he
        · exact lt_of_le_of_ne (not_lt.mp hlt) (Ne.symm hk)
        · exact hd e he

/-- Two entries with the same key are the same. -/
theorem Sorted.unique (h : Sorted m) {e e' : κ × β} (he : e ∈ m) (he' : e' ∈ m)
    (hkey : e.1 = e'.1) : e = e' := by
  by_contra hne
  have hpair : m.Pairwise fun e e' => e.1 ≠ e'.1 := h.imp fun hlt => ne_of_lt hlt
  have : Std.Symm fun e e' : κ × β => e.1 ≠ e'.1 := ⟨fun _ _ h => Ne.symm h⟩
  exact hpair.forall he he' hne hkey

theorem mem_insert (h : Sorted m) {e : κ × β} :
    e ∈ insert k v m ↔ e = (k, v) ∨ e ∈ m ∧ e.1 ≠ k := by
  induction m with
  | nil => simp [insert]
  | cons d m ih =>
    obtain ⟨hd, hm⟩ := List.pairwise_cons.mp h
    rw [insert]
    split
    · next hk =>
      subst hk
      constructor
      · intro he
        rcases List.mem_cons.mp he with he | he
        · exact .inl he
        · exact .inr ⟨List.mem_cons_of_mem d he, (hd e he).ne'⟩
      · rintro (rfl | ⟨he, hek⟩)
        · exact List.mem_cons_self
        · rcases List.mem_cons.mp he with rfl | he
          · exact absurd rfl hek
          · exact List.mem_cons_of_mem _ he
    · next hk =>
      split
      · next hlt =>
        -- the map is sorted, so that no key behind the new one is the same
        have hall : ∀ x ∈ d :: m, x.1 ≠ k := fun x hx => by
          rcases List.mem_cons.mp hx with rfl | hx
          · exact Ne.symm hk
          · exact (hlt.trans (hd x hx)).ne'
        rw [List.mem_cons]
        exact or_congr_right ⟨fun he => ⟨he, hall e he⟩, fun he => he.1⟩
      · next hlt =>
        rw [List.mem_cons, ih hm, List.mem_cons]
        constructor
        · rintro (rfl | rfl | ⟨he, hek⟩)
          · exact .inr ⟨.inl rfl, Ne.symm hk⟩
          · exact .inl rfl
          · exact .inr ⟨.inr he, hek⟩
        · rintro (rfl | ⟨rfl | he, hek⟩)
          · exact .inr (.inl rfl)
          · exact .inl rfl
          · exact .inr (.inr ⟨he, hek⟩)

end SortedMap
