import Mathlib.Data.List.Nodup

/-!
# Dictionaries that keep the order of insertion

A dictionary whose items are read in the order in which their keys came is a list of entries with
different keys.

* `get_upsert`: what changing an entry, that may first have to be made, leaves at each key.
* `get_foldl_upsert`: the same for the entries of another dictionary, one after the other.
* `mem_iff_get`: the items are what the keys give.
-/

namespace OrderedDict

variable {κ α β : Type*}

def keys (d : List (κ × α)) : List κ := d.map Prod.fst

variable [DecidableEq κ]

def get : List (κ × α) → κ → Option α
  | [], _ => none
  | e :: d, k => if e.1 = k then some e.2 else get d k

/-- A key that is not there comes with `new` first; then `f` changes what is there. -/
def upsert (k : κ) (new : α) (f : α → α) : List (κ × α) → List (κ × α)
  | [] => [(k, f new)]
  | e :: d => if e.1 = k then (k, f e.2) :: d else e :: upsert k new f d

variable {d : List (κ × α)} {k : κ}

theorem get_eq_none (h : k ∉ keys d) : get d k = none := by
  induction d with
  | nil => rfl
  | cons e d ih =>
    have hne : e.1 ≠ k := by
      rintro rfl
      exact h List.mem_cons_self
    rw [get, if_neg hne, ih fun hd => h (List.mem_cons_of_mem _ hd)]

theorem get_upsert (new : α) (f : α → α) (d : List (κ × α)) (k' : κ) :
    get (upsert k new f d) k' = if k = k' then some (f ((get d k).getD new)) else get d k' := by
  induction d with
  | nil => rfl
  | cons e d ih =>
    rw [upsert, get]
    rcases eq_or_ne e.1 k with rfl | hk
    · rw [if_pos rfl, if_pos rfl, get, get]
      dsimp only
      split <;> rfl
    · rw [if_neg hk, if_neg hk, get, ih]
      rcases eq_or_ne e.1 k' with rfl | hk'
      · rw [if_pos rfl, if_neg hk.symm, get, if_pos rfl]
      · rw [if_neg hk', get, if_neg hk']

theorem keys_upsert (new : α) (f : α → α) (d : List (κ × α)) :
    keys (upsert k new f d) = if k ∈ keys d then keys d else keys d ++ [k] := by
  induction d with
  | nil => rfl
  | cons e d ih =>
    rw [upsert]
    rcases eq_or_ne e.1 k with rfl | hk
    · rw [if_pos rfl, if_pos (show e.1 ∈ keys (e :: d) from List.mem_cons_self)]
      rfl
    · have hmem : k ∈ keys (e :: d) ↔ k ∈ keys d := by
        rw [keys, List.map_cons, List.mem_cons, or_iff_right hk.symm]
        rfl
      rw [if_neg hk, keys, List.map_cons, ← keys, ih]
      by_cases hd : k ∈ keys d
      · rw [if_pos hd, if_pos (hmem.mpr hd)]
        rfl
      · rw [if_neg hd, if_neg fun h => hd (hmem.mp h)]
        rfl

theorem upsert_of_not_mem (h : k ∉ keys d) (new : α) (f : α → α) :
    upsert k new f d = d ++ [(k, f new)] := by
  induction d with
  | nil => rfl
  | cons e d ih =>
    have hne : e.1 ≠ k := by
      rintro rfl
      exact h List.mem_cons_self
    rw [upsert, if_neg hne, ih fun hd => h (List.mem_cons_of_mem _ hd), List.cons_append]

theorem nodup_upsert (h : (keys d).Nodup) (new : α) (f : α → α) :
    (keys (upsert k new f d)).Nodup := by
  rw [keys_upsert]
  split
  · exact h
  · next hk => exact List.nodup_append.mpr ⟨h, List.nodup_singleton k, fun a ha b hb hab =>
      hk (List.mem_singleton.mp hb ▸ hab ▸ ha)⟩

/-- What was there, or the entry that was changed -/
theorem mem_upsert {new : α} {f : α → α} {e : κ × α} (h : e ∈ upsert k new f d) :
    e ∈ d ∨ ∃ x, (x = new ∨ (k, x) ∈ d) ∧ e = (k, f x) := by
  induction d with
  | nil => exact .inr ⟨new, .inl rfl, List.mem_singleton.mp h⟩
  | cons c d ih =>
    rw [upsert] at h
    split at h
    · next hk =>
      rcases List.mem_cons.mp h with rfl | h
      · exact .inr ⟨c.2, .inr (hk ▸ List.mem_cons_self), rfl⟩
      · exact .inl (List.mem_cons_of_mem c h)
    · rcases List.mem_cons.mp h with rfl | h
      · exact .inl List.mem_cons_self
      · rcases ih h with h | ⟨x, hx, he⟩
        · exact .inl (List.mem_cons_of_mem c h)
        · exact .inr ⟨x, hx.imp_right (List.mem_cons_of_mem c), he⟩

theorem mem_of_get {x : α} (h : get d k = some x) : (k, x) ∈ d := by
  induction d with
  | nil => cases h
  | cons e d ih =>
    rw [get] at h
    split at h
    · next hk => exact List.mem_cons.mpr (.inl (Prod.ext hk.symm (Option.some.inj h).symm))
    · exact List.mem_cons_of_mem e (ih h)

theorem mem_iff_get (h : (keys d).Nodup) {x : α} : (k, x) ∈ d ↔ get d k = some x := by
  induction d with
  | nil => exact ⟨fun h => absurd h List.not_mem_nil, fun h => nomatch h⟩
  | cons e d ih =>
    obtain ⟨hout, hd⟩ := List.nodup_cons.mp h
    rw [List.mem_cons, get]
    rcases eq_or_ne e.1 k with rfl | hk
    · rw [if_pos rfl, Option.some_inj]
      constructor
      · rintro (heq | hmem)
        · rw [← heq]
        · exact absurd (List.mem_map_of_mem (f := Prod.fst) hmem) hout
      · exact fun heq => .inl (Prod.ext rfl heq.symm)
    · rw [if_neg hk, ih hd]
      exact or_iff_right fun heq => hk (congrArg Prod.fst heq).symm

/-- A change of all the items -/
theorem get_map (g : α → β) (d : List (κ × α)) (k : κ) :
    get (d.map fun e => (e.1, g e.2)) k = (get d k).map g := by
  induction d with
  | nil => rfl
  | cons e d ih =>
    rw [List.map_cons, get, get, ih]
    split <;> rfl

omit [DecidableEq κ] in
theorem keys_map (g : α → β) (d : List (κ × α)) : keys (d.map fun e => (e.1, g e.2)) = keys d := by
  rw [keys, List.map_map]
  rfl

/-- Each entry of a dictionary changes the entry with its key. -/
theorem get_foldl_upsert (new : α) (f : β → α → α) {l : List (κ × β)} (hl : (keys l).Nodup)
    (d : List (κ × α)) (k : κ) :
    get (l.foldl (fun d e => upsert e.1 new (f e.2) d) d) k =
      match get l k with
      | some x => some (f x ((get d k).getD new))
      | none => get d k := by
  induction l generalizing d with
  | nil => rfl
  | cons e l ih =>
    obtain ⟨hout, hl⟩ := List.nodup_cons.mp hl
    rw [List.foldl_cons, ih hl, get_upsert, get]
    rcases eq_or_ne e.1 k with rfl | hk
    · rw [get_eq_none hout, if_pos rfl, if_pos rfl]
    · rw [if_neg hk, if_neg hk]

theorem nodup_foldl_upsert (new : α) (f : β → α → α) (l : List (κ × β)) (h : (keys d).Nodup) :
    (keys (l.foldl (fun d e => upsert e.1 new (f e.2) d) d)).Nodup := by
  induction l generalizing d with
  | nil => exact h
  | cons e l ih => exact ih (nodup_upsert h ..)

end OrderedDict
