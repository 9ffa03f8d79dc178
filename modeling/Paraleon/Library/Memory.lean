import Paraleon.Library.Bytes

/-!
# Bytes in memory

A memory has a byte at each address, and an object is a window of it. `load` reads a window
and `store` writes one.

* `load_store`, `load_store_of_disjoint`: what was stored is loaded, and nothing else changes.
* `load_within`, `store_within`: a part of a window is a slice of its bytes, and a store to
  it puts a new slice there.
* `WorksOn.on_copy`: code that works on an object can work on a copy of it instead.
-/

namespace Bytes

abbrev Memory := Nat → UInt8

def load (m : Memory) (a n : Nat) : List UInt8 := (List.range n).map fun i => m (a + i)

def store (m : Memory) (a : Nat) (bs : List UInt8) : Memory := fun x =>
  if a ≤ x then bs.getD (x - a) (m x) else m x

/-- The bytes `ws`, with `bs` from place `k` on. -/
def splice (ws : List UInt8) (k : Nat) (bs : List UInt8) : List UInt8 :=
  ws.take k ++ (bs ++ ws.drop (k + bs.length))

variable {m : Memory} {a b n k w : Nat} {bs cs ws : List UInt8}

@[simp] theorem length_load : (load m a n).length = n := by simp [load]

theorem getElem?_load (i : Nat) : (load m a n)[i]? = if i < n then some (m (a + i)) else none := by
  rw [load, List.getElem?_map]
  split
  · next h => rw [List.getElem?_range h, Option.map_some]
  · next h => rw [List.getElem?_eq_none (by simpa using h), Option.map_none]

theorem store_apply (i : Nat) : store m a bs (a + i) = (bs[i]?).getD (m (a + i)) := by
  rw [store, if_pos (Nat.le_add_right a i), Nat.add_sub_cancel_left, List.getD_eq_getElem?_getD]

/-- Two memories that agree below an address and from it on. -/
theorem memory_ext {m' : Memory} (hbelow : ∀ x < a, m x = m' x)
    (hfrom : ∀ i, m (a + i) = m' (a + i)) : m = m' := by
  funext x
  rcases Nat.lt_or_ge x a with h | h
  · exact hbelow x h
  · obtain ⟨i, rfl⟩ := Nat.exists_eq_add_of_le h
    exact hfrom i

theorem store_below (h : k < a) : store m a bs k = m k := if_neg (Nat.not_le.mpr h)

theorem store_above (h : a + bs.length ≤ k) : store m a bs k = m k := by
  obtain ⟨i, rfl⟩ := Nat.exists_eq_add_of_le (Nat.le_of_add_right_le h)
  rw [store_apply, List.getElem?_eq_none (by omega), Option.getD_none]

theorem store_of_disjoint (h : k < a ∨ a + bs.length ≤ k) : store m a bs k = m k :=
  h.elim store_below store_above

@[simp] theorem store_nil : store m a [] = m :=
  memory_ext (fun _ h => store_below h) fun _ => store_apply _

/-! ## Loading what was stored -/

theorem load_eq_iff {m' : Memory} :
    load m a n = load m' b n ↔ ∀ i < n, m (a + i) = m' (b + i) := by
  constructor
  · intro h i hi
    have hget : (load m a n)[i]? = (load m' b n)[i]? := by rw [h]
    rw [getElem?_load, getElem?_load, if_pos hi, if_pos hi] at hget
    exact Option.some.inj hget
  · exact fun h => List.map_congr_left fun i hi => h i (List.mem_range.mp hi)

theorem load_store (h : bs.length = n) : load (store m a bs) a n = bs := by
  refine List.ext_getElem? fun i => ?_
  rw [getElem?_load, store_apply]
  split
  · next hi => rw [List.getElem?_eq_getElem (h ▸ hi), Option.getD_some]
  · next hi => rw [List.getElem?_eq_none (by omega)]

theorem load_store_of_disjoint (h : a + n ≤ b ∨ b + bs.length ≤ a) :
    load (store m b bs) a n = load m a n := by
  refine load_eq_iff.mpr fun i hi => ?_
  rcases h with h | h
  · exact store_below (by omega)
  · exact store_above (by omega)

theorem store_load : store m a (load m a n) = m := by
  refine memory_ext (fun _ h => store_below h) fun i => ?_
  rw [store_apply, getElem?_load]
  split <;> rfl

theorem store_store (h : bs.length = cs.length) :
    store (store m a bs) a cs = store m a cs := by
  refine memory_ext (a := a) (fun x hx => ?_) fun i => ?_
  · rw [store_below hx, store_below hx, store_below hx]
  · rw [store_apply, store_apply, store_apply]
    rcases Nat.lt_or_ge i cs.length with hi | hi
    · rw [List.getElem?_eq_getElem hi, Option.getD_some, Option.getD_some]
    · rw [List.getElem?_eq_none hi, List.getElem?_eq_none (h ▸ hi), Option.getD_none,
        Option.getD_none]

/-- Two stores one behind the other. -/
theorem store_append (h : bs.length = n) :
    store (store m a bs) (a + n) cs = store m a (bs ++ cs) := by
  subst h
  refine memory_ext (a := a) (fun x hx => ?_) fun i => ?_
  · rw [store_below (by omega), store_below hx, store_below hx]
  · rw [store_apply (m := m)]
    rcases Nat.lt_or_ge i bs.length with hi | hi
    · rw [store_below (by omega), store_apply, List.getElem?_append_left hi]
    · obtain ⟨j, rfl⟩ := Nat.exists_eq_add_of_le hi
      rw [← Nat.add_assoc, store_apply, List.getElem?_append_right hi, Nat.add_sub_cancel_left,
        store_above (by omega)]

/-! ## Parts of a window -/

theorem load_within (h : k + w ≤ n) : load m (a + k) w = ((load m a n).drop k).take w := by
  refine List.ext_getElem? fun i => ?_
  rw [getElem?_load, List.getElem?_take, List.getElem?_drop, getElem?_load, Nat.add_assoc]
  split
  · rw [if_pos (by omega)]
  · rfl

theorem load_append (n k : Nat) : load m a (n + k) = load m a n ++ load m (a + n) k := by
  rw [load, List.range_add, List.map_append, List.map_map]
  refine congrArg _ (List.map_congr_left fun i _ => ?_)
  exact congrArg m (Nat.add_assoc a n i).symm

@[simp] theorem splice_nil : splice ws k [] = ws := List.take_append_drop k ws

@[simp] theorem length_splice (h : k + bs.length ≤ ws.length) :
    (splice ws k bs).length = ws.length := by
  simp only [splice, List.length_append, List.length_take, List.length_drop]
  omega

theorem getElem?_splice (h : k ≤ ws.length) (i : Nat) :
    (splice ws k bs)[i]? =
      if k ≤ i ∧ i < k + bs.length then bs[i - k]? else ws[i]? := by
  have htake : (ws.take k).length = k := List.length_take_of_le h
  rw [splice]
  rcases Nat.lt_or_ge i k with hlow | hlow
  · rw [if_neg (by omega), List.getElem?_append_left (htake.symm ▸ hlow), List.getElem?_take,
      if_pos hlow]
  · rw [List.getElem?_append_right (htake.symm ▸ hlow), htake]
    split
    · next hin => rw [List.getElem?_append_left (by omega)]
    · next hin =>
      rw [List.getElem?_append_right (by omega), List.getElem?_drop]
      exact congrArg (ws[·]?) (by omega)

theorem store_within (h : k + bs.length ≤ n) :
    store m (a + k) bs = store m a (splice (load m a n) k bs) := by
  have hk : k ≤ (load m a n).length := by rw [length_load]; omega
  refine memory_ext (a := a) (fun x hx => ?_) fun i => ?_
  · rw [store_below hx, store_below (by omega)]
  · rw [store_apply, getElem?_splice hk, getElem?_load]
    rcases Nat.lt_or_ge i k with hlow | hlow
    · rw [store_below (by omega), if_neg (by omega)]
      split <;> rfl
    · obtain ⟨j, rfl⟩ := Nat.exists_eq_add_of_le hlow
      rw [← Nat.add_assoc, store_apply, Nat.add_sub_cancel_left, Nat.add_assoc]
      rcases Nat.lt_or_ge j bs.length with hj | hj
      · rw [if_pos (by omega)]
      · rw [List.getElem?_eq_none hj, if_neg (by omega)]
        split <;> rfl

theorem store_store_within {l : Nat} (h : k + bs.length ≤ n) (h' : l + cs.length ≤ n) :
    store (store m (a + k) bs) (a + l) cs =
      store m a (splice (splice (load m a n) k bs) l cs) := by
  have hlength : (splice (load m a n) k bs).length = n := by
    rw [length_splice (by rwa [length_load]), length_load]
  have hlength' : (splice (splice (load m a n) k bs) l cs).length = n := by
    rw [length_splice (by rwa [hlength]), hlength]
  rw [store_within h, store_within h', load_store hlength,
    store_store (hlength.trans hlength'.symm)]

/-- A store to a part of a larger window, seen from its bytes. -/
theorem load_store_within (h : k + bs.length ≤ n) :
    load (store m (a + k) bs) a n = splice (load m a n) k bs := by
  rw [store_within h, load_store]
  rw [length_splice (by rwa [length_load]), length_load]

/-! ## Code that works on an object -/

/-- `f` is given the address of an object of `n` bytes. What it does depends on these bytes
only, and it writes no others. -/
def WorksOn (n : Nat) (f : Memory → Nat → Option Memory) : Prop :=
  ∀ m m' a b, load m a n = load m' b n → f m a = (f m' b).map fun m'' => store m a (load m'' b n)

theorem worksOn_some (n : Nat) : WorksOn n fun m _ => some m := by
  intro m m' a b h
  rw [Option.map_some, ← h, store_load]

variable {f : Memory → Nat → Option Memory}

/-- Working on an object in place is working on a copy of it and storing that. -/
theorem WorksOn.on_copy (hf : WorksOn n f) (m copy : Memory) (a b : Nat) :
    f m a = ((f (store copy b (load m a n)) b).map fun m' => load m' b n).map (store m a) := by
  rw [hf m (store copy b (load m a n)) a b (load_store length_load).symm, Option.map_map]
  rfl

theorem WorksOn.outside (hf : WorksOn n f) {m m' : Memory} (h : f m a = some m') {x : Nat}
    (hx : x < a ∨ a + n ≤ x) : m' x = m x := by
  rw [hf m m a a rfl] at h
  obtain ⟨m'', -, rfl⟩ := Option.map_eq_some_iff.mp h
  exact store_of_disjoint (by rwa [length_load])

end Bytes
