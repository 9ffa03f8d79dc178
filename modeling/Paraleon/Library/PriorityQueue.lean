import Mathlib.Data.List.Pairwise
import Mathlib.Data.List.Sort
import Paraleon.Library.Runs

/-!
# Priority queues

What a queue of entries with names and ranks is for: it hands out the entry of the least rank.
Entries of different names have different ranks. The ideal queue is the list of its entries in
the order of their ranks. An implementation is lawful when its states stand for such lists and
its operations do what they do.

* `Queued.place`, `place_perm`: an entry is put where its rank belongs.
* `Queued.head_lt`: the first entry has the least rank.
* `Queued.eq_of_perm`: there is one such list of given entries.
* `Lawful.served`: a lawful implementation hands out what the ideal queue hands out, in every
  run in which the ideal queue is used properly.
-/

namespace PriorityQueue

variable {α β γ σ : Type*} [DecidableEq α] [LinearOrder β] [DecidableEq γ]
variable (rank : α → β) (name : α → γ)

/-- The entries have different names, and are in the order of their ranks. -/
structure Queued (l : List α) : Prop where
  increasing : l.Pairwise fun a b => rank a < rank b
  nodup : (l.map name).Nodup

/-- Puts an entry in front of the first one of a greater rank. -/
def place (a : α) : List α → List α
  | [] => [a]
  | b :: l => if rank a < rank b then a :: b :: l else b :: place a l

/-- What a user of a queue asks for -/
inductive Cmd (α : Type*)
  | insert (a : α)
  | next
  | remove (a : α)

/-- The operations of a queue. `none` is a failed assertion or an undefined result. -/
structure Ops (σ α : Type*) where
  insert : σ → α → Option σ
  next : σ → Option (α × σ)
  remove : σ → α → Option σ

/-- A queue, and the entries that it handed out -/
structure Served (σ α : Type*) where
  queue : σ
  entries : List α
  deriving DecidableEq

/-- One request -/
def step (ops : Ops σ α) (s : Served σ α) : Cmd α → Option (Served σ α)
  | .insert a => (ops.insert s.queue a).map fun q => { s with queue := q }
  | .next => (ops.next s.queue).map fun r => ⟨r.2, s.entries ++ [r.1]⟩
  | .remove a => (ops.remove s.queue a).map fun q => { s with queue := q }

/-- The ideal queue takes names that it does not have, and removes entries that it has. -/
def ideal : Ops (List α) α where
  insert l a := if name a ∈ l.map name then none else some (place rank a l)
  next
    | [] => none
    | a :: l => some (a, l)
  remove l a := if a ∈ l then some (l.erase a) else none

/-- `holds q l` says that the state `q` stands for the list `l`. -/
structure Lawful (ops : Ops σ α) (holds : σ → List α → Prop) (removable : σ → α → Prop) :
    Prop where
  queued : ∀ {q l}, holds q l → Queued rank name l
  insert : ∀ {q l a}, holds q l → name a ∉ l.map name →
    ∃ q', ops.insert q a = some q' ∧ holds q' (place rank a l)
  next_nil : ∀ {q}, holds q [] → ops.next q = none
  next : ∀ {q l a}, holds q (a :: l) → ∃ q', ops.next q = some (a, q') ∧ holds q' l
  remove : ∀ {q l a}, holds q l → a ∈ l → removable q a →
    ∃ q', ops.remove q a = some q' ∧ holds q' (l.erase a)

/-- The condition under which an implementation removes entries -/
def CanRemove (removable : σ → α → Prop) (s : Served σ α) : Cmd α → Prop
  | .remove a => removable s.queue a
  | _ => True

instance (removable : σ → α → Prop) [∀ q a, Decidable (removable q a)] (s : Served σ α)
    (c : Cmd α) : Decidable (CanRemove removable s c) := by
  cases c <;> unfold CanRemove <;> infer_instance

variable {rank} {name} {a b : α} {l m : List α}

section Lists

omit [DecidableEq α] [DecidableEq γ]

theorem place_perm (a : α) (l : List α) : (place rank a l).Perm (a :: l) := by
  induction l with
  | nil => exact List.Perm.refl _
  | cons b l ih =>
    rw [place]
    split
    · exact List.Perm.refl _
    · exact (ih.cons b).trans (List.Perm.swap a b l)

theorem mem_place : b ∈ place rank a l ↔ b = a ∨ b ∈ l := by
  rw [(place_perm a l).mem_iff, List.mem_cons]

theorem increasing_place (hl : l.Pairwise fun a b => rank a < rank b)
    (hfresh : ∀ b ∈ l, rank a ≠ rank b) :
    (place rank a l).Pairwise fun a b => rank a < rank b := by
  induction l with
  | nil => exact List.pairwise_singleton ..
  | cons b l ih =>
    obtain ⟨hb, hl'⟩ := List.pairwise_cons.mp hl
    obtain ⟨hne, hfresh⟩ := List.forall_mem_cons.mp hfresh
    rw [place]
    split
    · next hlt =>
      refine List.pairwise_cons.mpr ⟨fun c hc => ?_, hl⟩
      rcases List.mem_cons.mp hc with rfl | hc
      · exact hlt
      · exact hlt.trans (hb c hc)
    · next hlt =>
      refine List.pairwise_cons.mpr ⟨fun c hc => ?_, ih hl' hfresh⟩
      rcases mem_place.mp hc with rfl | hc
      · exact lt_of_le_of_ne (not_lt.mp hlt) hne.symm
      · exact hb c hc

theorem queued_nil : Queued rank name [] := ⟨List.Pairwise.nil, List.nodup_nil⟩

theorem Queued.place (hl : Queued rank name l) (hname : ∀ a b, rank a = rank b → name a = name b)
    (hfresh : name a ∉ l.map name) : Queued rank name (place rank a l) where
  increasing := increasing_place hl.increasing fun b hb hrank =>
    hfresh (hname a b hrank ▸ List.mem_map_of_mem hb)
  nodup := (((place_perm a l).map name).nodup_iff).mpr (List.nodup_cons.mpr ⟨hfresh, hl.nodup⟩)

theorem Queued.head_lt (hl : Queued rank name (a :: l)) (hb : b ∈ l) : rank a < rank b :=
  (List.pairwise_cons.mp hl.increasing).1 b hb

theorem Queued.sublist (hl : Queued rank name l) (hm : m.Sublist l) : Queued rank name m :=
  ⟨hl.increasing.sublist hm, hl.nodup.sublist (hm.map name)⟩

theorem Queued.tail (hl : Queued rank name (a :: l)) : Queued rank name l :=
  hl.sublist (List.sublist_cons_self a l)

/-- The name tells the entries apart. -/
theorem Queued.inj (hl : Queued rank name l) (ha : a ∈ l) (hb : b ∈ l)
    (h : name a = name b) : a = b :=
  List.inj_on_of_nodup_map hl.nodup ha hb h

/-- There is one list of given entries in the order of their ranks. -/
theorem Queued.eq_of_perm (hl : Queued rank name l) (hm : Queued rank name m)
    (hperm : l.Perm m) : l = m :=
  hperm.eq_of_pairwise (fun _ _ _ _ hab hba => absurd hba hab.asymm) hl.increasing hm.increasing

end Lists

/-- A lawful queue answers a request that the ideal queue answers. -/
theorem Lawful.answer {ops : Ops σ α} {holds : σ → List α → Prop} {removable : σ → α → Prop}
    (h : Lawful rank name ops holds removable) {s : Served σ α} {t t' : Served (List α) α}
    {c : Cmd α} (hs : holds s.queue t.queue ∧ s.entries = t.entries)
    (hrem : CanRemove removable s c) (ht : step (ideal rank name) t c = some t') :
    ∃ s', step ops s c = some s' ∧ holds s'.queue t'.queue ∧ s'.entries = t'.entries := by
  obtain ⟨l, out⟩ := t
  obtain ⟨hq, rfl⟩ := hs
  cases c with
  | insert a =>
    obtain ⟨l', hl', rfl⟩ := Option.map_eq_some_iff.mp ht
    obtain ⟨hfresh, hl'⟩ := Option.ite_none_left_eq_some.mp hl'
    obtain ⟨q, hins, hq'⟩ := h.insert hq hfresh
    exact ⟨{ s with queue := q }, by rw [PriorityQueue.step, hins, Option.map_some],
      Option.some.inj hl' ▸ hq', rfl⟩
  | next =>
    cases l with
    | nil => cases ht
    | cons a l =>
      cases ht
      obtain ⟨q, hnext, hq'⟩ := h.next hq
      exact ⟨⟨q, s.entries ++ [a]⟩, by rw [PriorityQueue.step, hnext, Option.map_some], hq', rfl⟩
  | remove a =>
    obtain ⟨l', hl', rfl⟩ := Option.map_eq_some_iff.mp ht
    obtain ⟨hmem, hl'⟩ := Option.ite_none_right_eq_some.mp hl'
    obtain ⟨q, hdel, hq'⟩ := h.remove hq hmem hrem
    exact ⟨{ s with queue := q }, by rw [PriorityQueue.step, hdel, Option.map_some],
      Option.some.inj hl' ▸ hq', rfl⟩

/-- In every run a lawful queue hands out what the ideal queue hands out. -/
theorem Lawful.served {ops : Ops σ α} {holds : σ → List α → Prop} {removable : σ → α → Prop}
    (h : Lawful rank name ops holds removable) {q : σ} {t' : Served (List α) α} {cs : List (Cmd α)}
    (hq : holds q l) (hrem : Runs.Meets (step ops) (CanRemove removable) ⟨q, []⟩ cs)
    (hrun : Runs.run (PriorityQueue.step (ideal rank name)) ⟨l, []⟩ cs = some t') :
    ∃ q', Runs.run (PriorityQueue.step ops) ⟨q, []⟩ cs = some ⟨q', t'.entries⟩ ∧
      holds q' t'.queue := by
  let R (s : Served σ α) (t : Served (List α) α) : Prop :=
    holds s.queue t.queue ∧ s.entries = t.entries
  have hanswer : ∀ s t c t', R s t → CanRemove removable s c →
      PriorityQueue.step (ideal rank name) t c = some t' →
      ∃ s', PriorityQueue.step ops s c = some s' ∧ R s' t' :=
    fun _ _ _ _ hR hG ht => h.answer hR hG ht
  obtain ⟨s', hs', hq', hout⟩ := Runs.run_related hanswer ⟨hq, rfl⟩ hrem hrun
  exact ⟨s'.queue, hout ▸ hs', hq'⟩

end PriorityQueue
