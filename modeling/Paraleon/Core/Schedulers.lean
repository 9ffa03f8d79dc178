import Mathlib.Data.Prod.Lex
import Paraleon.Library.Heap
import Paraleon.Library.PriorityQueue

/-!
# The event lists of the simulator

`src/src/core/model/scheduler.h` and the three schedulers `list-scheduler.cc`,
`map-scheduler.cc` and `heap-scheduler.cc`. Events are ordered by their time and their uid.

* `ListScheduler.lawful`, `MapScheduler.lawful`, `HeapScheduler.lawful`: each is a queue that
  hands out the earliest event.
* `HeapScheduler.stays_heap_iff`: `HeapScheduler::Remove` sifts the event that it moves away
  from the root only. The list stays a heap throughout a run exactly when no event that is
  moved is earlier than its new parent.
* `event_lists_agree`: the three hand out the same events, in every run.
-/

namespace Paraleon.Core

open PriorityQueue

structure EventKey where
  m_ts : ℕ
  m_uid : ℕ
  m_context : ℕ
  deriving DecidableEq, Repr

/-- An event, with its `EventImpl` as a number -/
structure Event where
  impl : ℕ
  key : EventKey
  deriving DecidableEq, Repr

/-- `operator < (const EventKey &a, const EventKey &b)` -/
def EventKey.less (a b : EventKey) : Bool :=
  if a.m_ts < b.m_ts then true
  else if a.m_ts = b.m_ts ∧ a.m_uid < b.m_uid then true
  else false

/-- What the order of events compares -/
def Event.rank (ev : Event) : ℕ ×ₗ ℕ := toLex (ev.key.m_ts, ev.key.m_uid)

/-- What tells events apart -/
def Event.uid (ev : Event) : ℕ := ev.key.m_uid

theorem uid_of_rank (a b : Event) (h : a.rank = b.rank) : a.uid = b.uid :=
  congrArg Prod.snd (toLex.injective h)

theorem less_iff (a b : Event) : a.key.less b.key = true ↔ a.rank < b.rank := by
  rw [Event.rank, Event.rank, Prod.Lex.toLex_lt_toLex, EventKey.less]
  split
  · next h => exact iff_of_true rfl (.inl h)
  · next h =>
    split
    · next h' => exact iff_of_true rfl (.inr h')
    · next h' => exact iff_of_false Bool.false_ne_true (not_or.mpr ⟨h, h'⟩)

/-! ## ListScheduler -/

namespace ListScheduler

/-- `ListScheduler::Insert` -/
def insert (m_events : List Event) (ev : Event) : List Event :=
  match m_events with
  | [] => [ev]
  | i :: m_events => if ev.key.less i.key then ev :: i :: m_events else i :: insert m_events ev

/-- `ListScheduler::RemoveNext`, which may not be called on an empty list -/
def removeNext : List Event → Option (Event × List Event)
  | [] => none
  | next :: m_events => some (next, m_events)

/-- `ListScheduler::Remove` erases the first event of the uid, and asserts that there is one. -/
def remove (m_events : List Event) (ev : Event) : Option (List Event) :=
  match m_events with
  | [] => none
  | i :: m_events =>
    if i.key.m_uid = ev.key.m_uid then
      if ev.impl = i.impl then some m_events else none
    else (remove m_events ev).map (i :: ·)

def ops : Ops (List Event) Event where
  insert m_events ev := some (insert m_events ev)
  next := removeNext
  remove := remove

theorem insert_eq_place (l : List Event) (ev : Event) : insert l ev = place Event.rank ev l := by
  induction l with
  | nil => rfl
  | cons i l ih => simp only [insert, place, less_iff, ih]

theorem remove_of_mem {l : List Event} {ev : Event} (hl : Queued Event.rank Event.uid l)
    (hev : ev ∈ l) : remove l ev = some (l.erase ev) := by
  induction l with
  | nil => exact absurd hev List.not_mem_nil
  | cons i l ih =>
    rw [remove]
    split
    · next huid =>
      -- the uid tells the events apart, so that the one found is the one looked for
      obtain rfl : ev = i := hl.inj hev List.mem_cons_self (Eq.symm huid)
      rw [if_pos rfl, List.erase_cons_head]
    · next huid =>
      have hne : i ≠ ev := fun h => huid (h ▸ rfl)
      have hmem : ev ∈ l := (List.mem_cons.mp hev).resolve_left hne.symm
      rw [ih hl.tail hmem, List.erase_cons_tail (by simpa using hne), Option.map_some]

/-- The list of a `ListScheduler` is the ideal one. -/
theorem lawful : Lawful Event.rank Event.uid ops
    (fun l m => l = m ∧ Queued Event.rank Event.uid m) fun _ _ => True where
  queued h := h.2
  insert := by
    rintro _ l ev ⟨rfl, hl⟩ hfresh
    exact ⟨_, rfl, insert_eq_place _ ev, hl.place uid_of_rank hfresh⟩
  next_nil := by
    rintro _ ⟨rfl, -⟩
    rfl
  next := by
    rintro _ l ev ⟨rfl, hl⟩
    exact ⟨l, rfl, rfl, hl.tail⟩
  remove := by
    rintro _ l ev ⟨rfl, hl⟩ hev -
    exact ⟨_, remove_of_mem hl hev, rfl, hl.sublist List.erase_sublist⟩

end ListScheduler

/-! ## MapScheduler -/

namespace MapScheduler

/-- `MapScheduler::Insert`: `std::map::insert` has no effect if there is an event of the same
time and uid, which the assertion refuses. -/
def insert (m_list : List Event) (ev : Event) : Option (List Event) :=
  match m_list with
  | [] => some [ev]
  | i :: m_list =>
    if ev.key.less i.key then some (ev :: i :: m_list)
    else if i.key.less ev.key then (insert m_list ev).map (i :: ·)
    else none

/-- `MapScheduler::RemoveNext` -/
def removeNext : List Event → Option (Event × List Event)
  | [] => none
  | next :: m_list => some (next, m_list)

/-- `MapScheduler::Remove` finds the event by its key, and erases it. -/
def remove (m_list : List Event) (ev : Event) : Option (List Event) :=
  match m_list with
  | [] => none
  | i :: m_list =>
    if !i.key.less ev.key && !ev.key.less i.key then
      if i.impl = ev.impl then some m_list else none
    else (remove m_list ev).map (i :: ·)

def ops : Ops (List Event) Event where
  insert := insert
  next := removeNext
  remove := remove

theorem insert_of_fresh {l : List Event} {ev : Event} (hfresh : ev.uid ∉ l.map Event.uid) :
    insert l ev = some (place Event.rank ev l) := by
  induction l with
  | nil => rfl
  | cons i l ih =>
    obtain ⟨hne, hfresh⟩ := not_or.mp (List.mem_cons.not.mp hfresh)
    simp only [insert, place, less_iff]
    split
    · rfl
    · next hlt =>
      have hgt : i.rank < ev.rank :=
        lt_of_le_of_ne (not_lt.mp hlt) fun h => hne (uid_of_rank i ev h).symm
      rw [if_pos hgt, ih hfresh, Option.map_some]

theorem remove_of_mem {l : List Event} {ev : Event} (hl : Queued Event.rank Event.uid l)
    (hev : ev ∈ l) : remove l ev = some (l.erase ev) := by
  induction l with
  | nil => exact absurd hev List.not_mem_nil
  | cons i l ih =>
    have hself : ev.key.less ev.key = false :=
      Bool.eq_false_iff.mpr fun h => lt_irrefl _ ((less_iff ev ev).mp h)
    rw [remove]
    rcases List.mem_cons.mp hev with rfl | hmem
    · rw [hself, List.erase_cons_head, if_pos rfl]
      rfl
    · -- the event is behind the first one, and so later than it
      have hlt : i.rank < ev.rank := hl.head_lt hmem
      have hne : i ≠ ev := fun h => lt_irrefl _ (h ▸ hlt)
      rw [(less_iff i ev).mpr hlt, ih hl.tail hmem,
        List.erase_cons_tail (by simpa using hne)]
      rfl

/-- The tree of a `MapScheduler`, read in order, is the ideal list. -/
theorem lawful : Lawful Event.rank Event.uid ops
    (fun l m => l = m ∧ Queued Event.rank Event.uid m) fun _ _ => True where
  queued h := h.2
  insert := by
    rintro _ l ev ⟨rfl, hl⟩ hfresh
    exact ⟨_, insert_of_fresh hfresh, rfl, hl.place uid_of_rank hfresh⟩
  next_nil := by
    rintro _ ⟨rfl, -⟩
    rfl
  next := by
    rintro _ l ev ⟨rfl, hl⟩
    exact ⟨l, rfl, rfl, hl.tail⟩
  remove := by
    rintro _ l ev ⟨rfl, hl⟩ hev -
    exact ⟨_, remove_of_mem hl hev, rfl, hl.sublist List.erase_sublist⟩

end MapScheduler

/-! ## HeapScheduler -/

structure HeapScheduler where
  m_heap : Array Event
  deriving DecidableEq

namespace HeapScheduler

/-- The item at the start of the array, which makes the indexes start at one -/
def empty : Event := ⟨0, 0, 0, 0⟩

def create : HeapScheduler := ⟨#[empty]⟩

/-- `m_heap[i]` -/
def get (h : HeapScheduler) (i : ℕ) : Event := h.m_heap.getD i empty

def parent (id : ℕ) : ℕ := id / 2

def leftChild (id : ℕ) : ℕ := id * 2

def rightChild (id : ℕ) : ℕ := id * 2 + 1

def root : ℕ := 1

def isRoot (id : ℕ) : Bool := id = root

def last (h : HeapScheduler) : ℕ := h.m_heap.size - 1

def isBottom (h : HeapScheduler) (id : ℕ) : Bool := id ≥ h.m_heap.size

def exch (h : HeapScheduler) (a b : ℕ) : HeapScheduler := ⟨h.m_heap.swapIfInBounds a b⟩

def isLessStrictly (h : HeapScheduler) (a b : ℕ) : Bool := (h.get a).key.less (h.get b).key

def smallest (h : HeapScheduler) (a b : ℕ) : ℕ := if h.isLessStrictly a b then a else b

/-- The loop of `HeapScheduler::BottomUp`, in at most `fuel` turns -/
def bottomUpFrom : ℕ → HeapScheduler → ℕ → HeapScheduler
  | 0, h, _ => h
  | fuel + 1, h, index =>
    if !isRoot index && h.isLessStrictly index (parent index) then
      bottomUpFrom fuel (h.exch index (parent index)) (parent index)
    else h

/-- `HeapScheduler::BottomUp`: the index is halved in each turn. -/
def bottomUp (h : HeapScheduler) : HeapScheduler := bottomUpFrom h.m_heap.size h h.last

/-- The loop of `HeapScheduler::TopDown`, in at most `fuel` turns -/
def topDownFrom : ℕ → HeapScheduler → ℕ → HeapScheduler
  | 0, h, _ => h
  | fuel + 1, h, index =>
    if !h.isBottom (rightChild index) then
      let tmp := h.smallest (leftChild index) (rightChild index)
      if h.isLessStrictly index tmp then h
      else topDownFrom fuel (h.exch index tmp) tmp
    else if h.isBottom index then h
    else if h.isBottom (leftChild index) then h
    else if h.isLessStrictly index (leftChild index) then h
    else h.exch index (leftChild index)

/-- `HeapScheduler::TopDown`: the index is doubled in each turn. -/
def topDown (h : HeapScheduler) (start : ℕ) : HeapScheduler := topDownFrom h.m_heap.size h start

/-- `m_heap.push_back (ev)` -/
def push (h : HeapScheduler) (ev : Event) : HeapScheduler := ⟨h.m_heap.push ev⟩

/-- `m_heap.pop_back ()` -/
def pop (h : HeapScheduler) : HeapScheduler := ⟨h.m_heap.pop⟩

/-- `HeapScheduler::Insert` -/
def insert (h : HeapScheduler) (ev : Event) : HeapScheduler := (h.push ev).bottomUp

def isEmpty (h : HeapScheduler) : Bool := h.m_heap.size = 1

/-- `HeapScheduler::RemoveNext`, which may not be called on an empty heap -/
def removeNext (h : HeapScheduler) : Option (Event × HeapScheduler) :=
  if h.isEmpty then none
  else some (h.get root, ((h.exch root h.last).pop).topDown root)

/-- The loop of `HeapScheduler::Remove` looks for the uid from the first index on. -/
def indexOf (h : HeapScheduler) (ev : Event) : Option ℕ :=
  (List.range' 1 h.last).find? fun i => ev.key.m_uid = (h.get i).key.m_uid

/-- `HeapScheduler::Remove` asserts that there is an event of the uid. -/
def remove (h : HeapScheduler) (ev : Event) : Option HeapScheduler :=
  match h.indexOf ev with
  | none => none
  | some i =>
    if (h.get i).impl = ev.impl then some (((h.exch i h.last).pop).topDown i) else none

/-- The event that `HeapScheduler::Remove` moves into the place of `ev` is not earlier than
the event above that place. -/
def movable (h : HeapScheduler) (ev : Event) : Bool :=
  match h.indexOf ev with
  | none => true
  | some i => i = h.last || isRoot i || !h.isLessStrictly h.last (parent i)

def ops : Ops HeapScheduler Event where
  insert h ev := some (h.insert ev)
  next := removeNext
  remove := remove

/-- The ranks of the items, as the heap compares them -/
def view (h : HeapScheduler) (i : ℕ) : ℕ ×ₗ ℕ := (h.get i).rank

theorem isLessStrictly_iff (h : HeapScheduler) (a b : ℕ) :
    h.isLessStrictly a b = true ↔ h.view a < h.view b :=
  less_iff _ _

/-! ### Exchanges -/

@[simp] theorem size_exch (h : HeapScheduler) (a b : ℕ) :
    (h.exch a b).m_heap.size = h.m_heap.size :=
  Array.size_swapIfInBounds

theorem get_exch (h : HeapScheduler) {a b : ℕ} (ha : a < h.m_heap.size) (hb : b < h.m_heap.size)
    (i : ℕ) : (h.exch a b).get i = h.get (Equiv.swap a b i) := by
  have hget : ∀ j, h.get j = h.m_heap[j]?.getD empty := fun j => Array.getD_eq_getD_getElem? ..
  rw [get, Array.getD_eq_getD_getElem?, hget, exch, Array.swapIfInBounds_def, dif_pos ha,
    dif_pos hb, Array.getElem?_swap]
  rw [Equiv.swap_apply_def]
  rcases eq_or_ne i a with rfl | hia
  · rcases eq_or_ne i b with rfl | hib
    · simp [ha]
    · simp [hb, hib.symm]
  · rcases eq_or_ne i b with rfl | hib
    · simp [ha, hia]
    · simp [hia, hib, hia.symm, hib.symm]

theorem view_exch (h : HeapScheduler) {a b : ℕ} (ha : a < h.m_heap.size)
    (hb : b < h.m_heap.size) : (h.exch a b).view = Heap.exchange h.view a b :=
  funext fun i => congrArg Event.rank (get_exch h ha hb i)

/-- The items have changed places, but the one at the start of the array. -/
structure Rearranged (h h' : HeapScheduler) : Prop where
  perm : h'.m_heap.toList.Perm h.m_heap.toList
  start : h'.get 0 = h.get 0

theorem Rearranged.refl (h : HeapScheduler) : Rearranged h h := ⟨List.Perm.refl _, rfl⟩

theorem Rearranged.trans {h h' h'' : HeapScheduler} (r : Rearranged h h')
    (r' : Rearranged h' h'') : Rearranged h h'' :=
  ⟨r'.perm.trans r.perm, r'.start.trans r.start⟩

theorem Rearranged.size {h h' : HeapScheduler} (r : Rearranged h h') :
    h'.m_heap.size = h.m_heap.size := by
  simpa using r.perm.length_eq

theorem rearranged_exch (h : HeapScheduler) {a b : ℕ} (ha : 1 ≤ a) (hb : 1 ≤ b)
    (has : a < h.m_heap.size) (hbs : b < h.m_heap.size) : Rearranged h (h.exch a b) where
  perm := by
    rw [exch, Array.swapIfInBounds_def, dif_pos has, dif_pos hbs]
    exact (Array.swap_perm has hbs).toList
  start := by
    rw [get_exch h has hbs, Equiv.swap_apply_of_ne_of_ne (by lia) (by lia)]

/-! ### The sifts -/

theorem bottomUpFrom_spec {fuel index : ℕ} {h : HeapScheduler}
    (ho : Heap.OpenAbove h.view h.last index) (hi : 1 ≤ index) (hil : index ≤ h.last)
    (hfuel : index ≤ fuel) : Heap.Ordered (bottomUpFrom fuel h index).view h.last ∧
      Rearranged h (bottomUpFrom fuel h index) := by
  induction fuel generalizing h index with
  | zero => exact absurd hi (by lia)
  | succ fuel ih =>
    rw [bottomUpFrom]
    split
    · next hc =>
      obtain ⟨hroot, hlt⟩ := Bool.and_eq_true_iff.mp hc
      have h2 : 2 ≤ index := by
        rcases hi.eq_or_lt with rfl | h2
        · exact absurd hroot (by decide)
        · exact h2
      have hp : parent index < index := Heap.half_lt h2
      have hin : index < h.m_heap.size := by unfold last at hil; lia
      have hstep : Rearranged h (h.exch index (parent index)) :=
        rearranged_exch h hi (by unfold parent; lia) hin (hp.trans hin)
      have hlast : (h.exch index (parent index)).last = h.last :=
        congrArg (· - 1) (size_exch h _ _)
      have hopen := ho.exchange h2 hil ((isLessStrictly_iff h _ _).mp hlt)
      have hopen' : Heap.OpenAbove (h.exch index (parent index)).view
          (h.exch index (parent index)).last (parent index) := by
        rw [hlast, view_exch h hin (hp.trans hin)]
        exact hopen
      obtain ⟨hord, hre⟩ := ih hopen' (by unfold parent; lia) (by lia) (by lia)
      exact ⟨hlast ▸ hord, hstep.trans hre⟩
    · next hc =>
      refine ⟨ho.ordered fun h2 => ?_, Rearranged.refl h⟩
      have hroot : isRoot index = false := decide_eq_false (by unfold root; lia)
      rw [hroot, Bool.not_false, Bool.true_and, isLessStrictly_iff] at hc
      exact not_lt.mp hc

theorem isBottom_iff (h : HeapScheduler) (i : ℕ) (hsize : 1 ≤ h.m_heap.size) :
    h.isBottom i = true ↔ h.last < i := by
  rw [isBottom, decide_eq_true_iff, last]
  lia

/-- The child that a sift away from the root looks at -/
theorem smallest_spec (h : HeapScheduler) (index : ℕ) :
    ∃ c, h.smallest (leftChild index) (rightChild index) = c ∧
      (c = leftChild index ∨ c = rightChild index) ∧
      ∀ i, i / 2 = index → h.view c ≤ h.view i := by
  refine ⟨_, rfl, ite_eq_or_eq .., fun i hi => ?_⟩
  have hchild : i = leftChild index ∨ i = rightChild index := by
    unfold leftChild rightChild
    lia
  rw [smallest]
  split
  · next hlt =>
    have hlt := (isLessStrictly_iff h _ _).mp hlt
    rcases hchild with rfl | rfl
    · exact le_rfl
    · exact hlt.le
  · next hle =>
    have hle := not_lt.mp ((isLessStrictly_iff h _ _).not.mp hle)
    rcases hchild with rfl | rfl
    · exact hle
    · exact le_rfl

theorem topDownFrom_spec {fuel index : ℕ} {h : HeapScheduler} (hsize : 1 ≤ h.m_heap.size)
    (ho : Heap.OpenBelow h.view h.last index) (hi : 1 ≤ index)
    (hfuel : h.m_heap.size ≤ fuel + index) :
    Heap.Ordered (topDownFrom fuel h index).view h.last ∧
      Rearranged h (topDownFrom fuel h index) := by
  induction fuel generalizing h index with
  | zero => exact ⟨ho.ordered fun i _ hn hp => absurd hn (by unfold last; lia), Rearranged.refl h⟩
  | succ fuel ih =>
    rw [topDownFrom]
    obtain ⟨c, hc, hchild, hleast⟩ := smallest_spec h index
    simp only [hc]
    split
    · next hright =>
      -- both children are there
      have hright : rightChild index ≤ h.last := by
        rw [Bool.not_eq_true', Bool.eq_false_iff, Ne, isBottom_iff h _ hsize] at hright
        exact not_lt.mp hright
      have hc2 : c / 2 = index ∧ index < c ∧ c ≤ h.last := by
        unfold leftChild at hchild
        unfold rightChild at hchild hright
        lia
      split
      · next hlt =>
        have hlt := (isLessStrictly_iff h _ _).mp hlt
        exact ⟨ho.ordered fun i _ _ hp => hlt.le.trans (hleast i hp), Rearranged.refl h⟩
      · next hle =>
        have hle := not_lt.mp ((isLessStrictly_iff h _ _).not.mp hle)
        have hcs : c < h.m_heap.size := by
          have := hc2.2.2
          unfold last at this
          lia
        have his : index < h.m_heap.size := hc2.2.1.trans hcs
        have hstep : Rearranged h (h.exch index c) := rearranged_exch h hi (by lia) his hcs
        have hlast : (h.exch index c).last = h.last := congrArg (· - 1) (size_exch h _ _)
        have hopen := ho.exchange (by lia) hc2.2.2 hc2.1 hle fun i _ _ hp => hleast i hp
        have hopen' : Heap.OpenBelow (h.exch index c).view (h.exch index c).last c := by
          rw [hlast, view_exch h his hcs]
          exact hopen
        obtain ⟨hord, hre⟩ := ih (by rwa [size_exch]) hopen' (by lia) (by rw [size_exch]; lia)
        exact ⟨hlast ▸ hord, hstep.trans hre⟩
    · next hright =>
      have hright : h.last < rightChild index := by
        rwa [Bool.not_eq_true', Bool.not_eq_false, isBottom_iff h _ hsize] at hright
      unfold rightChild at hright
      split
      · next hbottom =>
        have hbottom := (isBottom_iff h _ hsize).mp hbottom
        exact ⟨ho.ordered fun i _ hn hp => absurd hn (by lia), Rearranged.refl h⟩
      split
      · next hleft =>
        have hleft := (isBottom_iff h _ hsize).mp hleft
        unfold leftChild at hleft
        exact ⟨ho.ordered fun i _ hn hp => absurd hn (by lia), Rearranged.refl h⟩
      next hleft =>
      -- the left child is the last item, and the only child
      have hleft := not_lt.mp ((isBottom_iff h _ hsize).not.mp hleft)
      have honly : ∀ i, i ≤ h.last → i / 2 = index → i = leftChild index := fun i hn hp => by
        unfold leftChild
        lia
      split
      · next hlt =>
        have hlt := (isLessStrictly_iff h _ _).mp hlt
        exact ⟨ho.ordered fun i _ hn hp => honly i hn hp ▸ hlt.le, Rearranged.refl h⟩
      · next hle =>
        have hle := not_lt.mp ((isLessStrictly_iff h _ _).not.mp hle)
        have hls : leftChild index < h.m_heap.size := by
          have := hleft
          unfold last at this
          lia
        have his : index < h.m_heap.size := by
          unfold leftChild at hls
          lia
        have hl2 : 2 ≤ leftChild index ∧ leftChild index / 2 = index := by
          unfold leftChild
          lia
        have hopen := ho.exchange hl2.1 hleft hl2.2 hle fun i _ hn hp => honly i hn hp ▸ le_rfl
        refine ⟨?_, rearranged_exch h hi (by lia) his hls⟩
        rw [view_exch h his hls]
        exact hopen.ordered fun i _ hn hp => absurd hn (by unfold leftChild at hp; lia)

/-- A sift away from the root ends at once where each child is later. -/
theorem topDownFrom_of_less {fuel index : ℕ} {h : HeapScheduler} (hsize : 1 ≤ h.m_heap.size)
    (hless : ∀ i, i / 2 = index → i ≤ h.last → h.view index < h.view i) :
    topDownFrom fuel h index = h := by
  have hleft : leftChild index / 2 = index := by
    unfold leftChild
    lia
  have hright : rightChild index / 2 = index := by
    unfold rightChild
    lia
  cases fuel with
  | zero => rfl
  | succ fuel =>
    rw [topDownFrom]
    simp only [Bool.not_eq_true']
    split
    · next hr =>
      rw [Bool.eq_false_iff, Ne, isBottom_iff h _ hsize] at hr
      have hc : h.smallest (leftChild index) (rightChild index) / 2 = index ∧
          h.smallest (leftChild index) (rightChild index) ≤ h.last := by
        rw [smallest]
        split
        · exact ⟨hleft, by unfold leftChild; unfold rightChild at hr; lia⟩
        · exact ⟨hright, not_lt.mp hr⟩
      rw [if_pos ((isLessStrictly_iff h _ _).mpr (hless _ hc.1 hc.2))]
    · split
      · rfl
      split
      · rfl
      · next hl =>
        have hl := not_lt.mp ((isBottom_iff h _ hsize).not.mp hl)
        rw [if_pos ((isLessStrictly_iff h _ _).mpr (hless _ hleft hl))]

/-! ### The events of a heap -/

/-- The heap holds the events of the list. -/
structure Holds (h : HeapScheduler) (l : List Event) : Prop where
  perm : h.m_heap.toList.Perm (empty :: l)
  start : h.get 0 = empty
  ordered : Heap.Ordered h.view h.last
  queued : Queued Event.rank Event.uid l

variable {h h' : HeapScheduler} {l : List Event} {ev : Event}

theorem Holds.size (hh : Holds h l) : h.m_heap.size = l.length + 1 := by
  simpa using hh.perm.length_eq

theorem Holds.last (hh : Holds h l) : h.last = l.length := by
  rw [HeapScheduler.last, hh.size, Nat.add_sub_cancel]

theorem toList_eq (h : HeapScheduler) :
    h.m_heap.toList = (List.range h.m_heap.size).map h.get := by
  refine List.ext_getElem (by simp) fun i hi _ => ?_
  have hi : i < h.m_heap.size := by simpa using hi
  rw [List.getElem_map, List.getElem_range, get, Array.getD_eq_getD_getElem?,
    Array.getElem?_eq_getElem hi, Option.getD_some, Array.getElem_toList]

/-- The items but the one at the start are the events. -/
theorem Holds.items (hh : Holds h l) : ((List.range' 1 h.last).map h.get).Perm l := by
  have hall : h.m_heap.toList = empty :: (List.range' 1 h.last).map h.get := by
    rw [toList_eq, hh.size, hh.last, List.range_succ_eq_map, List.map_cons, hh.start,
      List.range'_eq_map_range, List.map_map, List.map_map]
    simp [Function.comp_def, Nat.add_comm]
  exact (List.perm_cons empty).mp (hall ▸ hh.perm)

theorem Holds.mem_iff (hh : Holds h l) : ev ∈ l ↔ ∃ i, 1 ≤ i ∧ i ≤ h.last ∧ h.get i = ev := by
  rw [← hh.items.mem_iff, List.mem_map]
  refine exists_congr fun i => ?_
  rw [List.mem_range'_1, and_assoc, Nat.add_comm 1, Nat.lt_succ_iff]

theorem Holds.get_mem (hh : Holds h l) {i : ℕ} (hi : 1 ≤ i) (hil : i ≤ h.last) : h.get i ∈ l :=
  hh.mem_iff.mpr ⟨i, hi, hil, rfl⟩

/-- The event is found where it is. -/
theorem Holds.indexOf (hh : Holds h l) (hev : ev ∈ l) :
    ∃ i, h.indexOf ev = some i ∧ 1 ≤ i ∧ i ≤ h.last ∧ h.get i = ev := by
  cases hfind : h.indexOf ev with
  | none =>
    obtain ⟨i, hi, hil, rfl⟩ := hh.mem_iff.mp hev
    exact absurd (List.find?_eq_none.mp hfind i (List.mem_range'_1.mpr (by lia))) (by simp)
  | some i =>
    have huid : ev.uid = (h.get i).uid := by
      simpa [Event.uid] using List.find?_some hfind
    have hi := List.mem_range'_1.mp (List.mem_of_find?_eq_some hfind)
    have hil : i ≤ h.last := by lia
    exact ⟨i, rfl, hi.1, hil, hh.queued.inj (hh.get_mem hi.1 hil) hev huid.symm⟩

theorem get_push (h : HeapScheduler) (ev : Event) {i : ℕ} (hi : i < h.m_heap.size) :
    (h.push ev).get i = h.get i := by
  rw [get, get, push, Array.getD_eq_getD_getElem?, Array.getD_eq_getD_getElem?,
    Array.getElem?_push_lt hi, Array.getElem?_eq_getElem hi]

theorem get_pop (h : HeapScheduler) {i : ℕ} (hi : i < h.m_heap.size - 1) :
    h.pop.get i = h.get i := by
  rw [get, get, pop, Array.getD_eq_getD_getElem?, Array.getD_eq_getD_getElem?,
    Array.getElem?_pop, if_pos hi]

theorem holds_create : Holds create [] where
  perm := List.Perm.refl _
  start := rfl
  ordered i hi hn := absurd hn (by change ¬i ≤ 0; lia)
  queued := queued_nil

/-- `HeapScheduler::Insert` adds the event. -/
theorem Holds.insert (hh : Holds h l) (hfresh : ev.uid ∉ l.map Event.uid) :
    Holds (h.insert ev) (place Event.rank ev l) := by
  have hsize := hh.size
  have hpush : (h.push ev).m_heap.size = h.m_heap.size + 1 := Array.size_push ..
  have hlast : (h.push ev).last = h.last + 1 := by
    rw [HeapScheduler.last, hpush, HeapScheduler.last]
    lia
  have hold : Heap.Ordered (h.push ev).view h.last :=
    hh.ordered.congr fun i hi => congrArg Event.rank (get_push h ev (by rw [hh.last] at hi; lia))
  have hopen : Heap.OpenAbove (h.push ev).view (h.push ev).last (h.push ev).last :=
    hlast ▸ hold.openAbove
  obtain ⟨hord, hre⟩ := bottomUpFrom_spec hopen (by lia) le_rfl
    (Nat.sub_le (h.push ev).m_heap.size 1)
  have hlast' : (h.insert ev).last = (h.push ev).last := congrArg (· - 1) hre.size
  constructor
  · have hitems : (h.push ev).m_heap.toList = h.m_heap.toList ++ [ev] := Array.toList_push
    calc (h.insert ev).m_heap.toList
      List.Perm _ (h.m_heap.toList ++ [ev]) := hitems ▸ hre.perm
      List.Perm _ (ev :: h.m_heap.toList) := List.perm_append_singleton ev _
      List.Perm _ (ev :: empty :: l) := hh.perm.cons ev
      List.Perm _ (empty :: ev :: l) := List.Perm.swap empty ev l
      List.Perm _ (empty :: place Event.rank ev l) := ((place_perm ev l).symm).cons empty
  · exact hre.start.trans ((get_push h ev (by lia)).trans hh.start)
  · exact hlast' ▸ hord
  · exact hh.queued.place uid_of_rank hfresh

/-! ### Taking an event out -/

/-- The heap after the last item has taken the place of the one at `i` -/
def takeOut (h : HeapScheduler) (i : ℕ) : HeapScheduler := (h.exch i h.last).pop

theorem size_takeOut (h : HeapScheduler) (i : ℕ) :
    (h.takeOut i).m_heap.size = h.m_heap.size - 1 := by
  rw [takeOut, pop, Array.size_pop, size_exch]

theorem Holds.get_takeOut (hh : Holds h l) {i : ℕ} (hil : i ≤ h.last) {j : ℕ}
    (hj : j < h.last) : (h.takeOut i).get j = h.get (Equiv.swap i h.last j) := by
  have hsize := hh.size
  have hlast := hh.last
  rw [takeOut, get_pop _ (by rw [size_exch]; lia), get_exch h (by lia) (by lia)]

theorem Holds.takeOut_perm (hh : Holds h l) {i : ℕ} (hi : 1 ≤ i) (hil : i ≤ h.last) :
    (h.takeOut i).m_heap.toList.Perm (empty :: l.erase (h.get i)) := by
  have hsize := hh.size
  have hlast := hh.last
  have hle : (h.exch i h.last).m_heap.toList =
      (h.takeOut i).m_heap.toList ++ [h.get i] := by
    have hlast' : h.m_heap.size = h.last + 1 := by lia
    rw [toList_eq, toList_eq, size_takeOut, size_exch, hlast', List.range_succ, List.map_append,
      List.map_singleton, get_exch h (by lia) (by lia), Equiv.swap_apply_right]
    refine congrArg (· ++ _) (List.map_congr_left fun j hj => ?_)
    have hj := List.mem_range.mp hj
    rw [hh.get_takeOut hil (by lia), get_exch h (by lia) (by lia)]
  have hmem : h.get i ∈ l := hh.get_mem hi hil
  refine (List.perm_cons (h.get i)).mp ?_
  calc h.get i :: (h.takeOut i).m_heap.toList
    List.Perm _ ((h.takeOut i).m_heap.toList ++ [h.get i]) :=
      (List.perm_append_singleton _ _).symm
    List.Perm _ h.m_heap.toList :=
      hle ▸ (rearranged_exch h hi (by lia) (by lia) (by lia)).perm
    List.Perm _ (empty :: l) := hh.perm
    List.Perm _ (empty :: h.get i :: l.erase (h.get i)) := (List.perm_cons_erase hmem).cons empty
    List.Perm _ (h.get i :: empty :: l.erase (h.get i)) := List.Perm.swap _ _ _

/-- After the place of `i` has been filled from the end, only what is below it may be out of
order, if the event may stay below the one above. -/
theorem Holds.openBelow_takeOut (hh : Holds h l) {i : ℕ} (hi : 1 ≤ i) (hil : i ≤ h.last)
    (hup : i = h.last ∨ (2 ≤ i → h.view (i / 2) ≤ h.view h.last)) :
    Heap.OpenBelow (h.takeOut i).view (h.takeOut i).last i := by
  have hlast : (h.takeOut i).last = h.last - 1 := by
    rw [HeapScheduler.last, size_takeOut, HeapScheduler.last]
  have hview : ∀ j ≤ h.last - 1, (h.takeOut i).view j = Heap.exchange h.view i h.last j :=
    fun j hj => congrArg Event.rank (hh.get_takeOut hil (by lia))
  rw [hlast]
  refine Heap.OpenBelow.congr ?_ hview
  obtain ⟨n, hn⟩ : ∃ n, h.last = n + 1 := ⟨h.last - 1, by lia⟩
  have hord : Heap.Ordered h.view (n + 1) := hn ▸ hh.ordered
  rw [hn] at hup hil ⊢
  rw [Nat.add_sub_cancel]
  rcases hil.eq_or_lt with rfl | hlt
  · have hn' : Heap.Ordered h.view n := fun j hj hjn => hord j hj (by lia)
    refine (hn'.openBelow (n + 1)).congr fun j hj => ?_
    rw [Heap.exchange_of_ne (by lia) (by lia)]
  · exact (hord.openBelow_iff hi (by lia)).mpr (hup.resolve_left (by lia))

theorem Holds.topDown_takeOut (hh : Holds h l) {i : ℕ} (hi : 1 ≤ i) (hil : i ≤ h.last)
    (hup : i = h.last ∨ (2 ≤ i → h.view (i / 2) ≤ h.view h.last)) :
    Holds ((h.takeOut i).topDown i) (l.erase (h.get i)) := by
  have hsize := hh.size
  have hlast := hh.last
  have hpos : 1 ≤ (h.takeOut i).m_heap.size := by
    rw [size_takeOut]
    lia
  obtain ⟨hord, hre⟩ := topDownFrom_spec hpos (hh.openBelow_takeOut hi hil hup) hi
    (Nat.le_add_right (h.takeOut i).m_heap.size i)
  have hlast' : ((h.takeOut i).topDown i).last = (h.takeOut i).last := congrArg (· - 1) hre.size
  constructor
  · exact hre.perm.trans (hh.takeOut_perm hi hil)
  · refine hre.start.trans ?_
    rw [hh.get_takeOut hil (by lia), Equiv.swap_apply_of_ne_of_ne (by lia) (by lia), hh.start]
  · exact hlast' ▸ hord
  · exact hh.queued.sublist List.erase_sublist

/-- `HeapScheduler::RemoveNext` takes the first event. -/
theorem Holds.removeNext (hh : Holds h (ev :: l)) :
    ∃ h', h.removeNext = some (ev, h') ∧ Holds h' l := by
  have hsize := hh.size
  have hlast : h.last = l.length + 1 := hh.last
  have hroot : h.get root = ev := by
    -- the event is somewhere in the heap, and no event is before it
    obtain ⟨i, hi, hil, hget⟩ := hh.mem_iff.mp (List.mem_cons_self (a := ev))
    have hmem : h.get root ∈ ev :: l := hh.get_mem le_rfl (by unfold root; lia)
    rcases List.mem_cons.mp hmem with h1 | h1
    · exact h1
    · have hle : h.view 1 ≤ h.view i := hh.ordered.root_le hi hil
      have hlt : ev.rank < h.view 1 := hh.queued.head_lt h1
      exact absurd (hlt.trans_le hle) (by rw [view, hget]; exact lt_irrefl _)
  have hempty : h.isEmpty = false := decide_eq_false (by rw [hsize]; simp)
  refine ⟨_, by rw [HeapScheduler.removeNext, hempty, hroot]; rfl, ?_⟩
  have hnext := hh.topDown_takeOut (i := root) le_rfl (by unfold root; lia)
    (.inr fun h2 => absurd h2 (by decide))
  rwa [hroot, List.erase_cons_head] at hnext

theorem movable_iff {i : ℕ} (hi : 1 ≤ i) (hfind : h.indexOf ev = some i) :
    h.movable ev = true ↔ i = h.last ∨ (2 ≤ i → h.view (i / 2) ≤ h.view h.last) := by
  have hparent : (!h.isLessStrictly h.last (parent i)) = true ↔
      h.view (i / 2) ≤ h.view h.last := by
    rw [Bool.not_eq_true', Bool.eq_false_iff, Ne, isLessStrictly_iff, not_lt, parent]
  rw [movable, hfind]
  have hroot : isRoot i = true ↔ i = 1 := decide_eq_true_iff
  simp only [Bool.or_eq_true, decide_eq_true_eq, hparent, hroot, or_assoc]
  refine or_congr_right ⟨fun h h2 => h.resolve_left (by lia), fun h => ?_⟩
  rcases hi.eq_or_lt with h1 | h2
  · exact .inl h1.symm
  · exact .inr (h h2)

theorem Holds.remove_eq (hh : Holds h l) (hev : ev ∈ l) :
    ∃ i, h.indexOf ev = some i ∧ 1 ≤ i ∧ i ≤ h.last ∧ h.get i = ev ∧
      h.remove ev = some ((h.takeOut i).topDown i) := by
  obtain ⟨i, hfind, hi, hil, hget⟩ := hh.indexOf hev
  exact ⟨i, hfind, hi, hil, hget, by rw [remove, hfind]; exact if_pos (by rw [hget])⟩

theorem Holds.remove (hh : Holds h l) (hev : ev ∈ l) (hmov : h.movable ev = true) :
    ∃ h', h.remove ev = some h' ∧ Holds h' (l.erase ev) := by
  obtain ⟨i, hfind, hi, hil, rfl, hremove⟩ := hh.remove_eq hev
  exact ⟨_, hremove, hh.topDown_takeOut hi hil ((movable_iff hi hfind).mp hmov)⟩

/-- `HeapScheduler::Remove` leaves a heap exactly when the event that it moves is not earlier
than the one above its new place: it is sifted away from the root only. -/
theorem ordered_remove_iff (hh : Holds h l) (hev : ev ∈ l) (hremove : h.remove ev = some h') :
    Heap.Ordered h'.view h'.last ↔ h.movable ev = true := by
  obtain ⟨i, hfind, hi, hil, rfl, heq⟩ := hh.remove_eq hev
  obtain rfl : (h.takeOut i).topDown i = h' := Option.some.inj (heq.symm.trans hremove)
  constructor
  · intro hord
    rw [movable_iff hi hfind]
    by_contra hnot
    obtain ⟨hne, hnot⟩ := not_or.mp hnot
    obtain ⟨h2, hlt⟩ := Classical.not_imp.mp hnot
    have hlt := not_le.mp hlt
    have hsize := hh.size
    have hlength := hh.last
    have hlast : (h.takeOut i).last = h.last - 1 := by
      rw [last, size_takeOut, last]
    have hplace : (h.takeOut i).view i = h.view h.last :=
      congrArg Event.rank ((hh.get_takeOut hil (by lia)).trans
        (congrArg h.get (Equiv.swap_apply_left i h.last)))
    have hoff : ∀ j < h.last, j ≠ i → (h.takeOut i).view j = h.view j := fun j hj hji =>
      congrArg Event.rank ((hh.get_takeOut hil hj).trans
        (congrArg h.get (Equiv.swap_apply_of_ne_of_ne hji hj.ne)))
    -- the event moved is earlier than all that is below it, and stays there
    have hstay : (h.takeOut i).topDown i = h.takeOut i := by
      refine topDownFrom_of_less (by rw [size_takeOut, hsize]; lia) fun j hj hjl => ?_
      have hjlast : j < h.last := by lia
      rw [hplace, hoff j hjlast (by lia)]
      calc h.view h.last < h.view (i / 2) := hlt
        _ ≤ h.view i := hh.ordered i h2 hil
        _ ≤ h.view j := hj ▸ hh.ordered j (by lia) hjlast.le
    rw [hstay] at hord
    have hpair := hord i h2 (by lia)
    rw [hplace, hoff _ (by lia) (Heap.half_ne h2).symm] at hpair
    exact absurd hpair (not_le.mpr hlt)
  · intro hmov
    obtain ⟨h'', hremove', hholds⟩ := hh.remove hev hmov
    obtain rfl : (h.takeOut i).topDown i = h'' := Option.some.inj (heq.symm.trans hremove')
    exact hholds.ordered

/-- A request to the heap and to the ideal queue, which both have to answer -/
def stepBoth (s : HeapScheduler × List Event) (c : Cmd Event) :
    Option (HeapScheduler × List Event) :=
  (step ops ⟨s.1, []⟩ c).bind fun h =>
    (step (ideal Event.rank Event.uid) ⟨s.2, []⟩ c).map fun l => (h.queue, l.queue)

/-- No request of the run moves an event below a later one. -/
def Movable (s : HeapScheduler × List Event) : Cmd Event → Prop
  | .remove ev => s.1.movable ev = true
  | _ => True

theorem holds_stepBoth {s t : HeapScheduler × List Event} {c : Cmd Event} (hs : Holds s.1 s.2)
    (hstep : stepBoth s c = some t) : Holds t.1 t.2 ↔ Movable s c := by
  obtain ⟨⟨h', out⟩, hheap, hlist⟩ := Option.bind_eq_some_iff.mp hstep
  obtain ⟨⟨l', out'⟩, hideal, rfl⟩ := Option.map_eq_some_iff.mp hlist
  cases c with
  | insert ev =>
    obtain ⟨q, hq, heq⟩ := Option.map_eq_some_iff.mp hideal
    obtain ⟨hfresh, hq⟩ := Option.ite_none_left_eq_some.mp hq
    cases hq
    cases heq
    cases hheap
    exact iff_of_true (hs.insert hfresh) trivial
  | next =>
    obtain ⟨⟨ev, q⟩, hq, heq⟩ := Option.map_eq_some_iff.mp hideal
    obtain ⟨⟨ev', q'⟩, hq', heq'⟩ := Option.map_eq_some_iff.mp hheap
    cases heq
    cases heq'
    rcases s with ⟨h, _ | ⟨a, l⟩⟩
    · cases hq
    · cases hq
      obtain ⟨h'', hnext, hholds⟩ := hs.removeNext
      cases hnext.symm.trans hq'
      exact iff_of_true hholds trivial
  | remove ev =>
    obtain ⟨q, hq, heq⟩ := Option.map_eq_some_iff.mp hideal
    obtain ⟨hmem, hq⟩ := Option.ite_none_right_eq_some.mp hq
    obtain ⟨q', hq', heq'⟩ := Option.map_eq_some_iff.mp hheap
    cases hq
    cases heq
    cases heq'
    refine ⟨fun hholds => (ordered_remove_iff hs hmem hq').mp hholds.ordered, fun hmov => ?_⟩
    obtain ⟨h'', hdel, hholds⟩ := hs.remove hmem hmov
    cases hdel.symm.trans hq'
    exact hholds

/-- The list of a `HeapScheduler` is a heap of the events still to come throughout a run
exactly when each `Remove` of the run moves an event that is not earlier than the one above its
new place. -/
theorem stays_heap_iff (cs : List (Cmd Event)) :
    Runs.Always stepBoth (fun s => Holds s.1 s.2) (create, []) cs ↔
      Runs.Guarded stepBoth Movable (create, []) cs :=
  Runs.always_iff_guarded (J := fun _ => True) (fun _ _ _ _ _ => trivial)
    (fun _ _ _ _ hs ht => holds_stepBoth hs ht) trivial holds_create cs

/-- The event of time 4 takes the place of the one of time 11 and stays below the one of
time 10, which is handed out first. -/
example : (Runs.run (step ops) ⟨create, []⟩
    [.insert ⟨0, 1, 4, 0⟩, .insert ⟨1, 10, 5, 0⟩, .insert ⟨2, 2, 6, 0⟩, .insert ⟨3, 11, 7, 0⟩,
      .insert ⟨4, 12, 8, 0⟩, .insert ⟨5, 3, 9, 0⟩, .insert ⟨6, 4, 10, 0⟩, .remove ⟨3, 11, 7, 0⟩,
      .insert ⟨7, 20, 11, 0⟩, .insert ⟨8, 21, 12, 0⟩, .insert ⟨9, 22, 13, 0⟩, .next, .next, .next,
      .next, .next]).map (fun s => s.entries.map (·.key.m_ts)) = some [1, 2, 3, 10, 4] := by
  decide +kernel

/-- A `HeapScheduler` is a queue, as long as `Remove` moves no event below a later one. -/
theorem lawful : Lawful Event.rank Event.uid ops Holds fun h ev => h.movable ev = true where
  queued h := h.queued
  insert hh hfresh := ⟨_, rfl, hh.insert hfresh⟩
  next_nil hh := if_pos (decide_eq_true hh.size)
  next hh := hh.removeNext
  remove hh hev hmov := hh.remove hev hmov

end HeapScheduler

/-- In every run in which the events inserted have different uids and those removed are in the
list, the schedulers hand out the same events, the heap as long as `Remove` keeps it one. -/
theorem event_lists_agree {cs : List (Cmd Event)} {t : Served (List Event) Event}
    (hrun : Runs.run (step (ideal Event.rank Event.uid)) ⟨[], []⟩ cs = some t) :
    Runs.run (step ListScheduler.ops) ⟨[], []⟩ cs = some t ∧
    Runs.run (step MapScheduler.ops) ⟨[], []⟩ cs = some t ∧
    (Runs.Meets (step HeapScheduler.ops) (CanRemove fun h ev => h.movable ev = true)
        ⟨HeapScheduler.create, []⟩ cs →
      ∃ h, Runs.run (step HeapScheduler.ops) ⟨HeapScheduler.create, []⟩ cs =
        some ⟨h, t.entries⟩ ∧ h.Holds t.queue) := by
  have hfree : ∀ {ops : Ops (List Event) Event}, Runs.Meets (step ops)
      (CanRemove fun _ _ => True) ⟨[], []⟩ cs :=
    Runs.meets_of_forall (fun _ c _ => by cases c <;> trivial) _
  refine ⟨?_, ?_, fun hmov => HeapScheduler.lawful.served HeapScheduler.holds_create hmov hrun⟩
  · obtain ⟨q, hq, rfl, -⟩ := ListScheduler.lawful.served ⟨rfl, queued_nil⟩ hfree hrun
    exact hq
  · obtain ⟨q, hq, rfl, -⟩ := MapScheduler.lawful.served ⟨rfl, queued_nil⟩ hfree hrun
    exact hq

/-- Requests among which a `Remove` fills the place of an event from the end of the heap -/
def exRequests : List (Cmd Event) :=
  [.insert ⟨0, 7, 4, 0⟩, .insert ⟨1, 3, 5, 0⟩, .insert ⟨2, 5, 6, 1⟩, .insert ⟨3, 3, 7, 0⟩, .next,
    .insert ⟨4, 9, 8, 0⟩, .remove ⟨2, 5, 6, 1⟩, .next, .next, .next]

theorem event_lists_agree_ex :
    (Runs.run (step (ideal Event.rank Event.uid)) ⟨[], []⟩ exRequests).map Served.entries =
      some [⟨1, 3, 5, 0⟩, ⟨3, 3, 7, 0⟩, ⟨0, 7, 4, 0⟩, ⟨4, 9, 8, 0⟩] ∧
    ∃ h, Runs.run (step HeapScheduler.ops) ⟨HeapScheduler.create, []⟩ exRequests =
      some ⟨h, [⟨1, 3, 5, 0⟩, ⟨3, 3, 7, 0⟩, ⟨0, 7, 4, 0⟩, ⟨4, 9, 8, 0⟩]⟩ ∧ h.Holds [] := by
  have hrun : Runs.run (step (ideal Event.rank Event.uid)) ⟨[], []⟩ exRequests =
      some ⟨[], [⟨1, 3, 5, 0⟩, ⟨3, 3, 7, 0⟩, ⟨0, 7, 4, 0⟩, ⟨4, 9, 8, 0⟩]⟩ := by decide +kernel
  exact ⟨by rw [hrun]; rfl, (event_lists_agree hrun).2.2 (by decide +kernel)⟩

end Paraleon.Core
