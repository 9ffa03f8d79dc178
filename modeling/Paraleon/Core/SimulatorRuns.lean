import Paraleon.Core.Simulator

/-!
# What holds in every run of the simulator

A run asks for times that are not in the past and fit into a `Time`, uses ids that it was given
and makes fewer than `2 ^ 32` events. With each lawful scheduler:

* `runs_in_order`: no assertion fails; the events are handled in the order of their times and
  uids; each event scheduled is in the list, was handled or was removed, and only one of
  these; and the events notified are the ones handled that were not cancelled.
* `isExpired_exact`: an id is expired exactly when its event is not in the list any more, or
  is cancelled, and until then `GetDelayLeft` leads to the time of the event.
-/

namespace Paraleon.Core

open PriorityQueue

namespace DefaultSimulatorImpl

variable {σ : Type*} {ops : Ops σ Event} {holds : σ → List Event → Prop}
variable {removable : σ → Event → Prop}
variable {s t : DefaultSimulatorImpl σ} {l : List Event}

/-- What the program owes the simulator -/
def CallOk (ops : Ops σ Event) (removable : σ → Event → Prop) (s : DefaultSimulatorImpl σ) :
    Call → Prop
  | .schedule time | .scheduleWithContext _ time =>
    0 ≤ time ∧ time + s.m_currentTs < 2 ^ 63 ∧ s.m_uid + 1 < 2 ^ 32
  | .postWithContext _ time => 0 ≤ time ∧ time < 2 ^ 63
  | .scheduleNow | .scheduleDestroy => s.m_uid + 1 < 2 ^ 32
  | .cancel id => id ∈ s.ids
  | .remove id => id ∈ s.ids ∧ removable s.m_events (EventId.event id)
  | .stop => True
  | .enterRun | .processEventsWithContext =>
    s.m_uid + s.m_eventsWithContext.length < 2 ^ 32 ∧
      ∀ e ∈ s.m_eventsWithContext, s.m_currentTs + e.timestamp < 2 ^ 63
  | .turn => isEmpty ops s = false ∧ s.m_stop = false
  | .leaveRun => isEmpty ops s = true ∨ s.m_stop = true

instance [∀ q ev, Decidable (removable q ev)] (s : DefaultSimulatorImpl σ) (c : Call) :
    Decidable (CallOk ops removable s c) := by
  cases c <;> unfold CallOk <;> infer_instance

/-- The time and the uid of the event in hand -/
def current (s : DefaultSimulatorImpl σ) : ℕ ×ₗ ℕ := toLex (s.m_currentTs, s.m_currentUid)

/-- The event list holds `l`, which is all that was scheduled and is still to come. -/
structure Sound (holds : σ → List Event → Prop) (s : DefaultSimulatorImpl σ) (l : List Event) :
    Prop where
  holds : holds s.m_events l
  count : s.m_unscheduledEvents = l.length
  partition : s.scheduled.Perm (s.handled ++ (s.removed ++ l))
  uids : ∀ ev ∈ s.scheduled, 4 ≤ ev.uid ∧ ev.uid < s.m_uid
  distinct : (s.scheduled.map Event.uid).Nodup
  past : ∀ ev ∈ s.handled, ev.rank ≤ s.current
  future : ∀ ev ∈ l, s.current < ev.rank
  ordered : s.handled.Pairwise fun a b => a.rank < b.rank
  running : s.m_currentUid < s.m_uid
  counting : 4 ≤ s.m_uid

/-- The `EventImpl` objects that events scheduled, posted and kept for the end have -/
def impls (s : DefaultSimulatorImpl σ) : List ℕ :=
  s.scheduled.map Event.impl ++ (s.m_eventsWithContext.map EventWithContext.event ++
    (s.ids.filter fun id => id.m_uid = 2).map EventId.m_eventImpl)

/-- No two events have one `EventImpl`, and the flags say what became of the events. -/
structure Owned (s : DefaultSimulatorImpl σ) : Prop where
  nodup : s.impls.Nodup
  made : ∀ i ∈ s.impls, i < s.m_cancel.length
  removed : ∀ ev ∈ s.removed, s.isCancelled ev.impl = true
  notified : s.notified = s.handled.filter fun ev => !s.isCancelled ev.impl
  issued : ∀ id ∈ s.ids, id.m_uid ≠ 2 → EventId.event id ∈ s.scheduled
  posted : s.m_eventsWithContextEmpty = true → s.m_eventsWithContext = []

theorem Sound.mem_scheduled (h : Sound holds s l) {ev : Event} :
    ev ∈ s.scheduled ↔ ev ∈ s.handled ∨ ev ∈ s.removed ∨ ev ∈ l := by
  rw [h.partition.mem_iff, List.mem_append, List.mem_append]

/-! ## Scheduling -/

/-- What `Sound` and `Owned` do not speak of may differ. -/
theorem Sound.congr (h : Sound holds s l) (hevents : t.m_events = s.m_events)
    (hcount : t.m_unscheduledEvents = s.m_unscheduledEvents)
    (hscheduled : t.scheduled = s.scheduled) (hhandled : t.handled = s.handled)
    (hremoved : t.removed = s.removed) (huid : s.m_uid ≤ t.m_uid)
    (hts : t.m_currentTs = s.m_currentTs) (hcur : t.m_currentUid = s.m_currentUid) :
    Sound holds t l := by
  have hcurrent : t.current = s.current := by rw [current, current, hts, hcur]
  constructor
  · exact hevents ▸ h.holds
  · exact hcount ▸ h.count
  · rw [hscheduled, hhandled, hremoved]
    exact h.partition
  · rw [hscheduled]
    exact fun ev hev => ⟨(h.uids ev hev).1, (h.uids ev hev).2.trans_le huid⟩
  · exact hscheduled ▸ h.distinct
  · rw [hhandled, hcurrent]
    exact h.past
  · rw [hcurrent]
    exact h.future
  · exact hhandled ▸ h.ordered
  · exact hcur ▸ h.running.trans_le huid
  · exact h.counting.trans huid

/-- An event that is not in the past takes its place in the list. -/
theorem Sound.insertEvent (hl : Lawful Event.rank Event.uid ops holds removable)
    (h : Sound holds s l) {ts : ℕ} (hts : s.m_currentTs ≤ ts) (huid : s.m_uid + 1 < 2 ^ 32)
    (impl context : ℕ) :
    ∃ m_events, DefaultSimulatorImpl.insertEvent ops s impl ts context = some { s with
        m_events
        m_uid := s.m_uid + 1
        m_unscheduledEvents := s.m_unscheduledEvents + 1
        scheduled := s.scheduled ++ [s.newEvent impl ts context] } ∧
      Sound holds { s with
        m_events
        m_uid := s.m_uid + 1
        m_unscheduledEvents := s.m_unscheduledEvents + 1
        scheduled := s.scheduled ++ [s.newEvent impl ts context] }
        (place Event.rank (s.newEvent impl ts context) l) := by
  have hnew : ∀ ev ∈ s.scheduled, ev.uid ≠ (s.newEvent impl ts context).uid :=
    fun ev hev => (h.uids ev hev).2.ne
  have hfresh : (s.newEvent impl ts context).uid ∉ l.map Event.uid := fun hmem => by
    obtain ⟨ev, hev, heq⟩ := List.mem_map.mp hmem
    exact hnew ev (h.mem_scheduled.mpr (.inr (.inr hev))) heq
  obtain ⟨m_events, hins, hholds⟩ := hl.insert h.holds hfresh
  refine ⟨m_events, ?_, ?_⟩
  · rw [DefaultSimulatorImpl.insertEvent, hins, Option.map_some, Nat.mod_eq_of_lt huid]
  have hplace : (place Event.rank (s.newEvent impl ts context) l).Perm
      (s.newEvent impl ts context :: l) := place_perm _ l
  constructor
  · exact hholds
  · change s.m_unscheduledEvents + 1 = _
    rw [hplace.length_eq, h.count, List.length_cons]
    push_cast
    rfl
  · calc s.scheduled ++ [s.newEvent impl ts context]
      List.Perm _ ((s.handled ++ (s.removed ++ l)) ++ [s.newEvent impl ts context]) :=
        h.partition.append_right _
      List.Perm _ (s.handled ++ (s.removed ++ (l ++ [s.newEvent impl ts context]))) := by
        rw [List.append_assoc, List.append_assoc]
      List.Perm _ (s.handled ++ (s.removed ++ place Event.rank (s.newEvent impl ts context) l)) :=
        (((List.perm_append_singleton _ l).trans hplace.symm).append_left _).append_left _
  · intro ev hev
    rcases List.mem_append.mp hev with hev | hev
    · exact ⟨(h.uids ev hev).1, (h.uids ev hev).2.trans (Nat.lt_succ_self _)⟩
    · obtain rfl := List.mem_singleton.mp hev
      exact ⟨h.counting, Nat.lt_succ_self _⟩
  · rw [List.map_append, List.nodup_append]
    refine ⟨h.distinct, List.nodup_singleton _, fun a ha b hb => ?_⟩
    obtain ⟨ev, hev, rfl⟩ := List.mem_map.mp ha
    obtain rfl := List.mem_singleton.mp hb
    exact hnew ev hev
  · exact h.past
  · intro ev hev
    rcases mem_place.mp hev with rfl | hev
    · refine Prod.Lex.toLex_lt_toLex.mpr ?_
      rcases hts.lt_or_eq with hlt | heq
      · exact .inl hlt
      · exact .inr ⟨heq, h.running⟩
    · exact h.future ev hev
  · exact h.ordered
  · exact h.running.trans (Nat.lt_succ_self _)
  · exact h.counting.trans (Nat.le_succ _)

/-! ## The flags -/

theorem isCancelled_append {i : ℕ} (hi : i < s.m_cancel.length)
    (hflags : t.m_cancel = s.m_cancel ++ [false]) : t.isCancelled i = s.isCancelled i := by
  rw [isCancelled, hflags, isCancelled, List.getD_eq_getElem?_getD, List.getElem?_append_left hi,
    List.getD_eq_getElem?_getD]

theorem isCancelled_cancelImpl (i j : ℕ) :
    (s.cancelImpl j).isCancelled i = (i = j || s.isCancelled i) := by
  rw [isCancelled, cancelImpl, isCancelled, List.getD_eq_getElem?_getD, List.getElem?_set,
    List.getD_eq_getElem?_getD]
  rcases eq_or_ne j i with rfl | hne
  · rcases lt_or_ge j s.m_cancel.length with hj | hj
    · simp [hj]
    · simp [hj.not_gt]
  · simp [hne, hne.symm]

theorem impl_mem_impls {ev : Event} (hev : ev ∈ s.scheduled) : ev.impl ∈ s.impls :=
  List.mem_append_left _ (List.mem_map_of_mem hev)

/-- An `EventImpl` belongs to one event. -/
theorem Owned.inj (o : Owned s) {a b : Event} (ha : a ∈ s.scheduled) (hb : b ∈ s.scheduled)
    (himpl : a.impl = b.impl) : a = b :=
  List.inj_on_of_nodup_map o.nodup.of_append_left ha hb himpl

/-- A new `EventImpl` is given to an event that is scheduled, posted or kept for the end. -/
theorem Owned.make (o : Owned s) (h : Sound holds s l)
    (himpls : t.impls.Perm (s.newImpl :: s.impls)) (hflags : t.m_cancel = s.m_cancel ++ [false])
    (hhandled : t.handled = s.handled) (hremoved : t.removed = s.removed)
    (hnotified : t.notified = s.notified)
    (hissued : ∀ id ∈ t.ids, id.m_uid ≠ 2 → EventId.event id ∈ t.scheduled)
    (hposted : t.m_eventsWithContextEmpty = true → t.m_eventsWithContext = []) : Owned t := by
  have hnew : s.newImpl ∉ s.impls := fun hmem => lt_irrefl _ (o.made _ hmem)
  have hold : ∀ ev ∈ s.scheduled, t.isCancelled ev.impl = s.isCancelled ev.impl :=
    fun ev hev => isCancelled_append (o.made _ (impl_mem_impls hev)) hflags
  constructor
  · exact himpls.nodup_iff.mpr (List.nodup_cons.mpr ⟨hnew, o.nodup⟩)
  · intro i hi
    rw [hflags, List.length_append]
    rcases List.mem_cons.mp (himpls.mem_iff.mp hi) with rfl | hi
    · exact Nat.lt_succ_self _
    · exact (o.made i hi).trans (Nat.lt_succ_self _)
  · intro ev hev
    rw [hremoved] at hev
    rw [hold ev (h.mem_scheduled.mpr (.inr (.inl hev)))]
    exact o.removed ev hev
  · rw [hnotified, hhandled, o.notified]
    refine List.filter_congr fun ev hev => ?_
    rw [hold ev (h.mem_scheduled.mpr (.inl hev))]
  · exact hissued
  · exact hposted

/-- An `EventImpl` that no event handled has is cancelled. -/
theorem Owned.cancelImpl (o : Owned s) {j : ℕ} (hj : ∀ ev ∈ s.handled, ev.impl ≠ j) :
    Owned (s.cancelImpl j) where
  nodup := o.nodup
  made i hi := (o.made i hi).trans_eq List.length_set.symm
  removed ev hev := by
    rw [isCancelled_cancelImpl, o.removed ev hev, Bool.or_true]
  notified := by
    refine o.notified.trans (List.filter_congr fun ev hev => ?_)
    rw [isCancelled_cancelImpl, decide_eq_false (hj ev hev), Bool.false_or]
  issued := o.issued
  posted := o.posted

/-! ## Expired events -/

theorem not_lt_current_iff {ev : Event} :
    ev.rank ≤ s.current ↔
      ev.key.m_ts < s.m_currentTs ∨ ev.key.m_ts = s.m_currentTs ∧ ev.uid ≤ s.m_currentUid :=
  Prod.Lex.toLex_le_toLex

theorem isExpired_iff {id : EventId} (hid : id.m_uid ≠ 2) : s.isExpired id = true ↔
    (EventId.event id).rank ≤ s.current ∨ s.isCancelled id.m_eventImpl = true := by
  rw [isExpired, if_neg hid, not_lt_current_iff]
  simp [EventId.event, Event.uid]

/-- An id is expired exactly when its event is not to come any more, or is cancelled. -/
theorem expired_iff (h : Sound holds s l) (o : Owned s) {id : EventId} (hid : id ∈ s.ids)
    (huid : id.m_uid ≠ 2) : s.isExpired id = true ↔
      EventId.event id ∉ l ∨ s.isCancelled id.m_eventImpl = true := by
  rw [isExpired_iff huid]
  constructor
  · rintro (hpast | hc)
    · exact .inl fun hmem => absurd (h.future _ hmem) (not_lt.mpr hpast)
    · exact .inr hc
  · rintro (hmem | hc)
    · rcases h.mem_scheduled.mp (o.issued id hid huid) with hh | hr | hl
      · exact .inl (h.past _ hh)
      · exact .inr (o.removed _ hr)
      · exact absurd hl hmem
    · exact .inr hc

/-- The `EventImpl` of an id that is not expired is not one of an event handled. -/
theorem ne_impl_of_not_expired (h : Sound holds s l) (o : Owned s) {id : EventId}
    (hid : id ∈ s.ids) (hlive : ¬s.isExpired id = true) {ev : Event} (hev : ev ∈ s.handled) :
    ev.impl ≠ id.m_eventImpl := by
  have hsched : ev ∈ s.scheduled := h.mem_scheduled.mpr (.inl hev)
  rcases eq_or_ne id.m_uid 2 with huid | huid
  · -- the `EventImpl` of a "destroy" event is kept apart from those in the list
    have hkept : id.m_eventImpl ∈ (s.ids.filter fun id => id.m_uid = 2).map EventId.m_eventImpl :=
      List.mem_map_of_mem (List.mem_filter.mpr ⟨hid, decide_eq_true huid⟩)
    intro himpl
    exact List.disjoint_of_nodup_append o.nodup (himpl ▸ List.mem_map_of_mem hsched)
      (List.mem_append_right _ hkept)
  · intro himpl
    obtain rfl : ev = EventId.event id := o.inj hsched (o.issued id hid huid) himpl
    exact hlive ((isExpired_iff huid).mpr (.inl (h.past _ hev)))

/-! ## What one call does -/

/-- The answer to a call keeps the list and the flags sound. -/
def Answered (holds : σ → List Event → Prop) (r : Option (DefaultSimulatorImpl σ)) : Prop :=
  ∃ t m, r = some t ∧ Sound holds t m ∧ Owned t

section Calls

variable (hl : Lawful Event.rank Event.uid ops holds removable) (h : Sound holds s l)
  (o : Owned s)

include h in
theorem Sound.makeEvent : Sound holds s.makeEvent l :=
  h.congr rfl rfl rfl rfl rfl le_rfl rfl rfl

include hl h o

/-- A new event is put into the list, and its id may be returned. -/
theorem insert_answered {ts : ℕ} (hts : s.m_currentTs ≤ ts) (huid : s.m_uid + 1 < 2 ^ 32)
    (context : ℕ) :
    ∃ t m, insertEvent ops s.makeEvent s.newImpl ts context = some t ∧ Sound holds t m ∧
      Owned t ∧ Sound holds (t.returnId (s.newEvent s.newImpl ts context)) m ∧
      Owned (t.returnId (s.newEvent s.newImpl ts context)) := by
  obtain ⟨q, hins, hsound⟩ := h.makeEvent.insertEvent hl hts huid s.newImpl context
  refine ⟨_, _, hins, hsound, ?_, hsound.congr rfl rfl rfl rfl rfl le_rfl rfl rfl, ?_⟩
  all_goals refine o.make h ?_ rfl rfl rfl rfl ?_ o.posted
  · change ((s.scheduled ++ [_]).map Event.impl ++ _).Perm _
    rw [List.map_append, List.append_assoc]
    exact List.perm_middle
  · exact fun id hid huid => List.mem_append_left _ (o.issued id hid huid)
  · have hregular : (s.newEvent s.newImpl ts context).key.m_uid ≠ 2 := by
      have hcounting : 4 ≤ s.m_uid := h.counting
      change s.m_uid ≠ 2
      lia
    change ((s.scheduled ++ [_]).map Event.impl ++ (_ ++ ((s.ids ++ [_]).filter _).map _)).Perm _
    rw [List.map_append, List.append_assoc, List.filter_append,
      List.filter_cons_of_neg (by simpa using hregular), List.filter_nil, List.append_nil]
    exact List.perm_middle
  · intro id hid huid
    rcases List.mem_append.mp hid with hid | hid
    · exact List.mem_append_left _ (o.issued id hid huid)
    · exact List.mem_append_right _ (List.mem_singleton.mpr (List.mem_singleton.mp hid ▸ rfl))

theorem schedule_answered {time : ℤ} (htime : 0 ≤ time) (hfit : time + s.m_currentTs < 2 ^ 63)
    (huid : s.m_uid + 1 < 2 ^ 32) : Answered holds (schedule ops s time) := by
  have hts : s.m_currentTs ≤ toUnsigned (time + s.m_currentTs) := by
    rw [toUnsigned, Int.emod_eq_of_lt (by lia) (by lia)]
    lia
  obtain ⟨t, m, hins, -, -, hsound, howned⟩ :=
    insert_answered hl h o hts huid s.m_currentContext
  refine ⟨_, m, ?_, hsound, howned⟩
  rw [schedule, absolute, if_pos hfit, Option.bind_some, if_pos ⟨by lia, by lia⟩, hins,
    Option.map_some]

theorem scheduleWithContext_answered {context : ℕ} {time : ℤ} (htime : 0 ≤ time)
    (hfit : time + s.m_currentTs < 2 ^ 63) (huid : s.m_uid + 1 < 2 ^ 32) :
    Answered holds (scheduleWithContext ops s context time) := by
  have hts : s.m_currentTs ≤ toUnsigned (time + s.m_currentTs) := by
    rw [toUnsigned, Int.emod_eq_of_lt (by lia) (by lia)]
    lia
  obtain ⟨t, m, hins, hsound, howned, -⟩ := insert_answered hl h o hts huid context
  refine ⟨t, m, ?_, hsound, howned⟩
  rw [scheduleWithContext, absolute, if_pos hfit, Option.bind_some, hins]

theorem scheduleNow_answered (huid : s.m_uid + 1 < 2 ^ 32) :
    Answered holds (scheduleNow ops s) := by
  obtain ⟨t, m, hins, -, -, hsound, howned⟩ :=
    insert_answered hl h o le_rfl huid s.m_currentContext
  exact ⟨_, m, by rw [scheduleNow, hins, Option.map_some], hsound, howned⟩

omit hl in
theorem postWithContext_answered (context : ℕ) (time : ℤ) :
    Answered holds (some (s.postWithContext context time)) := by
  refine ⟨_, l, rfl, h.congr rfl rfl rfl rfl rfl le_rfl rfl rfl, ?_⟩
  refine o.make h ?_ rfl rfl rfl rfl o.issued fun hempty => absurd hempty Bool.false_ne_true
  change (s.scheduled.map Event.impl ++ ((s.m_eventsWithContext ++ [_]).map _ ++ _)).Perm _
  rw [List.map_append, List.append_assoc]
  exact ((List.perm_middle).append_left _).trans List.perm_middle

omit hl in
theorem scheduleDestroy_answered (huid : s.m_uid + 1 < 2 ^ 32) :
    Answered holds (some s.scheduleDestroy) := by
  have hnext : s.scheduleDestroy.m_uid = s.m_uid + 1 := Nat.mod_eq_of_lt huid
  refine ⟨_, l, rfl, h.congr rfl rfl rfl rfl rfl (by rw [hnext]; exact Nat.le_succ _) rfl rfl, ?_⟩
  refine o.make h ?_ rfl rfl rfl rfl ?_ o.posted
  · change (s.scheduled.map Event.impl ++ (_ ++ ((s.ids ++ [_]).filter _).map _)).Perm _
    rw [List.filter_append, List.map_append, ← List.append_assoc, ← List.append_assoc]
    refine (List.perm_append_singleton s.newImpl _).trans ?_
    rw [List.append_assoc]
    exact List.Perm.refl _
  · intro id hid hid2
    rcases List.mem_append.mp hid with hid | hid
    · exact o.issued id hid hid2
    · exact absurd (List.mem_singleton.mp hid ▸ rfl) hid2

omit hl in
theorem cancel_answered {id : EventId} (hid : id ∈ s.ids) :
    Answered holds (some (s.cancel id)) := by
  refine ⟨_, l, rfl, ?_⟩
  rw [cancel]
  split
  · exact ⟨h, o⟩
  · next hlive =>
    exact ⟨h.congr rfl rfl rfl rfl rfl le_rfl rfl rfl,
      o.cancelImpl fun ev hev => ne_impl_of_not_expired h o hid hlive hev⟩

theorem remove_answered {id : EventId} (hid : id ∈ s.ids)
    (hrem : removable s.m_events (EventId.event id)) : Answered holds (remove ops s id) := by
  rw [remove]
  split
  · exact ⟨_, l, rfl, h.congr rfl rfl rfl rfl rfl le_rfl rfl rfl,
      o.nodup, o.made, o.removed, o.notified, o.issued, o.posted⟩
  next huid =>
  split
  · exact ⟨s, l, rfl, h, o⟩
  next hlive =>
  -- an event that is not expired is still in the list
  have hmem : EventId.event id ∈ l := by
    by_contra hnot
    exact hlive ((expired_iff h o hid huid).mpr (.inl hnot))
  have hflags := o.cancelImpl fun ev hev => ne_impl_of_not_expired h o hid hlive hev
  have himpl : (s.cancelImpl id.m_eventImpl).isCancelled (EventId.event id).impl = true := by
    rw [isCancelled_cancelImpl, Bool.or_eq_true]
    exact .inl (decide_eq_true rfl)
  obtain ⟨q, hdel, hholds⟩ := hl.remove h.holds hmem hrem
  refine ⟨_, l.erase (EventId.event id), by rw [hdel, Option.map_some], ?_, ?_⟩
  · constructor
    · exact hholds
    · change s.m_unscheduledEvents - 1 = _
      have hpos : 0 < l.length := List.length_pos_of_mem hmem
      rw [h.count, List.length_erase_of_mem hmem]
      lia
    · refine h.partition.trans (List.Perm.append_left _ ?_)
      change (s.removed ++ l).Perm ((s.removed ++ [EventId.event id]) ++ _)
      rw [List.append_assoc]
      exact (List.perm_cons_erase hmem).append_left _
    · exact h.uids
    · exact h.distinct
    · exact h.past
    · exact fun ev hev => h.future ev (List.mem_of_mem_erase hev)
    · exact h.ordered
    · exact h.running
    · exact h.counting
  · refine ⟨hflags.nodup, hflags.made, fun ev hev => ?_, hflags.notified, hflags.issued,
      hflags.posted⟩
    rcases List.mem_append.mp hev with hev | hev
    · exact hflags.removed ev hev
    · exact List.mem_singleton.mp hev ▸ himpl

/-- The state with the events of other threads that are still to be inserted -/
def withPosted (s : DefaultSimulatorImpl σ) (r : List EventWithContext) :
    DefaultSimulatorImpl σ :=
  { s with m_eventsWithContext := r, m_eventsWithContextEmpty := false }

omit h o in
theorem insertPosted_answered {r : List EventWithContext}
    (h : Sound holds s l) (o : Owned (s.withPosted r)) (huid : s.m_uid + r.length < 2 ^ 32)
    (hfit : ∀ e ∈ r, s.m_currentTs + e.timestamp < 2 ^ 63) :
    ∃ t m, r.foldlM (insertPosted ops) s = some t ∧ Sound holds t m ∧ Owned (t.withPosted []) ∧
      t.m_eventsWithContext = s.m_eventsWithContext := by
  induction r generalizing s l with
  | nil => exact ⟨s, l, rfl, h, o, rfl⟩
  | cons e r ih =>
    obtain ⟨hfe, hfit⟩ := List.forall_mem_cons.mp hfit
    rw [List.length_cons] at huid
    have hts : (s.m_currentTs + e.timestamp) % 2 ^ 64 = s.m_currentTs + e.timestamp :=
      Nat.mod_eq_of_lt (by lia)
    obtain ⟨q, hins, hsound⟩ := h.insertEvent hl
      (Nat.le_add_right s.m_currentTs e.timestamp) (by lia) e.event e.context
    rw [List.foldlM_cons, insertPosted, hts, hins, Option.bind_eq_bind, Option.bind_some]
    refine ih hsound ?_ (by change s.m_uid + 1 + _ < _; lia) hfit
    -- the event keeps its `EventImpl` when it goes from the one list to the other
    refine ⟨?_, fun i hi => o.made i ?_, o.removed, o.notified,
      fun id hid hid2 => List.mem_append_left _ (o.issued id hid hid2),
      fun hempty => absurd hempty Bool.false_ne_true⟩
    all_goals
      have hperm : ((s.scheduled ++
          [s.newEvent e.event (s.m_currentTs + e.timestamp) e.context]).map Event.impl ++
            (r.map EventWithContext.event ++
              (s.ids.filter fun id => id.m_uid = 2).map EventId.m_eventImpl)).Perm
          (s.withPosted (e :: r)).impls := by
        rw [List.map_append, List.append_assoc]
        exact List.Perm.refl _
    · exact hperm.nodup_iff.mpr o.nodup
    · exact hperm.mem_iff.mp hi

theorem processEventsWithContext_answered
    (huid : s.m_uid + s.m_eventsWithContext.length < 2 ^ 32)
    (hfit : ∀ e ∈ s.m_eventsWithContext, s.m_currentTs + e.timestamp < 2 ^ 63) :
    Answered holds (processEventsWithContext ops s) := by
  rw [processEventsWithContext]
  split
  · exact ⟨s, l, rfl, h, o⟩
  · next hempty =>
    obtain ⟨t, m, hfold, hsound, howned, hposted⟩ := insertPosted_answered hl
      (s := { s with m_eventsWithContext := [], m_eventsWithContextEmpty := true })
      (h.congr rfl rfl rfl rfl rfl le_rfl rfl rfl)
      ⟨o.nodup, o.made, o.removed, o.notified, o.issued,
        fun hempty => absurd hempty Bool.false_ne_true⟩ huid hfit
    have himpls : t.impls = (t.withPosted []).impls := by
      rw [impls, hposted]
      rfl
    exact ⟨t, m, hfold, hsound, himpls ▸ howned.nodup, himpls ▸ howned.made, howned.removed,
      howned.notified, howned.issued, fun _ => hposted⟩

omit o in
theorem isEmpty_iff : isEmpty ops s = true ↔ l = [] := by
  cases l with
  | nil => exact iff_of_true (by rw [isEmpty, hl.next_nil h.holds]; rfl) rfl
  | cons ev l =>
    obtain ⟨q, hnext, -⟩ := hl.next h.holds
    exact iff_of_false (by rw [isEmpty, hnext]; exact Bool.false_ne_true) (List.cons_ne_nil ev l)

theorem turn_answered (hempty : isEmpty ops s = false) (hstop : s.m_stop = false) :
    Answered holds (turn ops s) := by
  cases l with
  | nil => exact absurd ((isEmpty_iff hl h).mpr rfl) (by rw [hempty]; exact Bool.false_ne_true)
  | cons ev l =>
    obtain ⟨q, hnext, hholds⟩ := hl.next h.holds
    have hlater : s.current < ev.rank := h.future ev List.mem_cons_self
    have hts : s.m_currentTs ≤ ev.key.m_ts := Prod.Lex.monotone_fst_ofLex hlater.le
    have hsched : ev ∈ s.scheduled := h.mem_scheduled.mpr (.inr (.inr List.mem_cons_self))
    -- the event in hand becomes the last one handled
    let t : DefaultSimulatorImpl σ := { s with
      m_events := q
      m_unscheduledEvents := s.m_unscheduledEvents - 1
      m_currentTs := ev.key.m_ts
      m_currentContext := ev.key.m_context
      m_currentUid := ev.key.m_uid
      handled := s.handled ++ [ev] }
    have hsound : Sound holds t l := by
      constructor
      · exact hholds
      · change s.m_unscheduledEvents - 1 = _
        rw [h.count, List.length_cons]
        push_cast
        lia
      · refine h.partition.trans ?_
        change (s.handled ++ (s.removed ++ ev :: l)).Perm ((s.handled ++ [ev]) ++ (s.removed ++ l))
        rw [List.append_assoc]
        exact (List.perm_middle).append_left _
      · exact h.uids
      · exact h.distinct
      · intro a ha
        rcases List.mem_append.mp ha with ha | ha
        · exact (h.past a ha).trans hlater.le
        · exact List.mem_singleton.mp ha ▸ le_rfl
      · exact fun a ha => (hl.queued h.holds).head_lt ha
      · refine List.pairwise_append.mpr ⟨h.ordered, List.pairwise_singleton .., fun a ha b hb => ?_⟩
        exact List.mem_singleton.mp hb ▸ (h.past a ha).trans_lt hlater
      · exact (h.uids ev hsched).2
      · exact h.counting
    refine ⟨t.invoke ev, l, ?_, ?_, ?_⟩
    · rw [turn, hempty, hstop, processOneEvent, hnext]
      exact if_pos hts
    · rw [invoke]
      split
      · exact hsound
      · exact hsound.congr rfl rfl rfl rfl rfl le_rfl rfl rfl
    · rw [invoke]
      have hfilter : ∀ b, s.isCancelled ev.impl = b →
          t.handled.filter (fun ev => !t.isCancelled ev.impl) =
            s.notified ++ if b then [] else [ev] := fun b hb => by
        change (s.handled ++ [ev]).filter (fun ev => !s.isCancelled ev.impl) = _
        rw [List.filter_append, ← o.notified, List.filter_singleton, hb]
        cases b <;> rfl
      split
      · next hc =>
        exact ⟨o.nodup, o.made, o.removed, ((hfilter true hc).trans (List.append_nil _)).symm,
          o.issued, o.posted⟩
      · next hc =>
        exact ⟨o.nodup, o.made, o.removed, (hfilter false (Bool.eq_false_iff.mpr hc)).symm,
          o.issued, o.posted⟩

/-- The simulator answers each call that it is promised, and stays sound. -/
theorem step_answered {c : Call} (hc : CallOk ops removable s c) :
    Answered holds (step ops s c) := by
  cases c with
  | schedule time => exact schedule_answered hl h o hc.1 hc.2.1 hc.2.2
  | scheduleWithContext context time =>
    exact scheduleWithContext_answered hl h o hc.1 hc.2.1 hc.2.2
  | postWithContext context time => exact postWithContext_answered h o context time
  | scheduleNow => exact scheduleNow_answered hl h o hc
  | scheduleDestroy => exact scheduleDestroy_answered h o hc
  | cancel id => exact cancel_answered h o hc
  | remove id => exact remove_answered hl h o hc.1 hc.2
  | stop =>
    exact ⟨_, l, rfl, h.congr rfl rfl rfl rfl rfl le_rfl rfl rfl,
      o.nodup, o.made, o.removed, o.notified, o.issued, o.posted⟩
  | enterRun =>
    obtain ⟨t, m, ht, hsound, howned⟩ := processEventsWithContext_answered hl h o hc.1 hc.2
    exact ⟨{ t with m_stop := false }, m, by rw [step, enterRun, ht, Option.map_some],
      hsound.congr rfl rfl rfl rfl rfl le_rfl rfl rfl,
      howned.nodup, howned.made, howned.removed, howned.notified, howned.issued, howned.posted⟩
  | turn => exact turn_answered hl h o hc.1 hc.2
  | processEventsWithContext => exact processEventsWithContext_answered hl h o hc.1 hc.2
  | leaveRun =>
    refine ⟨s, l, ?_, h, o⟩
    have hleave : isEmpty ops s = true ∨ s.m_stop = true := hc
    have hlost : (!isEmpty ops s || decide (s.m_unscheduledEvents = 0)) = true := by
      cases hempty : isEmpty ops s with
      | false => rfl
      | true =>
        rw [h.count, (isEmpty_iff hl h).mp hempty]
        rfl
    rw [step, leaveRun, if_pos (Bool.or_eq_true_iff.mpr hleave), if_pos hlost]

end Calls

theorem sound_create {q : σ} (hq : holds q []) : Sound holds (create q) [] where
  holds := hq
  count := rfl
  partition := List.Perm.refl _
  uids _ hev := absurd hev List.not_mem_nil
  distinct := List.nodup_nil
  past _ hev := absurd hev List.not_mem_nil
  future _ hev := absurd hev List.not_mem_nil
  ordered := List.Pairwise.nil
  running := Nat.zero_lt_succ 3
  counting := le_rfl

theorem owned_create (q : σ) : Owned (create q) where
  nodup := List.nodup_nil
  made _ hi := absurd hi List.not_mem_nil
  removed _ hev := absurd hev List.not_mem_nil
  notified := rfl
  issued _ hid := absurd hid List.not_mem_nil
  posted _ := rfl

/-- Whole runs -/
theorem run_answered (hl : Lawful Event.rank Event.uid ops holds removable)
    (h : Sound holds s l) (o : Owned s) {cs : List Call}
    (hcs : Runs.Meets (step ops) (CallOk ops removable) s cs) :
    Answered holds (Runs.run (step ops) s cs) := by
  induction cs generalizing s l with
  | nil => exact ⟨s, l, rfl, h, o⟩
  | cons c cs ih =>
    obtain ⟨t, m, ht, hsound, howned⟩ := step_answered hl h o hcs.1
    rw [Runs.run, ht, Option.bind_some]
    exact ih hsound howned (hcs.2 t ht)

/-- In every run no assertion fails, events are handled in the order of their times and uids,
and none is lost or handled twice. -/
theorem runs_in_order (hl : Lawful Event.rank Event.uid ops holds removable) {q : σ}
    (hq : holds q []) {cs : List Call}
    (hcs : Runs.Meets (step ops) (CallOk ops removable) (create q) cs) :
    ∃ s l, Runs.run (step ops) (create q) cs = some s ∧ holds s.m_events l ∧
      s.handled.Pairwise (fun a b => a.rank < b.rank) ∧
      s.scheduled.Perm (s.handled ++ (s.removed ++ l)) ∧ s.scheduled.Nodup ∧
      s.m_unscheduledEvents = l.length ∧
      s.notified = s.handled.filter (fun ev => !s.isCancelled ev.impl) ∧
      (∀ ev ∈ s.removed, s.isCancelled ev.impl = true) := by
  obtain ⟨s, l, hrun, h, o⟩ := run_answered hl (sound_create hq) (owned_create q) hcs
  exact ⟨s, l, hrun, h.holds, h.ordered, h.partition, h.distinct.of_map _, h.count, o.notified,
    o.removed⟩

/-- A run whose events go out of order, and one of which is cancelled and one removed -/
def exCalls : List Call :=
  [.schedule 5, .schedule 3, .schedule 9, .postWithContext 7 4, .schedule 4, .enterRun,
    .cancel ⟨1, 3, 0xffffffff, 5⟩, .turn, .scheduleNow, .remove ⟨2, 9, 0xffffffff, 6⟩,
    .processEventsWithContext, .turn, .turn, .turn, .turn, .leaveRun]

theorem runs_in_order_map :
    Runs.Meets (step MapScheduler.ops) (CallOk MapScheduler.ops fun _ _ => True)
      (create []) exCalls ∧
    ∃ s l, Runs.run (step MapScheduler.ops) (create []) exCalls = some s ∧
      (s.m_events = l ∧ Queued Event.rank Event.uid l) ∧
      s.handled.Pairwise (fun a b => a.rank < b.rank) ∧
      s.scheduled.Perm (s.handled ++ (s.removed ++ l)) ∧ s.scheduled.Nodup ∧
      s.m_unscheduledEvents = l.length ∧
      s.notified = s.handled.filter (fun ev => !s.isCancelled ev.impl) ∧
      (∀ ev ∈ s.removed, s.isCancelled ev.impl = true) := by
  have hcs : Runs.Meets (step MapScheduler.ops) (CallOk MapScheduler.ops fun _ _ => True)
      (create []) exCalls := by decide
  exact ⟨hcs, runs_in_order MapScheduler.lawful ⟨rfl, queued_nil⟩ hcs⟩

/-- In every state an id that was returned is expired exactly when its event is not in the list
any more, or is cancelled, and `GetDelayLeft` is the time until the event is handled. -/
theorem isExpired_exact (hl : Lawful Event.rank Event.uid ops holds removable) {q : σ}
    (hq : holds q []) {cs : List Call}
    (hcs : Runs.Meets (step ops) (CallOk ops removable) (create q) cs)
    (hrun : Runs.run (step ops) (create q) cs = some s) :
    ∃ l, holds s.m_events l ∧ ∀ id ∈ s.ids, id.m_uid ≠ 2 →
      (s.isExpired id = true ↔ EventId.event id ∉ l ∨ s.isCancelled id.m_eventImpl = true) ∧
      (s.isExpired id = false → s.m_currentTs + s.getDelayLeft id = id.m_ts) := by
  obtain ⟨t, l, ht, h, o⟩ := run_answered hl (sound_create hq) (owned_create q) hcs
  obtain rfl : s = t := Option.some.inj (hrun.symm.trans ht)
  refine ⟨l, h.holds, fun id hid huid => ⟨expired_iff h o hid huid, fun hlive => ?_⟩⟩
  have hmem : EventId.event id ∈ l := by
    by_contra hnot
    exact absurd ((expired_iff h o hid huid).mpr (.inl hnot)) (by rw [hlive]; decide)
  have hle : s.m_currentTs ≤ id.m_ts := Prod.Lex.monotone_fst_ofLex (h.future _ hmem).le
  rw [getDelayLeft, hlive]
  exact Nat.add_sub_cancel' hle

theorem isExpired_exact_map :
    ∃ s, Runs.run (step MapScheduler.ops) (create []) (exCalls.take 9) = some s ∧
      s.ids.map s.isExpired = [false, true, false, false, false] ∧
      ∃ l, (s.m_events = l ∧ Queued Event.rank Event.uid l) ∧ ∀ id ∈ s.ids, id.m_uid ≠ 2 →
        (s.isExpired id = true ↔ EventId.event id ∉ l ∨ s.isCancelled id.m_eventImpl = true) ∧
        (s.isExpired id = false → s.m_currentTs + s.getDelayLeft id = id.m_ts) := by
  have hcs : Runs.Meets (step MapScheduler.ops) (CallOk MapScheduler.ops fun _ _ => True)
      (create []) (exCalls.take 9) := by decide
  have hids : (Runs.run (step MapScheduler.ops) (create []) (exCalls.take 9)).map
      (fun s => s.ids.map s.isExpired) = some [false, true, false, false, false] := by decide
  obtain ⟨s, hrun, hs⟩ := Option.map_eq_some_iff.mp hids
  exact ⟨s, hrun, hs, isExpired_exact MapScheduler.lawful ⟨rfl, queued_nil⟩ hcs hrun⟩

end DefaultSimulatorImpl

end Paraleon.Core
