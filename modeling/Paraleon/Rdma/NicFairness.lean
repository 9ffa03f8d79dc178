import Paraleon.Rdma.Compaction
import Paraleon.Rdma.QpGroups

/-!
# No queue pair waits for two turns of another

`m_rrlast` is a position in a vector that is compacted under it and grows at its end. Seen as
the order of references behind `m_rrlast`, a turn sends the queue pair that is served, and those
passed over for it, behind all others, and a compaction takes references out of it.

* `getNextQindex_serves`: one selection, in terms of that order.
* `fair_qp`: while one queue pair may send whenever a packet is to be chosen, no other is
  served twice.
-/

namespace Paraleon.Rdma.QpGroups

open Function Runs RoundRobin RdmaEgressQueue
open Switch (Packet)

/-- `DequeueQindex`. -/
def dequeueQindex (c : NicConfig) (qps : QpId → NicQueuePair) (dev : Device) :
    Qindex → Option (Packet × (QpId → NicQueuePair) × Device)
  | .none => none
  | .highPrio =>
    match dev.ackQ with
    | [] => none
    | p :: ackQ => some (p, qps, { dev with ackQ })
  | .qp i => do
    let q ← dev.qpGrp[i]?
    let (p, qp) := (qps q).getNxtPacket c
    some (p, update qps q qp, { dev with rrlast := i })

/-- By reference, `DequeueQindex` does what it does with the queue pairs as values. -/
theorem view_dequeueQindex (c : NicConfig) (qps : QpId → NicQueuePair) {dev : Device}
    (hnodup : dev.qpGrp.Nodup) (x : Qindex) :
    (dev.view qps).dequeueQindex c x =
      (dequeueQindex c qps dev x).map fun (p, qps, dev) => (p, dev.view qps) := by
  cases x with
  | none => rfl
  | highPrio =>
    have hackQ : (dev.view qps).ackQ = dev.ackQ := rfl
    rw [RdmaEgressQueue.dequeueQindex, dequeueQindex, hackQ]
    cases dev.ackQ with
    | nil => rfl
    | cons p ackQ => rfl
  | qp i =>
    have hget : (dev.view qps).qpGrp[i]? = (dev.qpGrp[i]?).map qps := List.getElem?_map
    rw [RdmaEgressQueue.dequeueQindex, dequeueQindex, hget]
    cases hq : dev.qpGrp[i]? with
    | none => rfl
    | some q =>
      obtain ⟨hlt, rfl⟩ := List.getElem?_eq_some_iff.mp hq
      have hset (qp : NicQueuePair) :
          (dev.qpGrp.map qps).set i qp = dev.qpGrp.map (update qps dev.qpGrp[i] qp) := by
        refine List.ext_getElem (by simp) fun j hj _ => ?_
        simp only [List.length_set, List.length_map] at hj
        rw [List.getElem_set, List.getElem_map, List.getElem_map, update_apply]
        simp only [hnodup.getElem_inj_iff, eq_comm]
      simp [Device.view, hset]

/-! ## The machine -/

/-- A NIC and the queue pairs of its host, of which `created` have been created. -/
structure Scheduler where
  qps : QpId → NicQueuePair
  created : Nat
  dev : Device

inductive Activity where
  /-- `GetNextQindex`, and `DequeueQindex` of what it returns. -/
  | call (now : Nat) (paused : Switch.Class → Bool)
  /-- `AddQp` of a new queue pair. -/
  | append (qp : NicQueuePair)
  /-- Whatever else happens to a queue pair: ACKs, rate changes, its next time to send. -/
  | change (q : QpId) (qp : NicQueuePair)
  | enqueueHighPrioQ (p : Packet)

namespace Scheduler

def start : Scheduler := { qps := fun _ => blank, created := 0, dev := .create }

/-- `GetNextQindex` at time `now`, with the given classes paused. -/
def next (c : NicConfig) (now : Nat) (paused : Switch.Class → Bool) (s : Scheduler) :
    Qindex × Device :=
  getNextQindex c now s.qps { s.dev with paused }

def step (c : NicConfig) (s : Scheduler) : Activity → Option Scheduler
  | .call now paused =>
    match s.next c now paused with
    | (.none, dev) => some { s with dev }
    | (qIndex, dev) =>
      (dequeueQindex c s.qps dev qIndex).map fun (_, qps, dev) => { s with qps, dev }
  | .append qp =>
    some { qps := update s.qps s.created qp, created := s.created + 1,
           dev := { s.dev with qpGrp := s.dev.qpGrp ++ [s.created] } }
  | .change q qp => some { s with qps := update s.qps q qp }
  | .enqueueHighPrioQ p => some { s with dev := { s.dev with ackQ := s.dev.ackQ ++ [p] } }

/-- The queue pair that a call serves. -/
def served (c : NicConfig) (s : Scheduler) : Activity → Option QpId
  | .call now paused =>
    match s.next c now paused with
    | (.qp i, dev) => dev.qpGrp[i]?
    | _ => none
  | _ => none

/-- When a packet is to be chosen, `q` is in the group, not paused, has bytes left, is not bound
by its window, and is not to wait. -/
def Ready (q : QpId) (s : Scheduler) : Activity → Prop
  | .call now paused => q ∈ s.dev.qpGrp ∧ due now paused (s.qps q) = true
  | _ => True

/-- When a packet is to be chosen, no queue pair of the group has more acknowledged than sent,
or more sent than there is. -/
def Ordered (s : Scheduler) : Activity → Prop
  | .call _ _ => ∀ q ∈ s.dev.qpGrp, (s.qps q).transport.sndUna ≤ (s.qps q).transport.sndNxt ∧
      (s.qps q).transport.sndNxt ≤ (s.qps q).transport.size
  | _ => True

end Scheduler

/-! ## One selection -/

section Selection

variable {c : NicConfig} {now : Nat} {qps : QpId → NicQueuePair} {dev : Device}

/-- The references in the order in which the scan looks at them. -/
def Device.turns (dev : Device) : List QpId :=
  upcoming dev.qpGrp (dev.rrlast % dev.qpGrp.length + 1)

/-- The positions at which the scan looks. -/
def Device.positions (dev : Device) : List Nat :=
  (List.range' 1 dev.qpGrp.length).map fun qIndex => (qIndex + dev.rrlast) % dev.qpGrp.length

theorem positions_map (dev : Device) :
    dev.positions.map (dev.qpGrp[·]?) = dev.turns.map some := by
  rw [Device.positions, map_mod_range', map_upcoming, map_getElem?_range, Device.turns,
    map_upcoming]

theorem mem_positions {i : Nat} : i ∈ dev.positions ↔ i < dev.qpGrp.length := by
  rw [Device.positions, map_mod_range', mem_upcoming, List.mem_range]

/-- A queue pair that has sent no more than there is, and less is acknowledged, has bytes left
only if it has not finished. -/
theorem not_finished_of_due {paused : Switch.Class → Bool} {qp : NicQueuePair}
    (hordered : qp.transport.sndUna ≤ qp.transport.sndNxt ∧
      qp.transport.sndNxt ≤ qp.transport.size)
    (hdue : due now paused qp = true) : qp.transport.isFinished = false := by
  simp only [due, NicQueuePair.canSend, Bool.and_eq_true, decide_eq_true_eq] at hdue
  have hleft := hdue.1.1.2
  rw [RdmaQueuePair.getBytesLeft_eq] at hleft
  simp only [RdmaQueuePair.isFinished, decide_eq_false_iff_not]
  omega

/-- What remains of the group when the scan has noted `m`. -/
theorem ids_of_noted (qps : QpId → NicQueuePair) (dev : Device) (res : Option Nat) {m : Option Nat}
    (hm : ∀ k, m = some k → k < dev.qpGrp.length) :
    let out := match m with
      | none => (dev.qpGrp, res)
      | some m => clearFinished qps (m + 1) (dev.qpGrp.drop (m + 1)) (dev.qpGrp.take m) res
    out.1.map some = (keptOf (dev.qpGrp.map qps) m).map (dev.qpGrp[·]?) ∧
      out.2 = (cleared (dev.qpGrp.map qps) m res).2 := by
  cases m with
  | none =>
    refine ⟨?_, rfl⟩
    rw [keptOf, List.length_map, map_getElem?_range]
  | some m =>
    refine ⟨?_, ?_⟩
    · simp only
      rw [clearFinished_fst, keptOf_map qps (hm m rfl)]
    · simp only [cleared]
      rw [← List.map_drop, ← List.map_take, map_clearFinished]

/-- When a queue pair `q` is due, the first one that is due is served: in the order of turns,
`q` is not among those before it, and its index denotes it after the compaction. -/
theorem getNextQindex_serves (dev : Device) {q : QpId} (hq : q ∈ dev.qpGrp)
    (hdue : due now dev.paused (qps q) = true)
    (hordered : ∀ q ∈ dev.qpGrp, (qps q).transport.sndUna ≤ (qps q).transport.sndNxt ∧
      (qps q).transport.sndNxt ≤ (qps q).transport.size)
    (hack : ¬(dev.paused c.ackQIdx = false ∧ dev.ackQ ≠ [])) :
    ∃ (i r : Nat) (x : QpId) (l₁ l₂ : List QpId),
      dev.turns = l₁ ++ x :: l₂ ∧ q ∉ l₁ ∧ dev.qpGrp[i]? = some x ∧
      (getNextQindex c now qps dev).1 = .qp r ∧
      (getNextQindex c now qps dev).2.qpGrp[r]? = some x := by
  have hget (k : Nat) : (dev.qpGrp.map qps)[k]? = (dev.qpGrp[k]?).map qps := List.getElem?_map
  -- the scan stops somewhere, at the latest at `q`
  obtain ⟨j, hj⟩ := List.mem_iff_getElem?.mp hq
  have hdueAt : testAt (due now dev.paused) (dev.qpGrp.map qps) j = true :=
    testAt_iff.mpr ⟨qps q, by rw [hget, hj, Option.map_some], hdue⟩
  have hfound : (dev.positions.find? (testAt (due now dev.paused) (dev.qpGrp.map qps))).isSome =
      true :=
    List.find?_isSome.mpr ⟨j, mem_positions.mpr (List.getElem?_eq_some_iff.mp hj).1, hdueAt⟩
  obtain ⟨i, hi⟩ := Option.isSome_iff_exists.mp hfound
  obtain ⟨hduei, before, after, hsplit, hnot⟩ := List.find?_eq_some_iff_append.mp hi
  obtain ⟨qp, hqp, hduex⟩ := testAt_iff.mp hduei
  obtain ⟨x, hx, rfl⟩ : ∃ x, dev.qpGrp[i]? = some x ∧ qps x = qp := by
    rw [hget] at hqp
    exact Option.map_eq_some_iff.mp hqp
  have hturns : dev.turns.map some =
      before.map (dev.qpGrp[·]?) ++ some x :: after.map (dev.qpGrp[·]?) := by
    rw [← positions_map, hsplit, List.map_append, List.map_cons, hx]
  obtain ⟨l₁, rest, hl, hl₁, hrest⟩ := List.map_eq_append_iff.mp hturns
  obtain ⟨x', l₂, rfl, hx', -⟩ := List.map_eq_cons_iff.mp hrest
  obtain rfl : x' = x := Option.some.inj hx'
  have hvalid : ∀ k ∈ before, k < (dev.qpGrp.map qps).length := fun k hk => by
    rw [List.length_map]
    exact mem_positions.mp (by simp [hsplit, hk])
  have hnot' : ∀ k ∈ before, testAt (due now dev.paused) (dev.qpGrp.map qps) k = false :=
    fun k hk => by simpa using hnot k hk
  have hscan : (dev.view qps).scan now dev.paused (List.range' 1 dev.qpGrp.length) none =
      (some i, before.foldl (note dev.paused (dev.qpGrp.map qps)) none) := by
    have hlen : (dev.view qps).qpGrp.length = dev.qpGrp.length := List.length_map _
    rw [scan_eq_scanAt, hlen]
    show scanAt (dev.qpGrp.map qps) now dev.paused dev.positions none = _
    rw [hsplit, scanAt_append hvalid hnot',
      scanAt_cons (List.getElem?_eq_some_iff.mp hqp).1, if_pos hduei]
  have hopen := not_finished_of_due (hordered x' (List.mem_of_getElem? hx)) hduex
  obtain ⟨r, hr, hkept⟩ := cleared_follows before hqp hduex fun hfinished => by
    cases hopen.symm.trans hfinished
  obtain ⟨hids, hres⟩ := ids_of_noted qps dev (some i)
    (m := before.foldl (note dev.paused (dev.qpGrp.map qps)) none) fun k hk => by
      obtain ⟨qp, hqp, -⟩ := finished_of_noted hk
      simpa using (List.getElem?_eq_some_iff.mp hqp).1
  refine ⟨i, r, x', l₁, l₂, hl, ?_, hx, ?_, ?_⟩
  · intro hmem
    have hmem' : some q ∈ before.map (dev.qpGrp[·]?) := by
      rw [← hl₁]
      exact List.mem_map_of_mem hmem
    obtain ⟨k, hk, hkq⟩ := List.mem_map.mp hmem'
    have hdueq : testAt (due now dev.paused) (dev.qpGrp.map qps) k = true :=
      testAt_iff.mpr ⟨qps q, by rw [hget, hkq, Option.map_some], hdue⟩
    cases (hnot' k hk).symm.trans hdueq
  · rw [getNextQindex, if_neg hack]
    simp only [hscan]
    exact congrArg (fun res : Option Nat => res.elim Qindex.none Qindex.qp) (hres.trans hr)
  · rw [getNextQindex, if_neg hack]
    simp only [hscan]
    have hmap := congrArg (·[r]?) hids
    simp only [List.getElem?_map, hkept, Option.map_some, hx] at hmap
    obtain ⟨y, hy, hyx⟩ := Option.map_eq_some_iff.mp hmap
    obtain rfl : y = x' := Option.some.inj hyx
    exact hy

end Selection

/-! ## Runs -/

namespace Scheduler

variable {c : NicConfig} {s t : Scheduler} {e : Activity} {q q' : QpId}

/-- The group holds references to queue pairs that have been created, each once. -/
structure Inv (s : Scheduler) : Prop where
  nodup : s.dev.qpGrp.Nodup
  created : ∀ q ∈ s.dev.qpGrp, q < s.created

theorem inv_start : Inv start where
  nodup := List.nodup_nil
  created := nofun

/-- A call leaves a part of the group, and the count as it is. -/
theorem step_call {now : Nat} {paused : Switch.Class → Bool}
    (hstep : step c s (.call now paused) = some t) :
    t.created = s.created ∧ t.dev.qpGrp = (s.next c now paused).2.qpGrp ∧
      ((s.next c now paused).1 = .highPrio → t.dev.rrlast = (s.next c now paused).2.rrlast) ∧
      ∀ i, (s.next c now paused).1 = .qp i → t.dev.rrlast = i := by
  simp only [step] at hstep
  cases hnext : s.next c now paused with
  | mk qIndex dev =>
    rw [hnext] at hstep
    cases qIndex with
    | none =>
      cases hstep
      exact ⟨rfl, rfl, nofun, nofun⟩
    | highPrio =>
      obtain ⟨⟨p, qps, dev'⟩, hdeq, rfl⟩ := Option.map_eq_some_iff.mp hstep
      rw [dequeueQindex] at hdeq
      split at hdeq
      · cases hdeq
      · cases hdeq
        exact ⟨rfl, rfl, fun _ => rfl, nofun⟩
    | qp i =>
      obtain ⟨⟨p, qps, dev'⟩, hdeq, rfl⟩ := Option.map_eq_some_iff.mp hstep
      simp only [dequeueQindex, Option.bind_eq_bind, Option.bind_eq_some_iff] at hdeq
      obtain ⟨q, -, hdeq⟩ := hdeq
      cases hdeq
      refine ⟨rfl, rfl, nofun, fun j hj => ?_⟩
      cases hj
      rfl

theorem step_compacts {now : Nat} {paused : Switch.Class → Bool}
    (hstep : step c s (.call now paused) = some t) :
    Compacts s.qps s.dev.qpGrp t.dev.qpGrp := by
  rw [(step_call hstep).2.1]
  exact @getNextQindex_compacts c now s.qps { s.dev with paused }

theorem inv_step (h : Inv s) (hstep : step c s e = some t) : Inv t := by
  cases e with
  | call now paused =>
    have hsub := (step_compacts hstep).sublist
    refine ⟨hsub.nodup h.nodup, fun q hq => ?_⟩
    rw [(step_call hstep).1]
    exact h.created q (hsub.subset hq)
  | append qp =>
    cases hstep
    have hfresh : s.created ∉ s.dev.qpGrp := fun hmem =>
      absurd (h.created _ hmem) (Nat.lt_irrefl _)
    refine ⟨?_, fun q hq => ?_⟩
    · show (s.dev.qpGrp ++ [s.created]).Nodup
      exact List.nodup_append.mpr ⟨h.nodup, List.nodup_singleton _, by
        rintro a ha b hb rfl
        exact hfresh (List.mem_singleton.mp hb ▸ ha)⟩
    · rcases List.mem_append.mp hq with hq | hq
      · exact Nat.lt_succ_of_lt (h.created q hq)
      · rw [List.mem_singleton.mp hq]
        exact Nat.lt_succ_self _
  | change q qp => cases hstep; exact ⟨h.nodup, h.created⟩
  | enqueueHighPrioQ p => cases hstep; exact ⟨h.nodup, h.created⟩

/-- What a call serves, and the order of turns after it, as the waiting `q` sees them. -/
theorem call_serves {now : Nat} {paused : Switch.Class → Bool} (h : Inv s)
    (hready : Ready q s (.call now paused)) (hordered : Ordered s (.call now paused))
    (hstep : step c s (.call now paused) = some t) :
    (s.served c (.call now paused) = none ∧ t.dev.qpGrp = s.dev.qpGrp ∧
        t.dev.rrlast = s.dev.rrlast) ∨
      ∃ x l₁ l₂, s.served c (.call now paused) = some x ∧ t.dev.rrlast < t.dev.qpGrp.length ∧
        s.dev.turns = l₁ ++ x :: l₂ ∧ q ∉ l₁ ∧ x ∈ t.dev.turns ∧
        t.dev.turns.Sublist (l₂ ++ l₁ ++ [x]) := by
  obtain ⟨-, hgrp, hhigh, hqp⟩ := step_call hstep
  by_cases hack : paused c.ackQIdx = false ∧ s.dev.ackQ ≠ []
  · -- a control packet goes first
    have hnext : s.next c now paused = (.highPrio, { s.dev with paused }) := if_pos hack
    left
    rw [hnext] at hgrp hhigh
    refine ⟨?_, hgrp, hhigh rfl⟩
    rw [served, hnext]
  · right
    obtain ⟨i, r, x, l₁, l₂, hturns, hq, hi, hres, hr⟩ :=
      getNextQindex_serves { s.dev with paused } hready.1 hready.2 hordered hack
    have hrr : t.dev.rrlast = r := hqp r hres
    have hr' : t.dev.qpGrp[t.dev.rrlast]? = some x := by
      rw [hgrp, hrr]
      exact hr
    have hlt : t.dev.rrlast < t.dev.qpGrp.length := (List.getElem?_eq_some_iff.mp hr').1
    refine ⟨x, l₁, l₂, ?_, hlt, hturns, hq, ?_, ?_⟩
    · have hnext : s.next c now paused = (.qp r, (s.next c now paused).2) := Prod.ext hres rfl
      rw [served, hnext]
      exact hr
    · exact mem_upcoming.mpr (List.mem_of_getElem? hr')
    · rw [← upcoming_after h.nodup hi hturns, Device.turns, Nat.mod_eq_of_lt hlt]
      exact upcoming_sublist h.nodup (step_compacts hstep).sublist hi hr'

theorem mem_turns {dev : Device} : q ∈ dev.turns ↔ q ∈ dev.qpGrp := mem_upcoming

/-- A call as the waiting `q` sees it, from wherever `m_rrlast` is. -/
theorem waits_call {now : Nat} {paused : Switch.Class → Bool} (h : Inv s)
    (hready : Ready q s (.call now paused)) (hordered : Ordered s (.call now paused))
    (hwait : s.served c (.call now paused) ≠ some q)
    (hstep : step c s (.call now paused) = some t) :
    Waits q s.dev.turns (s.served c (.call now paused)) t.dev.turns := by
  rcases call_serves h hready hordered hstep with ⟨hnone, hgrp, hrr⟩ |
    ⟨x, l₁, l₂, hserved, -, hturns, hq, hx, hsub⟩
  · rw [hnone, Device.turns, Device.turns, hgrp, hrr]
    exact waits_refl q _
  · have hstays : q ∈ t.dev.turns := mem_turns.mpr
      ((step_compacts hstep).kept q hready.1
        (not_finished_of_due (hordered q hready.1) hready.2))
    have hnodup : s.dev.turns.Nodup := nodup_upcoming _ h.nodup
    rw [hserved] at hwait ⊢
    rw [hturns] at hnodup ⊢
    exact waits_pass hnodup hq (fun hxq => hwait (congrArg some hxq)) hsub hstays hx

/-- `m_rrlast` is a position of the group, as it is after every service. -/
def Inside (s : Scheduler) : Prop := s.dev.rrlast < s.dev.qpGrp.length

theorem waits_step (h : Inv s) (hin : Inside s) (hready : Ready q s e) (hordered : Ordered s e)
    (hwait : s.served c e ≠ some q) (hstep : step c s e = some t) :
    Waits q s.dev.turns (s.served c e) t.dev.turns := by
  cases e with
  | call now paused => exact waits_call h hready hordered hwait hstep
  | append qp =>
    cases hstep
    have hlt : s.dev.rrlast < (s.dev.qpGrp ++ [s.created]).length := by
      rw [List.length_append]
      exact Nat.lt_add_right 1 hin
    show Waits q (upcoming s.dev.qpGrp _) none (upcoming (s.dev.qpGrp ++ [s.created]) _)
    rw [Nat.mod_eq_of_lt hin, Nat.mod_eq_of_lt hlt, upcoming_append hin]
    exact waits_enter q _ _ _
  | change q' qp => cases hstep; exact waits_refl q _
  | enqueueHighPrioQ p => cases hstep; exact waits_refl q _

theorem inside_step (h : Inv s) (hin : Inside s) (hready : Ready q s e) (hordered : Ordered s e)
    (hstep : step c s e = some t) : Inside t := by
  cases e with
  | call now paused =>
    rcases call_serves h hready hordered hstep with ⟨-, hgrp, hrr⟩ | ⟨x, l₁, l₂, -, hlt, -⟩
    · rw [Inside, hgrp, hrr]
      exact hin
    · exact hlt
  | append qp =>
    cases hstep
    show s.dev.rrlast < (s.dev.qpGrp ++ [s.created]).length
    rw [List.length_append]
    exact Nat.lt_add_right 1 hin
  | change q' qp => cases hstep; exact hin
  | enqueueHighPrioQ p => cases hstep; exact hin

/-- References that have left a group do not come back. -/
theorem created_step (hq : q < s.created) (hstep : step c s e = some t) :
    q < t.created ∧ (q ∈ t.dev.turns → q ∈ s.dev.turns) := by
  simp only [mem_turns]
  cases e with
  | call now paused =>
    rw [(step_call hstep).1]
    exact ⟨hq, fun hmem => (step_compacts hstep).sublist.subset hmem⟩
  | append qp =>
    cases hstep
    refine ⟨Nat.lt_succ_of_lt hq, fun hmem => ?_⟩
    rcases List.mem_append.mp hmem with hmem | hmem
    · exact hmem
    · exact absurd (List.mem_singleton.mp hmem) (Nat.ne_of_lt hq)
  | change q' qp => cases hstep; exact ⟨hq, id⟩
  | enqueueHighPrioQ p => cases hstep; exact ⟨hq, id⟩

/-- While `q` may send whenever a packet is to be chosen, no other queue pair is served twice
before `q` is served. -/
theorem fair_qp (c : NicConfig) (q q' : QpId) (before : List Activity) {es : List Activity}
    (hbefore : run (step c) start before = some s) (hrun : run (step c) s es = some t)
    (hready : Guarded (step c) (Ready q) s es) (hordered : Guarded (step c) Ordered s es)
    (hwait : Guarded (step c) (fun s e => s.served c e ≠ some q) s es) :
    turns (step c) (served c) q' s es ≤ 1 := by
  have hs : Inv s := run_invariant (fun _ _ _ h hstep => inv_step h hstep) inv_start hbefore
  refine served_le_one (fun s => s.dev.turns) Inv Inside (fun s => q' < s.created)
    (fun _ _ _ h hstep => inv_step h hstep)
    (fun _ _ _ h hin hG hstep => inside_step h hin hG.1.1 hG.1.2 hstep)
    (fun _ _ _ _ hstep hq => created_step hq hstep)
    (fun s h hmem => h.created q' (mem_turns.mp hmem))
    (fun _ _ _ h hin hG hstep => waits_step h hin hG.1.1 hG.1.2 hG.2 hstep) ?_ hs hrun
    ((hready.and hordered).and hwait)
  intro s e t h hG hstep hserved
  cases e with
  | call now paused =>
    have hturn := (waits_call h hG.1.1 hG.1.2 hG.2 hstep).turn q' hserved
    rcases call_serves h hG.1.1 hG.1.2 hstep with ⟨hnone, -⟩ | ⟨x, l₁, l₂, -, hlt, -⟩
    · cases hnone.symm.trans hserved
    · exact ⟨hlt, hturn.1, hturn.2.2⟩
  | append qp => cases hserved
  | change q'' qp => cases hserved
  | enqueueHighPrioQ p => cases hserved

/-- A new queue pair of 2000 bytes. -/
def newFlow : NicQueuePair := { blank with transport := .create 2000 0 false 100, pg := 3 }

/-- After two flows have come in. -/
def twoFlows : Scheduler :=
  { qps := update (update (fun _ => blank) 0 newFlow) 1 newFlow, created := 2,
    dev := { Device.create with qpGrp := [0, 1] } }

/-- The second flow goes first, as `m_rrlast` is 0; the first one waits. -/
theorem fair_qp_twoFlows :
    turns (step nicConfig) (served nicConfig) 1 twoFlows [.call 0 fun _ => false] ≤ 1 := by
  have hserved : twoFlows.served nicConfig (.call 0 fun _ => false) = some 1 := by decide
  refine fair_qp nicConfig 0 1 [.append newFlow, .append newFlow]
    (t := (twoFlows.step nicConfig (.call 0 fun _ => false)).get (by decide)) rfl ?_ ?_ ?_ ?_
  · simp [run]
  · exact fun t ht => ⟨⟨by decide, by decide⟩, trivial⟩
  · refine fun t ht => ⟨?_, trivial⟩
    unfold Ordered
    decide
  · refine fun t ht => ⟨?_, trivial⟩
    show twoFlows.served nicConfig (.call 0 fun _ => false) ≠ some 0
    rw [hserved]
    decide

end Scheduler

end Paraleon.Rdma.QpGroups
