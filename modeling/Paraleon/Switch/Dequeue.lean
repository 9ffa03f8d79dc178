import Paraleon.Switch.Node

/-!
# What `DequeueAndTransmit` does

`Dequeues` is the call without its bound on the depth: nothing happens, a packet
of class 0 is sent, or a packet of another class is sent, with a resume frame and
a nested call in between when its departure lets the ingress port resume.
Properties of the call are proved by induction on it.

* `dequeues_of_dequeueAndTransmit`: every call that returns is a `Dequeues`.
* `dequeueAndTransmit_total`: the bound that `dequeue` gives is enough.
-/

namespace Paraleon.Switch.SwitchNode

open Words

/-- The packets that wait in class `q` of port `d`. -/
def waiting (s : SwitchNode) (d : Port) (q : Class) : List Packet := (s.devices d).queue.queues q

/-! ## The fields each update leaves alone -/

section Fields

variable (s : SwitchNode) (d e : Port) (dev : QbbNetDevice) (b : BEgressQueue) (q : Class)
  (p : Packet) (c : SwitchConfig) (ok : Bool) (i : Incident)

@[simp] theorem setDevice_mmu : (s.setDevice d dev).mmu = s.mmu := rfl

@[simp] theorem setDevice_self : (s.setDevice d dev).devices d = dev := Function.update_self _ _ _

variable {d e} in
theorem setDevice_other (h : e ≠ d) : (s.setDevice d dev).devices e = s.devices e :=
  Function.update_of_ne h _ _

@[simp] theorem setQueue_mmu : (s.setQueue d b).mmu = s.mmu := rfl

@[simp] theorem setQueue_self : (s.setQueue d b).devices d = { s.devices d with queue := b } :=
  setDevice_self _ _ _

variable {d e} in
theorem setQueue_other (h : e ≠ d) : (s.setQueue d b).devices e = s.devices e :=
  setDevice_other _ _ h

@[simp] theorem setQueue_incidents : (s.setQueue d b).incidents = s.incidents := rfl

@[simp] theorem incident_mmu : (s.incident ok i).mmu = s.mmu := by
  unfold incident
  split <;> rfl

@[simp] theorem incident_devices : (s.incident ok i).devices = s.devices := by
  unfold incident
  split <;> rfl

@[simp] theorem enqueue_mmu : (s.enqueue d q p).mmu = s.mmu := by
  unfold enqueue
  split
  · rfl
  · exact incident_mmu _ _ _

@[simp] theorem transmitStart_mmu : (s.transmitStart d p).mmu = s.mmu := by
  simp [transmitStart]

@[simp] theorem removeFromMmu_devices : (s.removeFromMmu c d q p).devices = s.devices := rfl

@[simp] theorem removeFromMmu_incidents : (s.removeFromMmu c d q p).incidents = s.incidents := rfl

theorem setQueue_queue : ((s.setQueue d b).devices e).queue =
    if e = d then b else (s.devices e).queue := by
  rcases eq_or_ne e d with rfl | h
  · simp
  · rw [setQueue_other s b h, if_neg h]

@[simp] theorem transmitStart_queue :
    ((s.transmitStart d p).devices e).queue = (s.devices e).queue := by
  unfold transmitStart
  rcases eq_or_ne e d with rfl | h
  · simp
  · rw [setDevice_other _ _ h, incident_devices]

end Fields

/-! ## The nested calls -/

/-- The switch after a packet of a class from 1 on was popped, when
`SwitchNotifyDequeue` has taken it out of the MMU. -/
def release (c : SwitchConfig) (s : SwitchNode) (d : Port) (q : Class) (p : Packet)
    (rest : List Packet) : SwitchNode :=
  (s.setQueue d ((s.devices d).queue.pop q p rest)).removeFromMmu c d q p

/-- `DequeueAndTransmit` on port `d` takes the first state to the second. -/
inductive Dequeues (c : SwitchConfig) : Port → SwitchNode → SwitchNode → Prop
  | idle (d : Port) (s : SwitchNode) : Dequeues c d s s
  | control {d : Port} {s : SwitchNode} {p : Packet} {rest : List Packet}
      (hup : (s.devices d).linkUp = true) (hready : (s.devices d).txMachineState = .ready)
      (hq : (s.devices d).queue.queues 0 = p :: rest) :
      Dequeues c d s ((s.setQueue d ((s.devices d).queue.pop 0 p rest)).transmitStart d p)
  | data {d : Port} {s : SwitchNode} {q : Class} {p : Packet} {rest : List Packet}
      (hup : (s.devices d).linkUp = true) (hready : (s.devices d).txMachineState = .ready)
      (hzero : (s.devices d).queue.queues 0 = []) (hpaused : (s.devices d).paused q = false)
      (hne : q ≠ 0) (hq : (s.devices d).queue.queues q = p :: rest)
      (hno : (s.release c d q p rest).mmu.checkShouldResume c.mmu (p.flowId, q) = false) :
      Dequeues c d s ((s.release c d q p rest).transmitStart d p)
  | dataResume {d : Port} {s t : SwitchNode} {q : Class} {p : Packet} {rest : List Packet}
      (hup : (s.devices d).linkUp = true) (hready : (s.devices d).txMachineState = .ready)
      (hzero : (s.devices d).queue.queues 0 = []) (hpaused : (s.devices d).paused q = false)
      (hne : q ≠ 0) (hq : (s.devices d).queue.queues q = p :: rest)
      (hresume : (s.release c d q p rest).mmu.checkShouldResume c.mmu (p.flowId, q) = true)
      (hnested : Dequeues c p.flowId ((s.release c d q p rest).enqueue p.flowId 0
        (pfcFrame c p.flowId q .resume)) t) :
      Dequeues c d s
        ({ t with mmu := t.mmu.setResume (p.flowId, q) }.transmitStart d p)

variable {c : SwitchConfig}

theorem dequeues_of_dequeueAndTransmit {fuel : Nat} {d : Port} {s t : SwitchNode}
    (h : dequeueAndTransmit c fuel d s = some t) : Dequeues c d s t := by
  induction fuel generalizing d s t with
  | zero => cases h
  | succ fuel ih =>
    simp only [dequeueAndTransmit] at h
    split at h
    · cases h
      exact .idle d s
    next hup =>
    split at h
    · cases h
      exact .idle d s
    next hbusy =>
    have hup : (s.devices d).linkUp = true := by simpa using hup
    have hready : (s.devices d).txMachineState = .ready := by
      cases hs : (s.devices d).txMachineState with
      | ready => rfl
      | busy => exact absurd hs hbusy
    split at h
    · cases h
      exact .idle d s
    next p queue hdeq =>
    obtain ⟨q, rest, hq, rfl, hclass⟩ := BEgressQueue.dequeueRR_cases hdeq
    simp only [BEgressQueue.pop_qlast, Option.bind_eq_bind, Option.bind_eq_some_iff] at h
    obtain ⟨u, hnotify, ht⟩ := h
    cases ht
    unfold switchNotifyDequeue at hnotify
    split at hnotify
    · next hne =>
      have hne : q ≠ 0 := hne
      -- a data class: its removal may send a resume, which dequeues elsewhere
      obtain ⟨hzero, hpaused⟩ := hclass.resolve_left hne
      unfold checkAndSendResume at hnotify
      split at hnotify
      · next hresume =>
        simp only [Option.bind_eq_bind, Option.bind_eq_some_iff] at hnotify
        obtain ⟨v, hnested, hu⟩ := hnotify
        cases hu
        exact .dataResume hup hready hzero hpaused hne hq hresume (ih hnested)
      · next hno =>
        cases hnotify
        exact .data hup hready hzero hpaused hne hq (eq_false_of_ne_true hno)
    · next hzero =>
      -- class 0 is not counted by the MMU
      obtain rfl : q = 0 := not_not.mp hzero
      cases hnotify
      exact .control hup hready hq

theorem dequeues_of_dequeue {d : Port} {s t : SwitchNode} (h : dequeue c d s = some t) :
    Dequeues c d s t :=
  dequeues_of_dequeueAndTransmit h

/-! ## The callers -/

theorem dequeue_of_switchSend {d : Port} {q : Class} {p : Packet} {s t : SwitchNode}
    (h : switchSend (dequeue c) s d q p = some t) : dequeue c d (s.enqueue d q p) = some t := by
  rw [switchSend] at h
  exact h

/-- Admission charges the packet and pauses its slot when that is due. -/
theorem admit_calls {idx : Port} {q : Class} {p : Packet} {s t : SwitchNode}
    (h : s.admission c idx q p = some t) :
    (q = 0 ∧ t = s) ∨
    (q ≠ 0 ∧ (s.updateMmu c idx q p).mmu.checkShouldPause c.mmu (p.flowId, q) = false ∧
      t = s.updateMmu c idx q p) ∨
    (q ≠ 0 ∧ (s.updateMmu c idx q p).mmu.checkShouldPause c.mmu (p.flowId, q) = true ∧
      ∃ u, dequeue c p.flowId ((s.updateMmu c idx q p).enqueue p.flowId 0
        (pfcFrame c p.flowId q .pause)) = some u ∧
        t = { u with mmu := u.mmu.setPause (p.flowId, q) }) := by
  unfold admission at h
  split at h
  · next hne =>
    have hne : q ≠ 0 := hne
    split at h
    · unfold checkAndSendPfc at h
      split at h
      · next hpause =>
        simp only [Option.bind_eq_bind, Option.bind_eq_some_iff] at h
        obtain ⟨u, hu, ht⟩ := h
        cases ht
        rw [sendPfc] at hu
        exact .inr (.inr ⟨hne, hpause, u, dequeue_of_switchSend hu, rfl⟩)
      · next hno =>
        cases h
        exact .inr (.inl ⟨hne, eq_false_of_ne_true hno, rfl⟩)
    · cases h
  · next hzero =>
    cases h
    exact .inl ⟨not_not.mp hzero, rfl⟩

theorem admit_cases {idx : Port} {q : Class} {p : Packet} {s t : SwitchNode}
    (h : s.admission c idx q p = some t) :
    (q = 0 ∧ t = s) ∨
    (q ≠ 0 ∧ (s.updateMmu c idx q p).mmu.checkShouldPause c.mmu (p.flowId, q) = false ∧
      t = s.updateMmu c idx q p) ∨
    (q ≠ 0 ∧ (s.updateMmu c idx q p).mmu.checkShouldPause c.mmu (p.flowId, q) = true ∧
      ∃ u, Dequeues c p.flowId ((s.updateMmu c idx q p).enqueue p.flowId 0
        (pfcFrame c p.flowId q .pause)) u ∧
        t = { u with mmu := u.mmu.setPause (p.flowId, q) }) := by
  rcases admit_calls h with h | h | ⟨hne, hpause, u, hu, ht⟩
  · exact .inl h
  · exact .inr (.inl h)
  · exact .inr (.inr ⟨hne, hpause, u, dequeues_of_dequeue hu, ht⟩)

theorem sendToDev_calls {p : Packet} {stale : UInt32} {s t : SwitchNode}
    (h : s.sendToDev c p stale = some t) :
    (s.getOutDev c p stale = none ∧ t = s) ∨
    ∃ idx u, s.getOutDev c p stale = some idx ∧
      (s.incident (s.devices idx).linkUp (.linkDown idx)).admission c idx (queueIndex c p) p =
        some u ∧
      dequeue c idx (u.enqueue idx (queueIndex c p) p) = some t := by
  unfold sendToDev at h
  split at h
  · next hout =>
    cases h
    exact .inl ⟨hout, rfl⟩
  · next idx hout =>
    simp only [Option.bind_eq_bind, Option.bind_eq_some_iff] at h
    obtain ⟨u, hu, ht⟩ := h
    exact .inr ⟨idx, u, hout, hu, dequeue_of_switchSend ht⟩

theorem sendToDev_cases {p : Packet} {stale : UInt32} {s t : SwitchNode}
    (h : s.sendToDev c p stale = some t) :
    (s.getOutDev c p stale = none ∧ t = s) ∨
    ∃ idx u, s.getOutDev c p stale = some idx ∧
      (s.incident (s.devices idx).linkUp (.linkDown idx)).admission c idx (queueIndex c p) p =
        some u ∧
      Dequeues c idx (u.enqueue idx (queueIndex c p) p) t := by
  rcases sendToDev_calls h with h | ⟨idx, u, hout, hadmission, hcall⟩
  · exact .inl h
  · exact .inr ⟨idx, u, hout, hadmission, dequeues_of_dequeue hcall⟩

/-- A packet that arrives is dropped, or is a PFC frame that pauses or resumes a
class, or goes on to `SendToDev`. -/
theorem receive_cases {d : Port} {p : Packet} {stale : UInt32} {s t : SwitchNode}
    (h : s.receive c d p stale = some t) :
    t = s ∨
    (p.l3Prot = 0xFE ∧ 0 < p.pfcTime ∧ t = s.setDevice d { s.devices d with
      paused := Function.update (s.devices d).paused p.pfcQIndex true }) ∨
    (p.l3Prot = 0xFE ∧ Dequeues c d ((s.incident ((s.devices d).paused p.pfcQIndex)
      (.notPaused d p.pfcQIndex)).setDevice d { s.devices d with
        paused := Function.update (s.devices d).paused p.pfcQIndex false }) t) ∨
    ((s.devices d).linkUp = true ∧ p.l3Prot ≠ 0xFE ∧
      s.sendToDev c { p with flowId := d } stale = some t) := by
  simp only [receive] at h
  split at h
  · cases h
    exact .inl rfl
  next hup =>
  split at h
  · next hpfc =>
    split at h
    · cases h
      exact .inl rfl
    split at h
    · next htime =>
      cases h
      exact .inr (.inl ⟨hpfc, htime, rfl⟩)
    · rw [resume] at h
      exact .inr (.inr (.inl ⟨hpfc, dequeues_of_dequeue h⟩))
  · next hpfc => exact .inr (.inr (.inr ⟨by simpa using hup, hpfc, h⟩))

theorem transmitComplete_cases {d : Port} {s t : SwitchNode}
    (h : s.transmitComplete c d = some t) :
    (s.devices d).completes ≠ 0 ∧
      Dequeues c d (((s.incident ((s.devices d).txMachineState = .busy) (.notBusy d)).incident
        (s.devices d).currentPkt.isSome (.noPacket d)).setDevice d
          { s.devices d with txMachineState := .ready, currentPkt := none,
                             completes := (s.devices d).completes - 1 }) t := by
  simp only [transmitComplete] at h
  split at h
  · cases h
  · next hne => exact ⟨hne, dequeues_of_dequeue h⟩

theorem deliver_cases {d : Port} {p : Packet} {s t : SwitchNode} (h : s.deliver d = some (p, t)) :
    ∃ rest, (s.devices d).wire = p :: rest ∧
      t = s.setDevice d { s.devices d with wire := rest } := by
  unfold deliver at h
  split at h
  · cases h
  · next q rest hw =>
    cases h
    exact ⟨rest, hw, rfl⟩

/-! ## Incidents stay on record -/

/-- The queue takes the packet, or the refusal is on record. -/
theorem enqueue_cases (s : SwitchNode) (d : Port) (q : Class) (p : Packet) :
    (∃ queue, (s.devices d).queue.enqueue p q = some queue ∧ s.enqueue d q p = s.setQueue d queue) ∨
      s.enqueue d q p = s.incident false (.refused d q) := by
  unfold enqueue
  split
  · next queue h => exact .inl ⟨queue, h, rfl⟩
  · exact .inr rfl

section Incidents

variable {s t : SwitchNode} {d : Port} {p : Packet} {i : Incident}

theorem mem_incident {ok : Bool} {j : Incident} (h : i ∈ s.incidents) :
    i ∈ (s.incident ok j).incidents := by
  unfold incident
  split
  · exact h
  · exact List.mem_append_left _ h

theorem mem_enqueue {r : Class} (h : i ∈ s.incidents) :
    i ∈ (s.enqueue d r p).incidents := by
  rcases enqueue_cases s d r p with ⟨queue, -, heq⟩ | heq
  · rw [heq]
    exact h
  · rw [heq]
    exact mem_incident h

theorem mem_transmitStart (h : i ∈ s.incidents) :
    i ∈ (s.transmitStart d p).incidents := mem_incident h

theorem mem_dequeues (hd : Dequeues c d s t) (h : i ∈ s.incidents) :
    i ∈ t.incidents := by
  induction hd with
  | idle => exact h
  | control _ _ _ => exact mem_transmitStart h
  | data _ _ _ _ _ _ _ => exact mem_transmitStart h
  | dataResume _ _ _ _ _ _ _ _ ih => exact mem_transmitStart (ih (mem_enqueue h))

end Incidents

/-! ## The depth of the nested calls -/

/-- The backlog depends on the queues of the classes from 1 on. -/
theorem backlog_congr {s t : SwitchNode}
    (h : ∀ d q, q ≠ 0 → (t.devices d).queue.queues q = (s.devices d).queue.queues q) :
    t.backlog = s.backlog := by
  refine Finset.sum_congr rfl fun i _ => ?_
  unfold backlogOf
  by_cases hi : i.2 = 0
  · rw [if_pos hi, if_pos hi]
  · rw [if_neg hi, if_neg hi, h i.1 i.2 hi]

/-- A packet of class 0 changes no other class. -/
theorem enqueue_zero_queues (s : SwitchNode) (d e : Port) (p : Packet) {q : Class} (hq : q ≠ 0) :
    ((s.enqueue d 0 p).devices e).queue.queues q = (s.devices e).queue.queues q ∧
      ((s.enqueue d 0 p).devices e).queue.bytesInQueue q =
        (s.devices e).queue.bytesInQueue q := by
  unfold enqueue
  split
  · next b hb =>
    obtain ⟨hqueues, hbytes⟩ := BEgressQueue.enqueue_queues hb
    rw [setQueue_queue]
    split
    · next h =>
      subst h
      rw [hqueues, hbytes, Function.update_of_ne hq, Function.update_of_ne hq]
      exact ⟨rfl, rfl⟩
    · exact ⟨rfl, rfl⟩
  · rw [incident_devices]
    exact ⟨rfl, rfl⟩

theorem backlog_release (c : SwitchConfig) {s : SwitchNode} {d : Port} {q : Class} {p : Packet}
    {rest : List Packet} (hne : q ≠ 0) (hq : (s.devices d).queue.queues q = p :: rest) :
    (s.release c d q p rest).backlog + 1 = s.backlog := by
  have hother : ∀ i ≠ (d, q), (s.release c d q p rest).backlogOf i = s.backlogOf i := by
    intro i hi
    simp only [backlogOf, release, removeFromMmu_devices, setQueue_queue]
    by_cases hd : i.1 = d
    · have hiq : i.2 ≠ q := fun h => hi (Prod.ext hd h)
      rw [if_pos hd, BEgressQueue.pop_queues, Function.update_of_ne hiq, hd]
    · rw [if_neg hd]
  have hsum : (s.release c d q p rest).backlog + s.backlogOf (d, q) =
      s.backlog + (s.release c d q p rest).backlogOf (d, q) := Weights.sum_changed hother
  have hself : (s.release c d q p rest).backlogOf (d, q) + 1 = s.backlogOf (d, q) := by
    simp only [backlogOf, if_neg hne, release, removeFromMmu_devices, setQueue_queue, if_pos,
      BEgressQueue.pop_queues, Function.update_self, hq, List.length_cons]
  omega

theorem switchNotifyDequeue_total {deq : Port → SwitchNode → Option SwitchNode} {s : SwitchNode}
    {d : Port} {q : Class} {p : Packet}
    (h : q ≠ 0 → ∃ t, deq p.flowId ((s.removeFromMmu c d q p).enqueue p.flowId 0
      (pfcFrame c p.flowId q .resume)) = some t) :
    ∃ t, switchNotifyDequeue deq c s d q p = some t := by
  unfold switchNotifyDequeue checkAndSendResume sendPfc switchSend
  split
  · next hne =>
    split
    · obtain ⟨t, ht⟩ := h hne
      rw [ht]
      exact ⟨_, rfl⟩
    · exact ⟨_, rfl⟩
  · exact ⟨_, rfl⟩

/-- With more fuel than packets in the backlog, every nested call returns. -/
theorem dequeueAndTransmit_total (c : SwitchConfig) {fuel : Nat} (d : Port) {s : SwitchNode}
    (h : s.backlog < fuel) : ∃ t, dequeueAndTransmit c fuel d s = some t := by
  induction fuel generalizing d s with
  | zero => omega
  | succ fuel ih =>
    simp only [dequeueAndTransmit]
    split
    · exact ⟨s, rfl⟩
    split
    · exact ⟨s, rfl⟩
    split
    · exact ⟨s, rfl⟩
    next p queue hdeq =>
    obtain ⟨q, rest, hq, rfl, -⟩ := BEgressQueue.dequeueRR_cases hdeq
    have hnotify : ∃ t, switchNotifyDequeue (dequeueAndTransmit c fuel) c
        (s.setQueue d ((s.devices d).queue.pop q p rest)) d q p = some t := by
      refine switchNotifyDequeue_total fun hne => ih p.flowId ?_
      -- the nested call finds one packet less
      have hless := backlog_release c hne hq
      have hframe : ((s.release c d q p rest).enqueue p.flowId 0
          (pfcFrame c p.flowId q .resume)).backlog = (s.release c d q p rest).backlog :=
        backlog_congr fun e r hr => (enqueue_zero_queues _ _ e _ hr).1
      unfold release at hless hframe
      omega
    obtain ⟨t, ht⟩ := hnotify
    rw [BEgressQueue.pop_qlast, ht]
    exact ⟨_, rfl⟩

theorem dequeue_total (c : SwitchConfig) (d : Port) (s : SwitchNode) :
    ∃ t, dequeue c d s = some t :=
  dequeueAndTransmit_total c d (Nat.lt_succ_self _)

end Paraleon.Switch.SwitchNode
