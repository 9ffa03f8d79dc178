import Mathlib.Data.Fintype.BigOperators
import Paraleon.Library.Runs
import Paraleon.Switch.Config
import Paraleon.Switch.Dequeue
import Paraleon.Switch.MmuAccounting

/-!
# The buffer manager agrees with the device queues

The MMU is charged in `SendToDev` and credited in `SwitchNotifyDequeue`; the
queues gain a packet in `SwitchSend` and lose one in `DequeueAndTransmit` and in
`TakeDown`. Between charge and enqueue the packet is in hand: `Agree` says that
the counters are those of the queues and of the packet in hand.

* `agree_dequeues`: `DequeueAndTransmit`, with all its nested calls, keeps it.
* `mmu_agrees`: so does every run in which no enqueue of a charged packet is
  refused, no device with charged bytes in its queue is taken down, and the sums
  stay in 32 bits.
* `takeDownRun`: `TakeDown` empties the queue and does not tell the MMU.
-/

namespace Paraleon.Switch.SwitchNode

open Words Weights Runs

/-! ## The bytes in the queues -/

/-- The bytes that wait to leave by a slot. Class 0 is not charged. -/
def queuedTo (s : SwitchNode) (i : Slot) : Nat :=
  if i.2 = 0 then 0 else total (·.size) (s.waiting i.1 i.2)

/-- The bytes that came in by a slot and wait in some device. -/
def queuedFrom (s : SwitchNode) (i : Slot) : Nat :=
  if i.2 = 0 then 0 else ∑ d, weightOf (·.size) (·.flowId) i.1 (s.waiting d i.2)

/-- All charged bytes that wait. -/
def heldBytes (s : SwitchNode) : Nat := ∑ i, s.queuedTo i

theorem sum_queuedFrom (s : SwitchNode) : ∑ i, s.queuedFrom i = s.heldBytes := by
  have hclass (q : Class) : ∑ i : Port, s.queuedFrom (i, q) = ∑ d : Port, s.queuedTo (d, q) := by
    by_cases hq : q = 0
    · simp [queuedTo, queuedFrom, hq]
    · simp only [queuedTo, queuedFrom, if_neg hq]
      rw [Finset.sum_comm]
      exact Finset.sum_congr rfl fun d _ => sum_weightOf _ _ _
  calc ∑ i, s.queuedFrom i = ∑ q : Class, ∑ i : Port, s.queuedFrom (i, q) := by
        rw [Fintype.sum_prod_type, Finset.sum_comm]
    _ = ∑ q : Class, ∑ d : Port, s.queuedTo (d, q) := Finset.sum_congr rfl fun q _ => hclass q
    _ = s.heldBytes := by rw [heldBytes, Fintype.sum_prod_type, Finset.sum_comm]

theorem queuedTo_le (s : SwitchNode) (i : Slot) : s.queuedTo i ≤ s.heldBytes :=
  entry_le_sum s.queuedTo i

section OneQueue

variable {s t : SwitchNode} {d : Port} {q : Class}

/-- Only the queue of class `q` on port `d` changes. -/
def OnlyQueue (d : Port) (q : Class) (s t : SwitchNode) : Prop :=
  ∀ e r, r ≠ 0 → (e, r) ≠ (d, q) → t.waiting e r = s.waiting e r

theorem queuedTo_other (h : OnlyQueue d q s t) {i : Slot} (hi : i ≠ (d, q)) :
    t.queuedTo i = s.queuedTo i := by
  unfold queuedTo
  by_cases hz : i.2 = 0
  · rw [if_pos hz, if_pos hz]
  · rw [if_neg hz, if_neg hz, h i.1 i.2 hz hi]

theorem queuedFrom_changed (h : OnlyQueue d q s t) (hne : q ≠ 0) (i : Port) :
    t.queuedFrom (i, q) + weightOf (·.size) (·.flowId) i (s.waiting d q) =
      s.queuedFrom (i, q) + weightOf (·.size) (·.flowId) i (t.waiting d q) := by
  have hother : ∀ e ≠ d, weightOf (·.size) (·.flowId) i (t.waiting e q) =
      weightOf (·.size) (·.flowId) i (s.waiting e q) := fun e he => by
    rw [h e q hne fun heq => he (Prod.ext_iff.mp heq).1]
  simp only [queuedFrom, if_neg hne]
  exact sum_changed hother

theorem queuedFrom_otherClass (h : OnlyQueue d q s t) {i : Slot} (hi : i.2 ≠ q) :
    t.queuedFrom i = s.queuedFrom i := by
  unfold queuedFrom
  by_cases hz : i.2 = 0
  · rw [if_pos hz, if_pos hz]
  · rw [if_neg hz, if_neg hz]
    exact Finset.sum_congr rfl fun e _ => by
      rw [h e i.2 hz fun heq => hi (Prod.ext_iff.mp heq).2]

/-- The queue changes by one packet: the slot it came in by changes by its size. -/
theorem queuedFrom_packet (p : Packet) (h : OnlyQueue d q s t) (hne : q ≠ 0)
    (hw : ∀ i, weightOf (·.size) (·.flowId) i (t.waiting d q) =
      weightOf (·.size) (·.flowId) i (s.waiting d q) + if p.flowId = i then p.size else 0)
    (i : Slot) :
    t.queuedFrom i = s.queuedFrom i + if (p.flowId, q) = i then p.size else 0 := by
  by_cases hi : i.2 = q
  · obtain ⟨i, r⟩ := i
    obtain rfl : r = q := hi
    have hchanged := queuedFrom_changed h hne i
    have hsize : (if (p.flowId, r) = (i, r) then p.size else 0) =
        if p.flowId = i then p.size else 0 := by
      simp
    rw [hsize]
    have := hw i
    omega
  · rw [queuedFrom_otherClass h hi, if_neg fun heq => hi (by rw [← heq]), Nat.add_zero]

end OneQueue

/-! ## The agreement -/

/-- A packet that is charged and not yet in a queue. -/
structure InHand where
  idx : Port
  qIndex : Class
  packet : Packet

def handFrom : Option InHand → Slot → Nat
  | none, _ => 0
  | some h, i => if (h.packet.flowId, h.qIndex) = i then h.packet.size else 0

def handTo : Option InHand → Slot → Nat
  | none, _ => 0
  | some h, i => if (h.idx, h.qIndex) = i then h.packet.size else 0

def handSize : Option InHand → Nat
  | none => 0
  | some h => h.packet.size

/-- The counters of the MMU and of the queues are those of the packets in the
queues and of the one in hand. -/
structure Agree (c : SwitchConfig) (hand : Option InHand) (s : SwitchNode) : Prop where
  charged : Charged c.mmu.reserve.toNat s.mmu fun i => s.queuedFrom i + handFrom hand i
  egress : ∀ i, s.mmu.egressBytes i = s.queuedTo i + handTo hand i
  bytes : ∀ d q, q ≠ 0 → (s.devices d).queue.bytesInQueue q = total (·.size) (s.waiting d q)
  small : s.heldBytes + handSize hand < 2 ^ 32

/-- Two switches with the same charges and the same queues from class 1 on. -/
structure SameCharges (s t : SwitchNode) : Prop where
  mmu : t.mmu = { s.mmu with paused := t.mmu.paused }
  waiting : ∀ d q, q ≠ 0 → t.waiting d q = s.waiting d q
  bytes : ∀ d q, q ≠ 0 →
    (t.devices d).queue.bytesInQueue q = (s.devices d).queue.bytesInQueue q

theorem SameCharges.trans {s t u : SwitchNode} (h : SameCharges s t) (h' : SameCharges t u) :
    SameCharges s u where
  mmu := by
    rw [h'.mmu, h.mmu]
  waiting d q hq := (h'.waiting d q hq).trans (h.waiting d q hq)
  bytes d q hq := (h'.bytes d q hq).trans (h.bytes d q hq)

theorem SameCharges.queuedFrom {s t : SwitchNode} (h : SameCharges s t) :
    t.queuedFrom = s.queuedFrom := by
  funext i
  unfold SwitchNode.queuedFrom
  by_cases hz : i.2 = 0
  · rw [if_pos hz, if_pos hz]
  · rw [if_neg hz, if_neg hz]
    exact Finset.sum_congr rfl fun d _ => by rw [h.waiting d i.2 hz]

theorem SameCharges.queuedTo {s t : SwitchNode} (h : SameCharges s t) :
    t.queuedTo = s.queuedTo := by
  funext i
  unfold SwitchNode.queuedTo
  by_cases hz : i.2 = 0
  · rw [if_pos hz, if_pos hz]
  · rw [if_neg hz, if_neg hz, h.waiting i.1 i.2 hz]

variable {c : SwitchConfig} {hand : Option InHand} {s t : SwitchNode} {d : Port} {q : Class}
  {p : Packet} {rest : List Packet}

theorem Agree.of_loads (h : Agree c hand s) (hmmu : t.mmu = { s.mmu with paused := t.mmu.paused })
    (hfrom : t.queuedFrom = s.queuedFrom) (hto : t.queuedTo = s.queuedTo)
    (hbytes : ∀ d q, q ≠ 0 →
      (t.devices d).queue.bytesInQueue q = total (·.size) (t.waiting d q)) : Agree c hand t where
  charged := by
    rw [hfrom, hmmu]
    exact ⟨h.charged.ingress, h.charged.shared⟩
  egress i := by
    rw [hto, hmmu]
    exact h.egress i
  bytes := hbytes
  small := by
    rw [heldBytes, hto]
    exact h.small

theorem Agree.of_same (h : Agree c hand s) (hs : SameCharges s t) : Agree c hand t :=
  h.of_loads hs.mmu hs.queuedFrom hs.queuedTo fun d q hq => by
    rw [hs.bytes d q hq, hs.waiting d q hq]
    exact h.bytes d q hq

/-- An update of a device that leaves its queue alone. -/
theorem same_setDevice {dev : QbbNetDevice} (h : dev.queue = (s.devices d).queue) :
    SameCharges s (s.setDevice d dev) := by
  have hqueue (e : Port) : ((s.setDevice d dev).devices e).queue = (s.devices e).queue := by
    rcases eq_or_ne e d with rfl | he
    · rw [setDevice_self, h]
    · rw [setDevice_other s dev he]
  exact ⟨rfl, fun e r _ => by rw [waiting, hqueue, waiting], fun e r _ => by rw [hqueue]⟩

theorem same_incident (ok : Bool) (i : Incident) : SameCharges s (s.incident ok i) :=
  ⟨by rw [incident_mmu], fun e r _ => by rw [waiting, incident_devices, waiting],
    fun e r _ => by rw [incident_devices]⟩

theorem same_transmitStart : SameCharges s (s.transmitStart d p) :=
  (same_incident _ _).trans (same_setDevice (by rw [incident_devices]))

theorem same_paused (paused : Slot → Bool) :
    SameCharges s { s with mmu := { s.mmu with paused } } :=
  ⟨rfl, fun _ _ _ => rfl, fun _ _ _ => rfl⟩

/-- A queue that changes in class 0 only. -/
theorem same_setQueue {b : BEgressQueue}
    (hq : ∀ r ≠ 0, b.queues r = (s.devices d).queue.queues r)
    (hbytes : ∀ r ≠ 0, b.bytesInQueue r = (s.devices d).queue.bytesInQueue r) :
    SameCharges s (s.setQueue d b) := by
  refine ⟨rfl, fun e r hr => ?_, fun e r hr => ?_⟩
  · rw [waiting, waiting, setQueue_queue]
    split
    · next he => rw [he, hq r hr]
    · rfl
  · rw [setQueue_queue]
    split
    · next he => rw [he, hbytes r hr]
    · rfl

theorem same_popZero : SameCharges s (s.setQueue d ((s.devices d).queue.pop 0 p rest)) :=
  same_setQueue (fun _ hr => Function.update_of_ne hr _ _) fun _ hr => Function.update_of_ne hr _ _

theorem same_enqueueZero : SameCharges s (s.enqueue d 0 p) :=
  ⟨by rw [enqueue_mmu], fun e _ hr => (enqueue_zero_queues s d e p hr).1,
    fun e _ hr => (enqueue_zero_queues s d e p hr).2⟩

/-! ## One packet in, one packet out -/

/-- The packets of two switches that differ in one queue, by one packet. -/
theorem queuedTo_packet (p : Packet) (h : OnlyQueue d q s t) (hne : q ≠ 0)
    (hw : total (·.size) (t.waiting d q) = total (·.size) (s.waiting d q) + p.size) (i : Slot) :
    t.queuedTo i = s.queuedTo i + if (d, q) = i then p.size else 0 := by
  rcases eq_or_ne (d, q) i with rfl | hi
  · simp only [queuedTo, if_neg hne, if_pos, hw]
  · rw [queuedTo_other h (Ne.symm hi), if_neg hi, Nat.add_zero]

/-- Dequeue: the packet leaves its queue and the MMU together. -/
theorem agree_release (h : Agree c hand s) (hne : q ≠ 0) (hq : s.waiting d q = p :: rest) :
    Agree c hand (s.release c d q p rest) := by
  have hself : (s.release c d q p rest).waiting d q = rest := by
    simp [release, waiting]
  have honly : OnlyQueue d q (s.release c d q p rest) s := fun e r _ her => by
    simp only [release, waiting, removeFromMmu_devices, setQueue_queue]
    split
    · next he =>
      subst he
      rw [BEgressQueue.pop_queues, Function.update_of_ne fun hr => her (by rw [hr])]
    · rfl
  have hfrom := queuedFrom_packet p honly hne fun i => by
    rw [hself, hq, weightOf_cons, Nat.add_comm]
  have hto := queuedTo_packet p honly hne (by rw [hself, hq, total_cons, Nat.add_comm])
  refine ⟨?_, fun i => ?_, fun e r hr => ?_, ?_⟩
  -- the charges of the slot and the packets behind them lose the same bytes
  · have hcharged : Charged c.mmu.reserve.toNat
        (s.mmu.removeFromIngressAdmission c.mmu (p.flowId, q) p.size)
        fun i => (s.release c d q p rest).queuedFrom i + handFrom hand i := by
      refine charged_remove h.charged ?_ fun j hj => ?_
      · have := hfrom (p.flowId, q)
        rw [if_pos rfl] at this
        omega
      · have := hfrom j
        rw [if_neg (Ne.symm hj)] at this
        omega
    exact ⟨hcharged.ingress, hcharged.shared⟩
  · have hi := h.egress i
    have htoi := hto i
    -- the egress counter of the queue
    show Function.update s.mmu.egressBytes (d, q) (sub32 (s.mmu.egressBytes (d, q)) p.size) i = _
    rcases eq_or_ne (d, q) i with rfl | hdi
    · rw [if_pos rfl] at htoi
      rw [Function.update_self, sub32_of_le (by omega)]
      omega
    · rw [if_neg hdi] at htoi
      rw [Function.update_of_ne (Ne.symm hdi)]
      omega
  · have hb := h.bytes e r hr
    -- the byte count that the queue itself keeps
    simp only [release, waiting, removeFromMmu_devices, setQueue_queue] at hb ⊢
    split
    · next he =>
      subst he
      rcases eq_or_ne r q with rfl | hrq
      · have hq' : (s.devices e).queue.queues r = p :: rest := hq
        rw [hq', total_cons] at hb
        simp only [BEgressQueue.pop, Function.update_self]
        rw [sub32_of_le (by omega)]
        omega
      · simpa [BEgressQueue.pop, Function.update_of_ne hrq] using hb
    · exact hb
  · have hle : (s.release c d q p rest).heldBytes ≤ s.heldBytes :=
      Finset.sum_le_sum fun i _ => by rw [hto i]; exact Nat.le_add_right _ _
    have := h.small
    omega

/-- Enqueue: the packet in hand goes into its queue. -/
theorem agree_enqueue (h : Agree c (some ⟨d, q, p⟩) s) (hne : q ≠ 0)
    (haccepts : (s.devices d).queue.accepts p = true) : Agree c none (s.enqueue d q p) := by
  obtain ⟨b, hsome⟩ := BEgressQueue.enqueue_of_accepts q haccepts
  obtain ⟨hqueues, hbytes⟩ := BEgressQueue.enqueue_queues hsome
  have henqueue : s.enqueue d q p = s.setQueue d b := by
    rw [enqueue, hsome]
  have hqueue : ((s.enqueue d q p).devices d).queue = b := by
    rw [henqueue, setQueue_queue, if_pos rfl]
  have hother (e : Port) (he : e ≠ d) :
      ((s.enqueue d q p).devices e).queue = (s.devices e).queue := by
    rw [henqueue, setQueue_queue, if_neg he]
  have hself : (s.enqueue d q p).waiting d q = s.waiting d q ++ [p] := by
    rw [waiting, hqueue, hqueues]
    exact Function.update_self _ _ _
  have honly : OnlyQueue d q s (s.enqueue d q p) := fun e r _ her => by
    rcases eq_or_ne e d with rfl | he
    · rw [waiting, hqueue, hqueues]
      exact Function.update_of_ne (fun hr => her (by rw [hr])) _ _
    · rw [waiting, hother e he, waiting]
  have hfrom := queuedFrom_packet p honly hne fun i => by rw [hself, weightOf_snoc]
  have hto := queuedTo_packet p honly hne (by rw [hself, total_append]; rfl)
  -- what the hand held is now held by the queue, so that no sum grows
  have hheld : (s.enqueue d q p).heldBytes = s.heldBytes + p.size := by
    unfold heldBytes
    rw [Finset.sum_congr rfl fun i _ => hto i, Finset.sum_add_distrib]
    simp
  have hsmall : s.heldBytes + p.size < 2 ^ 32 := h.small
  refine ⟨⟨fun i => ?_, ?_⟩, fun i => ?_, fun e r hr => ?_, ?_⟩
  · rw [hfrom i, enqueue_mmu]
    exact h.charged.ingress i
  · rw [enqueue_mmu]
    exact h.charged.shared
  · rw [hto i, enqueue_mmu]
    exact h.egress i
  · have hb := h.bytes e r hr
    rcases eq_or_ne e d with rfl | he
    · by_cases hrq : r = q
      · subst hrq
        have hle := s.queuedTo_le (e, r)
        simp only [queuedTo, if_neg hne] at hle
        simp only [hself, hqueue, hbytes, total_append, Function.update_self, hb]
        rw [u32_of_lt (by omega)]
        rfl
      · rw [honly e r hr fun heq => hrq (Prod.ext_iff.mp heq).2, hqueue, hbytes]
        exact (Function.update_of_ne hrq _ _).trans hb
    · rw [honly e r hr fun heq => he (Prod.ext_iff.mp heq).1, hother e he]
      exact hb
  · have hnone : handSize none = 0 := rfl
    omega

/-- Admission: the packet is charged, and in hand. -/
theorem agree_charge (h : Agree c none s) (hfit : s.heldBytes + p.size < 2 ^ 32) :
    Agree c (some ⟨d, q, p⟩) (s.updateMmu c d q p) := by
  have hsum : ∑ i, (s.queuedFrom i + handFrom none i) = s.heldBytes := s.sum_queuedFrom
  have hfits : s.mmu.Fits (p.flowId, q) p.size := h.charged.fits (by omega) _
  have hshared := h.charged.shared_le
  refine ⟨?_, fun i => ?_, h.bytes, hfit⟩
  · have hcharged : Charged c.mmu.reserve.toNat
        (s.mmu.updateIngressAdmission c.mmu (p.flowId, q) p.size)
        fun i => s.queuedFrom i + handFrom (some ⟨d, q, p⟩) i := by
      refine charged_update h.charged hfits (fun _ => by omega) ?_ fun j hj => ?_
      · simp [handFrom]
      · simp only [handFrom, if_neg (Ne.symm hj)]
    exact ⟨hcharged.ingress, hcharged.shared⟩
  · have hi := h.egress i
    have hle := s.queuedTo_le i
    have hi' : s.mmu.egressBytes i = s.queuedTo i := hi
    have hqueued : (s.updateMmu c d q p).queuedTo i = s.queuedTo i := rfl
    simp only [updateMmu, SwitchMmu.updateEgressAdmission_egress,
      SwitchMmu.updateIngressAdmission_egress, handTo] at hqueued ⊢
    rw [hqueued]
    rcases eq_or_ne (d, q) i with rfl | hdi
    · rw [Function.update_self, if_pos rfl, hi', u32_of_lt (by omega)]
    · rw [Function.update_of_ne (Ne.symm hdi), if_neg hdi, hi', Nat.add_zero]

/-! ## Steps -/

/-- `DequeueAndTransmit` keeps the agreement, at every depth of nesting. -/
theorem agree_dequeues (hd : Dequeues c d s t) (h : Agree c hand s) : Agree c hand t := by
  induction hd with
  | idle => exact h
  | control _ _ _ => exact (h.of_same same_popZero).of_same same_transmitStart
  | data _ _ _ _ hne hq _ => exact (agree_release h hne hq).of_same same_transmitStart
  | dataResume _ _ _ _ hne hq _ _ ih =>
    have hnested := ih ((agree_release h hne hq).of_same same_enqueueZero)
    exact (hnested.of_same (same_paused _)).of_same same_transmitStart

theorem agree_admission {idx : Port} (h : Agree c none s) (hne : q ≠ 0)
    (hfit : s.heldBytes + p.size < 2 ^ 32) (hadmission : s.admission c idx q p = some t) :
    Agree c (some ⟨idx, q, p⟩) t := by
  have hcharge : Agree c (some ⟨idx, q, p⟩) (s.updateMmu c idx q p) := agree_charge h hfit
  rcases admit_cases hadmission with ⟨hz, -⟩ | ⟨-, -, rfl⟩ | ⟨-, -, u, hu, rfl⟩
  · exact absurd hz hne
  · exact hcharge
  · exact (agree_dequeues hu (hcharge.of_same same_enqueueZero)).of_same (same_paused _)

/-- The port a packet that arrives is sent to; PFC frames are not sent on. -/
def forwardTo (c : SwitchConfig) (s : SwitchNode) (d : Port) (p : Packet) (stale : UInt32) :
    Option Port :=
  if (s.devices d).linkUp = false ∨ p.l3Prot = 0xFE then none
  else s.getOutDev c { p with flowId := d } stale

/-- A step neither loses a charged packet nor computes a sum beyond 32 bits: a
packet that is charged is accepted by the queue it goes to, and a device that is
taken down has no charged bytes in its queue. -/
def KeepsBytes (c : SwitchConfig) (s : SwitchNode) : Event → Prop
  | .receive d p stale => ∀ idx ∈ s.forwardTo c d p stale, queueIndex c p ≠ 0 →
      s.heldBytes + p.size < 2 ^ 32 ∧
      ∀ u ∈ (s.incident (s.devices idx).linkUp (.linkDown idx)).admission c idx (queueIndex c p)
        { p with flowId := d }, (u.devices idx).queue.accepts p = true
  | .takeDown d => ∀ q, q ≠ 0 → total (·.size) (s.waiting d q) = 0
  | _ => True

instance (c : SwitchConfig) (s : SwitchNode) : ∀ e, Decidable (KeepsBytes c s e)
  | .receive d p stale => inferInstanceAs (Decidable (∀ idx ∈ s.forwardTo c d p stale,
      queueIndex c p ≠ 0 → s.heldBytes + p.size < 2 ^ 32 ∧
        ∀ u ∈ (s.incident (s.devices idx).linkUp (.linkDown idx)).admission c idx (queueIndex c p)
          { p with flowId := d }, (u.devices idx).queue.accepts p = true))
  | .takeDown d => inferInstanceAs (Decidable (∀ q, q ≠ 0 → total (·.size) (s.waiting d q) = 0))
  | .transmitComplete _ | .deliver _ | .setRoutes _ => .isTrue trivial

theorem forwardTo_eq {stale : UInt32} {idx : Port} (hup : (s.devices d).linkUp = true)
    (hpfc : p.l3Prot ≠ 0xFE) (hout : s.getOutDev c { p with flowId := d } stale = some idx) :
    s.forwardTo c d p stale = some idx := by
  rw [forwardTo, if_neg (by simp [hup, hpfc]), hout]

theorem agree_receive {stale : UInt32} (h : Agree c none s)
    (hkeeps : KeepsBytes c s (.receive d p stale)) (hstep : s.receive c d p stale = some t) :
    Agree c none t := by
  rcases receive_cases hstep with rfl | ⟨-, -, rfl⟩ | ⟨-, hd⟩ | ⟨hup, hpfc, hsend⟩
  · exact h
  · exact h.of_same (same_setDevice rfl)
  · exact agree_dequeues hd ((h.of_same (same_incident _ _)).of_same
      (same_setDevice (by rw [incident_devices])))
  rcases sendToDev_cases hsend with ⟨-, rfl⟩ | ⟨idx, u, hout, hadmission, hd⟩
  · exact h
  have hclass : queueIndex c { p with flowId := d } = queueIndex c p := rfl
  rw [hclass] at hadmission hd
  have hsame : SameCharges s (s.incident (s.devices idx).linkUp (.linkDown idx)) :=
    same_incident _ _
  by_cases hne : queueIndex c p = 0
  · rw [hne] at hadmission hd
    obtain ⟨-, rfl⟩ : (0 : Class) = 0 ∧ u = _ := by
      rcases admit_cases hadmission with h | ⟨h, -⟩ | ⟨h, -⟩
      · exact h
      · exact absurd rfl h
      · exact absurd rfl h
    exact agree_dequeues hd ((h.of_same hsame).of_same same_enqueueZero)
  · obtain ⟨hfit, haccepts⟩ := hkeeps idx (forwardTo_eq hup hpfc hout) hne
    have hfit' :
        (s.incident (s.devices idx).linkUp (.linkDown idx)).heldBytes + p.size < 2 ^ 32 := by
      rw [heldBytes, hsame.queuedTo]
      exact hfit
    exact agree_dequeues hd
      (agree_enqueue (agree_admission (h.of_same hsame) hne hfit' hadmission) hne
        (haccepts u hadmission))

/-- The drain of a queue leaves a class without bytes as it is. -/
theorem drain_empty (fuel : Nat) (b : BEgressQueue) (h : total (·.size) (b.queues q) = 0) :
    total (·.size) ((drain fuel b).queues q) = 0 ∧
      (drain fuel b).bytesInQueue q = b.bytesInQueue q := by
  induction fuel generalizing b with
  | zero => exact ⟨h, rfl⟩
  | succ fuel ih =>
    unfold drain
    split
    · exact ⟨h, rfl⟩
    next p b' hdeq =>
    obtain ⟨r, rest, hr, rfl, -⟩ := BEgressQueue.dequeueRR_cases hdeq
    rcases eq_or_ne q r with rfl | hrq
    · rw [hr, total_cons] at h
      obtain ⟨htotal, hbytes⟩ := ih (b.pop q p rest) (by
        rw [BEgressQueue.pop_queues, Function.update_self]
        omega)
      refine ⟨htotal, hbytes.trans ?_⟩
      have hsize : p.size = 0 := by omega
      simp only [BEgressQueue.pop, Function.update_self, hsize]
      exact sub32_of_le (Nat.zero_le _)
    · obtain ⟨htotal, hbytes⟩ := ih (b.pop r p rest) (by
        rw [BEgressQueue.pop_queues, Function.update_of_ne hrq]
        exact h)
      exact ⟨htotal, hbytes.trans (Function.update_of_ne hrq _ _)⟩

theorem agree_takeDown (h : Agree c none s) (hempty : ∀ q, q ≠ 0 →
    total (·.size) (s.waiting d q) = 0) : Agree c none (s.takeDown d) := by
  have hself : ((s.takeDown d).devices d).queue =
      drain (queued (s.devices d).queue) (s.devices d).queue := by
    rw [takeDown, setDevice_self]
  have hother (e : Port) (he : e ≠ d) : ((s.takeDown d).devices e).queue = (s.devices e).queue := by
    rw [takeDown, setDevice_other _ _ he]
  have hdrain (q : Class) (hq : q ≠ 0) :=
    drain_empty (queued (s.devices d).queue) (s.devices d).queue (hempty q hq)
  -- the port had no data waiting, so that nothing of the loads is drained
  have hwaiting (e : Port) (q : Class) (hq : q ≠ 0) : (s.takeDown d).waiting e q = s.waiting e q ∨
      (total (·.size) ((s.takeDown d).waiting e q) = 0 ∧ total (·.size) (s.waiting e q) = 0) := by
    rcases eq_or_ne e d with rfl | he
    · refine .inr ⟨?_, hempty q hq⟩
      rw [waiting, hself]
      exact (hdrain q hq).1
    · exact .inl (by rw [waiting, hother e he, waiting])
  refine h.of_loads rfl (funext fun i => ?_) (funext fun i => ?_) fun e q hq => ?_
  · unfold queuedFrom
    by_cases hz : i.2 = 0
    · rw [if_pos hz, if_pos hz]
    · rw [if_neg hz, if_neg hz]
      refine Finset.sum_congr rfl fun e _ => ?_
      rcases hwaiting e i.2 hz with heq | ⟨hnew, hold⟩
      · rw [heq]
      · have := weightOf_le_total (·.size) (·.flowId) i.1 ((s.takeDown d).waiting e i.2)
        have := weightOf_le_total (·.size) (·.flowId) i.1 (s.waiting e i.2)
        omega
  · unfold queuedTo
    by_cases hz : i.2 = 0
    · rw [if_pos hz, if_pos hz]
    · rw [if_neg hz, if_neg hz]
      rcases hwaiting i.1 i.2 hz with heq | ⟨hnew, hold⟩
      · rw [heq]
      · rw [hnew, hold]
  · have hb := h.bytes e q hq
    rcases eq_or_ne e d with rfl | he
    · rw [waiting, hself, (hdrain q hq).2, (hdrain q hq).1, hb]
      exact hempty q hq
    · rw [waiting, hother e he, hb, waiting]

theorem agree_step (s : SwitchNode) (e : Event) (t : SwitchNode) (h : Agree c none s)
    (hkeeps : KeepsBytes c s e) (hstep : step c s e = some t) : Agree c none t := by
  cases e with
  | receive d p stale => exact agree_receive h hkeeps hstep
  | transmitComplete d =>
    obtain ⟨-, hd⟩ := transmitComplete_cases hstep
    exact agree_dequeues hd (((h.of_same (same_incident _ _)).of_same (same_incident _ _)).of_same
      (same_setDevice (by rw [incident_devices, incident_devices])))
  | deliver d =>
    obtain ⟨⟨p, u⟩, hdeliver, rfl⟩ := Option.map_eq_some_iff.mp hstep
    obtain ⟨rest, -, rfl⟩ := deliver_cases hdeliver
    exact h.of_same (same_setDevice rfl)
  | takeDown d =>
    cases hstep
    exact agree_takeDown h hkeeps
  | setRoutes rtTable =>
    cases hstep
    exact h.of_loads rfl rfl rfl h.bytes

theorem agree_create (c : SwitchConfig) (rtTable : UInt32 → List Port) :
    Agree c none (create rtTable) := by
  have hfrom : (create rtTable).queuedFrom = fun _ => 0 := by
    funext i
    simp [queuedFrom, create, waiting, QbbNetDevice.create, BEgressQueue.create]
  refine ⟨?_, fun i => ?_, fun d q _ => rfl, ?_⟩
  · rw [hfrom]
    exact charged_create _
  · simp [queuedTo, create, waiting, QbbNetDevice.create, BEgressQueue.create, SwitchMmu.create,
      handTo]
  · rw [← sum_queuedFrom, hfrom]
    simp [handSize]

/-! ## Main result -/

/-- The two levels agree: the egress counters with the queues of each port, and
the ingress counters with the packets that came in by each port, wherever they
wait. -/
structure Agrees (s : SwitchNode) : Prop where
  egress : ∀ p q, q ≠ 0 → s.mmu.egressBytes (p, q) = total (·.size) (s.waiting p q)
  queueBytes : ∀ p q, q ≠ 0 → s.mmu.egressBytes (p, q) = (s.devices p).queue.bytesInQueue q
  ingress : ∀ i q, q ≠ 0 → s.mmu.ingressBytes (i, q) + s.mmu.hdrmBytes (i, q) =
    ∑ d, weightOf (·.size) (·.flowId) i (s.waiting d q)

theorem Agree.agrees (h : Agree c none s) : Agrees s := by
  have hegress (p : Port) (q : Class) (hq : q ≠ 0) :
      s.mmu.egressBytes (p, q) = total (·.size) (s.waiting p q) := by
    simp only [h.egress, queuedTo, if_neg hq, handTo, Nat.add_zero]
  refine ⟨hegress, fun p q hq => ?_, fun i q hq => ?_⟩
  · rw [hegress p q hq, h.bytes p q hq]
  · simp only [h.charged.ingress, queuedFrom, if_neg hq, handFrom, Nat.add_zero]

/-- The MMU agrees with the device queues in every run that neither loses a
charged packet nor computes a sum beyond 32 bits. -/
theorem mmu_agrees (c : SwitchConfig) (rtTable : UInt32 → List Port) (es : List Event)
    (hkeeps : Guarded (step c) (KeepsBytes c) (create rtTable) es) :
    Always (step c) Agrees (create rtTable) es :=
  (always_of_guarded agree_step (agree_create c rtTable) hkeeps).mono fun _ h => h.agrees

/-! ## A link that is taken down -/

/-- Two ports of 100 Gbit/s and 1 us, and 16 MiB of buffer. -/
def twoPortConfig : SwitchConfig :=
  { mmu := configSwitch 100000000000 16 2 fun _ => { rate := 100000000000, delay := 1000 }
    ecmpSeed := 1, ackHighPrio := true, pausetime := fun _ => 5, qbbEnabled := fun _ => true }

def toPortTwo : UInt32 → List Port := fun _ => [2]

/-- A packet goes through the switch. -/
theorem mmu_agrees_through :
    Always (step twoPortConfig) Agrees (create toPortTwo)
      [.receive 1 { size := 1048, pg := 3 } 0, .transmitComplete 2, .takeDown 2] :=
  mmu_agrees twoPortConfig toPortTwo _ (by decide +kernel)

/-- One packet is being sent and one waits when the link goes down. -/
def takeDownRun : List Event :=
  [.receive 1 { size := 1048, pg := 3 } 0, .receive 1 { size := 1048, pg := 3 } 0, .takeDown 2]

/-- The queue is empty, and the packet is still charged to both its slots. -/
theorem takeDownRun_leaks :
    ∃ t, run (step twoPortConfig) (create toPortTwo) takeDownRun = some t ∧
      t.waiting 2 3 = [] ∧ t.mmu.egressBytes (2, 3) = 1048 ∧ t.mmu.ingressBytes (1, 3) = 1048 := by
  have hrun : (run (step twoPortConfig) (create toPortTwo) takeDownRun).map (fun t =>
      (t.waiting 2 3, t.mmu.egressBytes (2, 3), t.mmu.ingressBytes (1, 3))) =
        some ([], 1048, 1048) := by
    decide +kernel
  obtain ⟨t, ht, hvalues⟩ := Option.map_eq_some_iff.mp hrun
  simp only [Prod.mk.injEq] at hvalues
  exact ⟨t, ht, hvalues⟩

end Paraleon.Switch.SwitchNode
