import Paraleon.Library.Runs
import Paraleon.Rdma.Nic

/-!
# The wake-up of a host NIC

A NIC that has nothing to send sleeps until `m_nextSend`. The wake-up should be
no later than the moment at which some queue pair may send again, but

* a wake-up that is pending is not moved forward when a queue pair becomes due
  earlier than it, and
* the time is the least `m_nextAvail` over all queue pairs with bytes left, also
  those that are paused or window-bound: when one of these is already due,
  nothing is scheduled.

`wakeUps_covered` says that these are the only ways to lose a wake-up.
-/

namespace Paraleon.Rdma.Host

open Runs RdmaEgressQueue
open Switch (Port)

/-! ## Calls of `DequeueAndTransmit` -/

/-- The call of `DequeueAndTransmit` that an event makes: its time, the device,
and the host in front of the call. -/
def call (c : NicConfig) (h : Host) : Event → Option (Nat × Port × Host)
  | .receive now d p =>
    let nic := h.nics d
    if nic.linkUp = true ∧ p.l3Prot = 0xFE ∧ c.qbbEnabled = true ∧ p.pfcTime = 0 then
      some (now, d, (h.incident (nic.paused p.pfcQIndex) (.notPaused d p.pfcQIndex)).setNic d
        { nic with paused := Function.update nic.paused p.pfcQIndex false })
    else none
  | .transmitComplete now d =>
    let nic := h.nics d
    if nic.completes = 0 then none
    else
      some (now, d,
        ((h.incident (nic.txMachineState = .busy) (.notBusy d)).incident nic.currentPkt.isSome
          (.noPacket d)).setNic d
            { nic with
              txMachineState := .ready, currentPkt := none, completes := nic.completes - 1 })
  | .trigger now d => some (now, d, h)
  | .nextSend d =>
    (h.nics d).nextSend.map fun t => (t, d, h.setNic d { h.nics d with nextSend := none })
  | .deliver _ | .takeDown _ | .setQueues .. | .updateNextAvail .. => none

variable {c : NicConfig} {h h' g : Host} {e : Event} {now : Nat} {d : Port} {nic : Nic}

theorem step_of_call (hcall : call c h e = some (now, d, g)) :
    step c h e = some (dequeueAndTransmit c now d g) := by
  cases e with
  | receive now' d' p =>
    simp only [call] at hcall
    split at hcall
    · next hresume =>
      obtain ⟨hup, hpfc, hqbb, hzero⟩ := hresume
      obtain ⟨rfl, rfl, rfl⟩ := by simpa using hcall
      simp [step, receive, resume, hup, hpfc, hqbb, hzero]
    · cases hcall
  | transmitComplete now' d' =>
    simp only [call] at hcall
    split at hcall
    · cases hcall
    · next hscheduled =>
      obtain ⟨rfl, rfl, rfl⟩ := by simpa using hcall
      simp [step, transmitComplete, hscheduled]
  | trigger now' d' =>
    obtain ⟨rfl, rfl, rfl⟩ := by simpa [call] using hcall
    rfl
  | nextSend d' =>
    obtain ⟨t, ht, heq⟩ := Option.map_eq_some_iff.mp hcall
    obtain ⟨rfl, rfl, rfl⟩ := by simpa using heq
    simp [step, ht]
  | deliver d' => cases hcall
  | takeDown d' => cases hcall
  | setQueues d' ackQ qpGrp => cases hcall
  | updateNextAvail now' d' t => cases hcall

/-- `GetNextQindex` returns an index inside the group that it leaves. Outside it
the call reads beyond the end of the vector, and returns nothing defined. -/
def InRange (c : NicConfig) (now : Nat) (nic : Nic) : Prop :=
  match nic.rdmaEQ.getNextQindex c now nic.paused with
  | (.qp i, b) => i < b.qpGrp.length
  | (.none, _) | (.highPrio, _) => True

instance : Decidable (InRange c now nic) := by
  unfold InRange
  split <;> infer_instance

/-- Every queue pair that could send, but for the time, has a wake-up. -/
def Covered (now : Nat) (nic : Nic) : Prop :=
  nic.linkUp = true → nic.txMachineState = .ready →
    ∀ q ∈ nic.rdmaEQ.qpGrp, q.canSend nic.paused = true →
      ∃ ts ∈ nic.nextSend, ts ≤ max now q.nextAvail

instance : Decidable (Covered now nic) :=
  inferInstanceAs (Decidable (_ → _ → ∀ q ∈ nic.rdmaEQ.qpGrp, q.canSend nic.paused = true →
    ∃ ts ∈ nic.nextSend, ts ≤ max now q.nextAvail))

/-- The device may go to sleep: when the call finds it awake with nothing to send,
a wake-up that is pending is not too late for any queue pair that can send, and if
none is pending then no queue pair with bytes left is overdue, as those that are
paused or window-bound may be. -/
def MayWait (c : NicConfig) (now : Nat) (nic : Nic) : Prop :=
  nic.linkUp = true → nic.txMachineState = .ready → NothingDue c now nic.paused nic.rdmaEQ →
    ∀ q ∈ survivors nic.paused nic.rdmaEQ.qpGrp, q.canSend nic.paused = true →
      match nic.nextSend with
      | some ts => ts ≤ q.nextAvail
      | none =>
        (∀ q' ∈ survivors nic.paused nic.rdmaEQ.qpGrp, 0 < q'.transport.getBytesLeft →
          now < q'.nextAvail) ∧
        ∃ q' ∈ survivors nic.paused nic.rdmaEQ.qpGrp, 0 < q'.transport.getBytesLeft ∧
          q'.nextAvail < maximumSimulationTime

theorem bytesLeft_of_canSend {q : NicQueuePair} {paused : Switch.Class → Bool}
    (h : q.canSend paused = true) : 0 < q.transport.getBytesLeft := by
  simp only [NicQueuePair.canSend, Bool.and_eq_true, decide_eq_true_eq] at h
  exact h.1.2

/-! ## What one call does -/

/-- A call that has something to send leaves the transmitter BUSY. -/
theorem busy_of_due (hrange : InRange c now (h.nics d)) (hup : (h.nics d).linkUp = true)
    (hdue : ¬NothingDue c now (h.nics d).paused (h.nics d).rdmaEQ) :
    ((dequeueAndTransmit c now d h).nics d).txMachineState = .busy := by
  cases hstate : (h.nics d).txMachineState with
  | busy => simp [dequeueAndTransmit, hup, hstate]
  | ready =>
    have hsome : ∃ x, ((h.nics d).rdmaEQ.getNextQindex c now (h.nics d).paused).2.dequeueQindex c
        ((h.nics d).rdmaEQ.getNextQindex c now (h.nics d).paused).1 = some x := by
      rcases Classical.em ((h.nics d).paused c.ackQIdx = false ∧ (h.nics d).rdmaEQ.ackQ ≠ [])
        with hack | hack
      · obtain ⟨p, ackQ, hcons⟩ := List.exists_cons_of_ne_nil hack.2
        simp [getNextQindex_of_ack hack, dequeueQindex, hcons]
      · have hne := getNextQindex_ne_highPrio now hack
        rw [← getNextQindex_eq_none_iff] at hdue
        unfold InRange at hrange
        split at hrange
        · next i b hq => simp [hq, dequeueQindex, List.getElem?_eq_getElem hrange]
        · next b hq => exact absurd (congrArg Prod.fst hq) hdue
        · next b hq => exact absurd (congrArg Prod.fst hq) hne
    obtain ⟨x, hx⟩ := hsome
    simp [dequeueAndTransmit, hup, hstate, hx, transmitStart, setNic]

/-- A call with nothing to send clears the group and schedules the wake-up. -/
theorem dequeueAndTransmit_of_nothingDue (hup : (h.nics d).linkUp = true)
    (hready : (h.nics d).txMachineState = .ready)
    (hnothing : NothingDue c now (h.nics d).paused (h.nics d).rdmaEQ) :
    dequeueAndTransmit c now d h = (h.setNic d { h.nics d with
      rdmaEQ := { (h.nics d).rdmaEQ with
        qpGrp := survivors (h.nics d).paused (h.nics d).rdmaEQ.qpGrp } }).scheduleNextSend
          now d := by
  have hfst := getNextQindex_eq_none_iff.mpr hnothing
  have hsnd := getNextQindex_of_nothingDue hnothing
  simp [dequeueAndTransmit, hup, hready, hfst, hsnd, dequeueQindex]

/-- The wake-up that a call with nothing to send leaves pending. -/
theorem scheduleNextSend_nextSend :
    ((h.scheduleNextSend now d).nics d).nextSend =
      match (h.nics d).nextSend with
      | some ts => some ts
      | none =>
        if (h.nics d).rdmaEQ.nextAvail < maximumSimulationTime ∧
          now < (h.nics d).rdmaEQ.nextAvail then some (h.nics d).rdmaEQ.nextAvail
        else none := by
  simp only [scheduleNextSend]
  cases hsend : (h.nics d).nextSend with
  | some ts => simp [hsend]
  | none =>
    simp only [true_and]
    split
    · simp [setNic]
    · exact hsend

variable (now h d) in
theorem scheduleNextSend_frame :
    ((h.scheduleNextSend now d).nics d).linkUp = (h.nics d).linkUp ∧
    ((h.scheduleNextSend now d).nics d).txMachineState = (h.nics d).txMachineState ∧
    ((h.scheduleNextSend now d).nics d).paused = (h.nics d).paused ∧
    ((h.scheduleNextSend now d).nics d).rdmaEQ = (h.nics d).rdmaEQ := by
  simp only [scheduleNextSend]
  split
  · simp [setNic]
  · exact ⟨rfl, rfl, rfl, rfl⟩

/-- The wake-up scheduled for a group reaches a queue pair with bytes left in time,
unless some queue pair with bytes left is already due. -/
theorem scheduled_iff {b : RdmaEgressQueue} {q : NicQueuePair} (hq : q ∈ b.qpGrp)
    (hleft : 0 < q.transport.getBytesLeft) :
    (∃ ts ∈ (if b.nextAvail < maximumSimulationTime ∧ now < b.nextAvail then some b.nextAvail
        else none), ts ≤ q.nextAvail) ↔
      (∀ q' ∈ b.qpGrp, 0 < q'.transport.getBytesLeft → now < q'.nextAvail) ∧
        ∃ q' ∈ b.qpGrp, 0 < q'.transport.getBytesLeft ∧ q'.nextAvail < maximumSimulationTime := by
  constructor
  · rintro ⟨ts, hts, -⟩
    split at hts
    · next hsched =>
      exact ⟨(le_nextAvail_iff.mp (Nat.succ_le_of_lt hsched.2)).2,
        nextAvail_lt_maximum_iff.mp hsched.1⟩
    · cases hts
  · rintro ⟨hdue, hmax⟩
    have hlt := nextAvail_lt_maximum_iff.mpr hmax
    have hnow : now < b.nextAvail := by
      obtain ⟨q', hq', hleft', hmax'⟩ := hmax
      exact Nat.lt_of_succ_le (le_nextAvail_iff.mpr
        ⟨Nat.le_trans (hdue q' hq' hleft') (Nat.le_of_lt hmax'), hdue⟩)
    rw [if_pos ⟨hlt, hnow⟩]
    exact ⟨_, rfl, nextAvail_le hq hleft⟩

/-- A call covers every queue pair exactly when the device may go to sleep in it. -/
theorem covered_iff (hrange : InRange c now (h.nics d)) :
    Covered now ((dequeueAndTransmit c now d h).nics d) ↔ MayWait c now (h.nics d) := by
  cases hup : (h.nics d).linkUp with
  | false => simp [Covered, MayWait, dequeueAndTransmit, hup]
  | true =>
  cases hstate : (h.nics d).txMachineState with
  | busy => simp [Covered, MayWait, dequeueAndTransmit, hup, hstate]
  | ready =>
  rcases Classical.em (NothingDue c now (h.nics d).paused (h.nics d).rdmaEQ) with hnothing | hdue
  · obtain ⟨hup', hstate', hpaused', heq'⟩ := scheduleNextSend_frame
      (h.setNic d { h.nics d with rdmaEQ := { (h.nics d).rdmaEQ with
        qpGrp := survivors (h.nics d).paused (h.nics d).rdmaEQ.qpGrp } }) now d
    rw [dequeueAndTransmit_of_nothingDue hup hstate hnothing]
    unfold Covered MayWait
    rw [hup', hstate', hpaused', heq', scheduleNextSend_nextSend]
    simp only [setNic, Function.update_self, hup, hstate, hnothing, true_implies]
    refine forall_congr' fun q => forall_congr' fun hq => forall_congr' fun hsend => ?_
    have hlater : now < q.nextAvail := hnothing.2 q (mem_of_mem_survivors hq) hsend
    have hleft := bytesLeft_of_canSend hsend
    rw [Nat.max_eq_right (Nat.le_of_lt hlater)]
    cases (h.nics d).nextSend with
    | some ts => simp
    | none => exact scheduled_iff hq hleft
  · have hbusy := busy_of_due hrange hup hdue
    simp [Covered, MayWait, hbusy, hdue]

/-! ## Runs -/

/-- Every call the event makes leaves all queue pairs covered. -/
def CallsCovered (c : NicConfig) (h : Host) (e : Event) : Prop :=
  ∀ x ∈ call c h e, InRange c x.1 (x.2.2.nics x.2.1) →
    ∀ h' ∈ step c h e, Covered x.1 (h'.nics x.2.1)

instance : Decidable (CallsCovered c h e) :=
  inferInstanceAs (Decidable (∀ x ∈ call c h e, InRange c x.1 (x.2.2.nics x.2.1) →
    ∀ h' ∈ step c h e, Covered x.1 (h'.nics x.2.1)))

/-- In every call the event makes the device may go to sleep. -/
def CallsMayWait (c : NicConfig) (h : Host) (e : Event) : Prop :=
  ∀ x ∈ call c h e, InRange c x.1 (x.2.2.nics x.2.1) → MayWait c x.1 (x.2.2.nics x.2.1)

theorem callsCovered_iff : CallsCovered c h e ↔ CallsMayWait c h e := by
  refine forall_congr' fun ⟨now, d, g⟩ => forall_congr' fun hcall => forall_congr' fun hrange => ?_
  rw [step_of_call hcall]
  simp only [Option.mem_some_iff, forall_eq']
  exact covered_iff hrange

/-- No queue pair of a host loses its wake-up in a run if and only if, at every
call, the device may go to sleep. -/
theorem wakeUps_covered (c : NicConfig) (es : List Event) :
    Guarded (step c) (CallsCovered c) create es ↔ Guarded (step c) (CallsMayWait c) create es :=
  ⟨Guarded.mono fun _ _ => callsCovered_iff.mp, Guarded.mono fun _ _ => callsCovered_iff.mpr⟩

/-! ## A window-bound queue pair holds back another -/

/-- A NIC of 8 Gb/s, with the time stamps of DCQCN in its packets. -/
def plainConfig : NicConfig where
  hw := .shipped
  intSize := 8
  rateBound := true
  tInterframeGap := 0
  ackQIdx := 3
  qbbEnabled := true
  calculateTxTime rate bytes := bytes * 8 * 10 ^ 9 / rate

/-- A queue pair of 5000 bytes that has sent `sndNxt` of them. -/
def plainQueuePair (sport : UInt16) (win rate sndNxt nextAvail : Nat) : NicQueuePair where
  transport :=
    { size := 5000, sndNxt, sndUna := 0, win, varWin := false, rate, maxRate := 8 * 10 ^ 9 }
  pg := 3
  sip := 0x0b000001
  dip := 0x0b000101
  sport := sport
  dport := 100
  nextAvail := nextAvail

/-- The first queue pair has a window of one packet, which it sends. The second one
is added, sends a packet, is slowed down to 4 Gb/s, and sends another one. When that
packet is out, the second queue pair has to wait for another 1056 ns, while the
`m_nextAvail` of the first one is long past. -/
def heldBackRun : List Event :=
  [.setQueues 0 [] [plainQueuePair 10000 1000 (8 * 10 ^ 9) 0 0],
   .trigger 0 0,
   .transmitComplete 1056 0,
   .setQueues 0 [] [plainQueuePair 10000 1000 (8 * 10 ^ 9) 1000 1056,
     plainQueuePair 10001 0 (8 * 10 ^ 9) 0 0],
   .trigger 2000 0,
   .setQueues 0 [] [plainQueuePair 10000 1000 (8 * 10 ^ 9) 1000 1056,
     plainQueuePair 10001 0 (4 * 10 ^ 9) 1000 3056],
   .transmitComplete 3056 0,
   .transmitComplete 4112 0]

/-- Nothing wakes the second queue pair up. -/
theorem heldBackRun_misses :
    ¬Guarded (step plainConfig) (CallsCovered plainConfig) create heldBackRun := by
  decide +kernel

end Paraleon.Rdma.Host
