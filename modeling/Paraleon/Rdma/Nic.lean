import Paraleon.Rdma.EgressQueue
import Paraleon.Switch.Transmitter

/-!
# The NICs of a host

`QbbNetDevice` on a host. What `RdmaHw` does to the queues of a NIC between two
calls of the device is left open: it may change them in any way, and call
`DequeueAndTransmit` at any time (`NewQp`, `ReassignedQp`, `TriggerTransmit`).
-/

namespace Paraleon.Rdma

open Switch

/-- A device of a host. `nextSend` is the time of the scheduled `m_nextSend`, if
it has not expired; the other fields are those of a switch's device. -/
structure Nic where
  linkUp : Bool
  txMachineState : TxMachineState
  currentPkt : Option Packet
  paused : Switch.Class → Bool
  rdmaEQ : RdmaEgressQueue
  nextSend : Option Nat
  completes : Nat
  wire : List Packet

def Nic.create : Nic :=
  { linkUp := true, txMachineState := .ready, currentPkt := none, paused := fun _ => false,
    rdmaEQ := .create, nextSend := none, completes := 0, wire := [] }

structure Host where
  nics : Port → Nic
  incidents : List Incident

namespace Host

def create : Host := { nics := fun _ => .create, incidents := [] }

def setNic (h : Host) (d : Port) (nic : Nic) : Host :=
  { h with nics := Function.update h.nics d nic }

def incident (h : Host) (holds : Bool) (i : Incident) : Host :=
  if holds then h else { h with incidents := h.incidents ++ [i] }

def transmitStart (h : Host) (d : Port) (p : Packet) : Host :=
  let nic := h.nics d
  (h.incident (nic.txMachineState = .ready) (.notReady d)).setNic d
    { nic with txMachineState := .busy, currentPkt := some p, completes := nic.completes + 1,
               wire := nic.wire ++ [p] }

/-- The branch for "no packet to send": `m_nextSend` is scheduled for the next
queue pair that may send. -/
def scheduleNextSend (h : Host) (now : Nat) (d : Port) : Host :=
  let nic := h.nics d
  let t := nic.rdmaEQ.nextAvail
  if nic.nextSend = none ∧ t < RdmaEgressQueue.maximumSimulationTime ∧ now < t then
    h.setNic d { nic with nextSend := some t }
  else h

/-- `DequeueAndTransmit` of a host. -/
def dequeueAndTransmit (c : NicConfig) (now : Nat) (d : Port) (h : Host) : Host :=
  let nic := h.nics d
  if nic.linkUp = false then h
  else if nic.txMachineState = .busy then h
  else
    let (qIndex, rdmaEQ) := nic.rdmaEQ.getNextQindex c now nic.paused
    match rdmaEQ.dequeueQindex c qIndex with
    | none => (h.setNic d { nic with rdmaEQ }).scheduleNextSend now d
    | some (p, rdmaEQ) =>
      -- `PktSent` comes after `TransmitStart`, which does not read what it changes
      (h.setNic d { nic with rdmaEQ := rdmaEQ.pktSent c now p.size qIndex }).transmitStart d p

def resume (c : NicConfig) (h : Host) (now : Nat) (d : Port) (qIndex : Switch.Class) : Host :=
  let nic := h.nics d
  dequeueAndTransmit c now d ((h.incident (nic.paused qIndex) (.notPaused d qIndex)).setNic d
    { nic with paused := Function.update nic.paused qIndex false })

/-- `Receive` of a packet that is not corrupt. Other packets go to `RdmaHw`. -/
def receive (c : NicConfig) (h : Host) (now : Nat) (d : Port) (p : Packet) : Host :=
  let nic := h.nics d
  if nic.linkUp = false then h
  else if p.l3Prot = 0xFE then
    if c.qbbEnabled = false then h
    else if 0 < p.pfcTime then
      h.setNic d { nic with paused := Function.update nic.paused p.pfcQIndex true }
    else h.resume c now d p.pfcQIndex
  else h

def transmitComplete (c : NicConfig) (h : Host) (now : Nat) (d : Port) : Option Host :=
  let nic := h.nics d
  if nic.completes = 0 then none
  else
    some (dequeueAndTransmit c now d
      (((h.incident (nic.txMachineState = .busy) (.notBusy d)).incident nic.currentPkt.isSome
        (.noPacket d)).setNic d
          { nic with
            txMachineState := .ready, currentPkt := none, completes := nic.completes - 1 }))

/-- `TakeDown` of a host's device. -/
def takeDown (h : Host) (d : Port) : Host :=
  let nic := h.nics d
  h.setNic d { nic with linkUp := false, rdmaEQ := { nic.rdmaEQ with ackQ := [] } }

/-- The oldest packet on its way from NIC `d` reaches the other end. -/
def deliver (h : Host) (d : Port) : Option (Packet × Host) :=
  match (h.nics d).wire with
  | [] => none
  | p :: rest => some (p, h.setNic d { h.nics d with wire := rest })

inductive Event where
  | receive (now : Nat) (d : Port) (p : Packet)
  | transmitComplete (now : Nat) (d : Port)
  | deliver (d : Port)
  | takeDown (d : Port)
  /-- `RdmaHw` changes the queues of a NIC. -/
  | setQueues (d : Port) (ackQ : List Packet) (qpGrp : List NicQueuePair)
  /-- `RdmaHw` calls `DequeueAndTransmit`. -/
  | trigger (now : Nat) (d : Port)
  /-- `m_nextSend` is due. -/
  | nextSend (d : Port)
  | updateNextAvail (now : Nat) (d : Port) (t : Nat)

def step (c : NicConfig) (h : Host) : Event → Option Host
  | .receive now d p => some (h.receive c now d p)
  | .transmitComplete now d => h.transmitComplete c now d
  | .deliver d => (h.deliver d).map (·.2)
  | .takeDown d => some (h.takeDown d)
  | .setQueues d ackQ qpGrp =>
    some (h.setNic d { h.nics d with rdmaEQ := { (h.nics d).rdmaEQ with ackQ, qpGrp } })
  | .trigger now d => some (dequeueAndTransmit c now d h)
  | .nextSend d => do
    let t ← (h.nics d).nextSend
    some (dequeueAndTransmit c t d (h.setNic d { h.nics d with nextSend := none }))
  | .updateNextAvail now d t => do
    let ts ← (h.nics d).nextSend
    if t < ts then some (h.setNic d { h.nics d with nextSend := some (max t now) }) else some h

/-! ## The transmitters of a host -/

section Transmitters

variable {c : NicConfig} {h h' : Host} {d : Port} {nic : Nic} {now : Nat}

/-- Every NIC is settled, and no assertion about one has failed. -/
structure TransmittersOk (h : Host) : Prop where
  settled : ∀ d, Settled (h.nics d).txMachineState (h.nics d).currentPkt (h.nics d).completes
  asserted : h.incidents.filter Incident.ofTransmitter = []

/-- A NIC may change in any way that leaves it settled. -/
theorem ok_setNic (hok : TransmittersOk h)
    (hnic : Settled nic.txMachineState nic.currentPkt nic.completes) :
    TransmittersOk (h.setNic d nic) := by
  refine ⟨fun e => ?_, hok.asserted⟩
  rcases eq_or_ne e d with rfl | he
  · simpa [setNic] using hnic
  · simpa [setNic, he] using hok.settled e

theorem ok_incident {ok : Bool} {i : Incident} (hok : TransmittersOk h)
    (hi : ok = true ∨ i.ofTransmitter = false) : TransmittersOk (h.incident ok i) := by
  unfold incident
  split
  · exact hok
  · next hfail =>
    refine ⟨hok.settled, ?_⟩
    simp [hok.asserted, hi.resolve_left hfail]

theorem ok_transmitStart {p : Packet} (hok : TransmittersOk h)
    (hready : (h.nics d).txMachineState = .ready) : TransmittersOk (h.transmitStart d p) := by
  obtain ⟨-, -, hzero⟩ | ⟨hbusy, -, -⟩ := hok.settled d
  · exact ok_setNic (ok_incident hok (.inl (by simp [hready]))) (.inr ⟨rfl, rfl, by rw [hzero]⟩)
  · simp [hready] at hbusy

theorem ok_scheduleNextSend (hok : TransmittersOk h) :
    TransmittersOk (h.scheduleNextSend now d) := by
  simp only [scheduleNextSend]
  split
  · exact ok_setNic hok (hok.settled d)
  · exact hok

/-- On a host nothing comes between the test for READY and `TransmitStart`. -/
theorem ok_dequeueAndTransmit (hok : TransmittersOk h) :
    TransmittersOk (dequeueAndTransmit c now d h) := by
  simp only [dequeueAndTransmit]
  split
  · exact hok
  split
  · exact hok
  next hbusy =>
  have hready : (h.nics d).txMachineState = .ready := by
    cases hs : (h.nics d).txMachineState with
    | ready => rfl
    | busy => exact absurd hs hbusy
  split
  · exact ok_scheduleNextSend (ok_setNic hok (hok.settled d))
  · exact ok_transmitStart (ok_setNic hok (hok.settled d)) (by simpa [setNic] using hready)

theorem ok_receive {p : Packet} (hok : TransmittersOk h) :
    TransmittersOk (h.receive c now d p) := by
  simp only [receive]
  split_ifs
  · exact hok
  · exact hok
  · exact ok_setNic hok (hok.settled d)
  · exact ok_dequeueAndTransmit (ok_setNic (ok_incident hok (.inr rfl)) (hok.settled d))
  · exact hok

theorem ok_transmitComplete (hok : TransmittersOk h)
    (hstep : h.transmitComplete c now d = some h') : TransmittersOk h' := by
  simp only [transmitComplete] at hstep
  split at hstep
  · cases hstep
  next hscheduled =>
  obtain ⟨hbusy, hpacket, hone⟩ : (h.nics d).txMachineState = .busy ∧
      (h.nics d).currentPkt.isSome = true ∧ (h.nics d).completes = 1 :=
    (hok.settled d).resolve_left fun hx => hscheduled hx.2.2
  cases hstep
  refine ok_dequeueAndTransmit (ok_setNic (ok_incident (ok_incident hok ?_) ?_) ?_)
  · exact .inl (by simp [hbusy])
  · exact .inl hpacket
  · exact .inl ⟨rfl, rfl, by rw [hone]⟩

theorem ok_step {e : Event} (hok : TransmittersOk h) (hstep : step c h e = some h') :
    TransmittersOk h' := by
  cases e with
  | receive now d p =>
    cases hstep
    exact ok_receive hok
  | transmitComplete now d => exact ok_transmitComplete hok hstep
  | deliver d =>
    simp only [step, deliver] at hstep
    split at hstep
    · cases hstep
    · cases hstep
      exact ok_setNic hok (hok.settled d)
  | takeDown d =>
    cases hstep
    exact ok_setNic hok (hok.settled d)
  | setQueues d ackQ qpGrp =>
    cases hstep
    exact ok_setNic hok (hok.settled d)
  | trigger now d =>
    cases hstep
    exact ok_dequeueAndTransmit hok
  | nextSend d =>
    obtain ⟨t, -, hstep⟩ := Option.bind_eq_some_iff.mp hstep
    cases hstep
    exact ok_dequeueAndTransmit (ok_setNic hok (hok.settled d))
  | updateNextAvail now d t =>
    obtain ⟨ts, -, hstep⟩ := Option.bind_eq_some_iff.mp hstep
    split at hstep
    · cases hstep
      exact ok_setNic hok (hok.settled d)
    · cases hstep
      exact hok

theorem transmittersOk_create : TransmittersOk create := ⟨fun _ => .inl ⟨rfl, rfl, rfl⟩, rfl⟩

end Transmitters

end Host

end Paraleon.Rdma
