import Mathlib.Algebra.BigOperators.Group.Finset.Basic
import Paraleon.Switch.EgressQueue

/-!
# A switch: `SwitchNode` and its `QbbNetDevice`s

The functions of the switch that move packets, as the events of the simulator
call them. `DequeueAndTransmit` pops a packet, calls `SwitchNotifyDequeue`, and
then starts the transmission; the callback may send a resume frame, and so call
`DequeueAndTransmit` again before the transmission has started. Every such nested
call has one packet less to pop, so the depth is bounded by `backlog`.

A failed `NS_ASSERT` is written down in `incidents`, and the run goes on, as it
does in a build without assertions; so is a packet that a queue refuses. An
`exit(-1)` is the end of the run, `none`.
The counters that nothing modelled here reads (`m_bytes`, `m_txBytes`, the ECN
marks and the INT fields) are left out.
-/

namespace Paraleon.Switch

open Words

inductive TxMachineState where
  | ready
  | busy
deriving DecidableEq, Repr

/-- A device of a switch. `completes` counts the `TransmitComplete` events that
are scheduled, and `wire` holds what was handed to the channel and has not
arrived at the other end, oldest first. -/
structure QbbNetDevice where
  linkUp : Bool
  txMachineState : TxMachineState
  currentPkt : Option Packet
  paused : Class → Bool
  queue : BEgressQueue
  completes : Nat
  wire : List Packet

def QbbNetDevice.create : QbbNetDevice :=
  { linkUp := true, txMachineState := .ready, currentPkt := none, paused := fun _ => false,
    queue := .create, completes := 0, wire := [] }

/-- What can go wrong without being reported: an assertion that fails, and an
`Enqueue` whose `false` is ignored. -/
inductive Incident where
  /-- "The routing table look up should return link that is up" -/
  | linkDown (port : Port)
  /-- "Must be READY to transmit" -/
  | notReady (port : Port)
  /-- "Must be BUSY if transmitting" -/
  | notBusy (port : Port)
  /-- "QbbNetDevice::TransmitComplete(): m_currentPkt zero" -/
  | noPacket (port : Port)
  /-- "Must be PAUSEd" -/
  | notPaused (port : Port) (qIndex : Class)
  | refused (port : Port) (qIndex : Class)
deriving DecidableEq, Repr

/-- What does not change in a run: the MMU's configuration and the attributes of
the switch and its devices. -/
structure SwitchConfig where
  mmu : MmuConfig
  ecmpSeed : UInt32
  ackHighPrio : Bool
  pausetime : Port → UInt32
  qbbEnabled : Port → Bool

/-- `SwitchNode`. An address without next hops has no entry in `m_rtTable`. -/
structure SwitchNode where
  mmu : SwitchMmu
  rtTable : UInt32 → List Port
  devices : Port → QbbNetDevice
  incidents : List Incident

namespace SwitchNode

def create (rtTable : UInt32 → List Port) : SwitchNode :=
  { mmu := .create, rtTable, devices := fun _ => .create, incidents := [] }

/-! ## Routing -/

def ecmpMix (h k : UInt32) : UInt32 :=
  let k := k * 0xcc9e2d51
  let k := (k <<< 15) ||| (k >>> 17)
  let k := k * 0x1b873593
  let h := h ^^^ k
  let h := (h <<< 13) ||| (h >>> 19)
  h + ((h <<< 2) + 0xe6546b64)

/-- `EcmpHash` of a key of whole words. -/
def ecmpHash (key : List UInt32) (seed : UInt32) : UInt32 :=
  let h := key.foldl ecmpMix seed
  let h := h ^^^ UInt32.ofNat (4 * key.length)
  let h := h ^^^ (h >>> 16)
  let h := h * 0x85ebca6b
  let h := h ^^^ (h >>> 13)
  let h := h * 0xc2b2ae35
  h ^^^ (h >>> 16)

/-- `GetOutDev`. For protocols without ports the third word of the key is never
written: `stale` is what the stack holds there. -/
def getOutDev (c : SwitchConfig) (s : SwitchNode) (p : Packet) (stale : UInt32) : Option Port :=
  let nexthops := s.rtTable p.dip
  let ports :=
    if p.l3Prot = 0x6 ∨ p.l3Prot = 0x11 ∨ p.l3Prot = 0xFC ∨ p.l3Prot = 0xFD then
      p.sport.toUInt32 ||| (p.dport.toUInt32 <<< 16)
    else stale
  nexthops[(ecmpHash [p.sip, p.dip, ports] c.ecmpSeed).toNat % nexthops.length]?

/-- The queue index `SendToDev` determines. -/
def queueIndex (c : SwitchConfig) (p : Packet) : Class :=
  if p.l3Prot = 0xFF ∨ p.l3Prot = 0xFE ∨
      (c.ackHighPrio ∧ (p.l3Prot = 0xFD ∨ p.l3Prot = 0xFC)) then 0
  else if p.l3Prot = 0x06 then 1
  else p.pg

/-! ## Transmission -/

def setDevice (s : SwitchNode) (d : Port) (dev : QbbNetDevice) : SwitchNode :=
  { s with devices := Function.update s.devices d dev }

def setQueue (s : SwitchNode) (d : Port) (queue : BEgressQueue) : SwitchNode :=
  s.setDevice d { s.devices d with queue }

def incident (s : SwitchNode) (holds : Bool) (i : Incident) : SwitchNode :=
  if holds then s else { s with incidents := s.incidents ++ [i] }

/-- The `Enqueue` of `SwitchSend`, which does not look at the result. -/
def enqueue (s : SwitchNode) (d : Port) (qIndex : Class) (p : Packet) : SwitchNode :=
  match (s.devices d).queue.enqueue p qIndex with
  | some queue => s.setQueue d queue
  | none => s.incident false (.refused d qIndex)

/-- `TransmitStart`: the packet goes to the channel, and `TransmitComplete` is
scheduled. -/
def transmitStart (s : SwitchNode) (d : Port) (p : Packet) : SwitchNode :=
  let dev := s.devices d
  (s.incident (dev.txMachineState = .ready) (.notReady d)).setDevice d
    { dev with txMachineState := .busy, currentPkt := some p, completes := dev.completes + 1,
               wire := dev.wire ++ [p] }

inductive PfcType where
  | pause
  | resume
deriving DecidableEq, Repr

/-- The frame `SendPfc` builds: 9 bytes of `PauseHeader`, 20 of IP, 14 of PPP. -/
def pfcFrame (c : SwitchConfig) (d : Port) (qIndex : Class) (type : PfcType) : Packet :=
  { size := 43, l3Prot := 0xFE, pfcQIndex := qIndex
    pfcTime := if type = .pause then c.pausetime d else 0 }

section Nested

-- `deq` is the call of `DequeueAndTransmit` from inside these functions.
variable (deq : Port → SwitchNode → Option SwitchNode) (c : SwitchConfig)

def switchSend (s : SwitchNode) (d : Port) (qIndex : Class) (p : Packet) : Option SwitchNode :=
  deq d (s.enqueue d qIndex p)

def sendPfc (s : SwitchNode) (d : Port) (qIndex : Class) (type : PfcType) : Option SwitchNode :=
  switchSend deq s d 0 (pfcFrame c d qIndex type)

def checkAndSendPfc (s : SwitchNode) (inDev : Port) (qIndex : Class) : Option SwitchNode :=
  if s.mmu.checkShouldPause c.mmu (inDev, qIndex) then do
    let s ← sendPfc deq c s inDev qIndex .pause
    some { s with mmu := s.mmu.setPause (inDev, qIndex) }
  else some s

def checkAndSendResume (s : SwitchNode) (inDev : Port) (qIndex : Class) : Option SwitchNode :=
  if s.mmu.checkShouldResume c.mmu (inDev, qIndex) then do
    let s ← sendPfc deq c s inDev qIndex .resume
    some { s with mmu := s.mmu.setResume (inDev, qIndex) }
  else some s

/-- The removals of `SwitchNotifyDequeue`. -/
def removeFromMmu (s : SwitchNode) (ifIndex : Port) (qIndex : Class) (p : Packet) : SwitchNode :=
  { s with mmu := (s.mmu.removeFromIngressAdmission c.mmu (p.flowId, qIndex)
      p.size).removeFromEgressAdmission (ifIndex, qIndex) p.size }

def switchNotifyDequeue (s : SwitchNode) (ifIndex : Port) (qIndex : Class) (p : Packet) :
    Option SwitchNode :=
  if qIndex ≠ 0 then checkAndSendResume deq c (s.removeFromMmu c ifIndex qIndex p) p.flowId qIndex
  else some s

end Nested

/-- `DequeueAndTransmit` of a switch, with at most `fuel` calls nested in one
another. -/
def dequeueAndTransmit (c : SwitchConfig) : Nat → Port → SwitchNode → Option SwitchNode
  | 0, _, _ => none
  | fuel + 1, d, s =>
    let dev := s.devices d
    if dev.linkUp = false then some s
    else if dev.txMachineState = .busy then some s
    else
      match dev.queue.dequeueRR dev.paused with
      | none => some s
      | some (p, queue) => do
        let s ← switchNotifyDequeue (dequeueAndTransmit c fuel) c (s.setQueue d queue) d
          queue.qlast p
        some (s.transmitStart d p)

/-- The packets that wait in one queue of a class from 1 on. -/
def backlogOf (s : SwitchNode) (i : Slot) : Nat :=
  if i.2 = 0 then 0 else ((s.devices i.1).queue.queues i.2).length

/-- The packets that wait in all of them. -/
def backlog (s : SwitchNode) : Nat := ∑ i, s.backlogOf i

/-- `DequeueAndTransmit`, with room for every nested call. -/
def dequeue (c : SwitchConfig) (d : Port) (s : SwitchNode) : Option SwitchNode :=
  dequeueAndTransmit c (s.backlog + 1) d s

/-! ## The events -/

/-- The updates of `SendToDev`. -/
def updateMmu (c : SwitchConfig) (s : SwitchNode) (idx : Port) (qIndex : Class) (p : Packet) :
    SwitchNode :=
  { s with mmu := (s.mmu.updateIngressAdmission c.mmu (p.flowId, qIndex)
      p.size).updateEgressAdmission (idx, qIndex) p.size }

/-- The admission part of `SendToDev`; a packet that is refused ends the
program. -/
def admission (c : SwitchConfig) (s : SwitchNode) (idx : Port) (qIndex : Class) (p : Packet) :
    Option SwitchNode :=
  if qIndex ≠ 0 then
    if s.mmu.checkIngressAdmission c.mmu (p.flowId, qIndex) p.size &&
        SwitchMmu.checkEgressAdmission s.mmu (idx, qIndex) p.size then
      checkAndSendPfc (dequeue c) c (s.updateMmu c idx qIndex p) p.flowId qIndex
    else none
  else some s

def sendToDev (c : SwitchConfig) (s : SwitchNode) (p : Packet) (stale : UInt32) :
    Option SwitchNode :=
  match s.getOutDev c p stale with
  | none => some s
  | some idx => do
    let s := s.incident (s.devices idx).linkUp (.linkDown idx)
    let s ← s.admission c idx (queueIndex c p) p
    switchSend (dequeue c) s idx (queueIndex c p) p

def resume (c : SwitchConfig) (s : SwitchNode) (d : Port) (qIndex : Class) : Option SwitchNode :=
  let dev := s.devices d
  dequeue c d ((s.incident (dev.paused qIndex) (.notPaused d qIndex)).setDevice d
    { dev with paused := Function.update dev.paused qIndex false })

/-- `Receive` of a packet that is not corrupt. -/
def receive (c : SwitchConfig) (s : SwitchNode) (d : Port) (p : Packet) (stale : UInt32) :
    Option SwitchNode :=
  let dev := s.devices d
  if dev.linkUp = false then some s
  else if p.l3Prot = 0xFE then
    if c.qbbEnabled d = false then some s
    else if 0 < p.pfcTime then
      some (s.setDevice d { dev with paused := Function.update dev.paused p.pfcQIndex true })
    else s.resume c d p.pfcQIndex
  else s.sendToDev c { p with flowId := d } stale

/-- `TransmitComplete`, which runs only when it is scheduled. -/
def transmitComplete (c : SwitchConfig) (s : SwitchNode) (d : Port) : Option SwitchNode :=
  let dev := s.devices d
  if dev.completes = 0 then none
  else
    dequeue c d
      (((s.incident (dev.txMachineState = .busy) (.notBusy d)).incident dev.currentPkt.isSome
        (.noPacket d)).setDevice d
          { dev with txMachineState := .ready, currentPkt := none, completes := dev.completes - 1 })

/-- The loop of `TakeDown`: at most `fuel` packets are thrown away. -/
def drain : Nat → BEgressQueue → BEgressQueue
  | 0, b => b
  | fuel + 1, b =>
    match b.dequeueRR fun _ => false with
    | none => b
    | some (_, b) => drain fuel b

/-- The packets in a queue. -/
def queued (b : BEgressQueue) : Nat := ∑ q, (b.queues q).length

/-- `TakeDown` of a switch's device. -/
def takeDown (s : SwitchNode) (d : Port) : SwitchNode :=
  let dev := s.devices d
  s.setDevice d
    { dev with
      linkUp := false, paused := fun _ => false, queue := drain (queued dev.queue) dev.queue }

/-- The oldest packet on its way from device `d` reaches the other end. -/
def deliver (s : SwitchNode) (d : Port) : Option (Packet × SwitchNode) :=
  match (s.devices d).wire with
  | [] => none
  | p :: rest => some (p, s.setDevice d { s.devices d with wire := rest })

inductive Event where
  | receive (d : Port) (p : Packet) (stale : UInt32)
  | transmitComplete (d : Port)
  | deliver (d : Port)
  | takeDown (d : Port)
  /-- `ClearTable` and the `AddTableEntry` calls that follow. -/
  | setRoutes (rtTable : UInt32 → List Port)

def step (c : SwitchConfig) (s : SwitchNode) : Event → Option SwitchNode
  | .receive d p stale => s.receive c d p stale
  | .transmitComplete d => s.transmitComplete c d
  | .deliver d => (s.deliver d).map (·.2)
  | .takeDown d => some (s.takeDown d)
  | .setRoutes rtTable => some { s with rtTable }

end SwitchNode

end Paraleon.Switch
