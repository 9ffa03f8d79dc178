import Paraleon.Library.Weights
import Paraleon.Switch.EgressQueue

/-!
# Drop-tail queues

The base class `Queue` with its counters, and `DropTailQueue` with a counter of its own. All
counters are `uint32_t`; sums are computed in 32 bits, those that are compared with a limit
too.
-/

namespace Paraleon.Utils

open Words Weights Switch

/-- The counters of `Queue`. -/
structure Queue where
  nBytes : Nat
  nTotalReceivedBytes : Nat
  nPackets : Nat
  nTotalReceivedPackets : Nat
  nTotalDroppedBytes : Nat
  nTotalDroppedPackets : Nat
deriving DecidableEq, Repr

namespace Queue

def create : Queue :=
  { nBytes := 0, nTotalReceivedBytes := 0, nPackets := 0, nTotalReceivedPackets := 0,
    nTotalDroppedBytes := 0, nTotalDroppedPackets := 0 }

/-- What `Enqueue` counts when `DoEnqueue` has returned true. -/
def received (q : Queue) (size : Nat) : Queue :=
  { q with
    nBytes := u32 (q.nBytes + size)
    nTotalReceivedBytes := u32 (q.nTotalReceivedBytes + size)
    nPackets := u32 (q.nPackets + 1)
    nTotalReceivedPackets := u32 (q.nTotalReceivedPackets + 1) }

/-- What `Dequeue` counts when `DoDequeue` has returned a packet. -/
def left (q : Queue) (size : Nat) : Queue :=
  { q with nBytes := sub32 q.nBytes size, nPackets := sub32 q.nPackets 1 }

def drop (q : Queue) (size : Nat) : Queue :=
  { q with
    nTotalDroppedBytes := u32 (q.nTotalDroppedBytes + size)
    nTotalDroppedPackets := u32 (q.nTotalDroppedPackets + 1) }

end Queue

inductive QueueMode where
  | packets
  | bytes
deriving DecidableEq, Repr

structure DropTailQueue extends Queue where
  mode : QueueMode
  maxPackets : Nat
  maxBytes : Nat
  packets : List Packet
  bytesInQueue : Nat
deriving DecidableEq, Repr

namespace DropTailQueue

/-- With the default attributes. -/
def create : DropTailQueue :=
  { Queue.create with
    mode := .bytes, maxPackets := 100, maxBytes := 30000 * 65535, packets := [],
    bytesInQueue := 0 }

def doEnqueue (d : DropTailQueue) (p : Packet) : Bool × DropTailQueue :=
  if d.mode = .packets ∧ d.maxPackets ≤ d.packets.length then
    (false, { d with toQueue := d.toQueue.drop p.size })
  else if d.mode = .bytes ∧ d.maxBytes ≤ u32 (d.bytesInQueue + p.size) then
    (false, { d with toQueue := d.toQueue.drop p.size })
  else
    (true, { d with bytesInQueue := u32 (d.bytesInQueue + p.size), packets := d.packets ++ [p] })

/-- `Queue::Enqueue`. -/
def enqueue (d : DropTailQueue) (p : Packet) : Bool × DropTailQueue :=
  match d.doEnqueue p with
  | (true, d) => (true, { d with toQueue := d.toQueue.received p.size })
  | (false, d) => (false, d)

def doDequeue (d : DropTailQueue) : Option Packet × DropTailQueue :=
  match d.packets with
  | [] => (none, d)
  | p :: packets => (some p, { d with packets, bytesInQueue := sub32 d.bytesInQueue p.size })

/-- `Queue::Dequeue`. -/
def dequeue (d : DropTailQueue) : Option Packet × DropTailQueue :=
  match d.doDequeue with
  | (some p, d) => (some p, { d with toQueue := d.toQueue.left p.size })
  | (none, d) => (none, d)

def getNPackets (d : DropTailQueue) : Nat := d.nPackets

variable {d : DropTailQueue} {p : Packet} {packets : List Packet}

/-- A queue takes a packet at its end or leaves what it holds alone. -/
theorem enqueue_packets (d : DropTailQueue) (p : Packet) :
    (d.enqueue p).2.packets = d.packets ∨ (d.enqueue p).2.packets = d.packets ++ [p] := by
  unfold enqueue doEnqueue
  split
  · next heq =>
    split at heq
    · cases heq
    · split at heq
      · cases heq
      · cases heq
        exact .inr rfl
  · next heq =>
    split at heq
    · cases heq
      exact .inl rfl
    · split at heq
      · cases heq
        exact .inl rfl
      · cases heq

theorem dequeue_of_nil (h : d.packets = []) : d.dequeue = (none, d) := by
  simp only [dequeue, doDequeue, h]

theorem dequeue_of_cons (h : d.packets = p :: packets) :
    d.dequeue = (some p,
      { d with
        toQueue := d.toQueue.left p.size
        packets
        bytesInQueue := sub32 d.bytesInQueue p.size }) := by
  simp only [dequeue, doDequeue, h]

/-! ## Counters in step with the packets -/

/-- The bytes of a list of packets. -/
abbrev bytesOf (packets : List Packet) : Nat := total Packet.size packets

/-- The counters of a queue with the default attributes are those of its packets. -/
structure Synced (d : DropTailQueue) : Prop where
  mode : d.mode = .bytes
  maxBytes : d.maxBytes = 30000 * 65535
  positive : ∀ p ∈ d.packets, 0 < p.size
  bytesInQueue : d.bytesInQueue = bytesOf d.packets
  nBytes : d.nBytes = bytesOf d.packets
  nPackets : d.nPackets = d.packets.length

theorem synced_create : Synced create where
  mode := rfl
  maxBytes := rfl
  positive := nofun
  bytesInQueue := rfl
  nBytes := rfl
  nPackets := rfl

theorem length_le_bytesOf {packets : List Packet} (h : ∀ p ∈ packets, 0 < p.size) :
    packets.length ≤ bytesOf packets := by
  induction packets with
  | nil => exact Nat.le_refl 0
  | cons p packets ih =>
    obtain ⟨hp, hrest⟩ := List.forall_mem_cons.mp h
    calc packets.length + 1 ≤ bytesOf packets + p.size := Nat.add_le_add (ih hrest) hp
      _ = bytesOf (p :: packets) := Nat.add_comm _ _

theorem Synced.getNPackets_pos_iff (h : Synced d) : 0 < d.getNPackets ↔ d.packets ≠ [] := by
  rw [getNPackets, h.nPackets, List.length_pos_iff]

/-- Below the limit a queue takes a packet. -/
theorem Synced.enqueue (h : Synced d) (hp : 0 < p.size)
    (hfit : bytesOf d.packets + p.size < 30000 * 65535) :
    (d.enqueue p).1 = true ∧ (d.enqueue p).2.packets = d.packets ++ [p] ∧
      Synced (d.enqueue p).2 := by
  have hsum : u32 (d.bytesInQueue + p.size) = bytesOf d.packets + p.size := by
    rw [h.bytesInQueue]
    exact u32_of_lt (by omega)
  have hlen := length_le_bytesOf h.positive
  have hdo : d.doEnqueue p = (true,
      { d with bytesInQueue := u32 (d.bytesInQueue + p.size), packets := d.packets ++ [p] }) := by
    rw [doEnqueue, if_neg (by simp [h.mode]), if_neg]
    rintro ⟨-, hfull⟩
    rw [hsum, h.maxBytes] at hfull
    omega
  rw [DropTailQueue.enqueue, hdo]
  refine ⟨rfl, rfl, h.mode, h.maxBytes, ?_, ?_, ?_, ?_⟩
  · exact List.forall_mem_append.mpr ⟨h.positive, by simpa using hp⟩
  · show u32 (d.bytesInQueue + p.size) = bytesOf (d.packets ++ [p])
    rw [hsum]
    simp [bytesOf]
  · show u32 (d.nBytes + p.size) = bytesOf (d.packets ++ [p])
    rw [h.nBytes, u32_of_lt (by omega)]
    simp [bytesOf]
  · show u32 (d.nPackets + 1) = (d.packets ++ [p]).length
    rw [h.nPackets, u32_of_lt (by omega), List.length_append, List.length_singleton]

theorem Synced.dequeue (h : Synced d) (hd : d.packets = p :: packets) :
    Synced d.dequeue.2 := by
  have hsum : bytesOf d.packets = p.size + bytesOf packets := by rw [hd, bytesOf, total_cons]
  have hsub : sub32 (p.size + bytesOf packets) p.size = bytesOf packets := by
    rw [sub32_of_le (Nat.le_add_right _ _), Nat.add_sub_cancel_left]
  rw [dequeue_of_cons hd]
  refine ⟨h.mode, h.maxBytes, fun x hx => h.positive x (hd ▸ List.mem_cons_of_mem p hx), ?_, ?_, ?_⟩
  · show sub32 d.bytesInQueue p.size = bytesOf packets
    rw [h.bytesInQueue, hsum, hsub]
  · show sub32 d.nBytes p.size = bytesOf packets
    rw [h.nBytes, hsum, hsub]
  · show sub32 d.nPackets 1 = packets.length
    rw [h.nPackets, hd, List.length_cons, sub32_of_le (Nat.le_add_left 1 _), Nat.add_sub_cancel]

end DropTailQueue

end Paraleon.Utils
