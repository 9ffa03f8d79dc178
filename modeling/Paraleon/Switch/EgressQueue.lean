import Paraleon.Library.Weights
import Paraleon.Switch.Mmu

/-!
# Packets and the egress queue of a device

`BEgressQueue` holds one FIFO queue for each class. Class 0 is served first; the
others take turns, and a paused class is passed over. The inner `DropTailQueue`s
have a limit of their own, `30000 * 65535` bytes, above `m_maxBytes`; it is not
met as long as the sums stay in 32 bits, and left out, as are the counters of the
base class `Queue`, which follow those of `BEgressQueue`.
-/

namespace Paraleon.Switch

open Words

/-- A packet as a switch sees it: its size, the fields of its `CustomHeader` that
are read, and the port in its `FlowIdTag`. `pg` is read at the same place in a
UDP header and in an ACK. -/
structure Packet where
  size : Nat
  l3Prot : UInt8 := 0x11
  sip : UInt32 := 0
  dip : UInt32 := 0
  sport : UInt16 := 0
  dport : UInt16 := 0
  pg : Class := 0
  pfcTime : UInt32 := 0
  pfcQIndex : Class := 0
  flowId : Port := 0
deriving DecidableEq, Repr

/-- `BEgressQueue`. The attribute `m_maxBytes` is a whole number of bytes. -/
structure BEgressQueue where
  maxBytes : Nat
  queues : Class → List Packet
  bytesInQueue : Class → Nat
  bytesInQueueTotal : Nat
  rrlast : Class
  qlast : Class

namespace BEgressQueue

/-- The default of `MaxBytes`. -/
def defaultMaxBytes : Nat := 1000 * 1024 * 1024

def create : BEgressQueue :=
  { maxBytes := defaultMaxBytes, queues := fun _ => [], bytesInQueue := fun _ => 0,
    bytesInQueueTotal := 0, rrlast := 0, qlast := 0 }

/-- The test of `DoEnqueue`. -/
def accepts (b : BEgressQueue) (p : Packet) : Bool :=
  decide (u32 (b.bytesInQueueTotal + p.size) < b.maxBytes)

/-- `Enqueue`; `none` is the return value `false`. -/
def enqueue (b : BEgressQueue) (p : Packet) (qIndex : Class) : Option BEgressQueue :=
  if b.accepts p then
    some
      { b with
        queues := Function.update b.queues qIndex (b.queues qIndex ++ [p])
        bytesInQueue := Function.update b.bytesInQueue qIndex (u32 (b.bytesInQueue qIndex + p.size))
        bytesInQueueTotal := u32 (b.bytesInQueueTotal + p.size) }
  else none

/-- The class `DoDequeueRR` finds: class 0 if it holds a packet, else the first
in turn after `m_rrlast` that holds one and is not paused. -/
def nextQueue (b : BEgressQueue) (paused : Class → Bool) : Option Class :=
  if b.queues 0 ≠ [] then some 0
  else ((List.range' 1 8).map fun k => Fin.ofNat 8 (k + b.rrlast)).find? fun q =>
    !paused q && b.queues q != []

/-- The removal of the first packet of class `qIndex`. -/
def pop (b : BEgressQueue) (qIndex : Class) (p : Packet) (rest : List Packet) : BEgressQueue :=
  { b with
    queues := Function.update b.queues qIndex rest
    bytesInQueue := Function.update b.bytesInQueue qIndex (sub32 (b.bytesInQueue qIndex) p.size)
    bytesInQueueTotal := sub32 b.bytesInQueueTotal p.size
    rrlast := if qIndex ≠ 0 then qIndex else b.rrlast
    qlast := qIndex }

/-- `DequeueRR`. The class of the packet is `qlast` of the queue it leaves. -/
def dequeueRR (b : BEgressQueue) (paused : Class → Bool) : Option (Packet × BEgressQueue) :=
  if b.bytesInQueueTotal = 0 then none
  else
    match b.nextQueue paused with
    | none => none
    | some qIndex =>
      match b.queues qIndex with
      | [] => none
      | p :: rest => some (p, b.pop qIndex p rest)

/-! ## What each function can do -/

variable {b b' : BEgressQueue} {p : Packet} {paused : Class → Bool}

@[simp] theorem pop_qlast (qIndex : Class) (p : Packet) (rest : List Packet) :
    (b.pop qIndex p rest).qlast = qIndex := rfl

@[simp] theorem pop_queues (qIndex : Class) (p : Packet) (rest : List Packet) :
    (b.pop qIndex p rest).queues = Function.update b.queues qIndex rest := rfl

theorem enqueue_queues {qIndex : Class} (h : b.enqueue p qIndex = some b') :
    b'.queues = Function.update b.queues qIndex (b.queues qIndex ++ [p]) ∧
      b'.bytesInQueue =
        Function.update b.bytesInQueue qIndex (u32 (b.bytesInQueue qIndex + p.size)) := by
  unfold enqueue at h
  split at h
  · cases h
    exact ⟨rfl, rfl⟩
  · cases h

theorem enqueue_of_accepts (qIndex : Class) (h : b.accepts p = true) :
    ∃ b', b.enqueue p qIndex = some b' := by
  rw [enqueue, if_pos h]
  exact ⟨_, rfl⟩

/-- What a dequeue takes: the head of a class that is not paused, and of class 0
as long as that holds a packet. -/
theorem dequeueRR_cases (h : b.dequeueRR paused = some (p, b')) :
    ∃ qIndex rest, b.queues qIndex = p :: rest ∧ b' = b.pop qIndex p rest ∧
      (qIndex = 0 ∨ b.queues 0 = [] ∧ paused qIndex = false) := by
  unfold dequeueRR at h
  split at h
  · cases h
  split at h
  · cases h
  next qIndex hnext =>
  split at h
  · cases h
  next q rest hq =>
  cases h
  refine ⟨qIndex, rest, hq, rfl, ?_⟩
  unfold nextQueue at hnext
  split at hnext
  · cases hnext
    exact .inl rfl
  · next hzero =>
    have hfound := List.find?_some hnext
    simp only [Bool.and_eq_true, Bool.not_eq_true'] at hfound
    exact .inr ⟨not_not.mp hzero, hfound.1⟩

end BEgressQueue

end Paraleon.Switch
