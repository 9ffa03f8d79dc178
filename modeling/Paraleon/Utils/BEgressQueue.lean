import Mathlib.Algebra.BigOperators.Fin
import Paraleon.Library.Runs
import Paraleon.Utils.DropTailQueue

/-!
# The egress queue of a switch port, with its inner queues

`BEgressQueue` as it is: a `Queue` itself, with one `DropTailQueue` for each class, whose
return value `DoEnqueue` ignores. The `fCnt - qCnt` queues that no class names are left out.
`Switch.BEgressQueue` is what a switch sees of it while the counters are in step.
-/

namespace Paraleon.Utils

open Words Switch Runs

structure BEgressQueue extends Queue where
  maxBytes : Nat
  bytesInQueue : Switch.Class → Nat
  bytesInQueueTotal : Nat
  rrlast : Switch.Class
  qlast : Switch.Class
  queues : Switch.Class → DropTailQueue

namespace BEgressQueue

def create : BEgressQueue :=
  { Queue.create with
    maxBytes := 1000 * 1024 * 1024, bytesInQueue := fun _ => 0, bytesInQueueTotal := 0,
    rrlast := 0, qlast := 0, queues := fun _ => .create }

def doEnqueue (b : BEgressQueue) (p : Packet) (qIndex : Switch.Class) : Bool × BEgressQueue :=
  if u32 (b.bytesInQueueTotal + p.size) < b.maxBytes then
    -- what the inner `Enqueue` returns is not looked at
    (true, { b with
      queues := Function.update b.queues qIndex ((b.queues qIndex).enqueue p).2
      bytesInQueueTotal := u32 (b.bytesInQueueTotal + p.size)
      bytesInQueue :=
        Function.update b.bytesInQueue qIndex (u32 (b.bytesInQueue qIndex + p.size)) })
  else (false, b)

def enqueue (b : BEgressQueue) (p : Packet) (qIndex : Switch.Class) : Bool × BEgressQueue :=
  match b.doEnqueue p qIndex with
  | (true, b) => (true, { b with toQueue := b.toQueue.received p.size })
  | (false, b) => (false, b)

/-- The classes in the order in which the scan of `DoDequeueRR` looks at them. -/
def scanned (rrlast : Switch.Class) : List Switch.Class :=
  (List.range' 1 8).map fun qIndex => Fin.ofNat 8 (qIndex + rrlast)

/-- The class `DoDequeueRR` finds. -/
def found (b : BEgressQueue) (paused : Switch.Class → Bool) : Option Switch.Class :=
  if 0 < (b.queues 0).getNPackets then some 0
  else (scanned b.rrlast).find? fun q => !paused q && decide (0 < (b.queues q).getNPackets)

/-- `none` when the class that was found yields no packet: the source then reads the size of
a null pointer. -/
def doDequeueRR (b : BEgressQueue) (paused : Switch.Class → Bool) :
    Option (Option Packet × BEgressQueue) :=
  if b.bytesInQueueTotal = 0 then some (none, b)
  else
    match b.found paused with
    | none => some (none, b)
    | some qIndex =>
      match (b.queues qIndex).dequeue with
      | (none, _) => none
      | (some p, d) => some (some p, { b with
          queues := Function.update b.queues qIndex d
          bytesInQueueTotal := sub32 b.bytesInQueueTotal p.size
          bytesInQueue :=
            Function.update b.bytesInQueue qIndex (sub32 (b.bytesInQueue qIndex) p.size)
          rrlast := if qIndex ≠ 0 then qIndex else b.rrlast
          qlast := qIndex })

def dequeueRR (b : BEgressQueue) (paused : Switch.Class → Bool) :
    Option (Option Packet × BEgressQueue) :=
  (b.doDequeueRR paused).map fun
    | (some p, b) => (some p, { b with toQueue := b.toQueue.left p.size })
    | (none, b) => (none, b)

/-! ## What each call can do -/

variable {b b' : BEgressQueue} {p : Packet} {paused : Switch.Class → Bool} {out : Option Packet}

/-- What `Enqueue` leaves when it returns true for `p` in class `qIndex`. -/
def added (b : BEgressQueue) (qIndex : Switch.Class) (p : Packet) : BEgressQueue :=
  { b with
    toQueue := b.toQueue.received p.size
    queues := Function.update b.queues qIndex ((b.queues qIndex).enqueue p).2
    bytesInQueueTotal := u32 (b.bytesInQueueTotal + p.size)
    bytesInQueue := Function.update b.bytesInQueue qIndex (u32 (b.bytesInQueue qIndex + p.size)) }

theorem enqueue_of_fits (qIndex : Switch.Class)
    (h : u32 (b.bytesInQueueTotal + p.size) < b.maxBytes) :
    b.enqueue p qIndex = (true, b.added qIndex p) := by
  rw [enqueue, doEnqueue, if_pos h]
  rfl

theorem enqueue_of_full (qIndex : Switch.Class)
    (h : ¬u32 (b.bytesInQueueTotal + p.size) < b.maxBytes) :
    b.enqueue p qIndex = (false, b) := by
  rw [enqueue, doEnqueue, if_neg h]

/-- What `DequeueRR` leaves when it has taken `p` from class `qIndex`. -/
def taken (b : BEgressQueue) (qIndex : Switch.Class) (p : Packet) : BEgressQueue :=
  { b with
    toQueue := b.toQueue.left p.size
    queues := Function.update b.queues qIndex (b.queues qIndex).dequeue.2
    bytesInQueueTotal := sub32 b.bytesInQueueTotal p.size
    bytesInQueue := Function.update b.bytesInQueue qIndex (sub32 (b.bytesInQueue qIndex) p.size)
    rrlast := if qIndex ≠ 0 then qIndex else b.rrlast
    qlast := qIndex }

/-- A `DequeueRR` returns nothing and changes nothing, or the first packet of the class it
has found. -/
theorem dequeueRR_cases (h : b.dequeueRR paused = some (out, b')) :
    out = none ∧ b' = b ∧ (b.bytesInQueueTotal = 0 ∨ b.found paused = none) ∨
      ∃ qIndex p packets, out = some p ∧ b' = b.taken qIndex p ∧ b.found paused = some qIndex ∧
        (b.queues qIndex).packets = p :: packets := by
  unfold dequeueRR doDequeueRR at h
  split at h
  · next hempty =>
    cases h
    exact .inl ⟨rfl, rfl, .inl hempty⟩
  cases hfound : b.found paused with
  | none =>
    rw [hfound] at h
    cases h
    exact .inl ⟨rfl, rfl, .inr rfl⟩
  | some qIndex =>
    simp only [hfound] at h
    cases hpackets : (b.queues qIndex).packets with
    | nil => simp [DropTailQueue.dequeue_of_nil hpackets] at h
    | cons p packets =>
      have hdeq := DropTailQueue.dequeue_of_cons hpackets
      rw [hdeq] at h
      cases h
      refine .inr ⟨qIndex, p, packets, rfl, ?_, rfl, hpackets⟩
      rw [taken, hdeq]

/-- The class found holds packets, and is not paused unless it is class 0. -/
theorem found_eq_some {qIndex : Switch.Class} (h : b.found paused = some qIndex) :
    0 < (b.queues qIndex).getNPackets ∧ (qIndex = 0 ∨ paused qIndex = false) := by
  unfold found at h
  split at h
  · next hzero =>
    cases h
    exact ⟨hzero, .inl rfl⟩
  · have hfound := List.find?_some h
    simp only [Bool.and_eq_true, Bool.not_eq_true', decide_eq_true_eq] at hfound
    exact ⟨hfound.2, .inr hfound.1⟩

theorem mem_scanned (rrlast q : Switch.Class) : q ∈ scanned rrlast := by
  revert rrlast q
  decide

theorem found_eq_none_iff :
    b.found paused = none ↔ (b.queues 0).getNPackets = 0 ∧
      ∀ q, q ≠ 0 → 0 < (b.queues q).getNPackets → paused q = true := by
  unfold found
  split
  · next hzero => simp [Nat.pos_iff_ne_zero.mp hzero]
  · next hzero =>
    have hzero' : (b.queues 0).getNPackets = 0 := Nat.eq_zero_of_not_pos hzero
    rw [List.find?_eq_none]
    constructor
    · intro h
      refine ⟨hzero', fun q _ hq => ?_⟩
      simpa [hq] using h q (mem_scanned _ q)
    · rintro ⟨-, h⟩ q -
      rcases eq_or_ne q 0 with rfl | hne
      · simp [hzero']
      · cases hp : paused q with
        | true => simp
        | false =>
          have hnot : ¬0 < (b.queues q).getNPackets := fun hq =>
            absurd (hp.symm.trans (h q hne hq)) Bool.false_ne_true
          simpa using hnot

end BEgressQueue

/-! ## Runs -/

/-- A queue with all packets for which `Enqueue` has returned true, and all that have left,
by class. -/
structure Traffic where
  queue : BEgressQueue
  arrived : Switch.Class → List Packet
  departed : Switch.Class → List Packet

inductive Call where
  | enqueue (p : Packet) (qIndex : Switch.Class)
  | dequeueRR (paused : Switch.Class → Bool)

namespace Traffic

def start : Traffic :=
  { queue := .create, arrived := fun _ => [], departed := fun _ => [] }

/-- One call. Packets have a byte, and `GetSize` is a `uint32_t`. -/
def step (s : Traffic) : Call → Option Traffic
  | .enqueue p qIndex =>
    if 0 < p.size ∧ p.size < 2 ^ 32 then
      match s.queue.enqueue p qIndex with
      | (true, queue) =>
        some { s with
          queue, arrived := Function.update s.arrived qIndex (s.arrived qIndex ++ [p]) }
      | (false, queue) => some { s with queue }
    else none
  | .dequeueRR paused =>
    match s.queue.dequeueRR paused with
    | none => none
    | some (none, queue) => some { s with queue }
    | some (some p, queue) =>
      some { s with
        queue
        departed := Function.update s.departed queue.qlast (s.departed queue.qlast ++ [p]) }

end Traffic

end Paraleon.Utils
