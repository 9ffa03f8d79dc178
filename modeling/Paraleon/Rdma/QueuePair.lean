import Paraleon.Library.Words

/-!
# Queue pairs

The transport state of the two ends of a flow: the sender's `RdmaQueuePair` and
the receiver's `RdmaRxQueuePair`. The congestion-control records of the sender
(`mlx`, `hp`, `tmly`, `dctcp`, `hpccPint`) reach the transport only through the
current rate, and are not part of these structures.
-/

namespace Paraleon.Rdma

open Words

/-! ## The sender's queue pair -/

/-- `RdmaQueuePair`. `size`, `sndNxt`, `sndUna` and the two rates (bit/s) are
`uint64_t`, `win` is `uint32_t`. -/
structure RdmaQueuePair where
  size : Nat
  sndNxt : Nat
  sndUna : Nat
  win : Nat
  varWin : Bool
  rate : Nat
  maxRate : Nat
deriving DecidableEq, Repr

namespace RdmaQueuePair

/-- The queue pair `AddQueuePair` builds on a NIC of line rate `bps`. -/
def create (size : UInt64) (win : UInt32) (varWin : Bool) (bps : UInt64) : RdmaQueuePair :=
  { size := size.toNat, sndNxt := 0, sndUna := 0, win := win.toNat, varWin,
    rate := bps.toNat, maxRate := bps.toNat }

def getBytesLeft (q : RdmaQueuePair) : Nat :=
  if q.sndNxt ≤ q.size then q.size - q.sndNxt else 0

def acknowledge (q : RdmaQueuePair) (ack : Nat) : RdmaQueuePair :=
  if q.sndUna < ack then { q with sndUna := ack } else q

def getOnTheFly (q : RdmaQueuePair) : Nat := sub64 q.sndNxt q.sndUna

/-- The window in bytes; `0` means that the queue pair has no window. -/
def getWin (q : RdmaQueuePair) : Nat :=
  if q.win = 0 then 0
  else if q.varWin then
    let w := u64 (q.win * q.rate) / q.maxRate
    if w = 0 then 1 else w
  else q.win

def isWinBound (q : RdmaQueuePair) : Bool :=
  q.getWin != 0 && decide (q.getWin ≤ q.getOnTheFly)

def isFinished (q : RdmaQueuePair) : Bool := decide (q.size ≤ q.sndUna)

/-- `RdmaHw::RecoverQueue`. -/
def recoverQueue (q : RdmaQueuePair) : RdmaQueuePair := { q with sndNxt := q.sndUna }

/-- `RdmaHw::ChangeRate`, as far as the transport sees it. -/
def changeRate (q : RdmaQueuePair) (rate : Nat) : RdmaQueuePair := { q with rate }

@[simp] theorem acknowledge_sndUna (q : RdmaQueuePair) (ack : Nat) :
    (q.acknowledge ack).sndUna = max q.sndUna ack := by
  unfold acknowledge
  split
  · next h => exact (Nat.max_eq_right (Nat.le_of_lt h)).symm
  · next h => exact (Nat.max_eq_left (Nat.le_of_not_lt h)).symm

@[simp] theorem acknowledge_sndNxt (q : RdmaQueuePair) (ack : Nat) :
    (q.acknowledge ack).sndNxt = q.sndNxt := by
  unfold acknowledge
  split <;> rfl

@[simp] theorem acknowledge_size (q : RdmaQueuePair) (ack : Nat) :
    (q.acknowledge ack).size = q.size := by
  unfold acknowledge
  split <;> rfl

@[simp] theorem recoverQueue_sndUna (q : RdmaQueuePair) : q.recoverQueue.sndUna = q.sndUna := rfl
@[simp] theorem recoverQueue_sndNxt (q : RdmaQueuePair) : q.recoverQueue.sndNxt = q.sndUna := rfl
@[simp] theorem recoverQueue_size (q : RdmaQueuePair) : q.recoverQueue.size = q.size := rfl

@[simp] theorem changeRate_sndUna (q : RdmaQueuePair) (r : Nat) :
    (q.changeRate r).sndUna = q.sndUna := rfl
@[simp] theorem changeRate_sndNxt (q : RdmaQueuePair) (r : Nat) :
    (q.changeRate r).sndNxt = q.sndNxt := rfl
@[simp] theorem changeRate_size (q : RdmaQueuePair) (r : Nat) :
    (q.changeRate r).size = q.size := rfl

theorem getBytesLeft_eq (q : RdmaQueuePair) : q.getBytesLeft = q.size - q.sndNxt := by
  unfold getBytesLeft
  split <;> omega

theorem isWinBound_iff {q : RdmaQueuePair} :
    q.isWinBound = true ↔ q.getWin ≠ 0 ∧ q.getWin ≤ q.getOnTheFly := by
  simp [isWinBound]

theorem isFinished_iff {q : RdmaQueuePair} : q.isFinished = true ↔ q.size ≤ q.sndUna := by
  simp [isFinished]

end RdmaQueuePair

/-! ## The receiver's queue pair -/

/-- `RdmaRxQueuePair`. The sequence numbers are `uint32_t`; `milestoneRx` holds
the bits of the `int32_t`, which is compared as an unsigned number; `nackTimer`
is in ns. -/
structure RdmaRxQueuePair where
  receiverNextExpectedSeq : Nat
  nackTimer : Nat
  milestoneRx : Nat
  lastNACK : Nat
deriving DecidableEq, Repr

def RdmaRxQueuePair.create : RdmaRxQueuePair :=
  { receiverNextExpectedSeq := 0, nackTimer := 0, milestoneRx := 0, lastNACK := 0 }

end Paraleon.Rdma
