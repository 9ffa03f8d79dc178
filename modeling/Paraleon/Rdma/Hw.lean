import Paraleon.Rdma.QueuePair

/-!
# The transport functions of `RdmaHw`

`getNxtPacket` cuts the next packet of a flow, `receiverCheckSeq` and
`receiveUdp` are the receiver, `receiveAck` is the sender's side of an ACK or
NACK. A division by zero (`m_chunk = 0`) ends the program; the functions return
`none` there.
-/

namespace Paraleon.Rdma

open Words

/-- The attributes of `RdmaHw` that the transport reads. `nackInterval` is in ns. -/
structure RdmaHw where
  mtu : Nat
  chunk : Nat
  ackInterval : Nat
  nackInterval : Nat
  backto0 : Bool
  dcqcnPlusEnabled : Bool
deriving DecidableEq, Repr

/-- The transport attributes of the shipped configuration -/
def RdmaHw.shipped : RdmaHw :=
  { mtu := 1000, chunk := 4000, ackInterval := 1, nackInterval := 500000, backto0 := false,
    dcqcnPlusEnabled := false }

/-- A data packet: the `SeqTsHeader` sequence number, the payload size and the
ECN bits of the IP header. -/
structure DataPacket where
  seq : Nat
  payload : Nat
  ecnbits : Nat
deriving DecidableEq, Repr

/-- An ACK (`0xFC`) or NACK (`0xFD`) with its `qbbHeader`. -/
structure AckPacket where
  isNack : Bool
  seq : Nat
  cnp : Bool
deriving DecidableEq, Repr

/-- `RdmaHw::GetNxtPacket`. The 64-bit number of bytes left is cut to 32 bits
before it is compared with the MTU. -/
def getNxtPacket (hw : RdmaHw) (q : RdmaQueuePair) : DataPacket × RdmaQueuePair :=
  let payloadSize := min (u32 q.getBytesLeft) hw.mtu
  ({ seq := u32 q.sndNxt, payload := payloadSize, ecnbits := 0 },
    { q with sndNxt := u64 (q.sndNxt + payloadSize) })

/-- The return values of `ReceiverCheckSeq`, in the order `1` to `5`. -/
inductive CheckSeq where
  | ack
  | nack
  | duplicate
  | nackHeld
  | accepted
deriving DecidableEq, Repr

/-- The packet was taken: return values `1` and `5`. -/
def CheckSeq.accepts : CheckSeq → Bool
  | .ack | .accepted => true
  | .nack | .duplicate | .nackHeld => false

/-- `RdmaHw::ReceiverCheckSeq` at time `now`. -/
def receiverCheckSeq (hw : RdmaHw) (now seq : Nat) (q : RdmaRxQueuePair) (size : Nat) :
    Option (CheckSeq × RdmaRxQueuePair) :=
  let expected := q.receiverNextExpectedSeq
  if seq = expected then
    let q := { q with receiverNextExpectedSeq := u32 (expected + size) }
    if q.milestoneRx ≤ q.receiverNextExpectedSeq then
      some (.ack, { q with milestoneRx := u32 (q.milestoneRx + hw.ackInterval) })
    else if hw.chunk = 0 then none
    else if q.receiverNextExpectedSeq % hw.chunk = 0 then some (.ack, q)
    else some (.accepted, q)
  else if expected < seq then
    if q.nackTimer ≤ now || q.lastNACK != expected then
      let q := { q with nackTimer := now + hw.nackInterval, lastNACK := expected }
      if hw.backto0 then
        if hw.chunk = 0 then none
        else some (.nack,
          { q with receiverNextExpectedSeq := q.receiverNextExpectedSeq / hw.chunk * hw.chunk })
      else some (.nack, q)
    else some (.nackHeld, q)
  else some (.duplicate, q)

/-- `RdmaHw::ReceiveUdp` for a packet whose receive queue pair is `rxQp`, created
on the first packet of a flow. The result carries the ACK or NACK it sends. -/
def receiveUdp (hw : RdmaHw) (now : Nat) (p : DataPacket) (rxQp : Option RdmaRxQueuePair) :
    Option (CheckSeq × RdmaRxQueuePair × Option AckPacket) := do
  let q := { rxQp.getD RdmaRxQueuePair.create with milestoneRx := u32 hw.ackInterval }
  let (x, q) ← receiverCheckSeq hw now p.seq q p.payload
  let reply (isNack : Bool) : AckPacket :=
    { isNack, seq := q.receiverNextExpectedSeq, cnp := !hw.dcqcnPlusEnabled && p.ecnbits != 0 }
  match x with
  | .ack => some (x, q, some (reply false))
  | .nack => some (x, q, some (reply true))
  | _ => some (x, q, none)

/-- One flow: the sender's queue pair, whether it is still in `m_qpMap`, the
receive queue pair in `m_rxQpMap`, and the number of `QpComplete` calls. -/
structure Flow where
  qp : RdmaQueuePair
  inQpMap : Bool
  rxQp : Option RdmaRxQueuePair
  completions : Nat
deriving DecidableEq, Repr

def Flow.start (size : UInt64) (win : UInt32) (varWin : Bool) (bps : UInt64) : Flow :=
  { qp := .create size win varWin bps, inQpMap := true, rxQp := none, completions := 0 }

/-- `RdmaHw::QpComplete`: the callback deletes the receive queue pair, and the
queue pair leaves `m_qpMap`. -/
def Flow.qpComplete (f : Flow) : Flow :=
  { f with inQpMap := false, rxQp := none, completions := f.completions + 1 }

/-- The acknowledgement step of `ReceiveAck`; in go-back-to-zero mode the
sequence number is cut to a multiple of the chunk. -/
def acknowledgeSeq (hw : RdmaHw) (seq : Nat) (q : RdmaQueuePair) : Option RdmaQueuePair :=
  if hw.backto0 then
    if hw.chunk = 0 then none else some (q.acknowledge (seq / hw.chunk * hw.chunk))
  else some (q.acknowledge seq)

/-- `RdmaHw::ReceiveAck`: an ACK of a flow that is no longer in `m_qpMap` is
dropped, one that comes with ACKs disabled is not applied, and a NACK rolls
`snd_nxt` back in either case. -/
def Flow.receiveAck (hw : RdmaHw) (a : AckPacket) (f : Flow) : Option Flow :=
  if f.inQpMap = false then some f
  else do
    let f ←
      if hw.ackInterval = 0 then some f
      else do
        let qp ← acknowledgeSeq hw a.seq f.qp
        let f := { f with qp }
        some (if qp.isFinished then f.qpComplete else f)
    some (if a.isNack then { f with qp := f.qp.recoverQueue } else f)

/-- The transmission of the next packet, under the conditions on the queue pair
itself that `GetNextQindex` checks. -/
def Flow.transmit (hw : RdmaHw) (f : Flow) : Option (DataPacket × Flow) :=
  if 0 < f.qp.getBytesLeft ∧ f.qp.isWinBound = false then
    let (p, qp) := getNxtPacket hw f.qp
    some (p, { f with qp })
  else none

/-- The delivery of a data packet to the receiver, with the reply it causes. -/
def Flow.receiveUdp (hw : RdmaHw) (now : Nat) (p : DataPacket) (f : Flow) :
    Option (CheckSeq × Option AckPacket × Flow) := do
  let (x, q, reply) ← Rdma.receiveUdp hw now p f.rxQp
  some (x, reply, { f with rxQp := some q })

/-- `ReceiverNextExpectedSeq`, which is `0` before the first packet. -/
def Flow.nextExpected (f : Flow) : Nat :=
  (f.rxQp.getD RdmaRxQueuePair.create).receiverNextExpectedSeq

@[simp] theorem Flow.nextExpected_set_qp (f : Flow) (q : RdmaQueuePair) :
    Flow.nextExpected { f with qp := q } = f.nextExpected := rfl

/-! ## What each function can do -/

section Spec

variable {hw : RdmaHw} {f f' : Flow}

@[simp] theorem getNxtPacket_seq (hw : RdmaHw) (q : RdmaQueuePair) :
    (getNxtPacket hw q).1.seq = u32 q.sndNxt := rfl

@[simp] theorem getNxtPacket_sndUna (hw : RdmaHw) (q : RdmaQueuePair) :
    (getNxtPacket hw q).2.sndUna = q.sndUna := rfl

@[simp] theorem getNxtPacket_size (hw : RdmaHw) (q : RdmaQueuePair) :
    (getNxtPacket hw q).2.size = q.size := rfl

theorem getNxtPacket_payload_le (hw : RdmaHw) (q : RdmaQueuePair) :
    (getNxtPacket hw q).1.payload ≤ q.size - q.sndNxt :=
  calc min (u32 q.getBytesLeft) hw.mtu ≤ u32 q.getBytesLeft := Nat.min_le_left _ _
    _ ≤ q.getBytesLeft := u32_le _
    _ = q.size - q.sndNxt := q.getBytesLeft_eq

theorem getNxtPacket_payload_pos {q : RdmaQueuePair} (hmtu : 0 < hw.mtu) (hsize : q.size < 2 ^ 32)
    (hleft : 0 < q.getBytesLeft) : 0 < (getNxtPacket hw q).1.payload := by
  have hlt : q.getBytesLeft < 2 ^ 32 := by rw [q.getBytesLeft_eq]; omega
  show 0 < min (u32 q.getBytesLeft) hw.mtu
  rw [u32_of_lt hlt]
  exact Nat.lt_min.mpr ⟨hleft, hmtu⟩

/-- `snd_nxt` advances by the payload and stays inside the flow. -/
theorem getNxtPacket_sndNxt (hw : RdmaHw) {q : RdmaQueuePair} (hsize : q.size < 2 ^ 64)
    (hleft : 0 < q.getBytesLeft) :
    (getNxtPacket hw q).2.sndNxt = q.sndNxt + (getNxtPacket hw q).1.payload ∧
      (getNxtPacket hw q).2.sndNxt ≤ q.size := by
  have hpay := getNxtPacket_payload_le hw q
  rw [q.getBytesLeft_eq] at hleft
  have hlt : q.sndNxt + (getNxtPacket hw q).1.payload < 2 ^ 64 := by omega
  have hnxt : (getNxtPacket hw q).2.sndNxt = q.sndNxt + (getNxtPacket hw q).1.payload :=
    u64_of_lt hlt
  exact ⟨hnxt, by omega⟩

theorem Flow.transmit_cases {p : DataPacket} (h : f.transmit hw = some (p, f')) :
    0 < f.qp.getBytesLeft ∧ p = (getNxtPacket hw f.qp).1 ∧
      f' = { f with qp := (getNxtPacket hw f.qp).2 } := by
  unfold Flow.transmit at h
  split at h
  · next hg =>
    cases h
    exact ⟨hg.1, rfl, rfl⟩
  · cases h

/-- Without go-back-to-zero, the receiver either takes the packet it expects, or
keeps its position and at most sends a NACK for it. -/
theorem receiverCheckSeq_cases {now seq size : Nat} {q q' : RdmaRxQueuePair} {x : CheckSeq}
    (hb : hw.backto0 = false) (h : receiverCheckSeq hw now seq q size = some (x, q')) :
    (seq = q.receiverNextExpectedSeq ∧ (x = .ack ∨ x = .accepted) ∧
      q'.receiverNextExpectedSeq = u32 (q.receiverNextExpectedSeq + size)) ∨
    (q'.receiverNextExpectedSeq = q.receiverNextExpectedSeq ∧
      ((x = .nack ∧ q.receiverNextExpectedSeq < seq) ∨ x = .nackHeld ∨ x = .duplicate)) := by
  simp only [receiverCheckSeq, hb, Bool.false_eq_true, if_false] at h
  split at h
  · next heq =>
    split at h
    · cases h; exact .inl ⟨heq, .inl rfl, rfl⟩
    · split at h
      · cases h
      · split at h
        · cases h; exact .inl ⟨heq, .inl rfl, rfl⟩
        · cases h; exact .inl ⟨heq, .inr rfl, rfl⟩
  · split at h
    · next hlt =>
      split at h
      · cases h; exact .inr ⟨rfl, .inl ⟨rfl, hlt⟩⟩
      · cases h; exact .inr ⟨rfl, .inr (.inl rfl)⟩
    · cases h; exact .inr ⟨rfl, .inr (.inr rfl)⟩

/-- What the delivery of a data packet does to a flow. The sender is untouched;
the receiver accepts in order, or stands still and at most sends a NACK. -/
theorem Flow.receiveUdp_cases {now : Nat} {p : DataPacket} {x : CheckSeq}
    {reply : Option AckPacket} (hb : hw.backto0 = false)
    (h : f.receiveUdp hw now p = some (x, reply, f')) :
    f'.qp = f.qp ∧ f'.inQpMap = f.inQpMap ∧ f'.completions = f.completions ∧
    ((p.seq = f.nextExpected ∧ x.accepts = true ∧
        f'.nextExpected = u32 (f.nextExpected + p.payload) ∧
        ∀ a ∈ reply, a.isNack = false ∧ a.seq = f'.nextExpected) ∨
      (x.accepts = false ∧ f'.nextExpected = f.nextExpected ∧
        ∀ a ∈ reply, a.isNack = true ∧ a.seq = f.nextExpected ∧ f.nextExpected < p.seq)) := by
  simp only [Flow.receiveUdp, Rdma.receiveUdp, Option.bind_eq_bind, Option.bind_eq_some_iff] at h
  obtain ⟨⟨x₁, q₁, r₁⟩, ⟨⟨x₂, q₂⟩, hcheck, hreply⟩, hout⟩ := h
  cases hout
  rcases receiverCheckSeq_cases hb hcheck with ⟨hseq, rfl | rfl, hq⟩ | ⟨hq, ⟨rfl, hlt⟩ | rfl | rfl⟩
  · cases hreply
    exact ⟨rfl, rfl, rfl, .inl ⟨hseq, rfl, hq, by rintro a ⟨⟩; exact ⟨rfl, rfl⟩⟩⟩
  · cases hreply
    exact ⟨rfl, rfl, rfl, .inl ⟨hseq, rfl, hq, by rintro a ⟨⟩⟩⟩
  · cases hreply
    exact ⟨rfl, rfl, rfl, .inr ⟨rfl, hq, by rintro a ⟨⟩; exact ⟨rfl, hq, hlt⟩⟩⟩
  · cases hreply
    exact ⟨rfl, rfl, rfl, .inr ⟨rfl, hq, by rintro a ⟨⟩⟩⟩
  · cases hreply
    exact ⟨rfl, rfl, rfl, .inr ⟨rfl, hq, by rintro a ⟨⟩⟩⟩

/-- The sender's queue pair after an ACK or NACK has been applied to it. -/
def afterAck (a : AckPacket) (q : RdmaQueuePair) : RdmaQueuePair :=
  if a.isNack then q.recoverQueue else q

@[simp] theorem afterAck_sndUna (a : AckPacket) (q : RdmaQueuePair) :
    (afterAck a q).sndUna = q.sndUna := by
  unfold afterAck
  split <;> rfl

@[simp] theorem afterAck_size (a : AckPacket) (q : RdmaQueuePair) :
    (afterAck a q).size = q.size := by
  unfold afterAck
  split <;> rfl

/-- The position an ACK acknowledges: in go-back-to-zero mode, that of the last whole chunk. -/
def ackedSeq (hw : RdmaHw) (seq : Nat) : Nat :=
  if hw.backto0 then seq / hw.chunk * hw.chunk else seq

theorem ackedSeq_le (hw : RdmaHw) (seq : Nat) : ackedSeq hw seq ≤ seq := by
  unfold ackedSeq
  split
  · exact Nat.div_mul_le_self seq hw.chunk
  · exact Nat.le_refl seq

theorem acknowledgeSeq_eq {seq : Nat} {q q' : RdmaQueuePair}
    (h : acknowledgeSeq hw seq q = some q') : q' = q.acknowledge (ackedSeq hw seq) := by
  unfold acknowledgeSeq at h
  unfold ackedSeq
  split at h
  · next hb =>
    rw [if_pos hb]
    split at h
    · cases h
    · exact (Option.some.inj h).symm
  · next hb =>
    rw [if_neg hb]
    exact (Option.some.inj h).symm

/-- An ACK is dropped, or only rolls back (ACKs are disabled), or is applied, and completes
the flow when it acknowledges all of it. -/
theorem Flow.receiveAck_acked {a : AckPacket} (h : f.receiveAck hw a = some f') :
    (f.inQpMap = false ∧ f' = f) ∨
    (f.inQpMap = true ∧ hw.ackInterval = 0 ∧ f' = { f with qp := afterAck a f.qp }) ∨
    (f.inQpMap = true ∧ hw.ackInterval ≠ 0 ∧
      (f.qp.acknowledge (ackedSeq hw a.seq)).isFinished = false ∧
      f' = { f with qp := afterAck a (f.qp.acknowledge (ackedSeq hw a.seq)) }) ∨
    (f.inQpMap = true ∧ hw.ackInterval ≠ 0 ∧
      (f.qp.acknowledge (ackedSeq hw a.seq)).isFinished = true ∧
      f' = { f.qpComplete with qp := afterAck a (f.qp.acknowledge (ackedSeq hw a.seq)) }) := by
  simp only [Flow.receiveAck, Option.bind_eq_bind] at h
  by_cases hmap : f.inQpMap = false
  · rw [if_pos hmap] at h
    cases h
    exact .inl ⟨hmap, rfl⟩
  -- the flow is still in the map
  · rw [if_neg hmap] at h
    rw [Bool.not_eq_false] at hmap
    by_cases hack : hw.ackInterval = 0
    · rw [if_pos hack] at h
      cases h
      refine .inr (.inl ⟨hmap, hack, ?_⟩)
      unfold afterAck
      cases a.isNack <;> rfl
    · rw [if_neg hack] at h
      simp only [Option.bind_some] at h
      obtain ⟨qp, hqp, h⟩ := Option.bind_eq_some_iff.mp h
      obtain rfl := acknowledgeSeq_eq hqp
      cases hfin : (f.qp.acknowledge (ackedSeq hw a.seq)).isFinished with
      | false =>
        simp only [hfin, Bool.false_eq_true, if_false, Option.some.injEq] at h
        refine .inr (.inr (.inl ⟨hmap, hack, rfl, ?_⟩))
        rw [← h]
        unfold afterAck
        cases a.isNack <;> rfl
      | true =>
        simp only [hfin, if_true, Option.some.injEq] at h
        refine .inr (.inr (.inr ⟨hmap, hack, rfl, ?_⟩))
        rw [← h]
        unfold afterAck Flow.qpComplete
        cases a.isNack <;> rfl

/-- Without go-back-to-zero, what is acknowledged is the sequence number of the ACK. -/
theorem Flow.receiveAck_cases {a : AckPacket} (hb : hw.backto0 = false)
    (h : f.receiveAck hw a = some f') :
    (f.inQpMap = false ∧ f' = f) ∨
    (f.inQpMap = true ∧ hw.ackInterval = 0 ∧ f' = { f with qp := afterAck a f.qp }) ∨
    (f.inQpMap = true ∧ hw.ackInterval ≠ 0 ∧ (f.qp.acknowledge a.seq).isFinished = false ∧
      f' = { f with qp := afterAck a (f.qp.acknowledge a.seq) }) ∨
    (f.inQpMap = true ∧ hw.ackInterval ≠ 0 ∧ (f.qp.acknowledge a.seq).isFinished = true ∧
      f' = { f.qpComplete with qp := afterAck a (f.qp.acknowledge a.seq) }) := by
  have hseq : ackedSeq hw a.seq = a.seq := if_neg (by simp [hb])
  simpa only [hseq] using Flow.receiveAck_acked h

end Spec

end Paraleon.Rdma
