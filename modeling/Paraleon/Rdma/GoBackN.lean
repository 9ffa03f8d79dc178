import Paraleon.Library.Runs
import Paraleon.Library.Tiling
import Paraleon.Rdma.Hw

/-!
# Go-back-N over an arbitrary network

One flow over a network that may drop, delay, duplicate and reorder data
packets, ACKs and NACKs. The network keeps everything that was ever sent, and
any of it may be delivered at any time, any number of times, with any ECN mark.

The invariant that carries every interleaving: every data packet ever sent lies
inside the flow, and while the flow is active every ACK or NACK ever sent and
`snd_una` are at most `ReceiverNextExpectedSeq`. Rollbacks of `snd_nxt` and the
re-segmentation they cause do not enter it.
-/

namespace Paraleon.Rdma.GoBackN

open Words Tiling Runs

/-! ## The system -/

/-- The flow, every packet sent so far, and the sequence ranges the receiver has
accepted (return values `1` and `5` of `ReceiverCheckSeq`), in order. -/
structure Net where
  flow : Flow
  dataSent : List DataPacket
  acksSent : List AckPacket
  accepted : List (Nat × Nat)
deriving DecidableEq, Repr

inductive Event where
  /-- The NIC takes the next packet of the flow. -/
  | transmit
  /-- Data packet number `i` arrives at time `now` with the given ECN bits. -/
  | deliverData (i ecnbits now : Nat)
  /-- ACK or NACK number `i` arrives. -/
  | deliverAck (i : Nat)
  /-- Congestion control sets the rate, on which a variable window depends. -/
  | changeRate (rate : Nat)
deriving DecidableEq, Repr

def Net.start (f : Flow) : Net := { flow := f, dataSent := [], acksSent := [], accepted := [] }

def step (hw : RdmaHw) (s : Net) : Event → Option Net
  | .transmit => do
    let (p, f) ← s.flow.transmit hw
    some { s with flow := f, dataSent := s.dataSent ++ [p] }
  | .deliverData i ecnbits now => do
    let p ← s.dataSent[i]?
    let (x, reply, f) ← s.flow.receiveUdp hw now { p with ecnbits }
    some { s with
      flow := f
      acksSent := s.acksSent ++ reply.toList
      accepted := if x.accepts then s.accepted ++ [(p.seq, p.payload)] else s.accepted }
  | .deliverAck i => do
    let a ← s.acksSent[i]?
    let f ← s.flow.receiveAck hw a
    some { s with flow := f }
  | .changeRate rate => some { s with flow := { s.flow with qp := s.flow.qp.changeRate rate } }

/-! ## The invariant -/

/-- What holds of the receiver and of the acknowledgements of an active flow. -/
structure Active (s : Net) : Prop where
  acks : ∀ a ∈ s.acksSent, a.seq ≤ s.flow.nextExpected
  una : s.flow.qp.sndUna ≤ s.flow.nextExpected
  expected : s.flow.nextExpected ≤ s.flow.qp.size
  tiles : Tiles 0 s.accepted s.flow.nextExpected

structure Inv (size : Nat) (s : Net) : Prop where
  size_eq : s.flow.qp.size = size
  small : s.flow.qp.size < 2 ^ 32
  data : ∀ p ∈ s.dataSent, 0 < p.payload ∧ p.seq + p.payload ≤ s.flow.qp.size
  active : s.flow.inQpMap = true → Active s

theorem inv_start (f : Flow) (hsize : f.qp.size < 2 ^ 32) (hrx : f.rxQp = none)
    (huna : f.qp.sndUna = 0) : Inv f.qp.size (Net.start f) where
  size_eq := rfl
  small := hsize
  data := fun p hp => absurd hp List.not_mem_nil
  active := fun _ => by
    have hexp : f.nextExpected = 0 := by rw [Flow.nextExpected, hrx]; rfl
    exact ⟨fun a ha => absurd ha List.not_mem_nil, by simp [Net.start, huna],
      by simp [Net.start, hexp], hexp.symm⟩

/-- The sender only moves its send pointer, or its rate. -/
theorem Active.of_sender {s t : Net} (h : Active s) (hacks : t.acksSent = s.acksSent)
    (hacc : t.accepted = s.accepted) (hrx : t.flow.nextExpected = s.flow.nextExpected)
    (hsize : t.flow.qp.size = s.flow.qp.size) (huna : t.flow.qp.sndUna ≤ s.flow.nextExpected) :
    Active t where
  acks := by rw [hacks, hrx]; exact h.acks
  una := by rw [hrx]; exact huna
  expected := by rw [hrx, hsize]; exact h.expected
  tiles := by rw [hacc, hrx]; exact h.tiles

theorem inv_transmit {hw : RdmaHw} (hmtu : 0 < hw.mtu) {n : Nat} {s t : Net} (h : Inv n s)
    (hstep : step hw s .transmit = some t) : Inv n t := by
  simp only [step, Option.bind_eq_bind, Option.bind_eq_some_iff] at hstep
  obtain ⟨⟨p, f⟩, hsend, ht⟩ := hstep
  obtain ⟨hleft, rfl, rfl⟩ := Flow.transmit_cases hsend
  cases ht
  refine ⟨h.size_eq, h.small, fun p hp => ?_, fun hmap => (h.active hmap).of_sender rfl rfl rfl rfl
    (h.active hmap).una⟩
  rcases List.mem_append.mp hp with hp | hp
  · exact h.data p hp
  · rw [List.mem_singleton.mp hp]
    have hpos := getNxtPacket_payload_pos hmtu h.small hleft
    have hpay := getNxtPacket_payload_le hw s.flow.qp
    have hseq := u32_le s.flow.qp.sndNxt
    refine ⟨hpos, ?_⟩
    simp only [getNxtPacket_seq, getNxtPacket_size]
    omega

/-- A delivery moves the receiver by exactly the packet it accepts. -/
theorem inv_deliverData {hw : RdmaHw} (hb : hw.backto0 = false) {n : Nat} {s t : Net}
    {i ecnbits now : Nat} (h : Inv n s) (hstep : step hw s (.deliverData i ecnbits now) = some t) :
    Inv n t := by
  simp only [step, Option.bind_eq_bind, Option.bind_eq_some_iff] at hstep
  obtain ⟨p, hp, ⟨x, reply, f⟩, hrecv, ht⟩ := hstep
  -- the packet was sent within the flow
  obtain ⟨hpos, hfit⟩ := h.data p (List.mem_of_getElem? hp)
  obtain ⟨hqp, hmap, -, hcase⟩ := Flow.receiveUdp_cases hb hrecv
  cases ht
  refine ⟨by simpa only [hqp] using h.size_eq, by simpa only [hqp] using h.small,
    by simpa only [hqp] using h.data, fun hact => ?_⟩
  have hs := h.active (hmap ▸ hact)
  have hsmall := h.small
  rcases hcase with ⟨hseq, hx, hnext, hreply⟩ | ⟨hx, hnext, hreply⟩
  · -- accepted: the packet starts where the accepted ranges end
    have hseq' : p.seq = s.flow.nextExpected := hseq
    have hnext' : f.nextExpected = s.flow.nextExpected + p.payload :=
      hnext.trans (u32_of_lt (show s.flow.nextExpected + p.payload < 2 ^ 32 by omega))
    refine ⟨fun a ha => ?_, ?_, ?_, ?_⟩
    · rcases List.mem_append.mp ha with ha | ha
      · have := hs.acks a ha
        show a.seq ≤ f.nextExpected
        omega
      · exact Nat.le_of_eq (hreply a (Option.mem_toList.mp ha)).2
    · have := hs.una
      show f.qp.sndUna ≤ f.nextExpected
      rw [hqp]
      omega
    · show f.nextExpected ≤ f.qp.size
      rw [hqp]
      omega
    · show Tiles 0 (if x.accepts = true then s.accepted ++ [(p.seq, p.payload)] else s.accepted)
        f.nextExpected
      rw [if_pos hx, hnext', hseq']
      exact hs.tiles.snoc hpos
  · -- refused: the receiver stands still, a NACK names its position
    refine ⟨fun a ha => ?_, ?_, ?_, ?_⟩
    · rcases List.mem_append.mp ha with ha | ha
      · show a.seq ≤ f.nextExpected
        rw [hnext]
        exact hs.acks a ha
      · show a.seq ≤ f.nextExpected
        rw [hnext]
        exact Nat.le_of_eq (hreply a (Option.mem_toList.mp ha)).2.1
    · show f.qp.sndUna ≤ f.nextExpected
      rw [hqp, hnext]
      exact hs.una
    · show f.nextExpected ≤ f.qp.size
      rw [hqp, hnext]
      exact hs.expected
    · show Tiles 0 (if x.accepts = true then s.accepted ++ [(p.seq, p.payload)] else s.accepted)
        f.nextExpected
      rw [if_neg (by simp [hx]), hnext]
      exact hs.tiles

theorem inv_deliverAck {hw : RdmaHw} (hb : hw.backto0 = false) {n : Nat} {s t : Net} {i : Nat}
    (h : Inv n s) (hstep : step hw s (.deliverAck i) = some t) : Inv n t := by
  simp only [step, Option.bind_eq_bind, Option.bind_eq_some_iff] at hstep
  obtain ⟨a, ha, f, hrecv, ht⟩ := hstep
  have hmem := List.mem_of_getElem? ha
  cases ht
  rcases Flow.receiveAck_cases hb hrecv with ⟨hmap, rfl⟩ | ⟨hmap, -, rfl⟩ | ⟨hmap, -, -, rfl⟩ |
    ⟨hmap, -, -, rfl⟩
  · exact h
  · have hs := h.active hmap
    exact ⟨by simpa using h.size_eq, by simpa using h.small, by simpa using h.data, fun _ =>
      hs.of_sender rfl rfl rfl (by simp) (by simpa using hs.una)⟩
  · have hs := h.active hmap
    have hmax : max s.flow.qp.sndUna a.seq ≤ s.flow.nextExpected :=
      Nat.max_le.mpr ⟨hs.una, hs.acks a hmem⟩
    exact ⟨by simpa using h.size_eq, by simpa using h.small, by simpa using h.data, fun _ =>
      hs.of_sender rfl rfl rfl (by simp) (by simpa using hmax)⟩
  · exact ⟨by simpa [Flow.qpComplete] using h.size_eq, by simpa [Flow.qpComplete] using h.small,
      by simpa [Flow.qpComplete] using h.data, fun hact => absurd hact (by simp [Flow.qpComplete])⟩

theorem inv_step {hw : RdmaHw} (hb : hw.backto0 = false) (hmtu : 0 < hw.mtu) {n : Nat} (s : Net)
    (e : Event) (t : Net) (h : Inv n s) (hstep : step hw s e = some t) : Inv n t := by
  cases e with
  | transmit => exact inv_transmit hmtu h hstep
  | deliverData i ecnbits now => exact inv_deliverData hb h hstep
  | deliverAck i => exact inv_deliverAck hb h hstep
  | changeRate rate =>
    cases hstep
    exact ⟨h.size_eq, h.small, h.data, fun hmap => (h.active hmap).of_sender rfl rfl rfl rfl
      (h.active hmap).una⟩

/-- `QpComplete` is called only when the receiver has everything. -/
theorem complete_step {hw : RdmaHw} (hb : hw.backto0 = false) {n : Nat} {s t : Net} {e : Event}
    (h : Inv n s) (hstep : step hw s e = some t) (hdone : t.flow.completions ≠ s.flow.completions) :
    s.flow.inQpMap = true ∧ s.flow.nextExpected = s.flow.qp.size := by
  cases e with
  | transmit =>
    simp only [step, Option.bind_eq_bind, Option.bind_eq_some_iff] at hstep
    obtain ⟨⟨p, f⟩, hsend, ht⟩ := hstep
    obtain ⟨-, -, rfl⟩ := Flow.transmit_cases hsend
    cases ht
    exact absurd rfl hdone
  | deliverData i ecnbits now =>
    simp only [step, Option.bind_eq_bind, Option.bind_eq_some_iff] at hstep
    obtain ⟨p, -, ⟨x, reply, f⟩, hrecv, ht⟩ := hstep
    cases ht
    exact absurd (Flow.receiveUdp_cases hb hrecv).2.2.1 hdone
  | deliverAck i =>
    simp only [step, Option.bind_eq_bind, Option.bind_eq_some_iff] at hstep
    obtain ⟨a, ha, f, hrecv, ht⟩ := hstep
    have hmem := List.mem_of_getElem? ha
    cases ht
    rcases Flow.receiveAck_cases hb hrecv with ⟨-, rfl⟩ | ⟨-, -, rfl⟩ | ⟨-, -, -, rfl⟩ |
      ⟨hmap, -, hfin, -⟩
    · exact absurd rfl hdone
    · exact absurd rfl hdone
    · exact absurd rfl hdone
    · have hs := h.active hmap
      -- what is acknowledged is at most what the receiver expects, and that at most the size
      have hle := RdmaQueuePair.isFinished_iff.mp hfin
      have := hs.una
      have := hs.acks a hmem
      have := hs.expected
      simp only [RdmaQueuePair.acknowledge_size, RdmaQueuePair.acknowledge_sndUna] at hle
      exact ⟨hmap, by omega⟩
  | changeRate rate =>
    cases hstep
    exact absurd rfl hdone

/-! ## Safety of every run -/

/-- In every state of every run up to completion, `snd_una` is at most
`ReceiverNextExpectedSeq`, which is at most the flow size; the accepted ranges
are contiguous, come in order without overlap and cover exactly
`[0, ReceiverNextExpectedSeq)`; and `QpComplete` is called only in a state in
which they cover the whole flow. -/
theorem goBackN_safe {hw : RdmaHw} (hb : hw.backto0 = false) (hmtu : 0 < hw.mtu) (size : UInt64)
    (hsize : size.toNat < 2 ^ 32) (win : UInt32) (varWin : Bool) (bps : UInt64) {s : Net}
    (h : Reachable (step hw) (Net.start (Flow.start size win varWin bps)) s) :
    (s.flow.inQpMap = true →
      s.flow.qp.sndUna ≤ s.flow.nextExpected ∧ s.flow.nextExpected ≤ size.toNat ∧
      Tiles 0 s.accepted s.flow.nextExpected ∧
      (s.accepted.Pairwise fun r r' => r.1 + r.2 ≤ r'.1) ∧
      ∀ b, (∃ r ∈ s.accepted, r.1 ≤ b ∧ b < r.1 + r.2) ↔ b < s.flow.nextExpected) ∧
    ∀ e t, step hw s e = some t → t.flow.completions ≠ s.flow.completions →
      s.flow.nextExpected = size.toNat ∧ Tiles 0 s.accepted size.toNat := by
  have hinv : Inv size.toNat s := h.invariant
    (inv_start (Flow.start size win varWin bps) hsize rfl rfl) (inv_step hb hmtu)
  rw [← hinv.size_eq]
  constructor
  · intro hmap
    have hs := hinv.active hmap
    refine ⟨hs.una, hs.expected, hs.tiles, hs.tiles.ordered, fun b => ?_⟩
    rw [hs.tiles.cover b]
    exact ⟨And.right, fun hb => ⟨Nat.zero_le b, hb⟩⟩
  · intro e t hstep hdone
    obtain ⟨hmap, hfull⟩ := complete_step hb hinv hstep hdone
    exact ⟨hfull, hfull ▸ (hinv.active hmap).tiles⟩

/-- A flow of 1500 bytes whose two packets arrive in the wrong order: the
second is refused with a NACK, then both are taken and the last ACK completes
the flow. -/
def exRun : List Event :=
  [.transmit, .transmit, .deliverData 1 0 10, .deliverData 0 0 20, .deliverAck 0,
    .deliverData 1 3 30, .deliverAck 1]

/-- The state of that flow just before its last ACK arrives. -/
def exFull : Net :=
  { flow :=
      { qp := { size := 1500, sndNxt := 0, sndUna := 1000, win := 0, varWin := false,
                rate := 100, maxRate := 100 },
        inQpMap := true,
        rxQp := some { receiverNextExpectedSeq := 1500, nackTimer := 500010, milestoneRx := 2,
                       lastNACK := 0 },
        completions := 0 },
    dataSent := [⟨0, 1000, 0⟩, ⟨1000, 500, 0⟩],
    acksSent := [⟨true, 0, false⟩, ⟨false, 1000, false⟩, ⟨false, 1500, true⟩],
    accepted := [(0, 1000), (1000, 500)] }

/-- The state after it: the flow is complete. -/
def exDone : Net :=
  { exFull with
    flow := { exFull.flow.qpComplete with qp := { exFull.flow.qp with sndUna := 1500 } } }

theorem goBackN_safe_reordered :
    exFull.flow.nextExpected = 1500 ∧ Tiles 0 exFull.accepted 1500 := by
  have hreach : Reachable (step RdmaHw.shipped) (Net.start (Flow.start 1500 0 false 100)) exFull :=
    ⟨exRun, by decide⟩
  have hlast : step RdmaHw.shipped exFull (.deliverAck 2) = some exDone := by decide
  exact (goBackN_safe rfl (by decide) 1500 (by decide) 0 false 100 hreach).2 _ _ hlast (by decide)

end Paraleon.Rdma.GoBackN
