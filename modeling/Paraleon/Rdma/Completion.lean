import Paraleon.Rdma.Acks
import Paraleon.Rdma.GoBackN

/-!
# Which flows complete

One flow over an arbitrary network, with every setting of `RdmaHw`. `ReceiveAck` ignores
ACKs when `L2AckInterval` is zero, and in go-back-to-zero mode takes only whole chunks of
what they acknowledge; sequence numbers have 32 bits.

* `completes_iff`: the final ACK completes the flow, once and for all, exactly when ACKs are
  enabled and its sequence number is the size of the flow, cut to whole chunks or not.
-/

namespace Paraleon.Rdma.Completion

open Words Runs GoBackN

variable {hw : RdmaHw} {s t : Net}

/-! ## The bounds of a run -/

/-- The receiver moves to the end of the packet it expects, or it does not move forward; a
reply names its position. -/
theorem receiveUdp_bound {f f' : Flow} {now : Nat} {p : DataPacket} {x : CheckSeq}
    {reply : Option AckPacket} (h : f.receiveUdp hw now p = some (x, reply, f')) :
    f'.qp = f.qp ∧ f'.inQpMap = f.inQpMap ∧ f'.completions = f.completions ∧
      (f'.nextExpected ≤ f.nextExpected ∨
        p.seq = f.nextExpected ∧ f'.nextExpected = u32 (p.seq + p.payload)) ∧
      ∀ a ∈ reply, a.seq = f'.nextExpected := by
  simp only [Flow.receiveUdp, Option.bind_eq_bind, Option.bind_eq_some_iff] at h
  obtain ⟨⟨x₁, q, reply₁⟩, hreceive, hout⟩ := h
  cases hout
  rw [receiveUdp_eq, Option.map_eq_some_iff] at hreceive
  obtain ⟨⟨x₂, q₂⟩, hcheck, hreply⟩ := hreceive
  cases hreply
  refine ⟨rfl, rfl, rfl, ?_, ?_⟩
  · change q.receiverNextExpectedSeq ≤ (beforeCheck hw f.rxQp).receiverNextExpectedSeq ∨
      p.seq = (beforeCheck hw f.rxQp).receiverNextExpectedSeq ∧
        q.receiverNextExpectedSeq = u32 (p.seq + p.payload)
    generalize beforeCheck hw f.rxQp = q₀ at hcheck ⊢
    -- behind the mark, at it, or beyond it
    rcases Nat.lt_trichotomy p.seq q₀.receiverNextExpectedSeq with hlt | heq | hgt
    · left
      simp only [receiverCheckSeq, if_neg (Nat.ne_of_lt hlt), if_neg (Nat.lt_asymm hlt)] at hcheck
      cases hcheck
      exact Nat.le_refl _
    · right
      refine ⟨heq, ?_⟩
      simp only [receiverCheckSeq, heq, if_true] at hcheck ⊢
      split at hcheck
      · cases hcheck; rfl
      · split at hcheck
        · cases hcheck
        · split at hcheck
          · cases hcheck; rfl
          · cases hcheck; rfl
    · left
      simp only [receiverCheckSeq, if_neg (Nat.ne_of_gt hgt), if_pos hgt] at hcheck
      split at hcheck
      · split at hcheck
        · split at hcheck
          · cases hcheck
          · cases hcheck
            -- a chunk that starts again rounds the mark down
            exact Nat.div_mul_le_self _ _
        · cases hcheck
          exact Nat.le_refl _
      · cases hcheck
        exact Nat.le_refl _
  · intro a ha
    split at ha
    · cases ha; rfl
    · cases ha

/-- Nothing that is sent, expected or acknowledged lies beyond the flow, or needs more than
32 bits; and `snd_una` is where an ACK has put it. -/
structure Bounded (hw : RdmaHw) (size : Nat) (s : Net) : Prop where
  size_eq : s.flow.qp.size = size
  data : ∀ p ∈ s.dataSent, p.seq + p.payload ≤ size
  acks : ∀ a ∈ s.acksSent, a.seq ≤ size ∧ a.seq < 2 ^ 32
  expected : s.flow.nextExpected ≤ size ∧ s.flow.nextExpected < 2 ^ 32
  una : s.flow.qp.sndUna = 0 ∨ hw.ackInterval ≠ 0 ∧
    ∃ seq ≤ size, seq < 2 ^ 32 ∧ s.flow.qp.sndUna = ackedSeq hw seq

/-- A flow leaves `m_qpMap` with its last byte acknowledged, in the one call of
`QpComplete`. -/
structure Settled (s : Net) : Prop where
  active : s.flow.inQpMap = true → s.flow.completions = 0 ∧ s.flow.qp.sndUna < s.flow.qp.size
  complete : s.flow.inQpMap = false → s.flow.completions = 1 ∧ s.flow.qp.size ≤ s.flow.qp.sndUna

theorem bounded_start (hw : RdmaHw) {f : Flow} (hrx : f.rxQp = none) (huna : f.qp.sndUna = 0) :
    Bounded hw f.qp.size (Net.start f) where
  size_eq := rfl
  data := fun p hp => absurd hp List.not_mem_nil
  acks := fun a ha => absurd ha List.not_mem_nil
  expected := by
    have hexp : f.nextExpected = 0 := by rw [Flow.nextExpected, hrx]; rfl
    simp [Net.start, hexp]
  una := .inl huna

theorem bounded_step {size : Nat} {e : Event} (h : Bounded hw size s)
    (hstep : step hw s e = some t) : Bounded hw size t := by
  cases e with
  | transmit =>
    simp only [step, Option.bind_eq_bind, Option.bind_eq_some_iff] at hstep
    obtain ⟨⟨p, f⟩, hsend, ht⟩ := hstep
    obtain ⟨hleft, rfl, rfl⟩ := Flow.transmit_cases hsend
    cases ht
    refine ⟨h.size_eq, fun p hp => ?_, h.acks, h.expected, h.una⟩
    rcases List.mem_append.mp hp with hp | hp
    · exact h.data p hp
    · rw [List.mem_singleton.mp hp]
      change (getNxtPacket hw s.flow.qp).1.seq + (getNxtPacket hw s.flow.qp).1.payload ≤ size
      have hseq := u32_le s.flow.qp.sndNxt
      rw [getNxtPacket_seq]
      have hpay := getNxtPacket_payload_le hw s.flow.qp
      have hsize := h.size_eq
      rw [RdmaQueuePair.getBytesLeft_eq] at hleft
      omega
  | deliverData i ecnbits now =>
    simp only [step, Option.bind_eq_bind, Option.bind_eq_some_iff] at hstep
    obtain ⟨p, hp, ⟨x, reply, f⟩, hreceive, ht⟩ := hstep
    have hfit := h.data p (List.mem_of_getElem? hp)
    obtain ⟨hqp, -, -, hnext, hreply⟩ := receiveUdp_bound hreceive
    cases ht
    -- the mark is unchanged or the end of a packet, and always a 32-bit number
    have hexpected : f.nextExpected ≤ size ∧ f.nextExpected < 2 ^ 32 := by
      rcases hnext with hle | ⟨-, heq⟩
      · exact ⟨Nat.le_trans hle h.expected.1, Nat.lt_of_le_of_lt hle h.expected.2⟩
      · rw [heq]
        exact ⟨Nat.le_trans (u32_le _) hfit, u32_lt _⟩
    refine ⟨by simpa only [hqp] using h.size_eq, h.data, fun a ha => ?_, hexpected,
      by simpa only [hqp] using h.una⟩
    rcases List.mem_append.mp ha with ha | ha
    · exact h.acks a ha
    · rw [hreply a (Option.mem_toList.mp ha)]
      exact hexpected
  | deliverAck i =>
    simp only [step, Option.bind_eq_bind, Option.bind_eq_some_iff] at hstep
    obtain ⟨a, ha, f, hreceive, ht⟩ := hstep
    cases ht
    obtain ⟨hle, hlt⟩ := h.acks a (List.mem_of_getElem? ha)
    -- with an ACK interval `snd_una` only takes values that an ACK has acknowledged
    have huna (hack : hw.ackInterval ≠ 0) :
        max s.flow.qp.sndUna (ackedSeq hw a.seq) = 0 ∨ hw.ackInterval ≠ 0 ∧ ∃ seq ≤ size,
          seq < 2 ^ 32 ∧ max s.flow.qp.sndUna (ackedSeq hw a.seq) = ackedSeq hw seq := by
      rcases Nat.le_total s.flow.qp.sndUna (ackedSeq hw a.seq) with hmax | hmax
      · rw [Nat.max_eq_right hmax]
        exact .inr ⟨hack, a.seq, hle, hlt, rfl⟩
      · rw [Nat.max_eq_left hmax]
        exact h.una
    rcases Flow.receiveAck_acked hreceive with ⟨-, rfl⟩ | ⟨-, -, rfl⟩ | ⟨-, hack, -, rfl⟩ |
      ⟨-, hack, -, rfl⟩
    · exact h
    · exact ⟨by simpa using h.size_eq, h.data, h.acks, h.expected, by simpa using h.una⟩
    · exact ⟨by simpa using h.size_eq, h.data, h.acks, h.expected, by simpa using huna hack⟩
    · exact ⟨by simpa [Flow.qpComplete] using h.size_eq, h.data, h.acks,
        ⟨Nat.zero_le _, Nat.two_pow_pos 32⟩, by simpa [Flow.qpComplete] using huna hack⟩
  | changeRate rate =>
    cases hstep
    exact ⟨h.size_eq, h.data, h.acks, h.expected, h.una⟩

theorem settled_start {size : UInt64} (hsize : 0 < size.toNat) (win : UInt32) (varWin : Bool)
    (bps : UInt64) : Settled (Net.start (Flow.start size win varWin bps)) where
  active := fun _ => ⟨rfl, hsize⟩
  complete := fun h => by cases h

/-- A step that leaves the acknowledged part alone. -/
theorem Settled.of_same (h : Settled s) (hmap : t.flow.inQpMap = s.flow.inQpMap)
    (hcompletions : t.flow.completions = s.flow.completions)
    (huna : t.flow.qp.sndUna = s.flow.qp.sndUna) (hsize : t.flow.qp.size = s.flow.qp.size) :
    Settled t where
  active := by rw [hmap, hcompletions, huna, hsize]; exact h.active
  complete := by rw [hmap, hcompletions, huna, hsize]; exact h.complete

theorem settled_step {e : Event} (h : Settled s) (hstep : step hw s e = some t) : Settled t := by
  cases e with
  | transmit =>
    simp only [step, Option.bind_eq_bind, Option.bind_eq_some_iff] at hstep
    obtain ⟨⟨p, f⟩, hsend, ht⟩ := hstep
    obtain ⟨-, rfl, rfl⟩ := Flow.transmit_cases hsend
    cases ht
    exact h.of_same rfl rfl rfl rfl
  | deliverData i ecnbits now =>
    simp only [step, Option.bind_eq_bind, Option.bind_eq_some_iff] at hstep
    obtain ⟨p, -, ⟨x, reply, f⟩, hreceive, ht⟩ := hstep
    obtain ⟨hqp, hmap, hcompletions, -, -⟩ := receiveUdp_bound hreceive
    cases ht
    exact h.of_same hmap hcompletions (congrArg _ hqp) (congrArg _ hqp)
  | deliverAck i =>
    simp only [step, Option.bind_eq_bind, Option.bind_eq_some_iff] at hstep
    obtain ⟨a, -, f, hreceive, ht⟩ := hstep
    cases ht
    rcases Flow.receiveAck_acked hreceive with ⟨-, rfl⟩ | ⟨-, -, rfl⟩ | ⟨hmap, -, hopen, rfl⟩ |
      ⟨hmap, -, hdone, rfl⟩
    · exact h
    · exact h.of_same rfl rfl (by simp) (by simp)
    · refine ⟨fun _ => ⟨(h.active hmap).1, ?_⟩, fun hout => by simp [hmap] at hout⟩
      simpa [RdmaQueuePair.isFinished] using hopen
    · refine ⟨fun hin => by simp [Flow.qpComplete] at hin, fun _ => ⟨?_, ?_⟩⟩
      · simp [Flow.qpComplete, (h.active hmap).1]
      · simpa [RdmaQueuePair.isFinished] using hdone
  | changeRate rate =>
    cases hstep
    exact h.of_same rfl rfl rfl rfl

/-! ## The final ACK -/

/-- ACKs are enabled, the size of the flow has 32 bits, and in go-back-to-zero mode it is a
multiple of the chunk size. -/
def Completable (hw : RdmaHw) (size : Nat) : Prop :=
  hw.ackInterval ≠ 0 ∧ size < 2 ^ 32 ∧ (hw.backto0 = true → hw.chunk ∣ size)

theorem ackedSeq_eq_self {seq : Nat} (h : hw.backto0 = true → hw.chunk ∣ seq) :
    ackedSeq hw seq = seq := by
  unfold ackedSeq
  split
  · next hb => exact Nat.div_mul_cancel (h hb)
  · rfl

/-- Only completable flows come to their end. -/
theorem completable_of_finished {size : Nat} (hsize : 0 < size) (h : Bounded hw size s)
    (hfin : s.flow.qp.isFinished = true) : Completable hw size := by
  rw [RdmaQueuePair.isFinished_iff, h.size_eq] at hfin
  rcases h.una with hzero | ⟨hack, seq, hle, hlt, huna⟩
  · omega
  · have hcut := ackedSeq_le hw seq
    obtain rfl : seq = size := by omega
    refine ⟨hack, hlt, fun hb => ?_⟩
    have heq : seq / hw.chunk * hw.chunk = seq := by
      rw [ackedSeq, if_pos hb] at huna
      have := Nat.div_mul_le_self seq hw.chunk
      omega
    exact ⟨seq / hw.chunk, by rw [Nat.mul_comm, heq]⟩

/-- The final ACK of a completable flow completes it. -/
theorem finished_of_completable {size i : Nat} {a : AckPacket} (hb : Bounded hw size s)
    (h : Completable hw size) (hack : s.acksSent[i]? = some a) (hfinal : a.seq = size)
    (hstep : step hw s (.deliverAck i) = some t) :
    t.flow.inQpMap = false := by
  simp only [step, Option.bind_eq_bind, Option.bind_eq_some_iff] at hstep
  obtain ⟨a', ha', f, hreceive, ht⟩ := hstep
  obtain rfl : a' = a := Option.some.inj (ha'.symm.trans hack)
  cases ht
  have hseq : ackedSeq hw a'.seq = size := hfinal ▸ ackedSeq_eq_self (hfinal ▸ h.2.2)
  rcases Flow.receiveAck_acked hreceive with ⟨hmap, rfl⟩ | ⟨-, hzero, -⟩ | ⟨-, -, hopen, -⟩ |
    ⟨-, -, -, rfl⟩
  · exact hmap
  · exact absurd hzero h.1
  · have hsize := hb.size_eq
    simp only [RdmaQueuePair.isFinished, RdmaQueuePair.acknowledge_sndUna,
      RdmaQueuePair.acknowledge_size, hseq, hsize, decide_eq_false_iff_not] at hopen
    exact absurd (Nat.le_max_right _ _) hopen
  · rfl

theorem completed_step {e : Event} (h : s.flow.inQpMap = false) (hstep : step hw s e = some t) :
    t.flow.inQpMap = false := by
  cases e with
  | transmit =>
    simp only [step, Option.bind_eq_bind, Option.bind_eq_some_iff] at hstep
    obtain ⟨⟨p, f⟩, hsend, ht⟩ := hstep
    obtain ⟨-, rfl, rfl⟩ := Flow.transmit_cases hsend
    cases ht
    exact h
  | deliverData i ecnbits now =>
    simp only [step, Option.bind_eq_bind, Option.bind_eq_some_iff] at hstep
    obtain ⟨p, -, ⟨x, reply, f⟩, hreceive, ht⟩ := hstep
    cases ht
    exact (receiveUdp_bound hreceive).2.1.trans h
  | deliverAck i =>
    simp only [step, Option.bind_eq_bind, Option.bind_eq_some_iff] at hstep
    obtain ⟨a, -, f, hreceive, ht⟩ := hstep
    cases ht
    rcases Flow.receiveAck_acked hreceive with ⟨-, rfl⟩ | ⟨hmap, -⟩ | ⟨hmap, -⟩ | ⟨hmap, -⟩
    · exact h
    · simp [hmap] at h
    · simp [hmap] at h
    · simp [hmap] at h
  | changeRate rate =>
    cases hstep
    exact h

/-- When an ACK for the last byte has arrived, the flow is finished and has been completed
exactly once, in the state after it and in all later ones, exactly when it is completable. -/
theorem completes_iff (size : UInt64) (hsize : 0 < size.toNat) (win : UInt32) (varWin : Bool)
    (bps : UInt64) {es fs : List Event} {u : Net} {i : Nat} {a : AckPacket}
    (hrun : run (step hw) (Net.start (Flow.start size win varWin bps)) es = some s)
    (hack : s.acksSent[i]? = some a) (hfinal : a.seq = u32 size.toNat)
    (hstep : step hw s (.deliverAck i) = some t) (hrest : run (step hw) t fs = some u) :
    (t.flow.qp.isFinished = true ∧ u.flow.qp.isFinished = true ∧ u.flow.completions = 1) ↔
      Completable hw size.toNat := by
  have hb : Bounded hw size.toNat s := run_invariant (fun _ _ _ h hs => bounded_step h hs)
    (bounded_start hw (f := Flow.start size win varWin bps) rfl rfl) hrun
  have hs : Settled s := run_invariant (fun _ _ _ h hs => settled_step h hs)
    (settled_start hsize win varWin bps) hrun
  constructor
  · rintro ⟨hfin, -, -⟩
    exact completable_of_finished hsize (bounded_step hb hstep) hfin
  · intro h
    have hout := finished_of_completable hb h hack (hfinal.trans (u32_of_lt h.2.1)) hstep
    have hout' : u.flow.inQpMap = false :=
      run_invariant (fun _ _ _ h hs => completed_step h hs) hout hrest
    have ht := (settled_step hs hstep).complete hout
    have hu := (run_invariant (fun _ _ _ h hs => settled_step h hs) (settled_step hs hstep)
      hrest).complete hout'
    exact ⟨RdmaQueuePair.isFinished_iff.mpr ht.2, RdmaQueuePair.isFinished_iff.mpr hu.2, hu.1⟩

/-- The flow of 1500 bytes in two packets. A duplicate of the final ACK changes nothing. -/
theorem completes_iff_reordered :
    (exDone.flow.qp.isFinished = true ∧ exDone.flow.qp.isFinished = true ∧
      exDone.flow.completions = 1) ↔ Completable RdmaHw.shipped 1500 := by
  have hrun : run (step RdmaHw.shipped) (Net.start (Flow.start 1500 0 false 100)) exRun =
      some exFull := by decide
  have hlast : step RdmaHw.shipped exFull (.deliverAck 2) = some exDone := by decide
  have hagain : run (step RdmaHw.shipped) exDone [.deliverAck 2] = some exDone := by decide
  exact completes_iff 1500 (by decide) 0 false 100 hrun rfl rfl hlast hagain

/-- The same settings in go-back-to-zero mode. -/
def zeroHw : RdmaHw := { RdmaHw.shipped with backto0 := true }

/-- The receiver takes both packets, and its ACK for byte 1500 reaches the sender, which cuts
it to whole chunks of 4000 bytes: nothing is acknowledged and the flow never ends. -/
theorem zeroHw_never_completes :
    ∃ s t : Net, run (step zeroHw) (Net.start (Flow.start 1500 0 false 100))
        [.transmit, .transmit, .deliverData 0 0 10, .deliverData 1 0 20] = some s ∧
      s.accepted = [(0, 1000), (1000, 500)] ∧ s.acksSent[1]? = some ⟨false, 1500, false⟩ ∧
      step zeroHw s (.deliverAck 1) = some t ∧ t.flow.qp.sndUna = 0 ∧
      t.flow.qp.isFinished = false ∧ t.flow.completions = 0 := by
  let s : Net :=
    { flow :=
        { qp := { size := 1500, sndNxt := 1500, sndUna := 0, win := 0, varWin := false,
                  rate := 100, maxRate := 100 },
          inQpMap := true,
          rxQp := some { receiverNextExpectedSeq := 1500, nackTimer := 0, milestoneRx := 2,
                         lastNACK := 0 },
          completions := 0 },
      dataSent := [⟨0, 1000, 0⟩, ⟨1000, 500, 0⟩],
      acksSent := [⟨false, 1000, false⟩, ⟨false, 1500, false⟩],
      accepted := [(0, 1000), (1000, 500)] }
  exact ⟨s, s, by decide, rfl, rfl, by decide, rfl, rfl, rfl⟩

end Paraleon.Rdma.Completion
