import Mathlib.Data.List.Count
import Paraleon.Rdma.Hw

/-!
# The replies of a receiver

What one receive queue pair answers to the data packets that arrive.

`ReceiveUdp` puts the milestone back to `m_ack_interval` before each packet, so beyond the
first interval every packet is acknowledged; and it takes the CNP flag of a reply from the
packet it answers, so a mark on a packet without an answer is gone.

* `followsIntervals_iff`: the streams for which the ACKs keep to `L2AckInterval` and
  `L2ChunkSize`.
* `marksEchoed_iff`: every mark comes back exactly when every marked packet is answered.
-/

namespace Paraleon.Rdma

open Words

structure Arrival where
  now : Nat
  packet : DataPacket

/-- The replies to the packets in the order of their arrival. A division by zero ends the
program, and with it the list. -/
def replies (hw : RdmaHw) : Option RdmaRxQueuePair → List Arrival → List (Option AckPacket)
  | _, [] => []
  | rxQp, a :: as =>
    match receiveUdp hw a.now a.packet rxQp with
    | none => []
    | some (_, q, reply) => reply :: replies hw (some q) as

/-- The end of a packet lies at a multiple of a chunk size that is not zero. -/
def AtChunk (hw : RdmaHw) (seq : Nat) : Prop := hw.chunk ≠ 0 ∧ seq % hw.chunk = 0

instance (hw : RdmaHw) (seq : Nat) : Decidable (AtChunk hw seq) :=
  inferInstanceAs (Decidable (_ ∧ _))

/-- The expected packet is acknowledged when it ends at the milestone or beyond, or at a
multiple of the chunk size. -/
def Acked (hw : RdmaHw) (seq : Nat) : Prop := u32 hw.ackInterval ≤ seq ∨ AtChunk hw seq

instance (hw : RdmaHw) (seq : Nat) : Decidable (Acked hw seq) :=
  inferInstanceAs (Decidable (_ ∨ _))

/-! ## One packet -/

/-- The queue pair that `ReceiveUdp` hands to `ReceiverCheckSeq`. -/
def beforeCheck (hw : RdmaHw) (rxQp : Option RdmaRxQueuePair) : RdmaRxQueuePair :=
  { rxQp.getD .create with milestoneRx := u32 hw.ackInterval }

theorem receiveUdp_eq (hw : RdmaHw) (now : Nat) (p : DataPacket) (rxQp : Option RdmaRxQueuePair) :
    receiveUdp hw now p rxQp =
      (receiverCheckSeq hw now p.seq (beforeCheck hw rxQp) p.payload).map fun (x, q) =>
        (x, q, if x = .ack ∨ x = .nack then
          some { isNack := decide (x = .nack), seq := q.receiverNextExpectedSeq,
                 cnp := !hw.dcqcnPlusEnabled && p.ecnbits != 0 }
          else none) := by
  unfold receiveUdp
  change Option.bind (receiverCheckSeq hw now p.seq (beforeCheck hw rxQp) p.payload) _ = _
  cases receiverCheckSeq hw now p.seq (beforeCheck hw rxQp) p.payload with
  | none => rfl
  | some r =>
    obtain ⟨x, q⟩ := r
    cases x <;> rfl

section Expected

variable {hw : RdmaHw} {p : DataPacket} {rxQp : Option RdmaRxQueuePair} (now : Nat)

/-- Below the milestone, the remainder by a chunk size of zero ends the program. -/
theorem receiveUdp_division (hseq : p.seq = (rxQp.getD .create).receiverNextExpectedSeq)
    (hchunk : hw.chunk = 0) (hlt : u32 (p.seq + p.payload) < u32 hw.ackInterval) :
    receiveUdp hw now p rxQp = none := by
  simp only [receiveUdp, receiverCheckSeq, ← hseq, if_true, if_neg (Nat.not_le_of_lt hlt),
    if_pos hchunk]
  rfl

/-- What `ReceiveUdp` does with the packet it expects. -/
theorem receiveUdp_expected (hseq : p.seq = (rxQp.getD .create).receiverNextExpectedSeq)
    (h : hw.chunk = 0 → u32 hw.ackInterval ≤ u32 (p.seq + p.payload)) :
    ∃ x q, q.receiverNextExpectedSeq = u32 (p.seq + p.payload) ∧
      receiveUdp hw now p rxQp = some (x, q, if Acked hw (u32 (p.seq + p.payload)) then
        some { isNack := false, seq := u32 (p.seq + p.payload),
               cnp := !hw.dcqcnPlusEnabled && p.ecnbits != 0 }
        else none) := by
  simp only [receiveUdp, receiverCheckSeq, ← hseq, if_true]
  by_cases hmile : u32 hw.ackInterval ≤ u32 (p.seq + p.payload)
  · rw [if_pos hmile, if_pos (show Acked hw _ from .inl hmile)]
    exact ⟨_, _, rfl, rfl⟩
  · have hchunk : hw.chunk ≠ 0 := fun hzero => hmile (h hzero)
    rw [if_neg hmile, if_neg hchunk]
    by_cases hat : u32 (p.seq + p.payload) % hw.chunk = 0
    · rw [if_pos hat, if_pos (show Acked hw _ from .inr ⟨hchunk, hat⟩)]
      exact ⟨_, _, rfl, rfl⟩
    · rw [if_neg hat, if_neg (show ¬ Acked hw _ from not_or.mpr ⟨hmile, fun hc => hat hc.2⟩)]
      exact ⟨_, _, rfl, rfl⟩

end Expected

/-! ## Intervals -/

/-- The packets of a stream without losses, from the sequence number `e` on. -/
def InOrder : Nat → List Arrival → Prop
  | _, [] => True
  | e, a :: as => a.packet.seq = e ∧ InOrder (u32 (e + a.packet.payload)) as

/-- Where the packets of such a stream end. -/
def ends : Nat → List Arrival → List Nat
  | _, [] => []
  | e, a :: as => u32 (e + a.packet.payload) :: ends (u32 (e + a.packet.payload)) as

def bytes (as : List Arrival) : Nat := (as.map fun a => a.packet.payload).sum

/-- The ACKs that are not at a multiple of the chunk size. -/
def intervalAcks (hw : RdmaHw) (rs : List (Option AckPacket)) : Nat :=
  rs.countP fun r => r.any fun a => !decide (AtChunk hw a.seq)

/-- No division by zero; with a positive `L2AckInterval`, never more interval ACKs than
whole intervals have been accepted; none with `L2AckInterval` zero. -/
structure FollowsIntervals (hw : RdmaHw) (as : List Arrival) : Prop where
  total : (replies hw none as).length = as.length
  interval : 0 < hw.ackInterval → ∀ k ≤ as.length,
    hw.ackInterval * intervalAcks hw ((replies hw none as).take k) ≤ bytes (as.take k)
  disabled : hw.ackInterval = 0 → intervalAcks hw (replies hw none as) = 0

/-- A packet that ends beyond the first interval, and not at a multiple of the chunk size. -/
def Beyond (hw : RdmaHw) (e : Nat) : Prop := hw.ackInterval ≤ e ∧ ¬ AtChunk hw e

instance (hw : RdmaHw) (e : Nat) : Decidable (Beyond hw e) :=
  inferInstanceAs (Decidable (_ ∧ _))

/-- The packets beyond the first interval are large, or few: up to each point of the
stream, they come to no more than the bytes when each is counted as a whole interval. Without
a chunk size no packet ends within the first interval, and without an interval all of them
end at multiples of the chunk size. -/
structure Spaced (hw : RdmaHw) (as : List Arrival) : Prop where
  total : hw.chunk = 0 → ∀ e ∈ ends 0 as, hw.ackInterval ≤ e
  few : 0 < hw.ackInterval → ∀ k ≤ as.length,
    hw.ackInterval * ((ends 0 as).take k).countP (fun e => Beyond hw e) ≤ bytes (as.take k)
  disabled : hw.ackInterval = 0 → ∀ e ∈ ends 0 as, AtChunk hw e

section Intervals

variable {hw : RdmaHw} {as : List Arrival}

/-- The interval ACKs answer the packets beyond the first interval. -/
theorem intervalAcks_take (rxQp : Option RdmaRxQueuePair) (hack : hw.ackInterval < 2 ^ 32)
    (horder : InOrder (rxQp.getD .create).receiverNextExpectedSeq as)
    (htotal : hw.chunk = 0 →
      ∀ e ∈ ends (rxQp.getD .create).receiverNextExpectedSeq as, hw.ackInterval ≤ e) (k : Nat) :
    (replies hw rxQp as).length = as.length ∧
      intervalAcks hw ((replies hw rxQp as).take k) =
        ((ends (rxQp.getD .create).receiverNextExpectedSeq as).take k).countP
          (fun e => Beyond hw e) := by
  induction as generalizing rxQp k with
  | nil => simp [replies, ends, intervalAcks]
  | cons a as ih =>
    obtain ⟨hseq, horder⟩ := horder
    rw [ends] at htotal ⊢
    rw [← hseq] at htotal horder ⊢
    have hfirst : hw.chunk = 0 →
        u32 hw.ackInterval ≤ u32 (a.packet.seq + a.packet.payload) := fun hchunk => by
      rw [u32_of_lt hack]
      exact htotal hchunk _ List.mem_cons_self
    obtain ⟨x, q, hnext, hreceive⟩ := receiveUdp_expected a.now hseq hfirst
    rw [replies, hreceive]
    rw [← hnext] at horder htotal ⊢
    -- the others start where the first packet ends
    have htotal' := fun hchunk e he => htotal hchunk e (List.mem_cons_of_mem _ he)
    cases k with
    | zero => simpa [intervalAcks] using (ih (some q) horder htotal' 0).1
    | succ k =>
      obtain ⟨hlen, hcount⟩ := ih (some q) horder htotal' k
      refine ⟨by simpa using hlen, ?_⟩
      -- an ACK that is not one of a chunk is one of the interval
      have hhead : (if Acked hw q.receiverNextExpectedSeq then
          some { isNack := false, seq := q.receiverNextExpectedSeq,
                 cnp := !hw.dcqcnPlusEnabled && a.packet.ecnbits != 0 }
          else none : Option AckPacket).any (fun r => !decide (AtChunk hw r.seq)) =
            decide (Beyond hw q.receiverNextExpectedSeq) := by
        by_cases hchunk : AtChunk hw q.receiverNextExpectedSeq
        · simp [Acked, Beyond, hchunk]
        · by_cases hbeyond : hw.ackInterval ≤ q.receiverNextExpectedSeq
          · simp [Acked, Beyond, hchunk, hbeyond, u32_of_lt hack]
          · simp [Acked, Beyond, hchunk, hbeyond, u32_of_lt hack]
      rw [List.take_succ_cons, List.take_succ_cons, List.countP_cons, intervalAcks,
        List.countP_cons, hhead]
      exact congrArg (· + _) hcount

/-- A receiver that goes through the whole stream has divided by no zero. -/
theorem le_ends_of_total (rxQp : Option RdmaRxQueuePair) (hack : hw.ackInterval < 2 ^ 32)
    (hchunk : hw.chunk = 0)
    (horder : InOrder (rxQp.getD .create).receiverNextExpectedSeq as)
    (htotal : (replies hw rxQp as).length = as.length) :
    ∀ e ∈ ends (rxQp.getD .create).receiverNextExpectedSeq as, hw.ackInterval ≤ e := by
  induction as generalizing rxQp with
  | nil => intro e he; cases he
  | cons a as ih =>
    obtain ⟨hseq, horder⟩ := horder
    rw [ends, ← hseq]
    rw [← hseq] at horder
    by_cases hlt : u32 (a.packet.seq + a.packet.payload) < hw.ackInterval
    · rw [replies, receiveUdp_division a.now hseq hchunk (by rwa [u32_of_lt hack])] at htotal
      cases htotal
    · obtain ⟨x, q, hnext, hreceive⟩ := receiveUdp_expected a.now hseq
        fun _ => by rwa [u32_of_lt hack, ← Nat.not_lt]
      rw [replies, hreceive] at htotal
      rw [← hnext] at horder ⊢
      refine List.forall_mem_cons.mpr ⟨hnext ▸ Nat.le_of_not_lt hlt, ?_⟩
      exact ih (some q) horder (Nat.succ.inj htotal)

/-- The ACKs of a stream without losses keep to the intervals exactly when its packets are
spaced. -/
theorem followsIntervals_iff (hack : hw.ackInterval < 2 ^ 32) (horder : InOrder 0 as) :
    FollowsIntervals hw as ↔ Spaced hw as := by
  have hcount : (hw.chunk = 0 → ∀ e ∈ ends 0 as, hw.ackInterval ≤ e) → ∀ k,
      (replies hw none as).length = as.length ∧ intervalAcks hw ((replies hw none as).take k) =
        ((ends 0 as).take k).countP (fun e => Beyond hw e) :=
    fun htotal k => intervalAcks_take none hack horder htotal k
  have hall (htotal : hw.chunk = 0 → ∀ e ∈ ends 0 as, hw.ackInterval ≤ e)
      (hzero : hw.ackInterval = 0) : intervalAcks hw (replies hw none as) = 0 ↔
        ∀ e ∈ ends 0 as, AtChunk hw e := by
    have hk := (hcount htotal ((replies hw none as).length + (ends 0 as).length)).2
    rw [List.take_of_length_le (Nat.le_add_right _ _),
      List.take_of_length_le (Nat.le_add_left _ _)] at hk
    rw [hk, List.countP_eq_zero]
    simp [Beyond, hzero]
  constructor
  · intro h
    have htotal (hchunk : hw.chunk = 0) : ∀ e ∈ ends 0 as, hw.ackInterval ≤ e :=
      le_ends_of_total none hack hchunk horder h.total
    exact ⟨htotal, fun hpos k hk => (hcount htotal k).2 ▸ h.interval hpos k hk,
      fun hzero => (hall htotal hzero).mp (h.disabled hzero)⟩
  · intro h
    exact ⟨(hcount h.total 0).1, fun hpos k hk => (hcount h.total k).2 ▸ h.few hpos k hk,
      fun hzero => (hall h.total hzero).mpr (h.disabled hzero)⟩

/-- The shipped configuration with other intervals -/
def intervalHw (chunk ackInterval : Nat) : RdmaHw := { RdmaHw.shipped with chunk, ackInterval }

def threePackets : List Arrival := [⟨0, 0, 1000, 0⟩, ⟨1, 1000, 1000, 0⟩, ⟨2, 2000, 1000, 0⟩]

/-- With an interval of one packet, each packet has one ACK. -/
theorem followsIntervals_iff_single : FollowsIntervals (intervalHw 4000 1000) threePackets :=
  have horder : InOrder 0 threePackets := ⟨rfl, rfl, rfl, trivial⟩
  (followsIntervals_iff (by decide) horder).mpr ⟨by decide, by decide, by decide⟩

/-- The interval is two packets: the second and the third are acknowledged. Without an
interval, all three are. Without a chunk size, the first one ends the program. -/
theorem threePackets_acks :
    ¬ FollowsIntervals (intervalHw 4000 2000) threePackets ∧
      ¬ FollowsIntervals (intervalHw 4000 0) threePackets ∧
      ¬ FollowsIntervals (intervalHw 0 4000) threePackets :=
  ⟨fun h => absurd (h.interval (by decide) 3 (by decide)) (by decide),
    fun h => absurd (h.disabled rfl) (by decide), fun h => absurd h.total (by decide)⟩

end Intervals

/-! ## Marks -/

/-- The packet of an arrival without its ECN mark. -/
def Arrival.unmarked (a : Arrival) : Arrival := { a with packet := { a.packet with ecnbits := 0 } }

/-- The arrivals with all marks taken away but the one of packet number `i`. -/
def onlyMarked : Nat → List Arrival → List Arrival
  | _, [] => []
  | 0, a :: as => a :: as.map Arrival.unmarked
  | i + 1, a :: as => a.unmarked :: onlyMarked i as

/-- A reply carries the CNP flag on account of the mark of packet number `i`: it would have
it for this mark alone. It comes at the arrival of the packet or later, and no ACK for the
last byte of the flow comes before it. -/
def Echoed (hw : RdmaHw) (size : Nat) (rxQp : Option RdmaRxQueuePair) (i : Nat)
    (as : List Arrival) : Prop :=
  ∃ j r, i ≤ j ∧ (replies hw rxQp (onlyMarked i as))[j]? = some (some r) ∧ r.cnp = true ∧
    ∀ k r', i ≤ k → k < j → (replies hw rxQp (onlyMarked i as))[k]? = some (some r') →
      ¬ (r'.isNack = false ∧ r'.seq = u32 size)

def MarksEchoed (hw : RdmaHw) (size : Nat) (rxQp : Option RdmaRxQueuePair) (as : List Arrival) :
    Prop :=
  ∀ i a, as[i]? = some a → a.packet.ecnbits ≠ 0 → Echoed hw size rxQp i as

/-- The packets that get a reply: the expected one, when it ends where an ACK is due, and one
ahead of it, when a NACK for the expected one is due. -/
def Answered (hw : RdmaHw) (a : Arrival) (q : RdmaRxQueuePair) : Prop :=
  (a.packet.seq = q.receiverNextExpectedSeq ∧
      Acked hw (u32 (a.packet.seq + a.packet.payload))) ∨
    (q.receiverNextExpectedSeq < a.packet.seq ∧
      (q.nackTimer ≤ a.now ∨ q.lastNACK ≠ q.receiverNextExpectedSeq) ∧
        (hw.backto0 = true → hw.chunk ≠ 0))

/-- Every marked packet gets a reply; none comes after a division by zero. -/
def MarkedAnswered (hw : RdmaHw) : Option RdmaRxQueuePair → List Arrival → Prop
  | _, [] => True
  | rxQp, a :: as =>
    (a.packet.ecnbits ≠ 0 → Answered hw a (rxQp.getD .create)) ∧
      match receiveUdp hw a.now a.packet rxQp with
      | none => ∀ b ∈ as, b.packet.ecnbits = 0
      | some (_, q, _) => MarkedAnswered hw (some q) as

section Marks

variable {hw : RdmaHw} {as : List Arrival} {rxQp : Option RdmaRxQueuePair}

/-- The mark of a packet decides nothing but the flag of its own reply. -/
theorem receiveUdp_unmarked (a : Arrival) :
    receiveUdp hw a.unmarked.now a.unmarked.packet rxQp =
      (receiveUdp hw a.now a.packet rxQp).map fun (x, q, reply) =>
        (x, q, reply.map fun r => { r with cnp := false }) := by
  rw [receiveUdp_eq, receiveUdp_eq, Option.map_map, Arrival.unmarked]
  refine congrArg (Option.map · _) (funext fun (x, q) => ?_)
  by_cases hx : x = .ack ∨ x = .nack
  · simp [hx]
  · simp [hx]

/-- When a packet gets a reply. -/
theorem receiverCheckSeq_answered (hw : RdmaHw) (a : Arrival) (q : RdmaRxQueuePair)
    (hmile : q.milestoneRx = u32 hw.ackInterval) : Answered hw a q ↔
    ∃ x q', receiverCheckSeq hw a.now a.packet.seq q a.packet.payload = some (x, q') ∧
      (x = .ack ∨ x = .nack) := by
  unfold Answered Acked AtChunk receiverCheckSeq
  simp only [hmile]
  rcases Nat.lt_trichotomy a.packet.seq q.receiverNextExpectedSeq with hlt | heq | hgt
  · have hne : a.packet.seq ≠ q.receiverNextExpectedSeq := Nat.ne_of_lt hlt
    have hnot : ¬ q.receiverNextExpectedSeq < a.packet.seq := Nat.lt_asymm hlt
    simp [hne, hnot]
  · rw [heq]
    simp only [true_and, Nat.lt_irrefl, false_and, or_false, if_true]
    split
    · next h => simp [h]
    · next h =>
      split
      · next hc => simp [h, hc]
      · next hc =>
        split
        · next hm => simp [h, hc, hm]
        · next hm => simp [h, hc, hm]
  · have hne : a.packet.seq ≠ q.receiverNextExpectedSeq := Nat.ne_of_gt hgt
    simp only [hne, false_and, false_or, hgt, true_and, if_true, if_false]
    by_cases hdue : q.nackTimer ≤ a.now ∨ q.lastNACK ≠ q.receiverNextExpectedSeq
    · rw [if_pos (by simpa using hdue)]
      cases hb : hw.backto0 with
      | false => simp [hdue]
      | true => by_cases hc : hw.chunk = 0 <;> simp [hc, hdue]
    · rw [if_neg (by simpa using hdue)]
      simp [hdue]

/-- Packets without marks cause replies without flags. -/
theorem cnp_of_unmarked (h : ∀ a ∈ as, a.packet.ecnbits = 0) {j : Nat} {r : AckPacket}
    (hr : (replies hw rxQp as)[j]? = some (some r)) : r.cnp = false := by
  induction as generalizing rxQp j with
  | nil => simp [replies] at hr
  | cons a as ih =>
    obtain ⟨ha, has⟩ := List.forall_mem_cons.mp h
    cases hreceive : receiveUdp hw a.now a.packet rxQp with
    | none => simp [replies, hreceive] at hr
    | some out =>
      obtain ⟨x, q, reply⟩ := out
      rw [replies, hreceive] at hr
      cases j with
      | succ j => exact ih has hr
      | zero =>
        rw [receiveUdp_eq, Option.map_eq_some_iff] at hreceive
        obtain ⟨⟨x', q'⟩, -, hout⟩ := hreceive
        obtain ⟨rfl, rfl, hreply⟩ : x' = x ∧ q' = q ∧ _ = reply := by simpa using hout
        have hr : reply = some r := by simpa using hr
        rw [hr] at hreply
        split at hreply
        · rw [← Option.some.inj hreply]
          simp [ha]
        · cases hreply

theorem echoed_zero_iff (hdcqcn : hw.dcqcnPlusEnabled = false) (size : Nat) {a : Arrival}
    (hmark : a.packet.ecnbits ≠ 0) :
    Echoed hw size rxQp 0 (a :: as) ↔ Answered hw a (rxQp.getD .create) := by
  have hunmarked : ∀ b ∈ as.map Arrival.unmarked, b.packet.ecnbits = 0 := by
    simp [Arrival.unmarked]
  rw [show Answered hw a (rxQp.getD .create) ↔ _ from
    receiverCheckSeq_answered hw a (beforeCheck hw rxQp) rfl]
  constructor
  · rintro ⟨j, r, -, hr, hcnp, -⟩
    rw [onlyMarked, replies, receiveUdp_eq] at hr
    cases hcheck : receiverCheckSeq hw a.now a.packet.seq (beforeCheck hw rxQp)
        a.packet.payload with
    | none => simp [hcheck] at hr
    | some out =>
      obtain ⟨x, q⟩ := out
      simp only [hcheck, Option.map_some] at hr
      cases j with
      | zero =>
        by_cases hx : x = .ack ∨ x = .nack
        · exact ⟨x, q, rfl, hx⟩
        · simp [hx] at hr
      | succ j => rw [cnp_of_unmarked hunmarked hr] at hcnp; cases hcnp
  · rintro ⟨x, q, hcheck, hx⟩
    have hreply : (replies hw rxQp (onlyMarked 0 (a :: as)))[0]? = some (some
        { isNack := decide (x = .nack), seq := q.receiverNextExpectedSeq, cnp := true }) := by
      rw [onlyMarked, replies, receiveUdp_eq, hcheck, Option.map_some]
      simp [hx, hdcqcn, hmark]
    exact ⟨0, _, Nat.le_refl 0, hreply, rfl, fun k r' _ hk => absurd hk (Nat.not_lt_zero k)⟩

theorem not_echoed_of_none {a : Arrival} (hreceive : receiveUdp hw a.now a.packet rxQp = none)
    (size i : Nat) : ¬ Echoed hw size rxQp i (a :: as) := by
  rintro ⟨j, r, -, hr, -⟩
  cases i with
  | zero => simp [onlyMarked, replies, hreceive] at hr
  | succ i => simp [onlyMarked, replies, receiveUdp_unmarked, hreceive] at hr

theorem echoed_succ_iff {a : Arrival} {x : CheckSeq} {q : RdmaRxQueuePair}
    {reply : Option AckPacket} (hreceive : receiveUdp hw a.now a.packet rxQp = some (x, q, reply))
    (size i : Nat) : Echoed hw size rxQp (i + 1) (a :: as) ↔ Echoed hw size (some q) i as := by
  have hreplies : replies hw rxQp (onlyMarked (i + 1) (a :: as)) =
      (reply.map fun r => { r with cnp := false }) :: replies hw (some q) (onlyMarked i as) := by
    rw [onlyMarked, replies, receiveUdp_unmarked, hreceive]
    rfl
  unfold Echoed
  rw [hreplies]
  constructor
  · rintro ⟨j, r, hj, hr, hcnp, hlast⟩
    obtain ⟨j, rfl⟩ : ∃ j', j = j' + 1 := ⟨j - 1, by omega⟩
    exact ⟨j, r, by omega, hr, hcnp, fun k r' hk hkj => hlast (k + 1) r' (by omega) (by omega)⟩
  · rintro ⟨j, r, hj, hr, hcnp, hlast⟩
    refine ⟨j + 1, r, by omega, hr, hcnp, fun k r' hk hkj hr' => ?_⟩
    obtain ⟨k, rfl⟩ : ∃ k', k = k' + 1 := ⟨k - 1, by omega⟩
    exact hlast k r' (by omega) (by omega) hr'

/-- Every mark comes back exactly when every marked packet is answered. -/
theorem marksEchoed_iff (hdcqcn : hw.dcqcnPlusEnabled = false) (size : Nat)
    (rxQp : Option RdmaRxQueuePair) (as : List Arrival) :
    MarksEchoed hw size rxQp as ↔ MarkedAnswered hw rxQp as := by
  induction as generalizing rxQp with
  | nil => simp [MarksEchoed, MarkedAnswered]
  | cons a as ih =>
    -- the first packet, and the others by the induction
    have hsplit : MarksEchoed hw size rxQp (a :: as) ↔
        (a.packet.ecnbits ≠ 0 → Echoed hw size rxQp 0 (a :: as)) ∧
          ∀ i b, as[i]? = some b → b.packet.ecnbits ≠ 0 →
            Echoed hw size rxQp (i + 1) (a :: as) := by
      constructor
      · intro h
        exact ⟨h 0 a rfl, fun i b hb => h (i + 1) b hb⟩
      · rintro ⟨hfirst, hrest⟩ i b hb
        cases i with
        | zero =>
          obtain rfl : a = b := by simpa using hb
          exact hfirst
        | succ i => exact hrest i b hb
    rw [hsplit, MarkedAnswered]
    refine and_congr (forall_congr' fun hmark => echoed_zero_iff hdcqcn size hmark) ?_
    cases hreceive : receiveUdp hw a.now a.packet rxQp with
    | none =>
      -- the receiver stops here, and nothing that follows is answered
      simp only [not_echoed_of_none hreceive, imp_false, not_not]
      constructor
      · intro h b hb
        obtain ⟨i, hi⟩ := List.mem_iff_getElem?.mp hb
        exact h i b hi
      · intro h i b hb
        exact h b (List.mem_of_getElem? hb)
    | some out =>
      obtain ⟨x, q, reply⟩ := out
      simp only [echoed_succ_iff hreceive]
      exact ih (some q)

/-- Two marked packets, each with its own ACK. -/
theorem marksEchoed_iff_each :
    MarksEchoed (intervalHw 4000 1) 2000 none [⟨0, 0, 1000, 3⟩, ⟨1, 1000, 1000, 3⟩] :=
  (marksEchoed_iff rfl 2000 none _).mpr
    ⟨fun _ => .inl ⟨rfl, by decide⟩, fun _ => .inl ⟨rfl, by decide⟩, trivial⟩

/-- The first of four packets is marked; their one ACK, for the whole flow, has no flag. -/
theorem coalesced_ack_loses_mark :
    ¬ MarksEchoed (intervalHw 4000 4000) 4000 none
      [⟨0, 0, 1000, 3⟩, ⟨1, 1000, 1000, 0⟩, ⟨2, 2000, 1000, 0⟩, ⟨3, 3000, 1000, 0⟩] := by
  intro h
  obtain ⟨j, r, -, hr, hcnp, -⟩ := h 0 _ rfl (by decide)
  have hreplies : replies (intervalHw 4000 4000) none (onlyMarked 0
      [⟨0, 0, 1000, 3⟩, ⟨1, 1000, 1000, 0⟩, ⟨2, 2000, 1000, 0⟩, ⟨3, 3000, 1000, 0⟩]) =
        [none, none, none, some { isNack := false, seq := 4000, cnp := false }] := by decide
  rw [hreplies] at hr
  have hmem := List.mem_of_getElem? hr
  simp only [List.mem_cons, List.not_mem_nil, or_false, reduceCtorEq, false_or,
    Option.some.injEq] at hmem
  rw [hmem] at hcnp
  cases hcnp

end Marks

end Paraleon.Rdma
