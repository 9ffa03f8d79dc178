import Paraleon.Library.Runs
import Paraleon.Rdma.Hw

/-!
# The sender window over FIFO paths

One flow over a FIFO path in each direction. Data packets may be lost; ACKs and
NACKs arrive in the order they were sent.

`RecoverQueue` rolls `snd_nxt` back to `snd_una`, and `Acknowledge` never
compares with `snd_nxt`. An ACK that overtakes a rollback therefore leaves
`snd_una` above `snd_nxt`, and `GetOnTheFly` wraps.

* `windowSafe_iff`: a run keeps `snd_una ≤ snd_nxt ≤ m_size`, with its
  consequences, exactly when no ACK is applied beyond `snd_nxt`.
* `ackInOrder_of_nackOnce`: that is so in every run in which the receiver sends
  at most one NACK for each sequence number.
* `lateRun`: two NACKs for one hole, and a retransmission between them.
-/

namespace Paraleon.Rdma.Window

open Words Runs

/-! ## The system -/

/-- The flow, the packets in flight in both directions (oldest first), the
clock, and the sequence numbers of the NACKs sent so far. -/
structure Path where
  flow : Flow
  dataQ : List DataPacket
  ackQ : List AckPacket
  now : Nat
  nacked : List Nat
deriving DecidableEq, Repr

inductive Event where
  | transmit
  /-- Data packet number `i` in flight is lost. -/
  | loseData (i : Nat)
  /-- The oldest data packet in flight arrives with the given ECN bits. -/
  | deliverData (ecnbits : Nat)
  /-- The oldest ACK or NACK in flight arrives. -/
  | deliverAck
  /-- Time passes. -/
  | tick (d : Nat)
  | changeRate (rate : Nat)
deriving DecidableEq, Repr

def Path.start (f : Flow) : Path := { flow := f, dataQ := [], ackQ := [], now := 0, nacked := [] }

def nackSeqs (reply : Option AckPacket) : List Nat :=
  (reply.toList.filter (·.isNack)).map (·.seq)

def step (hw : RdmaHw) (s : Path) : Event → Option Path
  | .transmit => do
    let (p, f) ← s.flow.transmit hw
    some { s with flow := f, dataQ := s.dataQ ++ [p] }
  | .loseData i => if i < s.dataQ.length then some { s with dataQ := s.dataQ.eraseIdx i } else none
  | .deliverData ecnbits =>
    match s.dataQ with
    | [] => none
    | p :: rest => do
      let (_, reply, f) ← s.flow.receiveUdp hw s.now { p with ecnbits }
      some { s with flow := f, dataQ := rest, ackQ := s.ackQ ++ reply.toList,
                    nacked := s.nacked ++ nackSeqs reply }
  | .deliverAck =>
    match s.ackQ with
    | [] => none
    | a :: rest => do
      let f ← s.flow.receiveAck hw a
      some { s with flow := f, ackQ := rest }
  | .tick d => some { s with now := s.now + d }
  | .changeRate rate => some { s with flow := { s.flow with qp := s.flow.qp.changeRate rate } }

/-! ## The property and the conditions -/

/-- The window is well formed: `GetOnTheFly` does not wrap, a window-bound queue
pair has a window of bytes outstanding, and a finished one has nothing left. -/
structure WindowSafe (q : RdmaQueuePair) : Prop where
  una_le_nxt : q.sndUna ≤ q.sndNxt
  nxt_le_size : q.sndNxt ≤ q.size
  onTheFly : q.getOnTheFly = q.sndNxt - q.sndUna
  winBound : q.isWinBound = true → q.getWin ≤ q.sndNxt - q.sndUna
  finished : q.isFinished = true → q.getBytesLeft = 0

/-- An ACK that is applied acknowledges no more than has been sent since the
last rollback. -/
def AckInOrder (hw : RdmaHw) (s : Path) : Event → Prop
  | .deliverAck => ∀ a ∈ s.ackQ.head?, a.isNack = false → hw.ackInterval ≠ 0 →
      s.flow.inQpMap = true → a.seq ≤ s.flow.qp.sndNxt
  | _ => True

/-- A finished queue pair does not transmit. -/
def FinishedIsSilent (s : Path) (e : Event) : Prop :=
  s.flow.qp.isFinished = true → e ≠ .transmit

/-- The receiver sends no second NACK for one sequence number. -/
def NackOnce (hw : RdmaHw) (s : Path) (e : Event) : Prop :=
  ∀ t, step hw s e = some t → t.nacked = s.nacked ∨ s.flow.nextExpected ∉ s.nacked

instance (hw : RdmaHw) (s : Path) (e : Event) : Decidable (NackOnce hw s e) :=
  match h : step hw s e with
  | none => .isTrue fun t ht => by simp [h] at ht
  | some t => decidable_of_iff (t.nacked = s.nacked ∨ s.flow.nextExpected ∉ s.nacked)
      (by simp [NackOnce, h])

/-! ## Every run stays inside the flow -/

/-- Everything sent and every position lies inside the flow. -/
structure Inside (s : Path) : Prop where
  small : s.flow.qp.size < 2 ^ 64
  una : s.flow.qp.sndUna ≤ s.flow.qp.size
  nxt : s.flow.qp.sndNxt ≤ s.flow.qp.size
  expected : s.flow.nextExpected ≤ s.flow.qp.size
  data : ∀ p ∈ s.dataQ, p.seq + p.payload ≤ s.flow.qp.size
  acks : ∀ a ∈ s.ackQ, a.seq ≤ s.flow.qp.size

theorem inside_start (size : UInt64) (win : UInt32) (varWin : Bool) (bps : UInt64) :
    Inside (Path.start (Flow.start size win varWin bps)) where
  small := size.toNat_lt
  una := Nat.zero_le _
  nxt := Nat.zero_le _
  expected := Nat.zero_le _
  data := fun _ hp => absurd hp List.not_mem_nil
  acks := fun _ ha => absurd ha List.not_mem_nil

theorem afterAck_sndNxt_le {a : AckPacket} {q : RdmaQueuePair} {n : Nat} (hnxt : q.sndNxt ≤ n)
    (huna : q.sndUna ≤ n) : (afterAck a q).sndNxt ≤ n := by
  unfold afterAck
  split
  · exact huna
  · exact hnxt

/-- One more packet in flight. -/
theorem transmit_eq {hw : RdmaHw} {s t : Path} (h : step hw s .transmit = some t) :
    0 < s.flow.qp.getBytesLeft ∧
      t = { s with flow := { s.flow with qp := (getNxtPacket hw s.flow.qp).2 },
                   dataQ := s.dataQ ++ [(getNxtPacket hw s.flow.qp).1] } := by
  simp only [step, Option.bind_eq_bind, Option.bind_eq_some_iff] at h
  obtain ⟨⟨p, f⟩, hsend, ht⟩ := h
  obtain ⟨hleft, rfl, rfl⟩ := Flow.transmit_cases hsend
  cases ht
  exact ⟨hleft, rfl⟩

theorem loseData_eq {hw : RdmaHw} {s t : Path} {i : Nat} (h : step hw s (.loseData i) = some t) :
    t = { s with dataQ := s.dataQ.eraseIdx i } := by
  simp only [step] at h
  split at h
  · cases h; rfl
  · cases h

/-- The receiver takes the oldest data packet off the path. -/
theorem deliverData_eq {hw : RdmaHw} {s t : Path} {ecnbits : Nat}
    (h : step hw s (.deliverData ecnbits) = some t) :
    ∃ p rest x reply f, s.dataQ = p :: rest ∧
      s.flow.receiveUdp hw s.now { p with ecnbits } = some (x, reply, f) ∧
      t = { s with flow := f, dataQ := rest, ackQ := s.ackQ ++ reply.toList,
                   nacked := s.nacked ++ nackSeqs reply } := by
  simp only [step] at h
  split at h
  · cases h
  · next p rest hq =>
    simp only [Option.bind_eq_bind, Option.bind_eq_some_iff] at h
    obtain ⟨⟨x, reply, f⟩, hrecv, ht⟩ := h
    cases ht
    exact ⟨p, rest, x, reply, f, hq, hrecv, rfl⟩

theorem deliverAck_eq {hw : RdmaHw} {s t : Path} (h : step hw s .deliverAck = some t) :
    ∃ a rest f, s.ackQ = a :: rest ∧ s.flow.receiveAck hw a = some f ∧
      t = { s with flow := f, ackQ := rest } := by
  simp only [step] at h
  split at h
  · cases h
  · next a rest hq =>
    simp only [Option.bind_eq_bind, Option.bind_eq_some_iff] at h
    obtain ⟨f, hrecv, ht⟩ := h
    cases ht
    exact ⟨a, rest, f, hq, hrecv, rfl⟩

theorem inside_step {hw : RdmaHw} (hb : hw.backto0 = false) (s : Path) (e : Event) (t : Path)
    (h : Inside s) (hstep : step hw s e = some t) : Inside t := by
  cases e with
  | transmit =>
    obtain ⟨hleft, rfl⟩ := transmit_eq hstep
    obtain ⟨-, hnxt⟩ := getNxtPacket_sndNxt hw h.small hleft
    refine ⟨h.small, h.una, hnxt, h.expected, fun p hp => ?_, h.acks⟩
    rcases List.mem_append.mp hp with hp | hp
    · exact h.data p hp
    · rw [List.mem_singleton.mp hp]
      -- the packet carries at most what is left, so that it ends within the flow
      have hpay := getNxtPacket_payload_le hw s.flow.qp
      have hseq := u32_le s.flow.qp.sndNxt
      have := h.nxt
      simp only [getNxtPacket_seq, getNxtPacket_size]
      omega
  | loseData i =>
    rw [loseData_eq hstep]
    exact ⟨h.small, h.una, h.nxt, h.expected,
      fun p hp => h.data p (List.mem_of_mem_eraseIdx hp), h.acks⟩
  | deliverData ecnbits =>
    obtain ⟨p, rest, x, reply, f, hq, hrecv, rfl⟩ := deliverData_eq hstep
    obtain ⟨hqp, -, -, hcase⟩ := Flow.receiveUdp_cases hb hrecv
    have hfit : p.seq + p.payload ≤ s.flow.qp.size := h.data p (by simp [hq])
    have hrest : ∀ p ∈ rest, p.seq + p.payload ≤ f.qp.size := fun p hp => by
      rw [hqp]
      exact h.data p (by simp [hq, hp])
    -- an in-order packet moves the mark to its end, any other leaves it
    have hnext : f.nextExpected ≤ s.flow.qp.size := by
      rcases hcase with ⟨hseq, -, hnext, -⟩ | ⟨-, hnext, -⟩
      · have hle := u32_le (s.flow.nextExpected + p.payload)
        have hseq' : p.seq = s.flow.nextExpected := hseq
        have hnext' : f.nextExpected = u32 (s.flow.nextExpected + p.payload) := hnext
        omega
      · rw [hnext]
        exact h.expected
    have hreply : ∀ a ∈ reply, a.seq ≤ s.flow.qp.size := fun a ha => by
      rcases hcase with ⟨-, -, -, hr⟩ | ⟨-, -, hr⟩
      · rw [(hr a ha).2]
        exact hnext
      · rw [(hr a ha).2.1]
        exact h.expected
    refine ⟨by simpa [hqp] using h.small, by simpa [hqp] using h.una, by simpa [hqp] using h.nxt,
      by simpa [hqp] using hnext, hrest, fun a ha => ?_⟩
    rcases List.mem_append.mp ha with ha | ha
    · simpa [hqp] using h.acks a ha
    · simpa [hqp] using hreply a (Option.mem_toList.mp ha)
  | deliverAck =>
    obtain ⟨a, rest, f, hq, hrecv, rfl⟩ := deliverAck_eq hstep
    have ha : a.seq ≤ s.flow.qp.size := h.acks a (by simp [hq])
    have hrest : ∀ b ∈ rest, b.seq ≤ s.flow.qp.size := fun b hb => h.acks b (by simp [hq, hb])
    have hmax : max s.flow.qp.sndUna a.seq ≤ s.flow.qp.size := Nat.max_le.mpr ⟨h.una, ha⟩
    -- no flow, a NACK that changes nothing, progress, completion
    rcases Flow.receiveAck_cases hb hrecv with ⟨-, rfl⟩ | ⟨-, -, rfl⟩ | ⟨-, -, -, rfl⟩ |
      ⟨-, -, -, rfl⟩
    · exact ⟨h.small, h.una, h.nxt, h.expected, h.data, hrest⟩
    · exact ⟨by simpa using h.small, by simpa using h.una,
        by simpa using afterAck_sndNxt_le h.nxt h.una,
        by simpa [Flow.nextExpected] using h.expected, by simpa using h.data, by simpa using hrest⟩
    · exact ⟨by simpa using h.small, by simpa using hmax,
        by simpa using afterAck_sndNxt_le (by simpa using h.nxt) (by simpa using hmax),
        by simpa [Flow.nextExpected] using h.expected, by simpa using h.data, by simpa using hrest⟩
    · exact ⟨by simpa using h.small, by simpa using hmax,
        by simpa using afterAck_sndNxt_le (by simpa using h.nxt) (by simpa using hmax),
        Nat.zero_le _, by simpa using h.data, by simpa using hrest⟩
  | tick d =>
    cases hstep
    exact ⟨h.small, h.una, h.nxt, h.expected, h.data, h.acks⟩
  | changeRate rate =>
    cases hstep
    exact ⟨h.small, h.una, h.nxt, h.expected, h.data, h.acks⟩

/-! ## The window property, exactly -/

theorem windowSafe_of_le {q : RdmaQueuePair} (huna : q.sndUna ≤ q.sndNxt)
    (hnxt : q.sndNxt ≤ q.size) : WindowSafe q where
  una_le_nxt := huna
  nxt_le_size := hnxt
  onTheFly := sub64_of_le huna
  winBound h := by
    rw [← sub64_of_le huna]
    exact (RdmaQueuePair.isWinBound_iff.mp h).2
  finished h := by
    have := RdmaQueuePair.isFinished_iff.mp h
    rw [q.getBytesLeft_eq]
    omega

/-- A step from an ordered window keeps it ordered exactly when it applies no
ACK beyond `snd_nxt`. -/
theorem una_le_nxt_step {hw : RdmaHw} (hb : hw.backto0 = false) (s : Path) (e : Event) (t : Path)
    (h : Inside s) (hs : s.flow.qp.sndUna ≤ s.flow.qp.sndNxt) (hstep : step hw s e = some t) :
    t.flow.qp.sndUna ≤ t.flow.qp.sndNxt ↔ AckInOrder hw s e := by
  cases e with
  | transmit =>
    obtain ⟨hleft, rfl⟩ := transmit_eq hstep
    obtain ⟨hnxt, -⟩ := getNxtPacket_sndNxt hw h.small hleft
    refine ⟨fun _ => trivial, fun _ => ?_⟩
    show s.flow.qp.sndUna ≤ (getNxtPacket hw s.flow.qp).2.sndNxt
    omega
  | loseData i =>
    rw [loseData_eq hstep]
    exact ⟨fun _ => trivial, fun _ => hs⟩
  | deliverData ecnbits =>
    obtain ⟨p, rest, x, reply, f, -, hrecv, rfl⟩ := deliverData_eq hstep
    refine ⟨fun _ => trivial, fun _ => ?_⟩
    show f.qp.sndUna ≤ f.qp.sndNxt
    rw [(Flow.receiveUdp_cases hb hrecv).1]
    exact hs
  | deliverAck =>
    obtain ⟨a, rest, f, hq, hrecv, rfl⟩ := deliverAck_eq hstep
    have horder : AckInOrder hw s .deliverAck ↔ (a.isNack = false → hw.ackInterval ≠ 0 →
        s.flow.inQpMap = true → a.seq ≤ s.flow.qp.sndNxt) := by
      simp [AckInOrder, hq]
    rw [horder]
    -- a NACK sets `snd_nxt` to `snd_una`, so only an applied ACK can break the order
    have happly : (afterAck a (s.flow.qp.acknowledge a.seq)).sndUna ≤
        (afterAck a (s.flow.qp.acknowledge a.seq)).sndNxt ↔
          (a.isNack = false → a.seq ≤ s.flow.qp.sndNxt) := by
      cases hk : a.isNack with
      | true => simp [afterAck, hk]
      | false =>
        simp only [afterAck, hk, Bool.false_eq_true, if_false, RdmaQueuePair.acknowledge_sndUna,
          RdmaQueuePair.acknowledge_sndNxt, true_implies]
        omega
    rcases Flow.receiveAck_cases hb hrecv with ⟨hmap, rfl⟩ | ⟨hmap, hack, rfl⟩ |
      ⟨hmap, hack, -, rfl⟩ | ⟨hmap, hack, -, rfl⟩
    · simp [hmap, hs]
    · simp only [hack, ne_eq, not_true_eq_false, false_implies, implies_true, iff_true]
      unfold afterAck
      split
      · exact Nat.le_refl _
      · exact hs
    · simpa [hmap, hack] using happly
    · simpa [hmap, hack] using happly
  | tick d =>
    cases hstep
    exact ⟨fun _ => trivial, fun _ => hs⟩
  | changeRate rate =>
    cases hstep
    exact ⟨fun _ => trivial, fun _ => hs⟩

theorem not_transmit_of_finished {hw : RdmaHw} {s t : Path} {e : Event}
    (hs : WindowSafe s.flow.qp) (hstep : step hw s e = some t) : FinishedIsSilent s e := by
  intro hfin he
  subst he
  obtain ⟨hleft, -⟩ := transmit_eq hstep
  rw [hs.finished hfin] at hleft
  exact absurd hleft (Nat.lt_irrefl 0)

/-- A run keeps the window well formed, and a finished queue pair silent,
exactly when it applies no ACK beyond `snd_nxt`. -/
theorem windowSafe_iff {hw : RdmaHw} (hb : hw.backto0 = false) {s : Path} (hin : Inside s)
    (hs : s.flow.qp.sndUna ≤ s.flow.qp.sndNxt) (es : List Event) :
    (Always (step hw) (fun s => WindowSafe s.flow.qp) s es ∧
        Guarded (step hw) FinishedIsSilent s es) ↔
      Guarded (step hw) (AckInOrder hw) s es := by
  have hiff : Always (step hw) (fun s => s.flow.qp.sndUna ≤ s.flow.qp.sndNxt) s es ↔
      Guarded (step hw) (AckInOrder hw) s es :=
    always_iff_guarded (inside_step hb) (una_le_nxt_step hb) hin hs es
  constructor
  · rintro ⟨h, -⟩
    exact hiff.mp (h.mono fun _ hs => hs.una_le_nxt)
  · intro h
    have hsafe : Always (step hw) (fun s => WindowSafe s.flow.qp) s es :=
      ((hiff.mpr h).and (always_of_invariant (inside_step hb) hin es)).mono
        fun s hs => windowSafe_of_le hs.1 hs.2.nxt
    have hsilent : ∀ s e t, WindowSafe s.flow.qp → WindowSafe t.flow.qp → step hw s e = some t →
        FinishedIsSilent s e := fun s e t hs _ hstep => not_transmit_of_finished hs hstep
    exact ⟨hsafe, guarded_of_always hsilent hsafe⟩

/-! ## One NACK for each hole is enough -/

/-- The packets in flight are in sequence. -/
def InSequence (ps : List DataPacket) : Prop := ps.Pairwise fun p q => p.seq + p.payload ≤ q.seq

/-- No NACK is in flight: the packets in flight are leftovers from before the
last rollback, all beyond the hole, and then the ones sent since, in sequence. -/
structure Clear (s : Path) : Prop where
  acks : ∀ a ∈ s.ackQ, a.isNack = false
  data : ∃ stale fresh, s.dataQ = stale ++ fresh ∧
    (stale = [] ∨ s.flow.nextExpected ∈ s.nacked) ∧
    (∀ p ∈ stale, s.flow.nextExpected < p.seq) ∧ InSequence fresh ∧
    ∀ p ∈ fresh, p.seq + p.payload ≤ s.flow.qp.sndNxt

/-- A NACK is in flight: it is the last reply, it names the hole the receiver
waits for, and every packet in flight is beyond the hole. -/
structure Pending (s : Path) : Prop where
  nacked : s.flow.nextExpected ∈ s.nacked
  beyond : s.flow.nextExpected < s.flow.qp.sndNxt
  data : ∀ p ∈ s.dataQ, s.flow.nextExpected < p.seq
  acks : ∃ acks n, s.ackQ = acks ++ [n] ∧ n.isNack = true ∧ n.seq = s.flow.nextExpected ∧
    ∀ a ∈ acks, a.isNack = false

/-- The invariant of a run with one NACK for each hole, while the flow is active. -/
structure Tidy (s : Path) : Prop where
  small : s.flow.qp.size < 2 ^ 32
  inside : Inside s
  una : s.flow.inQpMap = true → s.flow.qp.sndUna ≤ s.flow.nextExpected
  expected : s.flow.inQpMap = true → s.flow.nextExpected ≤ s.flow.qp.sndNxt
  acks : s.flow.inQpMap = true → ∀ a ∈ s.ackQ, a.seq ≤ s.flow.nextExpected
  phase : s.flow.inQpMap = true → Clear s ∨ Pending s

theorem tidy_start (size : UInt64) (hsize : size.toNat < 2 ^ 32) (win : UInt32) (varWin : Bool)
    (bps : UInt64) : Tidy (Path.start (Flow.start size win varWin bps)) where
  small := hsize
  inside := inside_start size win varWin bps
  una := fun _ => Nat.zero_le _
  expected := fun _ => Nat.zero_le _
  acks := fun _ _ ha => absurd ha List.not_mem_nil
  phase := fun _ => .inl ⟨fun _ ha => absurd ha List.not_mem_nil,
    [], [], rfl, .inl rfl, fun _ hp => absurd hp List.not_mem_nil, List.Pairwise.nil,
    fun _ hp => absurd hp List.not_mem_nil⟩

theorem tidy_transmit {hw : RdmaHw} (hb : hw.backto0 = false) {s t : Path} (h : Tidy s)
    (hstep : step hw s .transmit = some t) : Tidy t := by
  have hin := inside_step hb s .transmit t h.inside hstep
  obtain ⟨hleft, rfl⟩ := transmit_eq hstep
  obtain ⟨hnxt, -⟩ := getNxtPacket_sndNxt hw h.inside.small hleft
  have hseq : u32 s.flow.qp.sndNxt = s.flow.qp.sndNxt :=
    u32_of_lt (Nat.lt_of_le_of_lt h.inside.nxt h.small)
  refine ⟨h.small, hin, h.una, fun hmap => ?_, h.acks, fun hmap => ?_⟩
  · have := h.expected hmap
    show s.flow.nextExpected ≤ (getNxtPacket hw s.flow.qp).2.sndNxt
    omega
  rcases h.phase hmap with hc | hp
  -- a new packet is fresh: it starts where the last one ended
  · obtain ⟨stale, fresh, hq, hnacked, hstale, hfresh, hsent⟩ := hc.data
    refine .inl ⟨hc.acks, stale, fresh ++ [(getNxtPacket hw s.flow.qp).1], ?_, hnacked, hstale, ?_,
      fun p hp => ?_⟩
    · show s.dataQ ++ [_] = _
      rw [hq, List.append_assoc]
    · refine List.pairwise_append.mpr ⟨hfresh, List.pairwise_singleton _ _, fun p hp q hq => ?_⟩
      rw [List.mem_singleton.mp hq, getNxtPacket_seq, hseq]
      exact hsent p hp
    · show p.seq + p.payload ≤ (getNxtPacket hw s.flow.qp).2.sndNxt
      rcases List.mem_append.mp hp with hp | hp
      · have := hsent p hp
        omega
      · rw [List.mem_singleton.mp hp, getNxtPacket_seq, hseq, hnxt]
  · refine .inr ⟨hp.nacked, ?_, fun p hmem => ?_, hp.acks⟩
    · have := hp.beyond
      show s.flow.nextExpected < (getNxtPacket hw s.flow.qp).2.sndNxt
      omega
    · rcases List.mem_append.mp hmem with hmem | hmem
      · exact hp.data p hmem
      · rw [List.mem_singleton.mp hmem, getNxtPacket_seq, hseq]
        exact hp.beyond

theorem tidy_loseData {hw : RdmaHw} (hb : hw.backto0 = false) {s t : Path} {i : Nat} (h : Tidy s)
    (hstep : step hw s (.loseData i) = some t) : Tidy t := by
  have hin := inside_step hb s (.loseData i) t h.inside hstep
  obtain rfl := loseData_eq hstep
  refine ⟨h.small, hin, h.una, h.expected, h.acks, fun hmap => ?_⟩
  rcases h.phase hmap with hc | hp
  · obtain ⟨stale, fresh, hq, hnacked, hstale, hfresh, hsent⟩ := hc.data
    refine .inl ⟨hc.acks, ?_⟩
    show ∃ stale fresh, s.dataQ.eraseIdx i = stale ++ fresh ∧ _
    rw [hq]
    by_cases hi : i < stale.length
    · refine ⟨stale.eraseIdx i, fresh, List.eraseIdx_append_of_lt_length hi _, ?_,
        fun p hp => hstale p (List.mem_of_mem_eraseIdx hp), hfresh, hsent⟩
      rcases hnacked with rfl | hn
      · exact .inl rfl
      · exact .inr hn
    · exact ⟨stale, fresh.eraseIdx (i - stale.length),
        List.eraseIdx_append_of_length_le (Nat.le_of_not_lt hi) _, hnacked, hstale,
        List.Pairwise.sublist (List.eraseIdx_sublist _ _) hfresh,
        fun p hp => hsent p (List.mem_of_mem_eraseIdx hp)⟩
  · exact .inr ⟨hp.nacked, hp.beyond, fun p hmem => hp.data p (List.mem_of_mem_eraseIdx hmem),
      hp.acks⟩

theorem nackSeqs_none : nackSeqs none = [] := rfl

theorem nackSeqs_nack {a : AckPacket} (h : a.isNack = true) : nackSeqs (some a) = [a.seq] := by
  simp [nackSeqs, h]

/-- In the clear phase a delivery accepts the head of the fresh packets, passes
over a packet, or opens the pending phase with the first NACK for the hole. -/
theorem tidy_deliverData_clear {s : Path} {p : DataPacket} {rest : List DataPacket}
    {x : CheckSeq} {reply : Option AckPacket} {f : Flow} (hsmall : s.flow.qp.size < 2 ^ 32)
    (hnxt : s.flow.qp.sndNxt ≤ s.flow.qp.size) (hexp : s.flow.nextExpected ≤ s.flow.qp.sndNxt)
    (hc : Clear s) (hq : s.dataQ = p :: rest) (hqp : f.qp = s.flow.qp)
    (hcase : (p.seq = s.flow.nextExpected ∧ x.accepts = true ∧
        f.nextExpected = u32 (s.flow.nextExpected + p.payload) ∧
        ∀ a ∈ reply, a.isNack = false ∧ a.seq = f.nextExpected) ∨
      (x.accepts = false ∧ f.nextExpected = s.flow.nextExpected ∧
        ∀ a ∈ reply, a.isNack = true ∧ a.seq = s.flow.nextExpected ∧
          s.flow.nextExpected < p.seq))
    (honce : nackSeqs reply = [] ∨ s.flow.nextExpected ∉ s.nacked) :
    let t : Path := { s with flow := f, dataQ := rest, ackQ := s.ackQ ++ reply.toList,
                             nacked := s.nacked ++ nackSeqs reply }
    s.flow.nextExpected ≤ f.nextExpected ∧ f.nextExpected ≤ s.flow.qp.sndNxt ∧
      (Clear t ∨ Pending t) := by
  intro t
  obtain ⟨stale, fresh, hsplit, hnacked, hstale, hfresh, hsent⟩ := hc.data
  rw [hq] at hsplit
  rcases hcase with ⟨hseq, -, hnext, hreply⟩ | ⟨-, hnext, hreply⟩
  · -- accepted: the packet is not beyond the hole, so no leftovers are in front of it
    have hstale_nil : stale = [] := by
      cases stale with
      | nil => rfl
      | cons q stale =>
        have hpq : p = q := (List.cons.inj hsplit).1
        have := hstale q List.mem_cons_self
        rw [hpq] at hseq
        omega
    subst hstale_nil
    rw [List.nil_append] at hsplit
    subst hsplit
    have hend := hsent p List.mem_cons_self
    have hnext' : f.nextExpected = s.flow.nextExpected + p.payload :=
      hnext.trans (u32_of_lt (by omega))
    refine ⟨by omega, by omega, .inl ⟨fun a ha => ?_, [], rest, rfl, .inl rfl,
      fun q hq => absurd hq List.not_mem_nil, (List.pairwise_cons.mp hfresh).2, fun q hq => ?_⟩⟩
    · rcases List.mem_append.mp ha with ha | ha
      · exact hc.acks a ha
      · exact (hreply a (Option.mem_toList.mp ha)).1
    · show q.seq + q.payload ≤ f.qp.sndNxt
      rw [hqp]
      exact hsent q (List.mem_cons_of_mem _ hq)
  · refine ⟨by omega, by omega, ?_⟩
    cases reply with
    | none =>
      -- passed over: one packet less, on whichever side it stood
      refine .inl ⟨fun a ha => ?_, ?_⟩
      · rcases List.mem_append.mp ha with ha | ha
        · exact hc.acks a ha
        · exact absurd ha List.not_mem_nil
      show ∃ stale fresh, rest = stale ++ fresh ∧
        (stale = [] ∨ f.nextExpected ∈ s.nacked ++ nackSeqs none) ∧
        (∀ q ∈ stale, f.nextExpected < q.seq) ∧ InSequence fresh ∧
        ∀ q ∈ fresh, q.seq + q.payload ≤ f.qp.sndNxt
      rw [hnext, nackSeqs_none, List.append_nil, hqp]
      cases stale with
      | nil =>
        rw [List.nil_append] at hsplit
        subst hsplit
        exact ⟨[], rest, rfl, .inl rfl, fun q hq => absurd hq List.not_mem_nil,
          (List.pairwise_cons.mp hfresh).2, fun q hq => hsent q (List.mem_cons_of_mem _ hq)⟩
      | cons q stale =>
        have hrest : rest = stale ++ fresh := (List.cons.inj hsplit).2
        refine ⟨stale, fresh, hrest, ?_, fun r hr => hstale r (List.mem_cons_of_mem _ hr), hfresh,
          hsent⟩
        exact .inr (hnacked.resolve_left (List.cons_ne_nil q stale))
    | some a =>
      -- the first NACK for this hole
      obtain ⟨hnack, haseq, hlt⟩ := hreply a rfl
      have hnot : s.flow.nextExpected ∉ s.nacked := by
        rcases honce with hempty | hnot
        · rw [nackSeqs_nack hnack] at hempty
          exact absurd hempty (List.cons_ne_nil _ _)
        · exact hnot
      have hstale_nil : stale = [] := hnacked.resolve_right hnot
      subst hstale_nil
      rw [List.nil_append] at hsplit
      subst hsplit
      refine .inr ⟨?_, ?_, fun q hq => ?_, s.ackQ, a, rfl, hnack, haseq.trans hnext.symm, hc.acks⟩
      · show f.nextExpected ∈ s.nacked ++ nackSeqs (some a)
        rw [hnext, nackSeqs_nack hnack, haseq]
        exact List.mem_append.mpr (.inr (List.mem_singleton.mpr rfl))
      · have := hsent p List.mem_cons_self
        show f.nextExpected < f.qp.sndNxt
        rw [hqp]
        omega
      · have := (List.pairwise_cons.mp hfresh).1 q hq
        show f.nextExpected < q.seq
        omega

/-- In the pending phase a delivery changes nothing: every packet in flight is
beyond the hole, and its NACK has been sent. -/
theorem tidy_deliverData_pending {s : Path} {p : DataPacket} {rest : List DataPacket}
    {x : CheckSeq} {reply : Option AckPacket} {f : Flow} (hp : Pending s)
    (hq : s.dataQ = p :: rest) (hqp : f.qp = s.flow.qp)
    (hcase : (p.seq = s.flow.nextExpected ∧ x.accepts = true ∧
        f.nextExpected = u32 (s.flow.nextExpected + p.payload) ∧
        ∀ a ∈ reply, a.isNack = false ∧ a.seq = f.nextExpected) ∨
      (x.accepts = false ∧ f.nextExpected = s.flow.nextExpected ∧
        ∀ a ∈ reply, a.isNack = true ∧ a.seq = s.flow.nextExpected ∧
          s.flow.nextExpected < p.seq))
    (honce : nackSeqs reply = [] ∨ s.flow.nextExpected ∉ s.nacked) :
    f.nextExpected = s.flow.nextExpected ∧
      Pending { s with flow := f, dataQ := rest, ackQ := s.ackQ ++ reply.toList,
                       nacked := s.nacked ++ nackSeqs reply } := by
  have hbeyond : s.flow.nextExpected < p.seq := hp.data p (by simp [hq])
  rcases hcase with ⟨hseq, -, -, -⟩ | ⟨-, hnext, hreply⟩
  · omega
  -- the NACK of the hole is out, and there is no other
  have hnone : reply = none := by
    cases reply with
    | none => rfl
    | some a =>
      rcases honce with hempty | hnot
      · rw [nackSeqs_nack (hreply a rfl).1] at hempty
        exact absurd hempty (List.cons_ne_nil _ _)
      · exact absurd hp.nacked hnot
  subst hnone
  obtain ⟨acks, n, hacks, hnack, hnseq, hall⟩ := hp.acks
  refine ⟨hnext, ?_, ?_, fun q hmem => ?_, acks, n, ?_, hnack, hnseq.trans hnext.symm, hall⟩
  · show f.nextExpected ∈ s.nacked ++ nackSeqs none
    rw [hnext, nackSeqs_none, List.append_nil]
    exact hp.nacked
  · show f.nextExpected < f.qp.sndNxt
    rw [hnext, hqp]
    exact hp.beyond
  · show f.nextExpected < q.seq
    rw [hnext]
    exact hp.data q (by rw [hq]; exact List.mem_cons_of_mem _ hmem)
  · show s.ackQ ++ [] = _
    rw [List.append_nil, hacks]

theorem tidy_deliverData {hw : RdmaHw} (hb : hw.backto0 = false) {s t : Path} {ecnbits : Nat}
    (h : Tidy s) (honce : NackOnce hw s (.deliverData ecnbits))
    (hstep : step hw s (.deliverData ecnbits) = some t) : Tidy t := by
  have hin := inside_step hb s (.deliverData ecnbits) t h.inside hstep
  have honce' := honce t hstep
  obtain ⟨p, rest, x, reply, f, hq, hrecv, rfl⟩ := deliverData_eq hstep
  obtain ⟨hqp, hmapEq, -, hcase⟩ := Flow.receiveUdp_cases hb hrecv
  -- the receiver sends no second NACK for the same hole
  have hno : nackSeqs reply = [] ∨ s.flow.nextExpected ∉ s.nacked := by
    rcases honce' with hsame | hnot
    · exact .inl (List.append_right_eq_self.mp hsame)
    · exact .inr hnot
  -- either phase goes on: a clear path may lose a packet, a pending NACK stays
  have hboth (hmap : s.flow.inQpMap = true) :
      s.flow.nextExpected ≤ f.nextExpected ∧ f.nextExpected ≤ s.flow.qp.sndNxt ∧
        (Clear { s with flow := f, dataQ := rest, ackQ := s.ackQ ++ reply.toList,
                        nacked := s.nacked ++ nackSeqs reply } ∨
         Pending { s with flow := f, dataQ := rest, ackQ := s.ackQ ++ reply.toList,
                          nacked := s.nacked ++ nackSeqs reply }) := by
    rcases h.phase hmap with hc | hp
    · exact tidy_deliverData_clear h.small h.inside.nxt (h.expected hmap) hc hq hqp hcase hno
    · obtain ⟨hnext, hp'⟩ := tidy_deliverData_pending hp hq hqp hcase hno
      exact ⟨by omega, by rw [hnext]; exact h.expected hmap, .inr hp'⟩
  have hreply : ∀ a ∈ reply, a.seq ≤ f.nextExpected := fun a ha => by
    rcases hcase with ⟨-, -, -, hr⟩ | ⟨-, hnext, hr⟩
    · exact Nat.le_of_eq (hr a ha).2
    · rw [hnext]
      exact Nat.le_of_eq (hr a ha).2.1
  refine ⟨by simpa [hqp] using h.small, hin, fun hmap => ?_, fun hmap => ?_, fun hmap a ha => ?_,
    fun hmap => (hboth (hmapEq ▸ hmap)).2.2⟩
  · have := h.una (hmapEq ▸ hmap)
    have := (hboth (hmapEq ▸ hmap)).1
    show f.qp.sndUna ≤ f.nextExpected
    rw [hqp]
    omega
  · show f.nextExpected ≤ f.qp.sndNxt
    rw [hqp]
    exact (hboth (hmapEq ▸ hmap)).2.1
  · rcases List.mem_append.mp ha with ha | ha
    · exact Nat.le_trans (h.acks (hmapEq ▸ hmap) a ha) (hboth (hmapEq ▸ hmap)).1
    · exact hreply a (Option.mem_toList.mp ha)

theorem ackInOrder_of_tidy {hw : RdmaHw} {s : Path} (h : Tidy s) (e : Event) :
    AckInOrder hw s e := by
  cases e with
  | deliverAck =>
    intro a ha _ _ hmap
    exact Nat.le_trans (h.acks hmap a (List.mem_of_mem_head? ha)) (h.expected hmap)
  | _ => trivial

/-- An applied ACK moves `snd_una` up to the receiver; the pending NACK closes
the phase by rolling both ends of the window back to the hole. -/
theorem tidy_deliverAck {hw : RdmaHw} (hb : hw.backto0 = false) (hack : hw.ackInterval ≠ 0)
    {s t : Path} (h : Tidy s) (hstep : step hw s .deliverAck = some t) : Tidy t := by
  have hin := inside_step hb s .deliverAck t h.inside hstep
  obtain ⟨a, rest, f, hq, hrecv, rfl⟩ := deliverAck_eq hstep
  rcases Flow.receiveAck_cases hb hrecv with ⟨hmap, rfl⟩ | ⟨-, hzero, -⟩ | ⟨hmap, -, -, rfl⟩ |
    ⟨-, -, -, rfl⟩
  -- the flow has completed before, and nothing is claimed of it
  · have hgone (P : Prop) (h : s.flow.inQpMap = true) : P := by
      rw [hmap] at h
      exact absurd h Bool.false_ne_true
    exact ⟨h.small, hin, hgone _, hgone _, hgone _, hgone _⟩
  · exact absurd hzero hack
  · have haseq : a.seq ≤ s.flow.nextExpected := h.acks hmap a (by simp [hq])
    have huna := h.una hmap
    have hmax : max s.flow.qp.sndUna a.seq ≤ s.flow.nextExpected := Nat.max_le.mpr ⟨huna, haseq⟩
    have hrest : ∀ b ∈ rest, b.seq ≤ s.flow.nextExpected :=
      fun b hb => h.acks hmap b (by simp [hq, hb])
    rcases h.phase hmap with hc | hp
    -- no NACK is on its way: the ACK moves one end of the window
    · have hnack : a.isNack = false := hc.acks a (by simp [hq])
      have hafter (q : RdmaQueuePair) : afterAck a q = q := by simp [afterAck, hnack]
      simp only [hafter] at hin ⊢
      refine ⟨by simpa using h.small, hin, fun _ => by simpa using hmax,
        fun _ => by simpa using h.expected hmap, fun _ => hrest, fun _ => .inl ⟨?_, ?_⟩⟩
      · exact fun b hb => hc.acks b (by rw [hq]; exact List.mem_cons_of_mem _ hb)
      · simpa using hc.data
    · obtain ⟨acks, n, hacks, hnack, hnseq, hall⟩ := hp.acks
      rw [hq] at hacks
      cases acks with
      | nil =>
        -- the NACK itself arrives, and the phase is over
        obtain ⟨rfl, rfl⟩ := List.cons.inj hacks
        have hone : max s.flow.qp.sndUna a.seq = s.flow.nextExpected := by omega
        have hafter (q : RdmaQueuePair) : afterAck a q = q.recoverQueue := by
          simp [afterAck, hnack]
        simp only [hafter] at hin ⊢
        refine ⟨by simpa using h.small, hin, fun _ => by simpa using hmax, fun _ => ?_,
          fun _ => hrest, fun _ => .inl ⟨fun _ hb => absurd hb List.not_mem_nil, s.dataQ, [],
            (List.append_nil _).symm, .inr hp.nacked, hp.data, List.Pairwise.nil,
            fun _ hp => absurd hp List.not_mem_nil⟩⟩
        show s.flow.nextExpected ≤ (s.flow.qp.acknowledge a.seq).recoverQueue.sndNxt
        simp [hone]
      | cons b acks =>
        -- an ACK in front of the NACK
        obtain ⟨rfl, hrestEq⟩ := List.cons.inj hacks
        have hafter (q : RdmaQueuePair) : afterAck a q = q := by
          simp [afterAck, hall a List.mem_cons_self]
        simp only [hafter] at hin ⊢
        refine ⟨by simpa using h.small, hin, fun _ => by simpa using hmax,
          fun _ => by simpa using h.expected hmap, fun _ => hrest, fun _ => .inr ⟨hp.nacked, ?_,
            hp.data, acks, n, hrestEq, hnack, hnseq, fun b hb => hall b ?_⟩⟩
        · simpa using hp.beyond
        · exact List.mem_cons_of_mem _ hb
  · exact ⟨by simpa using h.small, hin, nofun, nofun, nofun, nofun⟩

theorem tidy_step {hw : RdmaHw} (hb : hw.backto0 = false) (hack : hw.ackInterval ≠ 0) (s : Path)
    (e : Event) (t : Path) (h : Tidy s) (honce : NackOnce hw s e) (hstep : step hw s e = some t) :
    Tidy t := by
  cases e with
  | transmit => exact tidy_transmit hb h hstep
  | loseData i => exact tidy_loseData hb h hstep
  | deliverData ecnbits => exact tidy_deliverData hb h honce hstep
  | deliverAck => exact tidy_deliverAck hb hack h hstep
  | tick d =>
    have hin := inside_step hb s (.tick d) t h.inside hstep
    cases hstep
    exact ⟨h.small, hin, h.una, h.expected, h.acks, fun hmap => (h.phase hmap).imp
      (fun hc => ⟨hc.acks, hc.data⟩) (fun hp => ⟨hp.nacked, hp.beyond, hp.data, hp.acks⟩)⟩
  | changeRate rate =>
    have hin := inside_step hb s (.changeRate rate) t h.inside hstep
    cases hstep
    exact ⟨h.small, hin, h.una, h.expected, h.acks, fun hmap => (h.phase hmap).imp
      (fun hc => ⟨hc.acks, hc.data⟩) (fun hp => ⟨hp.nacked, hp.beyond, hp.data, hp.acks⟩)⟩

/-- With at most one NACK for each sequence number, no ACK overtakes a rollback. -/
theorem ackInOrder_of_nackOnce {hw : RdmaHw} (hb : hw.backto0 = false) {s : Path} (h : Tidy s)
    {es : List Event} (honce : Guarded (step hw) (NackOnce hw) s es) :
    Guarded (step hw) (AckInOrder hw) s es := by
  by_cases hack : hw.ackInterval = 0
  · refine honce.mono fun s e _ => ?_
    cases e with
    | deliverAck => exact fun _ _ _ hne _ => absurd hack hne
    | _ => trivial
  · have htidy : Always (step hw) Tidy s es := always_of_guarded (tidy_step hb hack) h honce
    have horder : ∀ s e t, Tidy s → Tidy t → step hw s e = some t → AckInOrder hw s e :=
      fun _ e _ hs _ _ => ackInOrder_of_tidy hs e
    exact guarded_of_always horder htidy

/-! ## Main result -/

/-- For every run of a flow: the window stays well formed and a finished queue
pair silent exactly when no ACK is applied beyond `snd_nxt`, and that is so when
the receiver sends at most one NACK for each sequence number. -/
theorem window_exact (hw : RdmaHw) (hb : hw.backto0 = false) (size : UInt64) (win : UInt32)
    (varWin : Bool) (bps : UInt64) (es : List Event) :
    let s := Path.start (Flow.start size win varWin bps)
    (Always (step hw) (fun s => WindowSafe s.flow.qp) s es ∧
        Guarded (step hw) FinishedIsSilent s es ↔ Guarded (step hw) (AckInOrder hw) s es) ∧
      (size.toNat < 2 ^ 32 → Guarded (step hw) (NackOnce hw) s es →
        Guarded (step hw) (AckInOrder hw) s es) :=
  ⟨windowSafe_iff hb (inside_start size win varWin bps) (Nat.le_refl 0) es,
    fun hsize honce => ackInOrder_of_nackOnce hb (tidy_start size hsize win varWin bps) honce⟩

/-- One NACK, the rollback, and the retransmission. -/
theorem window_exact_oneNack :
    Guarded (step RdmaHw.shipped) (AckInOrder RdmaHw.shipped)
      (Path.start (Flow.start 4000 3000 false 100000000000))
      [.transmit, .transmit, .loseData 0, .deliverData 0, .deliverAck, .transmit, .deliverData 0,
        .deliverAck] :=
  (window_exact RdmaHw.shipped rfl 4000 3000 false 100000000000 _).2 (by decide) (by decide)

/-! ## The failing run -/

def lateStart : Path := .start (.start 4000 3000 false 100000000000)

/-- The first of three packets is lost. The second and the third each draw a NACK
for it, half a millisecond apart; the first NACK rolls back, the packet is sent
again and acknowledged; the second NACK rolls back once more, and then the ACK
arrives. -/
def lateRun : List Event :=
  [.transmit, .transmit, .transmit, .loseData 0, .deliverData 0, .tick 500000, .deliverData 0,
    .deliverAck, .transmit, .deliverData 0, .deliverAck, .deliverAck]

/-- A thousand bytes are acknowledged while `snd_nxt` is back at `0`. Nothing is
outstanding, the sender computes `2^64 - 1000` bytes on the fly, and it holds
itself window-bound. -/
theorem lateRun_wraps :
    ∃ t, run (step RdmaHw.shipped) lateStart lateRun = some t ∧ t.flow.qp.sndUna = 1000 ∧
      t.flow.qp.sndNxt = 0 ∧ t.flow.qp.getOnTheFly = 2 ^ 64 - 1000 ∧
      t.flow.qp.isWinBound = true := by
  decide

end Paraleon.Rdma.Window
