import Paraleon.Rdma.Hw
import Paraleon.Switch.EgressQueue

/-!
# The egress queue of a NIC

`RdmaEgressQueue`: the queue of ACKs, NACKs and CNPs, which goes first, and the
queue pairs, which take turns. `GetNextQindex` chooses, and removes the queue
pairs that have finished on its way.
-/

namespace Paraleon.Rdma

open Switch

/-- What a NIC reads of its configuration and that of its `RdmaHw`. `intSize` is
`IntHeader::GetStaticSize`. The time `CalculateTxTime` gives for a rate and a
number of bytes, in ns, is the outcome of floating-point arithmetic and left
open. -/
structure NicConfig where
  hw : RdmaHw
  intSize : Nat
  rateBound : Bool
  tInterframeGap : Nat
  ackQIdx : Switch.Class
  qbbEnabled : Bool
  calculateTxTime : Nat → Nat → Nat

/-- A queue pair in the group of a NIC: its transport state, and the fields that
packets and pacing need. Times are in ns. -/
structure NicQueuePair where
  transport : RdmaQueuePair
  pg : Switch.Class
  sip : UInt32
  dip : UInt32
  sport : UInt16
  dport : UInt16
  nextAvail : Nat

structure RdmaEgressQueue where
  rrlast : Nat
  ackQ : List Packet
  qpGrp : List NicQueuePair

/-- The return value of `GetNextQindex`: `-1024`, `-1`, or the index of a queue
pair. -/
inductive Qindex where
  | none
  | highPrio
  | qp (i : Nat)
deriving DecidableEq, Repr

namespace NicQueuePair

/-- The conditions on a queue pair that `GetNextQindex` checks before the time. -/
def canSend (q : NicQueuePair) (paused : Switch.Class → Bool) : Bool :=
  !paused q.pg && decide (0 < q.transport.getBytesLeft) && !q.transport.isWinBound

/-- `GetNxtPacket`, with its headers: SeqTs, UDP, IPv4 and PPP. -/
def getNxtPacket (c : NicConfig) (q : NicQueuePair) : Packet × NicQueuePair :=
  let (p, transport) := Rdma.getNxtPacket c.hw q.transport
  ({ size := p.payload + (6 + c.intSize) + 8 + 20 + 14, l3Prot := 0x11, sip := q.sip, dip := q.dip,
     sport := q.sport, dport := q.dport, pg := q.pg },
    { q with transport })

/-- `PktSent`: when the queue pair may send again. -/
def pktSent (c : NicConfig) (now : Nat) (q : NicQueuePair) (size : Nat) : NicQueuePair :=
  let rate := if c.rateBound then q.transport.rate else q.transport.maxRate
  { q with nextAvail := now + (c.tInterframeGap + c.calculateTxTime rate size) }

end NicQueuePair

namespace RdmaEgressQueue

def create : RdmaEgressQueue := { rrlast := 0, ackQ := [], qpGrp := [] }

/-- The loop of `GetNextQindex` over the values of `qIndex`: the queue pair it
stops at, and the least index of a finished one it has met. -/
def scan (b : RdmaEgressQueue) (now : Nat) (paused : Switch.Class → Bool) :
    List Nat → Option Nat → Option Nat × Option Nat
  | [], minFinishId => (none, minFinishId)
  | qIndex :: rest, minFinishId =>
    let idx := (qIndex + b.rrlast) % b.qpGrp.length
    match b.qpGrp[idx]? with
    | none => (none, minFinishId)
    | some q =>
      if q.canSend paused then
        if now < q.nextAvail then b.scan now paused rest minFinishId else (some idx, minFinishId)
      else if q.transport.isFinished then
        b.scan now paused rest (some (minFinishId.elim idx (min idx)))
      else b.scan now paused rest minFinishId

/-- The loop that clears finished queue pairs, from position `i` on: `kept` holds
those it has moved so far, and `res` follows the queue pair that was chosen. -/
def clearFinished : Nat → List NicQueuePair → List NicQueuePair → Option Nat →
    List NicQueuePair × Option Nat
  | _, [], kept, res => (kept, res)
  | i, q :: rest, kept, res =>
    if q.transport.isFinished then clearFinished (i + 1) rest kept res
    else clearFinished (i + 1) rest (kept ++ [q]) (if res = some i then some kept.length else res)

def getNextQindex (c : NicConfig) (now : Nat) (paused : Switch.Class → Bool) (b : RdmaEgressQueue) :
    Qindex × RdmaEgressQueue :=
  if paused c.ackQIdx = false ∧ b.ackQ ≠ [] then (.highPrio, b)
  else
    let (res, minFinishId) := b.scan now paused (List.range' 1 b.qpGrp.length) none
    let (qpGrp, res) :=
      match minFinishId with
      | none => (b.qpGrp, res)
      | some m => clearFinished (m + 1) (b.qpGrp.drop (m + 1)) (b.qpGrp.take m) res
    (res.elim .none .qp, { b with qpGrp })

/-- `DequeueQindex`. -/
def dequeueQindex (c : NicConfig) (b : RdmaEgressQueue) : Qindex → Option (Packet × RdmaEgressQueue)
  | .none => none
  | .highPrio =>
    match b.ackQ with
    | [] => none
    | p :: ackQ => some (p, { b with ackQ })
  | .qp i => do
    let q ← b.qpGrp[i]?
    let (p, q) := q.getNxtPacket c
    some (p, { b with rrlast := i, qpGrp := b.qpGrp.set i q })

/-- `m_rdmaPktSent`, for the queue pair that was dequeued. -/
def pktSent (c : NicConfig) (now : Nat) (b : RdmaEgressQueue) (size : Nat) :
    Qindex → RdmaEgressQueue
  | .qp i => { b with qpGrp := b.qpGrp.modify i fun q => q.pktSent c now size }
  | .none | .highPrio => b

/-- The largest time value. -/
def maximumSimulationTime : Nat := 2 ^ 63 - 1

/-- The earliest time at which a queue pair with bytes left may send. -/
def nextAvail (b : RdmaEgressQueue) : Nat :=
  b.qpGrp.foldl (fun t q => if q.transport.getBytesLeft = 0 then t else min q.nextAvail t)
    maximumSimulationTime

/-! ## What `GetNextQindex` finds -/

section GetNextQindex

variable {c : NicConfig} {b : RdmaEgressQueue} {now : Nat} {paused : Switch.Class → Bool}

/-- The test by which the scan meets a queue pair that can be cleared. -/
def clearable (paused : Switch.Class → Bool) (q : NicQueuePair) : Bool :=
  !q.canSend paused && q.transport.isFinished

/-- What clearing leaves of a group: from the first clearable queue pair on, the
finished ones are gone. -/
def survivors (paused : Switch.Class → Bool) : List NicQueuePair → List NicQueuePair
  | [] => []
  | q :: rest =>
    if clearable paused q then rest.filter fun q => !q.transport.isFinished
    else q :: survivors paused rest

/-- The scan starts behind `rrlast` and comes round to every position. -/
theorem exists_mem_range' {n i : Nat} (r : Nat) (hi : i < n) :
    ∃ qIndex ∈ List.range' 1 n, (qIndex + r) % n = i := by
  have hr : r % n < n := Nat.mod_lt _ (Nat.zero_lt_of_lt hi)
  rcases Nat.lt_or_ge (r % n) i with hlt | hge
  · refine ⟨i - r % n, List.mem_range'_1.mpr ⟨by omega, by omega⟩, ?_⟩
    rw [← Nat.add_mod_mod, Nat.sub_add_cancel (Nat.le_of_lt hlt), Nat.mod_eq_of_lt hi]
  · refine ⟨n + i - r % n, List.mem_range'_1.mpr ⟨by omega, by omega⟩, ?_⟩
    rw [← Nat.add_mod_mod, Nat.sub_add_cancel (by omega), Nat.add_mod_left, Nat.mod_eq_of_lt hi]

theorem getElem?_scanned_none {qIndex : Nat}
    (h : b.qpGrp[(qIndex + b.rrlast) % b.qpGrp.length]? = none) : b.qpGrp = [] := by
  cases hgrp : b.qpGrp with
  | nil => rfl
  | cons q rest =>
    rw [hgrp, List.getElem?_eq_none_iff] at h
    exact absurd (Nat.mod_lt _ (by simp)) (Nat.not_lt_of_le h)

/-- The queue pair the scan stops at can send, and is due. -/
theorem scan_eq_some {L : List Nat} {m : Option Nat} {i : Nat}
    (h : (b.scan now paused L m).1 = some i) :
    ∃ q, b.qpGrp[i]? = some q ∧ q.canSend paused = true ∧ q.nextAvail ≤ now := by
  induction L generalizing m with
  | nil => simp [scan] at h
  | cons qIndex rest ih =>
    simp only [scan] at h
    split at h
    · simp at h
    next q hq =>
    split at h
    · next hsend =>
      split at h
      · exact ih h
      · next hdue =>
        obtain rfl : _ = i := Option.some.inj h
        exact ⟨q, hq, hsend, Nat.le_of_not_lt hdue⟩
    · split at h
      · exact ih h
      · exact ih h

/-- One step of a scan that does not stop at the queue pair it looks at. -/
theorem scan_cons_of_none {first : Nat} {rest : List Nat} {m : Option Nat} {q : NicQueuePair}
    (h : (b.scan now paused (first :: rest) m).1 = none)
    (hq : b.qpGrp[(first + b.rrlast) % b.qpGrp.length]? = some q) :
    (q.canSend paused = true → now < q.nextAvail) ∧
      b.scan now paused (first :: rest) m = b.scan now paused rest
        (if clearable paused q then
          some (m.elim ((first + b.rrlast) % b.qpGrp.length)
            (min ((first + b.rrlast) % b.qpGrp.length)))
        else m) := by
  simp only [scan, hq] at h ⊢
  cases hsend : q.canSend paused with
  | true =>
    simp only [hsend, if_true, clearable, Bool.not_true, Bool.false_and, Bool.false_eq_true,
      if_false, true_implies] at h ⊢
    split at h
    · next hlater => exact ⟨hlater, if_pos hlater⟩
    · cases h
  | false =>
    cases hfinished : q.transport.isFinished with
    | true => simp [clearable, hsend, hfinished]
    | false => simp [clearable, hsend, hfinished]

/-- A scan that stops nowhere has met no queue pair that can send and is due. -/
theorem scan_eq_none {L : List Nat} {m : Option Nat} (h : (b.scan now paused L m).1 = none) :
    ∀ qIndex ∈ L, ∀ q, b.qpGrp[(qIndex + b.rrlast) % b.qpGrp.length]? = some q →
      q.canSend paused = true → now < q.nextAvail := by
  induction L generalizing m with
  | nil => intro qIndex hmem; cases hmem
  | cons first rest ih =>
    intro qIndex hmem q hq hsend
    cases hfirst : b.qpGrp[(first + b.rrlast) % b.qpGrp.length]? with
    | none => simp [getElem?_scanned_none hfirst] at hq
    | some q₁ =>
      obtain ⟨hlater, heq⟩ := scan_cons_of_none h hfirst
      rcases List.mem_cons.mp hmem with rfl | hrest
      · obtain rfl : q₁ = q := Option.some.inj (hfirst.symm.trans hq)
        exact hlater hsend
      · rw [heq] at h
        exact ih h qIndex hrest q hq hsend

/-! The smaller of a position and the one noted so far, if there is one. -/

theorem noted_cases {m : Option Nat} {i k : Nat} (h : m.elim i (min i) = k) :
    i = k ∨ m = some k := by
  cases m with
  | none => exact .inl h
  | some k₀ =>
    rcases Nat.le_total i k₀ with hle | hle
    · exact .inl ((Nat.min_eq_left hle).symm.trans h)
    · exact .inr (congrArg some ((Nat.min_eq_right hle).symm.trans h))

theorem noted_le (m : Option Nat) (i : Nat) : m.elim i (min i) ≤ i := by
  cases m with
  | none => exact Nat.le_refl i
  | some k₀ => exact Nat.min_le_left i k₀

theorem noted_le_of_eq {m : Option Nat} {k : Nat} (h : m = some k) (i : Nat) :
    m.elim i (min i) ≤ k := by
  subst h
  exact Nat.min_le_right i k

/-- A scan that stops nowhere returns the least position of a clearable queue pair
among those it met and the one it started with. -/
theorem scan_minFinishId {L : List Nat} {m : Option Nat} (h : (b.scan now paused L m).1 = none) :
    (∀ k, (b.scan now paused L m).2 = some k →
      m = some k ∨ ∃ q, b.qpGrp[k]? = some q ∧ clearable paused q = true) ∧
    (∀ k, m = some k → ∃ k', (b.scan now paused L m).2 = some k' ∧ k' ≤ k) ∧
    ∀ qIndex ∈ L, ∀ q, b.qpGrp[(qIndex + b.rrlast) % b.qpGrp.length]? = some q →
      clearable paused q = true → ∃ k, (b.scan now paused L m).2 = some k ∧
        k ≤ (qIndex + b.rrlast) % b.qpGrp.length := by
  induction L generalizing m with
  | nil =>
    refine ⟨fun k hk => .inl hk, fun k hk => ⟨k, hk, Nat.le_refl k⟩, ?_⟩
    intro qIndex hmem
    cases hmem
  | cons first rest ih =>
    cases hfirst : b.qpGrp[(first + b.rrlast) % b.qpGrp.length]? with
    | none =>
      have hnil := getElem?_scanned_none hfirst
      simp only [scan, hfirst]
      refine ⟨fun k hk => .inl hk, fun k hk => ⟨k, hk, Nat.le_refl k⟩, ?_⟩
      intro qIndex hmem q hq
      simp [hnil] at hq
    | some q₁ =>
      obtain ⟨-, heq⟩ := scan_cons_of_none h hfirst
      rw [heq] at h ⊢
      obtain ⟨hfrom, hkeep, hmet⟩ := ih h
      -- only a clearable queue pair enters the minimum
      cases hclear₁ : clearable paused q₁ with
      | false =>
        simp only [hclear₁, Bool.false_eq_true, if_false] at hfrom hkeep hmet ⊢
        refine ⟨hfrom, hkeep, ?_⟩
        intro qIndex hmem q hq hclear
        rcases List.mem_cons.mp hmem with rfl | hrest
        · obtain rfl : q₁ = q := Option.some.inj (hfirst.symm.trans hq)
          exact absurd (hclear₁.symm.trans hclear) (by simp)
        · exact hmet qIndex hrest q hq hclear
      | true =>
        simp only [hclear₁, if_true] at hfrom hkeep hmet ⊢
        obtain ⟨k₁, hk₁, hle⟩ := hkeep _ rfl
        refine ⟨?_, ?_, ?_⟩
        · intro k hk
          rcases hfrom k hk with hk' | hex
          · -- the rest started with the smaller of the two
            rcases noted_cases (Option.some.inj hk') with hfirst' | hm
            · exact .inr ⟨q₁, hfirst' ▸ hfirst, hclear₁⟩
            · exact .inl hm
          · exact .inr hex
        · intro k hk
          exact ⟨k₁, hk₁, Nat.le_trans hle (noted_le_of_eq hk _)⟩
        · intro qIndex hmem q hq hclear
          rcases List.mem_cons.mp hmem with rfl | hrest
          · exact ⟨k₁, hk₁, Nat.le_trans hle (noted_le m _)⟩
          · exact hmet qIndex hrest q hq hclear

/-- Whatever the scan stops at, the least position it returns beside the one it started
with is that of a finished queue pair. -/
theorem scan_snd_finished {L : List Nat} {m : Option Nat} {k : Nat}
    (h : (b.scan now paused L m).2 = some k) :
    m = some k ∨ ∃ q, b.qpGrp[k]? = some q ∧ q.transport.isFinished = true := by
  induction L generalizing m with
  | nil => exact .inl h
  | cons qIndex rest ih =>
    simp only [scan] at h
    split at h
    · exact .inl h
    next q hq =>
    split at h
    · split at h
      · exact ih h
      · exact .inl h
    · split at h
      · next hfinished =>
        rcases ih h with hk | hex
        · rcases noted_cases (Option.some.inj hk) with hfirst | hm
          · exact .inr ⟨q, hfirst ▸ hq, hfinished⟩
          · exact .inl hm
        · exact .inr hex
      · exact ih h

theorem clearFinished_fst (i : Nat) (rest kept : List NicQueuePair) (res : Option Nat) :
    (clearFinished i rest kept res).1 = kept ++ rest.filter fun q => !q.transport.isFinished := by
  induction rest generalizing i kept res with
  | nil => simp [clearFinished]
  | cons q rest ih =>
    rw [clearFinished]
    split
    · next hfinished => rw [ih, List.filter_cons_of_neg (by simp [hfinished])]
    · next hfinished => rw [ih, List.filter_cons_of_pos (by simp [hfinished]), List.append_assoc,
        List.singleton_append]

theorem clearFinished_snd_eq_none {i : Nat} {rest kept : List NicQueuePair} {res : Option Nat} :
    (clearFinished i rest kept res).2 = none ↔ res = none := by
  induction rest generalizing i kept res with
  | nil => rfl
  | cons q rest ih =>
    rw [clearFinished]
    split
    · exact ih
    · rw [ih]
      split
      · next hres => simp [hres]
      · rfl

theorem survivors_of_first {grp : List NicQueuePair} {k : Nat} {q : NicQueuePair}
    (hk : grp[k]? = some q) (hclear : clearable paused q = true)
    (hfirst : ∀ j q', grp[j]? = some q' → clearable paused q' = true → k ≤ j) :
    survivors paused grp
      = grp.take k ++ (grp.drop (k + 1)).filter fun q => !q.transport.isFinished := by
  induction grp generalizing k with
  | nil => simp at hk
  | cons q₀ rest ih =>
    cases k with
    | zero =>
      obtain rfl : q₀ = q := by simpa using hk
      simp [survivors, hclear]
    | succ k =>
      have hq₀ : ¬clearable paused q₀ = true := fun h => by simpa using hfirst 0 q₀ rfl h
      rw [survivors, if_neg hq₀, ih (k := k) (by simpa using hk)]
      · rfl
      · intro j q' hj hq'
        exact Nat.le_of_succ_le_succ (hfirst (j + 1) q' (by simpa using hj) hq')

theorem survivors_of_none {grp : List NicQueuePair}
    (h : ∀ q ∈ grp, clearable paused q = false) : survivors paused grp = grp := by
  induction grp with
  | nil => rfl
  | cons q rest ih =>
    rw [survivors, if_neg (by simp [h q List.mem_cons_self]),
      ih fun q' hq' => h q' (List.mem_cons_of_mem _ hq')]

theorem mem_of_mem_survivors {grp : List NicQueuePair} {q : NicQueuePair}
    (h : q ∈ survivors paused grp) : q ∈ grp := by
  induction grp with
  | nil => exact h
  | cons q₀ rest ih =>
    rw [survivors] at h
    split at h
    · exact List.mem_cons_of_mem _ (List.mem_filter.mp h).1
    · rcases List.mem_cons.mp h with rfl | hrest
      · exact List.mem_cons_self
      · exact List.mem_cons_of_mem _ (ih hrest)

/-- `GetNextQindex` may return no queue pair and no control packet. -/
def NothingDue (c : NicConfig) (now : Nat) (paused : Switch.Class → Bool) (b : RdmaEgressQueue) :
    Prop :=
  (paused c.ackQIdx = true ∨ b.ackQ = []) ∧
    ∀ q ∈ b.qpGrp, q.canSend paused = true → now < q.nextAvail

theorem scan_range_eq_none_iff :
    (b.scan now paused (List.range' 1 b.qpGrp.length) none).1 = none ↔
      ∀ q ∈ b.qpGrp, q.canSend paused = true → now < q.nextAvail := by
  constructor
  · intro h q hq
    obtain ⟨i, hi, rfl⟩ := List.mem_iff_getElem.mp hq
    obtain ⟨qIndex, hmem, hidx⟩ := exists_mem_range' b.rrlast hi
    exact scan_eq_none h qIndex hmem b.qpGrp[i] (by rw [hidx]; exact List.getElem?_eq_getElem hi)
  · intro h
    cases hscan : (b.scan now paused (List.range' 1 b.qpGrp.length) none).1 with
    | none => rfl
    | some i =>
      obtain ⟨q, hq, hsend, hdue⟩ := scan_eq_some hscan
      exact absurd (h q (List.mem_of_getElem? hq) hsend) (Nat.not_lt_of_le hdue)

theorem getNextQindex_of_ack (h : paused c.ackQIdx = false ∧ b.ackQ ≠ []) :
    b.getNextQindex c now paused = (.highPrio, b) := if_pos h

variable (now) in
theorem getNextQindex_ne_highPrio (h : ¬(paused c.ackQIdx = false ∧ b.ackQ ≠ [])) :
    (b.getNextQindex c now paused).1 ≠ .highPrio := by
  have helim (res : Option Nat) : res.elim Qindex.none .qp ≠ .highPrio := by
    cases res <;> simp
  rw [getNextQindex, if_neg h]
  exact helim _

theorem getNextQindex_eq_none_iff :
    (b.getNextQindex c now paused).1 = .none ↔ NothingDue c now paused b := by
  unfold NothingDue
  rw [← scan_range_eq_none_iff, getNextQindex]
  split
  · next hack =>
    refine ⟨(nomatch ·), ?_⟩
    rintro ⟨hpaused | hempty, -⟩
    · simp [hack.1] at hpaused
    · exact absurd hempty hack.2
  · next hack =>
    have hack' : paused c.ackQIdx = true ∨ b.ackQ = [] := by
      rcases hp : paused c.ackQIdx with _ | _
      · exact .inr (by_contra fun hne => hack ⟨hp, hne⟩)
      · exact .inl rfl
    have hfst (res : Option Nat) : res.elim Qindex.none .qp = .none ↔ res = none := by
      cases res <;> simp
    simp only [hfst, hack', true_and]
    cases (b.scan now paused (List.range' 1 b.qpGrp.length) none).2 with
    | none => exact Iff.rfl
    | some m => exact clearFinished_snd_eq_none

/-- With nothing due, all the scan leaves behind is the cleared group. -/
theorem getNextQindex_of_nothingDue (h : NothingDue c now paused b) :
    (b.getNextQindex c now paused).2 = { b with qpGrp := survivors paused b.qpGrp } := by
  have hscan := scan_range_eq_none_iff.mpr h.2
  obtain ⟨hfrom, -, hmet⟩ := scan_minFinishId hscan
  have hall : ∀ j q, b.qpGrp[j]? = some q → clearable paused q = true →
      ∃ k, (b.scan now paused (List.range' 1 b.qpGrp.length) none).2 = some k ∧ k ≤ j := by
    intro j q hj hclear
    obtain ⟨hlt, -⟩ := List.getElem?_eq_some_iff.mp hj
    obtain ⟨qIndex, hmem, rfl⟩ := exists_mem_range' b.rrlast hlt
    exact hmet qIndex hmem q hj hclear
  rw [getNextQindex, if_neg]
  · cases hm : (b.scan now paused (List.range' 1 b.qpGrp.length) none).2 with
    | none =>
      simp only [hm]
      rw [survivors_of_none]
      intro q hq
      obtain ⟨j, hj⟩ := List.mem_iff_getElem?.mp hq
      cases hclear : clearable paused q with
      | false => rfl
      | true =>
        obtain ⟨k, hk, -⟩ := hall j q hj hclear
        rw [hm] at hk
        cases hk
    | some m =>
      simp only [hm, clearFinished_fst]
      obtain ⟨q, hq, hclear⟩ := (hfrom m hm).resolve_left (by simp)
      -- the note is the first of the clearable ones
      rw [survivors_of_first hq hclear]
      intro j q' hj hclear'
      obtain ⟨k, hk, hle⟩ := hall j q' hj hclear'
      rw [hm] at hk
      obtain rfl : m = k := Option.some.inj hk
      exact hle
  · rintro ⟨hpaused, hne⟩
    rcases h.1 with hp | hempty
    · simp [hpaused] at hp
    · exact hne hempty

/-- `nextAvail` is the least time among those of the queue pairs with bytes left. -/
theorem le_nextAvail_iff {t : Nat} :
    t ≤ b.nextAvail ↔ t ≤ maximumSimulationTime ∧
      ∀ q ∈ b.qpGrp, 0 < q.transport.getBytesLeft → t ≤ q.nextAvail := by
  rw [nextAvail]
  generalize maximumSimulationTime = top
  generalize b.qpGrp = grp
  induction grp generalizing top with
  | nil => simp
  | cons q rest ih =>
    rw [List.foldl_cons, ih, List.forall_mem_cons]
    split
    · next hzero => simp [hzero]
    · next hleft =>
      have hpos : 0 < q.transport.getBytesLeft := Nat.pos_of_ne_zero hleft
      simp only [Nat.le_min, hpos, true_implies]
      constructor
      · rintro ⟨⟨hq, htop⟩, hrest⟩
        exact ⟨htop, hq, hrest⟩
      · rintro ⟨htop, hq, hrest⟩
        exact ⟨⟨hq, htop⟩, hrest⟩

theorem nextAvail_le {q : NicQueuePair} (hq : q ∈ b.qpGrp) (hleft : 0 < q.transport.getBytesLeft) :
    b.nextAvail ≤ q.nextAvail :=
  (le_nextAvail_iff.mp (Nat.le_refl _)).2 q hq hleft

theorem nextAvail_lt_maximum_iff :
    b.nextAvail < maximumSimulationTime ↔
      ∃ q ∈ b.qpGrp, 0 < q.transport.getBytesLeft ∧ q.nextAvail < maximumSimulationTime := by
  rw [← Nat.not_le, le_nextAvail_iff]
  push Not
  simp only [Nat.le_refl, true_implies]

end GetNextQindex

end RdmaEgressQueue

end Paraleon.Rdma
