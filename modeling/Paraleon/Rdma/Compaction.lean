import Paraleon.Library.RoundRobin
import Paraleon.Rdma.EgressQueue

/-!
# Selection and compaction

`GetNextQindex` chooses a queue pair in a vector from which it then removes others, so it has
to say where the chosen one has gone. For every value of `m_rrlast`, the sum in its loop has
32 bits.

* `clearFinished_of_kept`, `clearFinished_of_finished`: the clearing loop follows the chosen
  queue pair when it keeps it, and returns its old position when it removes it.
* `sound_iff`: a call is as it should be exactly when the chosen queue pair stays.
* `getNextQindexU32_eq`: below 32 bits this is `getNextQindex`.
-/

namespace Paraleon.Rdma.RdmaEgressQueue

open Words

/-- The test at which the loop stops. -/
def due (now : Nat) (paused : Switch.Class → Bool) (q : NicQueuePair) : Bool :=
  q.canSend paused && decide (q.nextAvail ≤ now)

/-- The positions at which the loop of `GetNextQindex` looks, in order. -/
def visits (b : RdmaEgressQueue) : List Nat :=
  (List.range' 1 b.qpGrp.length).map fun qIndex => u32 (qIndex + b.rrlast) % b.qpGrp.length

/-- The loop over these positions. -/
def scanAt (grp : List NicQueuePair) (now : Nat) (paused : Switch.Class → Bool) :
    List Nat → Option Nat → Option Nat × Option Nat
  | [], minFinishId => (none, minFinishId)
  | idx :: rest, minFinishId =>
    match grp[idx]? with
    | none => (none, minFinishId)
    | some q =>
      if q.canSend paused then
        if now < q.nextAvail then scanAt grp now paused rest minFinishId
        else (some idx, minFinishId)
      else if q.transport.isFinished then
        scanAt grp now paused rest (some (minFinishId.elim idx (min idx)))
      else scanAt grp now paused rest minFinishId

/-- The vector without the finished queue pairs from the noted position on, and where the
chosen one has gone. -/
def cleared (grp : List NicQueuePair) : Option Nat → Option Nat → List NicQueuePair × Option Nat
  | none, res => (grp, res)
  | some m, res => clearFinished (m + 1) (grp.drop (m + 1)) (grp.take m) res

/-- `GetNextQindex`. -/
def getNextQindexU32 (c : NicConfig) (now : Nat) (paused : Switch.Class → Bool)
    (b : RdmaEgressQueue) : Qindex × RdmaEgressQueue :=
  if paused c.ackQIdx = false ∧ b.ackQ ≠ [] then (.highPrio, b)
  else
    let (res, minFinishId) := scanAt b.qpGrp now paused b.visits none
    let (qpGrp, res) := cleared b.qpGrp minFinishId res
    (res.elim .none .qp, { b with qpGrp })

variable {c : NicConfig} {b : RdmaEgressQueue} {now : Nat} {paused : Switch.Class → Bool}
  {grp : List NicQueuePair}

theorem scan_eq_scanAt (now : Nat) (paused : Switch.Class → Bool) (L : List Nat)
    (m : Option Nat) : b.scan now paused L m =
      scanAt b.qpGrp now paused (L.map fun qIndex => (qIndex + b.rrlast) % b.qpGrp.length) m := by
  induction L generalizing m with
  | nil => rfl
  | cons qIndex rest ih =>
    rw [scan, List.map_cons, scanAt]
    cases b.qpGrp[(qIndex + b.rrlast) % b.qpGrp.length]? with
    | none => rfl
    | some q => simp only [ih]

/-- As long as the sums in the loop have 32 bits. -/
theorem getNextQindexU32_eq (c : NicConfig) (now : Nat) (paused : Switch.Class → Bool)
    (h : b.rrlast + b.qpGrp.length < 2 ^ 32) :
    b.getNextQindex c now paused = b.getNextQindexU32 c now paused := by
  have hvisits : (List.range' 1 b.qpGrp.length).map
      (fun qIndex => (qIndex + b.rrlast) % b.qpGrp.length) = b.visits := by
    refine List.map_congr_left fun qIndex hmem => ?_
    have hle := (List.mem_range'_1.mp hmem).2
    rw [u32_of_lt (by omega)]
  rw [getNextQindex, getNextQindexU32, scan_eq_scanAt, hvisits]
  split
  · rfl
  · cases hm : (scanAt b.qpGrp now paused b.visits none).2 with
    | none => simp only [hm, cleared]
    | some m => simp only [hm, cleared]

theorem lt_of_mem_visits {i : Nat} (h : i ∈ b.visits) : i < b.qpGrp.length := by
  obtain ⟨qIndex, hmem, rfl⟩ := List.mem_map.mp h
  have hrange := List.mem_range'_1.mp hmem
  exact Nat.mod_lt _ (by omega)

/-! ## The scan -/

/-- The queue pair at a position passes a test. -/
def testAt (test : NicQueuePair → Bool) (grp : List NicQueuePair) (i : Nat) : Bool :=
  grp[i]?.any test

theorem testAt_of_eq {test : NicQueuePair → Bool} {i : Nat} {q : NicQueuePair}
    (h : grp[i]? = some q) : testAt test grp i = test q := by
  rw [testAt, h, Option.any_some]

theorem testAt_iff {test : NicQueuePair → Bool} {i : Nat} :
    testAt test grp i = true ↔ ∃ q, grp[i]? = some q ∧ test q = true := by
  unfold testAt
  cases grp[i]? with
  | none => simp
  | some q => simp

/-- What the loop notes of a position at which it does not stop. -/
def note (paused : Switch.Class → Bool) (grp : List NicQueuePair) (m : Option Nat) (i : Nat) :
    Option Nat :=
  if testAt (clearable paused) grp i then some (m.elim i (min i)) else m

/-- One step of the loop: it stops, or goes on with its note. -/
theorem scanAt_cons {i : Nat} (hi : i < grp.length) (rest : List Nat) (m : Option Nat) :
    scanAt grp now paused (i :: rest) m =
      if testAt (due now paused) grp i then (some i, m)
      else scanAt grp now paused rest (note paused grp m i) := by
  obtain ⟨q, hq⟩ : ∃ q, grp[i]? = some q := ⟨_, List.getElem?_eq_getElem hi⟩
  rw [scanAt, note, testAt_of_eq hq, testAt_of_eq hq]
  rcases hsend : q.canSend paused with _ | _
  · rcases hfinished : q.transport.isFinished with _ | _
    · simp [hq, due, clearable, hsend, hfinished]
    · simp [hq, due, clearable, hsend, hfinished]
  · rcases Nat.lt_or_ge now q.nextAvail with hlater | hdue
    · simp [hq, due, clearable, hsend, hlater]
    · simp [hq, due, hsend, hdue, Nat.not_lt_of_le hdue]

theorem scanAt_append {before : List Nat} (hvalid : ∀ i ∈ before, i < grp.length)
    (hnone : ∀ i ∈ before, testAt (due now paused) grp i = false) (rest : List Nat)
    (m : Option Nat) : scanAt grp now paused (before ++ rest) m =
      scanAt grp now paused rest (before.foldl (note paused grp) m) := by
  induction before generalizing m with
  | nil => rfl
  | cons i before ih =>
    obtain ⟨hi, hvalid⟩ := List.forall_mem_cons.mp hvalid
    obtain ⟨hnot, hnone⟩ := List.forall_mem_cons.mp hnone
    rw [List.cons_append, scanAt_cons hi, if_neg (by simp [hnot]), ih hvalid hnone,
      List.foldl_cons]

/-- The note is the least position that can be cleared, of those looked at. -/
theorem foldl_note (paused : Switch.Class → Bool) (grp : List NicQueuePair) (before : List Nat)
    (m : Option Nat) :
    (∀ k, before.foldl (note paused grp) m = some k →
      m = some k ∨ k ∈ before ∧ testAt (clearable paused) grp k = true) ∧
    ∀ j, m = some j ∨ j ∈ before ∧ testAt (clearable paused) grp j = true →
      ∃ k, before.foldl (note paused grp) m = some k ∧ k ≤ j := by
  induction before generalizing m with
  | nil =>
    refine ⟨fun k hk => .inl hk, ?_⟩
    rintro j (hj | ⟨hmem, -⟩)
    · exact ⟨j, hj, Nat.le_refl j⟩
    · cases hmem
  | cons i before ih =>
    obtain ⟨hfrom, hleast⟩ := ih (note paused grp m i)
    rw [List.foldl_cons]
    cases hclear : testAt (clearable paused) grp i with
    | false =>
      have hnote : note paused grp m i = m := by simp [note, hclear]
      rw [hnote] at hfrom hleast ⊢
      refine ⟨fun k hk => (hfrom k hk).imp_right fun h => ⟨List.mem_cons_of_mem i h.1, h.2⟩, ?_⟩
      rintro j (hj | ⟨hmem, hj⟩)
      · exact hleast j (.inl hj)
      · rcases List.mem_cons.mp hmem with rfl | hmem
        · exact absurd (hclear.symm.trans hj) Bool.false_ne_true
        · exact hleast j (.inr ⟨hmem, hj⟩)
    | true =>
      -- the position enters the minimum
      have hnote : note paused grp m i = some (m.elim i (min i)) := by simp [note, hclear]
      rw [hnote] at hfrom hleast ⊢
      refine ⟨fun k hk => ?_, ?_⟩
      · rcases hfrom k hk with heq | ⟨hmem, hk⟩
        · rcases noted_cases (Option.some.inj heq) with rfl | hm
          · exact .inr ⟨List.mem_cons_self, hclear⟩
          · exact .inl hm
        · exact .inr ⟨List.mem_cons_of_mem i hmem, hk⟩
      · rintro j (rfl | ⟨hmem, hj⟩)
        · obtain ⟨k, hk, hkle⟩ := hleast _ (.inl rfl)
          exact ⟨k, hk, Nat.le_trans hkle (noted_le_of_eq rfl i)⟩
        · rcases List.mem_cons.mp hmem with rfl | hmem
          · obtain ⟨k, hk, hkle⟩ := hleast _ (.inl rfl)
            exact ⟨k, hk, Nat.le_trans hkle (noted_le m _)⟩
          · exact hleast j (.inr ⟨hmem, hj⟩)

/-! ## The clearing loop -/

/-- The positions, from `i` on, at which the clearing loop keeps a queue pair. -/
def keptFrom : Nat → List NicQueuePair → List Nat
  | _, [] => []
  | i, q :: rest =>
    if q.transport.isFinished then keptFrom (i + 1) rest else i :: keptFrom (i + 1) rest

/-- All positions whose queue pairs stay, when the scan has noted `m`. -/
def keptOf (grp : List NicQueuePair) : Option Nat → List Nat
  | none => List.range grp.length
  | some m => List.range m ++ keptFrom (m + 1) (grp.drop (m + 1))

theorem mem_keptFrom {i j : Nat} {rest : List NicQueuePair} : j ∈ keptFrom i rest ↔
    ∃ d q, j = i + d ∧ rest[d]? = some q ∧ q.transport.isFinished = false := by
  induction rest generalizing i with
  | nil => simp [keptFrom]
  | cons q rest ih =>
    have hshift :
        (∃ d q', j = i + d ∧ (q :: rest)[d]? = some q' ∧ q'.transport.isFinished = false) ↔
        (j = i ∧ q.transport.isFinished = false) ∨
          ∃ d q', j = i + 1 + d ∧ rest[d]? = some q' ∧ q'.transport.isFinished = false := by
      constructor
      · rintro ⟨d, q', hj, hq', hopen⟩
        cases d with
        | zero =>
          obtain rfl : q = q' := by simpa using hq'
          exact .inl ⟨hj, hopen⟩
        | succ d => exact .inr ⟨d, q', by omega, by simpa using hq', hopen⟩
      · rintro (⟨hj, hopen⟩ | ⟨d, q', hj, hq', hopen⟩)
        · exact ⟨0, q, hj, rfl, hopen⟩
        · exact ⟨d + 1, q', by omega, by simpa using hq', hopen⟩
    rw [hshift, keptFrom, ← ih]
    cases hfinished : q.transport.isFinished with
    | true => simp
    | false => simp

theorem pairwise_keptFrom (i : Nat) (rest : List NicQueuePair) :
    (keptFrom i rest).Pairwise (· < ·) := by
  induction rest generalizing i with
  | nil => exact List.Pairwise.nil
  | cons q rest ih =>
    rw [keptFrom]
    split
    · exact ih (i + 1)
    · refine List.pairwise_cons.mpr ⟨fun j hj => ?_, ih (i + 1)⟩
      obtain ⟨d, q', rfl, -, -⟩ := mem_keptFrom.mp hj
      omega

/-- The positions kept, in a list of queue pairs or of references to them. -/
theorem keptFrom_map {α : Type} {qps : α → NicQueuePair} {i : Nat} {rest : List α}
    {f : Nat → Option α} (hf : ∀ d, f (i + d) = rest[d]?) :
    (keptFrom i (rest.map qps)).map f =
      (rest.filter fun q => !(qps q).transport.isFinished).map some := by
  induction rest generalizing i with
  | nil => rfl
  | cons q rest ih =>
    have hrest (d : Nat) : f (i + 1 + d) = rest[d]? := by
      rw [Nat.add_assoc, Nat.add_comm 1 d, hf (d + 1), List.getElem?_cons_succ]
    have hhead : f i = some q := hf 0
    rw [List.map_cons, keptFrom]
    split
    · next hfinished => rw [List.filter_cons_of_neg (by simp [hfinished]), ih hrest]
    · next hopen =>
      rw [List.filter_cons_of_pos (by simp [hopen]), List.map_cons, List.map_cons, ih hrest, hhead]

/-- The vector, or a list of references to it, at the positions kept when the scan has noted
`m`. -/
theorem keptOf_map {α : Type} (qps : α → NicQueuePair) {ids : List α} {m : Nat}
    (hm : m < ids.length) : (keptOf (ids.map qps) (some m)).map (ids[·]?) =
      (ids.take m ++ (ids.drop (m + 1)).filter fun q => !(qps q).transport.isFinished).map
        some := by
  have hdrop (d : Nat) : ids[m + 1 + d]? = (ids.drop (m + 1))[d]? := List.getElem?_drop.symm
  have htake : (List.range m).map (ids[·]?) = (ids.take m).map some := by
    have hlength : (ids.take m).length = m := List.length_take_of_le (Nat.le_of_lt hm)
    rw [← RoundRobin.map_getElem?_range, hlength]
    exact List.map_congr_left fun j hj => (List.getElem?_take_of_lt (List.mem_range.mp hj)).symm
  rw [keptOf, List.map_append, htake, ← List.map_drop, keptFrom_map hdrop, List.map_append]

/-- A queue pair that the loop has left behind. -/
theorem clearFinished_of_lt {i k : Nat} {rest kept : List NicQueuePair} (hk : k < i) :
    (clearFinished i rest kept (some k)).2 = some k := by
  induction rest generalizing i kept with
  | nil => rfl
  | cons q rest ih =>
    have hne : (some k : Option Nat) ≠ some i := fun h => Nat.ne_of_lt hk (Option.some.inj h)
    rw [clearFinished, if_neg hne]
    split
    · exact ih (Nat.lt_succ_of_lt hk)
    · exact ih (Nat.lt_succ_of_lt hk)

/-- A chosen queue pair that is removed: its old position is what the loop returns. -/
theorem clearFinished_of_finished {i d : Nat} {rest kept : List NicQueuePair} {q : NicQueuePair}
    (hq : rest[d]? = some q) (hfinished : q.transport.isFinished = true) :
    (clearFinished i rest kept (some (i + d))).2 = some (i + d) := by
  induction rest generalizing i d kept with
  | nil => cases hq
  | cons q₀ rest ih =>
    rw [clearFinished]
    cases d with
    | zero =>
      obtain rfl : q₀ = q := by simpa using hq
      rw [if_pos hfinished]
      exact clearFinished_of_lt (Nat.lt_succ_self i)
    | succ d =>
      have hne : (some (i + (d + 1)) : Option Nat) ≠ some i := fun h => by
        have := Option.some.inj h
        omega
      have hq' : rest[d]? = some q := by simpa using hq
      have hshift : i + (d + 1) = i + 1 + d := by omega
      rw [if_neg hne, hshift]
      split
      · exact ih hq'
      · exact ih hq'

/-- A chosen queue pair that is kept: the loop returns its new position. -/
theorem clearFinished_of_kept {i d : Nat} {rest kept : List NicQueuePair} {q : NicQueuePair}
    (hkept : kept.length ≤ i) (hq : rest[d]? = some q) (hopen : q.transport.isFinished = false) :
    ∃ r, (clearFinished i rest kept (some (i + d))).2 = some (kept.length + r) ∧
      (keptFrom i rest)[r]? = some (i + d) := by
  induction rest generalizing i d kept with
  | nil => cases hq
  | cons q₀ rest ih =>
    rw [clearFinished, keptFrom]
    cases d with
    | zero =>
      obtain rfl : q₀ = q := by simpa using hq
      have hopen' : ¬q₀.transport.isFinished = true := by simp [hopen]
      rw [if_neg hopen', if_neg hopen', if_pos (show some (i + 0) = some i from rfl)]
      exact ⟨0, clearFinished_of_lt (Nat.lt_succ_of_le hkept), rfl⟩
    | succ d =>
      have hne : (some (i + (d + 1)) : Option Nat) ≠ some i := fun h => by
        have := Option.some.inj h
        omega
      have hq' : rest[d]? = some q := by simpa using hq
      have hshift : i + (d + 1) = i + 1 + d := by omega
      rw [if_neg hne, hshift]
      split
      · exact ih (Nat.le_succ_of_le hkept) hq'
      · have hlength : (kept ++ [q₀]).length ≤ i + 1 := by simpa using hkept
        obtain ⟨r, hr, hget⟩ := ih hlength hq'
        refine ⟨r + 1, ?_, by simpa using hget⟩
        rw [hr, List.length_append, List.length_singleton, Nat.add_assoc, Nat.add_comm 1 r]

/-! ## What is asked of a call -/

/-- `new` is `old` at the positions `kept`, in their order, and what is missing has finished. -/
structure Keeps (old new : List NicQueuePair) (kept : List Nat) : Prop where
  increasing : kept.Pairwise (· < ·)
  packs : new.map some = kept.map (old[·]?)
  finished : ∀ j q, old[j]? = some q → j ∉ kept → q.transport.isFinished = true

theorem Keeps.length_eq {old new : List NicQueuePair} {kept : List Nat} (h : Keeps old new kept) :
    new.length = kept.length := by
  have := congrArg List.length h.packs
  simpa using this

theorem keeps_all (grp : List NicQueuePair) : Keeps grp grp (List.range grp.length) where
  increasing := List.pairwise_lt_range
  packs := (RoundRobin.map_getElem?_range grp).symm
  finished := fun j q hq hj => by
    have hlt := (List.getElem?_eq_some_iff.mp hq).1
    exact absurd (List.mem_range.mpr hlt) hj

/-- The noted queue pair has finished: the loop removes finished queue pairs only. -/
theorem keeps_cleared {m : Option Nat} (res : Option Nat)
    (hm : ∀ k, m = some k → ∃ q, grp[k]? = some q ∧ q.transport.isFinished = true) :
    Keeps grp (cleared grp m res).1 (keptOf grp m) := by
  cases m with
  | none => exact keeps_all grp
  | some m =>
    obtain ⟨q, hq, hfinished⟩ := hm m rfl
    have hlt := (List.getElem?_eq_some_iff.mp hq).1
    have hdrop (d : Nat) : grp[m + 1 + d]? = (grp.drop (m + 1))[d]? := List.getElem?_drop.symm
    refine ⟨?_, ?_, fun j q' hq' hj => ?_⟩
    · refine List.pairwise_append.mpr ⟨List.pairwise_lt_range, pairwise_keptFrom _ _, ?_⟩
      intro i hi j hj
      obtain ⟨d, -, rfl, -, -⟩ := mem_keptFrom.mp hj
      have := List.mem_range.mp hi
      omega
    · have hkept := keptOf_map id hlt
      rw [List.map_id] at hkept
      rw [cleared, clearFinished_fst, hkept]
      rfl
    · rcases Nat.lt_trichotomy j m with hjm | rfl | hjm
      · exact absurd (List.mem_append_left _ (List.mem_range.mpr hjm)) hj
      · obtain rfl : q = q' := Option.some.inj (hq.symm.trans hq')
        exact hfinished
      · obtain ⟨d, rfl⟩ := Nat.exists_eq_add_of_lt hjm
        rw [Nat.add_right_comm] at hq' hj
        by_contra hopen
        refine hj (List.mem_append_right _
          (mem_keptFrom.mpr ⟨d, q', rfl, ?_, by simpa using hopen⟩))
        rw [← hdrop]
        exact hq'

/-- A chosen queue pair before the noted one does not move. -/
theorem cleared_before {m : Option Nat} {i : Nat} (hi : i < grp.length)
    (hm : ∀ k, m = some k → i < k) :
    (cleared grp m (some i)).2 = some i ∧ (keptOf grp m)[i]? = some i := by
  cases m with
  | none => exact ⟨rfl, by simp [keptOf, hi]⟩
  | some m =>
    have him := hm m rfl
    refine ⟨clearFinished_of_lt (Nat.lt_succ_of_lt him), ?_⟩
    rw [keptOf, List.getElem?_append_left (by simpa using him), List.getElem?_range him]

/-- One behind it that has not finished moves down, and the loop follows it. -/
theorem cleared_behind {m i : Nat} {q : NicQueuePair} (hmi : m < i) (hq : grp[i]? = some q)
    (hopen : q.transport.isFinished = false) :
    ∃ r, (cleared grp (some m) (some i)).2 = some r ∧ (keptOf grp (some m))[r]? = some i := by
  have hlt := (List.getElem?_eq_some_iff.mp hq).1
  obtain ⟨d, rfl⟩ := Nat.exists_eq_add_of_lt hmi
  rw [Nat.add_right_comm] at hq ⊢
  have hq' : (grp.drop (m + 1))[d]? = some q := by rw [List.getElem?_drop]; exact hq
  have hlength : (grp.take m).length = m := List.length_take_of_le (by omega)
  have hkept : (grp.take m).length ≤ m + 1 := by omega
  obtain ⟨r, hr, hget⟩ := clearFinished_of_kept hkept hq' hopen
  refine ⟨(grp.take m).length + r, hr, ?_⟩
  rw [keptOf, hlength, List.getElem?_append_right (by simp), List.length_range,
    Nat.add_sub_cancel_left]
  exact hget

/-- One behind it that has finished is gone, and the position that the loop returns is that of
one that has not, if any. -/
theorem cleared_lost {m i : Nat} {q : NicQueuePair} {res : Option Nat} (hmi : m < i)
    (hq : (cleared grp (some m) res).1[i]? = some q) : q.transport.isFinished = false := by
  rw [cleared, clearFinished_fst, List.getElem?_append_right (by
    rw [List.length_take]
    omega)] at hq
  have hmem := List.mem_of_getElem? hq
  simpa using (List.mem_filter.mp hmem).2

/-! ## When a call is as it should be -/

/-- The queue pair that the scan selects: the first that is not paused, has bytes left, is not
bound by its window, and is not to wait. -/
def selected (b : RdmaEgressQueue) (now : Nat) (paused : Switch.Class → Bool) : Option Nat :=
  b.visits.find? (testAt (due now paused) b.qpGrp)

/-- Only finished queue pairs go, the others keep their order, and an index that is returned is
inside the vector and denotes the selected queue pair. -/
def Sound (c : NicConfig) (now : Nat) (paused : Switch.Class → Bool) (b : RdmaEgressQueue) :
    Prop :=
  ∃ kept, Keeps b.qpGrp (b.getNextQindexU32 c now paused).2.qpGrp kept ∧
    ∀ r, (b.getNextQindexU32 c now paused).1 = .qp r →
      r < (b.getNextQindexU32 c now paused).2.qpGrp.length ∧
        ∃ i, b.selected now paused = some i ∧ kept[r]? = some i

/-- When the first queue pair that is due has itself finished, no finished one that the scan
has passed on its way lies before it in the vector; or a control packet goes first. -/
def SelectedStays (c : NicConfig) (now : Nat) (paused : Switch.Class → Bool)
    (b : RdmaEgressQueue) : Prop :=
  (paused c.ackQIdx = false ∧ b.ackQ ≠ []) ∨
    ∀ before i after q, b.visits = before ++ i :: after →
      (∀ j ∈ before, testAt (due now paused) b.qpGrp j = false) → b.qpGrp[i]? = some q →
      due now paused q = true → q.transport.isFinished = true →
      ∀ j ∈ before, testAt (clearable paused) b.qpGrp j = true → i < j

theorem getNextQindexU32_of_noAck (h : ¬(paused c.ackQIdx = false ∧ b.ackQ ≠ [])) (now : Nat) :
    b.getNextQindexU32 c now paused =
      let found := scanAt b.qpGrp now paused b.visits none
      ((cleared b.qpGrp found.2 found.1).2.elim .none .qp,
        { b with qpGrp := (cleared b.qpGrp found.2 found.1).1 }) := by
  rw [getNextQindexU32, if_neg h]

/-- What the loop has noted has finished. -/
theorem finished_of_noted {before : List Nat} {k : Nat}
    (h : before.foldl (note paused grp) none = some k) :
    ∃ q, grp[k]? = some q ∧ q.transport.isFinished = true := by
  obtain ⟨-, hk⟩ := ((foldl_note paused grp before none).1 k h).resolve_left (by simp)
  obtain ⟨q, hq, hclear⟩ := testAt_iff.mp hk
  simp only [clearable, Bool.and_eq_true] at hclear
  exact ⟨q, hq, hclear.2⟩

/-- A queue pair that is due can send, so it is not the noted one. -/
theorem noted_ne {before : List Nat} {i k : Nat} {q : NicQueuePair} (hq : grp[i]? = some q)
    (hdue : due now paused q = true) (hk : before.foldl (note paused grp) none = some k) :
    k ≠ i := by
  rintro rfl
  have hclear := (((foldl_note paused grp before none).1 k hk).resolve_left (by simp)).2
  rw [testAt_of_eq hq] at hclear
  simp only [clearable, due, Bool.and_eq_true, Bool.not_eq_true'] at hclear hdue
  exact absurd (hclear.1.symm.trans hdue.1) Bool.false_ne_true

/-- The position of a queue pair that is due and stays. -/
theorem cleared_follows (before : List Nat) {i : Nat} {q : NicQueuePair} (hq : grp[i]? = some q)
    (hdue : due now paused q = true) (hstays : q.transport.isFinished = true →
      ∀ j ∈ before, testAt (clearable paused) grp j = true → i < j) :
    ∃ r, (cleared grp (before.foldl (note paused grp) none) (some i)).2 = some r ∧
      (keptOf grp (before.foldl (note paused grp) none))[r]? = some i := by
  have hi : i < grp.length := (List.getElem?_eq_some_iff.mp hq).1
  cases hm : before.foldl (note paused grp) none with
  | none => exact ⟨i, cleared_before hi nofun⟩
  | some k =>
    obtain ⟨hmem, hclear⟩ := ((foldl_note paused grp before none).1 k hm).resolve_left (by simp)
    rcases Nat.lt_trichotomy i k with hik | hik | hki
    · refine ⟨i, cleared_before hi fun k' hk' => ?_⟩
      obtain rfl : k = k' := Option.some.inj hk'
      exact hik
    · exact absurd hik.symm (noted_ne hq hdue hm)
    · refine cleared_behind hki hq ?_
      cases hfinished : q.transport.isFinished with
      | false => rfl
      | true => exact absurd (hstays hfinished k hmem hclear) (Nat.lt_asymm hki)

theorem sound_of_ack (now : Nat) (h : paused c.ackQIdx = false ∧ b.ackQ ≠ []) :
    Sound c now paused b := by
  have heq : b.getNextQindexU32 c now paused = (.highPrio, b) := if_pos h
  unfold Sound
  rw [heq]
  exact ⟨_, keeps_all b.qpGrp, fun r hr => by cases hr⟩

theorem sound_of_none (h : ¬(paused c.ackQIdx = false ∧ b.ackQ ≠ []))
    (hnone : b.selected now paused = none) : Sound c now paused b := by
  have hnot : ∀ i ∈ b.visits, testAt (due now paused) b.qpGrp i = false := fun i hi => by
    simpa using List.find?_eq_none.mp hnone i hi
  have hscan := scanAt_append (fun i hi => lt_of_mem_visits hi) hnot [] none
  rw [List.append_nil, scanAt] at hscan
  unfold Sound
  rw [getNextQindexU32_of_noAck h, hscan]
  refine ⟨_, keeps_cleared none fun k hk => finished_of_noted hk, fun r hr => ?_⟩
  have hres : (cleared b.qpGrp (b.visits.foldl (note paused b.qpGrp) none) none).2 = none := by
    cases b.visits.foldl (note paused b.qpGrp) none with
    | none => rfl
    | some m => exact clearFinished_snd_eq_none.mpr rfl
  simp [hres] at hr

/-- With a queue pair that is due, it all depends on whether that one stays. -/
theorem sound_iff_of_due (h : ¬(paused c.ackQIdx = false ∧ b.ackQ ≠ [])) {before after : List Nat}
    {i : Nat} {q : NicQueuePair} (hvisits : b.visits = before ++ i :: after)
    (hnot : ∀ j ∈ before, testAt (due now paused) b.qpGrp j = false) (hq : b.qpGrp[i]? = some q)
    (hdue : due now paused q = true) : Sound c now paused b ↔
      (q.transport.isFinished = true →
        ∀ j ∈ before, testAt (clearable paused) b.qpGrp j = true → i < j) := by
  have hdueAt : testAt (due now paused) b.qpGrp i = true := (testAt_of_eq hq).trans hdue
  have hi : i < b.qpGrp.length := (List.getElem?_eq_some_iff.mp hq).1
  have hselected : b.selected now paused = some i := by
    rw [selected, List.find?_eq_some_iff_append]
    exact ⟨hdueAt, before, after, hvisits, fun j hj => by simp [hnot j hj]⟩
  -- the scan stops at the due queue pair, with the note of what it has passed
  have hscan : scanAt b.qpGrp now paused b.visits none =
      (some i, before.foldl (note paused b.qpGrp) none) := by
    rw [hvisits, scanAt_append (fun j hj => lt_of_mem_visits (by simp [hvisits, hj])) hnot,
      scanAt_cons hi, if_pos hdueAt]
  have hleast := (foldl_note paused b.qpGrp before none).2
  have hkeeps : Keeps b.qpGrp
      (cleared b.qpGrp (before.foldl (note paused b.qpGrp) none) (some i)).1
      (keptOf b.qpGrp (before.foldl (note paused b.qpGrp) none)) :=
    keeps_cleared (some i) fun k hk => finished_of_noted hk
  unfold Sound
  rw [getNextQindexU32_of_noAck h, hscan, hselected]
  constructor
  · rintro ⟨kept, hkept, hindex⟩ hfinished j hj hclear
    obtain ⟨k, hk, hkj⟩ := hleast j (.inr ⟨hj, hclear⟩)
    rcases Nat.lt_trichotomy i k with hik | hik | hki
    · exact Nat.lt_of_lt_of_le hik hkj
    · exact absurd hik.symm (noted_ne hq hdue hk)
    · -- the selected queue pair is removed
      exfalso
      rw [hk] at hkept hindex
      obtain ⟨d, hd⟩ := Nat.exists_eq_add_of_lt hki
      have hdrop : (b.qpGrp.drop (k + 1))[d]? = some q := by
        rw [List.getElem?_drop, Nat.add_right_comm, ← hd]
        exact hq
      have hres : (cleared b.qpGrp (some k) (some i)).2 = some i := by
        rw [hd, Nat.add_right_comm]
        exact clearFinished_of_finished hdrop hfinished
      obtain ⟨hlt, i', hi', hget⟩ := hindex i (by simp [hres])
      obtain rfl : i = i' := Option.some.inj hi'
      have hpacks := congrArg (·[i]?) hkept.packs
      simp only [List.getElem?_map, hget, Option.map_some, hq] at hpacks
      obtain ⟨q', hq', heq⟩ := Option.map_eq_some_iff.mp hpacks
      obtain rfl : q' = q := Option.some.inj heq
      cases hfinished.symm.trans (cleared_lost hki hq')
  · intro hstays
    -- it stays in the vector, and the result follows it
    obtain ⟨r, hr, hget⟩ := cleared_follows before hq hdue hstays
    refine ⟨_, hkeeps, fun r' hr' => ?_⟩
    obtain rfl : r = r' := by simpa [hr] using hr'
    refine ⟨?_, i, rfl, hget⟩
    rw [hkeeps.length_eq]
    exact (List.getElem?_eq_some_iff.mp hget).1

/-- A call is as it should be exactly when the queue pair it selects stays in the vector. -/
theorem sound_iff (c : NicConfig) (now : Nat) (paused : Switch.Class → Bool)
    (b : RdmaEgressQueue) : Sound c now paused b ↔ SelectedStays c now paused b := by
  by_cases hack : paused c.ackQIdx = false ∧ b.ackQ ≠ []
  · exact ⟨fun _ => .inl hack, fun _ => sound_of_ack now hack⟩
  constructor
  · intro h
    right
    intro before i after q hvisits hnot hq hdue hfinished
    exact (sound_iff_of_due hack hvisits hnot hq hdue).mp h hfinished
  · intro h
    cases hselected : b.selected now paused with
    | none => exact sound_of_none hack hselected
    | some i =>
      obtain ⟨hdue, before, after, hvisits, hnot⟩ :=
        List.find?_eq_some_iff_append.mp hselected
      obtain ⟨q, hq, hdue⟩ := testAt_iff.mp hdue
      have hnot' : ∀ j ∈ before, testAt (due now paused) b.qpGrp j = false := fun j hj => by
        simpa using hnot j hj
      exact (sound_iff_of_due hack hvisits hnot' hq hdue).mpr
        (h.resolve_left hack before i after q hvisits hnot' hq hdue)

/-- A queue pair whose last ACK has come, of 2000 bytes, with `sndNxt` bytes sent since the
last NACK. -/
def acknowledged (sndNxt : Nat) : NicQueuePair :=
  { transport := { RdmaQueuePair.create 2000 0 false 100 with sndNxt, sndUna := 2000 }, pg := 3,
    sip := 0, dip := 0, sport := 0, dport := 0, nextAvail := 0 }

/-- The first has nothing left to send, the second has 1000 bytes. -/
def bothAcknowledged : RdmaEgressQueue :=
  { rrlast := 1, ackQ := [], qpGrp := [acknowledged 2000, acknowledged 1000] }

def nicConfig : NicConfig :=
  { hw := .shipped, intSize := 8, rateBound := true, tInterframeGap := 0, ackQIdx := 0,
    qbbEnabled := true, calculateTxTime := fun _ size => size }

/-- The scan passes the first queue pair and selects the second; then both are removed, and the
old position of the second is returned for a vector that is empty. -/
theorem selected_is_removed :
    (bothAcknowledged.getNextQindexU32 nicConfig 0 fun _ => false).1 = .qp 1 ∧
      (bothAcknowledged.getNextQindexU32 nicConfig 0 fun _ => false).2.qpGrp = [] ∧
      ¬Sound nicConfig 0 (fun _ => false) bothAcknowledged := by
  have hqindex : (bothAcknowledged.getNextQindexU32 nicConfig 0 fun _ => false).1 = .qp 1 := by
    decide
  have hempty : (bothAcknowledged.getNextQindexU32 nicConfig 0 fun _ => false).2.qpGrp = [] := by
    rfl
  refine ⟨hqindex, hempty, ?_⟩
  rintro ⟨kept, -, hindex⟩
  have hlt := (hindex 1 hqindex).1
  rw [hempty] at hlt
  cases hlt

end Paraleon.Rdma.RdmaEgressQueue
