import Mathlib.Data.Fin.Tuple.Basic
import Paraleon.Library.Lanes
import Paraleon.Sketch.Accuracy

/-!
# The heavy part with vector instructions

With `USING_SIMD_ACCELERATION`, the loop of `HeavyPart` over the slots of a bucket is replaced by
comparisons of all its lanes at once. The last lane, which has no slot, then takes part: its key
is the marker of an empty slot, and its value the guard.

* `WideBucket.insert_widen`: for a bucket whose empty slots are those without a count, and a key
  that is not the marker, the insertion is that of the loop.
* `insertAllSimd_eq`: from `clear`, fewer than `2 ^ 31` insertions give the same sketch and the
  same queries.
* `WideBucket.insert_zero`: the marker itself is found in the last lane, and counts in the guard.
-/

namespace Paraleon.Sketch

open Words Function Lanes

/-! ## The bucket in two registers -/

/-- `struct Bucket`, with all its `COUNTER_PER_BUCKET` lanes. -/
structure WideBucket where
  key : Fin 8 → UInt32
  val : Fin 8 → Nat

namespace WideBucket

/-- The index that `_tzcnt_u32` gives, below 8 for a mask that is not 0. -/
def firstLane (mask : Nat) : Fin 8 := ⟨tzcnt mask % 8, Nat.mod_lt _ (Nat.succ_pos 7)⟩

/-- The lanes of `buckets[pos].key` with the key. -/
def matchMask (w : WideBucket) (fp : UInt32) : Nat :=
  movemask (cmpeq (set1 fp.toNat) fun j => (w.key j).toNat)

/-- The counters without their flags; the last lane is out of the way of a minimum. -/
def results (w : WideBucket) : Fin 8 → Nat :=
  or (and w.val (set1 0x7FFFFFFF)) fun j => if j = Fin.last 7 then 0x7FFFFFFF else 0

/-- `HeavyPart::insert` with `USING_SIMD_ACCELERATION` -/
def insert (w : WideBucket) (fp : UInt32) (f : Nat) : WideBucket × Bucket.Result :=
  let matched := w.matchMask fp
  if matched ≠ 0 then
    let i := firstLane matched
    ({ w with val := update w.val i (u32 (w.val i + f)) }, .kept)
  else
    let minCounterVal := horizontalMin w.results
    let minCounter := firstLane (movemask (cmpeq (set1 minCounterVal) w.results))
    if minCounterVal = 0 then
      ({ key := update w.key minCounter fp, val := update w.val minCounter f }, .kept)
    else
      let guardVal := updateGuardVal (w.val (Fin.last 7))
      if judgeIfSwap (getCounterVal minCounterVal) guardVal then
        ({ key := update w.key minCounter fp
           val := update (update w.val (Fin.last 7) 0) minCounter 0x80000001 },
          .swapped (w.key minCounter) (w.val minCounter))
      else ({ w with val := update w.val (Fin.last 7) guardVal }, .missed)

/-- `HeavyPart::query` with `USING_SIMD_ACCELERATION` -/
def query (w : WideBucket) (fp : UInt32) : Nat :=
  let matched := w.matchMask fp
  if matched ≠ 0 then w.val (firstLane matched) else 0

end WideBucket

/-- The slots and the guard in the lanes; `memset` left 0 in the last key. -/
def Bucket.widen (b : Bucket) : WideBucket where
  key := Fin.snoc b.key 0
  val := Fin.snoc b.val b.guard

/-! ## What the loop finds -/

namespace Bucket

variable {b : Bucket} {fp : UInt32}

/-- What the variables of the loop say of the slots below `n`, when none of them has the key. -/
structure Seen (b : Bucket) (fp : UInt32) (n : Nat) (s : Scan) : Prop where
  matched : s.matched = none
  ne : ∀ j : Slot, j.val < n → b.key j ≠ fp
  full : s.empty = none → ∀ j : Slot, j.val < n → b.key j ≠ 0
  empty : ∀ i, s.empty = some i → b.key i = 0 ∧ ∀ j < i, b.key j ≠ 0
  val : s.minCounterVal = getCounterVal (b.val s.minCounter)
  least : ∀ j : Slot, j.val < n → s.minCounterVal ≤ getCounterVal (b.val j)
  first : ∀ j < s.minCounter, s.minCounterVal < getCounterVal (b.val j)

theorem seen_start : Seen b fp 0
    { matched := none, empty := none, minCounter := 0, minCounterVal := getCounterVal (b.val 0) }
    where
  matched := rfl
  ne _ h := absurd h (Nat.not_lt_zero _)
  full _ _ h := absurd h (Nat.not_lt_zero _)
  empty _ h := nomatch h
  val := rfl
  least _ h := absurd h (Nat.not_lt_zero _)
  first j h := absurd h (Fin.not_lt_zero j)

/-- One more slot, without the key -/
theorem Seen.next {s : Scan} {i : Slot} (h : Seen b fp i.val s) (hi : b.key i ≠ fp) :
    Seen b fp (i.val + 1)
      { s with
        empty := if b.key i = 0 ∧ s.empty = none then some i else s.empty
        minCounter := if getCounterVal (b.val i) < s.minCounterVal then i else s.minCounter
        minCounterVal :=
          if getCounterVal (b.val i) < s.minCounterVal then getCounterVal (b.val i)
          else s.minCounterVal } := by
  have hcase : ∀ {j : Slot}, j.val < i.val + 1 → j.val < i.val ∨ j = i := fun hj =>
    (Nat.lt_succ_iff_lt_or_eq.mp hj).imp_right Fin.ext
  refine
    { matched := h.matched
      ne := fun j hj => ?_, full := fun he j hj => ?_, empty := fun k hk => ?_
      val := ?_, least := fun j hj => ?_, first := fun j hj => ?_ }
  · rcases hcase hj with hlt | rfl
    · exact h.ne j hlt
    · exact hi
  · dsimp only at he
    split at he
    · cases he
    · next h0 =>
      rcases hcase hj with hlt | rfl
      · exact h.full he j hlt
      · exact fun hz => h0 ⟨hz, he⟩
  · dsimp only at hk
    split at hk
    · next h0 =>
      cases hk
      exact ⟨h0.1, fun j hj => h.full h0.2 j hj⟩
    · exact h.empty k hk
  · dsimp only
    split
    · rfl
    · exact h.val
  · dsimp only
    rcases hcase hj with hlt | rfl
    · have hle := h.least j hlt
      split
      · next hless => exact (hless.trans_le hle).le
      · exact hle
    · split
      · exact le_rfl
      · next hless => exact not_lt.mp hless
  · dsimp only at hj ⊢
    split at hj
    -- a new minimum is below all that were seen
    · next hless =>
      rw [if_pos hless]
      exact hless.trans_le (h.least j hj)
    · next hless =>
      rw [if_neg hless]
      exact h.first j hj

/-- From slot `n` on, the loop finds the first slot with the key, or sees all the slots. -/
theorem scan_spec {n : Nat} {s : Scan} {is : List Slot} (his : is = (List.finRange 7).drop n)
    (h : Seen b fp n s) :
    (∃ i, (b.scan fp is s).matched = some i ∧ b.key i = fp ∧ ∀ j < i, b.key j ≠ fp) ∨
      Seen b fp 7 (b.scan fp is s) := by
  induction is generalizing n s with
  | nil =>
    have hn : 7 ≤ n := by
      rw [← List.length_finRange (n := 7)]
      exact List.drop_eq_nil_iff.mp his.symm
    exact .inr
      { h with
        ne := fun j hj => h.ne j (hj.trans_le hn)
        full := fun he j hj => h.full he j (hj.trans_le hn)
        least := fun j hj => h.least j (hj.trans_le hn) }
  | cons i is ih =>
    have hn : n < (List.finRange 7).length := by
      by_contra hge
      rw [List.drop_eq_nil_of_le (not_lt.mp hge)] at his
      cases his
    rw [List.drop_eq_getElem_cons hn, List.getElem_finRange] at his
    obtain ⟨rfl, htail⟩ := List.cons.inj his
    by_cases hi : b.key (Fin.cast List.length_finRange ⟨n, hn⟩) = fp
    · exact .inl ⟨_, by rw [scan, if_pos hi], hi, fun j hj => h.ne j hj⟩
    · rw [scan, if_neg hi]
      exact ih htail (h.next hi)

/-- What `find` finds -/
theorem find_spec (b : Bucket) (fp : UInt32) :
    (∃ i, (b.find fp).matched = some i ∧ b.key i = fp ∧ ∀ j < i, b.key j ≠ fp) ∨
      Seen b fp 7 (b.find fp) :=
  scan_spec rfl seen_start

end Bucket

namespace WideBucket

variable {b : Bucket} {fp : UInt32}

@[simp] theorem widen_key_castSucc (i : Slot) : b.widen.key i.castSucc = b.key i :=
  Fin.snoc_castSucc (α := fun _ => UInt32) ..

@[simp] theorem widen_val_castSucc (i : Slot) : b.widen.val i.castSucc = b.val i :=
  Fin.snoc_castSucc (α := fun _ => Nat) ..

@[simp] theorem widen_key_last : b.widen.key (Fin.last 7) = 0 :=
  Fin.snoc_last (n := 7) (α := fun _ => UInt32) 0 b.key

@[simp] theorem widen_val_last : b.widen.val (Fin.last 7) = b.guard :=
  Fin.snoc_last (n := 7) (α := fun _ => Nat) b.guard b.val

/-- What an assignment to the lane of a slot is to the slots -/
theorem update_key_widen (i : Slot) (k : UInt32) :
    update b.widen.key i.castSucc k = Fin.snoc (update b.key i k) 0 :=
  (Fin.snoc_update (α := fun _ => UInt32) ..).symm

theorem update_val_widen (i : Slot) (v g : Nat) :
    update (Fin.snoc b.val g : Fin 8 → Nat) i.castSucc v = Fin.snoc (update b.val i v) g :=
  (Fin.snoc_update (α := fun _ => Nat) ..).symm

theorem update_guard_widen (g : Nat) :
    update b.widen.val (Fin.last 7) g = Fin.snoc b.val g :=
  Fin.update_snoc_last (α := fun _ => Nat) ..

/-- The first lane in which two registers agree -/
theorem firstLane_eq {x y : Fin 8 → Nat} {j : Fin 8} (heq : x j = y j)
    (hfirst : ∀ i < j, x i ≠ y i) : firstLane (movemask (cmpeq x y)) = j := by
  have htz : tzcnt (movemask (cmpeq x y)) = j := tzcnt_movemask_cmpeq (by decide) heq hfirst
  refine Fin.ext ?_
  change tzcnt (movemask (cmpeq x y)) % 8 = j
  rw [htz, Nat.mod_eq_of_lt j.isLt]

/-- The lanes below that of a slot are those of the slots below. -/
theorem forall_lt_castSucc {p : Fin 8 → Prop} {i : Slot} (h : ∀ j < i, p j.castSucc) :
    ∀ j < i.castSucc, p j := by
  intro j hj
  have hlt : j.val < 7 := Nat.lt_trans hj i.isLt
  exact h ⟨j.val, hlt⟩ hj

theorem firstLane_matchMask {i : Slot} (hi : b.key i = fp) (hfirst : ∀ j < i, b.key j ≠ fp) :
    b.widen.matchMask fp ≠ 0 ∧ firstLane (b.widen.matchMask fp) = i.castSucc := by
  have hlane : ∀ j : Slot, set1 fp.toNat j.castSucc = (b.widen.key j.castSucc).toNat ↔
      b.key j = fp := fun j => by
    rw [widen_key_castSucc, set1, UInt32.toNat_inj, eq_comm]
  refine ⟨fun h0 => movemask_cmpeq_eq_zero_iff.mp h0 _ ((hlane i).mpr hi), ?_⟩
  exact firstLane_eq ((hlane i).mpr hi)
    (forall_lt_castSucc fun j hj heq => hfirst j hj ((hlane j).mp heq))

theorem matchMask_eq_zero (hfp : fp ≠ 0) (hne : ∀ j, b.key j ≠ fp) :
    b.widen.matchMask fp = 0 := by
  refine movemask_cmpeq_eq_zero_iff.mpr fun j => ?_
  rw [set1, Ne, UInt32.toNat_inj]
  cases j using Fin.lastCases with
  | last => rwa [widen_key_last]
  | cast i => rw [widen_key_castSucc]; exact (hne i).symm

theorem results_castSucc (w : WideBucket) (i : Slot) :
    w.results i.castSucc = getCounterVal (w.val i.castSucc) := by
  rw [results, Lanes.or, Lanes.and, set1, if_neg (Fin.castSucc_ne_last i), Nat.or_zero,
    getCounterVal]

theorem results_last (w : WideBucket) : w.results (Fin.last 7) = 0x7FFFFFFF := by
  rw [results, Lanes.or, Lanes.and, set1, if_pos rfl]
  refine Nat.eq_of_testBit_eq fun i => ?_
  rw [Nat.testBit_or, Nat.testBit_and]
  exact Bool.or_eq_right_iff_imp.mpr fun h => (Bool.and_eq_true_iff.mp h).2

theorem getCounterVal_lt (v : Nat) : getCounterVal v < 2 ^ 31 := by
  rw [getCounterVal_eq]
  exact Nat.mod_lt _ (Nat.two_pow_pos 31)

theorem results_lt (w : WideBucket) (j : Fin 8) : w.results j < 2 ^ 31 := by
  cases j using Fin.lastCases with
  | last => rw [results_last]; decide
  | cast i => rw [results_castSucc]; exact getCounterVal_lt _

/-- The minimum of the loop, and the lane of the slot where the loop found it -/
theorem min_widen {s : Bucket.Scan} (h : b.Seen fp 7 s) :
    horizontalMin b.widen.results = s.minCounterVal ∧
      firstLane (movemask (cmpeq (set1 s.minCounterVal) b.widen.results)) =
        s.minCounter.castSucc := by
  have hslot : ∀ i : Slot, b.widen.results i.castSucc = getCounterVal (b.val i) := fun i => by
    rw [results_castSucc, widen_val_castSucc]
  have hmin : s.minCounterVal = b.widen.results s.minCounter.castSucc :=
    h.val.trans (hslot _).symm
  have hleast : ∀ j, s.minCounterVal ≤ b.widen.results j := fun j => by
    cases j using Fin.lastCases with
    | last =>
      rw [results_last, h.val]
      exact Nat.le_of_lt_succ (getCounterVal_lt _)
    | cast i =>
      rw [hslot]
      exact h.least i i.isLt
  obtain ⟨hle, j, hj⟩ := horizontalMin_spec b.widen.results_lt
  refine ⟨le_antisymm (hmin ▸ hle _) (hj ▸ hleast j), ?_⟩
  refine firstLane_eq hmin (forall_lt_castSucc fun j hj heq => ?_)
  exact (h.first j hj).ne (heq.trans (hslot j))

end WideBucket

/-! ## One bucket -/

/-- The slots without a key are those without a count. -/
def Bucket.Tight (b : Bucket) : Prop := ∀ i, b.key i = 0 ↔ getCounterVal (b.val i) = 0

namespace WideBucket

variable {b : Bucket} {fp : UInt32}

theorem insert_widen_of_matched {i : Slot} (f : Nat) (hmatched : (b.find fp).matched = some i)
    (hi : b.key i = fp) (hfirst : ∀ j < i, b.key j ≠ fp) :
    b.widen.insert fp f = ((b.insert fp f).1.widen, (b.insert fp f).2) := by
  obtain ⟨hmask, hlane⟩ := firstLane_matchMask hi hfirst
  rw [insert, if_pos hmask, Bucket.insert]
  simp only [hmatched, hlane, widen_val_castSucc]
  exact congrArg (fun v => ((⟨b.widen.key, v⟩ : WideBucket), Bucket.Result.kept))
    (update_val_widen i (u32 (b.val i + f)) b.guard)

/-- When the loop does not find the key, its least counter is 0 just if it found an empty slot,
which is then that of the counter. -/
theorem empty_of_seen {s : Bucket.Scan} (htight : b.Tight) (h : b.Seen fp 7 s) :
    s.empty = if s.minCounterVal = 0 then some s.minCounter else none := by
  cases he : s.empty with
  | none =>
    have hne : s.minCounterVal ≠ 0 := fun h0 =>
      h.full he s.minCounter s.minCounter.isLt ((htight _).mpr (h.val.symm.trans h0))
    rw [if_neg hne]
  | some i =>
    obtain ⟨hi, hfirst⟩ := h.empty i he
    have hi0 : getCounterVal (b.val i) = 0 := (htight i).mp hi
    have h0 : s.minCounterVal = 0 := Nat.le_zero.mp (hi0 ▸ h.least i i.isLt)
    rw [if_pos h0]
    -- each of the two slots is the first one
    refine congrArg some (le_antisymm (not_lt.mp fun hlt => ?_) (not_lt.mp fun hlt => ?_))
    · exact hfirst _ hlt ((htight _).mpr (h.val.symm.trans h0))
    · exact absurd (h.first i hlt) (hi0 ▸ Nat.not_lt_zero _)

/-- The vector instructions do to the lanes what the loop does to the slots. -/
theorem insert_widen (htight : b.Tight) (hfp : fp ≠ 0) (f : Nat) :
    b.widen.insert fp f = ((b.insert fp f).1.widen, (b.insert fp f).2) := by
  rcases b.find_spec fp with ⟨i, hmatched, hi, hfirst⟩ | h
  · exact insert_widen_of_matched f hmatched hi hfirst
  have hmask : ¬ b.widen.matchMask fp ≠ 0 :=
    not_not.mpr (matchMask_eq_zero hfp fun j => h.ne j j.isLt)
  obtain ⟨hmin, hlane⟩ := min_widen h
  have hempty := empty_of_seen htight h
  rw [insert, if_neg hmask, Bucket.insert]
  simp only [hmin, hlane, h.matched, widen_val_last, widen_key_castSucc, widen_val_castSucc,
    update_guard_widen, update_key_widen, update_val_widen]
  by_cases h0 : (b.find fp).minCounterVal = 0
  · rw [if_pos h0] at hempty
    simp only [hempty, if_pos h0]
    exact congrArg (fun v => ((⟨_, v⟩ : WideBucket), Bucket.Result.kept)) (update_val_widen _ f _)
  · rw [if_neg h0] at hempty
    simp only [hempty, if_neg h0]
    split <;> rfl

theorem query_widen (hfp : fp ≠ 0) : b.widen.query fp = b.query fp := by
  rcases b.find_spec fp with ⟨i, -, hi, hfirst⟩ | h
  · obtain ⟨hmask, hlane⟩ := firstLane_matchMask hi hfirst
    have hfind : (List.finRange 7).find? (fun j => b.key j = fp) = some i := by
      refine List.find?_eq_some_iff_getElem.mpr ⟨decide_eq_true hi, i, ?_, ?_, fun j hj => ?_⟩
      · rw [List.length_finRange]
        exact i.isLt
      · rw [List.getElem_finRange]
        rfl
      · rw [List.getElem_finRange, decide_eq_false (hfirst _ hj)]
        rfl
    rw [query, if_pos hmask, hlane, widen_val_castSucc, Bucket.query, hfind]
  · have hne : ∀ j, b.key j ≠ fp := fun j => h.ne j j.isLt
    have hmask : ¬ b.widen.matchMask fp ≠ 0 := not_not.mpr (matchMask_eq_zero hfp hne)
    rw [query, if_neg hmask, Bucket.query_of_absent hne]

/-- In a full bucket, the marker of an empty slot is the key of the last lane: the guard takes
the count. -/
theorem insert_zero (hfull : ∀ j, b.key j ≠ 0) (f : Nat) :
    b.widen.insert 0 f = ({ b with guard := u32 (b.guard + f) }.widen, .kept) := by
  have hlane : ∀ j : Fin 8, set1 (0 : UInt32).toNat j = (b.widen.key j).toNat ↔
      b.widen.key j = 0 := fun j => by
    rw [set1, UInt32.toNat_inj, eq_comm]
  have hlast := (hlane (Fin.last 7)).mpr widen_key_last
  have hmask : b.widen.matchMask 0 ≠ 0 := fun h0 => movemask_cmpeq_eq_zero_iff.mp h0 _ hlast
  have hfirst : firstLane (b.widen.matchMask 0) = Fin.last 7 :=
    firstLane_eq hlast fun j hj heq => by
      cases j using Fin.lastCases with
      | last => exact lt_irrefl _ hj
      | cast i => exact hfull i ((widen_key_castSucc i).symm.trans ((hlane _).mp heq))
  rw [insert, if_pos hmask]
  simp only [hfirst, widen_val_last, update_guard_widen]
  rfl

end WideBucket

/-! ## The sketch -/

/-- `ElasticSketch` with `USING_SIMD_ACCELERATION` -/
structure WideSketch (c : SketchConfig) where
  buckets : Fin c.bucketNum → WideBucket
  counters : Fin c.counterNum → Nat

variable {c : SketchConfig}

namespace WideSketch

def clear : WideSketch c :=
  { buckets := fun _ => { key := fun _ => 0, val := fun _ => 0 }, counters := fun _ => 0 }

variable (s : WideSketch c) (key : UInt32)

/-- `light_part`, whose code is the same -/
def lightPart : ElasticSketch c := { buckets := fun _ => .empty, counters := s.counters }

def insert : WideSketch c :=
  let pos := c.bucketPos key
  let (b, result) := (s.buckets pos).insert key 1
  let buckets := update s.buckets pos b
  match result with
  | .kept => { s with buckets }
  | .swapped swapKey swapVal =>
    if highestBitIs1 swapVal then
      { buckets, counters := (s.lightPart.lightInsert swapKey (getCounterVal swapVal)).counters }
    else { buckets, counters := (s.lightPart.swapInsert swapKey swapVal).counters }
  | .missed => { buckets, counters := (s.lightPart.lightInsert key 1).counters }

def query : Nat :=
  let heavyResult := (s.buckets (c.bucketPos key)).query key
  if heavyResult = 0 ∨ highestBitIs1 heavyResult = true then
    getCounterVal heavyResult + s.lightPart.lightQuery key
  else heavyResult

def insertAll (keys : List UInt32) : WideSketch c := keys.foldl insert s

end WideSketch

namespace ElasticSketch

/-- The sketch as the vector instructions have it -/
def widen (s : ElasticSketch c) : WideSketch c :=
  { buckets := fun p => (s.buckets p).widen, counters := s.counters }

/-- The slots without a key are those without a count. -/
def Tight (s : ElasticSketch c) : Prop := ∀ p, (s.buckets p).Tight

theorem widen_clear : (clear : ElasticSketch c).widen = .clear := by
  have hkey : (Fin.snoc (fun _ : Slot => (0 : UInt32)) 0 : Fin 8 → UInt32) = fun _ => 0 :=
    funext (Fin.lastCases (Fin.snoc_last (α := fun _ => UInt32) ..) fun _ =>
      Fin.snoc_castSucc (α := fun _ => UInt32) ..)
  have hval : (Fin.snoc (fun _ : Slot => 0) 0 : Fin 8 → Nat) = fun _ => 0 :=
    funext (Fin.lastCases (Fin.snoc_last (α := fun _ => Nat) ..) fun _ =>
      Fin.snoc_castSucc (α := fun _ => Nat) ..)
  simp only [widen, WideSketch.clear, clear, Bucket.widen, Bucket.empty, hkey, hval]

theorem tight_clear : (clear : ElasticSketch c).Tight := fun _ _ =>
  iff_of_true rfl (getCounterVal_of_lt (Nat.two_pow_pos 31))

/-- A sketch that differs from `s` in a bucket and in its light part -/
theorem widen_of_setBucket {s t : ElasticSketch c} {p : Fin c.bucketNum} {b : Bucket}
    (h : t.buckets = (s.setBucket p b).buckets) :
    t.widen = { buckets := update s.widen.buckets p b.widen, counters := t.counters } := by
  rw [widen, WideSketch.mk.injEq]
  refine ⟨funext fun q => ?_, rfl⟩
  rw [h]
  exact apply_update (fun _ => Bucket.widen) s.buckets p b q

/-- The light part does not read the buckets. -/
theorem swapInsert_counters {s t : ElasticSketch c} (h : s.counters = t.counters) (key : UInt32)
    (f : Nat) : (s.swapInsert key f).counters = (t.swapInsert key f).counters := by
  rw [swapInsert, swapInsert, apply_ite counters, apply_ite counters, h]

variable {s : ElasticSketch c} {k : UInt32}

theorem insert_widen (htight : s.Tight) (hk : k ≠ 0) : s.widen.insert k = (s.insert k).widen := by
  have hbucket := WideBucket.insert_widen (htight (c.bucketPos k)) hk 1
  rw [WideSketch.insert, insert]
  dsimp only
  rw [show s.widen.buckets (c.bucketPos k) = (s.buckets (c.bucketPos k)).widen from rfl, hbucket]
  cases ((s.buckets (c.bucketPos k)).insert k 1).2 with
  | kept => exact (widen_of_setBucket rfl).symm
  | swapped swapKey swapVal =>
    dsimp only
    split
    · exact (widen_of_setBucket (lightInsert_buckets ..)).symm
    · rw [widen_of_setBucket (swapInsert_buckets ..), WideSketch.mk.injEq]
      exact ⟨rfl, swapInsert_counters
        (s := s.widen.lightPart) (t := s.setBucket _ _) rfl swapKey swapVal⟩
  | missed => exact (widen_of_setBucket (lightInsert_buckets ..)).symm

theorem query_widen (hk : k ≠ 0) : s.widen.query k = s.query k := by
  have hheavy : (s.widen.buckets (c.bucketPos k)).query k = s.heavyQuery k :=
    WideBucket.query_widen hk
  rw [WideSketch.query, query, hheavy]
  rfl

/-- One more count, as long as it fits in a counter -/
theorem tight_insert (htight : s.Tight) (hk : k ≠ 0)
    (hlt : ∀ p i, s.slotKey p i = k → getCounterVal (s.slotVal p i) + 1 < 2 ^ 31) :
    (s.insert k).Tight := by
  have hset : ∀ {t : ElasticSketch c} {p i v g}, getCounterVal v ≠ 0 →
      t.buckets = (s.setSlot p i k v g).buckets → t.Tight := by
    intro t p i v g hv hb q j
    have hkey : (t.buckets q).key j = (s.setSlot p i k v g).slotKey q j := by rw [hb, slotKey]
    have hval : (t.buckets q).val j = (s.setSlot p i k v g).slotVal q j := by rw [hb, slotVal]
    rw [hkey, hval, setSlot_slotKey, setSlot_slotVal]
    split
    · exact iff_of_false hk hv
    · exact htight q j
  -- both values with which a key gets a slot count 1
  have hone : getCounterVal 1 ≠ 0 ∧ getCounterVal 0x80000001 ≠ 0 := by decide
  rcases s.insert_cases k with ⟨i, hi, hins⟩ | ⟨i, hi, habs, hins⟩ |
    ⟨hfull, habs, ⟨i, hins⟩ | hins⟩ <;> rw [hins]
  · refine hset ?_ rfl
    have hval := hlt _ i hi
    rw [getCounterVal_eq] at hval ⊢
    rw [u32]
    omega
  · exact hset hone.1 rfl
  · dsimp only
    split
    · exact hset hone.2 (lightInsert_buckets ..)
    · exact hset hone.2 (swapInsert_buckets ..)
  · intro q j
    have hkey : ∀ g, ((s.setGuard (c.bucketPos k) g).buckets q).key j = s.slotKey q j :=
      fun g => setGuard_slotKey s _ q j g
    have hval : ∀ g, ((s.setGuard (c.bucketPos k) g).buckets q).val j = s.slotVal q j :=
      fun g => setGuard_slotVal s _ q j g
    rw [lightInsert_buckets, hkey, hval]
    exact htight q j

theorem insertAll_widen {ks : List UInt32} (htight : s.Tight) (hks : ∀ k ∈ ks, k ≠ 0)
    (hfit : CountersFit s ks) : s.widen.insertAll ks = (s.insertAll ks).widen := by
  induction ks generalizing s with
  | nil => rfl
  | cons k ks ih =>
    obtain ⟨hk, hks⟩ := List.forall_mem_cons.mp hks
    have htail := ih (tight_insert htight hk hfit.1) hks hfit.2
    rwa [← insert_widen htight hk] at htail

end ElasticSketch

/-- From `clear`, fewer than `2 ^ 31` insertions of keys that are not the marker of an empty slot
leave, with the vector instructions, what they leave with the loop, and every query of such a key
gives the same. -/
theorem insertAllSimd_eq {ks : List UInt32} (hks : ∀ k ∈ ks, k ≠ 0) (hlen : ks.length < 2 ^ 31) :
    (WideSketch.clear.insertAll ks : WideSketch c) = (ElasticSketch.clear.insertAll ks).widen ∧
      ∀ k ≠ 0, (WideSketch.clear.insertAll ks : WideSketch c).query k =
        (ElasticSketch.clear.insertAll ks : ElasticSketch c).query k := by
  have hfit : CountersFit (ElasticSketch.clear : ElasticSketch c) ks :=
    countersFit_of_sumLe sumLe_clear (by rwa [Nat.zero_add])
  have heq := ElasticSketch.insertAll_widen ElasticSketch.tight_clear hks hfit
  rw [ElasticSketch.widen_clear] at heq
  exact ⟨heq, fun k hk => heq ▸ ElasticSketch.query_widen hk⟩

theorem insertAllSimd_swapped :
    (WideSketch.clear.insertAll swapKeys : WideSketch oneBucket).query 8 =
      (ElasticSketch.clear.insertAll swapKeys : ElasticSketch oneBucket).query 8 :=
  have hkeys : ∀ k ∈ swapKeys, k ≠ 0 := by simp [swapKeys]
  (insertAllSimd_eq hkeys (by decide)).2 8 (by decide)

end Paraleon.Sketch
