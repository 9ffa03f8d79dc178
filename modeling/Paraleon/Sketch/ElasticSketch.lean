import Mathlib.Data.List.FinRange
import Mathlib.Data.Nat.Bitwise
import Mathlib.Logic.Function.Basic
import Paraleon.Library.Words

/-!
# The elastic sketch of a switch

`ElasticSketch` counts the packets of each flow. The heavy part holds exact counters in
buckets of seven slots; a key that finds its bucket full counts in the light part, an
array of 8-bit counters shared by hash, and raises the guard of the bucket, until it takes
the place of the least key. A counter that started in this way is flagged.

`Bucket.insert_cases` and `ElasticSketch.insert_cases` say all that an insertion can do;
`placed_insert`, where the keys are after any insertions.
-/

namespace Paraleon.Sketch

open Words Function

/-! ## The buckets of the heavy part -/

def getCounterVal (val : Nat) : Nat := val &&& 0x7FFFFFFF

def highestBitIs1 (val : Nat) : Bool := (val &&& 0x80000000) != 0

def judgeIfSwap (minVal guardVal : Nat) : Bool := decide (u32 (minVal <<< 3) < guardVal)

def updateGuardVal (guardVal : Nat) : Nat := u32 (guardVal + 1)

theorem getCounterVal_eq (val : Nat) : getCounterVal val = val % 2 ^ 31 :=
  Nat.and_two_pow_sub_one_eq_mod val 31

theorem highestBitIs1_eq (val : Nat) : highestBitIs1 val = val.testBit 31 := by
  have h : val &&& 0x80000000 = (val.testBit 31).toNat * 2 ^ 31 := Nat.and_two_pow val 31
  rw [highestBitIs1, h]
  cases val.testBit 31 <;> rfl

theorem getCounterVal_of_lt {val : Nat} (h : val < 2 ^ 31) : getCounterVal val = val := by
  rw [getCounterVal_eq, Nat.mod_eq_of_lt h]

theorem getCounterVal_flagged {cnt : Nat} (h : cnt < 2 ^ 31) :
    getCounterVal (2 ^ 31 + cnt) = cnt := by
  rw [getCounterVal_eq, Nat.add_mod_left, Nat.mod_eq_of_lt h]

theorem getCounterVal_succ (val : Nat) :
    getCounterVal (u32 (val + 1)) ≤ getCounterVal val + 1 := by
  simp only [getCounterVal_eq, u32]
  omega

theorem highestBitIs1_of_lt {val : Nat} (h : val < 2 ^ 31) : highestBitIs1 val = false := by
  rw [highestBitIs1_eq, Nat.testBit_lt_two_pow h]

theorem lt_of_highestBitIs1 {val : Nat} (hlt : val < 2 ^ 32) (h : highestBitIs1 val = false) :
    val < 2 ^ 31 := by
  by_contra hge
  have hval : val = 2 ^ 31 + (val - 2 ^ 31) := by omega
  rw [highestBitIs1_eq, hval, Nat.testBit_two_pow_add_eq,
    Nat.testBit_lt_two_pow (by omega : val - 2 ^ 31 < 2 ^ 31)] at h
  cases h

theorem highestBitIs1_flagged {cnt : Nat} (h : cnt < 2 ^ 31) :
    highestBitIs1 (2 ^ 31 + cnt) = true := by
  rw [highestBitIs1_eq, Nat.testBit_two_pow_add_eq, Nat.testBit_lt_two_pow h, Bool.not_false]

/-- A slot below `MAX_VALID_COUNTER`. -/
abbrev Slot := Fin 7

/-- A bucket: its slots, and `val[MAX_VALID_COUNTER]`, the guard. -/
structure Bucket where
  key : Slot → UInt32
  val : Slot → Nat
  guard : Nat

namespace Bucket

def empty : Bucket := { key := fun _ => 0, val := fun _ => 0, guard := 0 }

/-- The variables of the loop in `HeavyPart::insert`. -/
structure Scan where
  matched : Option Slot
  empty : Option Slot
  minCounter : Slot
  minCounterVal : Nat

/-- The loop, which ends at a slot with the key. -/
def scan (b : Bucket) (fp : UInt32) : List Slot → Scan → Scan
  | [], s => s
  | i :: is, s =>
    if b.key i = fp then { s with matched := some i }
    else
      let less := getCounterVal (b.val i) < s.minCounterVal
      b.scan fp is
        { s with
          empty := if b.key i = 0 ∧ s.empty = none then some i else s.empty
          minCounter := if less then i else s.minCounter
          minCounterVal := if less then getCounterVal (b.val i) else s.minCounterVal }

def find (b : Bucket) (fp : UInt32) : Scan :=
  b.scan fp (List.finRange 7)
    { matched := none, empty := none, minCounter := 0, minCounterVal := getCounterVal (b.val 0) }

/-- What `HeavyPart::insert` returns: 0, 1 with the key and value that were swapped out, or
2. -/
inductive Result where
  | kept
  | swapped (swapKey : UInt32) (swapVal : Nat)
  | missed
deriving DecidableEq, Repr

/-- `HeavyPart::insert`, in the bucket of the key. -/
def insert (b : Bucket) (fp : UInt32) (f : Nat) : Bucket × Result :=
  let s := b.find fp
  match s.matched, s.empty with
  | some i, _ => ({ b with val := update b.val i (u32 (b.val i + f)) }, .kept)
  | none, some i => ({ b with key := update b.key i fp, val := update b.val i f }, .kept)
  | none, none =>
    let guardVal := updateGuardVal b.guard
    if judgeIfSwap (getCounterVal s.minCounterVal) guardVal then
      ({ key := update b.key s.minCounter fp
         val := update b.val s.minCounter 0x80000001
         guard := 0 },
        .swapped (b.key s.minCounter) (b.val s.minCounter))
    else ({ b with guard := guardVal }, .missed)

variable {b : Bucket} {fp : UInt32} {is : List Slot} {s : Scan} {i : Slot}

theorem key_of_scan (hs : s.matched = none) (h : (b.scan fp is s).matched = some i) :
    b.key i = fp := by
  induction is generalizing s with
  | nil => simp [scan, hs] at h
  | cons j is ih =>
    by_cases hj : b.key j = fp
    · have hji : j = i := by simpa [scan, hj] using h
      exact hji ▸ hj
    · simp only [scan, hj, if_false] at h
      refine ih ?_ h
      exact hs

theorem unmatched_of_scan (h : (b.scan fp is s).matched = none) : ∀ j ∈ is, b.key j ≠ fp := by
  induction is generalizing s with
  | nil => simp
  | cons j is ih =>
    by_cases hj : b.key j = fp
    · simp [scan, hj] at h
    · simp only [scan, hj, if_false] at h
      exact List.forall_mem_cons.mpr ⟨hj, ih h⟩

theorem empty_of_scan (hs : ∀ j, s.empty = some j → b.key j = 0)
    (h : (b.scan fp is s).empty = some i) : b.key i = 0 := by
  induction is generalizing s with
  | nil => exact hs i h
  | cons j is ih =>
    by_cases hj : b.key j = fp
    · simp only [scan, hj, if_true] at h
      exact hs i h
    · simp only [scan, hj, if_false] at h
      refine ih (fun l hl => ?_) h
      dsimp only at hl
      split at hl
      · next hz => exact Option.some.inj hl ▸ hz.1
      · exact hs l hl

theorem full_of_scan (h : (b.scan fp is s).matched = none) (he : (b.scan fp is s).empty = none) :
    s.empty = none ∧ ∀ j ∈ is, b.key j ≠ 0 := by
  induction is generalizing s with
  | nil => exact ⟨he, by simp⟩
  | cons j is ih =>
    by_cases hj : b.key j = fp
    · simp [scan, hj] at h
    · simp only [scan, hj, if_false] at h he
      obtain ⟨hs, his⟩ := ih h he
      dsimp only at hs
      split at hs
      · cases hs
      · next hz => exact ⟨hs, List.forall_mem_cons.mpr ⟨fun h0 => hz ⟨h0, hs⟩, his⟩⟩

/-- What an insertion can do to a bucket. -/
theorem insert_cases (b : Bucket) (fp : UInt32) (f : Nat) :
    (∃ i, b.key i = fp ∧
      b.insert fp f = ({ b with val := update b.val i (u32 (b.val i + f)) }, .kept)) ∨
    (∃ i, b.key i = 0 ∧ (∀ j, b.key j ≠ fp) ∧
      b.insert fp f = ({ b with key := update b.key i fp, val := update b.val i f }, .kept)) ∨
    ((∀ j, b.key j ≠ 0) ∧ (∀ j, b.key j ≠ fp) ∧
      ((∃ i, b.insert fp f =
          ({ key := update b.key i fp, val := update b.val i 0x80000001, guard := 0 },
            .swapped (b.key i) (b.val i))) ∨
        b.insert fp f = ({ b with guard := updateGuardVal b.guard }, .missed))) := by
  have hall : ∀ j, j ∈ List.finRange 7 := List.mem_finRange
  cases hm : (b.find fp).matched with
  | some i => exact .inl ⟨i, key_of_scan rfl hm, by simp [insert, hm]⟩
  | none =>
    have hfp : ∀ j, b.key j ≠ fp := fun j => unmatched_of_scan hm j (hall j)
    cases he : (b.find fp).empty with
    | some i =>
      have hi : b.key i = 0 := empty_of_scan (by simp) he
      exact .inr (.inl ⟨i, hi, hfp, by simp [insert, hm, he]⟩)
    | none =>
      have h0 : ∀ j, b.key j ≠ 0 := fun j => (full_of_scan hm he).2 j (hall j)
      refine .inr (.inr ⟨h0, hfp, ?_⟩)
      by_cases hj : judgeIfSwap (getCounterVal (b.find fp).minCounterVal) (updateGuardVal b.guard)
      · exact .inl ⟨(b.find fp).minCounter, by simp [insert, hm, he, hj]⟩
      · exact .inr (by simp [insert, hm, he, hj])

/-- `HeavyPart::query`, in the bucket of the key. -/
def query (b : Bucket) (fp : UInt32) : Nat :=
  match (List.finRange 7).find? fun i => b.key i = fp with
  | some i => b.val i
  | none => 0

theorem query_of_absent {b : Bucket} {fp : UInt32} (h : ∀ i, b.key i ≠ fp) : b.query fp = 0 := by
  have hf : (List.finRange 7).find? (fun i => b.key i = fp) = none := by simp [h]
  rw [query, hf]

/-- A query reads some slot of the key. -/
theorem query_of_mem {b : Bucket} {fp : UInt32} {i : Slot} (h : b.key i = fp) :
    ∃ j, b.key j = fp ∧ b.query fp = b.val j := by
  obtain ⟨j, hj⟩ : ∃ j, (List.finRange 7).find? (fun i => b.key i = fp) = some j := by
    rw [← Option.isSome_iff_exists, List.find?_isSome]
    exact ⟨i, List.mem_finRange i, by simpa using h⟩
  exact ⟨j, by simpa using List.find?_some hj, by rw [query, hj]⟩

end Bucket

/-! ## The positions of a key -/

/-- The template parameters of a sketch, and `bobhash->run`. -/
structure SketchConfig where
  bucketNum : Nat
  counterNum : Nat
  bobhash : UInt32 → UInt32
  bucketNum_pos : 0 < bucketNum
  counterNum_pos : 0 < counterNum

namespace SketchConfig

variable (c : SketchConfig) (key : UInt32)

def calculateBucketPos (fp : UInt32) : UInt32 := (fp * 2654435761) >>> 15

/-- The bucket of a key. -/
def bucketPos : Fin c.bucketNum :=
  ⟨(calculateBucketPos key).toNat % c.bucketNum, Nat.mod_lt _ c.bucketNum_pos⟩

/-- The light counter of a key. -/
def counterPos : Fin c.counterNum :=
  ⟨(c.bobhash key).toNat % c.counterNum, Nat.mod_lt _ c.counterNum_pos⟩

end SketchConfig

/-! ## The hash and the sizes of a switch -/

/-- The macro `mix` of `BOBHash32`. -/
def mix (a b c : UInt32) : UInt32 × UInt32 × UInt32 :=
  let round (r s t : UInt32) : UInt32 × UInt32 × UInt32 → UInt32 × UInt32 × UInt32
    | (a, b, c) =>
      let a := (a - b - c) ^^^ (c >>> r)
      let b := (b - c - a) ^^^ (a <<< s)
      let c := (c - a - b) ^^^ (b >>> t)
      (a, b, c)
  round 3 10 15 (round 12 16 5 (round 13 8 13 (a, b, c)))

/-- `str[i]` of the key, a `char` that is negative from 128 on. -/
def keyByte (key i : UInt32) : UInt32 :=
  let byte := (key >>> (8 * i)) &&& 0xff
  if byte < 128 then byte else byte - 256

/-- `BOBHash32::run` on a key of `KEY_LENGTH_4` bytes; `prime` is `prime32[prime32Num]`. -/
def bobHash32Run (prime key : UInt32) : UInt32 :=
  let golden : UInt32 := 0x9e3779b9
  let a := golden + (keyByte key 3 <<< 24) + (keyByte key 2 <<< 16) + (keyByte key 1 <<< 8) +
    keyByte key 0
  (mix a golden (prime + 4)).2.2

/-- `ElasticSketch<BUCKET_NUM, TOT_MEM_IN_BYTES>`, with a prime drawn by `LightPart`. -/
def switchSketch (prime : UInt32) : SketchConfig where
  bucketNum := 2400
  counterNum := 460800
  bobhash := bobHash32Run prime
  bucketNum_pos := by decide
  counterNum_pos := by decide

/-! ## The state and the operations -/

/-- `ElasticSketch`. What the statistics of the light part read (`mice_dist`) is left out, as
is `insertTimes`. -/
structure ElasticSketch (c : SketchConfig) where
  buckets : Fin c.bucketNum → Bucket
  counters : Fin c.counterNum → Nat

namespace ElasticSketch

variable {c : SketchConfig}

def clear : ElasticSketch c := { buckets := fun _ => .empty, counters := fun _ => 0 }

variable (s : ElasticSketch c) (key : UInt32)

/-- `LightPart::insert` -/
def lightInsert (f : Nat) : ElasticSketch c :=
  let pos := c.counterPos key
  let newVal := s.counters pos + f
  { s with counters := update s.counters pos (if newVal < 255 then newVal else 255) }

/-- `LightPart::swap_insert` -/
def swapInsert (f : Nat) : ElasticSketch c :=
  let pos := c.counterPos key
  let f := if f < 255 then f else 255
  if s.counters pos < f then { s with counters := update s.counters pos f } else s

def setBucket (i : Fin c.bucketNum) (b : Bucket) : ElasticSketch c :=
  { s with buckets := update s.buckets i b }

def insert : ElasticSketch c :=
  let pos := c.bucketPos key
  let (b, result) := (s.buckets pos).insert key 1
  let s := s.setBucket pos b
  match result with
  | .kept => s
  | .swapped swapKey swapVal =>
    if highestBitIs1 swapVal then s.lightInsert swapKey (getCounterVal swapVal)
    else s.swapInsert swapKey swapVal
  | .missed => s.lightInsert key 1

def heavyQuery : Nat := (s.buckets (c.bucketPos key)).query key

def lightQuery : Nat := s.counters (c.counterPos key)

def query : Nat :=
  let heavyResult := s.heavyQuery key
  if heavyResult = 0 ∨ highestBitIs1 heavyResult = true then
    getCounterVal heavyResult + s.lightQuery key
  else heavyResult

/-- The sketch after the insertion of `keys`. -/
def insertAll (keys : List UInt32) : ElasticSketch c := keys.foldl insert s

theorem lightInsert_le_255 (f : Nat) (h : ∀ p, s.counters p ≤ 255) (p : Fin c.counterNum) :
    (s.lightInsert key f).counters p ≤ 255 := by
  unfold lightInsert
  dsimp only
  rw [update_apply]
  split
  · split <;> omega
  · exact h p

theorem swapInsert_le_255 (f : Nat) (h : ∀ p, s.counters p ≤ 255) (p : Fin c.counterNum) :
    (s.swapInsert key f).counters p ≤ 255 := by
  have hf : (if f < 255 then f else 255) ≤ 255 := by split <;> omega
  unfold swapInsert
  dsimp only
  generalize (if f < 255 then f else 255) = f' at hf ⊢
  by_cases hlt : s.counters (c.counterPos key) < f'
  · rw [if_pos hlt]
    dsimp only
    rw [update_apply]
    split
    · exact hf
    · exact h p
  · rw [if_neg hlt]
    exact h p

theorem lightInsert_counters_le (f : Nat) (p : Fin c.counterNum) :
    (s.lightInsert key f).counters p ≤ s.counters p + f := by
  unfold lightInsert
  dsimp only
  rw [update_apply]
  split
  · next hp =>
    rw [hp]
    split <;> omega
  · exact Nat.le_add_right ..

theorem swapInsert_counters_le (f : Nat) (p : Fin c.counterNum) :
    (s.swapInsert key f).counters p ≤ s.counters p + f := by
  have hf : (if f < 255 then f else 255) ≤ f := by split <;> omega
  unfold swapInsert
  dsimp only
  generalize (if f < 255 then f else 255) = f' at hf ⊢
  by_cases hlt : s.counters (c.counterPos key) < f'
  · rw [if_pos hlt]
    dsimp only
    rw [update_apply]
    split
    · exact hf.trans (Nat.le_add_left ..)
    · exact Nat.le_add_right ..
  · rw [if_neg hlt]
    exact Nat.le_add_right ..

/-! ## The slots of the heavy part -/

def slotKey (p : Fin c.bucketNum) (i : Slot) : UInt32 := (s.buckets p).key i

def slotVal (p : Fin c.bucketNum) (i : Slot) : Nat := (s.buckets p).val i

/-- A slot of the heavy part has the key. -/
def Resident : Prop := ∃ p i, s.slotKey p i = key

/-- The sketch with a new key, value and guard in a bucket. -/
def setSlot (p : Fin c.bucketNum) (i : Slot) (k : UInt32) (v g : Nat) : ElasticSketch c :=
  s.setBucket p
    { key := update (s.buckets p).key i k
      val := update (s.buckets p).val i v
      guard := g }

def setGuard (p : Fin c.bucketNum) (g : Nat) : ElasticSketch c :=
  s.setBucket p { s.buckets p with guard := g }

variable (p q : Fin c.bucketNum) (i j : Slot) (k : UInt32) (v g : Nat)

theorem setSlot_slotKey :
    (s.setSlot p i k v g).slotKey q j = if q = p ∧ j = i then k else s.slotKey q j := by
  rcases eq_or_ne q p with rfl | hq
  · simp [slotKey, setSlot, setBucket, update_apply]
  · simp [slotKey, setSlot, setBucket, hq]

theorem setSlot_slotVal :
    (s.setSlot p i k v g).slotVal q j = if q = p ∧ j = i then v else s.slotVal q j := by
  rcases eq_or_ne q p with rfl | hq
  · simp [slotVal, setSlot, setBucket, update_apply]
  · simp [slotVal, setSlot, setBucket, hq]

@[simp] theorem setGuard_slotKey : (s.setGuard p g).slotKey q j = s.slotKey q j := by
  by_cases hq : q = p <;> simp [slotKey, setGuard, setBucket, hq]

@[simp] theorem setGuard_slotVal : (s.setGuard p g).slotVal q j = s.slotVal q j := by
  by_cases hq : q = p <;> simp [slotVal, setGuard, setBucket, hq]

/-- All that an insertion can do: the key has a slot, takes an empty one, takes the place of
another key, or counts in the light part. -/
theorem insert_cases :
    (∃ i, s.slotKey (c.bucketPos key) i = key ∧
      s.insert key = s.setSlot (c.bucketPos key) i key (u32 (s.slotVal (c.bucketPos key) i + 1))
        (s.buckets (c.bucketPos key)).guard) ∨
    (∃ i, s.slotKey (c.bucketPos key) i = 0 ∧ (∀ j, s.slotKey (c.bucketPos key) j ≠ key) ∧
      s.insert key = s.setSlot (c.bucketPos key) i key 1 (s.buckets (c.bucketPos key)).guard) ∨
    ((∀ j, s.slotKey (c.bucketPos key) j ≠ 0) ∧ (∀ j, s.slotKey (c.bucketPos key) j ≠ key) ∧
      ((∃ i, s.insert key =
          let t := s.setSlot (c.bucketPos key) i key 0x80000001 0
          let swapKey := s.slotKey (c.bucketPos key) i
          let swapVal := s.slotVal (c.bucketPos key) i
          if highestBitIs1 swapVal then t.lightInsert swapKey (getCounterVal swapVal)
          else t.swapInsert swapKey swapVal) ∨
        s.insert key = (s.setGuard (c.bucketPos key)
          (updateGuardVal (s.buckets (c.bucketPos key)).guard)).lightInsert key 1)) := by
  rcases (s.buckets (c.bucketPos key)).insert_cases key 1 with
    ⟨i, hi, h⟩ | ⟨i, hi, habs, h⟩ | ⟨hfull, habs, ⟨i, h⟩ | h⟩
  · have hkey : update (s.buckets (c.bucketPos key)).key i key =
        (s.buckets (c.bucketPos key)).key := update_eq_self_iff.mpr hi.symm
    exact .inl ⟨i, hi, by rw [insert, h, setSlot, hkey, slotVal]⟩
  · exact .inr (.inl ⟨i, hi, habs, by rw [insert, h, setSlot]⟩)
  · exact .inr (.inr ⟨hfull, habs, .inl ⟨i, by rw [insert, h]; rfl⟩⟩)
  · exact .inr (.inr ⟨hfull, habs, .inr (by rw [insert, h]; rfl)⟩)

/-! ## The operations of the light part -/

/-- The light counters of `t` are at least those of `s`. -/
def Grows (t : ElasticSketch c) : Prop := ∀ k, s.lightQuery k ≤ t.lightQuery k

@[simp] theorem lightInsert_buckets (f : Nat) : (s.lightInsert key f).buckets = s.buckets := rfl

@[simp] theorem swapInsert_buckets (f : Nat) : (s.swapInsert key f).buckets = s.buckets := by
  rw [swapInsert, apply_ite buckets]
  exact ite_self _

theorem lightInsert_lightQuery (f : Nat) (k : UInt32) :
    (s.lightInsert key f).lightQuery k =
      if c.counterPos k = c.counterPos key then min 255 (s.lightQuery key + f)
      else s.lightQuery k := by
  have hmin : (if s.counters (c.counterPos key) + f < 255 then s.counters (c.counterPos key) + f
      else 255) = min 255 (s.counters (c.counterPos key) + f) := by
    split <;> omega
  rw [lightQuery, lightInsert, hmin]
  exact update_apply ..

theorem swapInsert_lightQuery (f : Nat) (k : UInt32) :
    (s.swapInsert key f).lightQuery k =
      if c.counterPos k = c.counterPos key then max (s.lightQuery key) (min 255 f)
      else s.lightQuery k := by
  have hmin : (if f < 255 then f else 255) = min 255 f := by split <;> omega
  simp only [swapInsert, hmin, lightQuery]
  by_cases hlt : s.counters (c.counterPos key) < min 255 f
  · rw [if_pos hlt, Nat.max_eq_right (Nat.le_of_lt hlt)]
    exact update_apply ..
  · rw [if_neg hlt, Nat.max_eq_left (Nat.le_of_not_lt hlt)]
    split
    · next h => rw [h]
    · rfl

theorem le_lightInsert (f : Nat) (h : ∀ p, s.counters p ≤ 255) : s.Grows (s.lightInsert key f) := by
  intro k
  rw [lightInsert_lightQuery]
  split
  · next hk =>
    have hle := h (c.counterPos key)
    rw [lightQuery, lightQuery, hk]
    omega
  · exact Nat.le_refl _

theorem le_swapInsert (f : Nat) : s.Grows (s.swapInsert key f) := by
  intro k
  rw [swapInsert_lightQuery]
  split
  · next hk =>
    rw [lightQuery, lightQuery, hk]
    exact Nat.le_max_left ..
  · exact Nat.le_refl _

/-! ## Where the keys are -/

/-- Every key is in its bucket, in one slot; an empty slot has no count. -/
structure Placed : Prop where
  home : ∀ p i, s.slotKey p i ≠ 0 → c.bucketPos (s.slotKey p i) = p
  distinct : ∀ p i j, s.slotKey p i ≠ 0 → s.slotKey p i = s.slotKey p j → i = j
  vacant : ∀ p i, s.slotKey p i = 0 → s.slotVal p i = 0

theorem placed_clear : (clear : ElasticSketch c).Placed where
  home _ _ h := absurd rfl h
  distinct _ _ _ h := absurd rfl h
  vacant _ _ _ := rfl

variable {s key p i k v g} {t : ElasticSketch c}

theorem Placed.of_buckets (h : s.Placed) (hkey : ∀ q j, t.slotKey q j = s.slotKey q j)
    (hval : ∀ q j, t.slotVal q j = s.slotVal q j) : t.Placed where
  home q j := by simpa only [hkey] using h.home q j
  distinct q j l := by simpa only [hkey] using h.distinct q j l
  vacant q j := by simpa only [hkey, hval] using h.vacant q j

theorem Placed.not_resident (h : s.Placed) (hk : k ≠ 0)
    (habs : ∀ j, s.slotKey (c.bucketPos k) j ≠ k) : ¬ s.Resident k := by
  rintro ⟨q, j, hq⟩
  have hpos : c.bucketPos k = q := hq ▸ h.home q j (hq ▸ hk)
  exact habs j (hpos ▸ hq)

/-- When `k` is in slot `i` of its bucket or in none, no other slot has it. -/
theorem Placed.ne_of_slot (h : s.Placed) (hk : k ≠ 0)
    (hslot : s.slotKey (c.bucketPos k) i = k ∨ ∀ j, s.slotKey (c.bucketPos k) j ≠ k)
    (hne : ¬ (q = c.bucketPos k ∧ j = i)) : s.slotKey q j ≠ k := by
  rintro rfl
  have hq := h.home q j hk
  rcases hslot with hi | habs
  · have hij : s.slotKey q i = s.slotKey q j := (congrArg (s.slotKey · i) hq).symm.trans hi
    exact hne ⟨hq.symm, h.distinct q j i hk hij.symm⟩
  · exact habs j (by rw [hq])

theorem Placed.setSlot (h : s.Placed) (hk : k ≠ 0)
    (hslot : s.slotKey (c.bucketPos k) i = k ∨ ∀ j, s.slotKey (c.bucketPos k) j ≠ k) :
    (s.setSlot (c.bucketPos k) i k v g).Placed where
  home q j hne := by
    rw [setSlot_slotKey] at hne ⊢
    split
    · next hq => exact hq.1.symm
    · next hq =>
      rw [if_neg hq] at hne
      exact h.home q j hne
  distinct q j l hne heq := by
    rw [setSlot_slotKey] at hne
    rw [setSlot_slotKey, setSlot_slotKey] at heq
    by_cases hj : q = c.bucketPos k ∧ j = i <;> by_cases hl : q = c.bucketPos k ∧ l = i
    · rw [hj.2, hl.2]
    · rw [if_pos hj, if_neg hl] at heq
      exact absurd heq.symm (h.ne_of_slot q l hk hslot hl)
    · rw [if_neg hj, if_pos hl] at heq
      exact absurd heq (h.ne_of_slot q j hk hslot hj)
    · rw [if_neg hj] at hne
      rw [if_neg hj, if_neg hl] at heq
      exact h.distinct q j l hne heq
  vacant q j h0 := by
    rw [setSlot_slotKey] at h0
    rw [setSlot_slotVal]
    split
    · next hq => exact absurd (by rwa [if_pos hq] at h0) hk
    · next hq => exact h.vacant q j (by rwa [if_neg hq] at h0)

/-- Of a key, a query reads its slot, or 0 and the light counter. -/
theorem Placed.heavyQuery (h : s.Placed) (hk : k ≠ 0) (hslot : s.slotKey p i = k) :
    s.heavyQuery k = s.slotVal p i := by
  have hp : c.bucketPos k = p := hslot ▸ h.home p i (hslot ▸ hk)
  obtain ⟨j, hj, hquery⟩ := Bucket.query_of_mem (b := s.buckets p) hslot
  have hij : i = j := h.distinct p i j (hslot ▸ hk) (hslot.trans hj.symm)
  rw [ElasticSketch.heavyQuery, hp, hquery, hij, slotVal]

theorem heavyQuery_of_absent (h : ¬ s.Resident k) : s.heavyQuery k = 0 :=
  Bucket.query_of_absent fun i hi => h ⟨_, i, hi⟩

/-- A query of the empty-slot marker reads its light counter. -/
theorem Placed.query_zero (h : s.Placed) : s.query 0 = s.lightQuery 0 := by
  have h0 : s.heavyQuery 0 = 0 := by
    by_cases hex : ∃ i, (s.buckets (c.bucketPos 0)).key i = 0
    · obtain ⟨i, hi⟩ := hex
      obtain ⟨j, hj, hquery⟩ := Bucket.query_of_mem hi
      exact hquery.trans (h.vacant _ j hj)
    · exact Bucket.query_of_absent fun i hi => hex ⟨i, hi⟩
  rw [ElasticSketch.query, h0]
  simp [getCounterVal]

/-- An insertion keeps the keys in their places, and no other key comes in. -/
theorem placed_insert (h : s.Placed) (hk : k ≠ 0) :
    (s.insert k).Placed ∧ ∀ q j, (s.insert k).slotKey q j = k ∨
      (s.insert k).slotKey q j = s.slotKey q j := by
  have hset : ∀ i v g q j, (s.setSlot (c.bucketPos k) i k v g).slotKey q j = k ∨
      (s.setSlot (c.bucketPos k) i k v g).slotKey q j = s.slotKey q j := by
    intro i v g q j
    rw [setSlot_slotKey]
    exact ite_eq_or_eq ..
  rcases s.insert_cases k with ⟨i, hi, hins⟩ | ⟨i, hi, habs, hins⟩ |
    ⟨hfull, habs, ⟨i, hins⟩ | hins⟩ <;> rw [hins]
  · exact ⟨h.setSlot hk (.inl hi), hset i _ _⟩
  · exact ⟨h.setSlot hk (.inr habs), hset i _ _⟩
  · have hplaced : (s.setSlot (c.bucketPos k) i k 0x80000001 0).Placed := h.setSlot hk (.inr habs)
    dsimp only
    split
    · exact ⟨hplaced.of_buckets (fun _ _ => rfl) (fun _ _ => rfl), hset i _ _⟩
    · have hb := swapInsert_buckets (s.setSlot (c.bucketPos k) i k 0x80000001 0)
        (s.slotKey (c.bucketPos k) i) (s.slotVal (c.bucketPos k) i)
      refine ⟨hplaced.of_buckets (fun q j => ?_) (fun q j => ?_), fun q j => ?_⟩
      · rw [slotKey, hb, slotKey]
      · rw [slotVal, hb, slotVal]
      · rw [slotKey, hb]
        exact hset ..
  · exact ⟨h.of_buckets (fun q j => setGuard_slotKey s _ q j _) (fun q j =>
      setGuard_slotVal s _ q j _), fun q j => .inr (setGuard_slotKey s _ q j _)⟩

end ElasticSketch

end Paraleon.Sketch
