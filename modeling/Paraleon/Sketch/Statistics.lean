import Mathlib.Algebra.BigOperators.Fin
import Paraleon.Library.Histogram
import Paraleon.Sketch.Accuracy

/-!
# The statistics of a sketch

The light part keeps a histogram of its counters, `mice_dist`, that each insertion updates, so
that `get_cardinality` and `get_entropy` need not read the counters.

* `toElastic_insertAll`: with the histogram, the sketch counts as before.
* `mice_dist_exact`: the histogram is that of the counters, but for the value 0, of which it says
  how many counters have left it.
* `get_entropy_total`: the total by which `get_entropy` divides is the sum of all the counters, is
  at most the number of packets, and is not 0 after the first one.
* `get_cardinality_slots`: of a flow with a flagged slot and a count in the light part, only one is
  counted.
-/

namespace Paraleon.Sketch

open Words Function Histogram

variable {c : SketchConfig}

/-! ## The light part and its histogram -/

structure LightPart (c : SketchConfig) where
  counters : Fin c.counterNum → Nat
  miceDist : Nat → Int

namespace LightPart

/-- `memset` clears the histogram too: it does not count the counters at 0. -/
def clear : LightPart c := { counters := fun _ => 0, miceDist := fun _ => 0 }

def insert (l : LightPart c) (key : UInt32) (f : Nat) : LightPart c :=
  let pos := c.counterPos key
  let oldVal := l.counters pos
  let newVal := if oldVal + f < 255 then oldVal + f else 255
  { counters := update l.counters pos newVal, miceDist := move l.miceDist oldVal newVal }

def swapInsert (l : LightPart c) (key : UInt32) (f : Nat) : LightPart c :=
  let pos := c.counterPos key
  let f := if f < 255 then f else 255
  if l.counters pos < f then
    { counters := update l.counters pos f, miceDist := move l.miceDist (l.counters pos) f }
  else l

def query (l : LightPart c) (key : UInt32) : Nat := l.counters (c.counterPos key)

/-- `mice_card` in `get_cardinality` -/
def miceCard (l : LightPart c) : Int :=
  (List.range' 1 255).foldl (fun card i => card + l.miceDist i) 0

/-- `tot` in `get_entropy` -/
def getEntropy (l : LightPart c) (tot : Int) : Int :=
  (List.range' 1 255).foldl (fun tot i => tot + l.miceDist i * i) tot

/-- The histogram of the counters; no counter has left 0 at first. -/
def Exact (l : LightPart c) : Prop :=
  ∀ v, l.miceDist v = count l.counters v - if v = 0 then (c.counterNum : Int) else 0

theorem exact_clear : (clear : LightPart c).Exact := by
  intro v
  have hcount : (count (clear : LightPart c).counters v : Int) =
      if v = 0 then (c.counterNum : Int) else 0 := by
    split
    · next h =>
      have hall : ∀ p ∈ Finset.univ, (clear : LightPart c).counters p = v := fun _ _ => h.symm
      rw [count, Finset.filter_true_of_mem hall, Finset.card_univ, Fintype.card_fin]
    · next h =>
      have hnone : ∀ p ∈ Finset.univ, (clear : LightPart c).counters p ≠ v := fun _ _ => Ne.symm h
      rw [count, Finset.filter_false_of_mem hnone, Finset.card_empty, Nat.cast_zero]
  rw [hcount, sub_self]
  rfl

variable {l : LightPart c}

theorem Exact.insert (h : l.Exact) (key : UInt32) (f : Nat) : (l.insert key f).Exact :=
  fun v => move_spec h (c.counterPos key) _ v

theorem Exact.swapInsert (h : l.Exact) (key : UInt32) (f : Nat) : (l.swapInsert key f).Exact := by
  rw [LightPart.swapInsert]
  generalize (if f < 255 then f else 255) = f'
  split
  · exact fun v => move_spec h (c.counterPos key) _ v
  · exact h

/-- The loops start at 1, where the histogram is that of the counters. -/
theorem Exact.apply {v : Nat} (h : l.Exact) (hv : v ∈ Finset.Icc 1 255) :
    l.miceDist v = count l.counters v := by
  rw [h v, if_neg (Nat.one_le_iff_ne_zero.mp (Finset.mem_Icc.mp hv).1), sub_zero]

theorem Exact.miceCard (h : l.Exact) (hle : ∀ p, l.counters p ≤ 255) :
    l.miceCard = (Finset.univ.filter fun p => l.counters p ≠ 0).card := by
  rw [LightPart.miceCard, foldl_range'_one, zero_add, Finset.sum_congr rfl fun v hv => h.apply hv,
    ← Nat.cast_sum, sum_count hle]

theorem Exact.getEntropy (h : l.Exact) (hle : ∀ p, l.counters p ≤ 255) (tot : Int) :
    l.getEntropy tot = tot + (∑ p, l.counters p : Nat) := by
  have hterm : ∀ v ∈ Finset.Icc 1 255,
      l.miceDist v * (v : Int) = (count l.counters v * v : Nat) := fun v hv => by
    rw [h.apply hv, Nat.cast_mul]
  rw [LightPart.getEntropy, foldl_range'_one, Finset.sum_congr rfl hterm, ← Nat.cast_sum,
    sum_count_mul hle]

end LightPart

/-! ## The sketch -/

/-- `ElasticSketch`, with its statistics. -/
structure FullSketch (c : SketchConfig) where
  insertTimes : Nat
  heavyPart : Fin c.bucketNum → Bucket
  lightPart : LightPart c

namespace FullSketch

def clear : FullSketch c :=
  { insertTimes := 0, heavyPart := fun _ => .empty, lightPart := .clear }

variable (s : FullSketch c) (key : UInt32)

def insert : FullSketch c :=
  let pos := c.bucketPos key
  let (b, result) := (s.heavyPart pos).insert key 1
  let lightPart := match result with
    | .kept => s.lightPart
    | .swapped swapKey swapVal =>
      if highestBitIs1 swapVal then s.lightPart.insert swapKey (getCounterVal swapVal)
      else s.lightPart.swapInsert swapKey swapVal
    | .missed => s.lightPart.insert key 1
  { insertTimes := s.insertTimes + 1, heavyPart := update s.heavyPart pos b, lightPart }

def insertAll (keys : List UInt32) : FullSketch c := keys.foldl insert s

/-- The slots, in the order of the loops of the source. -/
def slots : List (Fin c.bucketNum × Slot) :=
  (List.finRange c.bucketNum).flatMap fun i => (List.finRange 7).map fun j => (i, j)

/-- The body of the loop in `get_entropy`, for its total. -/
def entropySlot (tot : Int) (x : Fin c.bucketNum × Slot) : Int :=
  let val := (s.heavyPart x.1).val x.2
  let exVal := s.lightPart.query ((s.heavyPart x.1).key x.2)
  if highestBitIs1 val && exVal != 0 then
    let val := getCounterVal (u32 (val + exVal))
    let tot := tot - exVal
    if val ≠ 0 then tot + val else tot
  else
    let val := getCounterVal val
    if val ≠ 0 then tot + val else tot

/-- The total by which `get_entropy` divides -/
def getEntropy : Int := slots.foldl s.entropySlot (s.lightPart.getEntropy 0)

/-- The body of the loop in `get_cardinality` -/
def cardinalitySlot (card : Int) (x : Fin c.bucketNum × Slot) : Int :=
  let val := (s.heavyPart x.1).val x.2
  let exVal := s.lightPart.query ((s.heavyPart x.1).key x.2)
  if highestBitIs1 val && exVal != 0 then
    let card := card - 1
    if getCounterVal (u32 (val + exVal)) ≠ 0 then card + 1 else card
  else if getCounterVal val ≠ 0 then card + 1 else card

/-- `get_cardinality`, from what the light part estimates. -/
def getCardinality (card : Int) : Int := slots.foldl s.cardinalitySlot card

/-- The sketch without its statistics -/
def toElastic : ElasticSketch c := { buckets := s.heavyPart, counters := s.lightPart.counters }

end FullSketch

/-! ## The sketch counts as before -/

variable {s : FullSketch c} {k : UInt32} {ks : List UInt32}

namespace FullSketch

theorem toElastic_insert : (s.insert k).toElastic = s.toElastic.insert k := by
  rw [ElasticSketch.insert, insert]
  dsimp only [toElastic]
  cases ((s.heavyPart (c.bucketPos k)).insert k 1).2 with
  | kept => rfl
  | missed => rfl
  | swapped swapKey swapVal =>
    dsimp only
    split
    · rfl
    · rw [ElasticSketch.swapInsert, LightPart.swapInsert]
      dsimp only [ElasticSketch.setBucket]
      split <;> split <;> rfl

/-- The histogram changes nothing else. -/
theorem toElastic_insertAll : (s.insertAll ks).toElastic = s.toElastic.insertAll ks := by
  induction ks generalizing s with
  | nil => rfl
  | cons k ks ih =>
    have htail := ih (s := s.insert k)
    rwa [toElastic_insert] at htail

theorem insertTimes_insertAll : (s.insertAll ks).insertTimes = s.insertTimes + ks.length := by
  induction ks generalizing s with
  | nil => rfl
  | cons k ks ih =>
    rw [List.length_cons, Nat.add_comm ks.length, ← Nat.add_assoc]
    exact ih

theorem exact_insert (h : s.lightPart.Exact) : (s.insert k).lightPart.Exact := by
  rw [insert]
  dsimp only
  split
  · exact h
  · split
    · exact h.insert _ _
    · exact h.swapInsert _ _
  · exact h.insert _ _

theorem exact_insertAll (h : s.lightPart.Exact) : (s.insertAll ks).lightPart.Exact := by
  induction ks generalizing s with
  | nil => exact h
  | cons k ks ih => exact ih (exact_insert h)

end FullSketch

namespace ElasticSketch

variable {t : ElasticSketch c}

theorem light_le_insert (h : ∀ p, t.counters p ≤ 255) (p : Fin c.counterNum) :
    (t.insert k).counters p ≤ 255 := by
  rw [insert]
  dsimp only
  split
  · exact h p
  · split
    · exact lightInsert_le_255 _ _ _ h p
    · exact swapInsert_le_255 (t.setBucket ..) _ _ h p
  · exact lightInsert_le_255 _ _ _ h p

theorem light_le_insertAll (h : ∀ p, t.counters p ≤ 255) (p : Fin c.counterNum) :
    (t.insertAll ks).counters p ≤ 255 := by
  induction ks generalizing t with
  | nil => exact h p
  | cons k ks ih => exact ih (light_le_insert h)

end ElasticSketch

/-! ## The slots -/

namespace ElasticSketch

variable {t : ElasticSketch c}

/-- A slot in use has a count. -/
def Occupied (t : ElasticSketch c) : Prop :=
  ∀ p i, t.slotKey p i ≠ 0 ∨ t.slotVal p i ≠ 0 → getCounterVal (t.slotVal p i) ≠ 0

theorem occupied_clear : (clear : ElasticSketch c).Occupied := by
  rintro p i (h | h)
  · exact absurd rfl h
  · exact absurd rfl h

/-- An insertion leaves a count in some slot. -/
theorem occupied_insert (h : t.Occupied)
    (hlt : ∀ p i, t.slotKey p i = k → getCounterVal (t.slotVal p i) + 1 < 2 ^ 31) :
    (t.insert k).Occupied ∧ 0 < (t.insert k).heavySum := by
  have hset : ∀ {u : ElasticSketch c} {p i v g}, getCounterVal v ≠ 0 →
      u.buckets = (t.setSlot p i k v g).buckets → u.Occupied ∧ 0 < u.heavySum := by
    intro u p i v g hv hb
    have hkey : ∀ q j, u.slotKey q j = (t.setSlot p i k v g).slotKey q j := fun q j => by
      rw [slotKey, hb, slotKey]
    have hval : ∀ q j, u.slotVal q j = (t.setSlot p i k v g).slotVal q j := fun q j => by
      rw [slotVal, hb, slotVal]
    refine ⟨fun q j hin => ?_, ?_⟩
    · rw [hkey, hval, setSlot_slotKey, setSlot_slotVal] at hin
      rw [hval, setSlot_slotVal]
      split
      · exact hv
      · next hne =>
        rw [if_neg hne, if_neg hne] at hin
        exact h q j hin
    · have hle := getCounterVal_le_heavySum u p i
      rw [hval, setSlot_slotVal, if_pos ⟨rfl, rfl⟩] at hle
      exact (Nat.pos_of_ne_zero hv).trans_le hle
  -- both values with which a key gets a slot count 1
  have hone : getCounterVal 1 ≠ 0 ∧ getCounterVal 0x80000001 ≠ 0 := by decide
  rcases t.insert_cases k with ⟨i, hi, hins⟩ | ⟨i, hi, habs, hins⟩ |
    ⟨hfull, habs, ⟨i, hins⟩ | hins⟩ <;> rw [hins]
  · refine hset ?_ rfl
    have hval := hlt _ i hi
    rw [getCounterVal_eq] at hval ⊢
    rw [u32]
    omega
  · exact hset hone.1 rfl
  · dsimp only
    split
    · exact hset hone.2 (lightInsert_buckets ..)
    · exact hset hone.2 (swapInsert_buckets ..)
  -- a miss: the bucket is full
  · have hkey : ∀ g q j, (t.setGuard (c.bucketPos k) g).slotKey q j = t.slotKey q j :=
      fun g q j => setGuard_slotKey t _ q j g
    have hval : ∀ g q j, (t.setGuard (c.bucketPos k) g).slotVal q j = t.slotVal q j :=
      fun g q j => setGuard_slotVal t _ q j g
    refine ⟨fun q j hin => ?_, ?_⟩
    · rw [slotKey, slotVal, lightInsert_buckets, ← slotKey, ← slotVal, hkey, hval] at hin
      rw [slotVal, lightInsert_buckets, ← slotVal, hval]
      exact h q j hin
    · refine (Nat.pos_of_ne_zero ?_).trans_le
        (getCounterVal_le_heavySum _ (c.bucketPos k) 0)
      rw [slotVal, lightInsert_buckets, ← slotVal, hval]
      exact h _ 0 (.inl (hfull 0))

theorem occupied_insertAll (h : t.Occupied) (hfit : CountersFit t ks) :
    (t.insertAll ks).Occupied ∧
      (0 < t.heavySum ∨ ks ≠ [] → 0 < (t.insertAll ks).heavySum) := by
  induction ks generalizing t with
  | nil => exact ⟨h, fun hpos => hpos.resolve_right fun hne => hne rfl⟩
  | cons k ks ih =>
    obtain ⟨hocc, hpos⟩ := occupied_insert h hfit.1
    obtain ⟨hocc', hpos'⟩ := ih hocc hfit.2
    exact ⟨hocc', fun _ => hpos' (.inl hpos)⟩

end ElasticSketch

/-! ## The loops over the slots -/

namespace FullSketch

theorem foldl_slots (g : Fin c.bucketNum × Slot → Int) (tot : Int) :
    slots.foldl (fun acc x => acc + g x) tot = tot + ∑ x, g x := by
  have hfold : ∀ (l : List (Fin c.bucketNum × Slot)) (a : Int),
      l.foldl (fun acc x => acc + g x) a = a + (l.map g).sum := by
    intro l
    induction l with
    | nil => exact fun a => (add_zero a).symm
    | cons x l ih =>
      intro a
      rw [List.foldl_cons, ih, List.map_cons, List.sum_cons, add_assoc]
  have hsum : ∑ x, g x = ((slots : List (Fin c.bucketNum × Slot)).map g).sum := by
    rw [Fintype.sum_prod_type, Fin.sum_univ_def, slots, List.map_flatMap, List.flatMap,
      List.sum_flatten, List.map_map]
    refine congrArg List.sum (List.map_congr_left fun p _ => ?_)
    rw [Fin.sum_univ_def, Function.comp_apply, List.map_map]
    rfl
  rw [hfold, hsum]

variable {val ex : Nat}

/-- The sum of a counter and of what the light part has does not reach the flag. -/
theorem getCounterVal_add (hsum : getCounterVal val + ex < 2 ^ 31) :
    getCounterVal (u32 (val + ex)) = getCounterVal val + ex := by
  rw [getCounterVal_eq] at hsum
  rw [getCounterVal_eq, getCounterVal_eq, u32]
  omega

variable {x : Fin c.bucketNum × Slot}

theorem entropySlot_eq
    (hsum : getCounterVal ((s.heavyPart x.1).val x.2) +
      s.lightPart.query ((s.heavyPart x.1).key x.2) < 2 ^ 31) (tot : Int) :
    s.entropySlot tot x = tot + getCounterVal ((s.heavyPart x.1).val x.2) := by
  rw [entropySlot]
  dsimp only
  split
  -- what the light part has of the flow goes from one sum to the other
  · rw [getCounterVal_add hsum]
    split <;> lia
  · split <;> lia

theorem cardinalitySlot_eq (hocc : s.toElastic.Occupied)
    (hsum : getCounterVal ((s.heavyPart x.1).val x.2) +
      s.lightPart.query ((s.heavyPart x.1).key x.2) < 2 ^ 31) (card : Int) :
    s.cardinalitySlot card x = card +
      if (s.heavyPart x.1).val x.2 ≠ 0 ∧ (highestBitIs1 ((s.heavyPart x.1).val x.2) = true →
        s.lightPart.query ((s.heavyPart x.1).key x.2) = 0) then 1 else 0 := by
  have hcount : getCounterVal ((s.heavyPart x.1).val x.2) ≠ 0 ↔ (s.heavyPart x.1).val x.2 ≠ 0 :=
    ⟨fun h h0 => h (by rw [h0]; rfl), fun h => hocc x.1 x.2 (.inr h)⟩
  rw [cardinalitySlot]
  generalize (s.heavyPart x.1).val x.2 = val at hsum hcount ⊢
  generalize s.lightPart.query ((s.heavyPart x.1).key x.2) = ex at hsum ⊢
  dsimp only
  split
  · next hflag =>
    obtain ⟨hflag, hex⟩ := Bool.and_eq_true_iff.mp hflag
    have hex : ex ≠ 0 := bne_iff_ne.mp hex
    rw [getCounterVal_add hsum, if_pos (by omega),
      if_neg fun h => hex (h.2 hflag)]
    lia
  · next hflag =>
    have hlight : highestBitIs1 val = true → ex = 0 := fun hbit => by
      by_contra hex
      exact hflag (Bool.and_eq_true_iff.mpr ⟨hbit, bne_iff_ne.mpr hex⟩)
    by_cases hval : val ≠ 0
    · rw [if_pos (hcount.mpr hval), if_pos ⟨hval, hlight⟩]
    · rw [if_neg fun h => hval (hcount.mp h), if_neg fun h => hval h.1, add_zero]

end FullSketch

theorem FullSketch.counters_le (ks : List UInt32) (p : Fin c.counterNum) :
    (FullSketch.clear.insertAll ks : FullSketch c).lightPart.counters p ≤ 255 := by
  have helastic : (FullSketch.clear.insertAll ks : FullSketch c).toElastic =
      ElasticSketch.clear.insertAll ks := FullSketch.toElastic_insertAll
  change (FullSketch.clear.insertAll ks : FullSketch c).toElastic.counters p ≤ 255
  rw [helastic]
  exact ElasticSketch.light_le_insertAll (fun _ => Nat.zero_le 255) p

/-- The counters of fewer than `2 ^ 31` insertions -/
theorem toElastic_sums (hlen : ks.length < 2 ^ 31) :
    let s : FullSketch c := FullSketch.clear.insertAll ks
    SumLe ks.length s.toElastic ∧ s.toElastic.Occupied ∧ (ks ≠ [] → 0 < s.toElastic.heavySum) := by
  intro s
  have helastic : s.toElastic = ElasticSketch.clear.insertAll ks := FullSketch.toElastic_insertAll
  have hsum : SumLe ks.length (ElasticSketch.clear.insertAll ks : ElasticSketch c) := by
    simpa using sumLe_insertAll ks (sumLe_clear (c := c))
  have hfit : CountersFit (ElasticSketch.clear : ElasticSketch c) ks :=
    countersFit_of_sumLe sumLe_clear (by rwa [Nat.zero_add])
  obtain ⟨hocc, hpos⟩ := ElasticSketch.occupied_insertAll ElasticSketch.occupied_clear hfit
  rw [helastic]
  exact ⟨hsum, hocc, fun hne => hpos (.inr hne)⟩

theorem SumLe.slot_lt {N : Nat} {t : ElasticSketch c} (h : SumLe N t) (hN : N < 2 ^ 31)
    (x : Fin c.bucketNum × Slot) (q : Fin c.counterNum) :
    getCounterVal (t.slotVal x.1 x.2) + t.counters q < 2 ^ 31 :=
  ((Nat.add_le_add_right (getCounterVal_le_heavySum t x.1 x.2) _).trans (h.sum_le q)).trans_lt hN

/-! ## The total -/

namespace ElasticSketch

variable {t : ElasticSketch c} {N : Nat}

/-- The sum of all the counters -/
def total (t : ElasticSketch c) : Nat := t.heavySum + ∑ q, t.counters q

theorem sum_counters_le {u : ElasticSketch c} {pos : Fin c.counterNum} {f : Nat}
    (hpos : u.counters pos ≤ t.counters pos + f) (hne : ∀ q ≠ pos, u.counters q = t.counters q) :
    ∑ q, u.counters q ≤ ∑ q, t.counters q + f := by
  rw [← Finset.add_sum_erase _ u.counters (Finset.mem_univ pos),
    ← Finset.add_sum_erase _ t.counters (Finset.mem_univ pos),
    Finset.sum_congr rfl fun q hq => hne q (Finset.ne_of_mem_erase hq)]
  lia

theorem lightInsert_sum_le (key : UInt32) (f : Nat) :
    ∑ q, (t.lightInsert key f).counters q ≤ ∑ q, t.counters q + f :=
  sum_counters_le (lightInsert_counters_le t key f (c.counterPos key)) fun _ hq =>
    update_of_ne hq ..

theorem swapInsert_sum_le (key : UInt32) (f : Nat) :
    ∑ q, (t.swapInsert key f).counters q ≤ ∑ q, t.counters q + f := by
  refine sum_counters_le (swapInsert_counters_le t key f (c.counterPos key)) fun q hq => ?_
  rw [swapInsert]
  generalize (if f < 255 then f else 255) = f'
  split
  · exact update_of_ne hq ..
  · rfl

theorem heavySum_congr {u : ElasticSketch c} (h : ∀ p i, u.slotVal p i = t.slotVal p i) :
    u.heavySum = t.heavySum :=
  Finset.sum_congr rfl fun x _ => by rw [h]

/-- An insertion adds at most 1 to the sum of the counters. -/
theorem total_insert (h : SumLe N t) (k : UInt32) : (t.insert k).total ≤ t.total + 1 := by
  -- a slot takes `v`, and what it had goes to the light part
  have hset : ∀ {u : ElasticSketch c} {p i v g},
      u.buckets = (t.setSlot p i k v g).buckets →
      getCounterVal v + ∑ q, u.counters q ≤
        getCounterVal (t.slotVal p i) + ∑ q, t.counters q + 1 →
      u.total ≤ t.total + 1 := by
    intro u p i v g hb hle
    have hsum := setSlot_heavySum t p i k v g
    have hu : u.heavySum = (t.setSlot p i k v g).heavySum :=
      heavySum_congr fun q j => by rw [slotVal, hb, slotVal]
    rw [total, total]
    omega
  rcases t.insert_cases k with ⟨i, hi, hins⟩ | ⟨i, hi, habs, hins⟩ |
    ⟨hfull, habs, ⟨i, hins⟩ | hins⟩ <;> rw [hins]
  · refine hset rfl ?_
    have hval := getCounterVal_succ (t.slotVal (c.bucketPos k) i)
    exact (Nat.add_le_add_right hval _).trans_eq (Nat.add_right_comm ..)
  · refine hset rfl ?_
    rw [getCounterVal_of_lt (by omega), Nat.add_comm]
    exact Nat.add_le_add_right (Nat.le_add_left ..) 1
  · have hone : getCounterVal 0x80000001 = 1 := rfl
    dsimp only
    split
    · refine hset (lightInsert_buckets ..) ?_
      have hle := lightInsert_sum_le (t := t.setSlot (c.bucketPos k) i k 0x80000001 0)
        (t.slotKey (c.bucketPos k) i) (getCounterVal (t.slotVal (c.bucketPos k) i))
      have hsame : ∑ q, (t.setSlot (c.bucketPos k) i k 0x80000001 0).counters q =
        ∑ q, t.counters q := rfl
      omega
    · next hbit =>
      refine hset (swapInsert_buckets ..) ?_
      have hle := swapInsert_sum_le (t := t.setSlot (c.bucketPos k) i k 0x80000001 0)
        (t.slotKey (c.bucketPos k) i) (t.slotVal (c.bucketPos k) i)
      have hsame : ∑ q, (t.setSlot (c.bucketPos k) i k 0x80000001 0).counters q =
        ∑ q, t.counters q := rfl
      have hlt : t.slotVal (c.bucketPos k) i < 2 ^ 31 :=
        lt_of_highestBitIs1 (h.val_lt _ i) (Bool.eq_false_iff.mpr hbit)
      rw [getCounterVal_of_lt hlt]
      omega
  · -- a miss leaves the slots
    have hheavy : ((t.setGuard (c.bucketPos k) (updateGuardVal
        (t.buckets (c.bucketPos k)).guard)).lightInsert k 1).heavySum = t.heavySum :=
      heavySum_congr fun q j => by
        rw [slotVal, lightInsert_buckets, ← slotVal, setGuard_slotVal]
    rw [total, total, hheavy, Nat.add_assoc]
    exact Nat.add_le_add_left (lightInsert_sum_le k 1) _

theorem total_insertAll (h : SumLe N t) (ks : List UInt32) :
    (t.insertAll ks).total ≤ t.total + ks.length := by
  induction ks generalizing t N with
  | nil => exact le_rfl
  | cons k ks ih =>
    rw [List.length_cons, Nat.add_comm ks.length, ← Nat.add_assoc]
    exact (ih (h.insert k)).trans (Nat.add_le_add_right (total_insert h k) _)

theorem total_clear : (clear : ElasticSketch c).total = 0 := by
  have hheavy : (clear : ElasticSketch c).heavySum = 0 :=
    Finset.sum_eq_zero fun _ _ => getCounterVal_of_lt (Nat.two_pow_pos 31)
  rw [total, hheavy, Nat.zero_add]
  exact Finset.sum_eq_zero fun _ _ => rfl

theorem total_le (ks : List UInt32) :
    (clear.insertAll ks : ElasticSketch c).total ≤ ks.length := by
  have hbound := total_insertAll (sumLe_clear (c := c)) ks
  rwa [total_clear, Nat.zero_add] at hbound

/-- Each counter in use counts at least one packet. -/
theorem card_counters_le_total (t : ElasticSketch c) :
    (Finset.univ.filter fun q => t.counters q ≠ 0).card ≤ t.total := by
  have hone : ∀ q ∈ Finset.univ, (if t.counters q ≠ 0 then 1 else 0) ≤ t.counters q := fun q _ => by
    split
    · next hne => exact Nat.one_le_iff_ne_zero.mpr hne
    · exact Nat.zero_le _
  rw [Finset.card_filter]
  exact (Finset.sum_le_sum hone).trans (Nat.le_add_left ..)

end ElasticSketch

/-- After any insertions since `clear`, each counter above 0 stands in the histogram as often as in
the light part, and the histogram says how many counters have left 0. There are at most as many
as insertions, so that no entry leaves the range of `int`. -/
theorem mice_dist_exact {ks : List UInt32} (hlen : ks.length < 2 ^ 31) :
    let s : FullSketch c := FullSketch.clear.insertAll ks
    let left := (Finset.univ.filter fun p => s.lightPart.counters p ≠ 0).card
    s.toElastic = ElasticSketch.clear.insertAll ks ∧ s.insertTimes = ks.length ∧
      (∀ v, v ≠ 0 → s.lightPart.miceDist v = count s.lightPart.counters v) ∧
      s.lightPart.miceDist 0 = -left ∧ s.lightPart.miceCard = left ∧
      left ≤ ks.length ∧ ∀ v, (s.lightPart.miceDist v).natAbs < 2 ^ 31 := by
  intro s left
  have hexact : s.lightPart.Exact := FullSketch.exact_insertAll LightPart.exact_clear
  have helastic : s.toElastic = ElasticSketch.clear.insertAll ks := FullSketch.toElastic_insertAll
  have hleft : left ≤ ks.length :=
    s.toElastic.card_counters_le_total.trans (helastic ▸ ElasticSketch.total_le ks)
  have hcount : ∀ v, v ≠ 0 → s.lightPart.miceDist v = count s.lightPart.counters v :=
    fun v hv => by rw [hexact v, if_neg hv, sub_zero]
  have hzero : s.lightPart.miceDist 0 = -left := by
    have hsplit := Finset.card_filter_add_card_filter_not
      (s := (Finset.univ : Finset (Fin c.counterNum))) fun p => s.lightPart.counters p = 0
    rw [Finset.card_univ, Fintype.card_fin] at hsplit
    rw [hexact 0, if_pos rfl, count]
    lia
  refine ⟨helastic, FullSketch.insertTimes_insertAll.trans (Nat.zero_add _), hcount, hzero,
    hexact.miceCard (FullSketch.counters_le ks), hleft, fun v => ?_⟩
  rcases eq_or_ne v 0 with rfl | hv
  · rw [hzero]
    lia
  · have hsub : count s.lightPart.counters v ≤ left :=
      Finset.card_le_card (Finset.monotone_filter_right _ fun p _ hp => hp.symm ▸ hv)
    rw [hcount v hv]
    lia

theorem mice_dist_exact_swapped :
    (FullSketch.clear.insertAll swapKeys : FullSketch oneBucket).lightPart.miceCard = 1 :=
  (mice_dist_exact (by decide)).2.2.2.2.1.trans (by decide +kernel)

/-- The total of `get_entropy` is the sum of all the counters: not more than the packets since
`clear`, and not 0 after the first one. -/
theorem get_entropy_total {ks : List UInt32} (hlen : ks.length < 2 ^ 31) :
    let s : FullSketch c := FullSketch.clear.insertAll ks
    s.getEntropy = (ElasticSketch.clear.insertAll ks : ElasticSketch c).total ∧
      s.getEntropy ≤ ks.length ∧ (ks ≠ [] → 0 < s.getEntropy) := by
  intro s
  obtain ⟨hsum, -, hpos⟩ := toElastic_sums (c := c) hlen
  have helastic : s.toElastic = ElasticSketch.clear.insertAll ks := FullSketch.toElastic_insertAll
  have hexact : s.lightPart.Exact := FullSketch.exact_insertAll LightPart.exact_clear
  have htot : s.getEntropy = (s.toElastic.total : Nat) := by
    have hstep : s.entropySlot =
        fun tot x => tot + (getCounterVal ((s.heavyPart x.1).val x.2) : Int) :=
      funext fun tot => funext fun x => FullSketch.entropySlot_eq (hsum.slot_lt hlen x _) tot
    rw [FullSketch.getEntropy, hstep, FullSketch.foldl_slots,
      hexact.getEntropy (FullSketch.counters_le ks), zero_add, ElasticSketch.total, Nat.add_comm,
      Nat.cast_add, ← Nat.cast_sum]
    rfl
  refine ⟨helastic ▸ htot, ?_, fun hne => ?_⟩
  · rw [htot, helastic]
    exact Int.ofNat_le.mpr (ElasticSketch.total_le ks)
  · rw [htot]
    exact Int.natCast_pos.mpr (Nat.add_pos_left (hpos hne) _)

theorem get_entropy_total_swapped :
    (FullSketch.clear.insertAll swapKeys : FullSketch oneBucket).getEntropy =
      (ElasticSketch.clear.insertAll swapKeys : ElasticSketch oneBucket).total :=
  (get_entropy_total (by decide)).1

/-- `get_cardinality` adds to the estimate of the light part one for each slot in use, but for the
flows that have a flagged slot and a count in the light part. -/
theorem get_cardinality_slots {ks : List UInt32} (hlen : ks.length < 2 ^ 31) (card : Int) :
    let s : FullSketch c := FullSketch.clear.insertAll ks
    s.getCardinality card = card +
      (Finset.univ.filter fun x : Fin c.bucketNum × Slot => (s.heavyPart x.1).val x.2 ≠ 0 ∧
        (highestBitIs1 ((s.heavyPart x.1).val x.2) = true →
          s.lightPart.query ((s.heavyPart x.1).key x.2) = 0)).card := by
  intro s
  obtain ⟨hsum, hocc, -⟩ := toElastic_sums (c := c) hlen
  have hstep : s.cardinalitySlot = fun card x => card +
      if (s.heavyPart x.1).val x.2 ≠ 0 ∧ (highestBitIs1 ((s.heavyPart x.1).val x.2) = true →
        s.lightPart.query ((s.heavyPart x.1).key x.2) = 0) then 1 else 0 :=
    funext fun card => funext fun x =>
      FullSketch.cardinalitySlot_eq hocc (hsum.slot_lt hlen x _) card
  rw [FullSketch.getCardinality, hstep, FullSketch.foldl_slots, Finset.card_filter, Nat.cast_sum]
  refine congrArg (card + ·) (Finset.sum_congr rfl fun x _ => ?_)
  rw [Nat.cast_ite, Nat.cast_one, Nat.cast_zero]

theorem get_cardinality_slots_swapped :
    (FullSketch.clear.insertAll swapKeys : FullSketch oneBucket).getCardinality 1 = 1 + 6 :=
  (get_cardinality_slots (by decide) 1).trans (by decide +kernel)

end Paraleon.Sketch
