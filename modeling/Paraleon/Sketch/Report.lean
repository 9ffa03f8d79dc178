import Mathlib.Data.List.Nodup
import Paraleon.Sketch.ElasticSketch

/-!
# The report of a sketch

`get_heavy_hitters` queries the key of every slot of the heavy part, the empty ones
included: the query of the empty-slot marker 0 reads the light counter that 0 hashes to,
which other flows count in. `report_sound_iff`: the report is right exactly when no slot is
empty or that counter is below the threshold.
-/

namespace Paraleon.Sketch

open ElasticSketch

variable {c : SketchConfig}

namespace ElasticSketch

/-- `get_heavy_hitters` -/
def getHeavyHitters (s : ElasticSketch c) (threshold : Nat) : List (UInt32 × Nat) :=
  (List.finRange c.bucketNum).flatMap fun i =>
    (List.finRange 7).filterMap fun j =>
      let key := s.slotKey i j
      let val := s.query key
      if threshold ≤ val then some (key, val) else none

/-- `SwitchNode::reportSketch`, without the distribution of the light part. -/
def reportSketch (s : ElasticSketch c) : List (UInt32 × Nat) × ElasticSketch c :=
  (s.getHeavyHitters 1, clear)

/-- What a report should be, of the flows `ks` inserted since the last one. -/
structure ReportSound (s : ElasticSketch c) (ks : List UInt32) (threshold : Nat)
    (results : List (UInt32 × Nat)) : Prop where
  inserted : ∀ r ∈ results, r.1 ∈ ks
  nodup : (results.map Prod.fst).Nodup
  complete : ∀ k, k ≠ 0 →
    (k ∈ results.map Prod.fst ↔ s.Resident k ∧ threshold ≤ s.query k)

theorem mem_getHeavyHitters {s : ElasticSketch c} {threshold : Nat} {r : UInt32 × Nat} :
    r ∈ s.getHeavyHitters threshold ↔
      s.Resident r.1 ∧ threshold ≤ s.query r.1 ∧ r.2 = s.query r.1 := by
  obtain ⟨k, v⟩ := r
  simp only [getHeavyHitters, List.mem_flatMap, List.mem_filterMap, List.mem_finRange, true_and]
  constructor
  · rintro ⟨p, i, h⟩
    split at h
    · next hle =>
      cases h
      exact ⟨⟨p, i, rfl⟩, hle, rfl⟩
    · cases h
  · rintro ⟨⟨p, i, hk⟩, hle, hv⟩
    subst hk hv
    exact ⟨p, i, if_pos hle⟩

theorem mem_keys_getHeavyHitters {s : ElasticSketch c} {threshold : Nat} {k : UInt32} :
    k ∈ (s.getHeavyHitters threshold).map Prod.fst ↔ s.Resident k ∧ threshold ≤ s.query k := by
  rw [List.mem_map]
  constructor
  · rintro ⟨r, hr, rfl⟩
    obtain ⟨hres, hle, -⟩ := mem_getHeavyHitters.mp hr
    exact ⟨hres, hle⟩
  · rintro ⟨hres, hle⟩
    exact ⟨(k, s.query k), mem_getHeavyHitters.mpr ⟨hres, hle, rfl⟩, rfl⟩

/-- The reported slots have different keys when none of them is empty. -/
theorem nodup_getHeavyHitters {s : ElasticSketch c} (h : s.Placed) {threshold : Nat}
    (h0 : 0 ∉ (s.getHeavyHitters threshold).map Prod.fst) :
    ((s.getHeavyHitters threshold).map Prod.fst).Nodup := by
  have hne : ∀ p i, threshold ≤ s.query (s.slotKey p i) → s.slotKey p i ≠ 0 := fun p i hle hz =>
    h0 (mem_keys_getHeavyHitters.mpr ⟨⟨p, i, hz⟩, hz ▸ hle⟩)
  have hval : ∀ (p : Fin c.bucketNum) (j : Slot) (k : UInt32),
      (if threshold ≤ s.query (s.slotKey p j) then some (s.slotKey p j) else none) = some k →
        threshold ≤ s.query (s.slotKey p j) ∧ s.slotKey p j = k := by
    intro p j k hk
    split at hk
    · next hle => exact ⟨hle, Option.some.inj hk⟩
    · cases hk
  -- the keys of the report, bucket by bucket
  have hmap : (s.getHeavyHitters threshold).map Prod.fst =
      (List.finRange c.bucketNum).flatMap fun p => (List.finRange 7).filterMap fun j =>
        if threshold ≤ s.query (s.slotKey p j) then some (s.slotKey p j) else none := by
    rw [getHeavyHitters, List.map_flatMap]
    refine List.flatMap_congr fun p _ => ?_
    rw [List.map_filterMap]
    refine List.filterMap_congr fun j _ => ?_
    dsimp only
    split <;> rfl
  rw [hmap, List.nodup_flatMap]
  refine ⟨fun p _ => ?_, (List.nodup_finRange _).imp fun {p q} hpq => ?_⟩
  · refine (List.nodup_finRange 7).filterMap fun i j k hi hj => ?_
    obtain ⟨hi, hik⟩ := hval p i k hi
    obtain ⟨-, hjk⟩ := hval p j k hj
    exact h.distinct p i j (hne p i hi) (hik.trans hjk.symm)
  · -- a key in two buckets would have two homes
    refine List.disjoint_left.mpr fun k hp hq => hpq ?_
    obtain ⟨i, -, hi⟩ := List.mem_filterMap.mp hp
    obtain ⟨j, -, hj⟩ := List.mem_filterMap.mp hq
    obtain ⟨hle, hik⟩ := hval p i k hi
    obtain ⟨hle', hjk⟩ := hval q j k hj
    rw [← h.home p i (hne p i hle), ← h.home q j (hne q j hle'), hik, hjk]

theorem placed_insertAll {s : ElasticSketch c} {ks : List UInt32} (h : s.Placed)
    (hks : ∀ k ∈ ks, k ≠ 0) : (s.insertAll ks).Placed ∧
      ∀ p i, (s.insertAll ks).slotKey p i ∈ ks ∨
        (s.insertAll ks).slotKey p i = s.slotKey p i := by
  induction ks generalizing s with
  | nil => exact ⟨h, fun _ _ => .inr rfl⟩
  | cons k ks ih =>
    obtain ⟨hk, hks⟩ := List.forall_mem_cons.mp hks
    obtain ⟨hplaced, hkey⟩ := placed_insert h hk
    obtain ⟨hplaced', hkey'⟩ := ih hplaced hks
    refine ⟨hplaced', fun p i => ?_⟩
    rcases hkey' p i with hmem | heq
    · exact .inl (List.mem_cons_of_mem k hmem)
    · rcases hkey p i with hk' | hs
      · exact .inl (List.mem_cons.mpr (.inl (heq.trans hk')))
      · exact .inr (heq.trans hs)

/-- A report is sound exactly when the query of an empty slot, if there is one, is below the
threshold. -/
theorem report_sound_iff (s₀ : ElasticSketch c) {ks : List UInt32} (hks : ∀ k ∈ ks, k ≠ 0)
    (threshold : Nat) :
    let s := s₀.reportSketch.2.insertAll ks
    s.ReportSound ks threshold (s.getHeavyHitters threshold) ↔
      ((∀ p i, s.slotKey p i ≠ 0) ∨ s.counters (c.counterPos 0) < threshold) := by
  intro s
  obtain ⟨hplaced, hkey⟩ := placed_insertAll (s := (clear : ElasticSketch c)) placed_clear hks
  change s.Placed at hplaced
  have hzero : 0 ∈ (s.getHeavyHitters threshold).map Prod.fst ↔
      s.Resident 0 ∧ threshold ≤ s.counters (c.counterPos 0) := by
    rw [mem_keys_getHeavyHitters, hplaced.query_zero, lightQuery]
  have hcond : ((∀ p i, s.slotKey p i ≠ 0) ∨ s.counters (c.counterPos 0) < threshold) ↔
      0 ∉ (s.getHeavyHitters threshold).map Prod.fst := by
    simp only [hzero, Resident, not_and_or, not_exists, Nat.not_le, ne_eq]
  rw [hcond]
  constructor
  · rintro hsound h0
    obtain ⟨r, hr, hr0⟩ := List.mem_map.mp h0
    exact hks 0 (hr0 ▸ hsound.inserted r hr) rfl
  · intro h0
    refine
      { inserted := fun r hr => ?_
        nodup := nodup_getHeavyHitters hplaced h0
        complete := fun k _ => mem_keys_getHeavyHitters }
    obtain ⟨⟨p, i, hk⟩, -⟩ := mem_getHeavyHitters.mp hr
    rcases hkey p i with hmem | hclear
    · exact hk ▸ hmem
    · have hr0 : r.1 = 0 := hk.symm.trans hclear
      exact absurd (List.mem_map.mpr ⟨r, hr, hr0⟩) h0

end ElasticSketch

/-- Eight flows of the hosts 0, 1, 4 and 5. They have the same bucket, and the last one has
the light counter of 0. -/
def sharedKeys : List UInt32 :=
  [148109, 523114, 140119, 460123, 515124, 452133, 444143, 40134]

/-- Seven of them leave the light part alone, and the report is sound. -/
theorem report_sound_iff_seven :
    let s : ElasticSketch (switchSketch 17) :=
      (clear : ElasticSketch (switchSketch 17)).reportSketch.2.insertAll (sharedKeys.take 7)
    s.ReportSound (sharedKeys.take 7) 1 (s.getHeavyHitters 1) :=
  (report_sound_iff clear (by simp [sharedKeys]) 1).mpr (.inr (by decide +kernel))

/-- One packet of each of the eight flows, and the report has the flow 0. -/
theorem sharedKeys_report :
    let s : ElasticSketch (switchSketch 17) := clear.reportSketch.2.insertAll sharedKeys
    (0, 1) ∈ s.getHeavyHitters 1 ∧ ¬ s.ReportSound sharedKeys 1 (s.getHeavyHitters 1) := by
  intro s
  have hslot : s.slotKey ⟨0, by decide⟩ 0 = 0 := by decide +kernel
  have hquery : s.query 0 = 1 := by decide +kernel
  have hmem : (0, 1) ∈ s.getHeavyHitters 1 :=
    mem_getHeavyHitters.mpr ⟨⟨_, _, hslot⟩, hquery.ge, hquery.symm⟩
  exact ⟨hmem, fun hsound => absurd (hsound.inserted _ hmem) (by decide)⟩

end Paraleon.Sketch
