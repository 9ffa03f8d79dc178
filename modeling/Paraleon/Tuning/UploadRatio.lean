import Mathlib.Algebra.Order.BigOperators.Group.List
import Paraleon.Tuning.FlowTable

/-!
# The flow ratio of a cycle

`upload_ratio` adds the flows of the lists to `current_flow_ratio`: a large or a small flow as
one, and a flow that may become large by how much of the threshold it has reached.

* `upload_ratio_counts`: with exact arithmetic, the ratio has each active flow of the table once,
  by its type, and each flow that may become large counts for less than one.
* `exists_increment`: with any rounding, a flow of a report adds something to the ratio.
-/

namespace Paraleon.Tuning

open OrderedDict

variable {σ φ : Type*} (cfg : MonitorConfig)

def potentialWeight (observedSize : Int) : ℚ :=
  if cfg.largeFlowThreshold ≤ 0 then 0
  else if observedSize ≤ 0 then 0
  else min (cfg.fl (observedSize / cfg.largeFlowThreshold)) 1

/-- What the loop adds to an entry of `current_flow_ratio` -/
inductive Increment where
  | large (x : ℚ)
  | small (x : ℚ)
deriving DecidableEq, Repr

def FlowRatio.add (r : FlowRatio) : Increment → FlowRatio
  | .large x => { r with large := cfg.fl (r.large + x) }
  | .small x => { r with small := cfg.fl (r.small + x) }

/-- The increments for a switch, in the order of the keys of its dictionary -/
def Upload.increments (u : Upload φ) : List Increment :=
  .large u.large.length :: (u.potentialLarge.map fun e => .large (potentialWeight cfg e.2)) ++
    [.small u.small.length]

/-- `metadata` in `upload_ratio` -/
structure Metadata where
  largeCount : Nat
  potentialLarge : Nat
  smallCount : Nat
  potentialEffective : ℚ
deriving DecidableEq, Repr

def Metadata.zero : Metadata :=
  { largeCount := 0, potentialLarge := 0, smallCount := 0, potentialEffective := 0 }

def Metadata.add (m : Metadata) (u : Upload φ) : Metadata where
  largeCount := m.largeCount + u.large.length
  potentialLarge := m.potentialLarge + u.potentialLarge.length
  smallCount := m.smallCount + u.small.length
  potentialEffective := u.potentialLarge.foldl
    (fun x e => cfg.fl (x + potentialWeight cfg e.2)) m.potentialEffective

def uploadRatio (currentFlowRatio : FlowRatio) (uploads : List (σ × Upload φ)) :
    FlowRatio × Metadata :=
  ((uploads.flatMap fun e => e.2.increments cfg).foldl (FlowRatio.add cfg) currentFlowRatio,
    uploads.foldl (fun m e => m.add cfg e.2) .zero)

/-- The sizes of the active flows of a type, over the whole table -/
def sizesOf (t : FlowType) (table : FlowTable σ φ) : List (List Int) :=
  table.flatMap fun e => (flowsOf cfg t e.2).map fun d => d.2.flowSize

/-- The flows of the table that are active -/
def activeFlows (table : FlowTable σ φ) : Nat :=
  (table.map fun e => e.2.countP fun e => e.2.active).sum

variable {cfg}

theorem potentialWeight_nonneg (hcfg : cfg.Sensible) (hzero : cfg.fl 0 = 0) (size : Int) :
    0 ≤ potentialWeight cfg size := by
  rw [potentialWeight]
  split
  · exact le_rfl
  · next hthr =>
    split
    · exact le_rfl
    · next hsize =>
      have hdiv : (0 : ℚ) ≤ size / cfg.largeFlowThreshold :=
        div_nonneg (Int.cast_nonneg (not_le.mp hsize).le) (Int.cast_nonneg (not_le.mp hthr).le)
      exact le_min (hzero ▸ hcfg.monotone hdiv) zero_le_one

/-! ## Each flow once -/

section Exact

variable (hfl : cfg.fl = id)

include hfl

theorem potentialWeight_lt_one {size : Int} (hsize : size < cfg.largeFlowThreshold) :
    potentialWeight cfg size < 1 := by
  rw [potentialWeight]
  split
  · exact zero_lt_one
  · next hthr =>
    split
    · exact zero_lt_one
    · have hpos : (0 : ℚ) < cfg.largeFlowThreshold := Int.cast_pos.mpr (not_le.mp hthr)
      rw [hfl, id, min_lt_iff, div_lt_one hpos]
      exact .inl (Int.cast_lt.mpr hsize)

/-- The weights of a switch add up, in the ratio and in the metadata. -/
theorem foldl_weights (l : List (φ × Int)) (x : ℚ) :
    l.foldl (fun x e => cfg.fl (x + potentialWeight cfg e.2)) x =
      x + (l.map fun e => potentialWeight cfg e.2).sum := by
  induction l generalizing x with
  | nil => rw [List.foldl_nil, List.map_nil, List.sum_nil, add_zero]
  | cons e l ih =>
    rw [List.foldl_cons, ih, List.map_cons, List.sum_cons, hfl, id, add_assoc]

theorem foldl_increments (u : Upload φ) (r : FlowRatio) :
    (u.increments cfg).foldl (FlowRatio.add cfg) r =
      { large := r.large + (u.large.length +
          (u.potentialLarge.map fun e => potentialWeight cfg e.2).sum)
        small := r.small + u.small.length } := by
  have hpotential : ∀ (l : List (φ × Int)) (r : FlowRatio),
      (l.map fun e => Increment.large (potentialWeight cfg e.2)).foldl (FlowRatio.add cfg) r =
        { r with large := r.large + (l.map fun e => potentialWeight cfg e.2).sum } := by
    intro l
    induction l with
    | nil =>
      exact fun r => by rw [List.map_nil, List.map_nil, List.sum_nil, add_zero, List.foldl_nil]
    | cons e l ih =>
      intro r
      rw [List.map_cons, List.foldl_cons, ih, List.map_cons, List.sum_cons, FlowRatio.add, hfl, id,
        add_assoc]
  rw [Upload.increments, List.cons_append, List.foldl_cons, List.foldl_append, hpotential,
    List.foldl_cons, List.foldl_nil, FlowRatio.add, FlowRatio.add]
  simp only [hfl, id, add_assoc]

/-- The switches one after the other -/
theorem foldl_uploads [DecidableEq φ] (currentTime : ℚ) {table : FlowTable σ φ}
    (hflows : ∀ e ∈ table, (keys e.2).Nodup) (r : FlowRatio) (m : Metadata) :
    let uploads := (filterFlows cfg currentTime table).1
    let weights := ((sizesOf cfg .potentialLarge table).map fun sizes =>
      potentialWeight cfg sizes.sum).sum
    (uploads.flatMap fun e => e.2.increments cfg).foldl (FlowRatio.add cfg) r =
        { large := r.large + ((sizesOf cfg .large table).length + weights)
          small := r.small + (sizesOf cfg .small table).length } ∧
      uploads.foldl (fun m e => m.add cfg e.2) m =
        { largeCount := m.largeCount + (sizesOf cfg .large table).length
          potentialLarge := m.potentialLarge + (sizesOf cfg .potentialLarge table).length
          smallCount := m.smallCount + (sizesOf cfg .small table).length
          potentialEffective := m.potentialEffective + weights } := by
  induction table generalizing r m with
  | nil => simp [filterFlows, sizesOf]
  | cons e table ih =>
    obtain ⟨he, htable⟩ := List.forall_mem_cons.mp hflows
    have hsizes : ∀ t, sizesOf cfg t (e :: table) =
        ((flowsOf cfg t e.2).map fun d => d.2.flowSize) ++ sizesOf cfg t table := fun t => rfl
    have huploads : (filterFlows cfg currentTime (e :: table)).1 =
        (e.1, (filterSwitch cfg currentTime e.2).1) :: (filterFlows cfg currentTime table).1 := rfl
    obtain ⟨hratio, hmetadata⟩ := ih htable
      (((filterSwitch cfg currentTime e.2).1.increments cfg).foldl (FlowRatio.add cfg) r)
      (m.add cfg (filterSwitch cfg currentTime e.2).1)
    dsimp only
    rw [huploads, List.flatMap_cons, List.foldl_append, List.foldl_cons, hratio, hmetadata,
      foldl_increments hfl, Metadata.add, foldl_weights hfl, filterSwitch_eq currentTime he, hsizes,
      hsizes, hsizes]
    simp only [List.length_append, List.length_map, List.map_append, List.map_map, List.sum_append,
      Function.comp_def, Nat.cast_add, FlowRatio.mk.injEq, Metadata.mk.injEq]
    refine ⟨⟨?_, add_assoc _ _ _⟩, Nat.add_assoc _ _ _, Nat.add_assoc _ _ _, Nat.add_assoc _ _ _,
      add_assoc _ _ _⟩
    ring

/-- A flow that may become large counts for less than one. -/
theorem weight_of_mem (hcfg : cfg.Sensible) {table : FlowTable σ φ} {sizes : List Int}
    (h : sizes ∈ sizesOf cfg .potentialLarge table) :
    0 ≤ potentialWeight cfg sizes.sum ∧ potentialWeight cfg sizes.sum < 1 := by
  obtain ⟨e, -, hsizes⟩ := List.mem_flatMap.mp h
  obtain ⟨d, hd, rfl⟩ := List.mem_map.mp hsizes
  rw [flowsOf, List.mem_filter, decide_eq_true_iff] at hd
  have htype := (flowType_eq_some_iff.mp hd.2).2
  refine ⟨potentialWeight_nonneg hcfg (by rw [hfl, id]) _,
    potentialWeight_lt_one hfl (not_le.mp fun hle => ?_)⟩
  rw [typeOf, if_pos hle] at htype
  cases htype

end Exact

/-- The active flows of a switch are those of the three types. -/
theorem length_flowsOf (flows : List (φ × FlowStatus)) :
    (flowsOf cfg .large flows).length + (flowsOf cfg .potentialLarge flows).length +
      (flowsOf cfg .small flows).length = flows.countP fun e => e.2.active := by
  induction flows with
  | nil => rfl
  | cons e flows ih =>
    rw [List.countP_cons, ← ih, flowsOf, flowsOf, flowsOf, flowsOf, flowsOf, flowsOf,
      List.filter_cons, List.filter_cons, List.filter_cons]
    have htype : ∀ t, flowType cfg e.2 = some t ↔
        e.2.active = true ∧ typeOf cfg e.2.flowSize = t := fun t => flowType_eq_some_iff
    simp only [htype]
    cases e.2.active <;> cases typeOf cfg e.2.flowSize <;> simp <;> lia

theorem length_sizesOf (table : FlowTable σ φ) :
    (sizesOf cfg .large table).length + (sizesOf cfg .potentialLarge table).length +
      (sizesOf cfg .small table).length = activeFlows table := by
  induction table with
  | nil => rfl
  | cons e table ih =>
    have hcons : ∀ t, (sizesOf cfg t (e :: table)).length =
        (flowsOf cfg t e.2).length + (sizesOf cfg t table).length := fun t => by
      rw [sizesOf, List.flatMap_cons, List.length_append, List.length_map]
      rfl
    have hactive : activeFlows (e :: table) =
        (e.2.countP fun d => d.2.active) + activeFlows table := rfl
    have hflows : (flowsOf cfg .large e.2).length + (flowsOf cfg .potentialLarge e.2).length +
        (flowsOf cfg .small e.2).length = _ := length_flowsOf e.2
    rw [hcons, hcons, hcons, hactive, ← ih]
    lia

variable [DecidableEq φ]

/-- `filter_flows` leaves the sizes and types of the flows. -/
theorem sizesOf_filterFlows {table : FlowTable σ φ} (h : Keyed table) (currentTime : ℚ)
    (t : FlowType) : sizesOf cfg t (filterFlows cfg currentTime table).2 = sizesOf cfg t table := by
  rw [sizesOf, sizesOf, filterFlows, List.flatMap_map]
  refine List.flatMap_congr fun e he => ?_
  have htype : ∀ s : FlowStatus, flowType cfg (s.filtered cfg currentTime) = flowType cfg s :=
    fun s => by
      rw [flowType, flowType, (filtered_keeps s currentTime).1, (filtered_keeps s currentTime).2]
  rw [filterSwitch_eq currentTime (h.nodup_flows e he)]
  simp only [flowsOf, List.filter_map, List.map_map, Function.comp_def, htype,
    (filtered_keeps _ currentTime).2]

variable [DecidableEq σ]

/-- With exact arithmetic, the ratio of a cycle has each active flow of the table once, by its
type: the large and the small ones as one, and each that may become large as less than one. -/
theorem upload_ratio_counts (hcfg : cfg.Sensible) (hfl : cfg.fl = id)
    (cycles : List (ℚ × SketchReport σ φ)) (currentTime : ℚ) (report : SketchReport σ φ) :
    let c := cycle cfg (after cfg cycles) currentTime report
    let r := uploadRatio cfg { large := 0, small := 0 } c.1
    let large := (sizesOf cfg .large c.2).length
    let potentialLarge := sizesOf cfg .potentialLarge c.2
    let small := (sizesOf cfg .small c.2).length
    let weights := (potentialLarge.map fun sizes => potentialWeight cfg sizes.sum).sum
    r.1 = { large := large + weights, small := small } ∧
      r.2 = { largeCount := large, potentialLarge := potentialLarge.length, smallCount := small,
              potentialEffective := weights } ∧
      (∀ sizes ∈ potentialLarge,
        0 ≤ potentialWeight cfg sizes.sum ∧ potentialWeight cfg sizes.sum < 1) ∧
      large + potentialLarge.length + small = activeFlows c.2 := by
  intro c r large potentialLarge small weights
  have hkeyed : Keyed (updateAllFlows cfg (after cfg cycles) report currentTime) :=
    keyed_updateAllFlows (keyed_after cycles) report currentTime
  have hsizes : ∀ t, sizesOf cfg t c.2 =
      sizesOf cfg t (updateAllFlows cfg (after cfg cycles) report currentTime) :=
    sizesOf_filterFlows hkeyed currentTime
  obtain ⟨hratio, hmetadata⟩ := foldl_uploads hfl currentTime hkeyed.nodup_flows
    { large := 0, small := 0 } .zero
  refine ⟨?_, ?_, fun sizes hmem => weight_of_mem hfl hcfg hmem, length_sizesOf c.2⟩
  · refine hratio.trans ?_
    rw [← hsizes, ← hsizes, ← hsizes, zero_add, zero_add]
  · refine hmetadata.trans ?_
    rw [← hsizes, ← hsizes, ← hsizes]
    simp only [Metadata.zero, zero_add]
    rfl

/-- Two flows of 5 and 2000 in the first report, and the small one again -/
theorem upload_ratio_counts_two :
    let c := cycle monitorConfig (after monitorConfig [((1 : ℚ), firstReport)]) 2 secondReport
    let r := uploadRatio monitorConfig { large := 0, small := 0 } c.1
    r.2.smallCount = (sizesOf monitorConfig .small c.2).length ∧
      (sizesOf monitorConfig .small c.2).length = 1 :=
  ⟨congrArg Metadata.smallCount (upload_ratio_counts monitorConfig_sensible rfl
    [((1 : ℚ), firstReport)] 2 secondReport).2.1, by decide +kernel⟩

/-! ## With any rounding -/

/-- What rounding does to the numbers of a ratio -/
structure MonitorConfig.Rounds (cfg : MonitorConfig) : Prop extends cfg.Sensible where
  fl_fl : ∀ x, cfg.fl (cfg.fl x) = cfg.fl x
  fl_zero : cfg.fl 0 = 0
  fl_one : cfg.fl 1 = 1
  threshold_pos : 0 < cfg.largeFlowThreshold
  unit_pos : 0 < cfg.fl (1 / cfg.largeFlowThreshold)

/-- The numbers of a ratio are floats, and none of them is negative. -/
structure FlowRatio.Counted (cfg : MonitorConfig) (r : FlowRatio) : Prop where
  large_float : cfg.fl r.large = r.large
  small_float : cfg.fl r.small = r.small
  large_nonneg : 0 ≤ r.large
  small_nonneg : 0 ≤ r.small

def Increment.amount : Increment → ℚ
  | .large x => x
  | .small x => x

section Additions

omit [DecidableEq σ] [DecidableEq φ]

theorem FlowRatio.Counted.zero (hcfg : cfg.Rounds) :
    FlowRatio.Counted cfg { large := 0, small := 0 } where
  large_float := hcfg.fl_zero
  small_float := hcfg.fl_zero
  large_nonneg := le_rfl
  small_nonneg := le_rfl

/-- An addition loses nothing of what was there, and has what was added. -/
theorem fl_add_le (hcfg : cfg.Rounds) {x y : ℚ} (hx : cfg.fl x = x) (hx0 : 0 ≤ x) (hy : 0 ≤ y) :
    x ≤ cfg.fl (x + y) ∧ cfg.fl y ≤ cfg.fl (x + y) :=
  ⟨hx.symm.trans_le (hcfg.monotone (le_add_of_nonneg_right hy)),
    hcfg.monotone (le_add_of_nonneg_left hx0)⟩

theorem FlowRatio.Counted.add (hcfg : cfg.Rounds) {r : FlowRatio} (h : r.Counted cfg)
    {i : Increment} (hi : 0 ≤ i.amount) :
    (r.add cfg i).Counted cfg ∧ r.large + r.small ≤ (r.add cfg i).large + (r.add cfg i).small ∧
      cfg.fl i.amount ≤ (r.add cfg i).large + (r.add cfg i).small := by
  cases i with
  | large x =>
    obtain ⟨hle, hx⟩ := fl_add_le hcfg h.large_float h.large_nonneg hi
    exact ⟨{ h with
        large_float := hcfg.fl_fl _
        large_nonneg := h.large_nonneg.trans hle },
      add_le_add_left hle _, hx.trans (le_add_of_nonneg_right h.small_nonneg)⟩
  | small x =>
    obtain ⟨hle, hx⟩ := fl_add_le hcfg h.small_float h.small_nonneg hi
    exact ⟨{ h with
        small_float := hcfg.fl_fl _
        small_nonneg := h.small_nonneg.trans hle },
      add_le_add_right hle _, hx.trans (le_add_of_nonneg_left h.large_nonneg)⟩

theorem increments_nonneg (hcfg : cfg.Rounds) {u : Upload φ} {i : Increment}
    (hi : i ∈ u.increments cfg) : 0 ≤ i.amount := by
  rw [Upload.increments, List.mem_append, List.mem_cons, List.mem_singleton, List.mem_map] at hi
  rcases hi with (rfl | ⟨e, -, rfl⟩) | rfl
  · exact Nat.cast_nonneg _
  · exact potentialWeight_nonneg hcfg.toSensible hcfg.fl_zero _
  · exact Nat.cast_nonneg _

theorem potentialWeight_pos (hcfg : cfg.Rounds) {size : Int} (hsize : 0 < size) :
    0 < cfg.fl (potentialWeight cfg size) := by
  rw [potentialWeight, if_neg (not_le.mpr hcfg.threshold_pos), if_neg (not_le.mpr hsize)]
  have hthr : (0 : ℚ) < cfg.largeFlowThreshold := Int.cast_pos.mpr hcfg.threshold_pos
  have hone : (1 : ℚ) ≤ size := by exact_mod_cast hsize
  have hunit : cfg.fl (1 / cfg.largeFlowThreshold) ≤ cfg.fl (size / cfg.largeFlowThreshold) :=
    hcfg.monotone (div_le_div_of_nonneg_right hone hthr.le)
  rcases min_choice (cfg.fl (size / cfg.largeFlowThreshold)) 1 with h | h <;> rw [h]
  · rw [hcfg.fl_fl]
    exact hcfg.unit_pos.trans_le hunit
  · rw [hcfg.fl_one]
    exact zero_lt_one

theorem fl_natCast_pos (hcfg : cfg.Rounds) {n : Nat} (hn : 0 < n) : 0 < cfg.fl n := by
  have hone : (1 : ℚ) ≤ n := by exact_mod_cast hn
  exact (hcfg.fl_one ▸ zero_lt_one).trans_le (hcfg.monotone hone)

end Additions

/-- All the sizes in the table are positive. -/
def Positive (table : FlowTable σ φ) : Prop :=
  ∀ switchId flowId, ∀ s ∈ look table switchId flowId, ∀ size ∈ s.flowSize, 0 < size

/-- `any(flowid_size_dict for …)` -/
def SketchReport.hasFlow (report : SketchReport σ φ) : Bool :=
  report.switches.any fun e => !e.2.isEmpty

variable {table : FlowTable σ φ}

theorem expire_flowSize (s : FlowStatus) (currentTime : ℚ) :
    (s.expire cfg currentTime).flowSize = s.flowSize := by
  rw [FlowStatus.expire]
  split
  · rfl
  · split <;> rfl

theorem size_pos {report : SketchReport σ φ} {switchId : σ} {flowId : φ} {size : Int}
    (h : report.size switchId flowId = some size) : 0 < size := by
  obtain ⟨flows, hflows, hsize⟩ := Option.bind_eq_some_iff.mp h
  exact report.size_pos _ (mem_of_get hflows) _ (mem_of_get hsize)

theorem positive_updateAllFlows (h : Positive table) (report : SketchReport σ φ)
    (currentTime : ℚ) : Positive (updateAllFlows cfg table report currentTime) := by
  intro switchId flowId s hs
  rw [Option.mem_def, look_updateAllFlows] at hs
  obtain ⟨t, ht, rfl⟩ := Option.map_eq_some_iff.mp hs
  rw [expire_flowSize]
  split at ht
  · next size hsize =>
    obtain rfl := Option.some.inj ht
    intro x hx
    rcases List.mem_append.mp hx with hx | hx
    · cases hold : look table switchId flowId with
      | none =>
        rw [hold] at hx
        exact absurd hx List.not_mem_nil
      | some old =>
        rw [hold] at hx
        exact h switchId flowId old hold x hx
    · exact List.mem_singleton.mp hx ▸ size_pos hsize
  · exact h switchId flowId t ht

theorem positive_cycle (hkeyed : Keyed table) (h : Positive table) (currentTime : ℚ)
    (report : SketchReport σ φ) : Positive (cycle cfg table currentTime report).2 := by
  intro switchId flowId s hs
  rw [Option.mem_def, cycle, look_filterFlows (keyed_updateAllFlows hkeyed report currentTime)]
    at hs
  obtain ⟨t, ht, rfl⟩ := Option.map_eq_some_iff.mp hs
  rw [(filtered_keeps t currentTime).2]
  exact positive_updateAllFlows h report currentTime switchId flowId t ht

/-- A flow of the report adds to the ratio. -/
theorem exists_increment (hcfg : cfg.Rounds) (hkeyed : Keyed table) (hpos : Positive table)
    {report : SketchReport σ φ} (hflow : report.hasFlow = true) (currentTime : ℚ) :
    ∃ i ∈ (cycle cfg table currentTime report).1.flatMap fun e => e.2.increments cfg,
      0 < cfg.fl i.amount := by
  obtain ⟨e, he, hne⟩ := List.any_eq_true.mp hflow
  obtain ⟨d, hd⟩ : ∃ d, d ∈ e.2 := by
    cases hl : e.2 with
    | nil => rw [hl] at hne; cases hne
    | cons d l => exact ⟨d, List.mem_cons_self⟩
  have hsize : report.size e.1 d.1 = some d.2 := by
    rw [SketchReport.size, (mem_iff_get report.nodup).mp he, Option.bind_some]
    exact (mem_iff_get (report.nodup_flows e he)).mp hd
  have hkeyed' : Keyed (updateAllFlows cfg table report currentTime) :=
    keyed_updateAllFlows hkeyed report currentTime
  obtain ⟨s, hs, hactive, hsizes⟩ : ∃ s,
      look (updateAllFlows cfg table report currentTime) e.1 d.1 = some s ∧
        s.active = true ∧ s.flowSize ≠ [] := by
    rw [look_updateAllFlows, hsize]
    refine ⟨_, rfl, ?_, ?_⟩
    · have hshort : ¬ cfg.fl (cfg.tReset / 2) < cfg.fl (currentTime - currentTime) := by
        rw [sub_self]
        exact not_lt.mpr (hcfg.monotone (div_nonneg hcfg.tReset_nonneg zero_le_two))
      rw [FlowStatus.expire, FlowStatus.record, if_neg Bool.false_ne_true.symm, if_neg hshort]
    · rw [expire_flowSize]
      exact List.append_ne_nil_of_right_ne_nil _ (List.cons_ne_nil _ _)
  have hsum : 0 < s.flowSize.sum :=
    List.sum_pos _ (positive_updateAllFlows hpos report currentTime e.1 d.1 s hs) hsizes
  have htype : flowType cfg s = some (typeOf cfg s.flowSize) := if_pos hactive
  obtain ⟨hlarge, hpotential, hsmall, -⟩ := mem_uploadOf hkeyed' currentTime e.1
  -- a switch with a flow in its lists is among those that are counted
  have hmem : ∀ i, uploadOf (cycle cfg table currentTime report).1 e.1 ≠ .empty →
      i ∈ (uploadOf (cycle cfg table currentTime report).1 e.1).increments cfg →
      i ∈ (cycle cfg table currentTime report).1.flatMap fun e => e.2.increments cfg := by
    intro i hu hi
    cases hget : get (cycle cfg table currentTime report).1 e.1 with
    | none =>
      rw [uploadOf, hget] at hu
      exact absurd rfl hu
    | some u =>
      rw [uploadOf, hget] at hi
      exact List.mem_flatMap.mpr ⟨(e.1, u), mem_of_get hget, hi⟩
  cases ht : typeOf cfg s.flowSize with
  | large =>
    rw [ht] at htype
    have hin := (hlarge d.1).mpr ⟨s, hs, htype⟩
    refine ⟨_, hmem _ (fun hu => ?_) (List.mem_append_left _ List.mem_cons_self),
      fl_natCast_pos hcfg (List.length_pos_of_mem hin)⟩
    rw [cycle] at hu
    rw [hu] at hin
    exact absurd hin List.not_mem_nil
  | small =>
    rw [ht] at htype
    have hin := (hsmall d.1).mpr ⟨s, hs, htype⟩
    refine ⟨_, hmem _ (fun hu => ?_) (List.mem_append_right _ (List.mem_singleton_self _)),
      fl_natCast_pos hcfg (List.length_pos_of_mem hin)⟩
    rw [cycle] at hu
    rw [hu] at hin
    exact absurd hin List.not_mem_nil
  | potentialLarge =>
    rw [ht] at htype
    have hin := (hpotential (d.1, s.flowSize.sum)).mpr ⟨s, hs, htype, rfl⟩
    refine ⟨.large (potentialWeight cfg s.flowSize.sum), hmem _ (fun hu => ?_)
      (List.mem_append_left _ (List.mem_cons_of_mem _ (List.mem_map.mpr ⟨_, hin, rfl⟩))),
      potentialWeight_pos hcfg hsum⟩
    rw [cycle] at hu
    rw [hu] at hin
    exact absurd hin List.not_mem_nil

end Paraleon.Tuning
