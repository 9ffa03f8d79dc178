import Mathlib.Algebra.Order.Field.Basic
import Mathlib.Algebra.Order.Ring.Rat
import Mathlib.Order.Monotone.Basic
import Paraleon.Library.OrderedDict
import Paraleon.Tuning.Candidates

/-!
# The flows that the monitor has seen

Each report of the switches has the flows of one interval and their sizes. The monitor keeps a
status for each flow, `switch_flowid_status_dict`, from which it counts the large and the small
flows; a flow whose sizes do not fall off counts in part as a large one before it is large.

* `look_cycle`: a cycle changes the status of a flow by what the report says of this flow alone.
* `tracks_after`: after any reports, the status of a flow has all its sizes and the time of the
  last one, the flow is active if this time is not too long ago, and `potential_stop` is never set.
* `classified_by_history`: so that each flow that was seen lately is in one list, and in which one
  is said by its history.
-/

namespace Paraleon.Tuning

open OrderedDict

/-! ## The status of a flow -/

structure FlowStatus where
  active : Bool
  flowSize : List Int
  lastMonitorTime : ℚ
  potentialStart : ℚ
  potentialStop : ℚ
deriving DecidableEq, Repr

/-- The constants of the monitor, and the rounding of an operation on floats. -/
structure MonitorConfig where
  fl : ℚ → ℚ
  tReset : ℚ
  largeFlowThreshold : Int
  windowSize : Nat

/-- The sizes of one interval, by switch and flow: a dictionary of dictionaries. A switch reports
the flows of which it counted at least one packet. -/
structure SketchReport (σ φ : Type*) where
  switches : List (σ × List (φ × Int))
  nodup : (keys switches).Nodup
  nodup_flows : ∀ e ∈ switches, (keys e.2).Nodup
  size_pos : ∀ e ∈ switches, ∀ f ∈ e.2, 0 < f.2

/-- `switch_flowid_status_dict` -/
abbrev FlowTable (σ φ : Type*) := List (σ × List (φ × FlowStatus))

variable {σ φ : Type*} [DecidableEq σ] [DecidableEq φ] (cfg : MonitorConfig)

/-- `temp_flowid_status` -/
def newStatus (currentTime : ℚ) : FlowStatus where
  active := true
  flowSize := []
  lastMonitorTime := currentTime
  potentialStart := -1
  potentialStop := -1

def FlowStatus.record (currentTime : ℚ) (flowSize : Int) (s : FlowStatus) : FlowStatus :=
  { s with
    flowSize := s.flowSize ++ [flowSize]
    lastMonitorTime := currentTime
    active := true }

/-- The second loop of `update_all_flows` -/
def FlowStatus.expire (currentTime : ℚ) (s : FlowStatus) : FlowStatus :=
  if s.active = false then s
  else if cfg.fl (cfg.tReset / 2) < cfg.fl (currentTime - s.lastMonitorTime) then
    { s with active := false }
  else s

def updateAllFlows (table : FlowTable σ φ) (report : SketchReport σ φ) (currentTime : ℚ) :
    FlowTable σ φ :=
  let table := report.switches.foldl (fun table e =>
    upsert e.1 [] (fun flows => e.2.foldl (fun flows e =>
      upsert e.1 (newStatus currentTime) (FlowStatus.record currentTime e.2) flows) flows) table)
    table
  table.map fun e => (e.1, e.2.map fun e => (e.1, e.2.expire cfg currentTime))

/-! ## The windows -/

/-- The sums of the windows of a list -/
def windowSums (windowSize : Nat) (lst : List Int) : List Int :=
  (List.range (lst.length + 1 - windowSize)).map fun i => ((lst.drop i).take windowSize).sum

def isFlowKeepSendingSlidingWindow (lst : List Int) (windowSize : Nat) : Bool :=
  let result := windowSums windowSize lst
  (List.range' 1 (result.length - 2)).all fun i =>
    if result.getD i 0 = 0 then false
    else if 10 < result.getD (i - 1) 0 - result.getD i 0 then
      !decide (20 < result.getD i 0 - result.getD (i + 1) 0)
    else true

def isFlowKeepActiveWithinWindow (lst : List Int) (windowSize : Nat) : Bool :=
  if lst.length ≤ windowSize then false
  else
    let result := windowSums windowSize lst
    (List.range' 1 (result.length - 2)).all fun i =>
      if result.getD i 0 = 0 then false
      else if 10 < result.getD (i - 1) 0 - result.getD i 0 then
        if result.length < 3 then true
        else !decide (20 < result.getD i 0 - result.getD (i + 1) 0)
      else true

/-- The test of the length inside the loop decides nothing. -/
theorem keepActive_eq (lst : List Int) (windowSize : Nat) :
    isFlowKeepActiveWithinWindow lst windowSize =
      (decide (windowSize < lst.length) && isFlowKeepSendingSlidingWindow lst windowSize) := by
  rw [isFlowKeepActiveWithinWindow, isFlowKeepSendingSlidingWindow]
  by_cases hlen : lst.length ≤ windowSize
  · rw [if_pos hlen, decide_eq_false (not_lt.mpr hlen), Bool.false_and]
  · rw [if_neg hlen, decide_eq_true (not_le.mp hlen), Bool.true_and]
    rw [Bool.eq_iff_iff, List.all_eq_true, List.all_eq_true]
    refine forall₂_congr fun i hi => ?_
    have hlong : ¬ (windowSums windowSize lst).length < 3 := by
      have hlt := (List.mem_range'_1.mp hi).2
      have hge := (List.mem_range'_1.mp hi).1
      lia
    rw [if_neg hlong]

/-! ## The lists of a switch -/

/-- `flow_type_list_dict` -/
structure Upload (φ : Type*) where
  large : List φ
  potentialLarge : List (φ × Int)
  small : List φ
deriving DecidableEq, Repr

def Upload.empty : Upload φ := { large := [], potentialLarge := [], small := [] }

/-- The body of the inner loop of `filter_flows` -/
def filterFlow (currentTime : ℚ) (u : Upload φ) (flowId : φ) (s : FlowStatus) :
    Upload φ × FlowStatus :=
  let flowSize := s.flowSize.sum
  if s.active then
    if cfg.largeFlowThreshold ≤ flowSize then
      let u := { u with large := u.large ++ [flowId] }
      if flowId ∈ keys u.potentialLarge then
        ({ u with potentialLarge := u.potentialLarge.filter fun e => e.1 ≠ flowId },
          { s with potentialStop := currentTime })
      else (u, s)
    else if isFlowKeepActiveWithinWindow s.flowSize cfg.windowSize then
      let u := { u with
        potentialLarge := upsert flowId flowSize (fun _ => flowSize) u.potentialLarge }
      let s := if s.potentialStart = -1 then { s with potentialStart := currentTime } else s
      let u := if flowId ∈ u.small then { u with small := u.small.erase flowId } else u
      (u, s)
    else ({ u with small := u.small ++ [flowId] }, s)
  else
    let u := if flowId ∈ u.large then { u with large := u.large.erase flowId } else u
    let (u, s) :=
      if flowId ∈ keys u.potentialLarge then
        ({ u with potentialLarge := u.potentialLarge.filter fun e => e.1 ≠ flowId },
          if s.potentialStop = -1 then { s with potentialStop := currentTime } else s)
      else (u, s)
    let u := if flowId ∈ u.small then { u with small := u.small.erase flowId } else u
    (u, s)

def filterSwitch (currentTime : ℚ) (flows : List (φ × FlowStatus)) :
    Upload φ × List (φ × FlowStatus) :=
  flows.foldl (fun acc e =>
    let (u, s) := filterFlow cfg currentTime acc.1 e.1 e.2
    (u, acc.2 ++ [(e.1, s)])) (.empty, [])

/-- The switches have different keys, so that each of them begins with empty lists. -/
def filterFlows (currentTime : ℚ) (table : FlowTable σ φ) :
    List (σ × Upload φ) × FlowTable σ φ :=
  (table.map fun e => (e.1, (filterSwitch cfg currentTime e.2).1),
    table.map fun e => (e.1, (filterSwitch cfg currentTime e.2).2))

/-- What the loop does in a cycle of the switches. -/
def cycle (table : FlowTable σ φ) (currentTime : ℚ) (report : SketchReport σ φ) :
    List (σ × Upload φ) × FlowTable σ φ :=
  filterFlows cfg currentTime (updateAllFlows cfg table report currentTime)

/-- The table after some reports -/
def after (cycles : List (ℚ × SketchReport σ φ)) : FlowTable σ φ :=
  cycles.foldl (fun table c => (cycle cfg table c.1 c.2).2) []

/-! ## One flow -/

/-- The list that a flow goes to -/
inductive FlowType where
  | large
  | potentialLarge
  | small
deriving DecidableEq, Repr

/-- The list of an active flow with these sizes -/
def typeOf (sizes : List Int) : FlowType :=
  if cfg.largeFlowThreshold ≤ sizes.sum then .large
  else if isFlowKeepActiveWithinWindow sizes cfg.windowSize then .potentialLarge
  else .small

def flowType (s : FlowStatus) : Option FlowType :=
  if s.active then some (typeOf cfg s.flowSize) else none

/-- `filter_flows` only sets `potential_start`. -/
def FlowStatus.filtered (currentTime : ℚ) (s : FlowStatus) : FlowStatus :=
  if flowType cfg s = some .potentialLarge ∧ s.potentialStart = -1 then
    { s with potentialStart := currentTime }
  else s

def Upload.add (u : Upload φ) (flowId : φ) (flowSize : Int) : Option FlowType → Upload φ
  | some .large => { u with large := u.large ++ [flowId] }
  | some .potentialLarge =>
    { u with potentialLarge := u.potentialLarge ++ [(flowId, flowSize)] }
  | some .small => { u with small := u.small ++ [flowId] }
  | none => u

/-- The lists do not have the flow yet. -/
def Upload.Without (u : Upload φ) (flowId : φ) : Prop :=
  flowId ∉ u.large ∧ flowId ∉ keys u.potentialLarge ∧ flowId ∉ u.small

variable {cfg}

/-- A flow that the lists do not have yet goes to one of them: nothing is taken out. -/
theorem filterFlow_eq {u : Upload φ} {flowId : φ} (h : u.Without flowId) (currentTime : ℚ)
    (s : FlowStatus) : filterFlow cfg currentTime u flowId s =
      (u.add flowId s.flowSize.sum (flowType cfg s), s.filtered cfg currentTime) := by
  obtain ⟨hlarge, hpotential, hsmall⟩ := h
  rw [filterFlow, FlowStatus.filtered, flowType, typeOf]
  dsimp only
  cases s.active with
  | false =>
    rw [if_neg Bool.false_ne_true, if_neg Bool.false_ne_true, if_neg hlarge]
    simp only [if_neg hpotential, if_neg hsmall]
    rw [if_neg fun h => nomatch h.1]
    rfl
  | true =>
    rw [if_pos rfl, if_pos rfl]
    by_cases hsize : cfg.largeFlowThreshold ≤ s.flowSize.sum
    · rw [if_pos hsize, if_pos hsize, if_neg hpotential, if_neg fun h => nomatch h.1]
      rfl
    · rw [if_neg hsize, if_neg hsize]
      by_cases hkeep : isFlowKeepActiveWithinWindow s.flowSize cfg.windowSize = true
      · rw [if_pos hkeep, if_pos hkeep, if_neg hsmall, upsert_of_not_mem hpotential]
        simp only [true_and]
        rfl
      · rw [if_neg hkeep, if_neg hkeep, if_neg fun h => nomatch h.1]
        rfl

/-! ## One switch -/

/-- The flows of a list, in their order -/
def flowsOf (cfg : MonitorConfig) (t : FlowType) (flows : List (φ × FlowStatus)) :
    List (φ × FlowStatus) :=
  flows.filter fun e => flowType cfg e.2 = some t

omit [DecidableEq φ] in
theorem Upload.Without.add {u : Upload φ} {f f' : φ} (h : u.Without f) (hne : f ≠ f') (size : Int)
    (t : Option FlowType) : (u.add f' size t).Without f := by
  obtain ⟨hlarge, hpotential, hsmall⟩ := h
  have happ : ∀ {l : List φ}, f ∉ l → f ∉ l ++ [f'] := fun hl hmem =>
    (List.mem_append.mp hmem).elim hl fun heq => hne (List.mem_singleton.mp heq)
  match t with
  | none => exact ⟨hlarge, hpotential, hsmall⟩
  | some .large => exact ⟨happ hlarge, hpotential, hsmall⟩
  | some .small => exact ⟨hlarge, hpotential, happ hsmall⟩
  | some .potentialLarge =>
    refine ⟨hlarge, ?_, hsmall⟩
    rw [keys, Upload.add, List.map_append]
    exact happ hpotential

theorem foldl_filterFlow (currentTime : ℚ) {flows : List (φ × FlowStatus)}
    (hnodup : (keys flows).Nodup) {u : Upload φ} (hu : ∀ f ∈ keys flows, u.Without f)
    (out : List (φ × FlowStatus)) :
    flows.foldl (fun acc e =>
      let (u, s) := filterFlow cfg currentTime acc.1 e.1 e.2
      (u, acc.2 ++ [(e.1, s)])) (u, out) =
    ({ large := u.large ++ (flowsOf cfg .large flows).map Prod.fst
       potentialLarge := u.potentialLarge ++
        (flowsOf cfg .potentialLarge flows).map fun e => (e.1, e.2.flowSize.sum)
       small := u.small ++ (flowsOf cfg .small flows).map Prod.fst },
      out ++ flows.map fun e => (e.1, e.2.filtered cfg currentTime)) := by
  induction flows generalizing u out with
  | nil =>
    simp only [flowsOf, List.filter_nil, List.map_nil, List.append_nil, List.foldl_nil]
  | cons e flows ih =>
    obtain ⟨hout, hnodup⟩ := List.nodup_cons.mp hnodup
    have hrest : ∀ f ∈ keys flows,
        (u.add e.1 e.2.flowSize.sum (flowType cfg e.2)).Without f := fun f hf =>
      (hu f (List.mem_cons_of_mem _ hf)).add (fun heq : f = e.1 => hout (heq ▸ hf)) _ _
    rw [List.foldl_cons, filterFlow_eq (hu e.1 List.mem_cons_self)]
    dsimp only
    rw [ih hnodup hrest, List.map_cons, List.append_assoc]
    refine Prod.ext ?_ rfl
    rw [flowsOf, flowsOf, flowsOf, flowsOf, flowsOf, flowsOf, List.filter_cons, List.filter_cons,
      List.filter_cons]
    rcases flowType cfg e.2 with _ | _ | _ | _ <;> simp [Upload.add]

/-- The lists of a switch and what they leave of its flows -/
theorem filterSwitch_eq (currentTime : ℚ) {flows : List (φ × FlowStatus)}
    (hnodup : (keys flows).Nodup) : filterSwitch cfg currentTime flows =
      ({ large := (flowsOf cfg .large flows).map Prod.fst
         potentialLarge :=
          (flowsOf cfg .potentialLarge flows).map fun e => (e.1, e.2.flowSize.sum)
         small := (flowsOf cfg .small flows).map Prod.fst },
        flows.map fun e => (e.1, e.2.filtered cfg currentTime)) := by
  have hempty : ∀ f ∈ keys flows, (Upload.empty : Upload φ).Without f := fun _ _ =>
    ⟨List.not_mem_nil, List.not_mem_nil, List.not_mem_nil⟩
  exact foldl_filterFlow currentTime hnodup hempty []

omit [DecidableEq φ] in
theorem mem_flowsOf [DecidableEq φ] {flows : List (φ × FlowStatus)} (hnodup : (keys flows).Nodup)
    {t : FlowType} {f : φ} {s : FlowStatus} :
    (f, s) ∈ flowsOf cfg t flows ↔ get flows f = some s ∧ flowType cfg s = some t := by
  rw [flowsOf, List.mem_filter, mem_iff_get hnodup, decide_eq_true_iff]

/-! ## The table -/

/-- The status of a flow, if there is one -/
def look (table : FlowTable σ φ) (switchId : σ) (flowId : φ) : Option FlowStatus :=
  (get table switchId).bind fun flows => get flows flowId

/-- The size that a report has of a flow -/
def SketchReport.size (r : SketchReport σ φ) (switchId : σ) (flowId : φ) : Option Int :=
  (get r.switches switchId).bind fun flows => get flows flowId

/-- The switches of the table are different, and so are the flows of a switch. -/
structure Keyed (table : FlowTable σ φ) : Prop where
  nodup : (keys table).Nodup
  nodup_flows : ∀ e ∈ table, (keys e.2).Nodup

variable {table : FlowTable σ φ}

theorem get_getD_nil (o : Option (List (φ × FlowStatus))) (flowId : φ) :
    get (o.getD []) flowId = o.bind fun flows => get flows flowId := by
  cases o <;> rfl

theorem look_map (g : FlowStatus → FlowStatus) (table : FlowTable σ φ) (switchId : σ)
    (flowId : φ) :
    look (table.map fun e => (e.1, e.2.map fun e => (e.1, g e.2))) switchId flowId =
      (look table switchId flowId).map g := by
  rw [look, get_map, look]
  cases get table switchId with
  | none => rfl
  | some flows => exact get_map g flows flowId

theorem look_updateAllFlows (table : FlowTable σ φ) (report : SketchReport σ φ) (currentTime : ℚ)
    (switchId : σ) (flowId : φ) :
    look (updateAllFlows cfg table report currentTime) switchId flowId =
      (match report.size switchId flowId with
      | some size =>
        some (((look table switchId flowId).getD (newStatus currentTime)).record currentTime size)
      | none => look table switchId flowId).map (FlowStatus.expire cfg currentTime) := by
  rw [updateAllFlows, look_map]
  congr 1
  rw [look, SketchReport.size, get_foldl_upsert [] (fun new flows => new.foldl (fun flows e =>
    upsert e.1 (newStatus currentTime) (FlowStatus.record currentTime e.2) flows) flows)
    report.nodup]
  cases hnew : get report.switches switchId with
  | none => rfl
  | some new =>
    have hnodup := report.nodup_flows _ ((mem_iff_get report.nodup).mpr hnew)
    dsimp only [Option.bind_some]
    rw [get_foldl_upsert _ _ hnodup, get_getD_nil, look]
    cases get new flowId <;> rfl

theorem look_filterFlows (h : Keyed table) (currentTime : ℚ) (switchId : σ) (flowId : φ) :
    look (filterFlows cfg currentTime table).2 switchId flowId =
      (look table switchId flowId).map (FlowStatus.filtered cfg currentTime) := by
  rw [← look_map, filterFlows]
  congr 1
  exact List.map_congr_left fun e he => by rw [filterSwitch_eq currentTime (h.nodup_flows e he)]

theorem keyed_updateAllFlows (h : Keyed table) (report : SketchReport σ φ) (currentTime : ℚ) :
    Keyed (updateAllFlows cfg table report currentTime) := by
  have hfold : ∀ l : List (σ × List (φ × Int)), ∀ t : FlowTable σ φ, Keyed t →
      Keyed (l.foldl (fun table e => upsert e.1 [] (fun flows => e.2.foldl (fun flows e =>
        upsert e.1 (newStatus currentTime) (FlowStatus.record currentTime e.2) flows) flows)
        table) t) := by
    intro l
    induction l with
    | nil => exact fun t ht => ht
    | cons e l ih =>
      intro t ht
      refine ih _ ⟨nodup_upsert ht.nodup .., fun d hd => ?_⟩
      rcases mem_upsert hd with hd | ⟨flows, hflows, rfl⟩
      · exact ht.nodup_flows d hd
      · refine nodup_foldl_upsert _ _ _ ?_
        rcases hflows with rfl | hflows
        · exact List.nodup_nil
        · exact ht.nodup_flows _ hflows
  obtain ⟨hnodup, hflows⟩ := hfold report.switches table h
  refine ⟨?_, fun e he => ?_⟩
  · rw [updateAllFlows, keys_map]
    exact hnodup
  · obtain ⟨d, hd, rfl⟩ := List.mem_map.mp he
    rw [keys_map]
    exact hflows d hd

omit [DecidableEq σ] in
theorem keyed_filterFlows (h : Keyed table) (currentTime : ℚ) :
    Keyed (filterFlows cfg currentTime table).2 := by
  refine ⟨?_, fun e he => ?_⟩
  · have hkeys := keys_map (fun flows => (filterSwitch cfg currentTime flows).2) table
    exact hkeys.symm ▸ h.nodup
  · obtain ⟨d, hd, rfl⟩ := List.mem_map.mp he
    dsimp only
    rw [filterSwitch_eq currentTime (h.nodup_flows d hd), keys_map]
    exact h.nodup_flows d hd

/-! ## Cycles -/

/-- A flow goes by what the report says of it alone. -/
def FlowStatus.next (cfg : MonitorConfig) (currentTime : ℚ) (size : Option Int)
    (s : Option FlowStatus) : Option FlowStatus :=
  ((match size with
    | some size => some ((s.getD (newStatus currentTime)).record currentTime size)
    | none => s).map (FlowStatus.expire cfg currentTime)).map (FlowStatus.filtered cfg currentTime)

theorem look_cycle (h : Keyed table) (currentTime : ℚ) (report : SketchReport σ φ) (switchId : σ)
    (flowId : φ) : look (cycle cfg table currentTime report).2 switchId flowId =
      FlowStatus.next cfg currentTime (report.size switchId flowId)
        (look table switchId flowId) := by
  rw [cycle, look_filterFlows (keyed_updateAllFlows h report currentTime), look_updateAllFlows]
  rfl

theorem keyed_cycle (h : Keyed table) (currentTime : ℚ) (report : SketchReport σ φ) :
    Keyed (cycle cfg table currentTime report).2 :=
  keyed_filterFlows (keyed_updateAllFlows h report currentTime) currentTime

variable {cycles : List (ℚ × SketchReport σ φ)} {c : ℚ × SketchReport σ φ} {switchId : σ}
  {flowId : φ}

theorem after_snoc : after cfg (cycles ++ [c]) = (cycle cfg (after cfg cycles) c.1 c.2).2 := by
  rw [after, List.foldl_append]
  rfl

theorem keyed_after (cycles : List (ℚ × SketchReport σ φ)) : Keyed (after cfg cycles) := by
  induction cycles using List.reverseRecOn with
  | nil => exact ⟨List.nodup_nil, fun _ h => absurd h List.not_mem_nil⟩
  | append_singleton cycles c ih =>
    rw [after_snoc]
    exact keyed_cycle ih c.1 c.2

/-! ## What the history says of a flow -/

/-- The sizes that were reported of a flow -/
def sizes (cycles : List (ℚ × SketchReport σ φ)) (switchId : σ) (flowId : φ) : List Int :=
  cycles.filterMap fun c => c.2.size switchId flowId

/-- The times of the reports that had a flow -/
def seenAt (cycles : List (ℚ × SketchReport σ φ)) (switchId : σ) (flowId : φ) : List ℚ :=
  cycles.filterMap fun c => (c.2.size switchId flowId).map fun _ => c.1

/-- A flow was seen, and not too long ago. -/
def Recent (cfg : MonitorConfig) (cycles : List (ℚ × SketchReport σ φ)) (currentTime : ℚ)
    (switchId : σ) (flowId : φ) : Prop :=
  ∃ last, (seenAt cycles switchId flowId).getLast? = some last ∧
    cfg.fl (currentTime - last) ≤ cfg.fl (cfg.tReset / 2)

/-- What a status has of the history of its flow -/
structure Tracks (cfg : MonitorConfig) (sizes : List Int) (last : Option ℚ) (currentTime : ℚ)
    (s : FlowStatus) : Prop where
  flowSize : s.flowSize = sizes
  last : last = some s.lastMonitorTime
  active : s.active = true ↔ cfg.fl (currentTime - s.lastMonitorTime) ≤ cfg.fl (cfg.tReset / 2)
  potentialStop : s.potentialStop = -1

/-- What the table has of a flow with these sizes, reported at these times -/
inductive Known (cfg : MonitorConfig) (sizes : List Int) (seenAt : List ℚ) (currentTime : ℚ) :
    Option FlowStatus → Prop
  | unseen : sizes = [] → seenAt = [] → Known cfg sizes seenAt currentTime none
  | seen (s : FlowStatus) : Tracks cfg sizes seenAt.getLast? currentTime s →
    Known cfg sizes seenAt currentTime (some s)

/-- The rounding keeps the order, and the interval of the monitor is not negative. -/
structure MonitorConfig.Sensible (cfg : MonitorConfig) : Prop where
  monotone : Monotone cfg.fl
  tReset_nonneg : 0 ≤ cfg.tReset

/-- The constants of the source, and exact arithmetic -/
def monitorConfig : MonitorConfig where
  fl := id
  tReset := 1 / 1000
  largeFlowThreshold := 1024
  windowSize := 2

theorem monitorConfig_sensible : monitorConfig.Sensible where
  monotone := monotone_id
  tReset_nonneg := by norm_num [monitorConfig]

section Tracks

variable {ss : List Int} {last : Option ℚ} {now now' : ℚ} {s : FlowStatus}

theorem Tracks.filtered (h : Tracks cfg ss last now s) (t : ℚ) :
    Tracks cfg ss last now (s.filtered cfg t) := by
  rw [FlowStatus.filtered]
  split
  · exact { h with }
  · exact h

/-- Time passes: what was not active stays so. -/
theorem Tracks.expire (hcfg : cfg.Sensible) (h : Tracks cfg ss last now s) (hle : now ≤ now') :
    Tracks cfg ss last now' (s.expire cfg now') := by
  have hmono : cfg.fl (now - s.lastMonitorTime) ≤ cfg.fl (now' - s.lastMonitorTime) :=
    hcfg.monotone (sub_le_sub_right hle _)
  rw [FlowStatus.expire]
  split
  · next hactive =>
    refine { h with active := iff_of_false ?_ fun hrecent => ?_ }
    · rw [hactive]
      exact Bool.false_ne_true
    · rw [h.active.mpr (hmono.trans hrecent)] at hactive
      cases hactive
  · split
    · next hlong => exact { h with active := iff_of_false Bool.false_ne_true (not_le.mpr hlong) }
    · next hactive hshort =>
      exact { h with active := iff_of_true (Bool.not_eq_false _ ▸ hactive) (not_lt.mp hshort) }

/-- A report of the flow starts its time anew. -/
theorem Tracks.record (hcfg : cfg.Sensible) (hsize : s.flowSize = ss)
    (hstop : s.potentialStop = -1) (size : Int) :
    Tracks cfg (ss ++ [size]) (some now) now ((s.record now size).expire cfg now) := by
  have h : Tracks cfg (ss ++ [size]) (some now) now (s.record now size) :=
    { flowSize := congrArg (· ++ [size]) hsize
      last := rfl
      active := iff_of_true rfl
        (hcfg.monotone (by
          rw [FlowStatus.record, sub_self]
          exact div_nonneg hcfg.tReset_nonneg zero_le_two))
      potentialStop := hstop }
  exact h.expire hcfg le_rfl

/-- One cycle of a flow -/
theorem Known.next (hcfg : cfg.Sensible) {seen : List ℚ} {o : Option FlowStatus}
    (h : Known cfg ss seen now o) (hle : now ≤ now') (size : Option Int) :
    Known cfg (ss ++ size.toList) (seen ++ (size.map fun _ => now').toList) now'
      (FlowStatus.next cfg now' size o) := by
  cases size with
  | none =>
    rw [Option.toList_none, Option.map_none, Option.toList_none, List.append_nil, List.append_nil]
    cases h with
    | unseen hss hseen => exact .unseen hss hseen
    | seen s h => exact .seen _ ((h.expire hcfg hle).filtered now')
  | some size =>
    rw [Option.map_some, Option.toList_some, Option.toList_some]
    refine .seen _ ?_
    rw [List.getLast?_concat]
    refine Tracks.filtered (.record hcfg ?_ ?_ size) now'
    · cases h with
      | unseen hss _ => exact hss.symm
      | seen s h => exact h.flowSize
    · cases h with
      | unseen _ _ => rfl
      | seen s h => exact h.potentialStop

end Tracks

/-- After any reports in the order of time, the table has of each flow what its history says. -/
theorem tracks_after (hcfg : cfg.Sensible) (hsorted : cycles.Pairwise fun c c' => c.1 ≤ c'.1)
    {now : ℚ} (hnow : ∀ c ∈ cycles.getLast?, c.1 = now) (switchId : σ) (flowId : φ) :
    Known cfg (sizes cycles switchId flowId) (seenAt cycles switchId flowId) now
      (look (after cfg cycles) switchId flowId) := by
  induction cycles using List.reverseRecOn generalizing now with
  | nil => exact .unseen rfl rfl
  | append_singleton cycles d ih =>
    have hd : d.1 = now := hnow d (by rw [List.getLast?_concat, Option.mem_some_iff])
    obtain ⟨hsorted, -, hle⟩ := List.pairwise_append.mp hsorted
    obtain ⟨last, hlast, hled⟩ : ∃ last, (∀ c ∈ cycles.getLast?, c.1 = last) ∧ last ≤ d.1 := by
      cases hl : cycles.getLast? with
      | none => exact ⟨d.1, fun c hc => absurd hc (Option.not_mem_none c), le_rfl⟩
      | some c =>
        refine ⟨c.1, fun c' hc' => ?_,
          hle c (List.mem_of_getLast? hl) d (List.mem_singleton_self d)⟩
        rw [Option.mem_some_iff.mp hc']
    have hstep := (ih hsorted hlast).next hcfg hled (d.2.size switchId flowId)
    rw [after_snoc, look_cycle (keyed_after cycles), ← hd]
    have hsizes : sizes (cycles ++ [d]) switchId flowId =
        sizes cycles switchId flowId ++ (d.2.size switchId flowId).toList := by
      rw [sizes, List.filterMap_append, ← sizes]
      congr 1
    have hseen : seenAt (cycles ++ [d]) switchId flowId =
        seenAt cycles switchId flowId ++
          ((d.2.size switchId flowId).map fun _ => d.1).toList := by
      rw [seenAt, List.filterMap_append, ← seenAt]
      congr 1
    rwa [hsizes, hseen]

/-! ## The lists and the history -/

/-- The lists of a switch, empty for one that was never seen -/
def uploadOf (uploads : List (σ × Upload φ)) (switchId : σ) : Upload φ :=
  (get uploads switchId).getD .empty

theorem flowType_eq_some_iff {s : FlowStatus} {t : FlowType} :
    flowType cfg s = some t ↔ s.active = true ∧ typeOf cfg s.flowSize = t := by
  rw [flowType]
  split
  · next h => rw [Option.some_inj, and_iff_right h]
  · next h => exact iff_of_false (fun heq => nomatch heq) fun heq => h heq.1

theorem filtered_keeps (s : FlowStatus) (currentTime : ℚ) :
    (s.filtered cfg currentTime).active = s.active ∧
      (s.filtered cfg currentTime).flowSize = s.flowSize := by
  rw [FlowStatus.filtered]
  split <;> exact ⟨rfl, rfl⟩

/-- What is in a list of a switch, from the statuses -/
theorem mem_uploadOf (h : Keyed table) (currentTime : ℚ) (switchId : σ) :
    let u := uploadOf (filterFlows cfg currentTime table).1 switchId
    (∀ f, f ∈ u.large ↔
      ∃ s, look table switchId f = some s ∧ flowType cfg s = some .large) ∧
    (∀ e, e ∈ u.potentialLarge ↔
      ∃ s, look table switchId e.1 = some s ∧ flowType cfg s = some .potentialLarge ∧
        e.2 = s.flowSize.sum) ∧
    (∀ f, f ∈ u.small ↔
      ∃ s, look table switchId f = some s ∧ flowType cfg s = some .small) ∧
    u.large.Nodup ∧ (keys u.potentialLarge).Nodup ∧ u.small.Nodup := by
  intro u
  have hu : u = ((get table switchId).map fun flows =>
      (filterSwitch cfg currentTime flows).1).getD .empty := by
    change (get _ switchId).getD _ = _
    rw [filterFlows, get_map fun flows => (filterSwitch cfg currentTime flows).1]
  cases hget : get table switchId with
  | none =>
    have hnone : ∀ f, look table switchId f = none := fun f => by rw [look, hget, Option.bind_none]
    rw [hu, hget]
    simp only [hnone, reduceCtorEq, false_and, exists_false, iff_false]
    exact ⟨fun _ => List.not_mem_nil, fun _ => List.not_mem_nil, fun _ => List.not_mem_nil,
      List.nodup_nil, List.nodup_nil, List.nodup_nil⟩
  | some flows =>
    have hnodup := h.nodup_flows _ ((mem_iff_get h.nodup).mpr hget)
    have hlook : ∀ f, look table switchId f = get flows f := fun f => by
      rw [look, hget, Option.bind_some]
    have hmem : ∀ t f, f ∈ (flowsOf cfg t flows).map Prod.fst ↔
        ∃ s, get flows f = some s ∧ flowType cfg s = some t := fun t f => by
      rw [List.mem_map]
      constructor
      · rintro ⟨e, he, rfl⟩
        exact ⟨e.2, (mem_flowsOf hnodup).mp he⟩
      · rintro ⟨s, hs⟩
        exact ⟨(f, s), (mem_flowsOf hnodup).mpr hs, rfl⟩
    have hsub : ∀ t, ((flowsOf cfg t flows).map Prod.fst).Nodup := fun t =>
      hnodup.sublist (List.filter_sublist.map Prod.fst)
    rw [hu, hget, Option.map_some, Option.getD_some, filterSwitch_eq currentTime hnodup]
    simp only [hlook]
    refine ⟨hmem .large, fun e => ?_, hmem .small, hsub .large, ?_, hsub .small⟩
    · rw [List.mem_map]
      constructor
      · rintro ⟨d, hd, rfl⟩
        obtain ⟨hs, ht⟩ := (mem_flowsOf hnodup).mp hd
        exact ⟨d.2, hs, ht, rfl⟩
      · rintro ⟨s, hs, ht, hsum⟩
        exact ⟨(e.1, s), (mem_flowsOf hnodup).mpr ⟨hs, ht⟩, Prod.ext rfl hsum.symm⟩
    · rw [keys, List.map_map]
      exact hsub .potentialLarge

/-- The status after the last cycle, and the history -/
theorem known_last (hcfg : cfg.Sensible)
    (hsorted : (cycles ++ [c]).Pairwise fun c c' => c.1 ≤ c'.1) (switchId : σ) (f : φ) :
    Known cfg (sizes (cycles ++ [c]) switchId f) (seenAt (cycles ++ [c]) switchId f) c.1
      (look (after cfg (cycles ++ [c])) switchId f) := by
  refine tracks_after hcfg hsorted (fun d hd => ?_) switchId f
  rw [List.getLast?_concat, Option.mem_some_iff] at hd
  rw [hd]

theorem look_after_snoc (cfg : MonitorConfig) (cycles : List (ℚ × SketchReport σ φ))
    (c : ℚ × SketchReport σ φ) (switchId : σ) (f : φ) :
    look (after cfg (cycles ++ [c])) switchId f =
      (look (updateAllFlows cfg (after cfg cycles) c.2 c.1) switchId f).map
        (FlowStatus.filtered cfg c.1) := by
  rw [after_snoc, cycle, look_filterFlows (keyed_updateAllFlows (keyed_after cycles) c.2 c.1)]

/-- The statuses that `filter_flows` reads have the reported sizes, and are active as long as the
last report is recent. -/
theorem updated_of_some (hcfg : cfg.Sensible)
    (hsorted : (cycles ++ [c]).Pairwise fun c c' => c.1 ≤ c'.1) {f : φ} {s : FlowStatus}
    (hs : look (updateAllFlows cfg (after cfg cycles) c.2 c.1) switchId f = some s) :
    s.flowSize = sizes (cycles ++ [c]) switchId f ∧
      (s.active = true ↔ Recent cfg (cycles ++ [c]) c.1 switchId f) := by
  have hk := known_last hcfg hsorted switchId f
  rw [look_after_snoc, hs, Option.map_some] at hk
  obtain ⟨hactive, hsize⟩ : (s.filtered cfg c.1).active = s.active ∧
      (s.filtered cfg c.1).flowSize = s.flowSize := filtered_keeps s c.1
  cases hk with
  | seen _ h =>
    refine ⟨hsize.symm.trans h.flowSize, ?_⟩
    rw [← hactive, h.active, Recent, h.last]
    simp only [Option.some_inj, exists_eq_left']

theorem not_recent_of_none (hcfg : cfg.Sensible)
    (hsorted : (cycles ++ [c]).Pairwise fun c c' => c.1 ≤ c'.1) {f : φ}
    (hf : look (updateAllFlows cfg (after cfg cycles) c.2 c.1) switchId f = none) :
    ¬ Recent cfg (cycles ++ [c]) c.1 switchId f := by
  rintro ⟨last, hlast, -⟩
  have hk := known_last hcfg hsorted switchId f
  rw [look_after_snoc, hf, Option.map_none] at hk
  cases hk with
  | unseen _ hseen =>
    rw [hseen, List.getLast?_nil] at hlast
    cases hlast

/-- The type that `filter_flows` finds is the one of the history. -/
theorem exists_flowType_iff (switchId : σ) (f : φ) (hcfg : cfg.Sensible)
    (hsorted : (cycles ++ [c]).Pairwise fun c c' => c.1 ≤ c'.1) (t : FlowType)
    (P : List Int → Prop) :
    (∃ s, look (updateAllFlows cfg (after cfg cycles) c.2 c.1) switchId f = some s ∧
      flowType cfg s = some t ∧ P s.flowSize) ↔
    Recent cfg (cycles ++ [c]) c.1 switchId f ∧
      typeOf cfg (sizes (cycles ++ [c]) switchId f) = t ∧ P (sizes (cycles ++ [c]) switchId f) := by
  constructor
  · rintro ⟨s, hs, ht, hP⟩
    obtain ⟨hsize, hactive⟩ := updated_of_some hcfg hsorted hs
    rw [flowType_eq_some_iff, hactive, hsize] at ht
    exact ⟨ht.1, ht.2, hsize ▸ hP⟩
  · rintro ⟨hrecent, ht, hP⟩
    cases hf : look (updateAllFlows cfg (after cfg cycles) c.2 c.1) switchId f with
    | none => exact absurd hrecent (not_recent_of_none hcfg hsorted hf)
    | some s =>
      obtain ⟨hsize, hactive⟩ := updated_of_some hcfg hsorted hf
      exact ⟨s, rfl, flowType_eq_some_iff.mpr ⟨hactive.mpr hrecent, hsize ▸ ht⟩, hsize ▸ hP⟩

/-- After any reports in the order of time, a flow is in a list of its switch if it was reported
not too long ago, and in which one is said by the sizes that were reported; `potential_stop` has
its first value in every status. -/
theorem classified_by_history (hcfg : cfg.Sensible)
    (hsorted : (cycles ++ [c]).Pairwise fun c c' => c.1 ≤ c'.1) (switchId : σ) :
    let history := cycles ++ [c]
    let u := uploadOf (cycle cfg (after cfg cycles) c.1 c.2).1 switchId
    (∀ f, f ∈ u.large ↔ Recent cfg history c.1 switchId f ∧
      typeOf cfg (sizes history switchId f) = .large) ∧
    (∀ e, e ∈ u.potentialLarge ↔ Recent cfg history c.1 switchId e.1 ∧
      typeOf cfg (sizes history switchId e.1) = .potentialLarge ∧
      e.2 = (sizes history switchId e.1).sum) ∧
    (∀ f, f ∈ u.small ↔ Recent cfg history c.1 switchId f ∧
      typeOf cfg (sizes history switchId f) = .small) ∧
    (u.large.Nodup ∧ (keys u.potentialLarge).Nodup ∧ u.small.Nodup) ∧
    ∀ f, ∀ s ∈ look (after cfg history) switchId f, s.potentialStop = -1 := by
  intro history u
  have htype : ∀ f t,
      (∃ s, look (updateAllFlows cfg (after cfg cycles) c.2 c.1) switchId f = some s ∧
        flowType cfg s = some t) ↔
      Recent cfg history c.1 switchId f ∧ typeOf cfg (sizes history switchId f) = t := by
    intro f t
    have h := exists_flowType_iff switchId f hcfg hsorted t fun _ => True
    simpa only [and_true] using h
  obtain ⟨hlarge, hpotential, hsmall, hnodup⟩ :=
    mem_uploadOf (keyed_updateAllFlows (keyed_after cycles) c.2 c.1) c.1 switchId
  refine ⟨fun f => (hlarge f).trans (htype f _), fun e => (hpotential e).trans ?_,
    fun f => (hsmall f).trans (htype f _), hnodup, fun f s hs => ?_⟩
  · exact exists_flowType_iff switchId e.1 hcfg hsorted _ fun sizes => e.2 = sizes.sum
  · have hk := known_last hcfg hsorted switchId f
    rw [Option.mem_def.mp hs] at hk
    cases hk with
    | seen _ h => exact h.potentialStop

/-- A report with a large and a small flow, and one with the small flow only -/
def firstReport : SketchReport Nat Nat := ⟨[(7, [(1, 2000), (2, 5)])], by decide, by decide,
  by decide⟩
def secondReport : SketchReport Nat Nat := ⟨[(7, [(2, 5)])], by decide, by decide, by decide⟩

theorem classified_by_history_two :
    let u := uploadOf (cycle monitorConfig (after monitorConfig [((1 : ℚ), firstReport)]) 2
      secondReport).1 7
    1 ∉ u.large ∧ 2 ∈ u.small :=
  have hsorted : ([((1 : ℚ), firstReport)] ++ [((2 : ℚ), secondReport)]).Pairwise
      fun c c' => c.1 ≤ c'.1 := by simp
  have h := classified_by_history monitorConfig_sensible hsorted 7
  have hlong : ¬ (2 - 1 : ℚ) ≤ monitorConfig.tReset / 2 := by norm_num [monitorConfig]
  have hshort : (2 - 2 : ℚ) ≤ monitorConfig.tReset / 2 := by norm_num [monitorConfig]
  ⟨fun hmem => by
      obtain ⟨last, hlast, hle⟩ := ((h.1 1).mp hmem).1
      cases hlast
      exact hlong hle,
    (h.2.2.1 2).mpr ⟨⟨2, rfl, hshort⟩, by decide⟩⟩

end Paraleon.Tuning
