import Paraleon.Tuning.LogLines

/-!
# What can be read back from the log

A block that is read has the values that were logged, as long as none is overwritten: a count
that was observed has the name of the current one, and so has the ratio of small flows of the
previous distribution.

* `flowDistributionLine_eq`: the groups of the first line are items of one list.
* `parseBlock_call`: what is read of the block of a call.
* `log_roundTrip_iff`: the exact condition for all values of all calls.
-/

namespace Paraleon.Tuning.TunerLog

open Numerals Streams PyText

variable {fl : ℚ → Double} {beyond : Char → Bool} {text part rest begun : Text}

/-! ## The flow distribution line -/

/-- A group of items with its name: it becomes a part of the first key. -/
def named (name : Text) : List (Text × LogValue) → List (Text × LogValue)
  | [] => []
  | e :: items => (name ++ e.1, e.2) :: items

theorem append_joinComma {items : List (Text × LogValue)} (hne : items ≠ []) (name : Text) :
    name ++ joinComma (itemTexts items) = joinComma (itemTexts (named name items)) := by
  obtain ⟨e, items, rfl⟩ := List.exists_cons_of_ne_nil hne
  have hitem : name ++ item e.1 e.2 = item (name ++ e.1) e.2 := (List.append_assoc ..).symm
  rcases eq_or_ne (itemTexts items) [] with hnil | hne
  · rw [itemTexts, List.map_cons, named, itemTexts, List.map_cons, ← itemTexts, hnil,
      joinComma_singleton, joinComma_singleton, hitem]
  · rw [itemTexts, List.map_cons, named, itemTexts, List.map_cons, ← itemTexts,
      joinComma_cons hne, joinComma_cons hne, ← List.append_assoc, hitem]

theorem joinComma_flatten {groups : List (List Text)} (h : ∀ group ∈ groups, group ≠ []) :
    joinComma (groups.map joinComma) = joinComma groups.flatten := by
  have happend : ∀ {group parts : List Text}, group ≠ [] → parts ≠ [] →
      joinComma (group ++ parts) = joinComma group ++ ',' :: ' ' :: joinComma parts := by
    intro group parts hgroup hparts
    induction group with
    | nil => exact absurd rfl hgroup
    | cons part group ih =>
      rcases eq_or_ne group [] with rfl | hne
      · rw [List.singleton_append, joinComma_cons hparts, joinComma_singleton]
      · rw [List.cons_append, joinComma_cons (by simp [hne]), joinComma_cons hne, ih hne,
          List.append_assoc]
        rfl
  induction groups with
  | nil => rfl
  | cons group groups ih =>
    obtain ⟨hgroup, hrest⟩ := List.forall_mem_cons.mp h
    rcases eq_or_ne groups [] with rfl | hne
    · rw [List.map_singleton, joinComma_singleton, List.flatten_singleton]
    · have hflatten : groups.flatten ≠ [] := by
        obtain ⟨group', groups, rfl⟩ := List.exists_cons_of_ne_nil hne
        simp [hrest group' List.mem_cons_self]
      rw [List.map_cons, joinComma_cons (by simp [hne]), ih hrest, List.flatten_cons,
        happend hgroup hflatten]

/-- The items of the current distribution. -/
def currentItems (d : Distribution) : List (Text × LogValue) :=
  [("large".toList, .float (.finite d.large)), ("small".toList, .float (.finite d.small)),
    ("total".toList, .float d.total), ("large_ratio".toList, .float d.largeRatio),
    ("small_ratio".toList, .float d.smallRatio)]

def optionalItem (key : Text) (v : Option Value) : List (Text × LogValue) :=
  (v.map fun v => (key, ofValue v)).toList

/-- The items of `detail_parts`. -/
def detailItems (r : FlowRatio) : List (Text × LogValue) :=
  optionalItem "large".toList r.largeCount ++
    optionalItem "potential_large".toList r.potentialLarge ++
    optionalItem "small".toList r.smallCount ++
    optionalItem "potential_effective".toList r.potentialEffective

def observedItems (r : FlowRatio) : List (Text × LogValue) :=
  if r.largeCount.isSome || r.potentialLarge.isSome || r.smallCount.isSome then
    named "observed_distribution: ".toList (detailItems r) else []

def previousItems : Option Distribution → List (Text × LogValue)
  | some p => named "previous_distribution: ".toList
      [("large_ratio".toList, .float p.largeRatio), ("small_ratio".toList, .float p.smallRatio)]
  | none => []

/-- The items of the line. -/
def flowItems (r : FlowRatio) (d : Distribution) (previous : Option Distribution)
    (klDivergence : Option Value) : List (Text × LogValue) :=
  currentItems d ++ observedItems r ++ previousItems previous ++
    optionalItem "kl_divergence".toList klDivergence

theorem detailParts_eq (r : FlowRatio) : detailParts r = itemTexts (detailItems r) := by
  have hoption : ∀ (key : Text) (v : Option Value),
      (v.map fun v => item key (ofValue v)).toList = itemTexts (optionalItem key v) := by
    intro key v
    cases v <;> rfl
  rw [detailParts, hoption, hoption, hoption, hoption, detailItems, itemTexts_append,
    itemTexts_append, itemTexts_append]

theorem detailItems_ne_nil {r : FlowRatio}
    (h : (r.largeCount.isSome || r.potentialLarge.isSome || r.smallCount.isSome) = true) :
    detailItems r ≠ [] := by
  intro hnil
  simp only [detailItems, optionalItem, List.append_eq_nil_iff, Option.toList_eq_nil_iff,
    Option.map_eq_none_iff] at hnil
  obtain ⟨⟨⟨hlarge, hpotential⟩, hsmall⟩, -⟩ := hnil
  rw [hlarge, hpotential, hsmall] at h
  cases h

/-- What is written of a group: nothing if it is empty. -/
def groupTexts (items : List (Text × LogValue)) : List Text :=
  ([itemTexts items].filter (· ≠ [])).map joinComma

theorem groupTexts_of_ne_nil {items : List (Text × LogValue)} (h : items ≠ []) :
    groupTexts items = [joinComma (itemTexts items)] := by
  have hne : itemTexts items ≠ [] := fun hnil => h (List.map_eq_nil_iff.mp hnil)
  rw [groupTexts, List.filter_cons_of_pos (by simpa using hne)]
  rfl

theorem named_ne_nil {items : List (Text × LogValue)} (h : items ≠ []) (name : Text) :
    named name items ≠ [] := by
  obtain ⟨e, items, rfl⟩ := List.exists_cons_of_ne_nil h
  exact List.cons_ne_nil _ _

/-- A group that is written with its name. -/
theorem groupTexts_named {items : List (Text × LogValue)} (h : items ≠ []) (name : Text) :
    groupTexts (named name items) = [name ++ joinComma (itemTexts items)] := by
  rw [groupTexts_of_ne_nil (named_ne_nil h name), append_joinComma h]

/-- The groups that are put into the line. -/
theorem flowDistributionLine_groups (r : FlowRatio) (d : Distribution)
    (previous : Option Distribution) (klDivergence : Option Value) :
    flowDistributionLine r d previous klDivergence =
      joinComma (groupTexts (named "flow_distribution: ".toList (currentItems d)) ++
        groupTexts (observedItems r) ++ groupTexts (previousItems previous) ++
        groupTexts (optionalItem "kl_divergence".toList klDivergence)) := by
  have hcurrent : groupTexts (named "flow_distribution: ".toList (currentItems d)) =
      ["flow_distribution: ".toList ++ joinComma (itemTexts (currentItems d))] :=
    groupTexts_named (by rw [currentItems]; exact List.cons_ne_nil _ _) _
  have hobserved : groupTexts (observedItems r) =
      if r.largeCount.isSome || r.potentialLarge.isSome || r.smallCount.isSome then
        ["observed_distribution: ".toList ++ joinComma (detailParts r)] else [] := by
    rw [observedItems]
    split
    · next h => rw [groupTexts_named (detailItems_ne_nil h), detailParts_eq]
    · rfl
  have hprevious : ∀ p : Distribution, groupTexts (previousItems (some p)) =
      ["previous_distribution: ".toList ++ joinComma (itemTexts
        [("large_ratio".toList, .float p.largeRatio),
          ("small_ratio".toList, .float p.smallRatio)])] := fun p => by
    rw [previousItems, groupTexts_named (List.cons_ne_nil _ _)]
  have hdivergence : ∀ (key : Text) (v : Value), groupTexts (optionalItem key (some v)) =
      [item key (ofValue v)] := fun key v => by
    have hne : optionalItem key (some v) ≠ [] := List.cons_ne_nil _ _
    rw [groupTexts_of_ne_nil hne]
    exact congrArg (fun t : Text => [t]) (joinComma_singleton _)
  rw [hcurrent, hobserved]
  unfold flowDistributionLine
  cases previous with
  | none =>
    cases klDivergence with
    | none => rfl
    | some v =>
      rw [hdivergence]
      rfl
  | some p =>
    rw [hprevious]
    cases klDivergence with
    | none => rfl
    | some v =>
      rw [hdivergence]
      rfl

/-- The line is a name and items. -/
theorem flowDistributionLine_eq (r : FlowRatio) (d : Distribution)
    (previous : Option Distribution) (klDivergence : Option Value) :
    flowDistributionLine r d previous klDivergence = detail "flow_distribution".toList
      (joinComma (itemTexts (flowItems r d previous klDivergence))) := by
  have hjoin : ∀ a b c e : List (Text × LogValue),
      joinComma (groupTexts a ++ groupTexts b ++ groupTexts c ++ groupTexts e) =
        joinComma (itemTexts (a ++ b ++ c ++ e)) := by
    intro a b c e
    have hgroups : ∀ group ∈ [itemTexts a, itemTexts b, itemTexts c, itemTexts e].filter (· ≠ []),
        group ≠ [] := fun group hgroup => of_decide_eq_true (List.mem_filter.mp hgroup).2
    have hflatten := joinComma_flatten hgroups
    rw [List.flatten_filter_ne_nil] at hflatten
    rw [groupTexts, groupTexts, groupTexts, groupTexts, ← List.map_append, ← List.filter_append,
      ← List.map_append, ← List.filter_append, ← List.map_append, ← List.filter_append]
    simpa [itemTexts_append] using hflatten
  have hlabel : "flow_distribution: ".toList = "flow_distribution".toList ++ [':', ' '] := by
    decide
  have hne : flowItems r d previous klDivergence ≠ [] := by
    rw [flowItems, currentItems]
    exact List.cons_ne_nil _ _
  rw [flowDistributionLine_groups, hjoin, ← detail_of_label hlabel, append_joinComma hne]
  rfl

/-- A small count behind another count is written under the name of the current one. -/
def overwriting (r : FlowRatio) : Option Value :=
  if r.largeCount.isSome || r.potentialLarge.isSome then r.smallCount else none

theorem lastItem_observed (r : FlowRatio) :
    lastItem "small".toList (observedItems r) = (overwriting r).map ofValue := by
  obtain ⟨large, small, largeCount, potentialLarge, smallCount, potentialEffective⟩ := r
  cases largeCount <;> cases potentialLarge <;> cases smallCount <;>
    cases potentialEffective <;> rfl

theorem lastItem_observed_other (r : FlowRatio) {key : Text}
    (hkey : key ∈ ["large".toList, "total".toList, "large_ratio".toList, "small_ratio".toList]) :
    lastItem key (observedItems r) = none := by
  obtain ⟨large, small, largeCount, potentialLarge, smallCount, potentialEffective⟩ := r
  simp only [List.mem_cons, List.not_mem_nil, or_false] at hkey
  rcases hkey with rfl | rfl | rfl | rfl <;>
  cases largeCount <;> cases potentialLarge <;> cases smallCount <;>
    cases potentialEffective <;> rfl

theorem lastItem_previous (previous : Option Distribution) (d : Distribution) :
    (lastItem "small_ratio".toList (previousItems previous)).or (some (.float d.smallRatio)) =
      some (.float (previous.getD d).smallRatio) := by
  cases previous <;> rfl

theorem lastItem_previous_other (previous : Option Distribution) {key : Text}
    (hkey : key ∈ ["large".toList, "small".toList, "total".toList, "large_ratio".toList]) :
    lastItem key (previousItems previous) = none := by
  simp only [List.mem_cons, List.not_mem_nil, or_false] at hkey
  rcases hkey with rfl | rfl | rfl | rfl <;> cases previous <;> rfl

theorem lastItem_optional {key key' : Text} (h : key' ≠ key) (v : Option Value) :
    lastItem key (optionalItem key' v) = none := by
  cases v with
  | none => rfl
  | some v => exact lastItem_eq_none (List.forall_mem_singleton.mpr h)

section Flow

variable (r : FlowRatio) (d : Distribution) (previous : Option Distribution)
  (klDivergence : Option Value)

/-- The values of the current distribution that nothing has the name of. -/
theorem lastItem_flow {e : Text × LogValue} (he : e ∈ currentItems d)
    (hkey : e.1 ∈ ["large".toList, "total".toList, "large_ratio".toList]) :
    lastItem e.1 (flowItems r d previous klDivergence) = some e.2 := by
  have hnodup : ((currentItems d).map Prod.fst).Nodup := by
    have hkeys : (currentItems d).map Prod.fst = ["large".toList, "small".toList,
      "total".toList, "large_ratio".toList, "small_ratio".toList] := rfl
    rw [hkeys]
    decide
  have hsmall : e.1 ∈ ["large".toList, "small".toList, "total".toList, "large_ratio".toList] ∧
      e.1 ∈ ["large".toList, "total".toList, "large_ratio".toList, "small_ratio".toList] ∧
      "kl_divergence".toList ≠ e.1 := by
    have hkeys : ∀ key ∈ ["large".toList, "total".toList, "large_ratio".toList],
        key ∈ ["large".toList, "small".toList, "total".toList, "large_ratio".toList] ∧
        key ∈ ["large".toList, "total".toList, "large_ratio".toList, "small_ratio".toList] ∧
        "kl_divergence".toList ≠ key := by decide
    exact hkeys e.1 hkey
  rw [flowItems, lastItem_append, lastItem_append, lastItem_append,
    lastItem_optional hsmall.2.2, lastItem_previous_other _ hsmall.1,
    lastItem_observed_other _ hsmall.2.1, lastItem_of_nodup hnodup he]
  rfl

theorem lastItem_flow_small : lastItem "small".toList (flowItems r d previous klDivergence) =
    some (((overwriting r).map ofValue).getD (.float (.finite d.small))) := by
  have hcurrent : lastItem "small".toList (currentItems d) = some (.float (.finite d.small)) := rfl
  rw [flowItems, lastItem_append, lastItem_append, lastItem_append,
    lastItem_optional (by decide), lastItem_previous_other _ (by decide), lastItem_observed,
    hcurrent]
  cases overwriting r <;> rfl

theorem lastItem_flow_smallRatio :
    lastItem "small_ratio".toList (flowItems r d previous klDivergence) =
      some (.float (previous.getD d).smallRatio) := by
  have hcurrent : lastItem "small_ratio".toList (currentItems d) = some (.float d.smallRatio) := rfl
  rw [flowItems, lastItem_append, lastItem_append, lastItem_append,
    lastItem_optional (by decide), lastItem_observed_other _ (by decide), hcurrent,
    Option.none_or, Option.none_or, lastItem_previous]

theorem items_optional {key : Text} (hkey : isKey key = true) (v : Option Value) :
    Items fl (optionalItem key v) := by
  cases v with
  | none => exact nofun
  | some v => exact List.forall_mem_singleton.mpr ⟨key_of_isKey hkey, valued_ofValue v⟩

theorem Items.append {items items' : List (Text × LogValue)} (h : Items fl items)
    (h' : Items fl items') : Items fl (items ++ items') := fun e he =>
  (List.mem_append.mp he).elim (h e) (h' e)

theorem items_named {name : Text} {items : List (Text × LogValue)} (h : Items fl items)
    (hname : ∀ e ∈ items, isKey (name ++ e.1) = true) : Items fl (named name items) := by
  cases items with
  | nil => exact nofun
  | cons e items =>
    obtain ⟨⟨-, hv⟩, hrest⟩ := List.forall_mem_cons.mp h
    exact List.forall_mem_cons.mpr ⟨⟨key_of_isKey (hname e List.mem_cons_self), hv⟩, hrest⟩

theorem items_flow : Items fl (flowItems r d previous klDivergence) := by
  have hcurrent : Items fl (currentItems d) := by
    have hkeys : (currentItems d).map Prod.fst = ["large".toList, "small".toList, "total".toList,
      "large_ratio".toList, "small_ratio".toList] := rfl
    refine items_of_keys hkeys (by decide) fun e he => ?_
    simp only [currentItems, List.mem_cons, List.not_mem_nil, or_false] at he
    rcases he with rfl | rfl | rfl | rfl | rfl <;> exact valued_float _
  have hdetail : Items fl (detailItems r) :=
    (((items_optional (by decide) _).append (items_optional (by decide) _)).append
      (items_optional (by decide) _)).append (items_optional (by decide) _)
  have hkeys : ∀ e ∈ detailItems r, isKey ("observed_distribution: ".toList ++ e.1) = true := by
    have hoption : ∀ {key : Text} {v : Option Value}, ∀ e ∈ optionalItem key v, e.1 = key := by
      intro key v e he
      cases v with
      | none => cases he
      | some v => rw [List.mem_singleton.mp he]
    intro e he
    simp only [detailItems, List.mem_append] at he
    rcases he with ((he | he) | he) | he <;> rw [hoption e he] <;> decide
  have hobserved : Items fl (observedItems r) := by
    rw [observedItems]
    split
    · exact items_named hdetail hkeys
    · exact nofun
  have hprevious : Items fl (previousItems previous) := by
    cases previous with
    | none => exact nofun
    | some p =>
      have hkeys : (previousItems (some p)).map Prod.fst =
        ["previous_distribution: large_ratio".toList, "small_ratio".toList] := rfl
      refine items_of_keys hkeys (by decide) ?_
      exact List.forall_mem_cons.mpr
        ⟨valued_float _, List.forall_mem_singleton.mpr (valued_float _)⟩
  exact ((hcurrent.append hobserved).append hprevious).append (items_optional (by decide) _)

end Flow

/-! ## A block -/

def parameterItems (v : ParameterValues) : List (Text × LogValue) :=
  parameterNames.map fun name => (name.text, ofValue (v name))

def tuningItems : Option TuningInfo → List (Text × LogValue)
  | none => [(TuningKey.state.label, idle)]
  | some info => tuningFields info

theorem formatParameterLine_eq (v : ParameterValues) : formatParameterLine v =
    detail "parameters".toList (joinComma (itemTexts (parameterItems v))) := by
  have hlabel : "parameters: ".toList = "parameters".toList ++ [':', ' '] := by decide
  have hparts : (parameterNames.map fun name => item name.text (ofValue (v name))) =
      itemTexts (parameterItems v) := by
    rw [itemTexts, parameterItems, List.map_map]
    rfl
  rw [← hparts, ← detail_of_label hlabel]
  unfold formatParameterLine
  rfl

theorem formatTuningLine_eq (info : Option TuningInfo) : formatTuningLine info =
    detail "tuning".toList (joinComma (itemTexts (tuningItems info))) := by
  have hlabel : "tuning: ".toList = "tuning".toList ++ [':', ' '] := by decide
  rw [← detail_of_label hlabel]
  cases info with
  | none =>
    rw [tuningItems, itemTexts, List.map_singleton, joinComma_singleton]
    unfold formatTuningLine
    rfl
  | some info =>
    unfold formatTuningLine
    rfl

theorem formatUtilityLine_eq (u : UtilityBreakdown) : formatUtilityLine u =
    detail "utility".toList (joinComma (utilityParts u)) :=
  detail_of_label (by decide) _

theorem items_parameters (v : ParameterValues) : Items fl (parameterItems v) := by
  intro e he
  obtain ⟨name, -, rfl⟩ := List.mem_map.mp he
  have hkeys : ∀ name ∈ parameterNames, isKey name.text = true := by decide
  exact ⟨key_of_isKey (hkeys name name.mem_parameterNames), valued_ofValue _⟩

theorem nodup_parameterItems (v : ParameterValues) : ((parameterItems v).map Prod.fst).Nodup := by
  rw [parameterItems, List.map_map]
  exact nodup_parameterNames.map Name.text_injective

theorem nodup_utilityItems (u : UtilityBreakdown) : ((utilityItems u).map Prod.fst).Nodup := by
  have hkeys : (utilityItems u).map Prod.fst = ["throughput_norm".toList, "throughput_raw".toList,
    "throughput_weighted".toList, "rtt_norm".toList, "rtt_raw".toList, "rtt_weighted".toList,
    "pfc_norm".toList, "pfc_raw".toList, "pfc_weighted".toList, "total".toList] := rfl
  rw [hkeys]
  decide

theorem nodup_tuningItems (info : Option TuningInfo) :
    ((tuningItems info).map Prod.fst).Nodup := by
  cases info with
  | none => exact List.nodup_singleton _
  | some info =>
    have hsublist : ∀ keys : List TuningKey,
        ((keys.filterMap fun key => (info key).map fun v => (key.label, v)).map Prod.fst).Sublist
          (keys.map TuningKey.label) := by
      intro keys
      induction keys with
      | nil => exact List.Sublist.slnil
      | cons key keys ih =>
        cases h : info key with
        | none =>
          rw [List.filterMap_cons_none (by rw [h]; rfl)]
          exact ih.cons _
        | some v =>
          rw [List.filterMap_cons_some (by rw [h]; rfl)]
          exact ih.cons_cons _
    rw [tuningItems, tuningFields]
    split
    · exact List.nodup_singleton _
    · exact (hsublist orderedFields).nodup (by decide)

/-- The strings of the tuning line can be read. -/
def PlainStrings (fl : ℚ → Double) (info : Option TuningInfo) : Prop :=
  ∀ e ∈ tuningItems info, Valued fl e.2

theorem label_of_mem {info : Option TuningInfo} {e : Text × LogValue}
    (he : e ∈ tuningItems info) : ∃ key : TuningKey, e.1 = key.label := by
  cases info with
  | none => exact ⟨.state, by rw [List.mem_singleton.mp he]⟩
  | some info =>
    rw [tuningItems, tuningFields] at he
    split at he
    · exact ⟨.state, by rw [List.mem_singleton.mp he]⟩
    · obtain ⟨key, -, hkey⟩ := List.mem_filterMap.mp he
      obtain ⟨v, -, rfl⟩ := Option.map_eq_some_iff.mp hkey
      exact ⟨key, rfl⟩

theorem items_tuning {info : Option TuningInfo} (h : PlainStrings fl info) :
    Items fl (tuningItems info) := by
  intro e he
  obtain ⟨key, hkey⟩ := label_of_mem he
  refine ⟨?_, h e he⟩
  rw [hkey]
  cases key <;> exact key_of_isKey (by decide)

theorem tuningItems_ne_nil (info : Option TuningInfo) : tuningItems info ≠ [] := by
  cases info with
  | none => exact List.cons_ne_nil _ _
  | some info =>
    rw [tuningItems, tuningFields]
    split
    · exact List.cons_ne_nil _ _
    · next h => exact h

/-- The block that is read of a call. -/
def readBlock (fl : ℚ → Double) (c : Call) (d : Distribution) (previous : Option Distribution) :
    Block :=
  ((((Dict.set [("sim_time".toList, .scalar (shown fl (ofValue c.simTime)))]
    "flow_distribution".toList
      (.dict (readItems fl (flowItems c.flowRatio d previous c.klDivergence)))).set
    "utility".toList (.dict (readItems fl (utilityItems c.utilityBreakdown)))).set
    "parameters".toList (.dict (readItems fl (parameterItems c.parameterValues)))).set
    "tuning".toList (.dict (readItems fl (tuningItems c.tuningInfo))))

/-- The text of a block. -/
def bodyText (c : Call) (d : Distribution) (previous : Option Distribution) : Text :=
  List.intercalate ['\n'] (blockLines c.simTime
    [flowDistributionLine c.flowRatio d previous c.klDivergence,
      formatUtilityLine c.utilityBreakdown, formatParameterLine c.parameterValues,
      formatTuningLine c.tuningInfo])

variable {c : Call} {d : Distribution} {previous : Option Distribution}

theorem line_simTime (v : Value) : Line (item "sim_time".toList (ofValue v)) := by
  have hkey : Key "sim_time".toList := key_of_isKey (by decide)
  have hvalued : Valued (fun _ => .nan) (ofValue v) := valued_ofValue v
  have hpart := part_item hkey hvalued
  exact ⟨hpart.stripped, hpart.ne_nil, unbroken_item hkey hvalued⟩

/-- A line of items sets its name to what they say. -/
theorem setLine_items {name : Text} (hname : isKey name = true)
    (hcolon : (name.all fun c => c ≠ ':') = true) (hutility : name ≠ "utility".toList)
    {items : List (Text × LogValue)} (hne : items ≠ []) (h : Items fl items) (block : Block) :
    setLine fl beyond block ('\t' :: detail name (joinComma (itemTexts items))) =
      block.set name (.dict (readItems fl items)) := by
  have hline : Line (joinComma (itemTexts items)) := line_items hne h
  have hkey : Key name := key_of_isKey hname
  rw [setLine_detail (List.all_iff_forall_prop.mp hcolon) hline.stripped
    (.detail hkey hkey.unbroken hline), if_neg hutility, parseKeyValueLine_items hne h]

theorem setLine_utility (u : UtilityBreakdown) (block : Block) :
    setLine fl beyond block ('\t' :: detail "utility".toList (joinComma (utilityParts u))) =
      block.set "utility".toList (.dict (readItems fl (utilityItems u))) := by
  have hline : Line (joinComma (utilityParts u)) := line_utility beyond u
  have hkey : Key "utility".toList := key_of_isKey (by decide)
  have hcolon : ∀ c ∈ "utility".toList, c ≠ ':' := List.all_iff_forall_prop.mp (by decide)
  rw [setLine_detail hcolon hline.stripped (.detail hkey hkey.unbroken hline), if_pos rfl,
    parseUtilityLine_items]

theorem flowItems_ne_nil : flowItems c.flowRatio d previous c.klDivergence ≠ [] := by
  rw [flowItems, currentItems]
  exact List.cons_ne_nil _ _

theorem parameterItems_ne_nil (v : ParameterValues) : parameterItems v ≠ [] := fun hnil =>
  absurd (List.map_eq_nil_iff.mp hnil) (by decide)

theorem detailLines_eq (c : Call) (d : Distribution) (previous : Option Distribution) :
    [flowDistributionLine c.flowRatio d previous c.klDivergence,
      formatUtilityLine c.utilityBreakdown, formatParameterLine c.parameterValues,
      formatTuningLine c.tuningInfo] =
    [detail "flow_distribution".toList
        (joinComma (itemTexts (flowItems c.flowRatio d previous c.klDivergence))),
      detail "utility".toList (joinComma (utilityParts c.utilityBreakdown)),
      detail "parameters".toList (joinComma (itemTexts (parameterItems c.parameterValues))),
      detail "tuning".toList (joinComma (itemTexts (tuningItems c.tuningInfo)))] := by
  rw [flowDistributionLine_eq, formatUtilityLine_eq, formatParameterLine_eq, formatTuningLine_eq]

theorem lines_call (h : PlainStrings fl c.tuningInfo) :
    ∀ line ∈ [detail "flow_distribution".toList
        (joinComma (itemTexts (flowItems c.flowRatio d previous c.klDivergence))),
      detail "utility".toList (joinComma (utilityParts c.utilityBreakdown)),
      detail "parameters".toList (joinComma (itemTexts (parameterItems c.parameterValues))),
      detail "tuning".toList (joinComma (itemTexts (tuningItems c.tuningInfo)))], Line line := by
  have hdetail : ∀ {name content : Text}, isKey name = true → Line content →
      Line (detail name content) := fun hname hcontent =>
    .detail (key_of_isKey hname) (key_of_isKey hname).unbroken hcontent
  have hflow : Items fl (flowItems c.flowRatio d previous c.klDivergence) := items_flow _ _ _ _
  have hutility := line_utility (fun _ => false) c.utilityBreakdown
  have hparameters : Items fl (parameterItems c.parameterValues) := items_parameters _
  have htuning := line_items (tuningItems_ne_nil _) (items_tuning h)
  exact List.forall_mem_cons.mpr ⟨hdetail (by decide) (line_items flowItems_ne_nil hflow),
    List.forall_mem_cons.mpr ⟨hdetail (by decide) hutility,
      List.forall_mem_cons.mpr
        ⟨hdetail (by decide) (line_items (parameterItems_ne_nil _) hparameters),
          List.forall_mem_singleton.mpr (hdetail (by decide) htuning)⟩⟩⟩

/-- A call whose strings can be read is read back, the later of two values of a name. -/
theorem parseBlock_call (h : PlainStrings fl c.tuningInfo) :
    parseBlock fl beyond (bodyText c d previous) = some (readBlock fl c d previous) := by
  have hflow : Items fl (flowItems c.flowRatio d previous c.klDivergence) := items_flow _ _ _ _
  have hparameters : Items fl (parameterItems c.parameterValues) := items_parameters _
  have htuning := items_tuning h
  have hcut : cut '=' (item "sim_time".toList (ofValue c.simTime)) =
      some ("sim_time".toList, formatLogValue (ofValue c.simTime)) :=
    cut_append (List.all_iff_forall_prop.mp (by decide)) _
  have hstrip : PyText.strip "sim_time".toList = "sim_time".toList := by decide
  rw [bodyText, blockLines, detailLines_eq, parseBlock_lines (line_simTime _) (lines_call h), hcut,
    Option.map_some]
  refine congrArg some ?_
  dsimp only
  rw [hstrip, parseScalar_format (valued_ofValue c.simTime).readable, List.map_cons, List.map_cons,
    List.map_cons, List.map_singleton, List.foldl_cons, List.foldl_cons, List.foldl_cons,
    List.foldl_cons, List.foldl_nil,
    setLine_items (by decide) (by decide) (by decide) flowItems_ne_nil hflow, setLine_utility,
    setLine_items (by decide) (by decide) (by decide) (parameterItems_ne_nil _) hparameters,
    setLine_items (by decide) (by decide) (by decide) (tuningItems_ne_nil _) htuning, readBlock]

/-! ## What is found again -/

/-- What is read of a value is the value, up to rounding to six digits. -/
def Logged (fl : ℚ → Double) : LogValue → Scalar → Prop
  | .float (.finite x), s =>
    s = .float (fl (fixedValue 6 x)) ∨ ∃ z : Int, s = .int z ∧ (z : ℚ) = fixedValue 6 x
  | .float d, s => s = .float d
  | .bool b, s => s = .bool b
  | .int n, s => s = .int n
  | .str t, s => s = .str t

def Finite (d : Double) : Prop := ∃ x, d = .finite x

variable {x y : ℚ} {v : LogValue}

theorem cast_shown (h : fixedUnits 6 x % 10 ^ 6 = 0) :
    (((if x < 0 then -((fixedUnits 6 x / 10 ^ 6 : Nat) : Int) else
      (fixedUnits 6 x / 10 ^ 6 : Nat) : Int)) : ℚ) = fixedValue 6 x := by
  have hdiv : ((fixedUnits 6 x / 10 ^ 6 : Nat) : ℚ) = fixedUnits 6 x / 10 ^ 6 := by
    obtain ⟨k, hk⟩ := Nat.dvd_of_mod_eq_zero h
    rw [hk, Nat.mul_div_cancel_left k (by decide), Nat.cast_mul]
    norm_num
  rw [fixedValue, ← hdiv]
  split
  · rw [Int.cast_neg, Int.cast_natCast, neg_one_mul]
  · rw [Int.cast_natCast, one_mul]

/-- What is read of another number than the logged one. -/
theorem logged_shown_float_iff : Logged fl (.float (.finite x)) (shown fl (.float (.finite y))) ↔
    if fixedUnits 6 y % 10 ^ 6 = 0 then fixedValue 6 y = fixedValue 6 x
    else fl (fixedValue 6 y) = fl (fixedValue 6 x) := by
  rw [shown]
  split
  · next hwhole =>
    constructor
    · rintro (heq | ⟨z, hz, heq⟩)
      · cases heq
      · rw [← heq, ← Scalar.int.inj hz, cast_shown hwhole]
    · intro heq
      exact .inr ⟨_, rfl, (cast_shown hwhole).trans heq⟩
  · constructor
    · rintro (heq | ⟨z, hz, -⟩)
      · exact Scalar.float.inj heq
      · cases hz
    · intro heq
      exact .inl (congrArg Scalar.float heq)

theorem logged_shown_int_iff {n : Int} :
    Logged fl (.float (.finite x)) (shown fl (.int n)) ↔ (n : ℚ) = fixedValue 6 x := by
  constructor
  · rintro (heq | ⟨z, hz, heq⟩)
    · cases heq
    · rw [Scalar.int.inj hz, heq]
  · intro heq
    exact .inr ⟨n, rfl, heq⟩

theorem logged_shown (h : ∀ d, v = .float d → Finite d) : Logged fl v (shown fl v) := by
  match v, h with
  | .bool b, _ => rfl
  | .int n, _ => rfl
  | .str s, _ => rfl
  | .float d, h =>
    obtain ⟨x, rfl⟩ := h d rfl
    rw [logged_shown_float_iff]
    split <;> rfl

theorem logged_shown_ofValue (v : Value) : Logged fl (ofValue v) (shown fl (ofValue v)) := by
  refine logged_shown fun d hd => ?_
  cases v with
  | int n => cases hd
  | float x => exact ⟨x, (LogValue.float.inj hd).symm⟩

/-- What is no number is not read as that. -/
theorem finite_of_logged {d : Double} (h : Logged fl (.float d) (shown fl (.float d))) :
    Finite d := by
  cases d with
  | finite x => exact ⟨x, rfl⟩
  | inf negative => cases h
  | nan => cases h

/-- A dictionary of a block with all that was logged. -/
def HasGroup (fl : ℚ → Double) (block : Block) (name : Text) (items : List (Text × LogValue)) :
    Prop :=
  ∃ d, block.get name = some (.dict d) ∧ ∀ e ∈ items, ∃ s, d.get e.1 = some s ∧ Logged fl e.2 s

/-- A block with every value of a call under its own name. -/
structure Found (fl : ℚ → Double) (c : Call) (block : Block) : Prop where
  simTime : ∃ s, block.get "sim_time".toList = some (.scalar s) ∧ Logged fl (ofValue c.simTime) s
  flow : ∃ d, distribution fl c.flowRatio = some d ∧
    HasGroup fl block "flow_distribution".toList (currentItems d)
  utility : HasGroup fl block "utility".toList (utilityItems c.utilityBreakdown)
  parameters : HasGroup fl block "parameters".toList (parameterItems c.parameterValues)
  tuning : HasGroup fl block "tuning".toList (tuningItems c.tuningInfo)

/-- The log of some calls has a block for each, in order, with what was logged. -/
def RoundTrip (fl : ℚ → Double) (beyond : Char → Bool) (calls : List Call) : Prop :=
  ∃ log, logText fl calls = some log ∧
    List.Forall₂ (Found fl) calls ((loadTuningBlocks fl beyond log).getD [])

/-- A call that returns, with finite numbers and without separators in its strings. -/
structure Valid (fl : ℚ → Double) (c : Call) : Prop where
  returns : (logCycleSummary fl c).isSome = true
  finite : ∀ info key d, c.tuningInfo = some info → info key = some (.float d) → Finite d
  simple : ∀ info key s, c.tuningInfo = some info → info key = some (.str s) → Simple s

/-- Nothing is written over the current distribution, or only what is the same up to rounding. -/
structure ClearFlow (fl : ℚ → Double) (r : FlowRatio) (d : Distribution)
    (previous : Option Distribution) : Prop where
  total : Finite d.total
  largeRatio : Finite d.largeRatio
  smallRatio : previous = none → Finite d.smallRatio
  small : ∀ v, overwriting r = some v →
    Logged fl (.float (.finite d.small)) (shown fl (ofValue v))
  ratio : ∀ p, previous = some p →
    Logged fl (.float d.smallRatio) (shown fl (.float p.smallRatio))

/-- The calls that are found again. -/
structure Clear (fl : ℚ → Double) (c : Call) : Prop where
  flow : ∀ d previous, distribution fl c.flowRatio = some d →
    previousDistribution fl c.previousFlowRatio = some previous →
    ClearFlow fl c.flowRatio d previous
  strings : ∀ info key s, c.tuningInfo = some info → info key = some (.str s) → Plain fl s

/-! ## The round trip -/

variable {calls : List Call} {block : Block}

theorem hasGroup_iff {name : Text} {items items' : List (Text × LogValue)}
    (h : block.get name = some (.dict (readItems fl items'))) : HasGroup fl block name items ↔
      ∀ e ∈ items, ∃ v, lastItem e.1 items' = some v ∧ Logged fl e.2 (shown fl v) := by
  constructor
  · rintro ⟨d, hd, hitems⟩ e he
    rw [h] at hd
    cases hd
    obtain ⟨s, hs, hlogged⟩ := hitems e he
    rw [get_readItems] at hs
    obtain ⟨v, hv, rfl⟩ := Option.map_eq_some_iff.mp hs
    exact ⟨v, hv, hlogged⟩
  · intro hitems
    refine ⟨_, h, fun e he => ?_⟩
    obtain ⟨v, hv, hlogged⟩ := hitems e he
    exact ⟨_, by rw [get_readItems, hv, Option.map_some], hlogged⟩

/-- Names that are all different hide nothing. -/
theorem hasGroup_of_nodup {name : Text} {items : List (Text × LogValue)}
    (h : block.get name = some (.dict (readItems fl items))) (hnodup : (items.map Prod.fst).Nodup)
    (hitems : ∀ e ∈ items, Logged fl e.2 (shown fl e.2)) : HasGroup fl block name items :=
  (hasGroup_iff h).mpr fun e he => ⟨e.2, lastItem_of_nodup hnodup he, hitems e he⟩

theorem get_readBlock (fl : ℚ → Double) (c : Call) (d : Distribution)
    (previous : Option Distribution) :
    (readBlock fl c d previous).get "sim_time".toList =
        some (.scalar (shown fl (ofValue c.simTime))) ∧
      (readBlock fl c d previous).get "flow_distribution".toList =
        some (.dict (readItems fl (flowItems c.flowRatio d previous c.klDivergence))) ∧
      (readBlock fl c d previous).get "utility".toList =
        some (.dict (readItems fl (utilityItems c.utilityBreakdown))) ∧
      (readBlock fl c d previous).get "parameters".toList =
        some (.dict (readItems fl (parameterItems c.parameterValues))) ∧
      (readBlock fl c d previous).get "tuning".toList =
        some (.dict (readItems fl (tuningItems c.tuningInfo))) := by
  have hne : "tuning".toList ≠ "sim_time".toList ∧ "parameters".toList ≠ "sim_time".toList ∧
      "utility".toList ≠ "sim_time".toList ∧ "flow_distribution".toList ≠ "sim_time".toList ∧
      "tuning".toList ≠ "flow_distribution".toList ∧
      "parameters".toList ≠ "flow_distribution".toList ∧
      "utility".toList ≠ "flow_distribution".toList ∧ "tuning".toList ≠ "utility".toList ∧
      "parameters".toList ≠ "utility".toList ∧ "tuning".toList ≠ "parameters".toList := by decide
  obtain ⟨h₁, h₂, h₃, h₄, h₅, h₆, h₇, h₈, h₉, h₁₀⟩ := hne
  refine ⟨?_, ?_, ?_, ?_, ?_⟩
  · rw [readBlock, Dict.get_set, if_neg h₁, Dict.get_set, if_neg h₂, Dict.get_set, if_neg h₃,
      Dict.get_set, if_neg h₄]
    rfl
  · rw [readBlock, Dict.get_set, if_neg h₅, Dict.get_set, if_neg h₆, Dict.get_set, if_neg h₇,
      Dict.get_set, if_pos rfl]
  · rw [readBlock, Dict.get_set, if_neg h₈, Dict.get_set, if_neg h₉, Dict.get_set, if_pos rfl]
  · rw [readBlock, Dict.get_set, if_neg h₁₀, Dict.get_set, if_pos rfl]
  · rw [readBlock, Dict.get_set, if_pos rfl]

/-- The current distribution is found if what is written over it is the same. -/
theorem hasGroup_flow_iff (h : block.get "flow_distribution".toList =
      some (.dict (readItems fl (flowItems c.flowRatio d previous c.klDivergence)))) :
    HasGroup fl block "flow_distribution".toList (currentItems d) ↔
      ClearFlow fl c.flowRatio d previous := by
  have hfound : ∀ e ∈ currentItems d,
      e.1 ∈ ["large".toList, "total".toList, "large_ratio".toList] →
      ((∃ v, lastItem e.1 (flowItems c.flowRatio d previous c.klDivergence) = some v ∧
        Logged fl e.2 (shown fl v)) ↔ Logged fl e.2 (shown fl e.2)) := by
    intro e he hkey
    rw [lastItem_flow _ _ _ _ he hkey]
    exact ⟨fun ⟨_, hv, hlogged⟩ => Option.some.inj hv ▸ hlogged, fun hlogged => ⟨_, rfl, hlogged⟩⟩
  have hlarge := hfound ("large".toList, .float (.finite d.large)) (by simp [currentItems])
    (by simp)
  have htotal := hfound ("total".toList, .float d.total) (by simp [currentItems]) (by simp)
  have hlargeRatio := hfound ("large_ratio".toList, .float d.largeRatio) (by simp [currentItems])
    (by simp)
  have hsmall := lastItem_flow_small c.flowRatio d previous c.klDivergence
  have hsmallRatio := lastItem_flow_smallRatio c.flowRatio d previous c.klDivergence
  rw [hasGroup_iff h]
  constructor
  · intro hall
    obtain ⟨v, hv, hvsmall⟩ := hall ("small".toList, .float (.finite d.small))
      (by simp [currentItems])
    obtain ⟨w, hw, hwratio⟩ := hall ("small_ratio".toList, .float d.smallRatio)
      (by simp [currentItems])
    rw [hsmall] at hv
    rw [hsmallRatio] at hw
    obtain rfl := Option.some.inj hv
    obtain rfl := Option.some.inj hw
    exact
      { total := finite_of_logged (htotal.mp (hall _ (by simp [currentItems])))
        largeRatio := finite_of_logged (hlargeRatio.mp (hall _ (by simp [currentItems])))
        smallRatio := fun hnone => by
          rw [hnone] at hwratio
          exact finite_of_logged hwratio
        small := fun u hu => by
          rw [hu] at hvsmall
          exact hvsmall
        ratio := fun p hp => by
          rw [hp] at hwratio
          exact hwratio }
  · intro hclear e he
    have hfinite : ∀ {u : Double}, Finite u → Logged fl (.float u) (shown fl (.float u)) :=
      fun hu => logged_shown fun _ heq => LogValue.float.inj heq ▸ hu
    simp only [currentItems, List.mem_cons, List.not_mem_nil, or_false] at he
    rcases he with rfl | rfl | rfl | rfl | rfl
    · exact hlarge.mpr (hfinite ⟨_, rfl⟩)
    · refine ⟨_, hsmall, ?_⟩
      cases hover : overwriting c.flowRatio with
      | none => exact hfinite ⟨_, rfl⟩
      | some u => exact hclear.small u hover
    · exact htotal.mpr (hfinite hclear.total)
    · exact hlargeRatio.mpr (hfinite hclear.largeRatio)
    · refine ⟨_, hsmallRatio, ?_⟩
      cases hp : previous with
      | none => exact hfinite (hclear.smallRatio hp)
      | some p => exact hclear.ratio p hp

/-- The values of the tuning line, and where they come from. -/
theorem mem_tuningItems {info : Option TuningInfo} {e : Text × LogValue}
    (he : e ∈ tuningItems info) :
    e.2 = idle ∨ ∃ info' key, info = some info' ∧ info' key = some e.2 := by
  cases info with
  | none => exact .inl (by rw [List.mem_singleton.mp he])
  | some info =>
    rw [tuningItems, tuningFields] at he
    split at he
    · exact .inl (by rw [List.mem_singleton.mp he])
    · obtain ⟨key, -, hkey⟩ := List.mem_filterMap.mp he
      obtain ⟨v, hv, rfl⟩ := Option.map_eq_some_iff.mp hkey
      exact .inr ⟨info, key, rfl, hv⟩

theorem tuningItems_mem {info : TuningInfo} {key : TuningKey} {v : LogValue}
    (h : info key = some v) : (key.label, v) ∈ tuningItems (some info) := by
  have hkey : key ∈ orderedFields := by cases key <;> decide
  have hmem : (key.label, v) ∈
      orderedFields.filterMap fun key => (info key).map fun v => (key.label, v) :=
    List.mem_filterMap.mpr ⟨key, hkey, by rw [h]; rfl⟩
  rw [tuningItems, tuningFields, if_neg (List.ne_nil_of_mem hmem)]
  exact hmem

theorem plain_idle : Plain fl "idle".toList where
  stripped := by decide
  unbroken := List.all_iff_forall_prop.mp (by decide)
  ne_true := by decide
  ne_false := by decide
  no_number := rfl

theorem plainStrings_of (hvalid : Valid fl c)
    (h : ∀ info key s, c.tuningInfo = some info → info key = some (.str s) → Plain fl s) :
    PlainStrings fl c.tuningInfo := by
  intro e he
  refine valued fun s hs => ?_
  rcases mem_tuningItems he with hidle | ⟨info, key, hinfo, hkey⟩
  · obtain rfl : s = "idle".toList := LogValue.str.inj (hs.symm.trans hidle)
    have hsimple : ∀ c ∈ "idle".toList, c ≠ ',' ∧ c ≠ '=' ∧ c ≠ ':' ∧ c ≠ '(' ∧ c ≠ ')' :=
      List.all_iff_forall_prop.mp (by decide)
    exact ⟨hsimple, plain_idle⟩
  · rw [hs] at hkey
    exact ⟨hvalid.simple info key s hinfo hkey, h info key s hinfo hkey⟩

theorem found_readBlock_iff (hvalid : Valid fl c)
    (hd : distribution fl c.flowRatio = some d) :
    Found fl c (readBlock fl c d previous) ↔ ClearFlow fl c.flowRatio d previous := by
  obtain ⟨hsimTime, hflow, hutility, hparameters, htuning⟩ := get_readBlock fl c d previous
  constructor
  · intro hfound
    obtain ⟨d', hd', hgroup⟩ := hfound.flow
    obtain rfl := Option.some.inj (hd.symm.trans hd')
    exact (hasGroup_flow_iff hflow).mp hgroup
  · intro hclear
    exact
      { simTime := ⟨_, hsimTime, logged_shown_ofValue _⟩
        flow := ⟨d, hd, (hasGroup_flow_iff hflow).mpr hclear⟩
        utility := hasGroup_of_nodup hutility (nodup_utilityItems _) fun e he => by
          simp only [utilityItems, componentItems, List.cons_append, List.nil_append,
            List.mem_cons, List.not_mem_nil, or_false] at he
          rcases he with rfl | rfl | rfl | rfl | rfl | rfl | rfl | rfl | rfl | rfl <;>
            exact logged_shown_ofValue _
        parameters := hasGroup_of_nodup hparameters (nodup_parameterItems _) fun e he => by
          obtain ⟨name, -, rfl⟩ := List.mem_map.mp he
          exact logged_shown_ofValue _
        tuning := hasGroup_of_nodup htuning (nodup_tuningItems _) fun e he =>
          logged_shown fun u hu => by
            rcases mem_tuningItems he with hidle | ⟨info, key, hinfo, hkey⟩
            · rw [hidle] at hu
              cases hu
            · exact hvalid.finite info key u hinfo (hu ▸ hkey) }

/-! ## Runs -/

theorem returns_iff : (logCycleSummary fl c).isSome = true ↔
    ∃ d previous, distribution fl c.flowRatio = some d ∧
      previousDistribution fl c.previousFlowRatio = some previous ∧
      logCycleSummary fl c = some (bodyText c d previous ++ ['\n', '\n']) := by
  constructor
  · intro h
    obtain ⟨text, htext⟩ := Option.isSome_iff_exists.mp h
    rw [logCycleSummary, formatFlowDistributionLine] at htext
    obtain ⟨line, hline, -⟩ := Option.map_eq_some_iff.mp htext
    obtain ⟨d, hd, hmap⟩ := Option.bind_eq_some_iff.mp hline
    obtain ⟨previous, hprevious, -⟩ := Option.map_eq_some_iff.mp hmap
    refine ⟨d, previous, hd, hprevious, ?_⟩
    rw [logCycleSummary, formatFlowDistributionLine, hd, Option.bind_some, hprevious,
      Option.map_some, Option.map_some, writeTraceBlock, bodyText]
  · rintro ⟨d, previous, -, -, hsome⟩
    rw [hsome]
    rfl

/-- The text of the block that a call writes. -/
def Written (fl : ℚ → Double) (c : Call) (body : Text) : Prop :=
  ∃ d previous, distribution fl c.flowRatio = some d ∧
    previousDistribution fl c.previousFlowRatio = some previous ∧ body = bodyText c d previous

/-- What the calls write is the blocks, one after the other. -/
theorem logText_bodies (h : ∀ c ∈ calls, (logCycleSummary fl c).isSome = true) :
    ∃ bodies : List Text, logText fl calls = some (bodies.flatMap (· ++ ['\n', '\n'])) ∧
      List.Forall₂ (Written fl) calls bodies := by
  induction calls with
  | nil => exact ⟨[], rfl, .nil⟩
  | cons c calls ih =>
    obtain ⟨hc, hrest⟩ := List.forall_mem_cons.mp h
    obtain ⟨bodies, hbodies, hforall⟩ := ih hrest
    obtain ⟨d, previous, hd, hprevious, hsome⟩ := returns_iff.mp hc
    refine ⟨bodyText c d previous :: bodies, ?_, .cons ⟨d, previous, hd, hprevious, rfl⟩ hforall⟩
    obtain ⟨texts, htexts, hflatten⟩ := Option.map_eq_some_iff.mp hbodies
    rw [logText, List.mapM_cons, hsome, htexts, List.flatMap_cons, ← hflatten]
    rfl

theorem body_bodyText (h : PlainStrings fl c.tuningInfo) : Body (bodyText c d previous) := by
  rw [bodyText, blockLines, detailLines_eq]
  refine ⟨_, List.cons_ne_nil _ _, ?_, rfl⟩
  have hfirst := line_simTime c.simTime
  refine List.forall_mem_cons.mpr ⟨⟨hfirst.ne_nil, hfirst.unbroken⟩, fun line hline => ?_⟩
  obtain ⟨detail, hdetail, rfl⟩ := List.mem_map.mp hline
  exact ⟨List.cons_ne_nil _ _,
    List.forall_mem_cons.mpr ⟨rfl, (lines_call h detail hdetail).unbroken⟩⟩

theorem exists_of_forall₂ {blocks : List Block} (h : List.Forall₂ (Found fl) calls blocks)
    (hc : c ∈ calls) : ∃ block ∈ blocks, Found fl c block := by
  induction h with
  | nil => cases hc
  | cons hfound _ ih =>
    rcases List.mem_cons.mp hc with rfl | hc
    · exact ⟨_, List.mem_cons_self, hfound⟩
    · obtain ⟨block, hblock, hfound⟩ := ih hc
      exact ⟨block, List.mem_cons_of_mem _ hblock, hfound⟩

theorem load_getD (file : Text) : (loadTuningBlocks fl beyond file).getD [] =
    (splitBlocks (newlines file) []).filterMap (parseBlock fl beyond) := by
  rw [loadTuningBlocks]
  split
  · next h => rw [h, Option.getD_none]
  · rfl

/-- The strings of a call that is found can be read. -/
theorem Found.strings (h : Found fl c block) (hblock : PlainBlock fl block) :
    ∀ info key s, c.tuningInfo = some info → info key = some (.str s) → Plain fl s := by
  intro info key s hinfo hkey
  obtain ⟨dict, hdict, hitems⟩ := h.tuning
  rw [hinfo] at hitems
  obtain ⟨v, hv, hlogged⟩ := hitems _ (tuningItems_mem hkey)
  exact hblock _ (Dict.mem_of_get hdict) dict rfl _ (Dict.mem_of_get hv) s hlogged

/-- Nothing is written over the current distribution that differs from it. -/
def FlowsClear (fl : ℚ → Double) (c : Call) : Prop :=
  ∀ d previous, distribution fl c.flowRatio = some d →
    previousDistribution fl c.previousFlowRatio = some previous →
    ClearFlow fl c.flowRatio d previous

theorem found_bodies_iff (beyond : Char → Bool) {bodies : List Text}
    (h : List.Forall₂ (Written fl) calls bodies)
    (hvalid : ∀ c ∈ calls, Valid fl c) (hplain : ∀ c ∈ calls, PlainStrings fl c.tuningInfo) :
    (∀ body ∈ bodies, Body body) ∧
      (List.Forall₂ (Found fl) calls (bodies.filterMap (parseBlock fl beyond)) ↔
        ∀ c ∈ calls, FlowsClear fl c) := by
  induction h with
  | nil =>
    exact ⟨fun _ hbody => absurd hbody List.not_mem_nil,
      fun _ _ hc => absurd hc List.not_mem_nil, fun _ => .nil⟩
  | @cons c body calls bodies hbody hrest ih =>
    obtain ⟨d, previous, hd, hprevious, rfl⟩ := hbody
    obtain ⟨hcvalid, hvalid⟩ := List.forall_mem_cons.mp hvalid
    obtain ⟨hcplain, hplain⟩ := List.forall_mem_cons.mp hplain
    obtain ⟨hbodies, hiff⟩ := ih hvalid hplain
    refine ⟨List.forall_mem_cons.mpr ⟨body_bodyText hcplain, hbodies⟩, ?_⟩
    rw [List.filterMap_cons_some (parseBlock_call hcplain), List.forall₂_cons,
      found_readBlock_iff hcvalid hd, hiff, List.forall_mem_cons]
    refine and_congr_left fun _ => ⟨fun hclear d' previous' hd' hprevious' => ?_,
      fun hclear => hclear d previous hd hprevious⟩
    obtain rfl := Option.some.inj (hd.symm.trans hd')
    obtain rfl := Option.some.inj (hprevious.symm.trans hprevious')
    exact hclear

/-- If all strings can be read, the blocks are those of the calls. -/
theorem roundTrip_iff_of_plain (hvalid : ∀ c ∈ calls, Valid fl c)
    (hplain : ∀ c ∈ calls, PlainStrings fl c.tuningInfo) :
    RoundTrip fl beyond calls ↔ ∀ c ∈ calls, FlowsClear fl c := by
  obtain ⟨bodies, hlog, hbodies⟩ := logText_bodies fun c hc => (hvalid c hc).returns
  obtain ⟨hbody, hiff⟩ := found_bodies_iff beyond hbodies hvalid hplain
  rw [← hiff, ← load_bodies hbody, ← load_getD]
  constructor
  · rintro ⟨log, hlog', hfound⟩
    obtain rfl := Option.some.inj (hlog.symm.trans hlog')
    exact hfound
  · intro hfound
    exact ⟨_, hlog, hfound⟩

/-- The values of all calls are found again, in order, just if nothing is written over the current
distribution that differs from it, and the strings can be read. -/
theorem log_roundTrip_iff (hvalid : ∀ c ∈ calls, Valid fl c) :
    RoundTrip fl beyond calls ↔ ∀ c ∈ calls, Clear fl c := by
  constructor
  · rintro ⟨log, hlog, hfound⟩
    have hblocks : ∀ block ∈ (loadTuningBlocks fl beyond log).getD [], PlainBlock fl block := by
      rw [load_getD]
      intro block hblock
      obtain ⟨body, -, hparse⟩ := List.mem_filterMap.mp hblock
      exact parseBlock_plain hparse
    -- what is read of a string is plain, so a string that is found is
    have hstrings : ∀ c ∈ calls, ∀ info key s, c.tuningInfo = some info →
        info key = some (.str s) → Plain fl s := by
      intro c hc
      obtain ⟨block, hblock, hc⟩ := exists_of_forall₂ hfound hc
      exact hc.strings (hblocks block hblock)
    have hflow := (roundTrip_iff_of_plain hvalid fun c hc =>
      plainStrings_of (hvalid c hc) (hstrings c hc)).mp ⟨log, hlog, hfound⟩
    exact fun c hc => ⟨hflow c hc, hstrings c hc⟩
  · intro hclear
    exact (roundTrip_iff_of_plain hvalid fun c hc =>
      plainStrings_of (hvalid c hc) (hclear c hc).strings).mpr fun c hc => (hclear c hc).flow

def exFlow (smallCount : Int) : FlowRatio where
  large := some (.int 3)
  small := some (.int 5)
  largeCount := some (.int 3)
  potentialLarge := none
  smallCount := some (.int smallCount)
  potentialEffective := none

def exComponent : Component := ⟨.float (1 / 2), .int 40, .float (1 / 8)⟩

def exTuning : TuningInfo
  | .state => some (.str "tuning".toList)
  | .temperature => some (.float (.finite (5 / 2)))
  | .accepted => some (.bool true)
  | _ => none

/-- A call in which so many small flows were observed; 5 are in the current distribution. -/
def exCall (smallCount : Int) : Call where
  simTime := .float (1 / 100)
  flowRatio := exFlow smallCount
  utilityBreakdown := ⟨exComponent, exComponent, exComponent, .float (3 / 8)⟩
  parameterValues := defaultParameterValues
  tuningInfo := some exTuning
  previousFlowRatio := none
  klDivergence := some (.float (1 / 4))

theorem distribution_exCall (n : Int) : distribution .finite (exCall n).flowRatio = some
    { large := 3, small := 5, total := .finite 8, largeRatio := .finite (3 / 8),
      smallRatio := .finite (5 / 8) } := by
  norm_num [exCall, exFlow, distribution, toFloat, ratio]

theorem exTuning_strings {key : TuningKey} {s : Text} (h : exTuning key = some (.str s)) :
    s = "tuning".toList := by
  cases key <;> simp only [exTuning, Option.some.injEq, LogValue.str.injEq, reduceCtorEq] at h
  exact h.symm

theorem valid_exCall (n : Int) : Valid .finite (exCall n) where
  returns := by
    rw [logCycleSummary, formatFlowDistributionLine, distribution_exCall]
    rfl
  finite info key d hinfo hkey := by
    obtain rfl := Option.some.inj hinfo
    cases d with
    | finite x => exact ⟨x, rfl⟩
    | _ => cases key <;> cases hkey
  simple info key s hinfo hkey := by
    obtain rfl := Option.some.inj hinfo
    have hsimple : ∀ c ∈ "tuning".toList, c ≠ ',' ∧ c ≠ '=' ∧ c ≠ ':' ∧ c ≠ '(' ∧ c ≠ ')' :=
      List.all_iff_forall_prop.mp (by decide)
    rw [exTuning_strings hkey]
    exact hsimple

theorem strings_exCall (n : Int) (info : TuningInfo) (key : TuningKey) (s : Text)
    (hinfo : (exCall n).tuningInfo = some info) (hkey : info key = some (.str s)) :
    Plain .finite s := by
  obtain rfl := Option.some.inj hinfo
  rw [exTuning_strings hkey]
  exact ⟨by decide, List.all_iff_forall_prop.mp (by decide), by decide, by decide, rfl⟩

theorem flowsClear_exCall : FlowsClear .finite (exCall 5) := fun d previous hd hprevious => by
  obtain rfl := Option.some.inj ((distribution_exCall 5).symm.trans hd)
  obtain rfl := Option.some.inj hprevious
  exact
    { total := ⟨8, rfl⟩
      largeRatio := ⟨3 / 8, rfl⟩
      smallRatio := fun _ => ⟨5 / 8, rfl⟩
      small := fun v hv => by
        obtain rfl := Option.some.inj hv
        exact logged_shown_int_iff.mpr (by decide +kernel)
      ratio := nofun }

/-- The call of the next cycle, without tuning. -/
def nextCall : Call :=
  { exCall 5 with simTime := .float (1 / 50), tuningInfo := none, klDivergence := none }

theorem valid_nextCall : Valid .finite nextCall where
  returns := by
    have hd : distribution .finite nextCall.flowRatio = _ := distribution_exCall 5
    rw [logCycleSummary, formatFlowDistributionLine, hd]
    rfl
  finite := nofun
  simple := nofun

theorem exCalls_found : RoundTrip .finite (fun _ => false) [exCall 5, nextCall] := by
  have hvalid : ∀ c ∈ [exCall 5, nextCall], Valid .finite c :=
    List.forall_mem_cons.mpr ⟨valid_exCall 5, List.forall_mem_singleton.mpr valid_nextCall⟩
  refine (log_roundTrip_iff hvalid).mpr (List.forall_mem_cons.mpr ⟨?_, ?_⟩)
  · exact { flow := flowsClear_exCall, strings := strings_exCall 5 }
  · exact List.forall_mem_singleton.mpr { flow := flowsClear_exCall, strings := nofun }

/-- With 7 observed small flows, the current 5 are not found. -/
theorem observed_over_current :
    Valid .finite (exCall 7) ∧ ¬RoundTrip .finite (fun _ => false) [exCall 7] := by
  refine ⟨valid_exCall 7, fun hround => ?_⟩
  have hvalid := List.forall_mem_singleton.mpr (valid_exCall 7)
  have hplain : ∀ c ∈ [exCall 7], PlainStrings .finite c.tuningInfo :=
    List.forall_mem_singleton.mpr (plainStrings_of (valid_exCall 7) (strings_exCall 7))
  have hclear := (roundTrip_iff_of_plain hvalid hplain).mp hround _ List.mem_cons_self _ none
    (distribution_exCall 7) rfl
  have hsame := logged_shown_int_iff.mp (hclear.small (.int 7) rfl)
  exact absurd hsame (by decide +kernel)

end Paraleon.Tuning.TunerLog
