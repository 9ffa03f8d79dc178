import Mathlib.Data.List.Sort
import Mathlib.Data.Prod.Lex
import Paraleon.Traffic.Schedule

/-!
# All-to-all traffic in rounds

`gen_llm_onoff_topo_s.py` spreads workers over the racks of the topology and lets each of them
send to each other one in every round, all flows of a round at the same time.

* `spread_of_some`: the workers are different hosts, as many in each rack as can be.
* `alltoall_started`: the simulator reads the file, and starts in each round, at its time, one flow
  from each worker to each other one, with the number of the round in its port; at the end of a
  run, no round from before the stop time is left.
-/

namespace Paraleon.Traffic

open Function Numerals Runs Streams

/-! ## The workers -/

/-- `spread_workers_for_topo_s`; `none` is a `ValueError`. -/
def spreadWorkersForTopoS (workerCount : Nat) : Option (List Nat) :=
  if workerCount = 0 ∨ 64 < workerCount then none
  else
    let torCount := 8
    let hostsPerTor := 8
    let base := workerCount / torCount
    let extra := workerCount % torCount
    let workers := (List.range torCount).flatMap fun torIndex =>
      List.range' (torIndex * hostsPerTor) (base + if torIndex < extra then 1 else 0)
    if workers.length = workerCount then some workers else none

/-- That many different hosts, and as many of them in each rack as can be -/
def Spread (workerCount : Nat) (workers : List Nat) : Prop :=
  workers.length = workerCount ∧ workers.Nodup ∧ (∀ w ∈ workers, w < 64) ∧
    ∀ torIndex < 8, workers.countP (fun w => w / 8 = torIndex) =
      workerCount / 8 + if torIndex < workerCount % 8 then 1 else 0

instance (workerCount : Nat) (workers : List Nat) : Decidable (Spread workerCount workers) :=
  inferInstanceAs (Decidable (_ ∧ _ ∧ _ ∧ _))

/-- The whole range of the argument -/
theorem spread_range : ∀ workerCount < 65,
    (spreadWorkersForTopoS workerCount).all (fun w => Spread workerCount w) = true := by
  decide +kernel

theorem spread_of_some {workerCount : Nat} {workers : List Nat}
    (h : spreadWorkersForTopoS workerCount = some workers) : Spread workerCount workers := by
  have hle : workerCount ≤ 64 := by
    by_contra hgt
    rw [spreadWorkersForTopoS, if_pos (.inr (Nat.lt_of_not_le hgt))] at h
    cases h
  have hall := spread_range workerCount (Nat.lt_succ_of_le hle)
  rw [h, Option.all_some] at hall
  exact of_decide_eq_true hall

/-! ## The flows -/

/-- The arguments of `generate_onoff_alltoall_flows`. `fl` rounds the result of an operation on
floats; `main` accepts no bandwidth that is 0. -/
structure OnoffArgs where
  fl : ℚ → ℚ
  workers : List Nat
  baseTime : ℚ
  numRounds : Nat
  flowSize : Nat
  offTime : ℚ
  bandwidthGbps : ℚ
  periodOverride : Option ℚ
  bandwidth_ne_zero : fl (bandwidthGbps * 1000000000) ≠ 0

namespace OnoffArgs

/-- `estimate_alltoall_on_time` -/
def onTime (a : OnoffArgs) : ℚ :=
  let bandwidth := a.fl (a.bandwidthGbps * 1000000000)
  let bytesPerWorker : Int := ((a.workers.length : Int) - 1) * a.flowSize
  a.fl (a.fl (a.fl bytesPerWorker * 8) / bandwidth)

def period (a : OnoffArgs) : ℚ := a.periodOverride.getD (a.fl (a.onTime + a.offTime))

/-- `round_time_s` -/
def roundTime (a : OnoffArgs) (roundIndex : Nat) : ℚ :=
  a.fl (a.baseTime + a.fl (a.fl roundIndex * a.period))

end OnoffArgs

/-- `Flow.dport_map` -/
abbrev DportMap := Nat × Nat → Nat

/-- `flows.append(Flow(src, dst, flow_size_bytes, round_time_s))` -/
def addFlow (size : Nat) (t : ℚ) (finite : |t| ≤ maxDouble) (s : List Flow × DportMap)
    (p : Nat × Nat) : List Flow × DportMap :=
  (s.1 ++ [{ src := p.1, dst := p.2, dport := s.2 p, size := max size 100, t,
             size_ge := le_max_right size 100, finite }],
    update s.2 p (s.2 p + 1))

/-- The loops over the workers -/
def addRound (workers : List Nat) (size : Nat) (t : ℚ) (finite : |t| ≤ maxDouble)
    (s : List Flow × DportMap) : List Flow × DportMap :=
  workers.foldl (fun s src => workers.foldl (fun s dst =>
    if src = dst then s else addFlow size t finite s (src, dst)) s) s

/-- The key of `flows.sort` -/
def Flow.key (f : Flow) : ℚ ×ₗ Nat ×ₗ Nat ×ₗ Nat :=
  toLex (f.t, toLex (f.src, toLex (f.dst, f.dport)))

/-- The loop over the rounds, up to a time that is not finite, which no `Flow` has. -/
def OnoffArgs.rounds (a : OnoffArgs) (k : Nat) : Option (List Flow × DportMap) :=
  (List.range k).foldlM (fun s r =>
    if finite : |a.roundTime r| ≤ maxDouble then
      some (addRound a.workers a.flowSize (a.roundTime r) finite s)
    else none) ([], fun _ => 10000)

/-- `generate_onoff_alltoall_flows` -/
def OnoffArgs.generate (a : OnoffArgs) : Option (List Flow) :=
  (a.rounds a.numRounds).map fun s => s.1.insertionSort fun f g => f.key ≤ g.key

/-! ## What the loops leave -/

/-- The fields of a flow -/
def Flow.fields (f : Flow) : Nat × Nat × Nat × Nat × ℚ := (f.src, f.dst, f.dport, f.size, f.t)

theorem fields_injective : Injective Flow.fields := by
  rintro ⟨src, dst, dport, size, t, _, _⟩ ⟨src', dst', dport', size', t', _, _⟩ h
  cases h
  rfl

/-- The pairs of different workers, in the order of the loops -/
def workerPairs (workers : List Nat) : List (Nat × Nat) :=
  workers.flatMap fun src => (workers.filter fun dst => src ≠ dst).map (Prod.mk src)

section WorkerPairs

variable {workers : List Nat}

theorem mem_workerPairs {p : Nat × Nat} :
    p ∈ workerPairs workers ↔ p.1 ∈ workers ∧ p.2 ∈ workers ∧ p.1 ≠ p.2 := by
  obtain ⟨src, dst⟩ := p
  simp only [workerPairs, List.mem_flatMap, List.mem_map, List.mem_filter, decide_eq_true_iff,
    Prod.mk.injEq]
  constructor
  · rintro ⟨_, hsrc, _, hdst, rfl, rfl⟩
    exact ⟨hsrc, hdst⟩
  · rintro ⟨hsrc, hdst⟩
    exact ⟨src, hsrc, dst, hdst, rfl, rfl⟩

theorem nodup_workerPairs (h : workers.Nodup) : (workerPairs workers).Nodup := by
  refine List.nodup_flatMap.mpr ⟨fun src _ => ?_, h.imp fun {src src'} hne => ?_⟩
  · exact (h.filter _).map (Prod.mk_right_injective src)
  · intro p hp hp'
    obtain ⟨dst, -, rfl⟩ := List.mem_map.mp hp
    obtain ⟨dst', -, heq⟩ := List.mem_map.mp hp'
    exact hne (Prod.mk.inj heq).1.symm

theorem length_workerPairs (h : workers.Nodup) :
    (workerPairs workers).length = workers.length * (workers.length - 1) := by
  have hrow : ∀ src ∈ workers,
      ((workers.filter fun dst => src ≠ dst).map (Prod.mk src)).length = workers.length - 1 := by
    intro src hsrc
    have hfilter : (workers.filter fun dst => src ≠ dst) = workers.erase src := by
      rw [h.erase_eq_filter]
      refine List.filter_congr fun dst _ => ?_
      rw [Bool.eq_iff_iff, decide_eq_true_iff, bne_iff_ne, ne_comm]
    rw [List.length_map, hfilter, List.length_erase_of_mem hsrc]
  rw [workerPairs, List.length_flatMap, List.map_congr_left hrow, List.map_const',
    List.sum_replicate_nat]

end WorkerPairs

theorem addRound_eq (workers : List Nat) (size : Nat) (t : ℚ) (finite : |t| ≤ maxDouble)
    (s : List Flow × DportMap) :
    addRound workers size t finite s = (workerPairs workers).foldl (addFlow size t finite) s := by
  rw [addRound, workerPairs, List.foldl_flatMap]
  refine congrFun (congrFun (congrArg List.foldl ?_) s) workers
  funext s src
  rw [List.foldl_map, List.foldl_filter]
  refine congrFun (congrFun (congrArg List.foldl ?_) s) workers
  funext s dst
  rcases eq_or_ne src dst with heq | hne
  · have hsame : ¬decide (src ≠ dst) = true := fun h => of_decide_eq_true h heq
    rw [if_pos heq, if_neg hsame]
  · rw [if_neg hne, if_pos (decide_eq_true hne)]

/-- Each pair has one more flow, whose port is the next one of the pair. -/
theorem foldl_addFlow (size : Nat) {t : ℚ} (finite : |t| ≤ maxDouble) {L : List (Nat × Nat)}
    (hL : L.Nodup) (s : List Flow × DportMap) :
    (L.foldl (addFlow size t finite) s).1.map Flow.fields =
        s.1.map Flow.fields ++ L.map (fun p => (p.1, p.2, s.2 p, max size 100, t)) ∧
      ∀ p, (L.foldl (addFlow size t finite) s).2 p = s.2 p + if p ∈ L then 1 else 0 := by
  induction L generalizing s with
  | nil => exact ⟨(List.append_nil _).symm, fun p => rfl⟩
  | cons q rest ih =>
    obtain ⟨hq, hrest⟩ := List.nodup_cons.mp hL
    obtain ⟨hflows, hports⟩ := ih hrest (addFlow size t finite s q)
    have hother : ∀ p ≠ q, (addFlow size t finite s q).2 p = s.2 p := fun p hne =>
      update_of_ne hne _ _
    constructor
    · have hmap : rest.map (fun p => (p.1, p.2, (addFlow size t finite s q).2 p, max size 100, t)) =
          rest.map fun p => (p.1, p.2, s.2 p, max size 100, t) := by
        refine List.map_congr_left fun p hp => ?_
        rw [hother p fun heq => hq (heq ▸ hp)]
      rw [List.foldl_cons, hflows, hmap, addFlow, List.map_append, List.append_assoc]
      rfl
    · intro p
      rw [List.foldl_cons, hports]
      rcases eq_or_ne p q with rfl | hne
      · rw [if_neg hq, if_pos List.mem_cons_self]
        exact update_self ..
      · rw [hother p hne]
        congr 1
        exact if_congr (List.mem_cons.trans (or_iff_right hne)).symm rfl rfl

/-- The flows of the first rounds -/
def roundFields (a : OnoffArgs) (k : Nat) : List (Nat × Nat × Nat × Nat × ℚ) :=
  (List.range k).flatMap fun r =>
    (workerPairs a.workers).map fun p => (p.1, p.2, 10000 + r, max a.flowSize 100, a.roundTime r)

section Rounds

variable {a : OnoffArgs} {k : Nat}

theorem roundFields_succ : roundFields a (k + 1) = roundFields a k ++
    (workerPairs a.workers).map fun p =>
      (p.1, p.2, 10000 + k, max a.flowSize 100, a.roundTime k) := by
  rw [roundFields, List.range_succ, List.flatMap_append, List.flatMap_singleton]
  rfl

theorem rounds_spec (hworkers : a.workers.Nodup) (hfinite : ∀ r < k, |a.roundTime r| ≤ maxDouble) :
    ∃ s, a.rounds k = some s ∧ s.1.map Flow.fields = roundFields a k ∧
      ∀ p ∈ workerPairs a.workers, s.2 p = 10000 + k := by
  induction k with
  | zero => exact ⟨_, rfl, rfl, fun p _ => rfl⟩
  | succ k ih =>
    obtain ⟨s, hs, hflows, hports⟩ := ih fun r hr => hfinite r (Nat.lt_succ_of_lt hr)
    have hk := hfinite k (Nat.lt_succ_self k)
    obtain ⟨hflows', hports'⟩ := foldl_addFlow a.flowSize hk (nodup_workerPairs hworkers) s
    refine ⟨addRound a.workers a.flowSize (a.roundTime k) hk s, ?_, ?_, fun p hp => ?_⟩
    · rw [OnoffArgs.rounds] at hs ⊢
      rw [List.range_succ, List.foldlM_append, hs, Option.bind_eq_bind, Option.bind_some,
        List.foldlM_cons, dif_pos hk]
      rfl
    · rw [addRound_eq, hflows', hflows, roundFields_succ]
      congr 1
      exact List.map_congr_left fun p hp => by rw [hports p hp]
    · rw [addRound_eq, hports', hports p hp, if_pos hp, Nat.add_assoc]

theorem nodup_roundFields (hworkers : a.workers.Nodup) : (roundFields a k).Nodup := by
  refine List.nodup_flatMap.mpr ⟨fun r _ => ?_, List.nodup_range.imp fun {r r'} hne => ?_⟩
  · refine (nodup_workerPairs hworkers).map fun p q h => ?_
    obtain ⟨hsrc, hrest⟩ := Prod.mk.inj h
    exact Prod.ext hsrc (Prod.mk.inj hrest).1
  · intro x hx hx'
    obtain ⟨p, -, rfl⟩ := List.mem_map.mp hx
    obtain ⟨q, -, heq⟩ := List.mem_map.mp hx'
    simp only [Prod.mk.injEq, Nat.add_left_cancel_iff] at heq
    exact hne heq.2.2.1.symm

theorem length_roundFields (hworkers : a.workers.Nodup) :
    (roundFields a k).length = k * (a.workers.length * (a.workers.length - 1)) := by
  induction k with
  | zero => exact (Nat.zero_mul _).symm
  | succ k ih =>
    rw [roundFields_succ, List.length_append, List.length_map, length_workerPairs hworkers, ih,
      Nat.succ_mul]

theorem mem_roundFields {f : Flow} : f.fields ∈ roundFields a k ↔ ∃ r < k, f.src ∈ a.workers ∧
    f.dst ∈ a.workers ∧ f.src ≠ f.dst ∧ f.dport = 10000 + r ∧ f.size = max a.flowSize 100 ∧
    f.t = a.roundTime r := by
  simp only [roundFields, List.mem_flatMap, List.mem_range, List.mem_map, Flow.fields,
    Prod.mk.injEq]
  constructor
  · rintro ⟨r, hr, p, hp, hsrc, hdst, hdport, hsize, ht⟩
    obtain ⟨hsrc', hdst', hne⟩ := mem_workerPairs.mp hp
    exact ⟨r, hr, hsrc ▸ hsrc', hdst ▸ hdst', hsrc ▸ hdst ▸ hne, hdport.symm, hsize.symm, ht.symm⟩
  · rintro ⟨r, hr, hsrc, hdst, hne, hdport, hsize, ht⟩
    exact ⟨r, hr, (f.src, f.dst), mem_workerPairs.mpr ⟨hsrc, hdst, hne⟩, rfl, rfl, hdport.symm,
      hsize.symm, ht.symm⟩

/-- Two different workers take up the number of flows, so the ports have 32 bits as well. -/
theorem fits_of_count (hworkers : ∀ w ∈ a.workers, w < 64) (hsize : a.flowSize < 2 ^ 32)
    (hcount : k * (a.workers.length * (a.workers.length - 1)) < 2 ^ 32) {f : Flow}
    (hf : f.fields ∈ roundFields a k) : f.Fits := by
  obtain ⟨r, hr, hsrc, hdst, hne, hdport, hsize', -⟩ := mem_roundFields.mp hf
  have htwo : 2 ≤ a.workers.length := by
    have hpair : [f.src, f.dst].Nodup := List.nodup_cons.mpr
      ⟨fun h => hne (List.mem_singleton.mp h), List.nodup_singleton f.dst⟩
    exact (List.subperm_of_subset hpair (List.cons_subset.mpr
      ⟨hsrc, List.cons_subset.mpr ⟨hdst, List.nil_subset _⟩⟩)).length_le
  have hpairs : 2 * 1 ≤ a.workers.length * (a.workers.length - 1) :=
    Nat.mul_le_mul htwo (Nat.le_sub_of_add_le htwo)
  have hk : k * 2 < 2 ^ 32 := (Nat.mul_le_mul_left k hpairs).trans_lt hcount
  refine ⟨(hworkers _ hsrc).trans (by decide), (hworkers _ hdst).trans (by decide), ?_, ?_⟩
  · omega
  · rw [hsize']
    exact max_lt hsize (by decide)

end Rounds

/-! ## What the simulator reads -/

/-- A worker sends to another one in a round. -/
def OnoffArgs.Sends (a : OnoffArgs) (r src dst : Nat) : Prop :=
  r < a.numRounds ∧ src ∈ a.workers ∧ dst ∈ a.workers ∧ src ≠ dst

/-- The simulated time of a round, from the nine places that are printed of it -/
def OnoffArgs.startOf (a : OnoffArgs) (r : Nat) : Int :=
  seconds (a.fl (fixedValue 9 (a.roundTime r)))

/-- The pair and the port of an entry -/
def FlowInput.key (g : FlowInput) : Nat × Nat × Nat := (g.src, g.dst, g.dport)

/-- The entries are those of the rounds, one for each. -/
structure OfRounds (a : OnoffArgs) (F : FlowInputs) : Prop where
  length : F.flows.length = a.numRounds * (a.workers.length * (a.workers.length - 1))
  nodup : (F.flows.map FlowInput.key).Nodup
  sends : ∀ g ∈ F.flows, ∃ r, a.Sends r g.src g.dst ∧ g.dport = 10000 + r ∧
    g.maxPacketCount = max a.flowSize 100 ∧ seconds g.startTime = a.startOf r
  every : ∀ r src dst, a.Sends r src dst →
    ∃ g ∈ F.flows, g.key = (src, dst, 10000 + r) ∧ seconds g.startTime = a.startOf r

section Read

variable {a : OnoffArgs} {flows : List Flow}

/-- What `generate_onoff_alltoall_flows` returns -/
structure Generated (a : OnoffArgs) (flows : List Flow) : Prop where
  sorted : flows.Pairwise fun f g => f.t ≤ g.t
  nodup : flows.Nodup
  length : flows.length = a.numRounds * (a.workers.length * (a.workers.length - 1))
  mem_iff : ∀ f, f ∈ flows ↔ f.fields ∈ roundFields a a.numRounds

theorem exists_generated (hworkers : a.workers.Nodup)
    (hfinite : ∀ r < a.numRounds, |a.roundTime r| ≤ maxDouble) :
    ∃ flows, a.generate = some flows ∧ Generated a flows := by
  obtain ⟨s, hs, hflows, -⟩ := rounds_spec hworkers hfinite
  have hperm : (s.1.insertionSort fun f g => f.key ≤ g.key).Perm s.1 :=
    List.perm_insertionSort _ s.1
  refine ⟨s.1.insertionSort fun f g => f.key ≤ g.key, by rw [OnoffArgs.generate, hs]; rfl, ?_⟩
  exact
    { sorted := (List.pairwise_insertionSort (fun f g : Flow => f.key ≤ g.key) s.1).imp
        fun h => Prod.Lex.monotone_fst _ _ h
      nodup := hperm.nodup_iff.mpr (.of_map Flow.fields (hflows ▸ nodup_roundFields hworkers))
      length := by
        rw [hperm.length_eq, ← List.length_map Flow.fields, hflows, length_roundFields hworkers]
      mem_iff := fun f => by
        rw [hperm.mem_iff, ← hflows, List.mem_map_of_injective fields_injective] }

/-- The pair and the port determine the flow. -/
theorem Generated.nodup_key (h : Generated a flows) :
    (flows.map fun f => (f.src, f.dst, f.dport)).Nodup := by
  refine h.nodup.map_on fun f hf g hg hkey => fields_injective ?_
  obtain ⟨r, -, -, -, -, hdport, hsize, ht⟩ := mem_roundFields.mp ((h.mem_iff f).mp hf)
  obtain ⟨r', -, -, -, -, hdport', hsize', ht'⟩ := mem_roundFields.mp ((h.mem_iff g).mp hg)
  obtain ⟨hsrc, hrest⟩ := Prod.mk.inj hkey
  obtain ⟨hdst, hport⟩ := Prod.mk.inj hrest
  obtain rfl : r = r' := Nat.add_left_cancel (hdport.symm.trans (hport.trans hdport'))
  simp only [Flow.fields, hsrc, hdst, hport, hsize, hsize', ht, ht']

/-- The simulation can begin with the entries. -/
theorem Generated.exists_inputs (h : Generated a flows) (hmono : Monotone a.fl)
    (hzero : a.fl 0 = 0) (hstart : ∀ r < a.numRounds, 0 ≤ a.roundTime r) {stopTime : ℚ}
    (hstop : 0 ≤ seconds stopTime) :
    ∃ F : FlowInputs, F.flows = flows.map (Flow.expected a.fl) ∧
      F.simulatorStopTime = stopTime := by
  refine ⟨⟨flows.map (Flow.expected a.fl), stopTime, ?_, fun g hg => ?_, hstop⟩, rfl, rfl⟩
  · exact List.pairwise_map.mpr (h.sorted.imp fun hle => hmono (fixedValue_mono 9 hle))
  · obtain ⟨f, hf, rfl⟩ := List.mem_map.mp (List.mem_of_mem_head? hg)
    obtain ⟨r, hr, -, -, -, -, -, ht⟩ := mem_roundFields.mp ((h.mem_iff f).mp hf)
    have hnonneg : 0 ≤ a.fl (fixedValue 9 f.t) :=
      hzero ▸ hmono (fixedValue_nonneg 9 (ht ▸ hstart r hr))
    have hseconds : seconds 0 = 0 := by decide +kernel
    exact hseconds ▸ seconds_mono hnonneg

theorem seconds_expected {f : Flow} {r : Nat} (ht : f.t = a.roundTime r) :
    seconds (f.expected a.fl).startTime = a.startOf r := by
  rw [OnoffArgs.startOf, ← ht, Flow.expected]

theorem Generated.ofRounds (h : Generated a flows)
    (hfinite : ∀ r < a.numRounds, |a.roundTime r| ≤ maxDouble) {F : FlowInputs}
    (hF : F.flows = flows.map (Flow.expected a.fl)) : OfRounds a F where
  length := by rw [hF, List.length_map, h.length]
  nodup := by
    rw [hF, List.map_map]
    exact h.nodup_key
  sends := fun g hg => by
    rw [hF] at hg
    obtain ⟨f, hf, rfl⟩ := List.mem_map.mp hg
    obtain ⟨r, hr, hsrc, hdst, hne, hdport, hsize, ht⟩ := mem_roundFields.mp ((h.mem_iff f).mp hf)
    exact ⟨r, ⟨hr, hsrc, hdst, hne⟩, hdport, hsize, seconds_expected ht⟩
  every := fun r src dst hsends => by
    obtain ⟨hr, hsrc, hdst, hne⟩ := hsends
    obtain ⟨f, hf⟩ : ∃ f : Flow, f.fields =
        (src, dst, 10000 + r, max a.flowSize 100, a.roundTime r) :=
      ⟨{ src, dst, dport := 10000 + r, size := max a.flowSize 100, t := a.roundTime r,
         size_ge := le_max_right _ _, finite := hfinite r hr }, rfl⟩
    simp only [Flow.fields, Prod.mk.injEq] at hf
    obtain ⟨rfl, rfl, hdport, hsize, ht⟩ := hf
    have hmem : f ∈ flows :=
      (h.mem_iff f).mpr (mem_roundFields.mpr ⟨r, hr, hsrc, hdst, hne, hdport, hsize, ht⟩)
    refine ⟨f.expected a.fl, hF ▸ List.mem_map_of_mem hmem, ?_, seconds_expected ht⟩
    rw [FlowInput.key, ← hdport, Flow.expected]

end Read

/-! ## The rounds in the simulation -/

/-- What is to be seen of the rounds at any time of a simulation, and at its end -/
structure RoundsStarted (a : OnoffArgs) (F : FlowInputs) (s : ScheduleState) : Prop where
  onTime : ∀ x ∈ s.started, ∃ r, a.Sends r x.client.flow.src x.client.flow.dst ∧
    x.client.flow.dport = 10000 + r ∧ x.client.flow.maxPacketCount = max a.flowSize 100 ∧
    x.time = a.startOf r
  once : (s.started.map fun x => x.client.flow.key).Nodup
  noneMissed : ∀ r src dst, a.Sends r src dst → a.startOf r < s.now →
    ∃ x ∈ s.started, x.client.flow.key = (src, dst, 10000 + r)
  allStarted : Ended F s → ∀ r src dst, a.Sends r src dst → a.startOf r < F.stopAt →
    ∃ x ∈ s.started, x.client.flow.key = (src, dst, 10000 + r)
  stopsLast : s.stopped = some .allFlowsFinish → ∀ r src dst, a.Sends r src dst →
    ∃ x ∈ s.started, x.client.flow.key = (src, dst, 10000 + r) ∧ x.client ∈ s.finished

section Run

variable {a : OnoffArgs} {F : FlowInputs} {s : ScheduleState}

/-- Entries of one pair and port have one place. -/
theorem OfRounds.idx_inj (h : OfRounds a F) {i j : Nat} {f g : FlowInput}
    (hi : F.flows[i]? = some f) (hj : F.flows[j]? = some g) (hkey : f.key = g.key) : i = j := by
  have hlt : i < (F.flows.map FlowInput.key).length := by
    rw [List.length_map]
    exact (List.getElem?_eq_some_iff.mp hi).1
  refine (List.getElem?_inj hlt h.nodup).mp ?_
  rw [List.getElem?_map, List.getElem?_map, hi, hj, Option.map_some, Option.map_some, hkey]

theorem OfRounds.started (h : OfRounds a F) (hw : Waiting F s) : RoundsStarted a F s where
  onTime := fun x hx => by
    obtain ⟨r, hsends, hdport, hsize, hstart⟩ := h.sends _ (List.mem_of_getElem? (hw.entry hx))
    exact ⟨r, hsends, hdport, hsize, (hw.onTime x hx).trans hstart⟩
  once := by
    have hidx : (s.started.map (·.client.idx)).Nodup := hw.inOrder ▸ List.nodup_range
    refine (List.Nodup.of_map _ hidx).map_on fun x hx y hy hkey => ?_
    exact List.inj_on_of_nodup_map hidx hx hy (h.idx_inj (hw.entry hx) (hw.entry hy) hkey)
  noneMissed := fun r src dst hsends hpast => by
    obtain ⟨g, hg, hkey, hstart⟩ := h.every r src dst hsends
    obtain ⟨i, hi⟩ := List.mem_iff_getElem?.mp hg
    obtain ⟨x, hx, rfl⟩ := hw.noneMissed hi (hstart ▸ hpast)
    obtain rfl : x.client.flow = g := Option.some.inj ((hw.entry hx).symm.trans hi)
    exact ⟨x, hx, hkey⟩
  allStarted := fun hended r src dst hsends hbefore => by
    obtain ⟨g, hg, hkey, hstart⟩ := h.every r src dst hsends
    obtain ⟨i, hi⟩ := List.mem_iff_getElem?.mp hg
    obtain ⟨x, hx, rfl⟩ := hw.allStarted hended hi (hstart ▸ hbefore)
    obtain rfl : x.client.flow = g := Option.some.inj ((hw.entry hx).symm.trans hi)
    exact ⟨x, hx, hkey⟩
  stopsLast := fun hstopped r src dst hsends => by
    obtain ⟨hall, hfinished⟩ := hw.stopsLast hstopped
    obtain ⟨g, hg, hkey, -⟩ := h.every r src dst hsends
    obtain ⟨i, hi⟩ := List.mem_iff_getElem?.mp hg
    have hlt : i < s.started.length := hall ▸ (List.getElem?_eq_some_iff.mp hi).1
    have hmem : i ∈ s.started.map (·.client.idx) := hw.inOrder ▸ List.mem_range.mpr hlt
    obtain ⟨x, hx, rfl⟩ := List.mem_map.mp hmem
    obtain rfl : x.client.flow = g := Option.some.inj ((hw.entry hx).symm.trans hi)
    exact ⟨x, hx, hkey, hfinished x hx⟩

end Run

/-- For workers that were spread, rounds at finite times from 0 on and numbers of 32 bits, the
simulator reads the flows of the file. Each of its runs ends, and starts in each round from before
the stop time, at its time, exactly one flow from each worker to each other one. -/
theorem alltoall_started {a : OnoffArgs} {workerCount : Nat}
    (hworkers : spreadWorkersForTopoS workerCount = some a.workers)
    (hfinite : ∀ r < a.numRounds, |a.roundTime r| ≤ maxDouble) (hsize : a.flowSize < 2 ^ 32)
    (hcount : a.numRounds * (workerCount * (workerCount - 1)) < 2 ^ 32) (hmono : Monotone a.fl)
    (hzero : a.fl 0 = 0) (hstart : ∀ r < a.numRounds, 0 ≤ a.roundTime r) {stopTime : ℚ}
    (hstop : 0 ≤ seconds stopTime) :
    Spread workerCount a.workers ∧ ∃ (flows : List Flow) (F : FlowInputs),
      a.generate = some flows ∧ F.simulatorStopTime = stopTime ∧
      readFlowFile a.fl (writeFlowFile flows) = (F.flows.length, F.flows) ∧
      F.flows.length = a.numRounds * (workerCount * (workerCount - 1)) ∧
      ∀ es s, run (scheduleStep F) F.init es = some s →
        es.length ≤ 4 * (a.numRounds * (workerCount * (workerCount - 1))) + 1 ∧
          RoundsStarted a F s := by
  obtain ⟨hlen, hnodup, hhosts, -⟩ := spread_of_some hworkers
  obtain ⟨flows, hflows, hgenerated⟩ := exists_generated hnodup hfinite
  obtain ⟨F, hF, hFstop⟩ := hgenerated.exists_inputs hmono hzero hstart hstop
  have hrounds := hgenerated.ofRounds hfinite hF
  rw [← hlen] at hcount ⊢
  refine ⟨hlen ▸ spread_of_some hworkers, flows, F, hflows, hFstop, ?_, hrounds.length,
    fun es s hs => ⟨hrounds.length ▸ length_le_of_run hs, ?_⟩⟩
  · rw [hF, List.length_map]
    exact readFlowFile_of_fits a.fl (hgenerated.length ▸ hcount) fun f hf =>
      fits_of_count hhosts hsize hcount ((hgenerated.mem_iff f).mp hf)
  · exact hrounds.started (waiting_of_reachable ⟨es, hs⟩)

/-- Two workers that send 12 MiB to each other, from second 2 on -/
def twoWorkers : OnoffArgs :=
  { fl := fun x => x, workers := [0, 8], baseTime := 2, numRounds := 2, flowSize := 12582912,
    offTime := 1 / 50, bandwidthGbps := 100, periodOverride := some 1,
    bandwidth_ne_zero := by norm_num }

theorem twoWorkers_nonneg : ∀ r < 2, 0 ≤ twoWorkers.roundTime r := by
  intro r hr
  change (0 : ℚ) ≤ 2 + r * 1
  positivity

theorem twoWorkers_finite : ∀ r < 2, |twoWorkers.roundTime r| ≤ maxDouble := by
  intro r hr
  have hr' : (r : ℚ) ≤ 1 := by exact_mod_cast Nat.le_of_lt_succ hr
  have htime : |twoWorkers.roundTime r| ≤ 2 ^ 2 := by
    rw [abs_of_nonneg (twoWorkers_nonneg r hr)]
    change (2 : ℚ) + r * 1 ≤ 2 ^ 2
    linarith
  have hfour : (2 : ℚ) ^ 2 ≤ 2 ^ 971 := pow_le_pow_right₀ one_le_two (by decide)
  have hlarge : (2 : ℚ) ^ 1024 = 2 ^ 971 * 2 ^ 53 := by rw [← pow_add]
  rw [maxDouble, hlarge]
  generalize (2 : ℚ) ^ 971 = b at hfour ⊢
  linarith

/-- Each simulation of the four flows for ten seconds has at most 17 events, and at its end host 8
has sent in the second round. -/
theorem alltoall_started_two : ∃ F : FlowInputs, F.flows.length = 4 ∧ F.stopAt = 10000000000 ∧
    ∀ es s, run (scheduleStep F) F.init es = some s → es.length ≤ 17 ∧
      (Ended F s → ∃ x ∈ s.started, x.client.flow.key = (8, 0, 10001)) := by
  have hworkers : spreadWorkersForTopoS 2 = some twoWorkers.workers := by decide
  have hten : seconds 10 = 10000000000 := by decide +kernel
  have hnonneg : 0 ≤ seconds 10 := hten.symm ▸ Int.natCast_nonneg _
  have hthree : twoWorkers.startOf 1 = 3000000000 := by decide +kernel
  obtain ⟨-, flows, F, -, hstop, -, hlen, hrun⟩ := alltoall_started hworkers twoWorkers_finite
    (by decide) (by decide) monotone_id rfl twoWorkers_nonneg hnonneg
  have hstopAt : F.stopAt = 10000000000 := by rw [FlowInputs.stopAt, hstop, hten]
  refine ⟨F, hlen, hstopAt, fun es s hs => ⟨(hrun es s hs).1, fun hended => ?_⟩⟩
  refine (hrun es s hs).2.allStarted hended 1 8 0 ⟨by decide, by decide, by decide, by decide⟩ ?_
  rw [hthree, hstopAt]
  decide

end Paraleon.Traffic
