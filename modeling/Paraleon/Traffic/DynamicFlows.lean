import Mathlib.Data.List.Sort
import Paraleon.Library.Simulation
import Paraleon.Traffic.CustomRand
import Paraleon.Traffic.FlowFile

/-!
# Dynamic traffic between autonomous systems

`generate_dynamic_flows` draws for each system the times at which a slice of traffic to another
system begins, and `generate_flows` the flows of a slice, in the order of their times. The slices
are put one behind the other. What is random is a list of draws for each kind of draw.

* `generateDynamicFlows_follows`: the start times depend on the exponential draws only.
* `dynamicFlows_sorted_iff`: the flows are in the order of their times exactly if no slice has a
  time that is later than one of a slice behind it.
-/

namespace Paraleon.Traffic

open Numerals PyText Simulation Streams

/-! ## Draws -/

/-- What `random` is going to give, and `dport_map`. -/
structure World where
  /-- The values of `-math.log(1 - random.random())`. -/
  exponentials : List ℚ
  /-- The values of `random.uniform(0, 100)`. -/
  percentiles : List ℚ
  /-- The places at which `random.choice` takes an element of a list. -/
  choices : List Nat
  dportMap : Nat × Nat → Nat

/-- `none`: an exception is raised, or there are not enough draws for a run that returns. -/
abbrev Gen := StateT World Option

def exponential : Gen ℚ := fun w =>
  match w.exponentials with
  | [] => none
  | e :: exponentials => some (e, { w with exponentials })

def uniform : Gen ℚ := fun w =>
  match w.percentiles with
  | [] => none
  | p :: percentiles => some (p, { w with percentiles })

def choice {α : Type} (xs : List α) : Gen α := fun w =>
  match w.choices with
  | [] => none
  | i :: choices => xs[i]?.map fun x => (x, { w with choices })

/-- `int` of a number: towards zero. -/
def toInt (x : ℚ) : Int := if 0 ≤ x then ⌊x⌋ else ⌈x⌉

/-- `x / y`; a zero raises an exception. -/
def div (fl : ℚ → ℚ) (x y : ℚ) : Option ℚ := if y = 0 then none else some (fl (x / y))

/-- `int(-math.log(1 - random.random()) * lam)` -/
def poisson (fl : ℚ → ℚ) (lam : ℚ) : Gen Int := do
  let e ← exponential
  return toInt (fl (e * lam))

/-! ## The generators -/

/-- `Flow(src, dst, size, t)`; a time is a finite double. -/
def Flow.init (src dst : Nat) (size : Int) (t : ℚ) : Gen Flow := fun w =>
  if finite : |t| ≤ maxDouble then
    some
      ({ src, dst, dport := w.dportMap (src, dst), size := (max size 100).toNat, t,
         size_ge := Int.ofNat_le.mp ((le_max_right size 100).trans (Int.self_le_toNat _)), finite },
        { w with
          dportMap := Function.update w.dportMap (src, dst) (w.dportMap (src, dst) + 1) })
  else none

def units : Option Char → ℚ
  | some 'G' => 10 ^ 9
  | some 'M' => 10 ^ 6
  | some 'K' => 10 ^ 3
  | _ => 1

def translateBandwidth (fl : ℚ → ℚ) (bw : Text) : Option ℚ :=
  if bw.length < 2 then none
  else (float fl bw.dropLast).map fun x => fl (x * units bw.getLast?)

/-- `current_time + poisson(avg_interval*1e9)/1e9` -/
def nextTime (fl : ℚ → ℚ) (avgInterval currentTime : ℚ) : Gen ℚ := do
  let n ← poisson fl (fl (avgInterval * 10 ^ 9))
  return fl (currentTime + fl (n / 10 ^ 9))

/-- The loop over the flows of a host, for a number of rounds. -/
def hostFlows (fl : ℚ → ℚ) (customRand : CustomRand ℚ) (dstHosts : List Nat) (src : Nat)
    (avgInterval stop : ℚ) : Nat → ℚ → Gen (List Flow)
  | 0, _ => StateT.lift none
  | rounds + 1, currentTime =>
    if currentTime < stop then do
      let dst ← choice (dstHosts.filter (· ≠ src))
      let percentile ← uniform
      let size ← StateT.lift (customRand.getValueFromPercentile percentile).toOption
      let flow ← Flow.init src dst (toInt size) currentTime
      let currentTime ← nextTime fl avgInterval currentTime
      let flows ← hostFlows fl customRand dstHosts src avgInterval stop rounds currentTime
      return flow :: flows
    else return []

/-- The loop over the hosts. -/
def hostsFlows (fl : ℚ → ℚ) (customRand : CustomRand ℚ) (dstHosts : List Nat)
    (avgInterval baseTime stop : ℚ) (rounds : Nat) : List Nat → Gen (List Flow)
  | [] => return []
  | src :: srcHosts => do
    let currentTime ← nextTime fl avgInterval baseTime
    let flows ← hostFlows fl customRand dstHosts src avgInterval stop rounds currentTime
    let rest ← hostsFlows fl customRand dstHosts avgInterval baseTime stop rounds srcHosts
    return flows ++ rest

/-- `1 / (rate_per_host / 8 / avg_size)` -/
def sendInterval (fl : ℚ → ℚ) (ratePerHost avgSize : ℚ) : Option ℚ :=
  (div fl (fl (ratePerHost / 8)) avgSize).bind (div fl 1)

/-- `generate_flows`, which tries again while the rate is too far from its target. -/
def generateFlows (fl : ℚ → ℚ) (srcHosts dstHosts : List Nat) (cdfFile hostRate : Text)
    (duration baseTime : ℚ) (rounds : Nat) : Nat → Bool → Gen (List Flow)
  | 0, _ => StateT.lift none
  | tries + 1, restrict => do
    let customRand ← StateT.lift (CustomRand.init fl cdfFile)
    let ratePerHost ← StateT.lift (translateBandwidth fl hostRate)
    let avgInterval ← StateT.lift (sendInterval fl ratePerHost customRand.getAvg)
    let flows ← hostsFlows fl customRand dstHosts avgInterval baseTime (fl (baseTime + duration))
      rounds srcHosts
    let flows := flows.insertionSort fun f g => f.t ≤ g.t
    let rate ← StateT.lift (div fl (fl (flows.map Flow.size).sum) duration)
    let actualRate := fl (rate * 8)
    let targetRate := fl (ratePerHost * srcHosts.length)
    if fl (fl (9 / 10) * targetRate) ≤ actualRate ∧ actualRate ≤ fl (fl (11 / 10) * targetRate) ∨
        restrict = false then
      return flows
    else
      generateFlows fl srcHosts dstHosts cdfFile hostRate duration baseTime rounds tries true

/-- The arguments of `generate_dynamic_flows`, and what `str` makes of a double. -/
structure DynamicArgs where
  fl : ℚ → ℚ
  str : ℚ → Text
  asList : List (List Nat)
  cdfFile : Text
  totalRate : Text
  duration : ℚ
  sliceDuration : ℚ
  sliceRate : Text
  baseTime : ℚ

namespace DynamicArgs

variable (args : DynamicArgs)

/-- `f'{slice_rate_f/len(src_as)/1e9}G'` -/
def hostRate (sliceRateF : ℚ) (srcAs : List Nat) : Option Text :=
  (div args.fl sliceRateF srcAs.length).map fun x => args.str (args.fl (x / 10 ^ 9)) ++ ['G']

/-- `avg_interval` of the slices. -/
def avgInterval (sliceRateF : ℚ) : Option ℚ :=
  (translateBandwidth args.fl args.totalRate).bind fun totalRateF =>
    (div args.fl (args.fl (totalRateF * args.duration))
      (args.fl (sliceRateF * args.sliceDuration))).bind fun sliceCount =>
        div args.fl args.duration (toInt sliceCount)

/-- `base_time + duration` -/
def stop : ℚ := args.fl (args.baseTime + args.duration)

/-- The loop over the slices of a system, for a number of rounds. -/
def systemSlices (sliceRateF avgInterval : ℚ) (srcAs : List Nat) (inner : Nat) :
    Nat → ℚ → Gen (List (List Flow))
  | 0, _ => StateT.lift none
  | rounds + 1, curTime =>
    if curTime < args.stop then do
      let dstAs ← choice (args.asList.filter (· ≠ srcAs))
      let hostRate ← StateT.lift (args.hostRate sliceRateF srcAs)
      let slice ← generateFlows args.fl srcAs dstAs args.cdfFile hostRate args.sliceDuration
        curTime inner 1 false
      let curTime ← nextTime args.fl avgInterval curTime
      let slices ← systemSlices sliceRateF avgInterval srcAs inner rounds curTime
      return slice :: slices
    else return []

/-- The loop over the systems. -/
def systemsSlices (sliceRateF avgInterval : ℚ) (rounds : Nat) :
    List (List Nat) → Gen (List (List Flow))
  | [] => return []
  | srcAs :: systems => do
    let curTime ← nextTime args.fl avgInterval args.baseTime
    let slices ← args.systemSlices sliceRateF avgInterval srcAs rounds rounds curTime
    let rest ← systemsSlices sliceRateF avgInterval rounds systems
    return slices ++ rest

/-- `generate_dynamic_flows`; no loop may have more than `rounds` rounds. -/
def generateDynamicFlows (rounds : Nat) : Gen (List Flow) := do
  let sliceRateF ← StateT.lift (translateBandwidth args.fl args.sliceRate)
  let avgInterval ← StateT.lift (args.avgInterval sliceRateF)
  let slices ← args.systemsSlices sliceRateF avgInterval rounds args.asList
  return slices.flatten

end DynamicArgs

/-! ## The times alone -/

/-- Programs that draw times only. -/
abbrev Times := StateT (List ℚ) Option

namespace Times

def exponential : Times ℚ := fun es =>
  match es with
  | [] => none
  | e :: es => some (e, es)

/-- The next time is later by a number of whole nanoseconds. -/
def next (fl : ℚ → ℚ) (avgInterval time : ℚ) : Times ℚ := do
  let e ← exponential
  return fl (time + fl (toInt (fl (e * fl (avgInterval * 10 ^ 9))) / 10 ^ 9))

/-- Times from one on, as long as they are before `stop`. -/
def ofHost (fl : ℚ → ℚ) (avgInterval stop : ℚ) : Nat → ℚ → Times (List ℚ)
  | 0, _ => StateT.lift none
  | rounds + 1, time =>
    if time < stop then do
      let later ← next fl avgInterval time
      let times ← ofHost fl avgInterval stop rounds later
      return time :: times
    else return []

def ofHosts (fl : ℚ → ℚ) (avgInterval baseTime stop : ℚ) (rounds : Nat) : Nat → Times (List ℚ)
  | 0 => return []
  | hosts + 1 => do
    let time ← next fl avgInterval baseTime
    let times ← ofHost fl avgInterval stop rounds time
    let rest ← ofHosts fl avgInterval baseTime stop rounds hosts
    return times ++ rest

/-- The interval between the flows of a host. -/
def interval (fl : ℚ → ℚ) (cdfFile hostRate : Text) : Option ℚ :=
  (CustomRand.init fl cdfFile).bind fun customRand =>
    (translateBandwidth fl hostRate).bind fun ratePerHost =>
      sendInterval fl ratePerHost customRand.getAvg

variable (args : DynamicArgs)

/-- The slices of a system that begin from a time on. -/
def ofSystem (avgInterval : ℚ) (interval : Option ℚ) (hosts inner : Nat) :
    Nat → ℚ → Times (List (List ℚ))
  | 0, _ => StateT.lift none
  | rounds + 1, time =>
    if time < args.stop then do
      let avgIntervalOfFlows ← StateT.lift interval
      let slice ← ofHosts args.fl avgIntervalOfFlows time (args.fl (time + args.sliceDuration))
        inner hosts
      let later ← next args.fl avgInterval time
      let slices ← ofSystem avgInterval interval hosts inner rounds later
      return slice :: slices
    else return []

def ofSystems (sliceRateF avgInterval : ℚ) (rounds : Nat) :
    List (List Nat) → Times (List (List ℚ))
  | [] => return []
  | srcAs :: systems => do
    let time ← next args.fl avgInterval args.baseTime
    let interval := (args.hostRate sliceRateF srcAs).bind (Times.interval args.fl args.cdfFile)
    let slices ← ofSystem args avgInterval interval srcAs.length rounds rounds time
    let rest ← ofSystems sliceRateF avgInterval rounds systems
    return slices ++ rest

/-- The start times of each slice. -/
def slices (rounds : Nat) : Times (List (List ℚ)) := do
  let sliceRateF ← StateT.lift (translateBandwidth args.fl args.sliceRate)
  let avgInterval ← StateT.lift (args.avgInterval sliceRateF)
  ofSystems args sliceRateF avgInterval rounds args.asList

end Times

/-! ## The generators draw these times -/

theorem keeps_uniform : Keeps World.exponentials (fun _ => True) uniform := by
  intro w p w' h
  unfold uniform at h
  split at h
  · cases h
  · cases h
    exact ⟨rfl, trivial⟩

theorem keeps_choice {α : Type} (xs : List α) :
    Keeps World.exponentials (· ∈ xs) (choice xs) := by
  intro w a w' h
  unfold choice at h
  split at h
  · cases h
  · obtain ⟨_, hget, heq⟩ := Option.map_eq_some_iff.mp h
    cases heq
    exact ⟨rfl, List.mem_of_getElem? hget⟩

theorem keeps_flow (src dst : Nat) (size : Int) (t : ℚ) :
    Keeps World.exponentials (fun f => f.t = t) (Flow.init src dst size t) := by
  intro w f w' h
  obtain ⟨hfinite, h⟩ := Option.dite_none_right_eq_some.mp h
  cases h
  exact ⟨rfl, rfl⟩

theorem follows_exponential :
    Follows World.exponentials Eq exponential Times.exponential := by
  intro w e w' h
  unfold exponential at h
  split at h
  · cases h
  · next heq =>
    cases h
    exact ⟨e, by rw [heq]; rfl, rfl⟩

theorem follows_next (fl : ℚ → ℚ) (avgInterval time : ℚ) :
    Follows World.exponentials Eq (nextTime fl avgInterval time)
      (Times.next fl avgInterval time) := by
  intro w t w' h
  obtain ⟨n, w₁, hpoisson, hpure⟩ := bind_eq_some.mp h
  obtain ⟨e, w₂, hdraw, hint⟩ := bind_eq_some.mp hpoisson
  obtain ⟨_, htimes, rfl⟩ := follows_exponential w e w₂ hdraw
  obtain ⟨rfl, rfl⟩ := Prod.mk.inj (pure_eq_some.mp hint)
  obtain ⟨rfl, rfl⟩ := Prod.mk.inj (pure_eq_some.mp hpure)
  exact ⟨_, bind_eq_some.mpr ⟨e, _, htimes, rfl⟩, rfl⟩

variable {fl : ℚ → ℚ}

/-- The flows have these times. -/
def HasTimes (flows : List Flow) (times : List ℚ) : Prop := flows.map Flow.t = times

theorem follows_hostFlows (customRand : CustomRand ℚ) (dstHosts : List Nat) (src : Nat)
    (avgInterval stop : ℚ) (rounds : Nat) (time : ℚ) :
    Follows World.exponentials HasTimes
      (hostFlows fl customRand dstHosts src avgInterval stop rounds time)
      (Times.ofHost fl avgInterval stop rounds time) := by
  induction rounds generalizing time with
  | zero => exact nofun
  | succ rounds ih =>
    rw [hostFlows, Times.ofHost]
    split
    · refine .keeps_bind (keeps_choice _) fun dst _ => .keeps_bind keeps_uniform fun percentile _ =>
        .keeps_bind (.lift _) fun size _ => ?_
      refine .keeps_bind (keeps_flow src dst (toInt size) time) fun flow htime => ?_
      refine .bind (follows_next fl avgInterval time) fun later later' hlater => ?_
      subst hlater
      refine .bind (ih later) fun flows times htimes => .pure ?_
      rw [HasTimes, List.map_cons, htime, htimes]
    · exact .pure rfl

theorem follows_hostsFlows (customRand : CustomRand ℚ) (dstHosts : List Nat)
    (avgInterval baseTime stop : ℚ) (rounds : Nat) (srcHosts : List Nat) :
    Follows World.exponentials HasTimes
      (hostsFlows fl customRand dstHosts avgInterval baseTime stop rounds srcHosts)
      (Times.ofHosts fl avgInterval baseTime stop rounds srcHosts.length) := by
  induction srcHosts with
  | nil => exact .pure rfl
  | cons src srcHosts ih =>
    refine .bind (follows_next fl avgInterval baseTime) fun time time' htime => ?_
    subst htime
    refine .bind (follows_hostFlows customRand dstHosts src avgInterval stop rounds time)
      fun flows times htimes => .bind ih fun rest restTimes hrest => .pure ?_
    rw [HasTimes, List.map_append, htimes, hrest]

/-- The flows are sorted, and have these times. -/
def SortedSlice (flows : List Flow) (times : List ℚ) : Prop :=
  flows.Pairwise (fun f g => f.t ≤ g.t) ∧ (flows.map Flow.t).Perm times

theorem follows_generateFlows (srcHosts dstHosts : List Nat) (cdfFile hostRate : Text)
    (duration baseTime : ℚ) (rounds : Nat) :
    Follows World.exponentials SortedSlice
      (generateFlows fl srcHosts dstHosts cdfFile hostRate duration baseTime rounds 1 false)
      (StateT.lift (Times.interval fl cdfFile hostRate) >>= fun avgInterval =>
        Times.ofHosts fl avgInterval baseTime (fl (baseTime + duration)) rounds
          srcHosts.length) := by
  refine .keeps_bind (.lift _) fun customRand hinit => .keeps_bind (.lift _) fun rate hrate =>
    .keeps_bind (.lift _) fun avgInterval hsend => ?_
  have hinterval : Times.interval fl cdfFile hostRate = some avgInterval := by
    rw [Times.interval, hinit, Option.bind_some, hrate, Option.bind_some, hsend]
  refine .lift_bind hinterval ?_
  intro w flows w' h
  obtain ⟨raw, w₁, hraw, h⟩ := bind_eq_some.mp h
  obtain ⟨times, htimes, hraw⟩ := follows_hostsFlows customRand dstHosts avgInterval baseTime _
    rounds srcHosts w raw w₁ hraw
  obtain ⟨sizes, w₂, hsizes, h⟩ := bind_eq_some.mp h
  obtain ⟨_, -, heq⟩ := lift_eq_some.mp hsizes
  cases heq
  rw [if_pos (.inr rfl)] at h
  obtain ⟨rfl, rfl⟩ := Prod.mk.inj (pure_eq_some.mp h)
  refine ⟨times, htimes, List.pairwise_insertionSort (fun f g : Flow => f.t ≤ g.t) raw, ?_⟩
  rw [← hraw]
  exact (List.perm_insertionSort _ raw).map Flow.t

variable {args : DynamicArgs}

theorem follows_systemSlices (sliceRateF avgInterval : ℚ) (srcAs : List Nat)
    (inner rounds : Nat) (time : ℚ) :
    Follows World.exponentials (List.Forall₂ SortedSlice)
      (args.systemSlices sliceRateF avgInterval srcAs inner rounds time)
      (Times.ofSystem args avgInterval
        ((args.hostRate sliceRateF srcAs).bind (Times.interval args.fl args.cdfFile))
        srcAs.length inner rounds time) := by
  induction rounds generalizing time with
  | zero => exact nofun
  | succ rounds ih =>
    rw [DynamicArgs.systemSlices, Times.ofSystem]
    split
    · refine .keeps_bind (keeps_choice _) fun dstAs _ => .keeps_bind (.lift _) fun rate hrate => ?_
      rw [hrate, Option.bind_some] at ih ⊢
      rw [← bind_assoc]
      refine .bind (follows_generateFlows srcAs dstAs args.cdfFile rate args.sliceDuration time
        inner) fun slice times hslice => ?_
      refine .bind (follows_next args.fl avgInterval time) fun later later' hlater => ?_
      subst hlater
      exact .bind (ih later) fun slices rest hrest => .pure (.cons hslice hrest)
    · exact .pure .nil

theorem follows_systemsSlices (sliceRateF avgInterval : ℚ) (rounds : Nat)
    (systems : List (List Nat)) :
    Follows World.exponentials (List.Forall₂ SortedSlice)
      (args.systemsSlices sliceRateF avgInterval rounds systems)
      (Times.ofSystems args sliceRateF avgInterval rounds systems) := by
  induction systems with
  | nil => exact .pure .nil
  | cons srcAs systems ih =>
    refine .bind (follows_next args.fl avgInterval args.baseTime) fun time time' htime => ?_
    subst htime
    exact .bind (follows_systemSlices sliceRateF avgInterval srcAs rounds rounds time)
      fun slices times htimes => .bind ih fun rest restTimes hrest =>
        .pure (List.rel_append htimes hrest)

/-- The start times of the slices depend on the exponential draws only. -/
theorem generateDynamicFlows_follows (rounds : Nat) :
    Follows World.exponentials
      (fun flows times => ∃ slices, flows = slices.flatten ∧ List.Forall₂ SortedSlice slices times)
      (args.generateDynamicFlows rounds) (Times.slices args rounds) := by
  refine .keeps_bind (.lift _) fun sliceRateF hrate => .keeps_bind (.lift _)
    fun avgInterval hinterval => ?_
  refine .lift_bind hrate (.lift_bind hinterval ?_)
  rw [← bind_pure (Times.ofSystems args sliceRateF avgInterval rounds args.asList)]
  exact .bind (follows_systemsSlices sliceRateF avgInterval rounds args.asList)
    fun slices times hsorted => .pure ⟨slices, rfl, hsorted⟩

/-! ## The order of the flows -/

/-- No slice has a start time that is later than one of a slice behind it. -/
def SlicesInOrder (args : DynamicArgs) (rounds : Nat) (exponentials : List ℚ) : Prop :=
  ∀ slices rest, Times.slices args rounds exponentials = some (slices, rest) →
    slices.Pairwise fun earlier later => ∀ s ∈ earlier, ∀ t ∈ later, s ≤ t

/-- Sorted slices one behind the other are sorted if each pair of them is in order. -/
theorem flatten_sorted_iff {slices : List (List Flow)} {times : List (List ℚ)}
    (h : List.Forall₂ SortedSlice slices times) :
    slices.flatten.Pairwise (fun f g => f.t ≤ g.t) ↔
      times.Pairwise fun earlier later => ∀ s ∈ earlier, ∀ t ∈ later, s ≤ t := by
  have hmem : ∀ {slice : List Flow} {ts : List ℚ}, SortedSlice slice ts → ∀ {P : ℚ → Prop},
      (∀ f ∈ slice, P f.t) ↔ ∀ t ∈ ts, P t := by
    intro slice ts hslice P
    rw [← List.forall_mem_map (f := Flow.t)]
    exact forall_congr' fun t => imp_congr_left hslice.2.mem_iff
  induction h with
  | nil => simp
  | @cons slice ts slices times hslice hrest ih =>
    rw [List.flatten_cons, List.pairwise_append, List.pairwise_cons, and_iff_right hslice.1,
      and_comm]
    refine and_congr ?_ ih
    have hall : ∀ {P : ℚ → Prop}, (∀ f ∈ slices.flatten, P f.t) ↔
        ∀ later ∈ times, ∀ t ∈ later, P t := by
      intro P
      clear ih
      induction hrest with
      | nil => simp
      | cons hslice' _ ih' =>
        rw [List.flatten_cons, List.forall_mem_append, hmem hslice', ih', List.forall_mem_cons]
    rw [hmem hslice (P := fun s => ∀ g ∈ slices.flatten, s ≤ g.t)]
    constructor
    · exact fun hle later hlater s hs t ht => hall.mp (hle s hs) later hlater t ht
    · exact fun hle s hs => hall.mpr fun later hlater t ht => hle later hlater s hs t ht

/-- What is returned is in the order of the start times exactly if the slices are. -/
theorem dynamicFlows_sorted_iff {rounds : Nat} {w w' : World} {flows : List Flow}
    (h : args.generateDynamicFlows rounds w = some (flows, w')) :
    flows.Pairwise (fun f g => f.t ≤ g.t) ↔ SlicesInOrder args rounds w.exponentials := by
  obtain ⟨times, htimes, slices, rfl, hsorted⟩ := generateDynamicFlows_follows rounds w flows w' h
  rw [flatten_sorted_iff hsorted]
  constructor
  · intro horder slices' rest' hslices
    cases htimes.symm.trans hslices
    exact horder
  · exact fun horder => horder times _ htimes

/-- Two systems of one host, and one slice of each. -/
def exArgs : DynamicArgs where
  fl := id
  str x := decimal x.num.toNat ++ ['.', '0']
  asList := [[0], [1]]
  cdfFile := "0 0\n1000000000 100\n".toList
  totalRate := "100G".toList
  duration := 1 / 50
  sliceDuration := 1 / 50
  sliceRate := "100G".toList
  baseTime := 2

/-- The slice of the first system begins 10 ms after `base_time`, that of the second 5 ms. -/
def exWorld : World where
  exponentials := [1 / 2, 0, 1, 1, 1 / 4, 0, 1, 1]
  percentiles := [50, 50]
  choices := [0, 0, 0, 0]
  dportMap _ := 1

theorem exRun_isSome : (exArgs.generateDynamicFlows 2 exWorld).isSome = true := by
  decide +kernel

def exFlows : List Flow := ((exArgs.generateDynamicFlows 2 exWorld).get exRun_isSome).1

def exWorld' : World := ((exArgs.generateDynamicFlows 2 exWorld).get exRun_isSome).2

theorem exRun : exArgs.generateDynamicFlows 2 exWorld = some (exFlows, exWorld') := by
  rw [exFlows, exWorld', Option.some_get]

theorem exFlows_sorted_iff : exFlows.Pairwise (fun f g => f.t ≤ g.t) ↔
    SlicesInOrder exArgs 2 exWorld.exponentials :=
  dynamicFlows_sorted_iff exRun

/-- The flow at 2.005 s is behind that at 2.01 s. -/
theorem dynamicFlows_unsorted :
    exArgs.generateDynamicFlows 2 exWorld = some (exFlows, exWorld') ∧
      exFlows.map Flow.t = [201 / 100, 401 / 200] ∧
        ¬exFlows.Pairwise fun f g => f.t ≤ g.t := by
  have htimes : exFlows.map Flow.t = [201 / 100, 401 / 200] := by decide +kernel
  refine ⟨exRun, htimes, fun hsorted => ?_⟩
  have hordered : (exFlows.map Flow.t).Pairwise (· ≤ ·) := List.pairwise_map.mpr hsorted
  rw [htimes] at hordered
  exact absurd hordered (by decide +kernel)

end Paraleon.Traffic
