import Paraleon.Library.Runs
import Paraleon.Tuning.HostReport
import Paraleon.Tuning.UploadRatio

/-!
# The monitor and its tuning threads

The loop of the tuner counts the flows of each new observation, compares the ratio with that of
the last cycle and, when it has changed enough, starts a thread that tunes. The thread shares with
the loop the flow ratios, the flag `is_tuning` and the number of tuning rounds. A step is one
access to what they share, and the two may take turns in any order.

* `Monitor.Safe`: at most one thread is at work, and `is_tuning` says whether one is; the threads
  are numbered one after the other; the first one is started by the first cycle, and no other one
  for this reason.
* `safe_of_reachable`: this holds in every state that the loop and its threads can reach.
* `draws_divide`: a draw of a direction reads up to four numbers one after the other. When the loop
  takes no step between them, they can be divided.
* `stuck_of_failed`: otherwise the division can fail. The thread never resets the flag then, and no
  other one is started.
-/

namespace Paraleon.Tuning

open OrderedDict

/-! ## The threads -/

inductive TriggerReason where
  | initialObservation
  | klDivergence
  | observation
deriving DecidableEq, Repr

/-- `current_flow_ratio` or `previous_flow_ratio` -/
inductive Source where
  | current
  | previous
deriving DecidableEq, Repr

/-- Where a thread is in `get_new_solution_direction`, with what it has read: the two tests of the
current ratio, and the numbers that are divided. -/
inductive Draw where
  | testingLarge
  | testingSmall
  | readingLarge (source : Source)
  | readingSmall (source : Source) (largeFlowNumber : ℚ)
deriving DecidableEq, Repr

/-- Where a thread is in `start_tuning`. `total_tuning_rounds += 1` reads the number and then
writes it; the number is read again for the calls that follow. A thread has failed when a draw
raised `ZeroDivisionError`. -/
inductive Phase where
  | starting
  | incrementing (totalTuningRounds : Nat)
  | incremented
  | tuning (tuningRoundIndex : Nat)
  | drawing (tuningRoundIndex : Nat) (draw : Draw)
  | failed (tuningRoundIndex : Nat)
  | finished (tuningRoundIndex : Nat)
deriving DecidableEq, Repr

structure Session where
  triggerReason : TriggerReason
  phase : Phase
deriving DecidableEq, Repr

/-! ## The loop -/

/-- Where the loop is between two accesses to what it shares with the threads -/
inductive LoopPhase where
  | waiting
  | counting (rest : List Increment)
  | testing
  | decided (triggerReason : Option TriggerReason)
  | launching (triggerReason : TriggerReason)
  | copying
  | resettingLarge
  | resettingSmall
deriving DecidableEq, Repr

/-- What the loop finds when the file has changed: a report of the switches, one of the hosts, or
nothing that it can count. -/
inductive Observation (σ φ : Type*) where
  | empty
  | switches (currentTime : ℚ) (report : SketchReport σ φ)
  | hosts (progress : PyText.Dict HostWr.FlowProgress)

structure Monitor (σ φ η : Type*) where
  previousObservationHash : Option η
  totalMonitorRounds : Nat
  table : FlowTable σ φ
  currentFlowRatio : FlowRatio
  previousFlowRatio : FlowRatio
  isTuning : Bool
  totalTuningRounds : Nat
  loop : LoopPhase
  sessions : List Session

/-- The settings of the loop; `exceeds` is the test of the divergence. -/
structure LoopConfig (κ : Type*) extends MonitorConfig where
  collectOnlyMode : Bool
  hostFlowChunkBytes : Int
  largeFlowThresholdBytes : Int
  entropy : ℚ × ℚ → ℚ × ℚ → κ
  triggerThreshold : κ

inductive MonitorEvent (σ φ η : Type*) where
  | observe (hash : η) (observation : Observation σ φ)
  | loop
  | thread (i : Nat)
  | draw (i : Nat)
  | finish (i : Nat)

variable {σ φ η κ : Type*} [DecidableEq σ] [DecidableEq φ] (cfg : LoopConfig κ)

section Steps

variable [DecidableEq η] [LinearOrder κ] [Zero κ]

/-- The totals are tested before the divisions. -/
def computeDivergence (current previous : FlowRatio) : κ :=
  let currentTotal := cfg.fl (current.large + current.small)
  let previousTotal := cfg.fl (previous.large + previous.small)
  if currentTotal ≤ 0 ∨ previousTotal ≤ 0 then 0
  else
    cfg.entropy (cfg.fl (current.large / currentTotal), cfg.fl (current.small / currentTotal))
      (cfg.fl (previous.large / previousTotal), cfg.fl (previous.small / previousTotal))

namespace Monitor

/-- The globals before the loop -/
def init : Monitor σ φ η where
  previousObservationHash := none
  totalMonitorRounds := 0
  table := []
  currentFlowRatio := { large := 0, small := 0 }
  previousFlowRatio := { large := -1, small := -1 }
  isTuning := false
  totalTuningRounds := 0
  loop := .waiting
  sessions := []

variable (s : Monitor σ φ η)

/-- The beginning of a cycle, when the hash is a new one. `continue` leaves the ratios as they
are. -/
def observe : Observation σ φ → Monitor σ φ η
  | .empty => s
  | .switches currentTime report =>
    if report.hasFlow then
      let c := cycle cfg.toMonitorConfig s.table currentTime report
      { s with
        table := c.2
        loop := .counting (c.1.flatMap fun e => e.2.increments cfg.toMonitorConfig) }
    else s
  | .hosts progress =>
    if progress.isEmpty then s
    else
      let m := HostWr.classifyHostFlowProgress cfg.hostFlowChunkBytes
        cfg.largeFlowThresholdBytes progress
      { s with
        currentFlowRatio := { large := m.large, small := m.small }
        loop := .counting [] }

/-- The first test of the trigger; in collect-only mode there is no other. -/
def testInitial : Monitor σ φ η :=
  if cfg.collectOnlyMode then
    { s with
      loop := .decided (if s.isTuning = false then
        some (if s.previousFlowRatio.small = -1 then .initialObservation else .observation)
      else none) }
  else if s.previousFlowRatio.small = -1 ∧ s.isTuning = false then
    { s with loop := .decided (some .initialObservation) }
  else { s with loop := .testing }

/-- The second one, which reads `is_tuning` again -/
def testDivergence : Monitor σ φ η :=
  { s with
    loop := .decided
      (if cfg.triggerThreshold < computeDivergence cfg s.currentFlowRatio s.previousFlowRatio ∧
          s.isTuning = false then
        some .klDivergence
      else none) }

/-- The next access of the loop -/
def loopStep : Option (Monitor σ φ η) :=
  match s.loop with
  | .waiting => none
  | .counting (i :: rest) =>
    some { s with
      currentFlowRatio := s.currentFlowRatio.add cfg.toMonitorConfig i
      loop := .counting rest }
  | .counting [] => some (s.testInitial cfg)
  | .testing => some (s.testDivergence cfg)
  | .decided (some reason) => some { s with isTuning := true, loop := .launching reason }
  | .decided none => some { s with loop := .copying }
  | .launching reason =>
    some { s with
      sessions := s.sessions ++ [{ triggerReason := reason, phase := .starting }]
      loop := .copying }
  | .copying =>
    some { s with previousFlowRatio := s.currentFlowRatio, loop := .resettingLarge }
  | .resettingLarge =>
    some { s with
      currentFlowRatio := { s.currentFlowRatio with large := 0 }
      loop := .resettingSmall }
  | .resettingSmall =>
    some { s with
      currentFlowRatio := { s.currentFlowRatio with small := 0 }
      loop := .waiting }

def setPhase (i : Nat) (phase : Phase) : Monitor σ φ η :=
  { s with sessions := s.sessions.modify i fun session => { session with phase } }

def ratio : Source → FlowRatio
  | .current => s.currentFlowRatio
  | .previous => s.previousFlowRatio

/-- The next access of a draw. The sum of two floats is rounded to zero only where it is zero. -/
def drawStep (k : Nat) : Draw → Phase
  | .testingLarge =>
    .drawing k (if s.currentFlowRatio.large ≠ 0 then .testingSmall else .readingLarge .previous)
  | .testingSmall =>
    .drawing k (.readingLarge (if s.currentFlowRatio.small ≠ 0 then .current else .previous))
  | .readingLarge source => .drawing k (.readingSmall source (s.ratio source).large)
  | .readingSmall source largeFlowNumber =>
    if largeFlowNumber + (s.ratio source).small = 0 then .failed k else .tuning k

/-- The next access of a thread, up to the tuning itself, and in a draw -/
def threadStep (i : Nat) : Option (Monitor σ φ η) :=
  (s.sessions[i]?).bind fun session =>
    match session.phase with
    | .starting => some (s.setPhase i (.incrementing s.totalTuningRounds))
    | .incrementing n => some { s.setPhase i .incremented with totalTuningRounds := n + 1 }
    | .incremented => some (s.setPhase i (.tuning s.totalTuningRounds))
    | .drawing k d => some (s.setPhase i (s.drawStep k d))
    | .tuning _ => none
    | .failed _ => none
    | .finished _ => none

/-- `get_new_solution_direction` is called while a thread tunes. -/
def draw (i : Nat) : Option (Monitor σ φ η) :=
  (s.sessions[i]?).bind fun session =>
    match session.phase with
    | .tuning k => some (s.setPhase i (.drawing k .testingLarge))
    | _ => none

/-- The end of a thread -/
def finish (i : Nat) : Option (Monitor σ φ η) :=
  (s.sessions[i]?).bind fun session =>
    match session.phase with
    | .tuning k => some { s.setPhase i (.finished k) with isTuning := false }
    | _ => none

def step (s : Monitor σ φ η) : MonitorEvent σ φ η → Option (Monitor σ φ η)
  | .observe hash observation =>
    if s.loop = .waiting then
      if some hash = s.previousObservationHash then some s
      else
        some ({ s with
          previousObservationHash := some hash
          totalMonitorRounds := s.totalMonitorRounds + 1 }.observe cfg observation)
    else none
  | .loop => s.loopStep cfg
  | .thread i => s.threadStep i
  | .draw i => s.draw i
  | .finish i => s.finish i

end Monitor

end Steps

/-! ## What a step can do -/

namespace Monitor

/-- The steps of the loop and of the threads, with what they have read -/
inductive Moved (s : Monitor σ φ η) : Monitor σ φ η → Prop
  | unchanged : Moved s s
  | skipped (hash : η) : s.loop = .waiting →
    Moved s { s with
      previousObservationHash := some hash
      totalMonitorRounds := s.totalMonitorRounds + 1 }
  | switches (hash : η) (currentTime : ℚ) (report : SketchReport σ φ) : s.loop = .waiting →
    report.hasFlow = true →
    Moved s { s with
      previousObservationHash := some hash
      totalMonitorRounds := s.totalMonitorRounds + 1
      table := (cycle cfg.toMonitorConfig s.table currentTime report).2
      loop := .counting ((cycle cfg.toMonitorConfig s.table currentTime report).1.flatMap
        fun e => e.2.increments cfg.toMonitorConfig) }
  | hosts (hash : η) (large small : Nat) : s.loop = .waiting → 0 < large + small →
    Moved s { s with
      previousObservationHash := some hash
      totalMonitorRounds := s.totalMonitorRounds + 1
      currentFlowRatio := { large, small }
      loop := .counting [] }
  | adds (i : Increment) (rest : List Increment) : s.loop = .counting (i :: rest) →
    Moved s { s with
      currentFlowRatio := s.currentFlowRatio.add cfg.toMonitorConfig i
      loop := .counting rest }
  | decides (reason : Option TriggerReason) : s.loop = .counting [] →
    (reason = none → s.isTuning = true) →
    (∀ r, reason = some r → s.isTuning = false ∧
      (r = .initialObservation ↔ s.previousFlowRatio.small = -1)) →
    Moved s { s with loop := .decided reason }
  | continues : s.loop = .counting [] → ¬ (s.previousFlowRatio.small = -1 ∧ s.isTuning = false) →
    Moved s { s with loop := .testing }
  | compares (reason : Option TriggerReason) : s.loop = .testing →
    (∀ r, reason = some r → s.isTuning = false ∧ r ≠ .initialObservation) →
    Moved s { s with loop := .decided reason }
  | raises (reason : TriggerReason) : s.loop = .decided (some reason) →
    Moved s { s with isTuning := true, loop := .launching reason }
  | passes : s.loop = .decided none → Moved s { s with loop := .copying }
  | launches (reason : TriggerReason) : s.loop = .launching reason →
    Moved s { s with
      sessions := s.sessions ++ [{ triggerReason := reason, phase := .starting }]
      loop := .copying }
  | copies : s.loop = .copying →
    Moved s { s with previousFlowRatio := s.currentFlowRatio, loop := .resettingLarge }
  | resetsLarge : s.loop = .resettingLarge →
    Moved s { s with
      currentFlowRatio := { s.currentFlowRatio with large := 0 }
      loop := .resettingSmall }
  | resetsSmall : s.loop = .resettingSmall →
    Moved s { s with
      currentFlowRatio := { s.currentFlowRatio with small := 0 }
      loop := .waiting }
  | reads (i : Nat) (x : Session) : s.sessions[i]? = some x → x.phase = .starting →
    Moved s (s.setPhase i (.incrementing s.totalTuningRounds))
  | writes (i : Nat) (x : Session) (n : Nat) : s.sessions[i]? = some x →
    x.phase = .incrementing n →
    Moved s { s.setPhase i .incremented with totalTuningRounds := n + 1 }
  | numbers (i : Nat) (x : Session) : s.sessions[i]? = some x → x.phase = .incremented →
    Moved s (s.setPhase i (.tuning s.totalTuningRounds))
  | calls (i : Nat) (x : Session) (k : Nat) : s.sessions[i]? = some x → x.phase = .tuning k →
    Moved s (s.setPhase i (.drawing k .testingLarge))
  | draws (i : Nat) (x : Session) (k : Nat) (d : Draw) : s.sessions[i]? = some x →
    x.phase = .drawing k d → Moved s (s.setPhase i (s.drawStep k d))
  | finishes (i : Nat) (x : Session) (k : Nat) : s.sessions[i]? = some x → x.phase = .tuning k →
    Moved s { s.setPhase i (.finished k) with isTuning := false }

variable {cfg} {s t : Monitor σ φ η}

/-- A report of the hosts that is not empty has a flow. -/
theorem classify_total (chunk threshold : Int) (progress : PyText.Dict HostWr.FlowProgress) :
    let m := HostWr.classifyHostFlowProgress chunk threshold progress
    m.large + m.small = progress.length := by
  have hfold : ∀ (ps : List HostWr.FlowProgress) (m : HostWr.Classified),
      (ps.foldl (HostWr.classifyFlow chunk threshold) m).large +
        (ps.foldl (HostWr.classifyFlow chunk threshold) m).small =
          m.large + m.small + ps.length := by
    intro ps
    induction ps with
    | nil => exact fun m => rfl
    | cons p ps ih =>
      intro m
      have hone : (HostWr.classifyFlow chunk threshold m p).large +
          (HostWr.classifyFlow chunk threshold m p).small = m.large + m.small + 1 := by
        rw [HostWr.classifyFlow]
        split <;> split <;> dsimp only <;> lia
      rw [List.foldl_cons, ih, hone, List.length_cons]
      lia
  intro m
  have h := hfold (progress.map Prod.snd)
    { large := 0, small := 0, largeCount := 0, potentialLarge := 0, smallCount := 0,
      potentialEffective := 0, trueLargeCount := 0, trueSmallCount := 0 }
  rw [List.length_map] at h
  exact h.trans (Nat.zero_add _)

variable [LinearOrder κ] [Zero κ]

theorem moved_of_loopStep (h : s.loopStep cfg = some t) : Moved cfg s t := by
  rw [loopStep] at h
  split at h
  · cases h
  · next i rest hloop =>
    obtain rfl := Option.some.inj h
    exact .adds i rest hloop
  · next hloop =>
    obtain rfl := Option.some.inj h
    rw [testInitial]
    split
    · refine .decides _ hloop (fun hnone => ?_) fun r hr => ?_
      · split at hnone
        · cases hnone
        · next htuning => exact Bool.not_eq_false _ ▸ htuning
      · split at hr
        · next htuning =>
          obtain rfl := Option.some.inj hr
          refine ⟨htuning, ?_⟩
          split
          · next hsmall => exact iff_of_true rfl hsmall
          · next hsmall => exact iff_of_false (fun heq => nomatch heq) hsmall
        · cases hr
    · split
      · next hfirst =>
        refine .decides _ hloop (fun hnone => nomatch hnone) fun r hr => ?_
        obtain rfl := Option.some.inj hr
        exact ⟨hfirst.2, iff_of_true rfl hfirst.1⟩
      · next hfirst => exact .continues hloop hfirst
  · next hloop =>
    obtain rfl := Option.some.inj h
    refine .compares _ hloop fun r hr => ?_
    split at hr
    · next hexceeds =>
      obtain rfl := Option.some.inj hr
      exact ⟨hexceeds.2, fun heq => nomatch heq⟩
    · cases hr
  · next reason hloop =>
    obtain rfl := Option.some.inj h
    exact .raises reason hloop
  · next hloop =>
    obtain rfl := Option.some.inj h
    exact .passes hloop
  · next reason hloop =>
    obtain rfl := Option.some.inj h
    exact .launches reason hloop
  · next hloop =>
    obtain rfl := Option.some.inj h
    exact .copies hloop
  · next hloop =>
    obtain rfl := Option.some.inj h
    exact .resetsLarge hloop
  · next hloop =>
    obtain rfl := Option.some.inj h
    exact .resetsSmall hloop

/-- All that a step can do -/
theorem step_cases [DecidableEq η] {e : MonitorEvent σ φ η} (h : step cfg s e = some t) :
    Moved cfg s t := by
  cases e with
  | observe hash observation =>
    rw [step] at h
    split at h
    · next hloop =>
      split at h
      · obtain rfl := Option.some.inj h
        exact .unchanged
      · obtain rfl := Option.some.inj h
        cases observation with
        | empty => exact .skipped hash hloop
        | switches currentTime report =>
          rw [observe]
          split
          · next hflow => exact .switches hash currentTime report hloop hflow
          · exact .skipped hash hloop
        | hosts progress =>
          rw [observe]
          split
          · exact .skipped hash hloop
          · next hne =>
            refine .hosts hash _ _ hloop ?_
            rw [classify_total]
            exact List.length_pos_of_ne_nil fun hnil => hne (List.isEmpty_iff.mpr hnil)
    · cases h
  | loop => exact moved_of_loopStep h
  | thread i =>
    obtain ⟨x, hx, h⟩ := Option.bind_eq_some_iff.mp h
    split at h
    · next hphase =>
      obtain rfl := Option.some.inj h
      exact .reads i x hx hphase
    · next n hphase =>
      obtain rfl := Option.some.inj h
      exact .writes i x n hx hphase
    · next hphase =>
      obtain rfl := Option.some.inj h
      exact .numbers i x hx hphase
    · next k d hphase =>
      obtain rfl := Option.some.inj h
      exact .draws i x k d hx hphase
    · cases h
    · cases h
    · cases h
  | draw i =>
    obtain ⟨x, hx, h⟩ := Option.bind_eq_some_iff.mp h
    split at h
    · next k hphase =>
      obtain rfl := Option.some.inj h
      exact .calls i x k hx hphase
    · cases h
  | finish i =>
    obtain ⟨x, hx, h⟩ := Option.bind_eq_some_iff.mp h
    split at h
    · next k hphase =>
      obtain rfl := Option.some.inj h
      exact .finishes i x k hx hphase
    · cases h

end Monitor

/-! ## The ratios -/

namespace Monitor

/-- What the ratios are at each access of the loop. From the first cycle on, the ratio of the
last one can be divided by its total. -/
structure RatioInv (cfg : LoopConfig κ) (s : Monitor σ φ η) : Prop where
  large_nonneg : 0 ≤ s.currentFlowRatio.large
  small_nonneg : 0 ≤ s.currentFlowRatio.small
  previous : s.previousFlowRatio = { large := -1, small := -1 } ∨
    0 ≤ s.previousFlowRatio.small ∧ 0 < s.previousFlowRatio.large + s.previousFlowRatio.small
  keyed : Keyed s.table
  positive : Positive s.table
  waiting : s.loop = .waiting → s.currentFlowRatio = { large := 0, small := 0 }
  counted : ∀ i rest, s.loop = .counting (i :: rest) →
    s.currentFlowRatio.Counted cfg.toMonitorConfig
  rest_nonneg : ∀ rest, s.loop = .counting rest → ∀ i ∈ rest, 0 ≤ i.amount
  counting : ∀ rest, s.loop = .counting rest →
    0 < s.currentFlowRatio.large + s.currentFlowRatio.small ∨ ∃ i ∈ rest, 0 < cfg.fl i.amount
  total_pos : (s.loop = .testing ∨ (∃ r, s.loop = .decided r) ∨ (∃ r, s.loop = .launching r) ∨
    s.loop = .copying) → 0 < s.currentFlowRatio.large + s.currentFlowRatio.small
  resetting : s.loop = .resettingSmall → s.currentFlowRatio.large = 0

variable {cfg} {s t : Monitor σ φ η}

theorem ratioInv_init : RatioInv cfg (init : Monitor σ φ η) where
  large_nonneg := le_rfl
  small_nonneg := le_rfl
  previous := .inl rfl
  keyed := ⟨List.nodup_nil, fun _ h => absurd h List.not_mem_nil⟩
  positive _ _ _ h := nomatch h
  waiting _ := rfl
  counted _ _ h := nomatch h
  rest_nonneg _ h := nomatch h
  counting _ h := nomatch h
  total_pos h := by
    rcases h with h | ⟨r, h⟩ | ⟨r, h⟩ | h <;> cases h
  resetting h := nomatch h

/-- Where the loop goes after the counting, the ratio is that of the cycle. -/
theorem RatioInv.of_total (h : RatioInv cfg s)
    (htotal : 0 < s.currentFlowRatio.large + s.currentFlowRatio.small) {loop : LoopPhase}
    (hloop : loop ≠ .waiting ∧ (∀ rest, loop ≠ .counting rest) ∧ loop ≠ .resettingSmall)
    (isTuning : Bool) (sessions : List Session) :
    RatioInv cfg { s with loop, isTuning, sessions } :=
  { h with
    waiting := fun heq => absurd heq hloop.1
    counted := fun _ _ heq => absurd heq (hloop.2.1 _)
    rest_nonneg := fun rest heq => absurd heq (hloop.2.1 rest)
    counting := fun rest heq => absurd heq (hloop.2.1 rest)
    total_pos := fun _ => htotal
    resetting := fun heq => absurd heq hloop.2.2 }

theorem RatioInv.next (hcfg : cfg.Rounds) (h : RatioInv cfg s) (hmoved : Moved cfg s t) :
    RatioInv cfg t := by
  -- between the counting and the copy, the loop is at none of the other places
  have hthen : ∀ {loop : LoopPhase}, (loop = .testing ∨ (∃ r, loop = .decided r) ∨
      (∃ r, loop = .launching r) ∨ loop = .copying) →
      loop ≠ .waiting ∧ (∀ rest, loop ≠ .counting rest) ∧ loop ≠ .resettingSmall := by
    rintro loop (rfl | ⟨r, rfl⟩ | ⟨r, rfl⟩ | rfl) <;>
      exact ⟨(fun h => nomatch h), (fun _ h => nomatch h), (fun h => nomatch h)⟩
  have hcounted : s.loop = .counting [] →
      0 < s.currentFlowRatio.large + s.currentFlowRatio.small := fun hloop =>
    (h.counting [] hloop).resolve_right fun hex => by
      obtain ⟨i, hi, -⟩ := hex
      exact absurd hi List.not_mem_nil
  cases hmoved with
  | unchanged => exact h
  | skipped hash hloop => exact { h with }
  | switches hash currentTime report hloop hflow =>
    exact
      { h with
        keyed := keyed_cycle h.keyed currentTime report
        positive := positive_cycle h.keyed h.positive currentTime report
        waiting := fun heq => nomatch heq
        counted := fun i rest heq => h.waiting hloop ▸ .zero hcfg
        rest_nonneg := fun rest heq i hi => by
          cases heq
          obtain ⟨e, -, hi⟩ := List.mem_flatMap.mp hi
          exact increments_nonneg hcfg hi
        counting := fun rest heq => by
          cases heq
          exact .inr (exists_increment hcfg h.keyed h.positive hflow currentTime)
        total_pos := fun heq => absurd rfl ((hthen heq).2.1 _)
        resetting := fun heq => nomatch heq }
  | hosts hash large small hloop hpos =>
    have htotal : (0 : ℚ) < large + small := by exact_mod_cast hpos
    exact
      { h with
        large_nonneg := Nat.cast_nonneg large
        small_nonneg := Nat.cast_nonneg small
        waiting := fun heq => nomatch heq
        counted := fun i rest heq => by cases heq
        rest_nonneg := fun rest heq i hi => by
          cases heq
          exact absurd hi List.not_mem_nil
        counting := fun rest _ => .inl htotal
        total_pos := fun heq => absurd rfl ((hthen heq).2.1 _)
        resetting := fun heq => nomatch heq }
  | adds i rest hloop =>
    obtain ⟨hfloat, hle, hi⟩ := (h.counted i rest hloop).add hcfg
      (h.rest_nonneg _ hloop i List.mem_cons_self)
    exact
      { h with
        large_nonneg := hfloat.large_nonneg
        small_nonneg := hfloat.small_nonneg
        waiting := fun heq => nomatch heq
        counted := fun _ _ _ => hfloat
        rest_nonneg := fun rest' heq j hj => by
          cases heq
          exact h.rest_nonneg _ hloop j (List.mem_cons_of_mem i hj)
        counting := fun rest' heq => by
          cases heq
          rcases h.counting _ hloop with htotal | ⟨j, hj, hpos⟩
          · exact .inl (htotal.trans_le hle)
          · rcases List.mem_cons.mp hj with rfl | hj
            · exact .inl (hpos.trans_le hi)
            · exact .inr ⟨j, hj, hpos⟩
        total_pos := fun heq => absurd rfl ((hthen heq).2.1 _)
        resetting := fun heq => nomatch heq }
  | decides reason hloop _ _ =>
    exact h.of_total (hcounted hloop) (hthen (.inr (.inl ⟨reason, rfl⟩))) _ _
  | continues hloop _ => exact h.of_total (hcounted hloop) (hthen (.inl rfl)) _ _
  | compares reason hloop _ =>
    exact h.of_total (h.total_pos (.inl hloop)) (hthen (.inr (.inl ⟨reason, rfl⟩))) _ _
  | raises reason hloop =>
    exact h.of_total (h.total_pos (.inr (.inl ⟨_, hloop⟩)))
      (hthen (.inr (.inr (.inl ⟨reason, rfl⟩)))) _ _
  | passes hloop =>
    exact h.of_total (h.total_pos (.inr (.inl ⟨_, hloop⟩))) (hthen (.inr (.inr (.inr rfl)))) _ _
  | launches reason hloop =>
    exact h.of_total (h.total_pos (.inr (.inr (.inl ⟨_, hloop⟩))))
      (hthen (.inr (.inr (.inr rfl)))) _ _
  | copies hloop =>
    have htotal := h.total_pos (.inr (.inr (.inr hloop)))
    exact
      { h with
        previous := .inr ⟨h.small_nonneg, htotal⟩
        waiting := fun heq => nomatch heq
        counted := fun i rest heq => nomatch heq
        rest_nonneg := fun rest heq => nomatch heq
        counting := fun rest heq => nomatch heq
        total_pos := fun _ => htotal
        resetting := fun heq => nomatch heq }
  | resetsLarge hloop =>
    exact
      { h with
        large_nonneg := le_rfl
        waiting := fun heq => nomatch heq
        counted := fun i rest heq => nomatch heq
        rest_nonneg := fun rest heq => nomatch heq
        counting := fun rest heq => nomatch heq
        total_pos := fun heq => absurd rfl (hthen heq).2.2
        resetting := fun _ => rfl }
  | resetsSmall hloop =>
    exact
      { h with
        small_nonneg := le_rfl
        waiting := fun _ =>
          congrArg (fun large => { large, small := 0 : FlowRatio }) (h.resetting hloop)
        counted := fun i rest heq => nomatch heq
        rest_nonneg := fun rest heq => nomatch heq
        counting := fun rest heq => nomatch heq
        total_pos := fun heq => absurd rfl (hthen heq).1
        resetting := fun heq => nomatch heq }
  -- the threads do not write the ratios
  | reads i x _ _ => exact { h with }
  | writes i x n _ _ => exact { h with }
  | numbers i x _ _ => exact { h with }
  | calls i x k _ _ => exact { h with }
  | draws i x k d _ _ => exact { h with }
  | finishes i x k _ _ => exact { h with }

/-! ## The threads -/

/-- The threads that have ended, with their numbers -/
def AllFinished (l : List Session) : Prop :=
  ∀ (i : Nat) (x : Session), l[i]? = some x → x.phase = .finished (i + 1)

/-- Where a thread is that came after `n` others, and what it has read -/
def Works (n totalTuningRounds : Nat) : Phase → Prop
  | .starting => totalTuningRounds = n
  | .incrementing m => m = n ∧ totalTuningRounds = n
  | .incremented => totalTuningRounds = n + 1
  | .tuning k => k = n + 1 ∧ totalTuningRounds = n + 1
  | .drawing k _ => k = n + 1 ∧ totalTuningRounds = n + 1
  | .failed k => k = n + 1 ∧ totalTuningRounds = n + 1
  | .finished _ => False

/-- No thread is at work, or the last one is. -/
inductive Shape (totalTuningRounds : Nat) : List Session → Bool → Prop
  | idle (l : List Session) : AllFinished l → totalTuningRounds = l.length →
    Shape totalTuningRounds l false
  | working (l : List Session) (x : Session) : AllFinished l →
    Works l.length totalTuningRounds x.phase → Shape totalTuningRounds (l ++ [x]) true

theorem AllFinished.snoc {l : List Session} (h : AllFinished l) {x : Session}
    (hx : x.phase = .finished (l.length + 1)) : AllFinished (l ++ [x]) := by
  intro i y hy
  rcases lt_trichotomy i l.length with hlt | rfl | hgt
  · rw [List.getElem?_append_left hlt] at hy
    exact h i y hy
  · rw [List.getElem?_concat_length, Option.some_inj] at hy
    exact hy ▸ hx
  · rw [List.getElem?_eq_none (by rw [List.length_append]; exact hgt)] at hy
    cases hy

theorem Shape.of_idle {n : Nat} {sessions : List Session} {atWork : Bool}
    (h : Shape n sessions atWork) (hidle : atWork = false) :
    AllFinished sessions ∧ n = sessions.length := by
  cases h with
  | idle l hl hn => exact ⟨hl, hn⟩
  | working l x _ _ => cases hidle

theorem Shape.of_nil {n : Nat} {sessions : List Session} {atWork : Bool}
    (h : Shape n sessions atWork) (hnil : sessions = []) : atWork = false := by
  cases h with
  | idle l _ _ => rfl
  | working l x _ _ =>
    exact absurd hnil (List.append_ne_nil_of_right_ne_nil l (List.cons_ne_nil x []))

/-- The thread that takes a step is the last one. -/
theorem Shape.working_of_phase {n : Nat} {sessions : List Session} {atWork : Bool}
    (h : Shape n sessions atWork) {i : Nat} {x : Session} (hx : sessions[i]? = some x)
    (hphase : ∀ k, x.phase ≠ .finished k) :
    ∃ l, sessions = l ++ [x] ∧ i = l.length ∧ AllFinished l ∧ Works l.length n x.phase ∧
      atWork = true := by
  cases h with
  | idle l hl _ => exact absurd (hl i x hx) (hphase _)
  | working l y hl hy =>
    rcases lt_trichotomy i l.length with hlt | rfl | hgt
    · rw [List.getElem?_append_left hlt] at hx
      exact absurd (hl i x hx) (hphase _)
    · rw [List.getElem?_concat_length, Option.some_inj] at hx
      subst hx
      exact ⟨l, rfl, rfl, hl, hy, rfl⟩
    · rw [List.getElem?_eq_none (by rw [List.length_append]; exact hgt)] at hx
      cases hx

omit [DecidableEq σ] [DecidableEq φ] in
theorem setPhase_sessions {l : List Session} {x : Session} (h : s.sessions = l ++ [x])
    (phase : Phase) : (s.setPhase l.length phase).sessions = l ++ [{ x with phase }] := by
  refine List.ext_getElem? fun i => ?_
  rw [setPhase, h]
  rcases eq_or_ne l.length i with rfl | hi
  · rw [List.getElem?_modify_eq, List.getElem?_concat_length, List.getElem?_concat_length]
    rfl
  · rw [List.getElem?_modify_ne _ _ hi]
    rcases lt_or_gt_of_ne hi with hlt | hgt
    · rw [List.getElem?_eq_none (by rw [List.length_append]; exact hlt),
        List.getElem?_eq_none (by rw [List.length_append]; exact hlt)]
    · rw [List.getElem?_append_left hgt, List.getElem?_append_left hgt]

/-- What the threads are at each access of the loop -/
structure SessionInv (s : Monitor σ φ η) (atWork : Bool) : Prop where
  shape : Shape s.totalTuningRounds s.sessions atWork
  is_tuning : s.isTuning = true ↔ (∃ r, s.loop = .launching r) ∨ atWork = true
  decided : ∀ r, s.loop = .decided (some r) → s.isTuning = false
  launching : ∀ r, s.loop = .launching r → atWork = false

omit [DecidableEq σ] [DecidableEq φ] in
/-- Where the loop is not about to start a thread, a step of the loop leaves the threads. -/
theorem SessionInv.of_loop {atWork : Bool} (h : SessionInv s atWork)
    (hnot : ∀ r, s.loop ≠ .launching r) (hsessions : t.sessions = s.sessions)
    (htotal : t.totalTuningRounds = s.totalTuningRounds) (htuning : t.isTuning = s.isTuning)
    (hthen : ∀ r, t.loop ≠ .launching r)
    (hdecided : ∀ r, t.loop = .decided (some r) → s.isTuning = false) : SessionInv t atWork where
  shape := hsessions ▸ htotal ▸ h.shape
  is_tuning := by
    rw [htuning, h.is_tuning, or_iff_right fun hex => hnot _ hex.choose_spec,
      or_iff_right fun hex => hthen _ hex.choose_spec]
  decided r heq := htuning.trans (hdecided r heq)
  launching r heq := absurd heq (hthen r)

omit [DecidableEq σ] [DecidableEq φ] in
/-- A step of the thread at work, which goes on -/
theorem SessionInv.of_thread {atWork : Bool} (h : SessionInv s atWork) {i : Nat} {x : Session}
    (hx : s.sessions[i]? = some x) (hphase : ∀ k, x.phase ≠ .finished k) {phase : Phase} {n : Nat}
    (hworks : ∀ m, Works m s.totalTuningRounds x.phase → Works m n phase) :
    SessionInv { s.setPhase i phase with totalTuningRounds := n } atWork := by
  obtain ⟨l, hsessions, rfl, hl, hw, rfl⟩ := h.shape.working_of_phase hx hphase
  have hshape : Shape n (l ++ [{ x with phase }]) true := .working l _ hl (hworks _ hw)
  exact
    { shape := by rwa [← setPhase_sessions hsessions] at hshape
      is_tuning := h.is_tuning
      decided := h.decided
      launching := h.launching }

omit [DecidableEq σ] [DecidableEq φ] in
theorem Works.drawStep {n total k : Nat} {d : Draw} (h : Works n total (.drawing k d))
    (s : Monitor σ φ η) : Works n total (s.drawStep k d) := by
  cases d with
  | readingSmall source large =>
    rw [Monitor.drawStep]
    split <;> exact h
  | _ => exact h

theorem SessionInv.next {atWork : Bool} (h : SessionInv s atWork) (hmoved : Moved cfg s t) :
    ∃ atWork', SessionInv t atWork' := by
  have hnot : ∀ {loop : LoopPhase}, s.loop = loop → (∀ r, loop ≠ .launching r) →
      ∀ r, s.loop ≠ .launching r := fun hloop hne r heq => hne r (hloop.symm.trans heq)
  cases hmoved with
  | unchanged => exact ⟨atWork, h⟩
  | skipped hash hloop => exact ⟨atWork, { h with }⟩
  | switches hash currentTime report hloop _ =>
    exact ⟨atWork, h.of_loop (hnot hloop fun r heq => nomatch heq) rfl rfl rfl
      (fun r heq => nomatch heq) fun r heq => nomatch heq⟩
  | hosts hash large small hloop _ =>
    exact ⟨atWork, h.of_loop (hnot hloop fun r heq => nomatch heq) rfl rfl rfl
      (fun r heq => nomatch heq) fun r heq => nomatch heq⟩
  | adds i rest hloop =>
    exact ⟨atWork, h.of_loop (hnot hloop fun r heq => nomatch heq) rfl rfl rfl
      (fun r heq => nomatch heq) fun r heq => nomatch heq⟩
  | decides reason hloop _ hreason =>
    exact ⟨atWork, h.of_loop (hnot hloop fun r heq => nomatch heq) rfl rfl rfl
      (fun r heq => nomatch heq) fun r heq => (hreason r (LoopPhase.decided.inj heq)).1⟩
  | continues hloop _ =>
    exact ⟨atWork, h.of_loop (hnot hloop fun r heq => nomatch heq) rfl rfl rfl
      (fun r heq => nomatch heq) fun r heq => nomatch heq⟩
  | compares reason hloop hreason =>
    exact ⟨atWork, h.of_loop (hnot hloop fun r heq => nomatch heq) rfl rfl rfl
      (fun r heq => nomatch heq) fun r heq => (hreason r (LoopPhase.decided.inj heq)).1⟩
  | raises reason hloop =>
    -- nobody was at work when the loop read the flag, and nobody has come since
    have hidle : atWork = false := by
      cases atWork with
      | false => rfl
      | true =>
        have htuning := h.is_tuning.mpr (.inr rfl)
        rw [h.decided reason hloop] at htuning
        cases htuning
    exact ⟨atWork,
      { shape := h.shape
        is_tuning := iff_of_true rfl (.inl ⟨reason, rfl⟩)
        decided := fun r heq => nomatch heq
        launching := fun _ _ => hidle }⟩
  | passes hloop =>
    exact ⟨atWork, h.of_loop (hnot hloop fun r heq => nomatch heq) rfl rfl rfl
      (fun r heq => nomatch heq) fun r heq => nomatch heq⟩
  | launches reason hloop =>
    obtain rfl := h.launching reason hloop
    have htuning := h.is_tuning.mpr (.inl ⟨reason, hloop⟩)
    obtain ⟨hl, htotal⟩ := h.shape.of_idle rfl
    exact ⟨true,
      { shape := .working _ _ hl htotal
        is_tuning := iff_of_true htuning (.inr rfl)
        decided := fun r heq => nomatch heq
        launching := fun r heq => nomatch heq }⟩
  | copies hloop =>
    exact ⟨atWork, h.of_loop (hnot hloop fun r heq => nomatch heq) rfl rfl rfl
      (fun r heq => nomatch heq) fun r heq => nomatch heq⟩
  | resetsLarge hloop =>
    exact ⟨atWork, h.of_loop (hnot hloop fun r heq => nomatch heq) rfl rfl rfl
      (fun r heq => nomatch heq) fun r heq => nomatch heq⟩
  | resetsSmall hloop =>
    exact ⟨atWork, h.of_loop (hnot hloop fun r heq => nomatch heq) rfl rfl rfl
      (fun r heq => nomatch heq) fun r heq => nomatch heq⟩
  | reads i x hx hphase =>
    refine ⟨atWork, h.of_thread (n := s.totalTuningRounds) hx (fun k heq => ?_) fun m hw => ?_⟩
    · rw [hphase] at heq
      cases heq
    · rw [hphase] at hw
      exact ⟨hw, hw⟩
  | writes i x m hx hphase =>
    refine ⟨atWork, h.of_thread hx (fun k heq => ?_) fun l hw => ?_⟩
    · rw [hphase] at heq
      cases heq
    · rw [hphase] at hw
      exact congrArg (· + 1) hw.1
  | numbers i x hx hphase =>
    refine ⟨atWork, h.of_thread (n := s.totalTuningRounds) hx (fun k heq => ?_) fun m hw => ?_⟩
    · rw [hphase] at heq
      cases heq
    · rw [hphase] at hw
      exact ⟨hw, hw⟩
  | calls i x k hx hphase =>
    refine ⟨atWork, h.of_thread (n := s.totalTuningRounds) hx (fun k heq => ?_) fun m hw => ?_⟩
    · rw [hphase] at heq
      cases heq
    · rw [hphase] at hw
      exact hw
  | draws i x k d hx hphase =>
    refine ⟨atWork, h.of_thread (n := s.totalTuningRounds) hx (fun k heq => ?_) fun m hw => ?_⟩
    · rw [hphase] at heq
      cases heq
    · rw [hphase] at hw
      exact hw.drawStep s
  | finishes i x k hx hphase =>
    have hne : ∀ j, x.phase ≠ .finished j := fun j heq => by
      rw [hphase] at heq
      cases heq
    obtain ⟨l, hsessions, rfl, hl, hw, rfl⟩ := h.shape.working_of_phase hx hne
    rw [hphase] at hw
    obtain ⟨rfl, htotal⟩ := hw
    have hidle : ∀ r, s.loop ≠ .launching r := fun r heq => nomatch h.launching r heq
    refine ⟨false,
      { shape := ?_
        is_tuning := iff_of_false Bool.false_ne_true fun hor =>
          hor.elim (fun hex => hidle _ hex.choose_spec) Bool.false_ne_true
        decided := fun _ _ => rfl
        launching := fun _ _ => rfl }⟩
    have hfinished := hl.snoc (x := { x with phase := .finished (l.length + 1) }) rfl
    rw [← setPhase_sessions hsessions] at hfinished
    refine .idle _ hfinished ?_
    rw [setPhase_sessions hsessions, List.length_append]
    exact htotal

/-! ## The reasons -/

/-- Why the threads were started. Before the first cycle has ended there is no last ratio. -/
structure TriggerInv (s : Monitor σ φ η) : Prop where
  first : ∀ (i : Nat) (x : Session), s.sessions[i]? = some x →
    (x.triggerReason = .initialObservation ↔ i = 0)
  before : s.sessions = [] → s.previousFlowRatio.small = -1 ∧ s.loop ≠ .testing ∧
    s.loop ≠ .decided none ∧ s.loop ≠ .copying
  after : s.sessions ≠ [] → s.previousFlowRatio.small = -1 → s.loop = .copying
  decided : ∀ r, s.loop = .decided (some r) → (r = .initialObservation ↔ s.sessions = [])
  launching : ∀ r, s.loop = .launching r → (r = .initialObservation ↔ s.sessions = [])

omit [DecidableEq σ] [DecidableEq φ] in
theorem triggerInv_init : TriggerInv (init : Monitor σ φ η) where
  first _ _ hx := nomatch hx
  before _ := ⟨rfl, (fun h => nomatch h), (fun h => nomatch h), (fun h => nomatch h)⟩
  after hne _ := absurd rfl hne
  decided _ h := nomatch h
  launching _ h := nomatch h

omit [DecidableEq σ] [DecidableEq φ] in
theorem TriggerInv.of_sessions (h : TriggerInv s) {l : List Session}
    (hreasons : l.map Session.triggerReason = s.sessions.map Session.triggerReason)
    (isTuning : Bool) (totalTuningRounds : Nat) :
    TriggerInv { s with sessions := l, isTuning, totalTuningRounds } := by
  have hnil : l = [] ↔ s.sessions = [] := by
    rw [← List.map_eq_nil_iff (f := Session.triggerReason), hreasons, List.map_eq_nil_iff]
  exact
    { first := fun i x hx => by
        have hget : (s.sessions.map Session.triggerReason)[i]? = some x.triggerReason := by
          rw [← hreasons, List.getElem?_map, hx, Option.map_some]
        rw [List.getElem?_map] at hget
        obtain ⟨y, hy, hreason⟩ := Option.map_eq_some_iff.mp hget
        rw [← hreason]
        exact h.first i y hy
      before := fun heq => h.before (hnil.mp heq)
      after := fun hne => h.after fun heq => hne (hnil.mpr heq)
      decided := fun r hr => (h.decided r hr).trans hnil.symm
      launching := fun r hr => (h.launching r hr).trans hnil.symm }

omit [DecidableEq σ] [DecidableEq φ] in
theorem setPhase_reasons (i : Nat) (phase : Phase) :
    (s.setPhase i phase).sessions.map Session.triggerReason =
      s.sessions.map Session.triggerReason := by
  refine List.ext_getElem? fun j => ?_
  rw [setPhase, List.getElem?_map, List.getElem?_map]
  rcases eq_or_ne i j with rfl | hij
  · rw [List.getElem?_modify_eq]
    cases s.sessions[i]? <;> rfl
  · rw [List.getElem?_modify_ne _ _ hij]

omit [DecidableEq σ] [DecidableEq φ] in
/-- A step of the loop that neither starts a thread nor copies the ratio -/
theorem TriggerInv.of_loop (h : TriggerInv s) (hnot : s.loop ≠ .copying)
    (hsessions : t.sessions = s.sessions)
    (hprevious : t.previousFlowRatio = s.previousFlowRatio)
    (hbefore : s.sessions = [] → t.loop ≠ .testing ∧ t.loop ≠ .decided none ∧ t.loop ≠ .copying)
    (hreason : ∀ r, t.loop = .decided (some r) ∨ t.loop = .launching r →
      (r = .initialObservation ↔ s.sessions = [])) : TriggerInv t where
  first := hsessions ▸ h.first
  before hnil := by
    rw [hsessions] at hnil
    exact ⟨hprevious ▸ (h.before hnil).1, hbefore hnil⟩
  after hne hsmall := absurd (h.after (hsessions ▸ hne) (hprevious ▸ hsmall)) hnot
  decided r hr := hsessions ▸ hreason r (.inl hr)
  launching r hr := hsessions ▸ hreason r (.inr hr)

theorem TriggerInv.next {atWork : Bool} (h : TriggerInv s) (hratio : RatioInv cfg s)
    (hsession : SessionInv s atWork) (hmoved : Moved cfg s t) : TriggerInv t := by
  have hnot : ∀ {loop : LoopPhase}, s.loop = loop → loop ≠ .copying → s.loop ≠ .copying :=
    fun hloop hne heq => hne (hloop.symm.trans heq)
  -- without a thread the flag is not set
  have hflag : s.sessions = [] → (∀ r, s.loop ≠ .launching r) → s.isTuning = false := by
    intro hnil hlaunch
    refine Bool.eq_false_iff.mpr fun htuning => ?_
    rcases hsession.is_tuning.mp htuning with ⟨r, hr⟩ | hwork
    · exact hlaunch r hr
    · rw [hsession.shape.of_nil hnil] at hwork
      cases hwork
  cases hmoved with
  | unchanged => exact h
  | skipped hash hloop => exact { h with }
  | switches hash currentTime report hloop _ =>
    exact h.of_loop (hnot hloop fun heq => nomatch heq) rfl rfl
      (fun _ => ⟨(fun h => nomatch h), (fun h => nomatch h), (fun h => nomatch h)⟩)
      fun r hr => by rcases hr with hr | hr <;> cases hr
  | hosts hash large small hloop _ =>
    exact h.of_loop (hnot hloop fun heq => nomatch heq) rfl rfl
      (fun _ => ⟨(fun h => nomatch h), (fun h => nomatch h), (fun h => nomatch h)⟩)
      fun r hr => by rcases hr with hr | hr <;> cases hr
  | adds i rest hloop =>
    exact h.of_loop (hnot hloop fun heq => nomatch heq) rfl rfl
      (fun _ => ⟨(fun h => nomatch h), (fun h => nomatch h), (fun h => nomatch h)⟩)
      fun r hr => by rcases hr with hr | hr <;> cases hr
  | decides reason hloop hnone hreason =>
    have hlaunch : ∀ r, s.loop ≠ .launching r := fun r heq => by
      rw [hloop] at heq
      cases heq
    have hcopying := hnot hloop fun heq => nomatch heq
    refine h.of_loop hcopying rfl rfl (fun hnil => ⟨(fun h => nomatch h), (fun heq => ?_),
      (fun h => nomatch h)⟩) fun r hr => ?_
    · have htuning := hnone (LoopPhase.decided.inj heq)
      rw [hflag hnil hlaunch] at htuning
      cases htuning
    · rcases hr with hr | hr
      · rw [(hreason r (LoopPhase.decided.inj hr)).2]
        refine ⟨fun hsmall => ?_, fun hnil => (h.before hnil).1⟩
        by_contra hne
        exact hcopying (h.after hne hsmall)
      · cases hr
  | continues hloop hfirst =>
    have hlaunch : ∀ r, s.loop ≠ .launching r := fun r heq => by
      rw [hloop] at heq
      cases heq
    exact h.of_loop (hnot hloop fun heq => nomatch heq) rfl rfl
      (fun hnil => absurd ⟨(h.before hnil).1, hflag hnil hlaunch⟩ hfirst)
      fun r hr => by rcases hr with hr | hr <;> cases hr
  | compares reason hloop hreason =>
    have hne : s.sessions ≠ [] := fun hnil => (h.before hnil).2.1 hloop
    refine h.of_loop (hnot hloop fun heq => nomatch heq) rfl rfl (fun hnil => absurd hnil hne)
      fun r hr => ?_
    rcases hr with hr | hr
    · exact iff_of_false (hreason r (LoopPhase.decided.inj hr)).2 hne
    · cases hr
  | raises reason hloop =>
    refine { h.of_loop (t := { s with loop := .launching reason })
      (hnot hloop fun heq => nomatch heq) rfl rfl
      (fun _ => ⟨(fun h => nomatch h), (fun h => nomatch h), (fun h => nomatch h)⟩)
      fun r hr => ?_ with }
    rcases hr with hr | hr
    · cases hr
    · exact LoopPhase.launching.inj hr ▸ h.decided reason hloop
  | passes hloop =>
    have hne : s.sessions ≠ [] := fun hnil => (h.before hnil).2.2.1 hloop
    exact
      { first := h.first
        before := fun hnil => absurd hnil hne
        after := fun _ _ => rfl
        decided := fun r hr => nomatch hr
        launching := fun r hr => nomatch hr }
  | launches reason hloop =>
    have hne : s.sessions ++ [{ triggerReason := reason, phase := .starting }] ≠ [] :=
      List.append_ne_nil_of_right_ne_nil _ (List.cons_ne_nil _ _)
    refine
      { first := fun i x hx => ?_
        before := fun hnil => absurd hnil hne
        after := fun _ _ => rfl
        decided := fun r hr => nomatch hr
        launching := fun r hr => nomatch hr }
    rcases lt_trichotomy i s.sessions.length with hlt | rfl | hgt
    · rw [List.getElem?_append_left hlt] at hx
      exact h.first i x hx
    · rw [List.getElem?_concat_length, Option.some_inj] at hx
      rw [← hx, List.length_eq_zero_iff]
      exact h.launching reason hloop
    · rw [List.getElem?_eq_none (by rw [List.length_append]; exact hgt)] at hx
      cases hx
  | copies hloop =>
    have hne : s.sessions ≠ [] := fun hnil => (h.before hnil).2.2.2 hloop
    exact
      { first := h.first
        before := fun hnil => absurd hnil hne
        after := fun _ hsmall => by
          have hnonneg := hratio.small_nonneg
          rw [show s.currentFlowRatio.small = -1 from hsmall] at hnonneg
          exact absurd hnonneg (by decide)
        decided := fun r hr => nomatch hr
        launching := fun r hr => nomatch hr }
  | resetsLarge hloop =>
    exact h.of_loop (hnot hloop fun heq => nomatch heq) rfl rfl
      (fun _ => ⟨(fun h => nomatch h), (fun h => nomatch h), (fun h => nomatch h)⟩)
      fun r hr => by rcases hr with hr | hr <;> cases hr
  | resetsSmall hloop =>
    exact h.of_loop (hnot hloop fun heq => nomatch heq) rfl rfl
      (fun _ => ⟨(fun h => nomatch h), (fun h => nomatch h), (fun h => nomatch h)⟩)
      fun r hr => by rcases hr with hr | hr <;> cases hr
  | reads i x _ _ => exact h.of_sessions (setPhase_reasons i _) s.isTuning s.totalTuningRounds
  | writes i x n _ _ => exact h.of_sessions (setPhase_reasons i _) s.isTuning (n + 1)
  | numbers i x _ _ => exact h.of_sessions (setPhase_reasons i _) s.isTuning s.totalTuningRounds
  | calls i x k _ _ => exact h.of_sessions (setPhase_reasons i _) s.isTuning s.totalTuningRounds
  | draws i x k d _ _ => exact h.of_sessions (setPhase_reasons i _) s.isTuning s.totalTuningRounds
  | finishes i x k _ _ => exact h.of_sessions (setPhase_reasons i _) false s.totalTuningRounds

/-! ## Every interleaving -/

/-- A thread has been started and has not come to its end; one that has failed never does. -/
def atWork : Phase → Bool
  | .finished _ => false
  | _ => true

/-- A thread has counted its round. -/
def counted : Phase → Bool
  | .starting => false
  | .incrementing _ => false
  | _ => true

/-- The number that a thread has read for its round -/
def roundOf : Phase → Option Nat
  | .starting => none
  | .incrementing _ => none
  | .incremented => none
  | .tuning k => some k
  | .drawing k _ => some k
  | .failed k => some k
  | .finished k => some k

/-- What holds whatever the order in which the loop and its threads take their steps -/
structure Safe (s : Monitor σ φ η) : Prop where
  at_most_one : ∀ (i j : Nat) (x y : Session), s.sessions[i]? = some x → s.sessions[j]? = some y →
    atWork x.phase = true → atWork y.phase = true → i = j
  is_tuning : s.isTuning = true ↔
    (∃ r, s.loop = .launching r) ∨ ∃ x ∈ s.sessions, atWork x.phase = true
  numbered : ∀ (i : Nat) (x : Session) (k : Nat), s.sessions[i]? = some x →
    roundOf x.phase = some k → k = i + 1
  total_tuning_rounds :
    s.totalTuningRounds = (s.sessions.filter fun x => counted x.phase).length
  first : ∀ (i : Nat) (x : Session), s.sessions[i]? = some x →
    (x.triggerReason = .initialObservation ↔ i = 0)
  started : s.previousFlowRatio.small ≠ -1 → s.sessions ≠ []

theorem AllFinished.not_atWork {l : List Session} (h : AllFinished l) {x : Session} (hx : x ∈ l) :
    atWork x.phase = false ∧ counted x.phase = true := by
  obtain ⟨i, hi⟩ := List.mem_iff_getElem?.mp hx
  rw [h i x hi]
  exact ⟨rfl, rfl⟩

theorem Works.atWork {n total : Nat} {phase : Phase} (h : Works n total phase) :
    atWork phase = true := by
  cases phase with
  | finished k => exact h.elim
  | _ => rfl

theorem Shape.atWork_iff {n : Nat} {l : List Session} {b : Bool} (h : Shape n l b) :
    b = true ↔ ∃ x ∈ l, atWork x.phase = true := by
  cases h with
  | idle l hl _ =>
    refine iff_of_false Bool.false_ne_true fun hex => ?_
    obtain ⟨x, hx, hwork⟩ := hex
    rw [(hl.not_atWork hx).1] at hwork
    cases hwork
  | working l x _ hw =>
    exact iff_of_true rfl ⟨x, List.mem_append_right l (List.mem_singleton_self x), hw.atWork⟩

theorem Shape.total_eq {n : Nat} {l : List Session} {b : Bool} (h : Shape n l b) :
    n = (l.filter fun x => counted x.phase).length := by
  have hall : ∀ {l : List Session}, AllFinished l → (l.filter fun x => counted x.phase) = l :=
    fun hl => List.filter_eq_self.mpr fun x hx => (hl.not_atWork hx).2
  cases h with
  | idle l hl hn => rw [hall hl, hn]
  | working l x hl hw =>
    rw [List.filter_append, hall hl, List.length_append]
    obtain ⟨reason, phase⟩ := x
    cases phase with
    | starting => exact hw
    | incrementing m => exact hw.2
    | incremented => exact hw
    | tuning k => exact hw.2
    | drawing k d => exact hw.2
    | failed k => exact hw.2
    | finished k => exact hw.elim

theorem Shape.last_of_atWork {n : Nat} {l : List Session} {b : Bool} (h : Shape n l b) {i : Nat}
    {x : Session} (hx : l[i]? = some x) (hwork : atWork x.phase = true) : i + 1 = l.length := by
  have hne : ∀ k, x.phase ≠ .finished k := fun k heq => by
    rw [heq] at hwork
    cases hwork
  obtain ⟨l', rfl, rfl, -⟩ := h.working_of_phase hx hne
  rw [List.length_append]
  rfl

theorem Works.round_eq {n total k : Nat} {phase : Phase} (h : Works n total phase)
    (hk : roundOf phase = some k) : k = n + 1 := by
  cases phase with
  | tuning m => exact (Option.some.inj hk).symm.trans h.1
  | drawing m d => exact (Option.some.inj hk).symm.trans h.1
  | failed m => exact (Option.some.inj hk).symm.trans h.1
  | finished m => exact h.elim
  | _ => cases hk

theorem Shape.numbered {n : Nat} {l : List Session} {b : Bool} (h : Shape n l b) {i k : Nat}
    {x : Session} (hx : l[i]? = some x) (hk : roundOf x.phase = some k) : k = i + 1 := by
  by_cases hfinished : x.phase = .finished (i + 1)
  · rw [hfinished] at hk
    exact (Option.some.inj hk).symm
  · have hne : ∀ j, x.phase ≠ .finished j := fun j heq => by
      cases h with
      | idle l hl _ => exact hfinished (hl i x hx)
      | working l y hl hw =>
        rcases lt_trichotomy i l.length with hlt | rfl | hgt
        · rw [List.getElem?_append_left hlt] at hx
          exact hfinished (hl i x hx)
        · rw [List.getElem?_concat_length, Option.some_inj] at hx
          rw [hx, heq] at hw
          exact hw.elim
        · rw [List.getElem?_eq_none (by rw [List.length_append]; exact hgt)] at hx
          cases hx
    obtain ⟨l', rfl, rfl, -, hw, -⟩ := h.working_of_phase hx hne
    exact hw.round_eq hk

omit [DecidableEq σ] [DecidableEq φ] in
theorem safe_of_invariants {b : Bool} (hsession : SessionInv s b) (htrigger : TriggerInv s) :
    s.Safe where
  at_most_one i j x y hx hy hwork hwork' := by
    have hi := hsession.shape.last_of_atWork hx hwork
    have hj := hsession.shape.last_of_atWork hy hwork'
    exact Nat.succ.inj (hi.trans hj.symm)
  is_tuning := by rw [hsession.is_tuning, hsession.shape.atWork_iff]
  numbered i x k hx hk := hsession.shape.numbered hx hk
  total_tuning_rounds := hsession.shape.total_eq
  first := htrigger.first
  started hsmall hnil := hsmall (htrigger.before hnil).1

variable [DecidableEq η] [LinearOrder κ] [Zero κ]

theorem invariants_of_reachable (hcfg : cfg.Rounds)
    (h : Runs.Reachable (step cfg) init s) :
    RatioInv cfg s ∧ (∃ b, SessionInv s b) ∧ TriggerInv s := by
  refine h.invariant (I := fun s => RatioInv cfg s ∧ (∃ b, SessionInv s b) ∧ TriggerInv s)
    ⟨ratioInv_init, ⟨false, ?_⟩, triggerInv_init⟩ ?_
  · exact
      { shape := .idle [] (fun _ _ h => nomatch h) rfl
        is_tuning := iff_of_false Bool.false_ne_true fun hor =>
          hor.elim (fun hex => nomatch hex.choose_spec) Bool.false_ne_true
        decided := fun _ h => nomatch h
        launching := fun _ h => nomatch h }
  · rintro s e t ⟨hratio, ⟨b, hsession⟩, htrigger⟩ hstep
    have hmoved := step_cases hstep
    exact ⟨hratio.next hcfg hmoved, hsession.next hmoved, htrigger.next hratio hsession hmoved⟩

/-- In every state that the loop and its threads can reach, in whatever order they take their
steps: at most one thread is at work and the flag says whether one is; no round is lost and the
threads have their numbers in turn; the first one, and no other, was started by the first
cycle. -/
theorem safe_of_reachable (hcfg : cfg.Rounds) (h : Runs.Reachable (step cfg) init s) : s.Safe := by
  obtain ⟨-, ⟨b, hsession⟩, htrigger⟩ := invariants_of_reachable hcfg h
  exact safe_of_invariants hsession htrigger

/-- Exact arithmetic, and a divergence that never triggers -/
def exactConfig : LoopConfig Nat where
  toMonitorConfig := monitorConfig
  collectOnlyMode := false
  hostFlowChunkBytes := 1048576
  largeFlowThresholdBytes := 1048576
  entropy _ _ := 0
  triggerThreshold := 0

theorem exactConfig_rounds : exactConfig.Rounds where
  toSensible := monitorConfig_sensible
  fl_fl _ := rfl
  fl_zero := rfl
  fl_one := rfl
  threshold_pos := by decide
  unit_pos := by norm_num [exactConfig, monitorConfig]

/-- A report of a host with a flow starts a thread, which goes on while the loop copies the
ratio. -/
def firstCycle : List (MonitorEvent Nat Nat Nat) :=
  [.observe 1 (.hosts [("1-1".toList, { progressBytes := 5, flowSize := 9 })]), .loop, .loop, .loop,
    .thread 0, .loop, .thread 0, .thread 0]

theorem safe_of_reachable_first :
    ((Runs.run (step exactConfig) init firstCycle).getD init).Safe ∧
      ((Runs.run (step exactConfig) init firstCycle).getD init).sessions =
        [{ triggerReason := .initialObservation, phase := .tuning 1 }] :=
  ⟨safe_of_reachable exactConfig_rounds ⟨firstCycle, rfl⟩, rfl⟩

/-! ## The draws -/

def isDrawing : Phase → Bool
  | .drawing _ _ => true
  | _ => false

def hasFailed : Phase → Bool
  | .failed _ => true
  | _ => false

/-- The loop takes no step between the reads of a draw. -/
def Undisturbed (s : Monitor σ φ η) : MonitorEvent σ φ η → Prop
  | .observe _ _ => s.sessions.all (fun x => !isDrawing x.phase) = true
  | .loop => s.sessions.all (fun x => !isDrawing x.phase) = true
  | .thread _ => True
  | .draw _ => True
  | .finish _ => True

instance (s : Monitor σ φ η) : ∀ e : MonitorEvent σ φ η, Decidable (s.Undisturbed e)
  | .observe _ _ | .loop =>
    inferInstanceAs (Decidable (s.sessions.all (fun x => !isDrawing x.phase) = true))
  | .thread _ | .draw _ | .finish _ => .isTrue trivial

/-- What a thread has read in a draw is still so, and no thread has failed. -/
def Reads (s : Monitor σ φ η) : Phase → Prop
  | .drawing _ .testingSmall => s.currentFlowRatio.large ≠ 0
  | .drawing _ (.readingLarge .current) =>
    s.currentFlowRatio.large ≠ 0 ∧ s.currentFlowRatio.small ≠ 0
  | .drawing _ (.readingSmall .current large) =>
    large = s.currentFlowRatio.large ∧ large ≠ 0 ∧ s.currentFlowRatio.small ≠ 0
  | .drawing _ (.readingSmall .previous large) => large = s.previousFlowRatio.large
  | .failed _ => False
  | _ => True

section Draws

omit [DecidableEq σ] [DecidableEq φ] [DecidableEq η] [LinearOrder κ] [Zero κ]

theorem reads_of_not_drawing {phase : Phase} (hdrawing : isDrawing phase = false)
    (hfailed : hasFailed phase = false) : s.Reads phase := by
  cases phase with
  | drawing k d => cases hdrawing
  | failed k => cases hfailed
  | _ => trivial

theorem Reads.not_failed {phase : Phase} (h : s.Reads phase) : hasFailed phase = false := by
  cases phase with
  | failed k => exact h.elim
  | _ => rfl

/-- With the ratios as they are, a draw does not fail. -/
theorem reads_drawStep [DecidableEq σ] [DecidableEq φ] (hratio : RatioInv cfg s) {k : Nat}
    {d : Draw} (h : s.Reads (.drawing k d)) : s.Reads (s.drawStep k d) := by
  cases d with
  | testingLarge =>
    rw [drawStep]
    split
    · next hlarge => exact hlarge
    · trivial
  | testingSmall =>
    rw [drawStep]
    split
    · next hsmall => exact ⟨h, hsmall⟩
    · trivial
  | readingLarge source =>
    cases source with
    | current => exact ⟨rfl, h⟩
    | previous => exact rfl
  | readingSmall source large =>
    have htotal : large + (s.ratio source).small ≠ 0 := by
      cases source with
      | current =>
        obtain ⟨rfl, hlarge, hsmall⟩ := h
        have hpos : 0 < s.currentFlowRatio.large :=
          lt_of_le_of_ne hratio.large_nonneg (Ne.symm hlarge)
        exact (add_pos_of_pos_of_nonneg hpos hratio.small_nonneg).ne'
      | previous =>
        obtain rfl : large = s.previousFlowRatio.large := h
        rcases hratio.previous with hprevious | ⟨-, hpos⟩
        · rw [ratio, hprevious]
          norm_num
        · exact hpos.ne'
    rw [drawStep, if_neg htotal]
    trivial

theorem sessions_of_loopStep [LinearOrder κ] [Zero κ] [DecidableEq σ] [DecidableEq φ]
    (h : s.loopStep cfg = some t) :
    t.sessions = s.sessions ∨ ∃ reason, s.loop = .launching reason ∧
      t.sessions = s.sessions ++ [{ triggerReason := reason, phase := .starting }] := by
  rw [loopStep] at h
  split at h
  · cases h
  · cases h; exact .inl rfl
  · cases h
    left
    unfold testInitial
    split_ifs <;> rfl
  · cases h; exact .inl rfl
  · cases h; exact .inl rfl
  · cases h; exact .inl rfl
  · next reason hloop => cases h; exact .inr ⟨reason, hloop, rfl⟩
  · cases h; exact .inl rfl
  · cases h; exact .inl rfl
  · cases h; exact .inl rfl

theorem sessions_observe [DecidableEq σ] [DecidableEq φ] (s : Monitor σ φ η)
    (observation : Observation σ φ) : (s.observe cfg observation).sessions = s.sessions := by
  cases observation with
  | empty => rfl
  | switches currentTime report =>
    rw [observe]
    split <;> rfl
  | hosts progress =>
    rw [observe]
    split <;> rfl

theorem mem_setPhase {i : Nat} {x y : Session} {phase : Phase} (hx : s.sessions[i]? = some x)
    (hy : y ∈ (s.setPhase i phase).sessions) : y ∈ s.sessions ∨ y = { x with phase } := by
  obtain ⟨j, hj⟩ := List.mem_iff_getElem?.mp hy
  rw [setPhase] at hj
  rcases eq_or_ne i j with rfl | hij
  · rw [List.getElem?_modify_eq, hx] at hj
    exact .inr (Option.some.inj hj).symm
  · rw [List.getElem?_modify_ne _ _ hij] at hj
    exact .inl (List.mem_of_getElem? hj)

end Draws

/-- The threads go on reading, and the loop waits for the end of a draw. -/
theorem reads_step {e : MonitorEvent σ φ η} (hratio : RatioInv cfg s)
    (h : ∀ x ∈ s.sessions, s.Reads x.phase) (hundisturbed : s.Undisturbed e)
    (hstep : step cfg s e = some t) : ∀ x ∈ t.sessions, t.Reads x.phase := by
  -- where nobody draws, the ratios may change
  have hidle : s.sessions.all (fun x => !isDrawing x.phase) = true → ∀ x ∈ s.sessions,
      ∀ u : Monitor σ φ η, u.Reads x.phase := fun hall x hx u =>
    reads_of_not_drawing (by simpa using List.all_eq_true.mp hall x hx) (h x hx).not_failed
  have hset : ∀ {i : Nat} {x : Session} {phase : Phase}, s.sessions[i]? = some x →
      s.Reads phase → ∀ y ∈ (s.setPhase i phase).sessions, s.Reads y.phase := by
    intro i x phase hx hphase y hy
    rcases mem_setPhase hx hy with hy | rfl
    · exact h y hy
    · exact hphase
  cases e with
  | observe hash observation =>
    rw [step] at hstep
    split at hstep
    · split at hstep
      · cases hstep
        exact h
      · cases hstep
        rw [sessions_observe]
        exact fun x hx => hidle hundisturbed x hx _
    · cases hstep
  | loop =>
    rcases sessions_of_loopStep hstep with hsame | ⟨reason, -, hmore⟩
    · rw [hsame]
      exact fun x hx => hidle hundisturbed x hx t
    · rw [hmore]
      intro x hx
      rcases List.mem_append.mp hx with hx | hx
      · exact hidle hundisturbed x hx t
      · rw [List.mem_singleton.mp hx]
        trivial
  | thread i =>
    obtain ⟨x, hx, hstep⟩ := Option.bind_eq_some_iff.mp hstep
    split at hstep
    · cases hstep; exact hset hx trivial
    · cases hstep; exact hset hx trivial
    · cases hstep; exact hset hx trivial
    · next k d hphase =>
      cases hstep
      exact hset hx (reads_drawStep hratio (hphase ▸ h x (List.mem_of_getElem? hx)))
    · cases hstep
    · cases hstep
    · cases hstep
  | draw i =>
    obtain ⟨x, hx, hstep⟩ := Option.bind_eq_some_iff.mp hstep
    split at hstep
    · cases hstep; exact hset hx trivial
    · cases hstep
  | finish i =>
    obtain ⟨x, hx, hstep⟩ := Option.bind_eq_some_iff.mp hstep
    split at hstep
    · cases hstep; exact hset hx trivial
    · cases hstep

/-- As long as the loop takes no step between the reads of a draw, no thread fails: the ratio that
a direction is drawn from can be divided by its total. -/
theorem draws_divide (hcfg : cfg.Rounds) {es : List (MonitorEvent σ φ η)}
    (h : Runs.Guarded (step cfg) Undisturbed init es) :
    Runs.Always (step cfg) (fun s => ∀ x ∈ s.sessions, hasFailed x.phase = false) init es := by
  have halways : Runs.Always (step cfg)
      (fun s => RatioInv cfg s ∧ ∀ x ∈ s.sessions, s.Reads x.phase) init es := by
    refine Runs.always_of_guarded (fun s e t hs hundisturbed hstep => ?_)
      ⟨ratioInv_init, fun x hx => absurd hx List.not_mem_nil⟩ h
    exact ⟨hs.1.next hcfg (step_cases hstep), reads_step hs.1 hs.2 hundisturbed hstep⟩
  exact halways.mono fun s hs x hx => (hs.2 x hx).not_failed

/-- A thread draws between two steps of the loop, from one large flow and one small one. -/
def drawsBetween : List (MonitorEvent Nat Nat Nat) :=
  [.observe 1 (.hosts [("1-1".toList, { progressBytes := 2097152, flowSize := 2097152 }),
      ("1-2".toList, { progressBytes := 5, flowSize := 9 })]),
    .loop, .loop, .loop, .thread 0, .thread 0, .thread 0, .draw 0, .thread 0, .thread 0, .thread 0,
    .thread 0, .loop, .loop, .loop]

theorem draws_divide_between : Runs.Always (step exactConfig)
    (fun s => ∀ x ∈ s.sessions, hasFailed x.phase = false) init drawsBetween :=
  draws_divide exactConfig_rounds (by decide +kernel)

omit [DecidableEq σ] [DecidableEq φ] [DecidableEq η] in
/-- Once a thread has failed, none of the threads takes a step, and the loop starts no other. -/
theorem SessionInv.stuck {b : Bool} (h : SessionInv s b) {x : Session} (hx : x ∈ s.sessions)
    (hfailed : hasFailed x.phase = true) :
    s.isTuning = true ∧ (∀ reason, s.loop ≠ .launching reason) ∧
      ∀ (i : Nat) (y : Session), s.sessions[i]? = some y →
        (∃ k, y.phase = .finished k) ∨ ∃ k, y.phase = .failed k := by
  obtain ⟨k, hk⟩ : ∃ k, x.phase = .failed k := by
    cases hphase : x.phase with
    | failed k => exact ⟨k, rfl⟩
    | _ => rw [hphase] at hfailed; cases hfailed
  obtain ⟨i, hi⟩ := List.mem_iff_getElem?.mp hx
  have hne : ∀ j, x.phase ≠ .finished j := fun j heq => by
    rw [hk] at heq
    cases heq
  obtain ⟨l, hsessions, rfl, hl, -, rfl⟩ := h.shape.working_of_phase hi hne
  refine ⟨h.is_tuning.mpr (.inr rfl), (fun reason heq => nomatch h.launching reason heq),
    fun j y hy => ?_⟩
  by_cases hlast : ∃ m, y.phase = .finished m
  · exact .inl hlast
  · obtain ⟨l', hsessions', -, -, -⟩ := h.shape.working_of_phase hy fun m heq => hlast ⟨m, heq⟩
    have hsame := List.append_inj_right' (hsessions.symm.trans hsessions') rfl
    exact .inr ⟨k, (List.cons.inj hsame).1 ▸ hk⟩

/-- A thread that has failed leaves `is_tuning` set for ever, and no other one is started. -/
theorem stuck_of_failed (hcfg : cfg.Rounds) (h : Runs.Reachable (step cfg) init s) {x : Session}
    (hx : x ∈ s.sessions) (hfailed : hasFailed x.phase = true)
    (ht : Runs.Reachable (step cfg) s t) : t.isTuning = true ∧ t.sessions = s.sessions := by
  have hinv : (∃ b, SessionInv t b) ∧ t.sessions = s.sessions := by
    refine ht.invariant (I := fun t => (∃ b, SessionInv t b) ∧ t.sessions = s.sessions)
      ⟨(invariants_of_reachable hcfg h).2.1, rfl⟩ ?_
    rintro u e v ⟨⟨b, hsession⟩, hsame⟩ hstep
    refine ⟨hsession.next (step_cases hstep), Eq.trans ?_ hsame⟩
    obtain ⟨-, hlaunching, hphases⟩ := hsession.stuck (hsame ▸ hx) hfailed
    cases e with
    | observe hash observation =>
      rw [step] at hstep
      split at hstep
      · split at hstep
        · cases hstep; rfl
        · cases hstep
          exact sessions_observe _ observation
      · cases hstep
    | loop =>
      rcases sessions_of_loopStep hstep with hsame | ⟨reason, hloop, -⟩
      · exact hsame
      · exact absurd hloop (hlaunching reason)
    | thread i =>
      obtain ⟨y, hy, hstep⟩ := Option.bind_eq_some_iff.mp hstep
      rcases hphases i y hy with ⟨k, hk⟩ | ⟨k, hk⟩ <;> rw [hk] at hstep <;> cases hstep
    | draw i =>
      obtain ⟨y, hy, hstep⟩ := Option.bind_eq_some_iff.mp hstep
      rcases hphases i y hy with ⟨k, hk⟩ | ⟨k, hk⟩ <;> rw [hk] at hstep <;> cases hstep
    | finish i =>
      obtain ⟨y, hy, hstep⟩ := Option.bind_eq_some_iff.mp hstep
      rcases hphases i y hy with ⟨k, hk⟩ | ⟨k, hk⟩ <;> rw [hk] at hstep <;> cases hstep
  obtain ⟨⟨b, hsession⟩, hsame⟩ := hinv
  exact ⟨(hsession.stuck (hsame ▸ hx) hfailed).1, hsame⟩

/-- Both numbers are tested, then the loop resets them, and they are read again. -/
def tornDraw : List (MonitorEvent Nat Nat Nat) :=
  [.observe 1 (.hosts [("1-1".toList, { progressBytes := 2097152, flowSize := 2097152 }),
      ("1-2".toList, { progressBytes := 5, flowSize := 9 })]),
    .loop, .loop, .loop, .thread 0, .thread 0, .thread 0, .draw 0, .thread 0, .thread 0, .loop,
    .loop, .loop, .thread 0, .thread 0]

def tornState : Monitor Nat Nat Nat := (Runs.run (step exactConfig) init tornDraw).getD init

theorem tornState_failed :
    tornState.sessions = [{ triggerReason := .initialObservation, phase := .failed 1 }] := by
  decide +kernel

/-- The draw of the first thread divides by zero, and there is no other one. -/
theorem stuck_of_failed_torn : Runs.Reachable (step exactConfig) init tornState ∧
    ∀ t, Runs.Reachable (step exactConfig) tornState t → t.isTuning = true ∧
      t.sessions = [{ triggerReason := .initialObservation, phase := .failed 1 }] := by
  have hreachable : Runs.Reachable (step exactConfig) init tornState := ⟨tornDraw, rfl⟩
  refine ⟨hreachable, fun t ht => ?_⟩
  have h := stuck_of_failed exactConfig_rounds hreachable
    (x := { triggerReason := .initialObservation, phase := .failed 1 })
    (tornState_failed ▸ List.mem_singleton_self _) rfl ht
  rw [tornState_failed] at h
  exact h

end Monitor

end Paraleon.Tuning
