import Mathlib.Data.List.Range
import Mathlib.Logic.Function.Basic
import Paraleon.Library.Runs
import Paraleon.Traffic.FlowFile

/-!
# Starting the flows

`ScheduleFlowInputs` starts the flows of a file whose time has come and schedules itself for the
next one; it knows only the next entry. Each client is started by two more events of the same
time. `qp_finish` counts the active flows down, and the simulation stops when all flows were
started and none is active, or at `simulator_stop_time`.

* `flows_scheduled`: for a file in the order of its start times, whatever the order in which
  flows are completed, a run has at most four events for each flow and one more, and at its end
  each flow from before the stop time was started: once, in its place and at its time, with a
  source port of its own. `MaybeStopWhenAllFlowsFinish` stops the simulation exactly when all of
  them are complete.
* `late_flow_not_started`: a flow behind the stop time is not started.
-/

namespace Paraleon.Traffic

open Function Runs

/-! ## Simulated time -/

/-- `int64x64_t` of a double: 64 bits behind the point, cut towards zero. -/
def int64x64 (t : ℚ) : Int := if t < 0 then -⌊-t * 2 ^ 64⌋ else ⌊t * 2 ^ 64⌋

/-- `Seconds` of a double, in nanoseconds, cut towards zero. -/
def seconds (t : ℚ) : Int :=
  let v := int64x64 t * 10 ^ 9
  if v < 0 then -(-v / 2 ^ 64) else v / 2 ^ 64

theorem int64x64_mono {t u : ℚ} (h : t ≤ u) : int64x64 t ≤ int64x64 u := by
  unfold int64x64
  split_ifs with ht hu hu
  · have hle : -u * 2 ^ 64 ≤ -t * 2 ^ 64 := by linarith
    exact neg_le_neg (Int.floor_le_floor hle)
  · have hneg : 0 ≤ ⌊-t * 2 ^ 64⌋ := Int.floor_nonneg.mpr (by linarith)
    have hpos : 0 ≤ ⌊u * 2 ^ 64⌋ := Int.floor_nonneg.mpr (by linarith [not_lt.mp hu])
    omega
  · exact absurd (h.trans_lt hu) ht
  · exact Int.floor_le_floor (by linarith)

theorem seconds_mono {t u : ℚ} (h : t ≤ u) : seconds t ≤ seconds u := by
  have hv := int64x64_mono h
  unfold seconds
  dsimp only
  split_ifs <;> omega

/-! ## The flows of a file -/

/-- A flow file, as `ReadFlowInput` reads its entries: in the order of the start times, none of
which is before the simulation begins; and the time for which `main` schedules its end. -/
structure FlowInputs where
  flows : List FlowInput
  simulatorStopTime : ℚ
  sorted : flows.Pairwise fun f g => f.startTime ≤ g.startTime
  notPast : ∀ f ∈ flows.head?, 0 ≤ seconds f.startTime
  stopNotPast : 0 ≤ seconds simulatorStopTime

def FlowInputs.stopAt (F : FlowInputs) : Int := seconds F.simulatorStopTime

/-- Who has called `Simulator::Stop`: `MaybeStopWhenAllFlowsFinish`, or the event of `main` -/
inductive Stopper where
  | allFlowsFinish
  | simulatorStopTime
deriving DecidableEq

/-- A client, with the position of its flow in the file. -/
structure Client where
  idx : Nat
  flow : FlowInput
  sport : UInt16
deriving DecidableEq

/-- The two events of a client: `Application::Start`, and `StartApplication`, which makes the
queue pair. -/
inductive Task where
  | start (c : Client)
  | startApplication (c : Client)
deriving DecidableEq

/-- A flow that was started, and when. -/
structure Started where
  client : Client
  time : Int
deriving DecidableEq

/-- `rest` has `flow_input` and the entries behind it, `idx` is `flow_input.idx`, and `next` the
time for which `ScheduleFlowInputs` is scheduled. `ready` has the events of the clients in
their order; `started` and `finished` are for the proofs. -/
structure ScheduleState where
  now : Int
  rest : List FlowInput
  idx : Nat
  next : Option Int
  portNumder : Nat × Nat → UInt16
  scheduledFlowCount : Nat
  activeFlowCount : Nat
  ready : List Task
  started : List Started
  finished : List Client
  stopped : Option Stopper

/-- `main`: ports are numbered from 10000. -/
def FlowInputs.init (F : FlowInputs) : ScheduleState :=
  { now := 0, rest := F.flows, idx := 0, next := F.flows.head?.map fun f => seconds f.startTime,
    portNumder := fun _ => 10000, scheduledFlowCount := 0, activeFlowCount := 0, ready := [],
    started := [], finished := [], stopped := none }

namespace ScheduleState

/-- `MaybeStopWhenAllFlowsFinish`. -/
def maybeStopWhenAllFlowsFinish (flowNum : Nat) (s : ScheduleState) : ScheduleState :=
  if s.scheduledFlowCount < flowNum then s
  else if s.activeFlowCount ≠ 0 then s
  else { s with stopped := some .allFlowsFinish }

/-- The body of the loop of `ScheduleFlowInputs`. -/
def startFlow (s : ScheduleState) (f : FlowInput) (rest : List FlowInput) : ScheduleState :=
  let c : Client := { idx := s.idx, flow := f, sport := s.portNumder (f.src, f.dst) }
  { s with rest
           idx := s.idx + 1
           portNumder := update s.portNumder (f.src, f.dst) (s.portNumder (f.src, f.dst) + 1)
           scheduledFlowCount := s.scheduledFlowCount + 1
           activeFlowCount := s.activeFlowCount + 1
           ready := s.ready ++ [.start c] }

/-- The loop, while the time of an entry is now. -/
def startFlows : List FlowInput → ScheduleState → ScheduleState
  | [], s => s
  | f :: rest, s =>
    if seconds f.startTime = s.now then startFlows rest (s.startFlow f rest) else s

/-- `ScheduleFlowInputs`; a time that has passed cannot be scheduled. -/
def scheduleFlowInputs (flowNum : Nat) (s : ScheduleState) : Option ScheduleState :=
  let s := startFlows s.rest s
  match s.rest with
  | f :: _ =>
    if s.now ≤ seconds f.startTime then some { s with next := some (seconds f.startTime) } else none
  | [] => some (({ s with next := none } : ScheduleState).maybeStopWhenAllFlowsFinish flowNum)

/-- What `qp_finish` does to the counters. -/
def qpFinish (flowNum : Nat) (s : ScheduleState) (c : Client) : ScheduleState :=
  let s := { s with activeFlowCount := if 0 < s.activeFlowCount then s.activeFlowCount - 1 else 0
                    finished := s.finished ++ [c] }
  s.maybeStopWhenAllFlowsFinish flowNum

/-- The first event of the clients. -/
def runTask (s : ScheduleState) : Option ScheduleState :=
  match s.ready with
  | [] => none
  | .start c :: ready => some { s with ready := ready ++ [.startApplication c] }
  | .startApplication c :: ready =>
    some { s with ready, started := s.started ++ [{ client := c, time := s.now }] }

/-- The flow has a queue pair, and is not complete. -/
def Active (s : ScheduleState) (c : Client) : Prop :=
  (∃ r ∈ s.started, r.client = c) ∧ c ∉ s.finished

instance (s : ScheduleState) (c : Client) : Decidable (s.Active c) :=
  inferInstanceAs (Decidable (_ ∧ _))

end ScheduleState

inductive ScheduleEvent where
  | scheduleFlowInputs
  | task
  | qpFinish (c : Client) (time : Int)
  | stop

/-- What happens, until the simulation is stopped. The events of one time may come in any order,
but those of the clients in theirs; the last byte of a flow may be acknowledged at any time. -/
def scheduleStep (F : FlowInputs) (s : ScheduleState) : ScheduleEvent → Option ScheduleState
  | .scheduleFlowInputs =>
    s.next.bind fun t =>
      if s.stopped = none ∧ t ≤ F.stopAt ∧ (s.ready = [] ∨ t = s.now) then
        ({ s with now := t, next := none } : ScheduleState).scheduleFlowInputs F.flows.length
      else none
  | .task => if s.stopped = none then s.runTask else none
  | .qpFinish c t =>
    if s.stopped = none ∧ s.Active c ∧ s.now ≤ t ∧ t ≤ F.stopAt ∧ (∀ n ∈ s.next, t ≤ n) ∧
        (s.ready = [] ∨ t = s.now) then
      some (({ s with now := t } : ScheduleState).qpFinish F.flows.length c)
    else none
  | .stop =>
    if s.stopped = none ∧ (∀ n ∈ s.next, F.stopAt ≤ n) ∧ (s.ready = [] ∨ F.stopAt = s.now) then
      some { s with now := F.stopAt, stopped := some .simulatorStopTime }
    else none

/-- The end of a run -/
def Ended (F : FlowInputs) (s : ScheduleState) : Prop := ∀ e, scheduleStep F s e = none

/-! ## The clients of a file -/

abbrev FlowInput.pair (f : FlowInput) : Nat × Nat := (f.src, f.dst)

/-- The port of the next flow of a pair. -/
def portOf (flows : List FlowInput) (pair : Nat × Nat) : UInt16 :=
  10000 + .ofNat (flows.countP fun f => f.pair = pair)

/-- The client of the flow `f` behind the flows `before`. -/
def clientAfter (before : List FlowInput) (f : FlowInput) : Client :=
  { idx := before.length, flow := f, sport := portOf before f.pair }

/-- The clients of the first flows. -/
def FlowInputs.clients (F : FlowInputs) : Nat → List Client
  | 0 => []
  | k + 1 => F.clients k ++ (F.flows[k]?.map (clientAfter (F.flows.take k))).toList

variable {F : FlowInputs} {s t : ScheduleState}

theorem clients_succ {k : Nat} {f : FlowInput} (h : F.flows[k]? = some f) :
    F.clients (k + 1) = F.clients k ++ [clientAfter (F.flows.take k) f] := by
  simp [FlowInputs.clients, h]

theorem map_idx_clients {k : Nat} (hk : k ≤ F.flows.length) :
    (F.clients k).map (·.idx) = List.range k := by
  induction k with
  | zero => rfl
  | succ k ih =>
    have hf : F.flows[k]? = some F.flows[k] := List.getElem?_eq_getElem hk
    have hlen : (F.flows.take k).length = k := List.length_take_of_le (Nat.le_of_succ_le hk)
    rw [clients_succ hf, List.map_append, ih (Nat.le_of_succ_le hk), List.range_succ]
    simp [clientAfter, hlen]

theorem length_clients {k : Nat} (hk : k ≤ F.flows.length) : (F.clients k).length = k := by
  rw [← List.length_map (·.idx), map_idx_clients hk, List.length_range]

theorem mem_clients {k : Nat} (hk : k ≤ F.flows.length) {c : Client} : c ∈ F.clients k ↔
    c.idx < k ∧ ∃ f, F.flows[c.idx]? = some f ∧ c = clientAfter (F.flows.take c.idx) f := by
  induction k with
  | zero => simp [FlowInputs.clients]
  | succ k ih =>
    have hk' := Nat.le_of_succ_le hk
    have hf : F.flows[k]? = some F.flows[k] := List.getElem?_eq_getElem hk
    have hlen : (F.flows.take k).length = k := List.length_take_of_le hk'
    rw [clients_succ hf, List.mem_append, ih hk', List.mem_singleton]
    constructor
    · rintro (⟨hlt, hc⟩ | rfl)
      · exact ⟨Nat.lt_succ_of_lt hlt, hc⟩
      · have hidx : (clientAfter (F.flows.take k) F.flows[k]).idx = k := hlen
        rw [hidx]
        exact ⟨Nat.lt_succ_self k, F.flows[k], hf, rfl⟩
    · rintro ⟨hlt, f, hf', hc⟩
      rcases Nat.lt_or_ge c.idx k with hlt' | hge
      · exact .inl ⟨hlt', f, hf', hc⟩
      · obtain hidx : c.idx = k := by omega
        rw [hidx] at hf' hc
        cases hf.symm.trans hf'
        exact .inr hc

/-- Two flows of a pair have different ports, as long as the pair has less than `2 ^ 16`. -/
theorem sport_ne {c d : Client} {k : Nat} (hk : k ≤ F.flows.length) (hc : c ∈ F.clients k)
    (hd : d ∈ F.clients k) (hpair : c.flow.pair = d.flow.pair) (hlt : c.idx < d.idx)
    (hcount : F.flows.countP (fun f => f.pair = c.flow.pair) < 2 ^ 16) : c.sport ≠ d.sport := by
  obtain ⟨hck, f, hf, hceq⟩ := (mem_clients hk).mp hc
  obtain ⟨hdk, g, hg, hdeq⟩ := (mem_clients hk).mp hd
  have hcflow : c.flow = f := by rw [hceq]; rfl
  have hdflow : d.flow = g := by rw [hdeq]; rfl
  have hcport : c.sport = portOf (F.flows.take c.idx) c.flow.pair := by
    rw [hcflow]
    exact congrArg Client.sport hceq
  have hdport : d.sport = portOf (F.flows.take d.idx) c.flow.pair := by
    rw [hpair, hdflow]
    exact congrArg Client.sport hdeq
  -- the flow of `c` is counted for `d` and not for `c`
  have hmore : (F.flows.take c.idx).countP (fun f => f.pair = c.flow.pair) <
      (F.flows.take d.idx).countP (fun f => f.pair = c.flow.pair) := by
    have hsub : (F.flows.take (c.idx + 1)).Sublist (F.flows.take d.idx) :=
      (List.take_prefix_take_left hlt).sublist
    have hle := hsub.countP_le (p := fun f => decide (f.pair = c.flow.pair))
    rw [List.take_add_one, hf, List.countP_append] at hle
    simp only [Option.toList_some, List.countP_singleton, hcflow, decide_true, if_true] at hle ⊢
    omega
  have hall : (F.flows.take d.idx).countP (fun f => f.pair = c.flow.pair) ≤
      F.flows.countP (fun f => f.pair = c.flow.pair) :=
    (List.take_sublist d.idx F.flows).countP_le
  rw [hcport, hdport, portOf, portOf]
  intro heq
  have hcounts := congrArg UInt16.toNat ((UInt16.add_right_inj _).mp heq)
  rw [UInt16.toNat_ofNat', UInt16.toNat_ofNat', Nat.mod_eq_of_lt (by omega),
    Nat.mod_eq_of_lt (by omega)] at hcounts
  omega

/-! ## What holds between the events -/

/-- The clients that wait for their second event, and those that wait for both. -/
def applications (ready : List Task) : List Client :=
  ready.filterMap fun
    | .start _ => none
    | .startApplication c => some c

def starts (ready : List Task) : List Client :=
  ready.filterMap fun
    | .start c => some c
    | .startApplication _ => none

theorem applications_append (ready ready' : List Task) :
    applications (ready ++ ready') = applications ready ++ applications ready' :=
  List.filterMap_append ..

theorem starts_append (ready ready' : List Task) :
    starts (ready ++ ready') = starts ready ++ starts ready' :=
  List.filterMap_append ..

/-- The clients so far, in the order in which they will have been started. -/
def ScheduleState.clients (s : ScheduleState) : List Client :=
  s.started.map (·.client) ++ (applications s.ready ++ starts s.ready)

structure Going (F : FlowInputs) (s : ScheduleState) : Prop where
  idx_le : s.idx ≤ F.flows.length
  rest : s.rest = F.flows.drop s.idx
  clients : s.clients = F.clients s.idx
  ports : ∀ pair, s.portNumder pair = portOf (F.flows.take s.idx) pair
  scheduled : s.scheduledFlowCount = s.idx
  active : s.activeFlowCount + s.finished.length = s.idx
  finished_nodup : s.finished.Nodup
  finished_started : ∀ c ∈ s.finished, ∃ r ∈ s.started, r.client = c
  onTime : ∀ r ∈ s.started, r.time = seconds r.client.flow.startTime
  ready_now : ∀ c ∈ applications s.ready ++ starts s.ready, seconds c.flow.startTime = s.now
  future : ∀ f ∈ s.rest, s.now ≤ seconds f.startTime
  now_le : s.now ≤ F.stopAt
  stopped : s.stopped = some .allFlowsFinish → s.idx = F.flows.length ∧ s.activeFlowCount = 0
  timeUp : s.stopped = some .simulatorStopTime → s.now = F.stopAt

/-- Between the events, the next entry has its event, and the simulation goes on for a flow that
is not complete. -/
structure Waiting (F : FlowInputs) (s : ScheduleState) : Prop extends Going F s where
  next : s.next = s.rest.head?.map fun f => seconds f.startTime
  busy : s.stopped = none → 0 < s.idx → s.idx = F.flows.length → 0 < s.activeFlowCount

/-- The entries behind one are not before it. -/
theorem FlowInputs.le_of_head (F : FlowInputs) {k : Nat} {f : FlowInput} {rest : List FlowInput}
    (h : F.flows.drop k = f :: rest) :
    ∀ g ∈ f :: rest, seconds f.startTime ≤ seconds g.startTime := by
  have hsorted : (f :: rest).Pairwise fun f g => f.startTime ≤ g.startTime :=
    h ▸ F.sorted.sublist (List.drop_sublist k F.flows)
  intro g hg
  rcases List.mem_cons.mp hg with rfl | hg
  · exact le_rfl
  · exact seconds_mono ((List.pairwise_cons.mp hsorted).1 g hg)

/-- No entry is before the time of the next event. -/
theorem Waiting.le_of_next (h : Waiting F s) {time n : Int} (hnext : n ∈ s.next) (hle : time ≤ n) :
    ∀ f ∈ s.rest, time ≤ seconds f.startTime := by
  have hn := h.next
  rw [show s.next = some n from hnext] at hn
  obtain ⟨g, hg, rfl⟩ := Option.map_eq_some_iff.mp hn.symm
  obtain ⟨rest, hrest⟩ := List.head?_eq_some_iff.mp hg
  intro f hf
  exact hle.trans (F.le_of_head (h.rest.symm.trans hrest) f (hrest ▸ hf))

theorem Waiting.le_of_isNext (h : Waiting F s) {time : Int} (hnext : ∀ n ∈ s.next, time ≤ n) :
    ∀ f ∈ s.rest, time ≤ seconds f.startTime := by
  intro f hf
  cases hn : s.next with
  | none =>
    have hnil : s.rest = [] := by simpa [hn] using h.next
    rw [hnil] at hf
    cases hf
  | some n => exact h.le_of_next hn (hnext n hn) f hf

theorem waiting_init (F : FlowInputs) : Waiting F F.init where
  idx_le := Nat.zero_le _
  rest := rfl
  clients := rfl
  ports _ := rfl
  scheduled := rfl
  active := rfl
  finished_nodup := List.nodup_nil
  finished_started := nofun
  onTime := nofun
  ready_now := nofun
  future f hf := by
    change f ∈ F.flows at hf
    cases hflows : F.flows with
    | nil =>
      rw [hflows] at hf
      cases hf
    | cons g rest =>
      rw [hflows] at hf
      exact (F.notPast g (by rw [hflows]; rfl)).trans (F.le_of_head (k := 0) hflows f hf)
  now_le := F.stopNotPast
  stopped := nofun
  timeUp := nofun
  next := rfl
  busy _ hpos _ := absurd hpos (Nat.lt_irrefl 0)

/-- Time goes on, up to the next entry and not past the clients that are to be started. -/
theorem Going.advance (h : Going F s) (hstopped : s.stopped = none) {time : Int}
    (hle : time ≤ F.stopAt) (hnext : ∀ f ∈ s.rest, time ≤ seconds f.startTime)
    (hready : s.ready = [] ∨ time = s.now) (next : Option Int) :
    Going F { s with now := time, next } :=
  { h with
    ready_now := fun c hc => by
      rcases hready with hnil | rfl
      · dsimp only at hc
        rw [hnil] at hc
        cases hc
      · exact h.ready_now c hc
    future := hnext
    now_le := hle
    timeUp := fun hs => nomatch hstopped.symm.trans hs }

/-- One round of the loop. -/
theorem Going.startFlow (h : Going F s) (hstopped : s.stopped = none) {f : FlowInput}
    {rest : List FlowInput} (hrest : s.rest = f :: rest) (hnow : seconds f.startTime = s.now) :
    Going F (s.startFlow f rest) := by
  have hdrop : F.flows.drop s.idx = f :: rest := h.rest.symm.trans hrest
  have hf : F.flows[s.idx]? = some f := by
    rw [← List.head?_drop, hdrop]
    rfl
  have hlt : s.idx < F.flows.length := (List.getElem?_eq_some_iff.mp hf).1
  have htake : F.flows.take (s.idx + 1) = F.flows.take s.idx ++ [f] := by
    rw [List.take_add_one, hf]
    rfl
  have hlen : (F.flows.take s.idx).length = s.idx := List.length_take_of_le h.idx_le
  have hclient : clientAfter (F.flows.take s.idx) f =
      { idx := s.idx, flow := f, sport := s.portNumder (f.src, f.dst) } := by
    rw [clientAfter, hlen, h.ports]
  exact
    { idx_le := hlt
      rest := by
        change rest = F.flows.drop (s.idx + 1)
        rw [← List.drop_drop, hdrop]
        rfl
      clients := by
        change s.started.map (·.client) ++
          (applications (s.ready ++ [_]) ++ starts (s.ready ++ [_]))
          = F.clients (s.idx + 1)
        rw [clients_succ hf, hclient, ← h.clients, ScheduleState.clients, applications_append,
          starts_append]
        simp [applications, starts]
      ports := fun pair => by
        change update s.portNumder (f.src, f.dst) (s.portNumder (f.src, f.dst) + 1) pair =
          portOf (F.flows.take (s.idx + 1)) pair
        rw [htake, portOf, List.countP_append]
        rcases eq_or_ne pair (f.src, f.dst) with rfl | hne
        · rw [update_self, h.ports, portOf]
          simp [FlowInput.pair, UInt16.ofNat_add, UInt16.add_assoc]
        · rw [update_of_ne hne, h.ports, portOf]
          simp [FlowInput.pair, hne.symm]
      scheduled := congrArg (· + 1) h.scheduled
      active := by
        have hactive := h.active
        change s.activeFlowCount + 1 + s.finished.length = s.idx + 1
        omega
      finished_nodup := h.finished_nodup
      finished_started := h.finished_started
      onTime := h.onTime
      ready_now := fun c hc => by
        change c ∈ applications (s.ready ++ [_]) ++ starts (s.ready ++ [_]) at hc
        rw [applications_append, starts_append] at hc
        have hcases : c ∈ applications s.ready ++ starts s.ready ∨
            c = { idx := s.idx, flow := f, sport := s.portNumder (f.src, f.dst) } := by
          simpa [applications, starts, or_assoc] using hc
        rcases hcases with hc | rfl
        · exact h.ready_now c hc
        · exact hnow
      future := fun g hg => h.future g (hrest ▸ List.mem_cons_of_mem f hg)
      now_le := h.now_le
      stopped := fun hs => nomatch hstopped.symm.trans hs
      timeUp := h.timeUp }

/-- The loop starts all flows whose time is now. -/
theorem Going.startFlows {rest : List FlowInput} (h : Going F s) (hstopped : s.stopped = none)
    (hrest : s.rest = rest) :
    Going F (ScheduleState.startFlows rest s) ∧
      (ScheduleState.startFlows rest s).stopped = none := by
  induction rest generalizing s with
  | nil => exact ⟨h, hstopped⟩
  | cons f rest ih =>
    rw [ScheduleState.startFlows]
    split
    · next hnow => exact ih (h.startFlow hstopped hrest hnow) hstopped rfl
    · exact ⟨h, hstopped⟩

/-- Whether it stops or not, the schedule stays. -/
theorem maybeStop_next (flowNum : Nat) (s : ScheduleState) :
    (s.maybeStopWhenAllFlowsFinish flowNum).next = s.next ∧
      (s.maybeStopWhenAllFlowsFinish flowNum).rest = s.rest := by
  unfold ScheduleState.maybeStopWhenAllFlowsFinish
  split_ifs <;> exact ⟨rfl, rfl⟩

theorem Going.maybeStop (h : Going F s) :
    Going F (s.maybeStopWhenAllFlowsFinish F.flows.length) := by
  unfold ScheduleState.maybeStopWhenAllFlowsFinish
  split
  · exact h
  · next hall =>
    split
    · exact h
    · next hzero =>
      rw [h.scheduled] at hall
      exact { h with
        stopped := fun _ => ⟨Nat.le_antisymm h.idx_le (Nat.not_lt.mp hall), not_not.mp hzero⟩
        timeUp := nofun }

/-- When it does not stop, a flow is still to come or active. -/
theorem Going.maybeStop_busy (h : Going F s)
    (hstopped : (s.maybeStopWhenAllFlowsFinish F.flows.length).stopped = none) :
    (s.maybeStopWhenAllFlowsFinish F.flows.length).idx = F.flows.length →
      0 < (s.maybeStopWhenAllFlowsFinish F.flows.length).activeFlowCount := by
  unfold ScheduleState.maybeStopWhenAllFlowsFinish at hstopped ⊢
  split
  · next hlt =>
    rw [h.scheduled] at hlt
    exact fun heq => absurd heq hlt.ne
  · next hall =>
    rw [if_neg hall] at hstopped
    split
    · next hactive => exact fun _ => Nat.pos_of_ne_zero hactive
    · next hzero =>
      rw [if_neg hzero] at hstopped
      cases hstopped

/-- `ScheduleFlowInputs` never asks for a time that has passed. -/
theorem Going.scheduleFlowInputs (h : Going F s) (hstopped : s.stopped = none) :
    ∃ t, s.scheduleFlowInputs F.flows.length = some t ∧ Waiting F t := by
  obtain ⟨hgoing, hgo⟩ := h.startFlows hstopped rfl
  unfold ScheduleState.scheduleFlowInputs
  dsimp only
  split
  · next f rest hrest =>
    have hle : (ScheduleState.startFlows s.rest s).now ≤ seconds f.startTime :=
      hgoing.future f (hrest ▸ List.mem_cons_self)
    have hlt : (ScheduleState.startFlows s.rest s).idx < F.flows.length := by
      have hdrop := hgoing.rest
      by_contra hge
      rw [hrest, List.drop_eq_nil_of_le (Nat.not_lt.mp hge)] at hdrop
      cases hdrop
    rw [if_pos hle]
    refine ⟨_, rfl, { hgoing with next := ?_, busy := fun _ _ heq => absurd heq hlt.ne }⟩
    dsimp only
    rw [hrest]
    rfl
  · next hrest =>
    refine ⟨_, rfl, ?_⟩
    have hdone : Going F { ScheduleState.startFlows s.rest s with next := none } :=
      { hgoing with }
    refine
      { hdone.maybeStop with
        next := ?_, busy := fun hgoes _ => hdone.maybeStop_busy hgoes }
    rw [(maybeStop_next ..).1, (maybeStop_next ..).2]
    dsimp only
    rw [hrest]
    rfl

theorem Waiting.runTask (h : Waiting F s) (hstep : s.runTask = some t) : Waiting F t := by
  have hclients := h.clients
  have hready := h.ready_now
  unfold ScheduleState.runTask at hstep
  split at hstep
  · cases hstep
  · next c ready heq =>
    -- the client waits for its second event now, behind those that wait for it already
    cases hstep
    rw [heq] at hready
    rw [ScheduleState.clients, heq] at hclients
    have hsame : applications (ready ++ [.startApplication c]) ++
        starts (ready ++ [.startApplication c]) =
          applications (.start c :: ready) ++ starts (.start c :: ready) := by
      simp [applications, starts]
    exact
      { h with
        clients := by
          change _ ++ (applications (ready ++ [_]) ++ starts (ready ++ [_])) = _
          rw [hsame]
          exact hclients
        ready_now := fun d hd => hready d (hsame ▸ hd) }
  · next c ready heq =>
    cases hstep
    rw [heq] at hready
    rw [ScheduleState.clients, heq] at hclients
    exact
      { h with
        clients := by
          rw [← hclients, ScheduleState.clients]
          simp [applications, starts]
        finished_started := fun d hd => by
          obtain ⟨r, hr, hrd⟩ := h.finished_started d hd
          exact ⟨r, List.mem_append_left _ hr, hrd⟩
        onTime := fun r hr => by
          rcases List.mem_append.mp hr with hr | hr
          · exact h.onTime r hr
          · obtain rfl := List.mem_singleton.mp hr
            exact (hready c (by simp [applications])).symm
        ready_now := fun d hd => hready d (by
          rcases List.mem_append.mp hd with hd | hd
          · exact List.mem_append_left _ (List.mem_cons_of_mem c hd)
          · exact List.mem_append_right _ hd) }

/-- A flow that is active was counted. -/
theorem Going.activeFlowCount_pos (h : Going F s) {c : Client} (hc : s.Active c) :
    0 < s.activeFlowCount := by
  obtain ⟨⟨r, hr, rfl⟩, hnot⟩ := hc
  have hactive := h.active
  -- with `c`, the flows that are complete would be more than those that were counted
  have hnodup : (r.client :: s.finished).Nodup := List.nodup_cons.mpr ⟨hnot, h.finished_nodup⟩
  have hsub : ∀ d ∈ r.client :: s.finished, d ∈ F.clients s.idx := by
    intro d hd
    rw [← h.clients, ScheduleState.clients]
    refine List.mem_append_left _ ?_
    rcases List.mem_cons.mp hd with rfl | hd
    · exact List.mem_map_of_mem hr
    · obtain ⟨r', hr', rfl⟩ := h.finished_started d hd
      exact List.mem_map_of_mem hr'
  have hle := (hnodup.subperm hsub).length_le
  rw [length_clients h.idx_le, List.length_cons] at hle
  omega

theorem Waiting.qpFinish (h : Waiting F s) (hstopped : s.stopped = none) {c : Client}
    (hc : s.Active c) {time : Int} (hle : time ≤ F.stopAt) (hnext : ∀ n ∈ s.next, time ≤ n)
    (hready : s.ready = [] ∨ time = s.now) :
    Waiting F (({ s with now := time } : ScheduleState).qpFinish F.flows.length c) := by
  have hpos := h.activeFlowCount_pos hc
  have hactive := h.active
  have hfuture := h.le_of_isNext hnext
  have hadvanced := h.toGoing.advance hstopped hle hfuture hready s.next
  have hcounted : Going F { s with
      now := time
      activeFlowCount := if 0 < s.activeFlowCount then s.activeFlowCount - 1 else 0
      finished := s.finished ++ [c] } :=
    { hadvanced with
      active := by
        dsimp only
        rw [if_pos hpos, List.length_append, List.length_singleton]
        omega
      finished_nodup := List.nodup_append.mpr ⟨h.finished_nodup, List.nodup_singleton c,
        fun d hd d' hd' heq => hc.2 (List.mem_singleton.mp hd' ▸ heq ▸ hd)⟩
      finished_started := fun d hd => by
        rcases List.mem_append.mp hd with hd | hd
        · exact h.finished_started d hd
        · exact List.mem_singleton.mp hd ▸ hc.1
      stopped := fun hs => nomatch hstopped.symm.trans hs }
  refine
    { hcounted.maybeStop with next := ?_, busy := fun hgoes _ => hcounted.maybeStop_busy hgoes }
  rw [ScheduleState.qpFinish, (maybeStop_next ..).1, (maybeStop_next ..).2]
  exact h.next

theorem Waiting.step {e : ScheduleEvent} (h : Waiting F s) (hstep : scheduleStep F s e = some t) :
    Waiting F t := by
  cases e with
  | scheduleFlowInputs =>
    obtain ⟨time, hnext, hstep⟩ := Option.bind_eq_some_iff.mp hstep
    obtain ⟨⟨hstopped, hle, hready⟩, hstep⟩ := Option.ite_none_right_eq_some.mp hstep
    have hgoing := h.toGoing.advance hstopped hle (h.le_of_next hnext le_rfl) hready none
    obtain ⟨t', ht', hwaiting⟩ := hgoing.scheduleFlowInputs hstopped
    exact (Option.some.inj (ht'.symm.trans hstep)) ▸ hwaiting
  | task =>
    obtain ⟨-, hstep⟩ := Option.ite_none_right_eq_some.mp hstep
    exact h.runTask hstep
  | qpFinish c time =>
    obtain ⟨⟨hstopped, hc, -, hle, hnext, hready⟩, hstep⟩ :=
      Option.ite_none_right_eq_some.mp hstep
    cases hstep
    exact h.qpFinish hstopped hc hle hnext hready
  | stop =>
    obtain ⟨⟨hstopped, hnext, hready⟩, hstep⟩ := Option.ite_none_right_eq_some.mp hstep
    cases hstep
    have hfuture : ∀ f ∈ s.rest, F.stopAt ≤ seconds f.startTime := fun f hf =>
      h.le_of_isNext hnext f hf
    exact
      { h.toGoing.advance hstopped le_rfl hfuture hready s.next with
        stopped := nofun
        timeUp := fun _ => rfl
        next := h.next
        busy := nofun }

theorem waiting_of_reachable (h : Reachable (scheduleStep F) F.init s) : Waiting F s :=
  h.invariant (waiting_init F) fun _ _ _ hs hstep => hs.step hstep

/-! ## A run comes to an end -/

/-- Each event of a run counts here, at most four for a flow. -/
def ScheduleState.progress (s : ScheduleState) : Nat :=
  s.idx + (2 * s.started.length + (applications s.ready).length) + s.finished.length +
    s.stopped.elim 0 fun _ => 1

/-- The loop goes on in the file and leaves the other counts. -/
theorem startFlows_frame (rest : List FlowInput) (s : ScheduleState) :
    let t := ScheduleState.startFlows rest s
    s.idx ≤ t.idx ∧ t.started = s.started ∧ applications t.ready = applications s.ready ∧
      t.finished = s.finished ∧ t.stopped = s.stopped := by
  induction rest generalizing s with
  | nil => exact ⟨le_rfl, rfl, rfl, rfl, rfl⟩
  | cons f rest ih =>
    rw [ScheduleState.startFlows]
    split
    · obtain ⟨hidx, hstarted, happlications, hfinished, hstopped⟩ := ih (s.startFlow f rest)
      refine ⟨(Nat.le_succ s.idx).trans hidx, hstarted, happlications.trans ?_, hfinished,
        hstopped⟩
      change applications (s.ready ++ [_]) = _
      rw [applications_append]
      exact List.append_nil _
    · exact ⟨le_rfl, rfl, rfl, rfl, rfl⟩

theorem progress_maybeStop (flowNum : Nat) (s : ScheduleState) (hstopped : s.stopped = none) :
    s.progress ≤ (s.maybeStopWhenAllFlowsFinish flowNum).progress := by
  unfold ScheduleState.maybeStopWhenAllFlowsFinish
  split_ifs
  · exact le_rfl
  · exact le_rfl
  · rw [ScheduleState.progress, hstopped]
    exact Nat.le_succ _

/-- `ScheduleFlowInputs` starts a flow when it is called at the time of the next one. -/
theorem progress_scheduleFlowInputs {flowNum : Nat} {f : FlowInput} {rest : List FlowInput}
    (hstopped : s.stopped = none) (hrest : s.rest = f :: rest) (hnow : seconds f.startTime = s.now)
    (hstep : s.scheduleFlowInputs flowNum = some t) : s.progress < t.progress := by
  have hidx : s.idx < (ScheduleState.startFlows s.rest s).idx := by
    rw [hrest, ScheduleState.startFlows, if_pos hnow]
    exact (startFlows_frame rest (s.startFlow f rest)).1
  obtain ⟨-, hstarted, happlications, hfinished, hsame⟩ := startFlows_frame s.rest s
  have hlt : s.progress < (ScheduleState.startFlows s.rest s).progress := by
    rw [ScheduleState.progress, ScheduleState.progress, hstarted, happlications, hfinished, hsame]
    omega
  unfold ScheduleState.scheduleFlowInputs at hstep
  dsimp only at hstep
  split at hstep
  · obtain ⟨-, hstep⟩ := Option.ite_none_right_eq_some.mp hstep
    cases hstep
    exact hlt
  · cases hstep
    exact hlt.trans_le (progress_maybeStop flowNum
      { ScheduleState.startFlows s.rest s with next := none } (hsame.trans hstopped))

theorem Waiting.progress_lt (h : Waiting F s) {e : ScheduleEvent}
    (hstep : scheduleStep F s e = some t) : s.progress < t.progress := by
  cases e with
  | scheduleFlowInputs =>
    obtain ⟨time, hnext, hstep⟩ := Option.bind_eq_some_iff.mp hstep
    obtain ⟨⟨hstopped, -, -⟩, hstep⟩ := Option.ite_none_right_eq_some.mp hstep
    obtain ⟨f, hf, rfl⟩ := Option.map_eq_some_iff.mp (h.next.symm.trans hnext)
    obtain ⟨rest, hrest⟩ := List.head?_eq_some_iff.mp hf
    exact progress_scheduleFlowInputs (s := { s with now := seconds f.startTime, next := none })
      hstopped hrest rfl hstep
  | task =>
    obtain ⟨-, hstep⟩ := Option.ite_none_right_eq_some.mp hstep
    unfold ScheduleState.runTask at hstep
    split at hstep
    · cases hstep
    · next c ready heq =>
      cases hstep
      simp only [ScheduleState.progress, heq, applications_append]
      simp [applications]
    · next c ready heq =>
      cases hstep
      simp only [ScheduleState.progress, heq, List.length_append, List.length_singleton]
      simp only [applications, List.filterMap_cons, List.length_cons]
      omega
  | qpFinish c time =>
    obtain ⟨⟨hstopped, -⟩, hstep⟩ := Option.ite_none_right_eq_some.mp hstep
    cases hstep
    refine Nat.lt_of_lt_of_le ?_ (progress_maybeStop F.flows.length _ hstopped)
    simp only [ScheduleState.progress, List.length_append, List.length_singleton]
    omega
  | stop =>
    obtain ⟨⟨hstopped, -⟩, hstep⟩ := Option.ite_none_right_eq_some.mp hstep
    cases hstep
    rw [ScheduleState.progress, hstopped]
    exact Nat.lt_succ_self _

theorem Waiting.progress_le (h : Waiting F s) : s.progress ≤ 4 * F.flows.length + 1 := by
  have hidx := h.idx_le
  have hactive := h.active
  have hclients := congrArg List.length h.clients
  rw [length_clients hidx, ScheduleState.clients, List.length_append, List.length_append,
    List.length_map] at hclients
  have hstopped : (s.stopped.elim 0 fun _ => 1) ≤ 1 := by
    cases s.stopped <;> simp
  rw [ScheduleState.progress]
  omega

/-- Four events for each flow, and the end -/
theorem length_le_of_run {es : List ScheduleEvent}
    (h : run (scheduleStep F) F.init es = some s) : es.length ≤ 4 * F.flows.length + 1 :=
  (Nat.le_add_right _ _).trans ((length_add_le_of_run (fun _ _ _ hs hstep => hs.step hstep)
    (fun _ _ _ hs hstep => hs.progress_lt hstep) (waiting_init F) h).trans
      (waiting_of_reachable ⟨es, h⟩).progress_le)

theorem ended_of_stopped {stopper : Stopper} (h : s.stopped = some stopper) : Ended F s := by
  intro e
  have hne : s.stopped ≠ none := h ▸ Option.some_ne_none stopper
  cases e with
  | scheduleFlowInputs =>
    rw [scheduleStep]
    cases s.next with
    | none => rfl
    | some time => exact if_neg fun hand => hne hand.1
  | task => exact if_neg hne
  | qpFinish c time => exact if_neg fun hand => hne hand.1
  | stop => exact if_neg fun hand => hne hand.1

/-- As long as it is not stopped, the simulation goes on. -/
theorem Waiting.stopped_of_ended (h : Waiting F s) (hended : Ended F s) :
    s.stopped = some .allFlowsFinish ∨ s.stopped = some .simulatorStopTime := by
  cases hstopped : s.stopped with
  | some stopper => cases stopper <;> simp
  | none =>
    exfalso
    have hready : s.ready = [] := by
      have htask := hended .task
      rw [scheduleStep, if_pos hstopped] at htask
      unfold ScheduleState.runTask at htask
      split at htask
      · next hready => exact hready
      · cases htask
      · cases htask
    obtain ⟨n, hn, hlt⟩ : ∃ n ∈ s.next, n < F.stopAt := by
      by_contra hnone
      have hlater : ∀ n ∈ s.next, F.stopAt ≤ n := fun n hn =>
        not_lt.mp fun hlt => hnone ⟨n, hn, hlt⟩
      have hstop := hended .stop
      rw [scheduleStep, if_pos ⟨hstopped, hlater, .inl hready⟩] at hstop
      cases hstop
    have hgoing := h.toGoing.advance hstopped hlt.le (h.le_of_next hn le_rfl) (.inl hready) none
    obtain ⟨t, ht, -⟩ := hgoing.scheduleFlowInputs hstopped
    have hschedule := hended .scheduleFlowInputs
    rw [scheduleStep, Option.mem_def.mp hn, Option.bind_some,
      if_pos ⟨hstopped, hlt.le, .inl hready⟩] at hschedule
    exact Option.some_ne_none t (ht.symm.trans hschedule)

/-! ## The schedule -/

/-- What the schedule is to achieve, at any time and at the end of a run. -/
structure Scheduled (F : FlowInputs) (s : ScheduleState) : Prop where
  inOrder : s.started.map (·.client.idx) = List.range s.started.length
  entry : ∀ r ∈ s.started, F.flows[r.client.idx]? = some r.client.flow
  onTime : ∀ r ∈ s.started, r.time = seconds r.client.flow.startTime
  noneMissed : ∀ i f, F.flows[i]? = some f → seconds f.startTime < s.now →
    ∃ r ∈ s.started, r.client.idx = i
  allStarted : Ended F s → ∀ i f, F.flows[i]? = some f → seconds f.startTime < F.stopAt →
    ∃ r ∈ s.started, r.client.idx = i
  ports : ∀ c d, s.Active c → s.Active d → c.idx ≠ d.idx → c.flow.pair = d.flow.pair →
    F.flows.countP (fun f => f.pair = c.flow.pair) < 2 ^ 16 → c.sport ≠ d.sport
  stopsLast : s.stopped = some .allFlowsFinish →
    s.started.length = F.flows.length ∧ ∀ r ∈ s.started, r.client ∈ s.finished
  goesOn : s.stopped = none → F.flows ≠ [] → s.finished.length < F.flows.length

theorem Waiting.mem_clients (h : Waiting F s) {r : Started} (hr : r ∈ s.started) :
    r.client ∈ F.clients s.idx := by
  rw [← h.clients, ScheduleState.clients]
  exact List.mem_append_left _ (List.mem_map_of_mem hr)

theorem Waiting.entry (h : Waiting F s) {r : Started} (hr : r ∈ s.started) :
    F.flows[r.client.idx]? = some r.client.flow := by
  obtain ⟨-, f, hf, hc⟩ := (Traffic.mem_clients h.idx_le).mp (h.mem_clients hr)
  have hflow : r.client.flow = f := by rw [hc]; rfl
  rw [hflow]
  exact hf

/-- The flows that were started are the first ones. -/
theorem Waiting.inOrder (h : Waiting F s) :
    s.started.map (·.client.idx) = List.range s.started.length := by
  have hidx := map_idx_clients h.idx_le
  rw [← h.clients, ScheduleState.clients, List.map_append, List.map_map] at hidx
  have htake := congrArg (List.take s.started.length) hidx
  rw [List.take_left' (by simp), List.take_range] at htake
  have hle : s.started.length ≤ s.idx := by
    rw [← length_clients h.idx_le, ← h.clients, ScheduleState.clients, List.length_append,
      List.length_map]
    exact Nat.le_add_right ..
  rw [Nat.min_eq_left hle] at htake
  exact htake

/-- A client that is not started yet is started now. -/
theorem Waiting.noneMissed (h : Waiting F s) {i : Nat} {f : FlowInput} (hf : F.flows[i]? = some f)
    (hpast : seconds f.startTime < s.now) : ∃ r ∈ s.started, r.client.idx = i := by
  have hlt : i < s.idx := by
    by_contra hge
    have hmem : f ∈ s.rest := by
      rw [h.rest]
      refine List.mem_of_getElem? (i := i - s.idx) ?_
      rw [List.getElem?_drop, Nat.add_sub_cancel' (Nat.not_lt.mp hge)]
      exact hf
    exact absurd hpast (h.future f hmem).not_gt
  obtain ⟨hi, -⟩ := List.getElem?_eq_some_iff.mp hf
  have hlen : (F.flows.take i).length = i := List.length_take_of_le hi.le
  have hmem : clientAfter (F.flows.take i) f ∈ s.clients := by
    rw [h.clients]
    have hidx : (clientAfter (F.flows.take i) f).idx = i := hlen
    exact (Traffic.mem_clients h.idx_le).mpr ⟨by rwa [hidx], f, by rwa [hidx], by rw [hidx]⟩
  rcases List.mem_append.mp hmem with hmem | hmem
  · obtain ⟨r, hr, heq⟩ := List.mem_map.mp hmem
    exact ⟨r, hr, (congrArg Client.idx heq).trans hlen⟩
  · exact absurd (h.ready_now _ hmem) hpast.ne

/-- A simulation that goes on has a flow that is not complete. -/
theorem Waiting.goesOn (h : Waiting F s) (hstopped : s.stopped = none) (hne : F.flows ≠ []) :
    s.finished.length < F.flows.length := by
  have hactive := h.active
  rcases h.idx_le.lt_or_eq with hlt | heq
  · omega
  · have hpos := h.busy hstopped (heq ▸ List.length_pos_of_ne_nil hne) heq
    omega

/-- When none is active, all that were started are complete. -/
theorem Waiting.stopsLast (h : Waiting F s) (hstopped : s.stopped = some .allFlowsFinish) :
    s.started.length = F.flows.length ∧ ∀ r ∈ s.started, r.client ∈ s.finished := by
  obtain ⟨hidx, hzero⟩ := h.stopped hstopped
  have hactive := h.active
  have hall : s.finished.length = (F.clients s.idx).length := by
    rw [length_clients h.idx_le]
    omega
  have hsub : ∀ c ∈ s.finished, c ∈ s.started.map (·.client) := fun c hc => by
    obtain ⟨r, hr, rfl⟩ := h.finished_started c hc
    exact List.mem_map_of_mem hr
  have hle : s.finished.length ≤ s.started.length := by
    simpa using (h.finished_nodup.subperm hsub).length_le
  have hclients := congrArg List.length h.clients
  rw [ScheduleState.clients, List.length_append, List.length_map] at hclients
  have hlen : s.started.length = F.flows.length := by
    rw [length_clients h.idx_le] at hclients hall
    omega
  refine ⟨hlen, fun r hr => ?_⟩
  have hperm : s.finished.Perm (F.clients s.idx) := by
    refine (h.finished_nodup.subperm fun c hc => ?_).perm_of_length_le hall.ge
    obtain ⟨r', hr', rfl⟩ := h.finished_started c hc
    exact h.mem_clients hr'
  exact hperm.mem_iff.mpr (h.mem_clients hr)

/-- At the end, all flows from before the stop time were started. -/
theorem Waiting.allStarted (h : Waiting F s) (hended : Ended F s) {i : Nat} {f : FlowInput}
    (hf : F.flows[i]? = some f) (hbefore : seconds f.startTime < F.stopAt) :
    ∃ r ∈ s.started, r.client.idx = i := by
  rcases h.stopped_of_ended hended with hstopped | hstopped
  · have hlt : i < s.started.length :=
      (h.stopsLast hstopped).1 ▸ (List.getElem?_eq_some_iff.mp hf).1
    exact List.mem_map.mp (h.inOrder ▸ List.mem_range.mpr hlt)
  · exact h.noneMissed hf (hbefore.trans_eq (h.timeUp hstopped).symm)

/-- A run has at most four events for each flow and its end. In it the flows are started in the
order of the file, each once and at its time, and at its end all from before the stop time; active
flows of a pair have different ports, and the end of the last flow stops the simulation. -/
theorem flows_scheduled {es : List ScheduleEvent} (h : run (scheduleStep F) F.init es = some s) :
    es.length ≤ 4 * F.flows.length + 1 ∧ Scheduled F s := by
  have hw := waiting_of_reachable ⟨es, h⟩
  refine ⟨length_le_of_run h, ?_⟩
  exact
    { inOrder := hw.inOrder
      entry := fun _ hr => hw.entry hr
      onTime := hw.onTime
      noneMissed := fun i f hf hpast => hw.noneMissed hf hpast
      allStarted := fun hended i f hf hbefore => hw.allStarted hended hf hbefore
      ports := fun c d hc hd hne hpair hcount => by
        obtain ⟨⟨r, hr, rfl⟩, -⟩ := hc
        obtain ⟨⟨r', hr', rfl⟩, -⟩ := hd
        have hmem := hw.mem_clients hr
        have hmem' := hw.mem_clients hr'
        rcases Nat.lt_or_gt_of_ne hne with hlt | hgt
        · exact sport_ne hw.idx_le hmem hmem' hpair hlt hcount
        · exact (sport_ne hw.idx_le hmem' hmem hpair.symm hgt (hpair ▸ hcount)).symm
      stopsLast := hw.stopsLast
      goesOn := hw.goesOn }

/-- Two flows of one pair that start at once, after two seconds, and one of another pair that would
start after four. -/
def exInputs : FlowInputs :=
  { flows :=
      [{ src := 0, dst := 1, pg := 3, maxPacketCount := 1000, dport := 1, startTime := 2 },
        { src := 0, dst := 1, pg := 3, maxPacketCount := 500, dport := 2, startTime := 2 },
        { src := 2, dst := 1, pg := 3, maxPacketCount := 100, dport := 1, startTime := 4 }]
    simulatorStopTime := 301 / 100
    sorted := by decide
    notPast := by decide +kernel
    stopNotPast := by decide +kernel }

/-- The first flow is complete before the simulation is stopped. -/
def exSchedule : List ScheduleEvent :=
  [.scheduleFlowInputs, .task, .task, .task, .task,
    .qpFinish { idx := 0, flow := exInputs.flows[0], sport := 10000 } 2500000000, .stop]

def exScheduled : ScheduleState :=
  (run (scheduleStep exInputs) exInputs.init exSchedule).get (by decide +kernel)

theorem exScheduled_eq :
    run (scheduleStep exInputs) exInputs.init exSchedule = some exScheduled := by
  rw [exScheduled, Option.some_get]

theorem exInputs_scheduled : exSchedule.length ≤ 13 ∧ Scheduled exInputs exScheduled :=
  flows_scheduled exScheduled_eq

/-- The third flow is never started: nothing happens after the stop time. -/
theorem late_flow_not_started :
    run (scheduleStep exInputs) exInputs.init exSchedule = some exScheduled ∧
      Ended exInputs exScheduled ∧ exInputs.flows.length = 3 ∧
      exScheduled.started.map (·.client.idx) = [0, 1] :=
  ⟨exScheduled_eq, ended_of_stopped (by decide +kernel : _ = some Stopper.simulatorStopTime), rfl,
    by decide +kernel⟩

end Paraleon.Traffic
