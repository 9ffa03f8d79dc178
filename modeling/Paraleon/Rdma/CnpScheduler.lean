import Paraleon.Library.RoundRobin
import Paraleon.Rdma.Keys

/-!
# The CNP scheduler of a DCQCN+ receiver

Flows with marked packets stand in `m_dcqcnPlusReceiverOrder`. A scan event visits
the entry at the cursor, sends a CNP for it when a mark is pending and the last CNP
is long enough ago, removes it when nothing has happened for long, and schedules
the next scan.

* `scheduler_invariant`: order, table, cursor and scan event agree in every state.
* `visited_once`: the entries take turns.
* `cnps_paced`, `marks_reported`: CNPs keep their distance, and no mark gets lost.

Times are in ns.
-/

namespace Paraleon.Rdma.CnpScheduler

open Function RoundRobin Runs

/-! ## The scheduler -/

/-- The constants of the scheduler, in us. -/
structure Config where
  enabled : Bool
  minCnpIntervalUs : Nat
  scanIntervalUs : Nat
  entryTimeoutUs : Nat
  initialCnpOffsetUs : Nat
deriving DecidableEq, Repr

/-- The values of the constructor, with `dcqcn_plus` as the scheme. -/
def dcqcnPlus : Config :=
  { enabled := true, minCnpIntervalUs := 45, scanIntervalUs := 1, entryTimeoutUs := 200,
    initialCnpOffsetUs := 50 }

def microSeconds (us : Nat) : Int := 1000 * us

structure DcqcnPlusReceiverState where
  rxQp : RxQp
  ecnPending : Bool
  ecnBits : UInt8
  lastCnpTime : Int
deriving DecidableEq, Repr

/-- A CNP that was handed to the NIC: the queue pair it is for, what its header
says, and when it was sent. -/
structure Cnp where
  rxQp : RxQp
  ecnBits : UInt8
  qfb : Nat
  total : Nat
  time : Int
deriving DecidableEq, Repr

/-- The receiver's part of `RdmaHw`. `scanEvents` are the pending scan events of the
simulator, by the numbers `Schedule` gives them; `scanEvent` is the handle in
`m_dcqcnPlusScanEvent`. -/
structure Receiver where
  clock : Int
  rxQpMap : RxQpMap
  table : UInt64 → Option DcqcnPlusReceiverState
  order : List UInt64
  cursor : Nat
  scanArmed : Bool
  scanEvent : Option Nat
  scanEvents : List Nat
  nextEvent : Nat
  sent : List Cnp

namespace Receiver

def start : Receiver :=
  { clock := 0, rxQpMap := fun _ => none, table := fun _ => none, order := [], cursor := 0,
    scanArmed := false, scanEvent := none, scanEvents := [], nextEvent := 0, sent := [] }

def scheduleScan (s : Receiver) : Receiver :=
  { s with scanEvents := s.scanEvents ++ [s.nextEvent], scanEvent := some s.nextEvent,
           nextEvent := s.nextEvent + 1, scanArmed := true }

/-- `Simulator::Cancel` of `m_dcqcnPlusScanEvent`. -/
def cancelScan (s : Receiver) : Receiver :=
  { s with scanEvents := s.scanEvent.elim s.scanEvents s.scanEvents.erase }

/-- The entry of a queue pair, with another mark. -/
def mark (c : Config) (q : RxQp) (ecnbits : UInt8) (s : Receiver) : Receiver :=
  match s.table q.key with
  | none =>
    { s with
      table := update s.table q.key
        (some { rxQp := q, ecnPending := true, ecnBits := ecnbits,
                lastCnpTime := s.clock - microSeconds c.initialCnpOffsetUs }),
      order := s.order ++ [q.key] }
  | some state =>
    { s with
      table := update s.table q.key
        (some { state with rxQp := q, ecnPending := true, ecnBits := state.ecnBits ||| ecnbits }) }

/-- `TrackDcqcnPlusReceiverEcn`. -/
def track (c : Config) (q : RxQp) (ecnbits : UInt8) (s : Receiver) : Receiver :=
  if c.enabled = false ∨ ecnbits = 0 then s
  else
    let s := s.mark c q ecnbits
    if s.scanArmed then s else s.scheduleScan

/-- `RemoveDcqcnPlusReceiverState`. -/
def remove (key : UInt64) (s : Receiver) : Receiver :=
  let s := { s with table := update s.table key none }
  let s :=
    match s.order.idxOf? key with
    | none => s
    | some index =>
      { s with order := s.order.eraseIdx index,
               cursor := if index < s.cursor ∧ 0 < s.cursor then s.cursor - 1 else s.cursor }
  if s.order = [] then { s.cancelScan with cursor := 0, scanArmed := false }
  else if s.order.length ≤ s.cursor then { s with cursor := 0 }
  else s

/-- `SendDcqcnPlusReceiverCnp`. -/
def sendCnp (state : DcqcnPlusReceiverState) (tauUs entryCount : Nat) (s : Receiver) : Receiver :=
  { s with sent := s.sent ++ [{ rxQp := state.rxQp, ecnBits := state.ecnBits,
                                qfb := min tauUs 0xffff, total := min entryCount 0xffff,
                                time := s.clock }] }

/-- What the scan does with the entry at the cursor. -/
def visit (c : Config) (s : Receiver) : Receiver :=
  match s.order[s.cursor]? with
  | none => s
  | some key =>
    match s.table key with
    | none => { s with order := s.order.eraseIdx s.cursor }
    | some state =>
      let age := s.clock - state.lastCnpTime
      if state.ecnPending = true ∧ microSeconds c.minCnpIntervalUs < age then
        let entryCount := s.order.length
        { s.sendCnp state (entryCount * c.scanIntervalUs) entryCount with
          table := update s.table key
            (some { state with ecnPending := false, ecnBits := 0, lastCnpTime := s.clock }),
          cursor := s.cursor + 1 }
      else if microSeconds c.entryTimeoutUs < age then s.remove key
      else { s with cursor := s.cursor + 1 }

/-- `RunDcqcnPlusReceiverScheduler`. -/
def runScheduler (c : Config) (s : Receiver) : Receiver :=
  let s := { s with scanArmed := false }
  if c.enabled = false ∨ s.order = [] then { s with cursor := 0 }
  else
    let s := visit c { s with cursor := wrap s.order s.cursor }
    if s.order = [] then { s with cursor := 0 }
    else { s with cursor := wrap s.order s.cursor }.scheduleScan

/-- `DeleteRxQp`. -/
def deleteRxQp (dip : UInt32) (pg dport : UInt16) (s : Receiver) : Receiver :=
  let s := s.remove (getRxQpKey dip pg dport)
  { s with rxQpMap := update s.rxQpMap (getRxQpKey dip pg dport) none }

/-- `ReceiveUdp`, as far as the scheduler is concerned. -/
def receiveUdp (c : Config) (ch : DataHeader) (s : Receiver) : Receiver :=
  let (q, rxQpMap) := getRxQp s.rxQpMap ch.dip ch.sip ch.dport ch.sport ch.pg
  track c q ch.ecnbits { s with rxQpMap }

end Receiver

/-- The events of a run, each with its time. -/
inductive Event where
  | receiveUdp (now : Int) (ch : DataHeader)
  | deleteRxQp (now : Int) (dip : UInt32) (pg dport : UInt16)
  /-- A pending scan event fires. -/
  | scan (now : Int) (event : Nat)

def Event.time : Event → Int
  | .receiveUdp now _ | .deleteRxQp now .. | .scan now _ => now

/-- Time does not go back. When a scan is due is left open. -/
def step (c : Config) (s : Receiver) (e : Event) : Option Receiver :=
  if e.time < s.clock then none
  else
    let s := { s with clock := e.time }
    match e with
    | .receiveUdp _ ch => some (s.receiveUdp c ch)
    | .deleteRxQp _ dip pg dport => some (s.deleteRxQp dip pg dport)
    | .scan _ event =>
      if event ∈ s.scanEvents then
        some (Receiver.runScheduler c { s with scanEvents := s.scanEvents.erase event })
      else none

/-! ## What each function does -/

section Spec

variable {c : Config} {s t : Receiver} {key : UInt64}

/-- Table, order and cursor agree with each other and with `m_rxQpMap`. -/
structure Listed (s : Receiver) : Prop where
  nodup : s.order.Nodup
  listed : ∀ k, k ∈ s.order ↔ (s.table k).isSome = true
  known : ∀ k ∈ s.order, (s.rxQpMap k).isSome = true
  keyed : s.rxQpMap.Keyed
  own : ∀ k state, s.table k = some state → state.rxQp.key = k
  cursor : s.cursor < s.order.length ∨ s.order = [] ∧ s.cursor = 0

theorem Listed.cursor_le (h : Listed s) : s.cursor ≤ s.order.length := by
  rcases h.cursor with hlt | ⟨-, hzero⟩
  · exact Nat.le_of_lt hlt
  · rw [hzero]
    exact Nat.zero_le _

/-- The scan event is pending and armed, or neither. -/
def Armed (s : Receiver) : Prop :=
  (s.scanArmed = true ∧ ∃ event, s.scanEvents = [event] ∧ s.scanEvent = some event) ∨
    (s.scanArmed = false ∧ s.scanEvents = [])

def Receiver.upcoming (s : Receiver) : List UInt64 := RoundRobin.upcoming s.order s.cursor

namespace Receiver

variable (key) in
/-- The end of `remove`: an empty order is disarmed, a cursor at the end wraps. -/
theorem remove_eq (hnodup : s.order.Nodup) (hcursor : s.cursor ≤ s.order.length) :
    ∃ cursor, cursor ≤ (s.order.erase key).length ∧
      RoundRobin.upcoming (s.order.erase key) cursor = s.upcoming.erase key ∧
      s.remove key =
        let s := { s with table := update s.table key none, order := s.order.erase key, cursor }
        if s.order = [] then { s.cancelScan with cursor := 0, scanArmed := false }
        else { s with cursor := wrap s.order cursor } := by
  cases hidx : s.order.idxOf? key with
  | none =>
    have hnot : key ∉ s.order := List.idxOf?_eq_none_iff.mp hidx
    refine ⟨s.cursor, ?_, ?_, ?_⟩
    · rwa [List.erase_of_not_mem hnot]
    · rw [List.erase_of_not_mem hnot, upcoming,
        List.erase_of_not_mem fun h => hnot (mem_upcoming.mp h)]
    · simp only [remove, hidx, List.erase_of_not_mem hnot, wrap]
      split_ifs <;> rfl
  | some index =>
    obtain ⟨hlt, hat, -⟩ := List.idxOf?_eq_some_iff.mp hidx
    have hindex : s.order[index]? = some key := by rw [List.getElem?_eq_getElem hlt, hat]
    have herase : s.order.eraseIdx index = s.order.erase key := by
      rw [← hat, hnodup.erase_getElem]
    -- the guard against a cursor at 0 holds by itself
    have hguard : (if index < s.cursor ∧ 0 < s.cursor then s.cursor - 1 else s.cursor)
        = if index < s.cursor then s.cursor - 1 else s.cursor := by
      congr 1
      exact propext ⟨And.left, fun h => ⟨h, Nat.zero_lt_of_lt h⟩⟩
    refine ⟨if index < s.cursor then s.cursor - 1 else s.cursor, ?_, ?_, ?_⟩
    · rw [← herase, List.length_eraseIdx_of_lt hlt]
      split
      · exact Nat.sub_le_sub_right hcursor 1
      · next hbehind =>
        exact Nat.le_trans (Nat.le_of_not_lt hbehind) (Nat.le_sub_one_of_lt hlt)
    · rw [← herase]
      exact upcoming_eraseIdx hnodup hcursor hindex
    · simp only [remove, hidx, herase, hguard, wrap]
      split_ifs <;> rfl

variable (key) in
theorem remove_frame : (s.remove key).rxQpMap = s.rxQpMap ∧ (s.remove key).sent = s.sent ∧
    (s.remove key).clock = s.clock ∧ (s.remove key).table = update s.table key none := by
  simp only [remove]
  split <;> split_ifs <;> exact ⟨rfl, rfl, rfl, rfl⟩

variable (key) in
theorem remove_order (hnodup : s.order.Nodup) (hcursor : s.cursor ≤ s.order.length) :
    (s.remove key).order = s.order.erase key ∧ (s.remove key).upcoming = s.upcoming.erase key ∧
      ((s.remove key).cursor < (s.remove key).order.length ∨
        (s.remove key).order = [] ∧ (s.remove key).cursor = 0) := by
  obtain ⟨cursor, hle, hup, heq⟩ := remove_eq key hnodup hcursor
  rw [heq]
  dsimp only
  split
  · next hnil =>
    refine ⟨rfl, ?_, .inr ⟨hnil, rfl⟩⟩
    rw [← hup]
    simp only [upcoming, cancelScan, hnil]
    simp [RoundRobin.upcoming]
  · next hne => exact ⟨rfl, (upcoming_wrap hle).trans hup, .inl (wrap_lt hne cursor)⟩

variable (key) in
/-- The scan event goes with the last entry. -/
theorem remove_armed (hnodup : s.order.Nodup) (hcursor : s.cursor ≤ s.order.length)
    (harmed : Armed s) :
    Armed (s.remove key) ∧
      ((s.remove key).scanArmed = true ↔ s.scanArmed = true ∧ (s.remove key).order ≠ []) ∧
      (s.scanEvents = [] → (s.remove key).scanEvents = []) := by
  obtain ⟨cursor, -, -, heq⟩ := remove_eq key hnodup hcursor
  rw [heq]
  dsimp only
  split
  · next hnil =>
    have hevents : (s.scanEvent.elim s.scanEvents s.scanEvents.erase) = [] := by
      rcases harmed with ⟨-, event, hevents, hevent⟩ | ⟨-, hevents⟩
      · simp [hevents, hevent]
      · rw [hevents]
        cases s.scanEvent <;> rfl
    exact ⟨.inr ⟨rfl, hevents⟩, by simp [hnil, cancelScan], fun _ => hevents⟩
  · next hne => exact ⟨harmed, by simp [hne], id⟩

variable (key) in
/-- Removal keeps the lists in agreement, also when the receive queue pair of the key
goes away at the same time. -/
theorem remove_listed (h : Listed s) : Listed (s.remove key) ∧ key ∉ (s.remove key).order := by
  obtain ⟨hrx, -, -, htable⟩ := remove_frame (s := s) key
  obtain ⟨horder, -, hcur⟩ := remove_order key h.nodup h.cursor_le
  have hmem (k : UInt64) : k ∈ (s.remove key).order ↔ k ≠ key ∧ k ∈ s.order := by
    rw [horder, h.nodup.mem_erase_iff]
  refine ⟨⟨horder ▸ h.nodup.erase key, ?_, ?_, ?_, ?_, hcur⟩, fun hin => ((hmem key).mp hin).1 rfl⟩
  · intro k
    rw [hmem, h.listed, htable]
    rcases eq_or_ne k key with rfl | hne
    · simp
    · simp [hne]
  · intro k hk
    rw [hrx]
    exact h.known k ((hmem k).mp hk).2
  · rw [hrx]
    exact h.keyed
  · intro k state hstate
    rw [htable] at hstate
    rcases eq_or_ne k key with rfl | hne
    · simp at hstate
    · exact h.own k state (by simpa [hne] using hstate)

theorem mark_frame (q : RxQp) (ecnbits : UInt8) :
    (s.mark c q ecnbits).rxQpMap = s.rxQpMap ∧ (s.mark c q ecnbits).sent = s.sent ∧
      (s.mark c q ecnbits).clock = s.clock ∧ (s.mark c q ecnbits).scanArmed = s.scanArmed ∧
      (s.mark c q ecnbits).scanEvent = s.scanEvent ∧
      (s.mark c q ecnbits).scanEvents = s.scanEvents ∧
      ∃ state, (s.mark c q ecnbits).table = update s.table q.key (some state) ∧
        state.rxQp = q ∧ state.ecnPending = true ∧ state.ecnBits ||| ecnbits = state.ecnBits ∧
        (∀ old ∈ s.table q.key, state.ecnBits ||| old.ecnBits = state.ecnBits ∧
          state.lastCnpTime = old.lastCnpTime) ∧
        (s.table q.key = none →
          state.lastCnpTime = s.clock - microSeconds c.initialCnpOffsetUs) := by
  simp only [mark]
  split
  · next hnone =>
    refine ⟨rfl, rfl, rfl, rfl, rfl, rfl, _, rfl, rfl, rfl, UInt8.or_self, ?_, fun _ => rfl⟩
    intro old hold
    simp [hnone] at hold
  · next old hold =>
    refine ⟨rfl, rfl, rfl, rfl, rfl, rfl, _, rfl, rfl, rfl, ?_, ?_, ?_⟩
    · rw [UInt8.or_assoc, UInt8.or_self]
    · intro old' hold'
      obtain rfl : old = old' := by simpa [hold] using hold'
      refine ⟨?_, rfl⟩
      rw [UInt8.or_comm old.ecnBits, UInt8.or_assoc, UInt8.or_self]
    · intro hnone
      simp [hold] at hnone

theorem mark_listed {q : RxQp} (ecnbits : UInt8) (h : Listed s)
    (hknown : (s.rxQpMap q.key).isSome = true) :
    Listed (s.mark c q ecnbits) ∧ (s.mark c q ecnbits).order ≠ [] ∧
      Turn s.upcoming none (s.mark c q ecnbits).upcoming := by
  obtain ⟨hrx, -, -, -, -, -, state, htable, hq, -⟩ :=
    mark_frame (c := c) (s := s) q ecnbits
  have hown : ∀ k state, (s.mark c q ecnbits).table k = some state → state.rxQp.key = k := by
    intro k state' hstate'
    rw [htable] at hstate'
    rcases eq_or_ne k q.key with rfl | hne
    · obtain rfl : state = state' := by simpa using hstate'
      rw [hq]
    · exact h.own k state' (by simpa [hne] using hstate')
  cases hold : s.table q.key with
  | none =>
    -- a new entry goes to the end of the list, so that the cursor keeps its turn
    have horder : (s.mark c q ecnbits).order = s.order ++ [q.key] := by simp [mark, hold]
    have hcursor : (s.mark c q ecnbits).cursor = s.cursor := by simp [mark, hold]
    have hnew : q.key ∉ s.order := by simp [h.listed, hold]
    refine ⟨⟨?_, ?_, ?_, hrx ▸ h.keyed, hown, ?_⟩, by simp [horder], ?_⟩
    · rw [horder]
      exact List.nodup_append_comm.mp (List.nodup_cons.mpr ⟨hnew, h.nodup⟩)
    · intro k
      rw [horder, htable]
      rcases eq_or_ne k q.key with rfl | hne
      · simp
      · simp [hne, h.listed]
    · intro k hk
      rw [hrx]
      rw [horder] at hk
      rcases List.mem_append.mp hk with hk | hk
      · exact h.known k hk
      · obtain rfl := List.mem_singleton.mp hk
        exact hknown
    · refine .inl ?_
      rw [horder, hcursor, List.length_append]
      exact Nat.lt_succ_of_le h.cursor_le
    · rw [upcoming, upcoming, horder, hcursor, upcoming_append h.cursor_le]
      exact .enter q.key _ _
  | some old =>
    -- a known entry changes nothing but its bits
    have horder : (s.mark c q ecnbits).order = s.order := by simp [mark, hold]
    have hcursor : (s.mark c q ecnbits).cursor = s.cursor := by simp [mark, hold]
    have hin : q.key ∈ s.order := by simp [h.listed, hold]
    refine ⟨⟨horder ▸ h.nodup, ?_, ?_, hrx ▸ h.keyed, hown, ?_⟩, ?_, ?_⟩
    · intro k
      rw [horder, htable]
      rcases eq_or_ne k q.key with rfl | hne
      · simpa using hin
      · simp [hne, h.listed]
    · intro k hk
      rw [hrx]
      exact h.known k (horder ▸ hk)
    · rw [horder, hcursor]
      exact h.cursor
    · rw [horder]
      exact List.ne_nil_of_mem hin
    · rw [upcoming, upcoming, horder, hcursor]
      exact .stay _

/-- A mark that is tracked does to the table what `mark` does, and sends nothing. -/
theorem track_frame {q : RxQp} {ecnbits : UInt8} (henabled : c.enabled = true)
    (hmarked : ecnbits ≠ 0) :
    (s.track c q ecnbits).table = (s.mark c q ecnbits).table ∧
      (s.track c q ecnbits).sent = s.sent ∧ (s.track c q ecnbits).clock = s.clock := by
  obtain ⟨-, hsent, hclock, -⟩ := mark_frame (c := c) (s := s) q ecnbits
  rw [track, if_neg (by simp [henabled, hmarked])]
  dsimp only
  split
  · exact ⟨rfl, hsent, hclock⟩
  · exact ⟨rfl, hsent, hclock⟩

/-- The three things a scan can do with the entry at the cursor. -/
inductive Visit (c : Config) (s : Receiver) (key : UInt64) (state : DcqcnPlusReceiverState) :
    Receiver → Prop
  | send : state.ecnPending = true →
      microSeconds c.minCnpIntervalUs < s.clock - state.lastCnpTime →
      Visit c s key state
        { s.sendCnp state (s.order.length * c.scanIntervalUs) s.order.length with
          table := update s.table key
            (some { state with ecnPending := false, ecnBits := 0, lastCnpTime := s.clock }),
          cursor := s.cursor + 1 }
  | timeout :
      ¬(state.ecnPending = true ∧
        microSeconds c.minCnpIntervalUs < s.clock - state.lastCnpTime) →
      microSeconds c.entryTimeoutUs < s.clock - state.lastCnpTime →
      Visit c s key state (s.remove key)
  | pass :
      ¬(state.ecnPending = true ∧
        microSeconds c.minCnpIntervalUs < s.clock - state.lastCnpTime) →
      ¬microSeconds c.entryTimeoutUs < s.clock - state.lastCnpTime →
      Visit c s key state { s with cursor := s.cursor + 1 }

/-- A scan finds the state of the entry at the cursor. -/
theorem visit_spec (h : Listed s) (hlt : s.cursor < s.order.length) :
    ∃ key state, s.order[s.cursor]? = some key ∧ s.table key = some state ∧
      Visit c s key state (visit c s) := by
  have hkey : s.order[s.cursor]? = some s.order[s.cursor] := List.getElem?_eq_getElem hlt
  obtain ⟨state, hstate⟩ := Option.isSome_iff_exists.mp
    ((h.listed _).mp (List.getElem_mem hlt))
  refine ⟨s.order[s.cursor], state, hkey, hstate, ?_⟩
  simp only [visit, hkey, hstate]
  split
  · next hsend => exact .send hsend.1 hsend.2
  · next hsend =>
    split
    · next htimeout => exact .timeout hsend htimeout
    · next htimeout => exact .pass hsend htimeout

/-- A visited entry goes behind the others, or leaves. -/
theorem Visit.listed {state : DcqcnPlusReceiverState} (v : Visit c s key state t) (h : Listed s)
    (hkey : s.order[s.cursor]? = some key) (hstate : s.table key = some state) :
    Listed { t with cursor := wrap t.order t.cursor } ∧
      Turn s.upcoming (some key) { t with cursor := wrap t.order t.cursor }.upcoming := by
  obtain ⟨hlt, -⟩ := List.getElem?_eq_some_iff.mp hkey
  have hwrap : wrap s.order (s.cursor + 1) < s.order.length :=
    wrap_lt (List.length_pos_iff.mp (Nat.zero_lt_of_lt hlt)) _
  obtain ⟨rest, hup, hnext⟩ := upcoming_advance hkey
  -- the cursor moves past the entry, which is then the last to come up
  have hserved : Turn s.upcoming (some key)
      (RoundRobin.upcoming s.order (wrap s.order (s.cursor + 1))) := by
    rw [upcoming_wrap hlt, upcoming, hup, hnext]
    exact .serve key rest
  cases v with
  | send hpending hage =>
    refine ⟨⟨h.nodup, ?_, h.known, h.keyed, ?_, .inl hwrap⟩, hserved⟩
    · intro k
      rw [sendCnp, h.listed]
      rcases eq_or_ne k key with rfl | hne
      · simp [hstate]
      · simp [hne]
    · intro k state' hstate'
      rcases eq_or_ne k key with rfl | hne
      · obtain rfl := by simpa using hstate'
        exact h.own k state hstate
      · exact h.own k state' (by simpa [hne] using hstate')
  | timeout hsend hage =>
    obtain ⟨hlisted, -⟩ := remove_listed key h
    obtain ⟨-, hupcoming, hcursor⟩ := remove_order key h.nodup h.cursor_le
    -- what was behind the entry moves up, and the cursor stays
    have hwrap' : wrap (s.remove key).order (s.remove key).cursor = (s.remove key).cursor := by
      rcases hcursor with hlt' | ⟨hnil, hzero⟩
      · exact wrap_of_lt hlt'
      · simp [wrap, hnil, hzero]
    rw [hwrap']
    refine ⟨hlisted, ?_⟩
    show Turn s.upcoming (some key) (s.remove key).upcoming
    rw [hupcoming, upcoming, hup, List.erase_cons_head]
    exact .drop key rest
  | pass hsend hage =>
    exact ⟨⟨h.nodup, h.listed, h.known, h.keyed, h.own, .inl hwrap⟩, hserved⟩

theorem Visit.disarmed {state : DcqcnPlusReceiverState} (v : Visit c s key state t) (h : Listed s)
    (harmed : s.scanArmed = false) (hevents : s.scanEvents = []) :
    t.scanArmed = false ∧ t.scanEvents = [] := by
  cases v with
  | send _ _ => exact ⟨harmed, hevents⟩
  | timeout _ _ =>
    obtain ⟨-, hiff, hkeep⟩ := remove_armed key h.nodup h.cursor_le (.inr ⟨harmed, hevents⟩)
    refine ⟨?_, hkeep hevents⟩
    rw [← Bool.not_eq_true, hiff, harmed]
    simp
  | pass _ _ => exact ⟨harmed, hevents⟩

/-- Lists, cursor and scan event are as they should be. -/
structure Ok (s : Receiver) : Prop extends Listed s where
  armed : Armed s
  armed_iff : s.scanArmed = true ↔ s.order ≠ []

theorem ok_scheduleScan (h : Listed s) (hne : s.order ≠ []) (hevents : s.scanEvents = []) :
    Ok s.scheduleScan where
  toListed := ⟨h.nodup, h.listed, h.known, h.keyed, h.own, h.cursor⟩
  armed := .inl ⟨rfl, s.nextEvent, by simp [scheduleScan, hevents], rfl⟩
  armed_iff := by simp [scheduleScan, hne]

/-- A scan event in a state with entries visits the one at the cursor, and schedules
the next scan unless that was the last entry. -/
theorem runScheduler_cases (henabled : c.enabled = true) (h : Listed s) (hne : s.order ≠ []) :
    ∃ key state u, s.order[s.cursor]? = some key ∧ s.table key = some state ∧
      Visit c { s with scanArmed := false } key state u ∧
      runScheduler c s =
        if u.order = [] then { u with cursor := 0 }
        else { u with cursor := wrap u.order u.cursor }.scheduleScan := by
  have hlt : s.cursor < s.order.length :=
    h.cursor.resolve_right fun hnil => hne hnil.1
  obtain ⟨key, state, hkey, hstate, v⟩ := visit_spec (c := c) (s := { s with scanArmed := false })
    ⟨h.nodup, h.listed, h.known, h.keyed, h.own, h.cursor⟩ hlt
  refine ⟨key, state, _, hkey, hstate, v, ?_⟩
  simp only [runScheduler, henabled, hne, Bool.true_eq_false, or_self, if_false, wrap_of_lt hlt]

end Receiver

/-- The entry that an event visits. -/
def visited (s : Receiver) : Event → Option UInt64
  | .scan .. => s.order[wrap s.order s.cursor]?
  | .receiveUdp .. | .deleteRxQp .. => none

/-! ## Each step keeps everything in agreement, and is a turn -/

namespace Receiver

theorem ok_clock (h : Ok s) (now : Int) : Ok { s with clock := now } :=
  ⟨⟨h.nodup, h.listed, h.known, h.keyed, h.own, h.cursor⟩, h.armed, h.armed_iff⟩

theorem ok_track {q : RxQp} {ecnbits : UInt8} (h : Ok s)
    (hknown : (s.rxQpMap q.key).isSome = true) :
    Ok (s.track c q ecnbits) ∧ Turn s.upcoming none (s.track c q ecnbits).upcoming := by
  unfold track
  split
  · exact ⟨h, .stay _⟩
  · obtain ⟨hlisted, hne, hturn⟩ := mark_listed (c := c) ecnbits h.toListed hknown
    obtain ⟨-, -, -, harmed, hevent, hevents, -⟩ :=
      mark_frame (c := c) (s := s) q ecnbits
    dsimp only
    split
    · next hset =>
      refine ⟨⟨hlisted, ?_, by simp [hset, hne]⟩, hturn⟩
      unfold Armed
      rw [harmed, hevent, hevents]
      exact h.armed
    · next hclear =>
      refine ⟨ok_scheduleScan hlisted hne ?_, hturn⟩
      rw [hevents]
      rcases h.armed with ⟨hset, -⟩ | ⟨-, hnil⟩
      · exact absurd (harmed.trans hset) hclear
      · exact hnil

theorem receiveUdp_eq (ch : DataHeader) :
    s.receiveUdp c ch =
      track c (getRxQp s.rxQpMap ch.dip ch.sip ch.dport ch.sport ch.pg).1 ch.ecnbits
        { s with rxQpMap := (getRxQp s.rxQpMap ch.dip ch.sip ch.dport ch.sport ch.pg).2 } := rfl

theorem ok_receiveUdp {ch : DataHeader} (h : Ok s) :
    Ok (s.receiveUdp c ch) ∧ Turn s.upcoming none (s.receiveUdp c ch).upcoming := by
  have hmap := getRxQp_snd (m := s.rxQpMap) ch.dip ch.sip ch.dport ch.sport ch.pg
  have hkey := getRxQp_key ch.dip ch.sip ch.dport ch.sport ch.pg h.keyed
  have hkeyed := getRxQp_keyed ch.dip ch.sip ch.dport ch.sport ch.pg h.keyed
  rw [receiveUdp_eq]
  generalize (getRxQp s.rxQpMap ch.dip ch.sip ch.dport ch.sport ch.pg) = found at hmap hkey hkeyed ⊢
  refine ok_track (s := { s with rxQpMap := found.2 }) ?_ ?_
  · refine ⟨⟨h.nodup, h.listed, ?_, hkeyed, h.own, h.cursor⟩, h.armed, h.armed_iff⟩
    intro k hk
    rw [hmap]
    rcases eq_or_ne k (getRxQpKey ch.sip ch.pg ch.sport) with rfl | hne
    · simp
    · simpa [hne] using h.known k hk
  · rw [hkey, hmap]
    simp

theorem ok_deleteRxQp {dip : UInt32} {pg dport : UInt16} (h : Ok s) :
    Ok (s.deleteRxQp dip pg dport) ∧ Turn s.upcoming none (s.deleteRxQp dip pg dport).upcoming := by
  obtain ⟨hlisted, hgone⟩ := remove_listed (getRxQpKey dip pg dport) h.toListed
  obtain ⟨harmed, hiff, -⟩ :=
    remove_armed (getRxQpKey dip pg dport) h.nodup h.cursor_le h.armed
  obtain ⟨horder, hupcoming, -⟩ :=
    remove_order (getRxQpKey dip pg dport) h.nodup h.cursor_le
  refine ⟨⟨⟨hlisted.nodup, hlisted.listed, ?_, ?_, hlisted.own, hlisted.cursor⟩, harmed, ?_⟩, ?_⟩
  · intro k hk
    have hk' : k ∈ (s.remove (getRxQpKey dip pg dport)).order := hk
    have hne : k ≠ getRxQpKey dip pg dport := by
      rintro rfl
      exact hgone hk'
    simpa [deleteRxQp, hne] using hlisted.known k hk'
  · intro k q hq
    rcases eq_or_ne k (getRxQpKey dip pg dport) with rfl | hne
    · simp [deleteRxQp] at hq
    · exact hlisted.keyed k q (by simpa [deleteRxQp, hne] using hq)
  · show (s.remove _).scanArmed = true ↔ (s.remove _).order ≠ []
    rw [hiff, h.armed_iff]
    refine ⟨And.right, fun hne => ⟨?_, hne⟩⟩
    rintro hnil
    rw [horder, hnil] at hne
    exact hne rfl
  · show Turn s.upcoming none (s.remove _).upcoming
    rw [hupcoming]
    exact .leave _ _

theorem ok_runScheduler (henabled : c.enabled = true) (h : Listed s) (hne : s.order ≠ [])
    (hevents : s.scanEvents = []) :
    Ok (runScheduler c s) ∧ Turn s.upcoming s.order[s.cursor]? (runScheduler c s).upcoming := by
  obtain ⟨key, state, u, hkey, hstate, v, heq⟩ := runScheduler_cases henabled h hne
  have hlisted : Listed { s with scanArmed := false } :=
    ⟨h.nodup, h.listed, h.known, h.keyed, h.own, h.cursor⟩
  obtain ⟨hu, hturn⟩ := v.listed hlisted hkey hstate
  obtain ⟨harmed, hevents'⟩ := v.disarmed hlisted rfl hevents
  rw [heq, hkey]
  split
  · next hnil =>
    have hwrap : wrap u.order u.cursor = 0 := by simp [wrap, hnil]
    rw [hwrap] at hu hturn
    exact ⟨⟨hu, .inr ⟨harmed, hevents'⟩, by simp [harmed, hnil]⟩, hturn⟩
  · next hne' => exact ⟨ok_scheduleScan hu hne' hevents', hturn⟩

end Receiver

open Receiver

theorem ok_step {e : Event} (henabled : c.enabled = true) (h : Ok s) (hstep : step c s e = some t) :
    Ok t ∧ Turn s.upcoming (visited s e) t.upcoming := by
  unfold step at hstep
  split at hstep
  · cases hstep
  have hclock := ok_clock h e.time
  cases e with
  | receiveUdp now ch =>
    cases hstep
    exact ok_receiveUdp hclock
  | deleteRxQp now dip pg dport =>
    cases hstep
    exact ok_deleteRxQp hclock
  | scan now event =>
    dsimp only at hstep
    split at hstep
    · next hpending =>
      cases hstep
      -- the event that fires is the only one
      obtain ⟨harmed, hevents⟩ : s.scanArmed = true ∧ s.scanEvents = [event] := by
        rcases h.armed with ⟨harmed, event', hevents, -⟩ | ⟨-, hnil⟩
        · rw [hevents] at hpending
          obtain rfl := List.mem_singleton.mp hpending
          exact ⟨harmed, hevents⟩
        · rw [hnil] at hpending
          cases hpending
      have hne := h.armed_iff.mp harmed
      have hlt : s.cursor < s.order.length := h.cursor.resolve_right fun hnil => hne hnil.1
      have hvisited : visited s (.scan now event) = s.order[s.cursor]? := by
        rw [visited, wrap_of_lt hlt]
      rw [hvisited]
      exact ok_runScheduler (s := { s with clock := now, scanEvents := s.scanEvents.erase event })
        henabled ⟨h.nodup, h.listed, h.known, h.keyed, h.own, h.cursor⟩ hne (by simp [hevents])
    · cases hstep

theorem ok_start : Ok start where
  toListed := ⟨List.nodup_nil, by simp [start], by simp [start], by simp [RxQpMap.Keyed, start],
    by simp [start], .inr ⟨rfl, rfl⟩⟩
  armed := .inr ⟨rfl, rfl⟩
  armed_iff := by simp [start]

theorem ok_of_reachable (henabled : c.enabled = true) (h : Reachable (step c) start s) : Ok s :=
  h.invariant ok_start fun _ _ _ hs hstep => (ok_step henabled hs hstep).1

end Spec

/-! ## The lists, the cursor and the scan event -/

/-- Order, table, map of receive queue pairs, cursor and scan event agree. -/
structure Consistent (s : Receiver) : Prop where
  nodup : s.order.Nodup
  mem_order_iff : ∀ k, k ∈ s.order ↔ (s.table k).isSome = true
  mem_rxQpMap : ∀ k ∈ s.order, (s.rxQpMap k).isSome = true
  cursor : s.cursor < s.order.length ∨ s.order = [] ∧ s.cursor = 0
  one_pending_iff : s.scanEvents.length = 1 ↔ s.scanArmed = true
  armed_iff : s.scanArmed = true ↔ s.order ≠ []
  none_pending : s.scanArmed = false → s.scanEvents = []

/-- Between two consecutive visits of the entry `k`, which stays there in the
meantime, every other entry `k'` that was there throughout is visited once. -/
def TakesTurns (c : Config) : Prop :=
  ∀ k k' : UInt64, k' ≠ k → ∀ (s₀ s t u : Receiver) (e₀ e : Event) (es : List Event),
    Reachable (step c) Receiver.start s₀ →
    step c s₀ e₀ = some s → visited s₀ e₀ = some k →
    run (step c) s es = some t →
    Always (step c) (fun s => k ∈ s.order ∧ k' ∈ s.order) s es →
    Guarded (step c) (fun s e => visited s e ≠ some k) s es →
    step c t e = some u → visited t e = some k →
    turns (step c) visited k' s es = 1

theorem visited_once {c : Config} (henabled : c.enabled = true) : TakesTurns c := by
  intro k k' hne s₀ s t u e₀ e es hreach hfirst hvisited₀ hrun hthere hbetween hlast hvisited
  refine served_once Receiver.upcoming (I := Receiver.Ok) ?_ ?_ ?_ hne
    (ok_of_reachable henabled hreach) hfirst hvisited₀ hrun ?_ hbetween hlast hvisited
  · exact fun s e t h hstep => (ok_step henabled h hstep).1
  · exact fun s h => nodup_upcoming s.cursor h.nodup
  · exact fun s e t h hstep => (ok_step henabled h hstep).2
  · exact hthere.mono fun s h => ⟨mem_upcoming.mpr h.1, mem_upcoming.mpr h.2⟩

/-- With DCQCN+ enabled, the scheduler is consistent in every reachable state, and
its entries take turns. -/
theorem scheduler_invariant (c : Config) :
    (∀ s, Reachable (step { c with enabled := true }) Receiver.start s → Consistent s) ∧
      TakesTurns { c with enabled := true } := by
  refine ⟨fun s hreach => ?_, visited_once rfl⟩
  have h := ok_of_reachable rfl hreach
  refine ⟨h.nodup, h.listed, h.known, h.cursor, ?_, h.armed_iff, ?_⟩
  · rcases h.armed with ⟨harmed, event, hevents, -⟩ | ⟨harmed, hnil⟩
    · simp [harmed, hevents]
    · simp [harmed, hnil]
  · intro hdisarmed
    rcases h.armed with ⟨harmed, -⟩ | ⟨-, hnil⟩
    · rw [hdisarmed] at harmed
      cases harmed
    · exact hnil

/-! ## The CNPs of one queue pair -/

/-- The key of the receive queue pair of a data packet. -/
def rxKey (ch : DataHeader) : UInt64 := getRxQpKey ch.sip ch.pg ch.sport

/-- The event deletes the receive queue pair `key`. -/
def Event.deletes (key : UInt64) : Event → Prop
  | .deleteRxQp _ dip pg dport => getRxQpKey dip pg dport = key
  | .receiveUdp .. | .scan .. => False

/-- The event brings a packet for `key` with the mark `bits`. -/
def Event.marks (key : UInt64) (bits : UInt8) : Event → Prop
  | .receiveUdp _ ch => rxKey ch = key ∧ ch.ecnbits = bits ∧ bits ≠ 0
  | .deleteRxQp .. | .scan .. => False

/-- The step from `s` to `t` sends `cnp`. -/
def Sends (s t : Receiver) (cnp : Cnp) : Prop := t.sent = s.sent ++ [cnp]

section OneQueuePair

variable {c : Config} {s t : Receiver} {e : Event} {key : UInt64}

/-- What a step means for one receive queue pair. -/
inductive Effect (c : Config) (key : UInt64) (s : Receiver) (e : Event) (t : Receiver) : Prop
  | other : t.table key = s.table key → (∀ bits, ¬e.marks key bits) →
      (∀ cnp, Sends s t cnp → cnp.rxQp.key ≠ key) → Effect c key s e t
  | mark (bits : UInt8) (state : DcqcnPlusReceiverState) : e.marks key bits →
      t.table key = some state → t.sent = s.sent →
      state.ecnPending = true → state.ecnBits ||| bits = state.ecnBits →
      (∀ old ∈ s.table key, state.ecnBits ||| old.ecnBits = state.ecnBits ∧
        state.lastCnpTime = old.lastCnpTime) →
      (s.table key = none → state.lastCnpTime = t.clock - microSeconds c.initialCnpOffsetUs) →
      Effect c key s e t
  | delete : e.deletes key → t.table key = none → t.sent = s.sent → Effect c key s e t
  | send (state : DcqcnPlusReceiverState) (cnp : Cnp) : s.table key = some state →
      (∀ bits, ¬e.marks key bits) →
      state.ecnPending = true → microSeconds c.minCnpIntervalUs < t.clock - state.lastCnpTime →
      Sends s t cnp → cnp.rxQp = state.rxQp → cnp.ecnBits = state.ecnBits → cnp.time = t.clock →
      t.table key
        = some { state with ecnPending := false, ecnBits := 0, lastCnpTime := t.clock } →
      Effect c key s e t
  | timeout (state : DcqcnPlusReceiverState) : s.table key = some state →
      (∀ bits, ¬e.marks key bits) →
      ¬(state.ecnPending = true ∧
        microSeconds c.minCnpIntervalUs < t.clock - state.lastCnpTime) →
      microSeconds c.entryTimeoutUs < t.clock - state.lastCnpTime →
      t.table key = none → t.sent = s.sent → Effect c key s e t

theorem not_sends (h : t.sent = s.sent) (cnp : Cnp) : ¬Sends s t cnp := by
  intro hsends
  have hlen := congrArg List.length (h.symm.trans hsends)
  simp at hlen

theorem effect_receiveUdp {now : Int} {ch : DataHeader} (henabled : c.enabled = true)
    (hkeyed : s.rxQpMap.Keyed) :
    Effect c key s (.receiveUdp now ch) (Receiver.receiveUdp c ch { s with clock := now }) := by
  have hkey : (getRxQp s.rxQpMap ch.dip ch.sip ch.dport ch.sport ch.pg).1.key = rxKey ch :=
    getRxQp_key _ _ _ _ _ hkeyed
  rw [Receiver.receiveUdp_eq]
  dsimp only
  generalize getRxQp s.rxQpMap ch.dip ch.sip ch.dport ch.sport ch.pg = found at hkey ⊢
  rcases eq_or_ne ch.ecnbits 0 with hzero | hmarked
  · -- a packet without a mark
    rw [Receiver.track, if_pos (.inr hzero)]
    refine .other rfl ?_ fun cnp hsends => absurd hsends (not_sends rfl cnp)
    rintro bits ⟨-, rfl, hne⟩
    exact hne hzero
  · obtain ⟨htable, hsent, hclock⟩ := Receiver.track_frame (c := c) (q := found.1)
      (s := { s with clock := now, rxQpMap := found.2 }) henabled hmarked
    obtain ⟨-, -, -, -, -, -, state, hstate, -, hpending, hbits, hold, hnew⟩ :=
      Receiver.mark_frame (c := c) (s := { s with clock := now, rxQpMap := found.2 })
        found.1 ch.ecnbits
    rw [hkey] at hstate hold hnew
    rcases eq_or_ne key (rxKey ch) with rfl | hne
    · refine .mark ch.ecnbits state ⟨rfl, rfl, hmarked⟩ ?_ hsent hpending hbits hold ?_
      · rw [htable, hstate, update_self]
      · rw [hclock]
        exact hnew
    · refine .other ?_ ?_ fun cnp hsends => absurd hsends (not_sends hsent cnp)
      · rw [htable, hstate, update_of_ne hne]
      · rintro bits ⟨hkey', -⟩
        exact hne hkey'.symm

theorem effect_deleteRxQp {now : Int} {dip : UInt32} {pg dport : UInt16} :
    Effect c key s (.deleteRxQp now dip pg dport)
      (Receiver.deleteRxQp dip pg dport { s with clock := now }) := by
  obtain ⟨-, hsent, -, htable⟩ := Receiver.remove_frame (s := { s with clock := now })
    (getRxQpKey dip pg dport)
  have htable' : (Receiver.deleteRxQp dip pg dport { s with clock := now }).table
      = update s.table (getRxQpKey dip pg dport) none := htable
  rcases eq_or_ne key (getRxQpKey dip pg dport) with rfl | hne
  · exact .delete rfl (by rw [htable', update_self]) hsent
  · refine .other (by rw [htable', update_of_ne hne]) (fun bits h => h.elim) ?_
    exact fun cnp hsends => absurd hsends (not_sends hsent cnp)

theorem effect_scan {now : Int} {event : Nat} (henabled : c.enabled = true)
    (h : Listed s) (hne : s.order ≠ []) :
    Effect c key s (.scan now event) (Receiver.runScheduler c
      { s with clock := now, scanEvents := s.scanEvents.erase event }) := by
  obtain ⟨key', state, u, hkey', hstate, v, heq⟩ := Receiver.runScheduler_cases henabled
    (s := { s with clock := now, scanEvents := s.scanEvents.erase event })
    ⟨h.nodup, h.listed, h.known, h.keyed, h.own, h.cursor⟩ hne
  -- what comes after the visit changes neither the table nor the CNPs
  have hafter : (Receiver.runScheduler c
        { s with clock := now, scanEvents := s.scanEvents.erase event }).table = u.table ∧
      (Receiver.runScheduler c
        { s with clock := now, scanEvents := s.scanEvents.erase event }).sent = u.sent ∧
      (Receiver.runScheduler c
        { s with clock := now, scanEvents := s.scanEvents.erase event }).clock = u.clock := by
    rw [heq]
    split <;> exact ⟨rfl, rfl, rfl⟩
  generalize Receiver.runScheduler c _ = t at hafter ⊢
  obtain ⟨htable, hsent, hclock⟩ := hafter
  have hown : state.rxQp.key = key' := h.own key' state hstate
  cases v with
  | send hpending hage =>
    rcases eq_or_ne key key' with rfl | hne'
    · refine .send state _ hstate (fun bits h => h.elim) hpending ?_ hsent rfl rfl hclock.symm ?_
      · rw [hclock]
        exact hage
      · rw [htable, hclock]
        exact update_self ..
    · refine .other ?_ (fun bits h => h.elim) ?_
      · rw [htable]
        exact update_of_ne hne' ..
      · intro cnp hsends
        obtain rfl : _ = cnp := by simpa using List.append_cancel_left (hsent.symm.trans hsends)
        exact fun hcnp => hne' (hcnp.symm.trans hown)
  | timeout hsend hage =>
    obtain ⟨-, hsent', hclock', htable'⟩ := Receiver.remove_frame key'
      (s := { s with clock := now, scanEvents := s.scanEvents.erase event, scanArmed := false })
    rw [htable'] at htable
    rw [hsent'] at hsent
    rw [hclock'] at hclock
    rcases eq_or_ne key key' with rfl | hne'
    · refine .timeout state hstate (fun bits h => h.elim) ?_ ?_ ?_ hsent
      · rw [hclock]
        exact hsend
      · rw [hclock]
        exact hage
      · rw [htable, update_self]
    · refine .other ?_ (fun bits h => h.elim) fun cnp hsends => absurd hsends (not_sends hsent cnp)
      rw [htable, update_of_ne hne']
  | pass hsend hage =>
    refine .other (by rw [htable]) (fun bits h => h.elim) ?_
    exact fun cnp hsends => absurd hsends (not_sends hsent cnp)

/-- The event that fires is pending only while there are entries. -/
theorem order_ne_nil_of_pending {event : Nat} (h : Receiver.Ok s)
    (hpending : event ∈ s.scanEvents) : s.order ≠ [] := by
  rcases h.armed with ⟨harmed, -⟩ | ⟨-, hnil⟩
  · exact h.armed_iff.mp harmed
  · rw [hnil] at hpending
    cases hpending

variable (key) in
theorem effect_step (henabled : c.enabled = true) (h : Receiver.Ok s)
    (hstep : step c s e = some t) : Effect c key s e t := by
  unfold step at hstep
  split at hstep
  · cases hstep
  cases e with
  | receiveUdp now ch =>
    cases hstep
    exact effect_receiveUdp henabled h.keyed
  | deleteRxQp now dip pg dport =>
    cases hstep
    exact effect_deleteRxQp
  | scan now event =>
    dsimp only at hstep
    split at hstep
    · next hpending =>
      cases hstep
      exact effect_scan henabled h.toListed (order_ne_nil_of_pending h hpending)
    · cases hstep

theorem track_clock {q : RxQp} {bits : UInt8} : (s.track c q bits).clock = s.clock := by
  obtain ⟨-, -, hclock, -⟩ := Receiver.mark_frame (c := c) (s := s) q bits
  unfold Receiver.track
  split
  · rfl
  · dsimp only
    split <;> exact hclock

theorem runScheduler_clock (henabled : c.enabled = true) (h : Listed s) (hne : s.order ≠ []) :
    (Receiver.runScheduler c s).clock = s.clock := by
  obtain ⟨key', state, u, -, -, v, heq⟩ := Receiver.runScheduler_cases henabled h hne
  have hu : u.clock = s.clock := by
    cases v with
    | send _ _ => rfl
    | timeout _ _ => exact (Receiver.remove_frame _).2.2.1
    | pass _ _ => rfl
  rw [heq]
  split <;> exact hu

/-- Time is that of the last event, and does not go back. -/
theorem step_clock (henabled : c.enabled = true) (h : Receiver.Ok s) (hstep : step c s e = some t) :
    t.clock = e.time ∧ s.clock ≤ t.clock := by
  unfold step at hstep
  split at hstep
  · cases hstep
  next hlater =>
  have hclock : t.clock = e.time := by
    cases e with
    | receiveUdp now ch =>
      cases hstep
      exact track_clock
    | deleteRxQp now dip pg dport =>
      cases hstep
      exact (Receiver.remove_frame _).2.2.1
    | scan now event =>
      dsimp only at hstep
      split at hstep
      · next hpending =>
        cases hstep
        have hne := order_ne_nil_of_pending (s := s) h hpending
        exact runScheduler_clock henabled
          (s := { s with clock := now, scanEvents := s.scanEvents.erase event })
          ⟨h.nodup, h.listed, h.known, h.keyed, h.own, h.cursor⟩ hne
      · cases hstep
  exact ⟨hclock, hclock ▸ Int.not_lt.mp hlater⟩

/-- A CNP for `key` is sent only from an entry with a mark, after the minimum interval. -/
theorem effect_sends {cnp : Cnp} (henabled : c.enabled = true) (h : Receiver.Ok s)
    (hstep : step c s e = some t) (hsends : Sends s t cnp) (hkey : cnp.rxQp.key = key) :
    ∃ state, s.table key = some state ∧
      microSeconds c.minCnpIntervalUs < t.clock - state.lastCnpTime ∧
      cnp.ecnBits = state.ecnBits ∧ cnp.time = t.clock ∧
      t.table key
        = some { state with ecnPending := false, ecnBits := 0, lastCnpTime := t.clock } := by
  cases effect_step key henabled h hstep with
  | other _ _ hother => exact absurd hkey (hother cnp hsends)
  | mark _ _ _ _ hsent _ _ _ _ => exact absurd hsends (not_sends hsent cnp)
  | delete _ _ hsent => exact absurd hsends (not_sends hsent cnp)
  | timeout _ _ _ _ _ _ hsent => exact absurd hsends (not_sends hsent cnp)
  | send state cnp' hstate _ _ hage hsends' _ hbits htime htable =>
    obtain rfl : cnp = cnp' := by simpa using List.append_cancel_left (hsends.symm.trans hsends')
    exact ⟨state, hstate, hage, hbits, htime, htable⟩

/-! ## Pacing -/

/-- A CNP for `key` was sent at time `T`, and the receive queue pair is still there. -/
structure SentAt (c : Config) (key : UInt64) (T : Int) (s : Receiver) : Prop where
  past : T ≤ s.clock
  last : ∀ state ∈ s.table key, T ≤ state.lastCnpTime
  gone : s.table key = none → T + microSeconds c.entryTimeoutUs < s.clock

/-- An entry that timed out comes back with a `lastCnpTime` after the last CNP. -/
theorem SentAt.step {T : Int} (henabled : c.enabled = true)
    (hoffset : c.initialCnpOffsetUs ≤ c.entryTimeoutUs) (h : SentAt c key T s) (hok : Receiver.Ok s)
    (hstep : step c s e = some t) (hkept : ¬e.deletes key) : SentAt c key T t := by
  have hclock := (step_clock henabled hok hstep).2
  have hpast : T ≤ t.clock := Int.le_trans h.past hclock
  cases effect_step key henabled hok hstep with
  | other htable _ _ =>
    refine ⟨hpast, ?_, ?_⟩
    · rw [htable]
      exact h.last
    · rw [htable]
      exact fun hnone => Int.lt_of_lt_of_le (h.gone hnone) hclock
  | mark bits state _ hstate _ _ _ hold hnew =>
    refine ⟨hpast, ?_, fun hnone => by simp [hstate] at hnone⟩
    intro state' hstate'
    obtain rfl : state = state' := by simpa [hstate] using hstate'
    cases hbefore : s.table key with
    | some old =>
      rw [(hold old hbefore).2]
      exact h.last old hbefore
    | none =>
      -- a new entry is dated back by the offset, which the timeout covers
      have hgone := h.gone hbefore
      rw [hnew hbefore]
      unfold microSeconds at hgone ⊢
      omega
  | delete hdeletes _ _ => exact absurd hdeletes hkept
  | send state cnp _ _ _ _ _ _ _ _ hstate' =>
    refine ⟨hpast, ?_, fun hnone => by simp [hstate'] at hnone⟩
    intro state' hmem
    obtain rfl := by simpa [hstate'] using hmem
    exact hpast
  | timeout state hstate _ _ hage hnone _ =>
    refine ⟨hpast, by simp [hnone], fun _ => ?_⟩
    have hlast := h.last state hstate
    omega

/-- Two CNPs for one receive queue pair are further apart than the minimum interval. -/
def CnpsPaced (c : Config) : Prop :=
  ∀ (key : UInt64) (s₀ s t u : Receiver) (e₀ e : Event) (es : List Event) (cnp₀ cnp : Cnp),
    Reachable (step c) Receiver.start s₀ →
    step c s₀ e₀ = some s → Sends s₀ s cnp₀ → cnp₀.rxQp.key = key →
    run (step c) s es = some t → Guarded (step c) (fun _ e => ¬e.deletes key) s es →
    step c t e = some u → Sends t u cnp → cnp.rxQp.key = key →
    microSeconds c.minCnpIntervalUs < cnp.time - cnp₀.time

theorem cnps_paced (henabled : c.enabled = true)
    (hoffset : c.initialCnpOffsetUs ≤ c.entryTimeoutUs) : CnpsPaced c := by
  intro key s₀ s t u e₀ e es cnp₀ cnp hreach hfirst hsends₀ hkey₀ hrun hkept hlast hsends hkey
  have hok₀ := ok_of_reachable henabled hreach
  have hok := (ok_step henabled hok₀ hfirst).1
  obtain ⟨state₀, -, -, -, htime₀, htable₀⟩ := effect_sends henabled hok₀ hfirst hsends₀ hkey₀
  have hsent : SentAt c key cnp₀.time s := by
    rw [htime₀]
    refine ⟨Int.le_refl _, ?_, fun hnone => by simp [htable₀] at hnone⟩
    intro state hstate
    obtain rfl := by simpa [htable₀] using hstate
    exact Int.le_refl _
  have hall : Always (step c) (fun s => Receiver.Ok s ∧ SentAt c key cnp₀.time s) s es := by
    refine always_of_guarded ?_ ⟨hok, hsent⟩ hkept
    exact fun s e t h hkept hstep =>
      ⟨(ok_step henabled h.1 hstep).1, h.2.step henabled hoffset h.1 hstep hkept⟩
  obtain ⟨hokt, hsentt⟩ := hall.last hrun
  obtain ⟨state, hstate, hage, -, htime, -⟩ := effect_sends henabled hokt hlast hsends hkey
  have hlate := hsentt.last state hstate
  rw [htime]
  omega

/-- A pending mark is never lost: the entry does not time out, the mark goes only with a
CNP for the queue pair or with the queue pair itself, and the CNP carries the bits of
all packets marked since the one before. -/
def MarksReported (c : Config) : Prop :=
  (∀ (key : UInt64) (s t : Receiver) (e : Event) (state : DcqcnPlusReceiverState),
    Reachable (step c) Receiver.start s → step c s e = some t →
    s.table key = some state → state.ecnPending = true →
    e.deletes key ∨ (∃ cnp, Sends s t cnp ∧ cnp.rxQp.key = key) ∨
      ∃ state', t.table key = some state' ∧ state'.ecnPending = true) ∧
  ∀ (key : UInt64) (s t u : Receiver) (e : Event) (es : List Event) (cnp : Cnp),
    Reachable (step c) Receiver.start s → run (step c) s es = some t →
    Guarded (step c) (fun _ e => ¬e.deletes key) s es →
    Guarded (step c) (fun s e => ∀ t ∈ step c s e, ∀ cnp, Sends s t cnp → cnp.rxQp.key ≠ key) s es →
    step c t e = some u → Sends t u cnp → cnp.rxQp.key = key →
    ∀ e ∈ es, ∀ bits, e.marks key bits → cnp.ecnBits ||| bits = cnp.ecnBits

/-- The entry of `key` has a mark pending, and holds `bits`. -/
def Carries (key : UInt64) (bits : UInt8) (s : Receiver) : Prop :=
  ∃ state, s.table key = some state ∧ state.ecnPending = true ∧
    state.ecnBits ||| bits = state.ecnBits

/-- A pending mark stays, but for a CNP or the deletion of the queue pair: as the timeout
is longer than the minimum interval, an old entry with a mark takes the first branch. -/
theorem Carries.step {bits : UInt8} (henabled : c.enabled = true)
    (htimeout : c.minCnpIntervalUs ≤ c.entryTimeoutUs) (h : Carries key bits s)
    (hok : Receiver.Ok s) (hstep : step c s e = some t) :
    e.deletes key ∨ (∃ cnp, Sends s t cnp ∧ cnp.rxQp.key = key) ∨ Carries key bits t := by
  obtain ⟨state, hstate, hpending, hbits⟩ := h
  cases effect_step key henabled hok hstep with
  | other htable _ _ => exact .inr (.inr ⟨state, htable.trans hstate, hpending, hbits⟩)
  | mark new state' _ hstate' _ hpending' _ hold _ =>
    refine .inr (.inr ⟨state', hstate', hpending', ?_⟩)
    have hor := (hold state hstate).1
    calc state'.ecnBits ||| bits = state'.ecnBits ||| state.ecnBits ||| bits := by rw [hor]
      _ = state'.ecnBits ||| (state.ecnBits ||| bits) := UInt8.or_assoc ..
      _ = state'.ecnBits := by rw [hbits, hor]
  | delete hdeletes _ _ => exact .inl hdeletes
  | send state' cnp hstate' _ _ _ hsends hrxQp _ _ _ =>
    exact .inr (.inl ⟨cnp, hsends, by rw [hrxQp]; exact hok.own key state' hstate'⟩)
  | timeout state' hstate' _ hsend hage _ _ =>
    obtain rfl : state = state' := Option.some.inj (hstate.symm.trans hstate')
    refine absurd ⟨hpending, ?_⟩ hsend
    unfold microSeconds at hage ⊢
    omega

theorem carries_of_marks {bits : UInt8} (henabled : c.enabled = true) (hok : Receiver.Ok s)
    (hstep : step c s e = some t) (hmarks : e.marks key bits) : Carries key bits t := by
  cases effect_step key henabled hok hstep with
  | other _ hnone _ => exact absurd hmarks (hnone bits)
  | send _ _ _ hnone _ _ _ _ _ _ _ => exact absurd hmarks (hnone bits)
  | timeout _ _ hnone _ _ _ _ => exact absurd hmarks (hnone bits)
  | mark bits' state hmarks' hstate _ hpending hor _ _ =>
    refine ⟨state, hstate, hpending, ?_⟩
    cases e with
    | receiveUdp now ch => rwa [← hmarks.2.1, hmarks'.2.1]
    | deleteRxQp now dip pg dport => exact hmarks.elim
    | scan now event => exact hmarks.elim
  | delete hdeletes _ _ =>
    cases e with
    | receiveUdp now ch => exact hdeletes.elim
    | deleteRxQp now dip pg dport => exact hmarks.elim
    | scan now event => exact hmarks.elim

theorem marks_reported (henabled : c.enabled = true)
    (htimeout : c.minCnpIntervalUs ≤ c.entryTimeoutUs) : MarksReported c := by
  constructor
  · intro key s t e state hreach hstep hstate hpending
    have hcarries : Carries key 0 s := ⟨state, hstate, hpending, UInt8.or_zero⟩
    have hok := ok_of_reachable henabled hreach
    rcases hcarries.step henabled htimeout hok hstep with h | h | ⟨state', hstate', hpending', -⟩
    · exact .inl h
    · exact .inr (.inl h)
    · exact .inr (.inr ⟨state', hstate', hpending'⟩)
  · intro key s t u e es cnp hreach hrun hkept hsilent hlast hsends hkey e₁ he₁ bits hmarks
    obtain ⟨fs, gs, rfl⟩ := List.append_of_mem he₁
    rw [run_append] at hrun
    obtain ⟨s₁, hfs, hrun⟩ := Option.bind_eq_some_iff.mp hrun
    obtain ⟨s₂, hs₂, hgs⟩ := Option.bind_eq_some_iff.mp hrun
    have hok₁ := ok_of_reachable henabled (hreach.trans ⟨fs, hfs⟩)
    have hok₂ := (ok_step henabled hok₁ hs₂).1
    have hguard := ((hkept.and hsilent).of_run hfs) s₂ hs₂
    have hall : Always (step c) (fun s => Receiver.Ok s ∧ Carries key bits s) s₂ gs := by
      refine always_of_guarded ?_ ⟨hok₂, carries_of_marks henabled hok₁ hs₂ hmarks⟩ hguard.2
      rintro s e t ⟨hok, hcarries⟩ ⟨hkept, hsilent⟩ hstep
      refine ⟨(ok_step henabled hok hstep).1, ?_⟩
      rcases hcarries.step henabled htimeout hok hstep with hdel | ⟨cnp, hsends, hkey⟩ | hcarries
      · exact absurd hdel hkept
      · exact absurd hkey (hsilent t hstep cnp hsends)
      · exact hcarries
    obtain ⟨hokt, state, hstate, -, hbits⟩ := hall.last hgs
    obtain ⟨state', hstate', -, hbits', -⟩ := effect_sends henabled hokt hlast hsends hkey
    obtain rfl : state = state' := Option.some.inj (hstate.symm.trans hstate')
    rw [hbits', hbits]

end OneQueuePair

/-- With the constants of the code, CNPs keep their distance and marks are reported. -/
theorem cnps_paced_and_marks_reported : CnpsPaced dcqcnPlus ∧ MarksReported dcqcnPlus :=
  ⟨cnps_paced rfl (by decide), marks_reported rfl (by decide)⟩

/-- A mark that comes 1 us after a CNP is reported 46 us after it. -/
example :
    (run (step dcqcnPlus) Receiver.start
      [.receiveUdp 0 ⟨1, 2, 10000, 100, 3, 1⟩, .scan 1000 0,
        .receiveUdp 2000 ⟨1, 2, 10000, 100, 3, 2⟩, .scan 3000 1, .scan 47000 2]).map
        (fun s => s.sent.map fun cnp => (cnp.time, cnp.ecnBits))
      = some [(1000, 1), (47000, 2)] := by
  decide +kernel

end Paraleon.Rdma.CnpScheduler
