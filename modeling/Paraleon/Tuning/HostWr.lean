import Mathlib.Data.Finset.Prod
import Mathlib.Data.Fintype.Basic
import Paraleon.Library.Runs
import Paraleon.Rdma.Keys

/-!
# Work requests of the hosts

Each host has a table with one entry a slot, and any number of flows for a slot. An entry is
made or replaced when its flow is seen, is reported with the bytes that are completed, and
is cleared when the bytes of a finished flow have been reported.

* `update_cases`: the three ways in which an entry comes to be that of a flow.
* `host_wr_accounting`: in every reachable state, no entry is lost from the counts, none is
  cleared before its last report, a report lacks an active flow only after a collision, and
  the reports of a flow do not go back.
-/

namespace Paraleon.Tuning.HostWr

open Function Rdma

/-! ## The table -/

def kHostWrTableSize : Nat := 1024

abbrev Slot := Fin kHostWrTableSize

/-- The largest `uint64_t`: nothing was reported. -/
def noReport : Nat := 2 ^ 64 - 1

structure HostWrEntry where
  valid : Bool
  qpnKey : UInt64
  completedBytes : Nat
  flowSizeBytes : Nat
  lastReportedCompletedBytes : Nat
  finished : Bool
deriving DecidableEq, Repr

/-- `HostWrEntry()` -/
def HostWrEntry.empty : HostWrEntry :=
  { valid := false, qpnKey := 0, completedBytes := 0, flowSizeBytes := 0,
    lastReportedCompletedBytes := noReport, finished := false }

/-- The finalizer of MurmurHash, and the remainder. -/
def getHostWrSlot (qpnKey : UInt64) : Slot :=
  let x := qpnKey
  let x := x ^^^ (x >>> 33)
  let x := x * 0xff51afd7ed558ccd
  let x := x ^^^ (x >>> 33)
  let x := x * 0xc4ceb9fe1a85ec53
  let x := x ^^^ (x >>> 33)
  ⟨x.toNat % kHostWrTableSize, Nat.mod_lt _ (by decide)⟩

def ipToNodeId (ip : UInt32) : UInt32 := (ip >>> 8) &&& 0xffff

/-- What a queue pair has from its start. `ReadFlowInput` makes the size at least 1. -/
structure Flow where
  sip : UInt32
  dip : UInt32
  sport : UInt16
  pg : UInt16
  size : UInt32
  size_pos : 0 < size.toNat
deriving DecidableEq, Repr

/-- A host and a slot of its table. -/
abbrev Cell := UInt32 × Slot

def Flow.host (f : Flow) : UInt32 := ipToNodeId f.sip

/-- `get_host_wr_qpn_key` -/
def Flow.qpnKey (f : Flow) : UInt64 := getQpKey f.dip f.sport f.pg

def Flow.cell (f : Flow) : Cell := (f.host, getHostWrSlot f.qpnKey)

/-- `host_wr_tables`, with the hosts it has a table for, and the counters. `created` and
`displaced` are for the proofs: the entries made so far, and those lost in collisions. -/
structure Tables where
  hosts : Finset UInt32
  entries : Cell → HostWrEntry
  collisionCount : Nat
  clearCount : Nat
  created : Nat
  displaced : List (UInt32 × UInt64)

namespace Tables

def init : Tables :=
  { hosts := ∅, entries := fun _ => .empty, collisionCount := 0, clearCount := 0, created := 0,
    displaced := [] }

def set (t : Tables) (cell : Cell) (entry : HostWrEntry) : Tables :=
  { t with entries := update t.entries cell entry }

/-- The collision in `upsert_host_wr_entry`: the entry of another flow is cleared. -/
def clearOther (t : Tables) (f : Flow) : Tables :=
  if (t.entries f.cell).valid = true ∧ (t.entries f.cell).qpnKey ≠ f.qpnKey then
    { t.set f.cell .empty with
      collisionCount := t.collisionCount + 1
      displaced := t.displaced ++ [(f.host, (t.entries f.cell).qpnKey)] }
  else t

/-- `upsert_host_wr_entry`, which leaves the entry in the cell of the flow. -/
def upsert (t : Tables) (f : Flow) : Tables :=
  let t := clearOther { t with hosts := insert f.host t.hosts } f
  let entry := t.entries f.cell
  if entry.valid = false then
    { t.set f.cell { entry with valid := true, qpnKey := f.qpnKey } with created := t.created + 1 }
  else t

/-- `update_host_wr_entry` -/
def updateHostWrEntry (t : Tables) (f : Flow) (sndUna : Nat) (finished : Bool) : Tables :=
  let t := t.upsert f
  let completedBytes := if finished then f.size.toNat else min sndUna f.size.toNat
  t.set f.cell
    { t.entries f.cell with
      completedBytes
      flowSizeBytes := f.size.toNat
      finished := finished || decide (f.size.toNat ≤ completedBytes) }

/-- `sync_host_wr_entries_from_active_qps`, for the queue pairs in the order of the maps. -/
def sync (t : Tables) (sndUna : Flow → Nat) (order : List Flow) : Tables :=
  order.foldl (fun t f => t.updateHostWrEntry f (sndUna f) false) t

end Tables

/-- A line of a report, which also says the host and the slot. -/
structure Line where
  qpnKey : UInt64
  completedBytes : Nat
  flowSizeBytes : Nat
deriving DecidableEq, Repr

/-- A report: at most one line a cell, and the summary. -/
structure Report where
  lines : Cell → Option Line
  activeEntryCount : Nat
  collisionCount : Nat
  clearCount : Nat

namespace HostWrEntry

/-- The test before an entry is cleared. -/
def clears (e : HostWrEntry) : Bool :=
  e.valid && e.finished && decide (e.completedBytes = e.lastReportedCompletedBytes)

def line (e : HostWrEntry) : Line :=
  { qpnKey := e.qpnKey, completedBytes := e.completedBytes, flowSizeBytes := e.flowSizeBytes }

/-- The entry after a report. -/
def report (e : HostWrEntry) : HostWrEntry :=
  if e.valid = false then e
  else if e.clears then .empty
  else { e with lastReportedCompletedBytes := e.completedBytes }

end HostWrEntry

namespace Tables

/-- The cells of the tables. -/
def cells (t : Tables) : Finset Cell := t.hosts ×ˢ Finset.univ

/-- The loop of `monitor_host_flow_report` over all entries. -/
def report (t : Tables) : Tables × Report :=
  let cleared := (t.cells.filter fun c => (t.entries c).clears = true).card
  let t' : Tables := { t with entries := fun c => (t.entries c).report
                              clearCount := t.clearCount + cleared }
  (t', { lines := fun c =>
           if (t.entries c).valid = true ∧ (t.entries c).clears = false then
             some (t.entries c).line
           else none
         activeEntryCount := (t.cells.filter fun c =>
           (t.entries c).valid = true ∧ (t.entries c).clears = false).card
         collisionCount := t'.collisionCount
         clearCount := t'.clearCount })

def validCount (t : Tables) : Nat := (t.cells.filter fun c => (t.entries c).valid = true).card

end Tables

/-! ## The simulation -/

/-- `active` are the queue pairs in the maps `m_qpMap` of the hosts, `started` all there have
been, and `reports` the files written so far. -/
structure State where
  started : Finset Flow
  active : Finset Flow
  sndUna : Flow → Nat
  tables : Tables
  hostFlowReportInitialized : Bool
  reports : List Report

def State.init : State :=
  { started := ∅, active := ∅, sndUna := fun _ => 0, tables := .init,
    hostFlowReportInitialized := false, reports := [] }

/-- What happens: a flow starts; an ACK or NACK arrives for a queue pair; a report is due,
when the maps have the queue pairs in some order. -/
inductive Event where
  | start (f : Flow)
  | ack (f : Flow) (seq : UInt32)
  | monitorHostFlowReport (order : List Flow)

/-- A flow whose last byte is acknowledged is complete: `qp_finish` updates its entry, as it
does in the scheme `paraleon_plus`, and the queue pair leaves the map. -/
def State.ack (s : State) (f : Flow) (seq : UInt32) : State :=
  let s := { s with sndUna := update s.sndUna f (max (s.sndUna f) seq.toNat) }
  if f.size.toNat ≤ s.sndUna f then
    { s with
      tables := s.tables.updateHostWrEntry f (s.sndUna f) true
      active := s.active.erase f }
  else s

/-- `monitor_host_flow_report`, whose first call writes nothing. -/
def State.monitorHostFlowReport (s : State) (order : List Flow) : State :=
  if s.hostFlowReportInitialized = false then { s with hostFlowReportInitialized := true }
  else
    let (tables, report) := (s.tables.sync s.sndUna order).report
    { s with tables, reports := s.reports ++ [report] }

/-- A flow that starts differs from all others of its host in its destination, its source port
or its priority group. -/
def step (s : State) : Event → Option State
  | .start f =>
    if ∃ g ∈ s.started, g.host = f.host ∧ g.qpnKey = f.qpnKey then none
    else some { s with started := insert f s.started, active := insert f s.active,
                       sndUna := update s.sndUna f 0 }
  | .ack f seq => if f ∈ s.active then some (s.ack f seq) else none
  | .monitorHostFlowReport order =>
    if order.Nodup ∧ order.toFinset = s.active then some (s.monitorHostFlowReport order) else none

/-! ## One update -/

/-- The entry that an update leaves for a flow. -/
def Flow.entry (f : Flow) (sndUna : Nat) (finished : Bool) (lastReported : Nat) : HostWrEntry :=
  let completedBytes := if finished then f.size.toNat else min sndUna f.size.toNat
  { valid := true, qpnKey := f.qpnKey, completedBytes, flowSizeBytes := f.size.toNat,
    lastReportedCompletedBytes := lastReported,
    finished := finished || decide (f.size.toNat ≤ completedBytes) }

/-- Slots without an entry are as `HostWrEntry()` leaves them. -/
def Tables.Clean (t : Tables) : Prop := ∀ c, (t.entries c).valid = false → t.entries c = .empty

/-- What an update does: it goes on with the entry of the flow, takes an empty slot, or
displaces the entry of another flow. -/
theorem update_cases {t : Tables} (h : t.Clean) (f : Flow) (sndUna : Nat) (finished : Bool) :
    let old := t.entries f.cell
    let t' := t.updateHostWrEntry f sndUna finished
    (old.valid = true ∧ old.qpnKey = f.qpnKey ∧
        t' = { t with hosts := insert f.host t.hosts
                      entries := update t.entries f.cell
                        (f.entry sndUna finished old.lastReportedCompletedBytes) }) ∨
      (old.valid = false ∧
        t' = { t with hosts := insert f.host t.hosts
                      entries := update t.entries f.cell (f.entry sndUna finished noReport)
                      created := t.created + 1 }) ∨
      (old.valid = true ∧ old.qpnKey ≠ f.qpnKey ∧
        t' = { t with hosts := insert f.host t.hosts
                      entries := update t.entries f.cell (f.entry sndUna finished noReport)
                      collisionCount := t.collisionCount + 1
                      created := t.created + 1
                      displaced := t.displaced ++ [(f.host, old.qpnKey)] }) := by
  intro old t'
  cases hvalid : old.valid with
  | false =>
    -- a cell that is not valid is empty, and the flow gets a new entry
    have hempty : t.entries f.cell = .empty := h _ hvalid
    refine .inr (.inl ⟨rfl, ?_⟩)
    simp [t', Tables.updateHostWrEntry, Tables.upsert, Tables.clearOther, Tables.set, hempty,
      HostWrEntry.empty, Flow.entry]
  | true =>
    have hvalid' : (t.entries f.cell).valid = true := hvalid
    -- the entry of the flow, or one of another that it displaces
    by_cases hkey : old.qpnKey = f.qpnKey
    · have hkey' : (t.entries f.cell).qpnKey = f.qpnKey := hkey
      refine .inl ⟨rfl, hkey, ?_⟩
      simp [t', old, Tables.updateHostWrEntry, Tables.upsert, Tables.clearOther, Tables.set,
        hvalid', hkey', Flow.entry]
    · have hkey' : (t.entries f.cell).qpnKey ≠ f.qpnKey := hkey
      refine .inr (.inr ⟨rfl, hkey, ?_⟩)
      simp [t', old, Tables.updateHostWrEntry, Tables.upsert, Tables.clearOther, Tables.set,
        hvalid', hkey', HostWrEntry.empty, Flow.entry]

/-! ## Entries are not lost from the counts -/

/-- The tables with their counters. -/
structure Tables.Counted (t : Tables) : Prop where
  clean : t.Clean
  hosts : ∀ c, (t.entries c).valid = true → c.1 ∈ t.hosts
  created : t.created = t.validCount + t.collisionCount + t.clearCount
  displaced : t.displaced.length = t.collisionCount

namespace Tables

theorem mem_cells {t : Tables} {c : Cell} : c ∈ t.cells ↔ c.1 ∈ t.hosts := by
  simp [cells]

theorem counted_init : init.Counted where
  clean _ _ := rfl
  hosts c hc := by cases hc
  created := rfl
  displaced := rfl

/-- One more valid entry, unless the cell had one. -/
theorem validCount_update {t t' : Tables} (h : t.Counted) {c : Cell} {e : HostWrEntry}
    (he : e.valid = true) (hhosts : t'.hosts = insert c.1 t.hosts)
    (hentries : t'.entries = update t.entries c e) :
    t'.validCount = t.validCount + if (t.entries c).valid = true then 0 else 1 := by
  have hset : t'.cells.filter (fun c => (t'.entries c).valid = true) =
      insert c (t.cells.filter fun c => (t.entries c).valid = true) := by
    ext d
    rw [Finset.mem_filter, Finset.mem_insert, Finset.mem_filter, mem_cells, mem_cells, hhosts,
      hentries, Finset.mem_insert]
    rcases eq_or_ne d c with rfl | hd
    · simp [he]
    · rw [update_of_ne hd]
      constructor
      · exact fun ⟨_, hv⟩ => .inr ⟨h.hosts d hv, hv⟩
      · rintro (heq | ⟨hhost, hv⟩)
        · exact absurd heq hd
        · exact ⟨.inr hhost, hv⟩
  rw [validCount, validCount, hset]
  by_cases hv : (t.entries c).valid = true
  · have hmem : c ∈ t.cells.filter fun c => (t.entries c).valid = true :=
      Finset.mem_filter.mpr ⟨mem_cells.mpr (h.hosts c hv), hv⟩
    rw [Finset.insert_eq_of_mem hmem, if_pos hv]
    rfl
  · have hmem : c ∉ t.cells.filter fun c => (t.entries c).valid = true := fun hmem =>
      hv (Finset.mem_filter.mp hmem).2
    rw [Finset.card_insert_of_notMem hmem, if_neg hv]

theorem Counted.update {t : Tables} (h : t.Counted) (f : Flow) (sndUna : Nat) (finished : Bool) :
    (t.updateHostWrEntry f sndUna finished).Counted := by
  have hhosts : ∀ e : HostWrEntry, ∀ c, (Function.update t.entries f.cell e c).valid = true →
      c.1 ∈ insert f.host t.hosts := by
    intro e c hc
    by_cases hcell : c = f.cell
    · exact hcell ▸ Finset.mem_insert_self ..
    · rw [update_of_ne hcell] at hc
      exact Finset.mem_insert_of_mem (h.hosts c hc)
  have hclean : ∀ last, ∀ c,
      (Function.update t.entries f.cell (f.entry sndUna finished last) c).valid = false →
        Function.update t.entries f.cell (f.entry sndUna finished last) c = .empty := by
    intro last c hc
    rcases eq_or_ne c f.cell with rfl | hcell
    · rw [update_self] at hc
      cases hc
    · rw [update_of_ne hcell] at hc ⊢
      exact h.clean c hc
  have hvalid : ∀ last, (f.entry sndUna finished last).valid = true := fun _ => rfl
  have hcreated := h.created
  rcases update_cases h.clean f sndUna finished with ⟨hold, -, heq⟩ | ⟨hold, heq⟩ | ⟨hold, -, heq⟩
  all_goals
    have hcount := validCount_update h (hvalid _) (congrArg Tables.hosts heq)
      (congrArg Tables.entries heq)
    rw [heq] at hcount ⊢
  · rw [if_pos hold] at hcount
    exact ⟨hclean _, hhosts _, by rw [hcount]; exact hcreated, h.displaced⟩
  · rw [if_neg (by simp [hold])] at hcount
    exact ⟨hclean _, hhosts _, by dsimp only; omega, h.displaced⟩
  · rw [if_pos hold] at hcount
    exact ⟨hclean _, hhosts _, by dsimp only; omega, by simp [h.displaced]⟩

end Tables

theorem HostWrEntry.report_cases (e : HostWrEntry) :
    e.valid = false ∧ e.clears = false ∧ e.report = e ∨
      e.valid = true ∧ e.clears = true ∧ e.report = .empty ∨
      e.valid = true ∧ e.clears = false ∧
        e.report = { e with lastReportedCompletedBytes := e.completedBytes } := by
  unfold report
  cases hvalid : e.valid with
  | false => exact .inl ⟨rfl, by simp [clears, hvalid], if_pos rfl⟩
  | true =>
    cases hclears : e.clears with
    | true => exact .inr (.inl ⟨rfl, rfl, by simp⟩)
    | false => exact .inr (.inr ⟨rfl, rfl, by simp⟩)

/-- A report makes an entry invalid exactly when it clears it. -/
theorem HostWrEntry.report_valid (e : HostWrEntry) :
    e.report.valid = true ↔ e.valid = true ∧ e.clears = false := by
  rcases e.report_cases with ⟨hv, hc, heq⟩ | ⟨hv, hc, heq⟩ | ⟨hv, hc, heq⟩ <;>
    simp [heq, hv, hc, HostWrEntry.empty]

theorem Tables.Counted.report {t : Tables} (h : t.Counted) : t.report.1.Counted where
  clean c hc := by
    change (t.entries c).report.valid = false at hc
    change (t.entries c).report = .empty
    rcases (t.entries c).report_cases with ⟨hv, -, heq⟩ | ⟨-, -, heq⟩ | ⟨hv, -, heq⟩
    · exact heq.trans (h.clean c hv)
    · exact heq
    · rw [heq] at hc
      exact absurd (hv.symm.trans hc) (by simp)
  hosts c hc := h.hosts c ((t.entries c).report_valid.mp hc).1
  created := by
    have hvalid : t.report.1.validCount =
        ((t.cells.filter fun c => (t.entries c).valid = true).filter
          fun c => ¬ (t.entries c).clears = true).card := by
      refine congrArg Finset.card (Finset.ext fun c => ?_)
      rw [Finset.mem_filter, Finset.mem_filter, Finset.mem_filter, and_assoc]
      refine and_congr_right fun _ => ?_
      change (t.entries c).report.valid = true ↔ _
      rw [HostWrEntry.report_valid, Bool.not_eq_true]
    have hcleared : (t.cells.filter fun c => (t.entries c).clears = true).card =
        ((t.cells.filter fun c => (t.entries c).valid = true).filter
          fun c => (t.entries c).clears = true).card := by
      refine congrArg Finset.card (Finset.ext fun c => ?_)
      rw [Finset.mem_filter, Finset.mem_filter, Finset.mem_filter, and_assoc]
      refine and_congr_right fun _ => (and_iff_right_of_imp fun hclears => ?_).symm
      simp only [HostWrEntry.clears, Bool.and_eq_true] at hclears
      exact hclears.1.1
    -- the valid cells are those that are cleared and those that stay
    have hsplit := Finset.card_filter_add_card_filter_not
      (s := t.cells.filter fun c => (t.entries c).valid = true)
      (p := fun c => (t.entries c).clears = true)
    have hcreated := h.created
    rw [validCount] at hcreated
    change t.created = t.report.1.validCount + t.collisionCount +
      (t.clearCount + (t.cells.filter fun c => (t.entries c).clears = true).card)
    omega
  displaced := h.displaced

/-! ## What the entries say -/

/-- The bytes of a flow that are completed; all of them once it has left the map. -/
def State.progress (s : State) (f : Flow) : Nat :=
  if f ∈ s.active then min (s.sndUna f) f.size.toNat else f.size.toNat

theorem State.progress_le (s : State) (f : Flow) : s.progress f ≤ f.size.toNat := by
  unfold progress
  split
  · exact Nat.min_le_right ..
  · exact le_rfl

/-- The line of a flow with some bytes completed. -/
def Flow.line (f : Flow) (completedBytes : Nat) : Line :=
  { qpnKey := f.qpnKey, completedBytes, flowSizeBytes := f.size.toNat }

def Reported (reports : List Report) (c : Cell) (line : Line) : Prop :=
  ∃ r ∈ reports, r.lines c = some line

/-- An entry of a flow: what it counts, and what was reported of it. -/
structure EntryOf (s : State) (f : Flow) (c : Cell) (e : HostWrEntry) : Prop where
  started : f ∈ s.started
  cell : f.cell = c
  qpnKey : e.qpnKey = f.qpnKey
  flowSizeBytes : e.flowSizeBytes = f.size.toNat
  completed_le : e.completedBytes ≤ s.progress f
  finished : e.finished = true → e.completedBytes = f.size.toNat
  lastReported : e.lastReportedCompletedBytes = noReport ∨
    Reported s.reports c (f.line e.lastReportedCompletedBytes)

def Entries (s : State) (t : Tables) : Prop :=
  ∀ c, (t.entries c).valid = true → ∃ f, EntryOf s f c (t.entries c)

/-- The entry of a flow counts all its bytes, if there is one. -/
def SettledAt (t : Tables) (f : Flow) : Prop :=
  (t.entries f.cell).valid = true → (t.entries f.cell).qpnKey = f.qpnKey →
    (t.entries f.cell).completedBytes = f.size.toNat

def Settled (s : State) (t : Tables) : Prop := ∀ f ∈ s.started, f ∉ s.active → SettledAt t f

/-- No two flows of a host have one key. -/
def Distinct (s : State) : Prop :=
  ∀ f ∈ s.started, ∀ g ∈ s.started, f.host = g.host → f.qpnKey = g.qpnKey → f = g

theorem Distinct.eq_of_cell {s : State} (h : Distinct s) {f g : Flow} (hf : f ∈ s.started)
    (hg : g ∈ s.started) (hcell : f.cell = g.cell) (hkey : f.qpnKey = g.qpnKey) : f = g :=
  h f hf g hg (congrArg Prod.fst hcell) hkey

/-- The entry after an update, with what becomes of the last report. -/
theorem update_entries {t : Tables} (h : t.Clean) (f : Flow) (sndUna : Nat) (finished : Bool) :
    ∃ last, (t.updateHostWrEntry f sndUna finished).entries =
        update t.entries f.cell (f.entry sndUna finished last) ∧
      (last = noReport ∨ (t.entries f.cell).valid = true ∧
        (t.entries f.cell).qpnKey = f.qpnKey ∧
          last = (t.entries f.cell).lastReportedCompletedBytes) := by
  rcases update_cases h f sndUna finished with ⟨hold, hkey, heq⟩ | ⟨-, heq⟩ | ⟨-, -, heq⟩
  · exact ⟨_, congrArg Tables.entries heq, .inr ⟨hold, hkey, rfl⟩⟩
  · exact ⟨_, congrArg Tables.entries heq, .inl rfl⟩
  · exact ⟨_, congrArg Tables.entries heq, .inl rfl⟩

section update

variable {s : State} {t : Tables} {f : Flow} {sndUna : Nat} {finished : Bool}

theorem Entries.update (h : Entries s t) (hclean : t.Clean) (hdistinct : Distinct s)
    (hf : f ∈ s.started)
    (hprogress : (f.entry sndUna finished noReport).completedBytes = s.progress f) :
    Entries s (t.updateHostWrEntry f sndUna finished) := by
  obtain ⟨last, hentries, hlast⟩ := update_entries hclean f sndUna finished
  intro c hc
  rw [hentries] at hc ⊢
  rcases eq_or_ne c f.cell with rfl | hcell
  · rw [update_self]
    refine ⟨f,
      { started := hf
        cell := rfl
        qpnKey := rfl
        flowSizeBytes := rfl
        completed_le := hprogress.le
        finished := fun hfin => ?_
        lastReported := ?_ }⟩
    · cases finished with
      | true => rfl
      | false =>
        have hle : f.size.toNat ≤ min sndUna f.size.toNat := by simpa [Flow.entry] using hfin
        exact le_antisymm (Nat.min_le_right ..) hle
    · rcases hlast with rfl | ⟨hvalid, hkey, rfl⟩
      · exact .inl rfl
      · obtain ⟨g, hg⟩ := h _ hvalid
        have hsame : g = f := hdistinct.eq_of_cell hg.started hf hg.cell (hg.qpnKey.symm.trans hkey)
        exact hsame ▸ hg.lastReported
  · rw [update_of_ne hcell] at hc ⊢
    exact h c hc

theorem settled_update (hclean : t.Clean) (hdistinct : Distinct s) (hf : f ∈ s.started)
    (hcompleted : f ∉ s.active →
      (f.entry sndUna finished noReport).completedBytes = f.size.toNat)
    (h : ∀ g ∈ s.started, g ∉ s.active → g ≠ f → SettledAt t g) :
    Settled s (t.updateHostWrEntry f sndUna finished) := by
  obtain ⟨last, hentries, -⟩ := update_entries hclean f sndUna finished
  intro g hg hactive
  unfold SettledAt
  rw [hentries]
  by_cases hcell : g.cell = f.cell
  · rw [hcell, update_self]
    intro _ hkey
    obtain rfl : g = f := hdistinct.eq_of_cell hg hf hcell hkey.symm
    exact hcompleted hactive
  · rw [update_of_ne hcell]
    exact h g hg hactive fun heq => hcell (heq ▸ rfl)

end update

/-! ## The sync before a report -/

/-- The tables after some of the queue pairs have been seen: each has its entry up to date, or
the entry was displaced. -/
structure Synced (s : State) (t : Tables) (order : List Flow) (displaced : List (UInt32 × UInt64)) :
    Prop where
  counted : t.Counted
  entries : Entries s t
  settled : Settled s t
  displaced_eq : t.displaced = s.tables.displaced ++ displaced
  collisionCount_eq : t.collisionCount = s.tables.collisionCount + displaced.length
  current : ∀ f ∈ order,
    (∃ last, t.entries f.cell = f.entry (s.sndUna f) false last) ∨
      (f.host, f.qpnKey) ∈ displaced ∧ (t.entries f.cell).qpnKey ≠ f.qpnKey

/-- An update that displaces an entry counts a collision. -/
theorem update_displaced {t : Tables} (h : t.Clean) (f : Flow) (sndUna : Nat) (finished : Bool) :
    ∃ displaced,
      (t.updateHostWrEntry f sndUna finished).displaced = t.displaced ++ displaced ∧
        (t.updateHostWrEntry f sndUna finished).collisionCount =
          t.collisionCount + displaced.length ∧
        ((t.entries f.cell).valid = true → (t.entries f.cell).qpnKey ≠ f.qpnKey →
          (f.host, (t.entries f.cell).qpnKey) ∈ displaced) := by
  rcases update_cases h f sndUna finished with ⟨-, hkey, heq⟩ | ⟨hold, heq⟩ | ⟨-, -, heq⟩
  · exact ⟨[], by simp [heq], by simp [heq], fun _ hne => absurd hkey hne⟩
  · exact ⟨[], by simp [heq], by simp [heq],
      fun hvalid => absurd (hold.symm.trans hvalid) (by simp)⟩
  · exact ⟨[_], by simp [heq], by simp [heq], fun _ _ => List.mem_singleton.mpr rfl⟩

section sync

variable {s : State} (hdistinct : Distinct s) (hstarted : ∀ f ∈ s.active, f ∈ s.started)

include hdistinct hstarted

theorem Synced.snoc {t : Tables} {order : List Flow} {displaced : List (UInt32 × UInt64)}
    (h : Synced s t order displaced) {f : Flow} (hf : f ∈ s.active)
    (horder : ∀ g ∈ order, g ∈ s.active ∧ g ≠ f) :
    ∃ displaced',
      Synced s (t.updateHostWrEntry f (s.sndUna f) false) (order ++ [f]) displaced' := by
  have hprogress : (f.entry (s.sndUna f) false noReport).completedBytes = s.progress f :=
    (if_pos hf).symm
  -- the cell of `f` has its entry now; all others are as they were
  obtain ⟨last, hentries, -⟩ := update_entries h.counted.clean f (s.sndUna f) false
  obtain ⟨new, hdisplaced, hcollision, hnew⟩ :=
    update_displaced h.counted.clean f (s.sndUna f) false
  refine ⟨displaced ++ new,
    { counted := h.counted.update f (s.sndUna f) false
      entries := h.entries.update h.counted.clean hdistinct (hstarted f hf) hprogress
      settled := settled_update h.counted.clean hdistinct (hstarted f hf) (absurd hf)
        fun g hg hactive _ => h.settled g hg hactive
      displaced_eq := by rw [hdisplaced, h.displaced_eq, List.append_assoc]
      collisionCount_eq := by
        rw [hcollision, h.collisionCount_eq, List.length_append, Nat.add_assoc]
      current := fun g hg => ?_ }⟩
  rw [hentries]
  rcases List.mem_append.mp hg with hg | hg
  · obtain ⟨hactive, hne⟩ := horder g hg
    by_cases hcell : g.cell = f.cell
    · -- another flow of the slot, whose entry is displaced now if it was not before
      have hkey : f.qpnKey ≠ g.qpnKey := fun hkey =>
        hne (hdistinct.eq_of_cell (hstarted g hactive) (hstarted f hf) hcell hkey.symm)
      rw [hcell, update_self]
      refine .inr ⟨List.mem_append.mpr ?_, hkey⟩
      rcases h.current g hg with ⟨last, hlast⟩ | ⟨hmem, -⟩
      · rw [hcell] at hlast
        have hhost : g.host = f.host := congrArg Prod.fst hcell
        rw [hlast] at hnew
        exact .inr (hhost ▸ hnew rfl hkey.symm)
      · exact .inl hmem
    · rw [update_of_ne hcell]
      exact (h.current g hg).imp_right fun ⟨hmem, hkey⟩ => ⟨List.mem_append_left _ hmem, hkey⟩
  · obtain rfl := List.mem_singleton.mp hg
    rw [update_self]
    exact .inl ⟨last, rfl⟩

theorem synced_sync (hcounted : s.tables.Counted) (hentries : Entries s s.tables)
    (hsettled : Settled s s.tables) {order : List Flow} (hnodup : order.Nodup)
    (horder : ∀ f ∈ order, f ∈ s.active) :
    ∃ displaced, Synced s (s.tables.sync s.sndUna order) order displaced := by
  induction order using List.reverseRecOn with
  | nil =>
    exact ⟨[],
      { counted := hcounted
        entries := hentries
        settled := hsettled
        displaced_eq := (List.append_nil _).symm
        collisionCount_eq := rfl
        current := fun f hf => absurd hf List.not_mem_nil }⟩
  | append_singleton order f ih =>
    obtain ⟨hnodup', -, hdisjoint⟩ := List.nodup_append.mp hnodup
    obtain ⟨displaced, h⟩ := ih hnodup' fun g hg => horder g (List.mem_append_left _ hg)
    rw [Tables.sync, List.foldl_append]
    exact h.snoc hdistinct hstarted (horder f (by simp)) fun g hg =>
      ⟨horder g (List.mem_append_left _ hg), hdisjoint g hg f (List.mem_singleton.mpr rfl)⟩

end sync

/-! ## Every reachable state -/

structure Inv (s : State) : Prop where
  distinct : Distinct s
  started : ∀ f ∈ s.active, f ∈ s.started
  unfinished : ∀ f ∈ s.active, s.sndUna f < f.size.toNat
  counted : s.tables.Counted
  entries : Entries s s.tables
  settled : Settled s s.tables
  lines : ∀ r ∈ s.reports, ∀ c line, r.lines c = some line →
    ∃ f ∈ s.started, f.cell = c ∧ ∃ bytes ≤ s.progress f, line = f.line bytes
  increasing : s.reports.Pairwise fun r r' => ∀ c line line', r.lines c = some line →
    r'.lines c = some line' → line.qpnKey = line'.qpnKey →
      line.completedBytes ≤ line'.completedBytes

theorem inv_init : Inv .init where
  distinct f hf := absurd hf (Finset.notMem_empty f)
  started f hf := absurd hf (Finset.notMem_empty f)
  unfinished f hf := absurd hf (Finset.notMem_empty f)
  counted := Tables.counted_init
  entries c hc := by cases hc
  settled f hf := absurd hf (Finset.notMem_empty f)
  lines r hr := absurd hr List.not_mem_nil
  increasing := List.Pairwise.nil

/-- Flows only advance from `s` to `s'`. -/
structure Advances (s s' : State) : Prop where
  started : ∀ f ∈ s.started, f ∈ s'.started
  progress : ∀ f ∈ s.started, s.progress f ≤ s'.progress f
  reports : s'.reports = s.reports

theorem Entries.mono {s s' : State} {t : Tables} (h : Entries s t) (hadv : Advances s s') :
    Entries s' t := by
  intro c hc
  obtain ⟨f, hf⟩ := h c hc
  refine ⟨f, { hf with
    started := hadv.started f hf.started, completed_le := ?_, lastReported := ?_ }⟩
  · exact hf.completed_le.trans (hadv.progress f hf.started)
  · rw [hadv.reports]
    exact hf.lastReported

theorem Inv.lines_mono {s s' : State} (h : Inv s) (hadv : Advances s s') :
    ∀ r ∈ s'.reports, ∀ c line, r.lines c = some line →
      ∃ f ∈ s'.started, f.cell = c ∧ ∃ bytes ≤ s'.progress f, line = f.line bytes := by
  rw [hadv.reports]
  intro r hr c line hline
  obtain ⟨f, hf, hcell, bytes, hbytes, heq⟩ := h.lines r hr c line hline
  exact ⟨f, hadv.started f hf, hcell, bytes, hbytes.trans (hadv.progress f hf), heq⟩

theorem Inv.start {s : State} (h : Inv s) {f : Flow}
    (hnew : ¬ ∃ g ∈ s.started, g.host = f.host ∧ g.qpnKey = f.qpnKey) :
    Inv { s with started := insert f s.started, active := insert f s.active,
                 sndUna := update s.sndUna f 0 } := by
  have hne : ∀ g ∈ s.started, g ≠ f := fun g hg heq => hnew ⟨g, hg, heq ▸ rfl, heq ▸ rfl⟩
  -- the new flow has no line yet, and no old one moves back
  have hadv : Advances s { s with started := insert f s.started, active := insert f s.active,
                                  sndUna := update s.sndUna f 0 } :=
    { started := fun g hg => Finset.mem_insert_of_mem hg
      progress := fun g hg => by
        have hgf := hne g hg
        simp [State.progress, hgf]
      reports := rfl }
  refine
    { distinct := fun g hg g' hg' hhost hkey => ?_
      started := fun g hg => ?_
      unfinished := fun g hg => ?_
      counted := h.counted
      entries := h.entries.mono hadv
      settled := fun g hg hactive hvalid hkey => ?_
      lines := h.lines_mono hadv
      increasing := h.increasing }
  · rcases Finset.mem_insert.mp hg with rfl | hold
    · rcases Finset.mem_insert.mp hg' with heq | hold'
      · exact heq.symm
      · exact absurd ⟨g', hold', hhost.symm, hkey.symm⟩ hnew
    · rcases Finset.mem_insert.mp hg' with rfl | hold'
      · exact absurd ⟨g, hold, hhost, hkey⟩ hnew
      · exact h.distinct g hold g' hold' hhost hkey
  · exact Finset.insert_subset_insert f (fun g hg => h.started g hg) hg
  · rcases eq_or_ne g f with rfl | hgf
    · simpa using g.size_pos
    · have hg' := (Finset.mem_insert.mp hg).resolve_left hgf
      change update s.sndUna f 0 g < _
      rw [update_of_ne hgf]
      exact h.unfinished g hg'
  · have hgf : g ≠ f := fun heq => hactive (heq ▸ Finset.mem_insert_self f s.active)
    exact h.settled g ((Finset.mem_insert.mp hg).resolve_left hgf)
      (fun hg' => hactive (Finset.mem_insert_of_mem hg')) hvalid hkey

/-- An ACK that leaves bytes of the flow. -/
theorem Inv.advance {s : State} (h : Inv s) {f : Flow} {una : Nat} (hle : s.sndUna f ≤ una)
    (hmore : una < f.size.toNat) : Inv { s with sndUna := update s.sndUna f una } := by
  have hadv : Advances s { s with sndUna := update s.sndUna f una } :=
    { started := fun g hg => hg
      progress := fun g _ => by
        unfold State.progress
        rcases eq_or_ne g f with rfl | hgf
        · simp only [update_self]
          split <;> omega
        · simp only [update_of_ne hgf, le_refl]
      reports := rfl }
  refine
    { distinct := h.distinct
      started := h.started
      unfinished := fun g hg => ?_
      counted := h.counted
      entries := h.entries.mono hadv
      settled := h.settled
      lines := h.lines_mono hadv
      increasing := h.increasing }
  rcases eq_or_ne g f with rfl | hgf
  · change update s.sndUna g _ g < _
    rw [update_self]
    exact hmore
  · change update s.sndUna f _ g < _
    rw [update_of_ne hgf]
    exact h.unfinished g hg

/-- An ACK that completes the flow, whose entry counts all of its bytes then. -/
theorem Inv.complete {s : State} (h : Inv s) {f : Flow} (hf : f ∈ s.active) (una : Nat) :
    Inv { s with sndUna := update s.sndUna f una,
                 tables := s.tables.updateHostWrEntry f una true, active := s.active.erase f } := by
  let s' : State :=
    { s with sndUna := update s.sndUna f una,
             tables := s.tables.updateHostWrEntry f una true, active := s.active.erase f }
  have hadv : Advances s s' :=
    { started := fun g hg => hg
      progress := fun g hg => by
        rcases eq_or_ne g f with rfl | hgf
        · exact (s.progress_le g).trans (by simp [s', State.progress])
        · simp [s', State.progress, hgf, update_of_ne]
      reports := rfl }
  have hcompleted : (f.entry una true noReport).completedBytes = f.size.toNat := rfl
  have hprogress : s'.progress f = f.size.toNat := if_neg (Finset.notMem_erase f s.active)
  refine
    { distinct := h.distinct
      started := fun g hg => h.started g (Finset.mem_of_mem_erase hg)
      unfinished := fun g hg => ?_
      counted := h.counted.update f una true
      entries := (h.entries.mono hadv).update h.counted.clean h.distinct (h.started f hf)
        (hcompleted.trans hprogress.symm)
      settled := settled_update (s := s') h.counted.clean h.distinct (h.started f hf)
        (fun _ => hcompleted) fun g hg hactive hne =>
          h.settled g hg fun hg' => hactive (Finset.mem_erase.mpr ⟨hne, hg'⟩)
      lines := h.lines_mono hadv
      increasing := h.increasing }
  obtain ⟨hgf, hg'⟩ := Finset.mem_erase.mp hg
  change update s.sndUna f _ g < _
  rw [update_of_ne hgf]
  exact h.unfinished g hg'

theorem Inv.ack {s : State} (h : Inv s) {f : Flow} (hf : f ∈ s.active) (seq : UInt32) :
    Inv (s.ack f seq) := by
  unfold State.ack
  simp only [update_self]
  split
  · exact h.complete hf _
  · next hmore => exact h.advance (le_max_left ..) (Nat.lt_of_not_le hmore)

section report

variable {s : State} (h : Inv s) {order : List Flow} (hnodup : order.Nodup)
  (horder : order.toFinset = s.active)

include h hnodup horder

/-- The tables after the sync of a report. -/
theorem Inv.synced : ∃ displaced, Synced s (s.tables.sync s.sndUna order) order displaced :=
  synced_sync h.distinct h.started h.counted h.entries h.settled hnodup fun _ hf =>
    horder ▸ List.mem_toFinset.mpr hf

/-- After the sync each entry counts what is completed of its flow. -/
theorem Inv.current {f : Flow} {c : Cell}
    (hf : EntryOf s f c ((s.tables.sync s.sndUna order).entries c))
    (hvalid : ((s.tables.sync s.sndUna order).entries c).valid = true) :
    ((s.tables.sync s.sndUna order).entries c).completedBytes = s.progress f := by
  obtain ⟨displaced, hsync⟩ := h.synced hnodup horder
  obtain rfl := hf.cell
  by_cases hactive : f ∈ s.active
  · have hmem : f ∈ order := List.mem_toFinset.mp (horder ▸ hactive)
    rcases hsync.current f hmem with ⟨last, hlast⟩ | ⟨-, hkey⟩
    · rw [hlast, State.progress, if_pos hactive]
      rfl
    · exact absurd hf.qpnKey hkey
  · rw [State.progress, if_neg hactive]
    exact hsync.settled f hf.started hactive hvalid hf.qpnKey

/-- The lines of a report. -/
theorem Inv.report_line {c : Cell} {line : Line}
    (hline : (s.tables.sync s.sndUna order).report.2.lines c = some line) :
    ∃ f ∈ s.started, f.cell = c ∧ line = f.line (s.progress f) := by
  obtain ⟨displaced, hsync⟩ := h.synced hnodup horder
  obtain ⟨⟨hvalid, -⟩, heq⟩ := Option.ite_none_right_eq_some.mp hline
  obtain ⟨f, hf⟩ := hsync.entries c hvalid
  refine ⟨f, hf.started, hf.cell, ?_⟩
  rw [← Option.some.inj heq, HostWrEntry.line, Flow.line, hf.qpnKey, hf.flowSizeBytes,
    h.current hnodup horder hf hvalid]

/-- A line of an earlier report of the same flow does not count more. -/
theorem Inv.line_le {r : Report} (hr : r ∈ s.reports) {c : Cell} {line line' : Line}
    (hline : r.lines c = some line)
    (hline' : (s.tables.sync s.sndUna order).report.2.lines c = some line')
    (hkey : line.qpnKey = line'.qpnKey) : line.completedBytes ≤ line'.completedBytes := by
  obtain ⟨f, hf, rfl, bytes, hbytes, rfl⟩ := h.lines r hr c line hline
  obtain ⟨g, hg, hcell, rfl⟩ := h.report_line hnodup horder hline'
  obtain rfl : g = f := h.distinct.eq_of_cell hg hf hcell hkey.symm
  exact hbytes

theorem Inv.monitorHostFlowReport : Inv (s.monitorHostFlowReport order) := by
  unfold State.monitorHostFlowReport
  split
  · exact { h with entries := h.entries.mono ⟨fun _ hg => hg, fun _ _ => le_rfl, rfl⟩ }
  · obtain ⟨displaced, hsync⟩ := h.synced hnodup horder
    -- the report reads the tables after the cells were brought up to date
    let t := s.tables.sync s.sndUna order
    have hnew : ∀ r ∈ s.reports ++ [t.report.2], r ∈ s.reports ∨ r = t.report.2 := fun r hr =>
      (List.mem_append.mp hr).imp_right List.mem_singleton.mp
    refine
      { distinct := h.distinct
        started := h.started
        unfinished := h.unfinished
        counted := hsync.counted.report
        entries := fun c hc => ?_
        settled := fun f hf hactive hvalid hkey => ?_
        lines := fun r hr c line hline => ?_
        increasing := ?_ }
    · change (t.entries c).report.valid = true at hc
      change ∃ f, EntryOf _ f c (t.entries c).report
      -- a cell that is valid afterwards was reported and not cleared
      obtain ⟨hvalid, hclears⟩ := (t.entries c).report_valid.mp hc
      obtain ⟨f, hf⟩ := hsync.entries c hvalid
      rcases (t.entries c).report_cases with ⟨hnot, -⟩ | ⟨-, hnot, -⟩ | ⟨-, -, heq⟩
      · exact absurd (hnot.symm.trans hvalid) (by simp)
      · exact absurd (hnot.symm.trans hclears) (by simp)
      · rw [heq]
        refine ⟨f,
          { started := hf.started
            cell := hf.cell
            qpnKey := hf.qpnKey
            flowSizeBytes := hf.flowSizeBytes
            completed_le := hf.completed_le
            finished := hf.finished
            lastReported := .inr ⟨t.report.2, by simp [t], ?_⟩ }⟩
        change (if (t.entries c).valid = true ∧ (t.entries c).clears = false then
          some (t.entries c).line else none) = _
        rw [if_pos ⟨hvalid, hclears⟩, HostWrEntry.line, Flow.line, hf.qpnKey, hf.flowSizeBytes]
    · change (t.entries f.cell).report.valid = true at hvalid
      change (t.entries f.cell).report.qpnKey = f.qpnKey at hkey
      change (t.entries f.cell).report.completedBytes = f.size.toNat
      obtain ⟨hvalid', hclears⟩ := (t.entries f.cell).report_valid.mp hvalid
      rcases (t.entries f.cell).report_cases with ⟨hnot, -⟩ | ⟨-, hnot, -⟩ | ⟨-, -, heq⟩
      · exact absurd (hnot.symm.trans hvalid') (by simp)
      · exact absurd (hnot.symm.trans hclears) (by simp)
      · rw [heq] at hkey ⊢
        exact hsync.settled f hf hactive hvalid' hkey
    · rcases hnew r hr with hr | rfl
      · exact h.lines r hr c line hline
      · obtain ⟨f, hf, hcell, heq⟩ := h.report_line hnodup horder hline
        exact ⟨f, hf, hcell, _, le_rfl, heq⟩
    · refine List.pairwise_append.mpr ⟨h.increasing, List.pairwise_singleton .., ?_⟩
      intro r hr r' hr' c line line' hline hline' hkey
      obtain rfl := List.mem_singleton.mp hr'
      exact h.line_le hnodup horder hr hline hline' hkey

end report

theorem Inv.step {s s' : State} {e : Event} (h : Inv s) (hstep : step s e = some s') : Inv s' := by
  cases e with
  | start f =>
    obtain ⟨hnew, heq⟩ := Option.ite_none_left_eq_some.mp hstep
    exact Option.some.inj heq ▸ h.start hnew
  | ack f seq =>
    obtain ⟨hf, heq⟩ := Option.ite_none_right_eq_some.mp hstep
    exact Option.some.inj heq ▸ h.ack hf seq
  | monitorHostFlowReport order =>
    obtain ⟨⟨hnodup, horder⟩, heq⟩ := Option.ite_none_right_eq_some.mp hstep
    exact Option.some.inj heq ▸ h.monitorHostFlowReport hnodup horder

/-- An entry is cleared when all bytes of its flow were reported before. -/
theorem Inv.cleared {s : State} (h : Inv s) {order : List Flow} (hnodup : order.Nodup)
    (horder : order.toFinset = s.active) {c : Cell}
    (hvalid : ((s.tables.sync s.sndUna order).entries c).valid = true)
    (hcleared : ((s.tables.sync s.sndUna order).entries c).report.valid = false) :
    ∃ f ∈ s.started, f.cell = c ∧
      ((s.tables.sync s.sndUna order).entries c).qpnKey = f.qpnKey ∧
        Reported s.reports c (f.line f.size.toNat) := by
  obtain ⟨displaced, hsync⟩ := h.synced hnodup horder
  obtain ⟨f, hf⟩ := hsync.entries c hvalid
  have hclears : ((s.tables.sync s.sndUna order).entries c).clears = true := by
    by_contra hnot
    have hstill := (HostWrEntry.report_valid _).mpr ⟨hvalid, by simpa using hnot⟩
    exact absurd (hstill.symm.trans hcleared) (by simp)
  simp only [HostWrEntry.clears, Bool.and_eq_true, decide_eq_true_eq] at hclears
  obtain ⟨⟨-, hfinished⟩, hlast⟩ := hclears
  have hall := hf.finished hfinished
  refine ⟨f, hf.started, hf.cell, hf.qpnKey, ?_⟩
  rw [← hall, hlast]
  refine hf.lastReported.resolve_left fun hnone => ?_
  have hlt : f.size.toNat < 2 ^ 32 := f.size.toNat_lt
  rw [← hlast, hall, noReport] at hnone
  omega

/-- In a report, a flow that is active has its line, or its entry was displaced. -/
theorem Inv.active_reported {s : State} (h : Inv s) {order : List Flow} (hnodup : order.Nodup)
    (horder : order.toFinset = s.active) :
    ∃ displaced,
      (s.tables.sync s.sndUna order).displaced = s.tables.displaced ++ displaced ∧
        (s.tables.sync s.sndUna order).collisionCount =
          s.tables.collisionCount + displaced.length ∧
        ∀ f ∈ s.active,
          (s.tables.sync s.sndUna order).report.2.lines f.cell =
              some (f.line (min (s.sndUna f) f.size.toNat)) ∨
            (f.host, f.qpnKey) ∈ displaced := by
  obtain ⟨displaced, hsync⟩ := h.synced hnodup horder
  refine ⟨displaced, hsync.displaced_eq, hsync.collisionCount_eq, fun f hf => ?_⟩
  rcases hsync.current f (List.mem_toFinset.mp (horder ▸ hf)) with ⟨last, hlast⟩ | ⟨hmem, -⟩
  · -- the flow is not complete, so that its entry is not cleared
    have hlt := h.unfinished f hf
    have hclears : (f.entry (s.sndUna f) false last).clears = false := by
      have hnot : ¬ f.size.toNat ≤ min (s.sndUna f) f.size.toNat := by omega
      simp [HostWrEntry.clears, Flow.entry, hnot]
    refine .inl ?_
    change (if ((s.tables.sync s.sndUna order).entries f.cell).valid = true ∧
      ((s.tables.sync s.sndUna order).entries f.cell).clears = false then
        some ((s.tables.sync s.sndUna order).entries f.cell).line else none) = _
    rw [hlast, if_pos ⟨rfl, hclears⟩]
    rfl
  · exact .inr hmem

/-- In every reachable state the entries that were made are those that are valid, were
displaced or were cleared. A report clears an entry when all bytes of its flow are in an
earlier report, and has a line for each active flow but those whose entries were displaced
in its sync. The lines of a flow do not decrease from one report to the next, and do not
exceed its size. -/
theorem host_wr_accounting {s : State} (h : Runs.Reachable step .init s) :
    s.tables.created =
        s.tables.validCount + s.tables.collisionCount + s.tables.clearCount ∧
      (∀ order s', step s (.monitorHostFlowReport order) = some s' →
        s.hostFlowReportInitialized = true →
          let t := s.tables.sync s.sndUna order
          (∀ c, (t.entries c).valid = true → (s'.tables.entries c).valid = false →
            ∃ f ∈ s.started, f.cell = c ∧ (t.entries c).qpnKey = f.qpnKey ∧
              Reported s.reports c (f.line f.size.toNat)) ∧
          ∃ r displaced, s'.reports = s.reports ++ [r] ∧
            t.displaced = s.tables.displaced ++ displaced ∧
            t.collisionCount = s.tables.collisionCount + displaced.length ∧
            ∀ f ∈ s.active, r.lines f.cell = some (f.line (min (s.sndUna f) f.size.toNat)) ∨
              (f.host, f.qpnKey) ∈ displaced) ∧
      (s.reports.Pairwise fun r r' => ∀ host slot slot' line line',
        r.lines (host, slot) = some line → r'.lines (host, slot') = some line' →
          line.qpnKey = line'.qpnKey → line.completedBytes ≤ line'.completedBytes) ∧
      ∀ r ∈ s.reports, ∀ c line, r.lines c = some line →
        ∃ f ∈ s.started, f.cell = c ∧ ∃ bytes ≤ f.size.toNat, line = f.line bytes := by
  have hinv : Inv s := h.invariant inv_init fun _ _ _ hs hstep => hs.step hstep
  refine ⟨hinv.counted.created, fun order s' hstep hinit => ?_, ?_, fun r hr c line hline => ?_⟩
  · obtain ⟨⟨hnodup, horder⟩, heq⟩ := Option.ite_none_right_eq_some.mp hstep
    have hs' := Option.some.inj heq
    rw [State.monitorHostFlowReport, if_neg (by simp [hinit])] at hs'
    subst hs'
    intro t
    obtain ⟨displaced, hdisplaced, hcollision, hactive⟩ := hinv.active_reported hnodup horder
    exact ⟨fun c hvalid hcleared => hinv.cleared hnodup horder hvalid hcleared,
      t.report.2, displaced, rfl, hdisplaced, hcollision, hactive⟩
  · refine hinv.increasing.imp_of_mem
      fun hr hr' hle host slot slot' line line' hline hline' hkey => ?_
    obtain ⟨f, -, hcell, bytes, -, rfl⟩ := hinv.lines _ hr _ _ hline
    obtain ⟨g, -, hcell', bytes', -, rfl⟩ := hinv.lines _ hr' _ _ hline'
    -- the slot is that of the key
    have hslot : slot = slot' := by
      have hf : getHostWrSlot f.qpnKey = slot := congrArg Prod.snd hcell
      have hg : getHostWrSlot g.qpnKey = slot' := congrArg Prod.snd hcell'
      have hkey' : f.qpnKey = g.qpnKey := hkey
      rw [← hf, ← hg, hkey']
    subst hslot
    exact hle _ _ _ hline hline' hkey
  · obtain ⟨f, hf, hcell, bytes, hbytes, heq⟩ := hinv.lines r hr c line hline
    exact ⟨f, hf, hcell, bytes, hbytes.trans (s.progress_le f), heq⟩

/-- A flow of 1000 bytes between the hosts 0 and 1. -/
def oneFlow : Flow :=
  { sip := 0x0b000001, dip := 0x0b000101, sport := 10000, pg := 3, size := 1000,
    size_pos := by decide }

/-- Its run: one report while it is active, one with its last bytes, and one that clears it. -/
def oneFlowRun : List Event :=
  [.start oneFlow, .monitorHostFlowReport [oneFlow], .monitorHostFlowReport [oneFlow],
    .ack oneFlow 1000, .monitorHostFlowReport [], .monitorHostFlowReport []]

theorem host_wr_accounting_oneFlow :
    ∃ s, Runs.run step .init oneFlowRun = some s ∧ s.tables.clearCount = 1 ∧
      s.tables.created = s.tables.validCount + s.tables.collisionCount + s.tables.clearCount := by
  have hclear : (Runs.run step .init oneFlowRun).map (fun s => s.tables.clearCount) = some 1 := by
    decide +kernel
  obtain ⟨s, hs, hcount⟩ := Option.map_eq_some_iff.mp hclear
  exact ⟨s, hs, hcount, (host_wr_accounting ⟨oneFlowRun, hs⟩).1⟩

end Paraleon.Tuning.HostWr
