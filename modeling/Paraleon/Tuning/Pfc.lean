import Mathlib.Data.Rat.Defs
import Mathlib.Data.Set.Card
import Mathlib.Algebra.Order.Ring.Rat
import Mathlib.Algebra.Order.Field.Basic

/-!
# Pauses of links in a window

`pfc_handling` reads the trace of the PFC frames window by window. It carries the set of the
paused links, and the line where it goes on.

* `pfcHandling_iff`: exactly when the ratio of a window is that of the links that are paused
  at some time in it. The carried set is counted as if nothing had changed between the
  windows. Every line of the trace is handled once.
-/

namespace Paraleon.Tuning.Pfc

/-- The node and the interface. -/
abbrev Link := Int × Int

/-- A line of the trace. -/
structure Row where
  time : ℚ
  nodeId : Int
  ifIndex : Int
  pfcType : Int
deriving DecidableEq, Repr

namespace Row

def link (r : Row) : Link := (r.nodeId, r.ifIndex)

/-- `next_active_links_state` after a line. -/
def update (r : Row) (links : Finset Link) : Finset Link :=
  if r.pfcType = 20000 then insert r.link links
  else if r.pfcType = 10000 then links.erase r.link
  else links

end Row

/-- The variables of the loop. `handled` are the lines it has not broken at, for the proofs. -/
structure Scan where
  activeLinksThisRound : Finset Link
  nextActiveLinksState : Finset Link
  handled : List Nat

/-- The loop over the lines, with the line where it breaks. -/
def scan (start stop : ℚ) : Nat → List Row → Scan → Scan × Option Nat
  | _, [], s => (s, none)
  | index, r :: rows, s =>
    if r.time < start then
      scan start stop (index + 1) rows
        { s with nextActiveLinksState := r.update s.nextActiveLinksState
                 handled := s.handled ++ [index] }
    else if start ≤ r.time ∧ r.time ≤ stop then
      let thisRound := if r.link ∈ s.nextActiveLinksState then
        insert r.link s.activeLinksThisRound else s.activeLinksThisRound
      let thisRound := if r.pfcType = 20000 then insert r.link thisRound else thisRound
      scan start stop (index + 1) rows
        { activeLinksThisRound := thisRound
          nextActiveLinksState := r.update s.nextActiveLinksState
          handled := s.handled ++ [index] }
    else (s, some index)

/-- The arguments of a call. -/
structure Window where
  start : ℚ
  stop : ℚ
  le : start ≤ stop

/-- `pfc_start_line` and `pfc_active_links` -/
structure State where
  pfcStartLine : Nat
  pfcActiveLinks : Finset Link

def State.init : State := { pfcStartLine := 0, pfcActiveLinks := ∅ }

section calls

variable (data : List Row) (totalDirectedLinks : Nat)

def scanFrom (w : Window) (s : State) : Scan × Option Nat :=
  scan w.start w.stop s.pfcStartLine (data.drop s.pfcStartLine)
    { activeLinksThisRound := s.pfcActiveLinks, nextActiveLinksState := s.pfcActiveLinks,
      handled := [] }

/-- `pfc_handling`, with the ratio it returns and the new values of the globals. -/
def pfcHandling (w : Window) (s : State) : ℚ × State :=
  let (result, line) := scanFrom data w s
  let activeRatio :=
    if totalDirectedLinks = 0 then 0
    else (result.activeLinksThisRound.card : ℚ) / totalDirectedLinks
  (activeRatio, { pfcStartLine := line.getD data.length
                  pfcActiveLinks := result.nextActiveLinksState })

/-- The state after a sequence of calls. -/
def calls (ws : List Window) : State :=
  ws.foldl (fun s w => (pfcHandling data totalDirectedLinks w s).2) .init

/-- The lines that are handled in a sequence of calls, from a state. -/
def handledLines : List Window → State → List Nat
  | [], _ => []
  | w :: ws, s =>
    (scanFrom data w s).1.handled ++ handledLines ws (pfcHandling data totalDirectedLinks w s).2

end calls

/-! ## Pauses -/

/-- The links that are paused after some lines. -/
def replay (links : Finset Link) (rows : List Row) : Finset Link :=
  rows.foldl (fun links r => r.update links) links

/-- A line pauses the link by the time `t`, and `t` is not after the next line that resumes it. -/
def PausedAt (data : List Row) (t : ℚ) (link : Link) : Prop :=
  ∃ before r after, data = before ++ r :: after ∧ r.link = link ∧ r.pfcType = 20000 ∧
    r.time ≤ t ∧ ∀ r' ∈ after, r'.link = link → r'.pfcType = 10000 → t ≤ r'.time

/-- The link is paused at some instant of the window. -/
def PausedIn (data : List Row) (w : Window) (link : Link) : Prop :=
  ∃ t, w.start ≤ t ∧ t ≤ w.stop ∧ PausedAt data t link

/-- The lines up to the end of the last of some windows. -/
def consumed (data : List Row) (ws : List Window) : List Row :=
  data.filter fun r => ws.any fun w => r.time ≤ w.stop

def unread (data : List Row) (ws : List Window) : List Row :=
  data.filter fun r => ¬ ws.any fun w => r.time ≤ w.stop

/-- The lines between the last of `ws` and `w`. -/
def gap (data : List Row) (ws : List Window) (w : Window) : List Row :=
  (unread data ws).filter fun r => r.time < w.start

/-- The lines of the window `w` after the last of `ws`. -/
def inside (data : List Row) (ws : List Window) (w : Window) : List Row :=
  ((unread data ws).filter fun r => ¬ r.time < w.start).filter fun r => r.time ≤ w.stop

/-- Some line pauses the link or finds it paused. -/
def Seen (links : Finset Link) (rows : List Row) (link : Link) : Prop :=
  ∃ before r after, rows = before ++ r :: after ∧ r.link = link ∧
    (r.pfcType = 20000 ∨ link ∈ replay links before)

/-- Paused at the end of the last window, but neither when this one starts nor by a line of it. -/
def Stale (data : List Row) (ws : List Window) (w : Window) (link : Link) : Prop :=
  link ∈ replay ∅ (consumed data ws) ∧ ¬ PausedAt data w.start link ∧
    ¬ ∃ r ∈ inside data ws w, r.link = link ∧ r.pfcType = 20000

/-- Paused when this window starts, but not at the end of the last one, and no line shows it. -/
def Missed (data : List Row) (ws : List Window) (w : Window) (link : Link) : Prop :=
  PausedAt data w.start link ∧ link ∉ replay ∅ (consumed data ws) ∧
    ¬ Seen (replay ∅ (consumed data ws ++ gap data ws w)) (inside data ws w) link

/-! ## One call -/

variable {start stop : ℚ} {rows rest : List Row} {links : Finset Link} {link : Link}

theorem replay_append (rows rows' : List Row) :
    replay links (rows ++ rows') = replay (replay links rows) rows' :=
  List.foldl_append

theorem scan_gap (h : ∀ r ∈ rows, r.time < start) (index : Nat) (s : Scan) :
    scan start stop index (rows ++ rest) s =
      scan start stop (index + rows.length) rest
        { s with nextActiveLinksState := replay s.nextActiveLinksState rows
                 handled := s.handled ++ List.range' index rows.length } := by
  induction rows generalizing index s with
  | nil => simp [replay]
  | cons r rows ih =>
    obtain ⟨hr, hrows⟩ := List.forall_mem_cons.mp h
    have hlen : index + 1 + rows.length = index + (r :: rows).length := by
      rw [List.length_cons]
      omega
    rw [List.cons_append, scan, if_pos hr, ih hrows, hlen, List.length_cons, List.range'_succ,
      List.append_assoc]
    rfl

theorem scan_rest (h : ∀ r ∈ rest, stop < r.time) (hle : start ≤ stop) (index : Nat) (s : Scan) :
    scan start stop index rest s = (s, if rest = [] then none else some index) := by
  cases rest with
  | nil => rfl
  | cons r rest =>
    have hr := h r List.mem_cons_self
    rw [scan, if_neg (not_lt.mpr (hle.trans hr.le)), if_neg fun hin => not_lt.mpr hin.2 hr,
      if_neg (List.cons_ne_nil r rest)]

theorem seen_cons {r : Row} :
    Seen links (r :: rows) link ↔
      r.link = link ∧ (r.pfcType = 20000 ∨ link ∈ links) ∨ Seen (r.update links) rows link := by
  constructor
  · rintro ⟨before, r', after, heq, hlink, hseen⟩
    cases before with
    | nil =>
      cases heq
      exact .inl ⟨hlink, hseen⟩
    | cons r'' before =>
      cases heq
      exact .inr ⟨before, r', after, rfl, hlink, hseen⟩
  · rintro (⟨hlink, hseen⟩ | ⟨before, r', after, rfl, hlink, hseen⟩)
    · exact ⟨[], r, rows, rfl, hlink, hseen⟩
    · exact ⟨r :: before, r', after, rfl, hlink, hseen⟩

/-- The lines of the window add what they show to the set of the round. -/
theorem scan_inside (rest : List Row) (h : ∀ r ∈ rows, start ≤ r.time ∧ r.time ≤ stop) (index : Nat)
    (s : Scan) :
    ∃ thisRound : Finset Link,
      (∀ link, link ∈ thisRound ↔ link ∈ s.activeLinksThisRound ∨
        Seen s.nextActiveLinksState rows link) ∧
      scan start stop index (rows ++ rest) s =
        scan start stop (index + rows.length) rest
          { activeLinksThisRound := thisRound
            nextActiveLinksState := replay s.nextActiveLinksState rows
            handled := s.handled ++ List.range' index rows.length } := by
  induction rows generalizing index s with
  | nil => exact ⟨s.activeLinksThisRound, by simp [Seen], by simp [replay]⟩
  | cons r rows ih =>
    obtain ⟨hr, hrows⟩ := List.forall_mem_cons.mp h
    let first := if r.link ∈ s.nextActiveLinksState then
      insert r.link s.activeLinksThisRound else s.activeLinksThisRound
    let second := if r.pfcType = 20000 then insert r.link first else first
    -- a line shows its link if it is a pause, or if the link was active before
    have hsecond : ∀ link, link ∈ second ↔ link ∈ s.activeLinksThisRound ∨
        r.link = link ∧ (r.pfcType = 20000 ∨ link ∈ s.nextActiveLinksState) := by
      intro link
      rcases eq_or_ne link r.link with rfl | hlink
      · by_cases hpause : r.pfcType = 20000 <;>
          by_cases hmem : r.link ∈ s.nextActiveLinksState <;>
          simp [second, first, hpause, hmem]
      · simp only [second, first]
        split_ifs <;> simp [hlink, Ne.symm hlink]
    obtain ⟨thisRound, hmem, hscan⟩ := ih hrows (index + 1)
      { activeLinksThisRound := second
        nextActiveLinksState := r.update s.nextActiveLinksState
        handled := s.handled ++ [index] }
    refine ⟨thisRound, fun link => ?_, ?_⟩
    · rw [hmem, hsecond, seen_cons, or_assoc]
    · have hlen : index + 1 + rows.length = index + (r :: rows).length := by
        rw [List.length_cons]
        omega
      rw [List.cons_append, scan, if_neg (not_lt.mpr hr.1), if_pos hr]
      refine hscan.trans ?_
      rw [hlen, List.length_cons, List.range'_succ, List.append_assoc]
      rfl

/-! ## The lines of a sequence of calls -/

/-- In order of time, the lines with a property that earlier lines inherit come first. -/
theorem filter_append_filter_not {p : Row → Bool} {rows : List Row}
    (hrows : rows.Pairwise fun r r' => r.time ≤ r'.time)
    (hp : ∀ r r', r.time ≤ r'.time → p r' = true → p r = true) :
    rows.filter p ++ rows.filter (fun r => ¬ p r) = rows := by
  induction rows with
  | nil => rfl
  | cons r rows ih =>
    obtain ⟨hr, hrows⟩ := List.pairwise_cons.mp hrows
    by_cases hpr : p r = true
    · rw [List.filter_cons_of_pos hpr, List.filter_cons_of_neg (by simpa using hpr),
        List.cons_append, ih hrows]
    · have hnone : rows.filter p = [] :=
        List.filter_eq_nil_iff.mpr fun r' hr' hpr' => hpr (hp r r' (hr r' hr') hpr')
      have hall : rows.filter (fun r => ¬ p r) = rows :=
        List.filter_eq_self.mpr fun r' hr' => by
          simpa using fun hpr' => hpr (hp r r' (hr r' hr') hpr')
      rw [List.filter_cons_of_neg hpr, hnone, List.filter_cons_of_pos (by simpa using hpr), hall]
      rfl

theorem handledLines_append {data : List Row} (totalDirectedLinks : Nat) (ws ws' : List Window)
    (s : State) :
    handledLines data totalDirectedLinks (ws ++ ws') s =
      handledLines data totalDirectedLinks ws s ++
        handledLines data totalDirectedLinks ws'
          (ws.foldl (fun s w => (pfcHandling data totalDirectedLinks w s).2) s) := by
  induction ws generalizing s with
  | nil => rfl
  | cons w ws ih =>
    rw [List.cons_append, handledLines, ih, handledLines, List.append_assoc]
    rfl

section lines

variable {data : List Row} (hdata : data.Pairwise fun r r' => r.time ≤ r'.time)
  (ws : List Window) (w : Window)

/-- What follows a window. -/
def later (data : List Row) (ws : List Window) (w : Window) : List Row :=
  ((unread data ws).filter fun r => ¬ r.time < w.start).filter fun r => ¬ r.time ≤ w.stop

include hdata

theorem consumed_append_unread : consumed data ws ++ unread data ws = data := by
  refine filter_append_filter_not hdata fun r r' hle hr' => ?_
  obtain ⟨w, hw, hw'⟩ := List.any_eq_true.mp hr'
  exact List.any_eq_true.mpr ⟨w, hw, decide_eq_true (hle.trans (of_decide_eq_true hw'))⟩

theorem unread_split : unread data ws = gap data ws w ++ (inside data ws w ++ later data ws w) := by
  have hunread : (unread data ws).Pairwise fun r r' => r.time ≤ r'.time := hdata.filter _
  have hstart := filter_append_filter_not (p := fun r => r.time < w.start) hunread
    fun r r' hle hr' => decide_eq_true (hle.trans_lt (of_decide_eq_true hr'))
  have hstop := filter_append_filter_not (p := fun r => r.time ≤ w.stop)
    (hunread.filter fun r => ¬ r.time < w.start)
    fun r r' hle hr' => decide_eq_true (hle.trans (of_decide_eq_true hr'))
  simp only [decide_eq_true_eq] at hstart hstop
  rw [gap, inside, later, hstop, hstart]

/-- The lines up to the end of one window more. -/
theorem consumed_snoc :
    consumed data (ws ++ [w]) = consumed data ws ++ (gap data ws w ++ inside data ws w) := by
  have hsplit := consumed_append_unread hdata ws
  rw [unread_split hdata ws w, ← List.append_assoc (gap data ws w), ← List.append_assoc] at hsplit
  have hin : ∀ r ∈ consumed data ws ++ (gap data ws w ++ inside data ws w),
      ((ws ++ [w]).any fun w => r.time ≤ w.stop) = true := by
    intro r hr
    rw [List.any_append, Bool.or_eq_true]
    rcases List.mem_append.mp hr with hr | hr
    · exact .inl (List.mem_filter.mp hr).2
    · refine .inr ?_
      have hle : r.time ≤ w.stop := by
        rcases List.mem_append.mp hr with hr | hr
        · exact (of_decide_eq_true (List.mem_filter.mp hr).2).le.trans w.le
        · exact of_decide_eq_true (List.mem_filter.mp hr).2
      simpa using hle
  have hout : ∀ r ∈ later data ws w,
      ¬ ((ws ++ [w]).any fun w => r.time ≤ w.stop) = true := by
    intro r hr
    obtain ⟨hr', hstop⟩ := List.mem_filter.mp hr
    have hws := (List.mem_filter.mp (List.mem_filter.mp hr').1).2
    rw [List.any_append, Bool.or_eq_true]
    exact not_or.mpr ⟨of_decide_eq_true hws, by simpa using hstop⟩
  conv_lhs => rw [consumed, ← hsplit]
  rw [List.filter_append, List.filter_eq_self.mpr hin, List.filter_eq_nil_iff.mpr hout,
    List.append_nil]

/-- What a call does, from the state after the calls for `ws`. -/
theorem scanFrom_spec {s : State} (hline : s.pfcStartLine = (consumed data ws).length)
    (hlinks : s.pfcActiveLinks = replay ∅ (consumed data ws)) :
    ∃ thisRound : Finset Link,
      (∀ link, link ∈ thisRound ↔ link ∈ replay ∅ (consumed data ws) ∨
        Seen (replay ∅ (consumed data ws ++ gap data ws w)) (inside data ws w) link) ∧
      scanFrom data w s =
        ({ activeLinksThisRound := thisRound
           nextActiveLinksState := replay ∅ (consumed data (ws ++ [w]))
           handled := List.range' (consumed data ws).length
             (gap data ws w ++ inside data ws w).length },
          if later data ws w = [] then none else some (consumed data (ws ++ [w])).length) := by
  -- what is left of the data: the gap, the window and the rest
  have hdrop : data.drop s.pfcStartLine =
      gap data ws w ++ (inside data ws w ++ later data ws w) := by
    have hsplit := congrArg (List.drop (consumed data ws).length) (consumed_append_unread hdata ws)
    rw [List.drop_left] at hsplit
    rw [hline, ← hsplit, unread_split hdata ws w]
  have hgap : ∀ r ∈ gap data ws w, r.time < w.start := fun r hr =>
    of_decide_eq_true (List.mem_filter.mp hr).2
  have hinside : ∀ r ∈ inside data ws w, w.start ≤ r.time ∧ r.time ≤ w.stop := fun r hr => by
    obtain ⟨hr', hstop⟩ := List.mem_filter.mp hr
    exact ⟨not_lt.mp (of_decide_eq_true (List.mem_filter.mp hr').2), of_decide_eq_true hstop⟩
  have hlater : ∀ r ∈ later data ws w, w.stop < r.time := fun r hr =>
    not_le.mp (of_decide_eq_true (List.mem_filter.mp hr).2)
  obtain ⟨thisRound, hmem, hscan⟩ := scan_inside (later data ws w) hinside
    ((consumed data ws).length + (gap data ws w).length)
    { activeLinksThisRound := replay ∅ (consumed data ws)
      nextActiveLinksState := replay (replay ∅ (consumed data ws)) (gap data ws w)
      handled := [] ++ List.range' (consumed data ws).length (gap data ws w).length }
  refine ⟨thisRound, fun link => by rw [hmem, replay_append], ?_⟩
  rw [scanFrom, hdrop, scan_gap hgap, hline, hlinks]
  refine hscan.trans ?_
  have hlength : (consumed data ws ++ (gap data ws w ++ inside data ws w)).length =
      (consumed data ws).length + (gap data ws w).length + (inside data ws w).length := by
    simp [Nat.add_assoc]
  rw [scan_rest hlater w.le, List.nil_append, List.range'_append_1, ← List.length_append,
    ← replay_append, ← replay_append, consumed_snoc hdata, hlength]

variable (totalDirectedLinks : Nat)

theorem calls_spec :
    (calls data totalDirectedLinks ws).pfcStartLine = (consumed data ws).length ∧
      (calls data totalDirectedLinks ws).pfcActiveLinks = replay ∅ (consumed data ws) := by
  induction ws using List.reverseRecOn with
  | nil => simp [calls, State.init, consumed, replay]
  | append_singleton ws w ih =>
    obtain ⟨thisRound, -, hscan⟩ := scanFrom_spec hdata ws w ih.1 ih.2
    rw [calls, List.foldl_append, List.foldl_cons, List.foldl_nil, ← calls, pfcHandling, hscan]
    refine ⟨?_, rfl⟩
    dsimp only
    split
    · next hlater =>
      have hsplit := consumed_append_unread hdata ws
      rw [unread_split hdata ws w, hlater, List.append_nil] at hsplit
      rw [consumed_snoc hdata, hsplit]
      rfl
    · rfl

/-- The calls handle each line up to the end of the last window once, in order. -/
theorem handledLines_eq_range :
    handledLines data totalDirectedLinks ws .init = List.range (consumed data ws).length := by
  induction ws using List.reverseRecOn with
  | nil => simp [handledLines, consumed]
  | append_singleton ws w ih =>
    obtain ⟨hline, hlinks⟩ := calls_spec hdata ws totalDirectedLinks
    obtain ⟨thisRound, -, hscan⟩ := scanFrom_spec hdata ws w hline hlinks
    have hrange := List.range'_append_1 (s := 0) (m := (consumed data ws).length)
      (n := (gap data ws w ++ inside data ws w).length)
    rw [Nat.zero_add] at hrange
    have hlength : (consumed data (ws ++ [w])).length =
        (consumed data ws).length + (gap data ws w ++ inside data ws w).length := by
      rw [consumed_snoc hdata, List.length_append]
    rw [handledLines_append, ih, ← calls, handledLines, handledLines, hscan, List.append_nil,
      hlength, List.range_eq_range', List.range_eq_range']
    exact hrange

end lines

/-! ## What is counted and what is paused -/

/-- A paused link has a line that pauses it and no later one that resumes it. -/
theorem mem_replay {rows : List Row} {link : Link} (h : link ∈ replay ∅ rows) :
    ∃ before r after, rows = before ++ r :: after ∧ r.link = link ∧ r.pfcType = 20000 ∧
      ∀ r' ∈ after, r'.link = link → r'.pfcType ≠ 10000 := by
  induction rows using List.reverseRecOn with
  | nil => exact absurd h (Finset.notMem_empty link)
  | append_singleton rows r ih =>
    rw [replay_append] at h
    change link ∈ r.update (replay ∅ rows) at h
    by_cases hpause : r.pfcType = 20000 ∧ r.link = link
    · exact ⟨rows, r, [], rfl, hpause.2, hpause.1, fun r' hr' => absurd hr' List.not_mem_nil⟩
    · have hold : link ∈ replay ∅ rows ∧ (r.link = link → r.pfcType ≠ 10000) := by
        unfold Row.update at h
        split_ifs at h with h20000 h10000
        · have hne : link ≠ r.link := fun heq => hpause ⟨h20000, heq.symm⟩
          exact ⟨(Finset.mem_insert.mp h).resolve_left hne, fun heq => absurd heq.symm hne⟩
        · exact ⟨Finset.mem_of_mem_erase h, fun heq => absurd heq.symm (Finset.ne_of_mem_erase h)⟩
        · exact ⟨h, fun _ => h10000⟩
      obtain ⟨before, r₀, after, rfl, hlink, htype, hafter⟩ := ih hold.1
      refine ⟨before, r₀, after ++ [r], by simp, hlink, htype, fun r' hr' => ?_⟩
      rcases List.mem_append.mp hr' with hr' | hr'
      · exact hafter r' hr'
      · exact List.mem_singleton.mp hr' ▸ hold.2

/-- A line of the window that pauses a link shows it. -/
theorem seen_of_pause {rows : List Row} {links : Finset Link} {link : Link}
    (h : ∃ r ∈ rows, r.link = link ∧ r.pfcType = 20000) : Seen links rows link := by
  obtain ⟨r, hr, hlink, htype⟩ := h
  obtain ⟨before, after, heq⟩ := List.append_of_mem hr
  exact ⟨before, r, after, heq, hlink, .inl htype⟩

section counted

variable {data : List Row} (hdata : data.Pairwise fun r r' => r.time ≤ r'.time)
  {ws : List Window} {w : Window} {link : Link}

include hdata

/-- A link that pauses at a line of the trace is paused at that time. -/
theorem pausedAt_of_pause {r : Row} (hr : r ∈ data) (htype : r.pfcType = 20000) :
    PausedAt data r.time r.link := by
  obtain ⟨before, after, rfl⟩ := List.append_of_mem hr
  have hafter := (List.pairwise_cons.mp (List.pairwise_append.mp hdata).2.1).1
  exact ⟨before, r, after, rfl, rfl, htype, le_rfl, fun r' hr' _ _ => hafter r' hr'⟩

/-- A link that some line finds paused is paused at the time of that line. -/
theorem pausedAt_of_replay {before after : List Row} {r : Row}
    (hsplit : data = before ++ r :: after) (h : link ∈ replay ∅ before) :
    PausedAt data r.time link := by
  obtain ⟨before', r₀, between, rfl, hlink, htype, hbetween⟩ := mem_replay h
  subst hsplit
  obtain ⟨-, hright, hleft⟩ := List.pairwise_append.mp hdata
  refine ⟨before', r₀, between ++ r :: after, by simp, hlink, htype,
    hleft r₀ (by simp) r List.mem_cons_self, fun r' hr' hlink' htype' => ?_⟩
  rcases List.mem_append.mp hr' with hr' | hr'
  · exact absurd htype' (hbetween r' hr' hlink')
  · rcases List.mem_cons.mp hr' with rfl | hr'
    · exact le_rfl
    · exact (List.pairwise_cons.mp hright).1 r' hr'

theorem pausedIn_of_seen
    (h : Seen (replay ∅ (consumed data ws ++ gap data ws w)) (inside data ws w) link) :
    PausedIn data w link := by
  obtain ⟨before, r, after, heq, hlink, hseen⟩ := h
  have hr : r ∈ inside data ws w := heq ▸ List.mem_append_right before List.mem_cons_self
  obtain ⟨hr', hstop⟩ := List.mem_filter.mp hr
  obtain ⟨hunread, hstart⟩ := List.mem_filter.mp hr'
  refine ⟨r.time, not_lt.mp (of_decide_eq_true hstart), of_decide_eq_true hstop, ?_⟩
  rcases hseen with htype | hmem
  · exact hlink ▸ pausedAt_of_pause hdata (List.mem_filter.mp hunread).1 htype
  · rw [← replay_append] at hmem
    have hsplit := consumed_append_unread hdata ws
    rw [unread_split hdata ws w, heq] at hsplit
    have hdata' : data = (consumed data ws ++ gap data ws w ++ before) ++
        r :: (after ++ later data ws w) :=
      hsplit.symm.trans (by simp)
    exact pausedAt_of_replay hdata hdata' hmem

/-- The links that are paused in a window: when it starts, or by one of its lines. -/
theorem pausedIn_iff (hws : ∀ w' ∈ ws, w'.stop ≤ w.start) :
    PausedIn data w link ↔ PausedAt data w.start link ∨
      ∃ r ∈ inside data ws w, r.link = link ∧ r.pfcType = 20000 := by
  constructor
  · rintro ⟨t, hstart, hstop, before, r, after, heq, hlink, htype, hle, hafter⟩
    by_cases hr : r.time ≤ w.start
    · exact .inl ⟨before, r, after, heq, hlink, htype, hr,
        fun r' hr' hlink' htype' => hstart.trans (hafter r' hr' hlink' htype')⟩
    · have hnot : ¬ (ws.any fun w' => r.time ≤ w'.stop) = true := by
        intro hany
        obtain ⟨w', hw', hr'⟩ := List.any_eq_true.mp hany
        exact hr ((of_decide_eq_true hr').trans (hws w' hw'))
      have hmem : r ∈ data := heq ▸ List.mem_append_right before List.mem_cons_self
      refine .inr ⟨r, ?_, hlink, htype⟩
      refine List.mem_filter.mpr ⟨List.mem_filter.mpr ⟨List.mem_filter.mpr ⟨hmem, ?_⟩, ?_⟩, ?_⟩
      · exact decide_eq_true hnot
      · exact decide_eq_true (not_lt.mpr (not_le.mp hr).le)
      · exact decide_eq_true (hle.trans hstop)
  · rintro (hpaused | ⟨r, hr, rfl, htype⟩)
    · exact ⟨w.start, le_rfl, w.le, hpaused⟩
    · obtain ⟨hr', hstop⟩ := List.mem_filter.mp hr
      obtain ⟨hunread, hstart⟩ := List.mem_filter.mp hr'
      exact ⟨r.time, not_lt.mp (of_decide_eq_true hstart), of_decide_eq_true hstop,
        pausedAt_of_pause hdata (List.mem_filter.mp hunread).1 htype⟩

end counted

theorem finite_pausedIn (data : List Row) (w : Window) : {link | PausedIn data w link}.Finite := by
  refine (data.map Row.link).toFinset.finite_toSet.subset ?_
  rintro link ⟨t, -, -, before, r, after, rfl, rfl, -⟩
  simp

/-- Two finite sets have equally many elements when each has as many that the other lacks. -/
theorem ncard_eq_iff {α : Type} {s t : Set α} (hs : s.Finite) (ht : t.Finite) :
    s.ncard = t.ncard ↔ (s \ t).ncard = (t \ s).ncard := by
  have h := Set.ncard_inter_add_ncard_sdiff_eq_ncard s t hs
  have h' := Set.ncard_inter_add_ncard_sdiff_eq_ncard t s ht
  rw [Set.inter_comm] at h'
  omega

/-- The ratio of a window is that of the links that are paused in it exactly when as many
links are stale as are missed; and the calls handle every line once. -/
theorem pfcHandling_iff {data : List Row} (hdata : data.Pairwise fun r r' => r.time ≤ r'.time)
    (totalDirectedLinks : Nat) {ws : List Window} {w : Window}
    (hws : (ws ++ [w]).Pairwise fun w w' => w.stop ≤ w'.start) :
    ((pfcHandling data totalDirectedLinks w (calls data totalDirectedLinks ws)).1 =
        ({link | PausedIn data w link}.ncard : ℚ) / totalDirectedLinks ↔
      totalDirectedLinks = 0 ∨
        {link | Stale data ws w link}.ncard = {link | Missed data ws w link}.ncard) ∧
    handledLines data totalDirectedLinks (ws ++ [w]) .init =
      List.range (consumed data (ws ++ [w])).length := by
  refine ⟨?_, handledLines_eq_range hdata _ _⟩
  have hbefore : ∀ w' ∈ ws, w'.stop ≤ w.start := fun w' hw' =>
    (List.pairwise_append.mp hws).2.2 w' hw' w List.mem_cons_self
  obtain ⟨hline, hlinks⟩ := calls_spec hdata ws totalDirectedLinks
  obtain ⟨thisRound, hmem, hscan⟩ := scanFrom_spec hdata ws w hline hlinks
  -- what the round counts too many, and what it leaves out
  have hstale : (thisRound : Set Link) \ {link | PausedIn data w link} =
      {link | Stale data ws w link} := by
    ext link
    rw [Set.mem_sdiff, Finset.mem_coe, hmem, Set.mem_ofPred_eq, Set.mem_ofPred_eq, Stale,
      pausedIn_iff hdata hbefore, not_or]
    constructor
    · rintro ⟨hcarried | hseen, hnot⟩
      · exact ⟨hcarried, hnot⟩
      · exact absurd ((pausedIn_iff hdata hbefore).mp (pausedIn_of_seen hdata hseen))
          (not_or.mpr hnot)
    · exact fun ⟨hcarried, hnot⟩ => ⟨.inl hcarried, hnot⟩
  have hmissed : {link | PausedIn data w link} \ (thisRound : Set Link) =
      {link | Missed data ws w link} := by
    ext link
    rw [Set.mem_sdiff, Finset.mem_coe, hmem, Set.mem_ofPred_eq, Set.mem_ofPred_eq, Missed,
      pausedIn_iff hdata hbefore, not_or]
    constructor
    · rintro ⟨hpaused | hpause, hcarried, hseen⟩
      · exact ⟨hpaused, hcarried, hseen⟩
      · exact absurd (seen_of_pause hpause) hseen
    · exact fun ⟨hpaused, hnot⟩ => ⟨.inl hpaused, hnot⟩
  -- both sets are finite, so that their sizes agree when the two differences do
  have hcard := ncard_eq_iff thisRound.finite_toSet (finite_pausedIn data w)
  rw [hstale, hmissed, Set.ncard_coe_finset] at hcard
  rw [pfcHandling, hscan, ← hcard]
  dsimp only
  split
  · next hzero => simp [hzero]
  · next hzero =>
    have hne : (totalDirectedLinks : ℚ) ≠ 0 := by exact_mod_cast hzero
    rw [div_left_inj' hne, or_iff_right hzero]
    exact_mod_cast Iff.rfl

/-- A pause from 1 to 3. -/
def shortPause : List Row :=
  [{ time := 1, nodeId := 64, ifIndex := 1, pfcType := 20000 },
    { time := 3, nodeId := 64, ifIndex := 1, pfcType := 10000 }]

def firstWindow : Window := { start := 0, stop := 2, le := by decide +kernel }

/-- A window after the pause; the link resumes in the gap before it. -/
def secondWindow : Window := { start := 4, stop := 5, le := by decide +kernel }

theorem pfcHandling_iff_shortPause :
    handledLines shortPause 2 ([firstWindow] ++ [secondWindow]) .init =
      List.range (consumed shortPause ([firstWindow] ++ [secondWindow])).length :=
  have hdata : shortPause.Pairwise fun r r' => r.time ≤ r'.time := by decide +kernel
  (pfcHandling_iff hdata 2 (by decide +kernel)).2

theorem shortPause_counted :
    (pfcHandling shortPause 2 secondWindow (calls shortPause 2 [firstWindow])).1 = 1 / 2 ∧
      ({link | PausedIn shortPause secondWindow link}.ncard : ℚ) / (2 : Nat) = 0 := by
  refine ⟨by decide +kernel, ?_⟩
  have hnone : {link | PausedIn shortPause secondWindow link} = ∅ := by
    refine Set.eq_empty_of_forall_notMem fun link => ?_
    rintro ⟨t, hstart, -, before, r, after, heq, hlink, htype, -, hafter⟩
    match before with
    | [] =>
      cases heq
      have ht : t ≤ 3 := hafter _ List.mem_cons_self hlink rfl
      have hlt : (3 : ℚ) < 4 := by decide +kernel
      exact absurd (hstart.trans ht) (not_le.mpr hlt)
    | [_] =>
      cases heq
      cases htype
    | _ :: _ :: before => simp [shortPause] at heq
  rw [hnone, Set.ncard_empty, Nat.cast_zero, zero_div]

end Paraleon.Tuning.Pfc
