import Paraleon.Library.PyText
import Paraleon.Tuning.HostWr

/-!
# The reports of the hosts, as the tuner reads them

`monitor_host_flow_report` prints a line for each entry that it reports, and a summary.
`load_host_flow_report` reads the lines into a dictionary with a key for each host and queue
pair, and `classify_host_flow_progress` counts large and small flows, where the bytes of a flow
become visible in whole chunks.

* `load_prefix`: what is read from the beginning of a report.
* `hostReports_classified`: a whole report is read back, and flows that only advance are never
  taken for smaller ones.
* `load_exact_iff`: a report that is read while it is written is exact unless it ends inside the
  size of a flow.
-/

namespace Paraleon.Tuning.HostWr

open Numerals PyText

/-! ## The text of a report -/

/-- What `<<` prints for the seconds of the simulated time: a word that `float` reads. -/
structure TimeText (fl : ℚ → ℚ) where
  text : Text
  word : ∀ c ∈ text, PyText.isSpace c = false
  value : ℚ
  float_text : float fl text = some value

/-- The words of the line of an entry. -/
def lineFields (time : Text) (c : Cell) (l : Line) : List Text :=
  [time, "wr".toList, decimal c.1.toNat, decimal c.2.val, decimal l.qpnKey.toNat,
    decimal l.completedBytes, decimal l.flowSizeBytes]

def summaryFields (time : Text) (r : Report) : List Text :=
  [time, "wr_summary".toList, decimal r.activeEntryCount, decimal r.collisionCount,
    decimal r.clearCount]

/-- The entries of a report, for the hosts in the order of the map. -/
def entries (hosts : List UInt32) (r : Report) : List (Cell × Line) :=
  hosts.flatMap fun host => (List.finRange kHostWrTableSize).filterMap fun slot =>
    (r.lines (host, slot)).map fun l => ((host, slot), l)

def reportLines (time : Text) (hosts : List UInt32) (r : Report) : List Text :=
  (entries hosts r).map (fun e => fields (lineFields time e.1 e.2)) ++
    [fields (summaryFields time r)]

/-- What `monitor_host_flow_report` writes. -/
def reportText (time : Text) (hosts : List UInt32) (r : Report) : Text :=
  unlines (reportLines time hosts r)

/-! ## The reader -/

structure FlowProgress where
  progressBytes : Int
  flowSize : Int
deriving DecidableEq

/-- `current_time` and `current_flow_progress`. -/
structure Loaded where
  currentTime : Option ℚ
  progress : Dict FlowProgress

/-- The key of a flow, from the words of its host and its queue pair. -/
def flowId (host qpnKey : Text) : Text := host ++ '-' :: qpnKey

/-- The body of the loop over the lines. -/
def loadLine (fl : ℚ → ℚ) (acc : Loaded) (line : Text) : Option Loaded :=
  match split (PyText.strip line) with
  | [time, kind, _, _, _] =>
    if kind = "wr_summary".toList then
      (float fl time).map fun t => { acc with currentTime := some t }
    else some acc
  | [time, kind, host, _, qpnKey, progress, size] =>
    if kind = "wr".toList then
      (float fl time).bind fun t => (int progress).bind fun progressBytes =>
        (int size).map fun flowSize =>
          { currentTime := some t
            progress := acc.progress.set (flowId host qpnKey) { progressBytes, flowSize } }
    else some acc
  | _ => some acc

/-- `load_host_flow_report`; `none` is a `ValueError`. -/
def loadHostFlowReport (fl : ℚ → ℚ) (text : Text) : Option Loaded :=
  if text = [] then some { currentTime := none, progress := [] }
  else (fileLines text).foldlM (loadLine fl) { currentTime := none, progress := [] }

/-! ## Classification -/

/-- `compute_chunk_visible_size`; `chunk` is `HOST_FLOW_CHUNK_BYTES`. -/
def computeChunkVisibleSize (chunk progressBytes flowSize : Int) : Int :=
  if progressBytes ≤ 0 then 0
  else
    let alignedProgress := (progressBytes + chunk - 1) / chunk * chunk
    min flowSize alignedProgress

/-- The counts of `metadata`, with `current_ratio`; nothing is ever `potential`. -/
structure Classified where
  large : Nat
  small : Nat
  largeCount : Nat
  potentialLarge : Nat
  smallCount : Nat
  potentialEffective : Nat
  trueLargeCount : Nat
  trueSmallCount : Nat
deriving DecidableEq

/-- The body of the loop over the flows; `threshold` is `large_flow_threshold_bytes`. -/
def classifyFlow (chunk threshold : Int) (m : Classified) (p : FlowProgress) : Classified :=
  let m :=
    if threshold ≤ p.flowSize then { m with trueLargeCount := m.trueLargeCount + 1 }
    else { m with trueSmallCount := m.trueSmallCount + 1 }
  let visibleSize := computeChunkVisibleSize chunk p.progressBytes p.flowSize
  if threshold ≤ visibleSize then
    { m with largeCount := m.largeCount + 1, large := m.large + 1 }
  else { m with smallCount := m.smallCount + 1, small := m.small + 1 }

def classifyHostFlowProgress (chunk threshold : Int) (d : Dict FlowProgress) : Classified :=
  (d.map Prod.snd).foldl (classifyFlow chunk threshold)
    { large := 0, small := 0, largeCount := 0, potentialLarge := 0, smallCount := 0,
      potentialEffective := 0, trueLargeCount := 0, trueSmallCount := 0 }

/-! ## The lines of a report -/

/-- Each entry is in the slot of its key. -/
def Report.Placed (r : Report) : Prop :=
  ∀ c l, r.lines c = some l → c.2 = getHostWrSlot l.qpnKey

/-- The record of an entry. -/
def record (e : Cell × Line) : Text × FlowProgress :=
  (flowId (decimal e.1.1.toNat) (decimal e.2.qpnKey.toNat),
    { progressBytes := e.2.completedBytes, flowSize := e.2.flowSizeBytes })

variable {fl : ℚ → ℚ} {time : TimeText fl} {r : Report} {hosts : List UInt32}

theorem mem_entries {e : Cell × Line} :
    e ∈ entries hosts r ↔ e.1.1 ∈ hosts ∧ r.lines e.1 = some e.2 := by
  obtain ⟨⟨host, slot⟩, l⟩ := e
  simp only [entries, List.mem_flatMap, List.mem_filterMap, List.mem_finRange, true_and,
    Option.map_eq_some_iff, Prod.mk.injEq]
  constructor
  · rintro ⟨host, hhost, slot, l, hl, ⟨rfl, rfl⟩, rfl⟩
    exact ⟨hhost, hl⟩
  · rintro ⟨hhost, hl⟩
    exact ⟨host, hhost, slot, l, hl, ⟨rfl, rfl⟩, rfl⟩

theorem flowId_inj {a b a' b' : Nat}
    (h : flowId (decimal a) (decimal b) = flowId (decimal a') (decimal b')) : a = a' ∧ b = b' := by
  have hnot : ∀ n, ∀ c ∈ decimal n, (c == '-') = false := fun n c hc => by
    have hdigit := isDigit_of_mem_decimal hc
    rcases eq_or_ne c '-' with rfl | hne
    · simp [Char.isDigit] at hdigit
    · simpa using hne
  have hsplit := congrArg (List.splitOnP (· == '-')) h
  rw [flowId, flowId, List.splitOnP_append_cons_of_forall_mem (hnot a) '-' rfl,
    List.splitOnP_append_cons_of_forall_mem (hnot a') '-' rfl,
    List.splitOnP_eq_singleton (hnot b), List.splitOnP_eq_singleton (hnot b')] at hsplit
  obtain ⟨ha, hb⟩ := List.cons.inj hsplit
  have hnumber : ∀ {m n : Nat}, decimal m = decimal n → m = n := fun {m n} h => by
    rw [← number_decimal (n := m), h, number_decimal]
  exact ⟨hnumber ha, hnumber (List.cons.inj hb).1⟩

/-- A host has one entry for a key. -/
theorem entry_eq_of_flowId (hr : r.Placed) {e e' : Cell × Line} (he : e ∈ entries hosts r)
    (he' : e' ∈ entries hosts r) (h : (record e).1 = (record e').1) : e = e' := by
  obtain ⟨hhost, hkey⟩ := flowId_inj h
  have hl := (mem_entries.mp he).2
  have hl' := (mem_entries.mp he').2
  have hcell : e.1 = e'.1 := by
    refine Prod.ext (UInt32.toNat_inj.mp hhost) ?_
    rw [hr _ _ hl, hr _ _ hl', UInt64.toNat_inj.mp hkey]
  rw [← hcell, hl] at hl'
  exact Prod.ext hcell (Option.some.inj hl')

theorem nodup_entries (hhosts : hosts.Nodup) : (entries hosts r).Nodup := by
  have hslots : ∀ host, ((List.finRange kHostWrTableSize).filterMap fun slot =>
      (r.lines (host, slot)).map fun l => ((host, slot), l)).Nodup := by
    intro host
    refine (List.nodup_finRange _).filterMap fun slot slot' e he he' => ?_
    obtain ⟨l, _, rfl⟩ := Option.map_eq_some_iff.mp he
    obtain ⟨l', _, heq⟩ := Option.map_eq_some_iff.mp he'
    exact (congrArg (fun e : Cell × Line => e.1.2) heq).symm
  refine List.nodup_flatMap.mpr ⟨fun host _ => hslots host, hhosts.imp fun {a b} hab e he he' => ?_⟩
  obtain ⟨slot, _, hslot⟩ := List.mem_filterMap.mp he
  obtain ⟨slot', _, hslot'⟩ := List.mem_filterMap.mp he'
  obtain ⟨l, _, rfl⟩ := Option.map_eq_some_iff.mp hslot
  obtain ⟨l', _, heq⟩ := Option.map_eq_some_iff.mp hslot'
  exact hab (congrArg (fun e : Cell × Line => e.1.1) heq).symm

/-- No two records have one key. -/
theorem nodup_records (hr : r.Placed) (hhosts : hosts.Nodup) :
    ((entries hosts r).map fun e => (record e).1).Nodup :=
  (nodup_entries hhosts).map_on fun _ he _ he' h => entry_eq_of_flowId hr he he' h

theorem decimal_word (n : Nat) : decimal n ≠ [] ∧ ∀ c ∈ decimal n, PyText.isSpace c = false :=
  ⟨decimal_ne_nil, fun _ hc => PyText.not_isSpace_of_isDigit (isDigit_of_mem_decimal hc)⟩

theorem TimeText.isWord (time : TimeText fl) :
    time.text ≠ [] ∧ ∀ c ∈ time.text, PyText.isSpace c = false := by
  refine ⟨fun hnil => ?_, time.word⟩
  have hfloat := time.float_text
  rw [hnil] at hfloat
  cases hfloat

theorem words_lineFields (time : TimeText fl) (e : Cell × Line) :
    Words (lineFields time.text e.1 e.2) := by
  simp only [Words, lineFields, List.forall_mem_cons]
  exact ⟨time.isWord, by simp [PyText.isSpace], decimal_word _, decimal_word _, decimal_word _,
    decimal_word _, decimal_word _, nofun⟩

theorem words_summaryFields (time : TimeText fl) (r : Report) :
    Words (summaryFields time.text r) := by
  simp only [Words, summaryFields, List.forall_mem_cons]
  exact ⟨time.isWord, by simp [PyText.isSpace], decimal_word _, decimal_word _, decimal_word _,
    nofun⟩

/-! ## Reading a line -/

variable {acc : Loaded} {e : Cell × Line}

/-- The line of an entry up to the size of the flow. -/
def sizePrefix (time : Text) (e : Cell × Line) : Text :=
  (lineFields time e.1 e.2).dropLast.flatMap fun w => w ++ [' ']

theorem fields_lineFields (time : Text) (e : Cell × Line) :
    fields (lineFields time e.1 e.2) = sizePrefix time e ++ decimal e.2.flowSizeBytes :=
  fields_eq_flatMap ((lineFields time e.1 e.2).dropLast) _

/-- A line with digits where the size of the flow should be. -/
theorem loadLine_digits {cut : Text} (hne : cut ≠ []) (hdigits : ∀ c ∈ cut, c.isDigit = true) :
    loadLine fl acc (sizePrefix time.text e ++ cut) =
      some { currentTime := some time.value
             progress := acc.progress.set (record e).1
               { progressBytes := e.2.completedBytes, flowSize := number cut } } := by
  have hwords : Words (lineFields time.text e.1 e.2).dropLast := fun w hw =>
    words_lineFields time e w (List.dropLast_subset _ hw)
  have hsplit := split_cut hwords fun c hc => PyText.not_isSpace_of_isDigit (hdigits c hc)
  rw [if_neg hne] at hsplit
  rw [loadLine, split_strip, sizePrefix, hsplit]
  simp only [lineFields, List.dropLast, List.cons_append, List.nil_append, if_true,
    time.float_text, int_decimal, int_of_digits hne hdigits, Option.bind_some, Option.map_some]
  rfl

theorem loadLine_line : loadLine fl acc (fields (lineFields time.text e.1 e.2)) =
    some { currentTime := some time.value
           progress := acc.progress.set (record e).1 (record e).2 } := by
  rw [fields_lineFields, loadLine_digits decimal_ne_nil fun c hc => isDigit_of_mem_decimal hc,
    number_decimal]
  rfl

theorem loadLine_summary : loadLine fl acc (fields (summaryFields time.text r)) =
    some { acc with currentTime := some time.value } := by
  rw [loadLine, split_strip, split_fields (words_summaryFields time r)]
  simp only [summaryFields, if_true, time.float_text, Option.map_some]

/-- A line with other numbers of words, or with other words, is left out. -/
theorem loadLine_skip {line : Text} (hlen : (split line).length ≠ 7)
    (hkind : (split line).length = 5 → (split line)[1]? ≠ some "wr_summary".toList) :
    loadLine fl acc line = some acc := by
  unfold loadLine
  rw [split_strip]
  split
  · next kind _ _ _ heq =>
    rw [heq] at hkind
    rw [if_neg fun h => hkind rfl (congrArg some h)]
  · next heq =>
    rw [heq] at hlen
    exact absurd rfl hlen
  · rfl

/-- The part of a line of an entry: nothing is read, or a record whose size may be cut. -/
theorem loadLine_cut (acc : Loaded) {q : Text} (hq : q <+: fields (lineFields time.text e.1 e.2)) :
    loadLine fl acc q = some acc ∨ ∃ cut, cut ≠ [] ∧ cut <+: decimal e.2.flowSizeBytes ∧
      q = sizePrefix time.text e ++ cut := by
  obtain ⟨before, w, after, cut, hfields, hcut, rfl⟩ := prefix_fields (by simp [lineFields]) hq
  have hwords := words_lineFields time e
  rw [hfields] at hwords
  have hbefore : Words before := fun v hv => hwords v (List.mem_append_left _ hv)
  have hword := (hwords w (by simp)).2
  have hsplit := split_cut hbefore fun c hc => hword c (hcut.subset hc)
  have hlen := congrArg List.length hfields
  rw [List.length_append, List.length_cons] at hlen
  have hseven : (lineFields time.text e.1 e.2).length = 7 := rfl
  by_cases hsix : before.length = 6
  · -- the cut is behind the last blank
    have hparts : before = (lineFields time.text e.1 e.2).dropLast ∧
        w :: after = [decimal e.2.flowSizeBytes] := by
      refine List.append_inj ?_ (by rw [hsix]; rfl)
      rw [← hfields]
      rfl
    obtain ⟨rfl, hw⟩ := hparts
    obtain ⟨rfl, rfl⟩ := List.cons.inj hw
    by_cases hnil : cut = []
    · subst hnil
      have hlength := congrArg List.length hsplit
      rw [if_pos rfl, List.length_append, List.length_nil, hsix] at hlength
      refine .inl (loadLine_skip ?_ fun hfive => ?_)
      · rw [hlength]
        decide
      · rw [hlength] at hfive
        cases hfive
    · exact .inr ⟨cut, hnil, hcut, rfl⟩
  · left
    have hlength : (split (before.flatMap (fun w => w ++ [' ']) ++ cut)).length ≤
        before.length + 1 := by
      rw [hsplit, List.length_append]
      split <;> simp
    refine loadLine_skip (by omega) fun hfive => ?_
    have hsecond : before[1]? = some "wr".toList := by
      have hsame : (before ++ w :: after)[1]? = before[1]? :=
        List.getElem?_append_left (by omega)
      rw [← hsame, ← hfields]
      rfl
    rw [hsplit, List.getElem?_append_left (by omega), hsecond]
    decide

theorem loadLine_cut_summary (acc : Loaded) {q : Text}
    (hq : q <+: fields (summaryFields time.text r)) :
    ∃ t, loadLine fl acc q = some { acc with currentTime := t } := by
  obtain ⟨before, w, after, cut, hfields, hcut, rfl⟩ := prefix_fields (by simp [summaryFields]) hq
  have hwords := words_summaryFields time r
  rw [hfields] at hwords
  have hbefore : Words before := fun v hv => hwords v (List.mem_append_left _ hv)
  have hword := (hwords w (by simp)).2
  have hsplit := split_cut hbefore fun c hc => hword c (hcut.subset hc)
  have hlen := congrArg List.length hfields
  have hfive : (summaryFields time.text r).length = 5 := rfl
  rw [List.length_append, List.length_cons] at hlen
  unfold loadLine
  rw [split_strip]
  split
  · next head kind a b c heq =>
    split
    · -- the time is the first of at least four complete words
      rw [hsplit] at heq
      have hcount := congrArg List.length heq
      rw [List.length_append] at hcount
      have hlast : (if cut = [] then [] else [cut] : List Text).length ≤ 1 := by
        split <;> simp
      have hhead : head = time.text := by
        have hpos : 0 < before.length := by
          rw [List.length_cons, List.length_cons] at hcount
          omega
        have hfirst : before[0]? = some time.text := by
          have hsame : (before ++ w :: after)[0]? = before[0]? := List.getElem?_append_left hpos
          rw [← hsame, ← hfields]
          rfl
        have hsame := congrArg (fun l : List Text => l[0]?) heq
        rw [List.getElem?_append_left hpos, hfirst] at hsame
        exact (Option.some.inj hsame).symm
      exact ⟨some time.value, by rw [hhead, time.float_text, Option.map_some]⟩
    · exact ⟨acc.currentTime, rfl⟩
  · next heq =>
    have hcount := congrArg List.length (hsplit.symm.trans heq)
    rw [List.length_append] at hcount
    have hlast : (if cut = [] then [] else [cut] : List Text).length ≤ 1 := by
      split <;> simp
    simp only [List.length_cons, List.length_nil] at hcount
    omega
  · exact ⟨acc.currentTime, rfl⟩

/-! ## Reading a report, or its beginning -/

theorem not_mem_fields {ws : List Text} (hws : Words ws) :
    ∀ c ∈ fields ws, c ≠ '\n' ∧ c ≠ '\r' := by
  have hword : ∀ w ∈ ws, ∀ c ∈ w, c ≠ '\n' ∧ c ≠ '\r' := fun w hw c hc => by
    have hspace := (hws w hw).2 c hc
    constructor <;> rintro rfl <;> simp [PyText.isSpace] at hspace
  clear hws
  induction ws with
  | nil => nofun
  | cons w ws ih =>
    obtain ⟨hw, hrest⟩ := List.forall_mem_cons.mp hword
    by_cases hnil : ws = []
    · subst hnil
      exact hw
    · rw [fields_cons hnil]
      intro c hc
      rcases List.mem_append.mp hc with hc | hc
      · exact hw c hc
      · rcases List.mem_cons.mp hc with rfl | hc
        · decide
        · exact ih hrest c hc

/-- Entries that are not there yet are read one after the other. -/
theorem foldlM_loadLine (time : TimeText fl) (es : List (Cell × Line)) (t : Option ℚ)
    (d : Dict FlowProgress) (hnodup : (d.map Prod.fst ++ es.map fun e => (record e).1).Nodup) :
    ∃ t', (es.map fun e => fields (lineFields time.text e.1 e.2)).foldlM (loadLine fl)
      { currentTime := t, progress := d } =
        some { currentTime := t', progress := d ++ es.map record } := by
  induction es generalizing t d with
  | nil => exact ⟨t, by simp⟩
  | cons e es ih =>
    have hnew : ∀ x ∈ d, x.1 ≠ (record e).1 := fun x hx =>
      (List.nodup_append.mp hnodup).2.2 x.1 (List.mem_map_of_mem hx) _ List.mem_cons_self
    have hset := Dict.set_new hnew (record e).2
    obtain ⟨t', hrest⟩ := ih (some time.value) (d ++ [record e]) (by simpa using hnodup)
    refine ⟨t', ?_⟩
    rw [List.map_cons, List.foldlM_cons, loadLine_line, Option.bind_eq_bind, Option.bind_some]
    dsimp only
    rw [hset, hrest, List.append_assoc]
    rfl

variable {text : Text}

/-- Complete lines of entries, and a part of one more line. -/
theorem load_lines (time : TimeText fl) {es : List (Cell × Line)}
    (hnodup : (es.map fun e => (record e).1).Nodup) {cut : Text}
    (hcut : ∀ c ∈ cut, c ≠ '\n' ∧ c ≠ '\r') :
    ∃ t, loadHostFlowReport fl
        (unlines (es.map fun e => fields (lineFields time.text e.1 e.2)) ++ cut) =
      loadLine fl { currentTime := t, progress := es.map record } cut := by
  have hlines : ∀ l ∈ es.map (fun e => fields (lineFields time.text e.1 e.2)),
      ∀ c ∈ l, c ≠ '\n' ∧ c ≠ '\r' := fun l hl => by
    obtain ⟨e, -, rfl⟩ := List.mem_map.mp hl
    exact not_mem_fields (words_lineFields time e)
  obtain ⟨t, hfold⟩ := foldlM_loadLine time es none [] (by simpa using hnodup)
  unfold loadHostFlowReport
  split
  · next hnil =>
    -- an empty file is not looked at, but has nothing that could be read
    obtain ⟨hnone, rfl⟩ := List.append_eq_nil_iff.mp hnil
    cases es with
    | nil => exact ⟨none, rfl⟩
    | cons e es => simp [unlines] at hnone
  · refine ⟨t, ?_⟩
    rw [fileLines_unlines hlines hcut, List.foldlM_append, hfold]
    simp [List.foldlM_cons]

/-- The lines before a cut: those of some entries, or all. -/
theorem lines_cases {lines rest : List Text}
    (h : reportLines time.text hosts r = lines ++ rest) :
    (∃ before after, entries hosts r = before ++ after ∧
        lines = before.map (fun e => fields (lineFields time.text e.1 e.2)) ∧
        rest = after.map (fun e => fields (lineFields time.text e.1 e.2)) ++
          [fields (summaryFields time.text r)]) ∨
      lines = reportLines time.text hosts r ∧ rest = [] := by
  rcases List.append_eq_append_iff.mp h with ⟨more, hlines, hlast⟩ | ⟨more, hmap, hrest⟩
  · cases more with
    | nil => exact .inl ⟨entries hosts r, [], (List.append_nil _).symm, by simpa using hlines,
        hlast.symm⟩
    | cons l more =>
      obtain ⟨-, hnil⟩ := List.cons.inj hlast
      obtain ⟨-, rfl⟩ := List.append_eq_nil_iff.mp hnil.symm
      exact .inr ⟨by rw [h, List.append_nil], rfl⟩
  · obtain ⟨before, after, hentries, hbefore, hafter⟩ := List.map_eq_append_iff.mp hmap
    exact .inl ⟨before, after, hentries, hbefore.symm, by rw [hrest, hafter]⟩

/-- The whole report. -/
theorem load_report (hnodup : ((entries hosts r).map fun e => (record e).1).Nodup) :
    loadHostFlowReport fl (reportText time.text hosts r) =
      some { currentTime := some time.value, progress := (entries hosts r).map record } := by
  have hlines : ∀ l ∈ reportLines time.text hosts r, ∀ c ∈ l, c ≠ '\n' ∧ c ≠ '\r' := by
    intro l hl
    rcases List.mem_append.mp hl with hl | hl
    · obtain ⟨e, -, rfl⟩ := List.mem_map.mp hl
      exact not_mem_fields (words_lineFields time e)
    · obtain rfl := List.mem_singleton.mp hl
      exact not_mem_fields (words_summaryFields time r)
  have hne : reportText time.text hosts r ≠ [] := by
    rw [reportText, reportLines, unlines_append]
    simp [unlines]
  obtain ⟨t, hfold⟩ := foldlM_loadLine time (entries hosts r) none [] (by simpa using hnodup)
  have hnone : ∀ c ∈ ([] : Text), c ≠ '\n' ∧ c ≠ '\r' :=
    fun _ hc => absurd hc List.not_mem_nil
  have hsplit := fileLines_unlines hlines hnone
  rw [List.append_nil] at hsplit
  rw [loadHostFlowReport, if_neg hne, reportText, hsplit, reportLines, List.foldlM_append,
    List.foldlM_append, hfold, Option.bind_eq_bind, Option.bind_some, List.foldlM_cons,
    loadLine_summary]
  rfl

/-- What is read of a prefix of a report: the records of some entries, and perhaps one more with
the digits of its size that are there. -/
theorem load_prefix (hr : r.Placed) (hhosts : hosts.Nodup)
    (h : text <+: reportText time.text hosts r) :
    ∃ before after t, entries hosts r = before ++ after ∧
      (loadHostFlowReport fl text = some { currentTime := t, progress := before.map record } ∨
        ∃ e after' cut, after = e :: after' ∧ cut ≠ [] ∧ cut <+: decimal e.2.flowSizeBytes ∧
          text = unlines (before.map fun e => fields (lineFields time.text e.1 e.2)) ++
            (sizePrefix time.text e ++ cut) ∧
          loadHostFlowReport fl text = some
            { currentTime := t
              progress := before.map record ++ [((record e).1,
                { progressBytes := e.2.completedBytes, flowSize := number cut })] }) := by
  have hnodup := nodup_records hr hhosts
  have hclean : ∀ c ∈ fields (summaryFields time.text r), c ≠ '\n' ∧ c ≠ '\r' :=
    not_mem_fields (words_summaryFields time r)
  obtain ⟨lines, rest, cut, hsplit, rfl, hcut⟩ := prefix_unlines h
  rcases lines_cases hsplit with ⟨before, after, hentries, rfl, rfl⟩ | ⟨rfl, rfl⟩
  · rw [hentries, List.map_append] at hnodup
    have hbefore := (List.nodup_append.mp hnodup).1
    cases after with
    | nil =>
      -- the cut is in the summary
      have hcut' : cut <+: fields (summaryFields time.text r) := by
        rcases hcut with rfl | ⟨l, rest', hrest, hcut⟩
        · exact List.nil_prefix
        · obtain ⟨rfl, -⟩ := List.cons.inj hrest
          exact hcut
      obtain ⟨t, hload⟩ := load_lines time hbefore
        fun c hc => hclean c (hcut'.subset hc)
      obtain ⟨t', hsummary⟩ :=
        loadLine_cut_summary { currentTime := t, progress := before.map record } hcut'
      exact ⟨before, [], t', hentries, .inl (hload.trans hsummary)⟩
    | cons e after =>
      have hcut' : cut <+: fields (lineFields time.text e.1 e.2) := by
        rcases hcut with rfl | ⟨l, rest', hrest, hcut⟩
        · exact List.nil_prefix
        · obtain ⟨rfl, -⟩ := List.cons.inj hrest
          exact hcut
      obtain ⟨t, hload⟩ := load_lines time hbefore fun c hc =>
        not_mem_fields (words_lineFields time e) c (hcut'.subset hc)
      rcases loadLine_cut { currentTime := t, progress := before.map record } hcut' with
        hskip | ⟨digits, hne, hdigits, rfl⟩
      · exact ⟨before, e :: after, t, hentries, .inl (hload.trans hskip)⟩
      · have hnew : ∀ x ∈ before.map record, x.1 ≠ (record e).1 := fun x hx => by
          obtain ⟨e', he', rfl⟩ := List.mem_map.mp hx
          exact (List.nodup_append.mp hnodup).2.2 _ (List.mem_map_of_mem he') _ List.mem_cons_self
        refine ⟨before, e :: after, some time.value, hentries,
          .inr ⟨e, after, digits, rfl, hne, hdigits, rfl, ?_⟩⟩
        rw [hload, loadLine_digits hne fun c hc => isDigit_of_mem_decimal (hdigits.subset hc),
          Dict.set_new hnew]
  · -- the whole report
    have hnil : cut = [] := by
      rcases hcut with rfl | ⟨l, rest', hrest, -⟩
      · rfl
      · cases hrest
    rw [hnil, List.append_nil]
    exact ⟨entries hosts r, [], some time.value, (List.append_nil _).symm,
      .inl (load_report hnodup)⟩

/-! ## Visible sizes and classes -/

section Visible

variable {chunk threshold progress size : Int}

theorem visible_bounds (hchunk : 0 < chunk) (hprogress : 0 ≤ progress) (hsize : 0 ≤ size) :
    min progress size ≤ computeChunkVisibleSize chunk progress size ∧
      computeChunkVisibleSize chunk progress size ≤ progress + chunk - 1 ∧
      computeChunkVisibleSize chunk progress size ≤ size := by
  unfold computeChunkVisibleSize
  dsimp only
  split
  · omega
  · -- the chunks that are begun have all of the progress, and less than one chunk more
    have hquot := Int.mul_ediv_add_emod (progress + chunk - 1) chunk
    have hnonneg := Int.emod_nonneg (progress + chunk - 1) hchunk.ne'
    have hlt := Int.emod_lt_of_pos (progress + chunk - 1) hchunk
    rw [Int.mul_comm] at hquot
    omega

theorem visible_mono (hchunk : 0 < chunk) {progress' : Int} (hsize : 0 ≤ size)
    (h : progress ≤ progress') :
    computeChunkVisibleSize chunk progress size ≤ computeChunkVisibleSize chunk progress' size := by
  rcases le_or_gt progress 0 with hzero | hpos
  · have hvisible : computeChunkVisibleSize chunk progress size = 0 := if_pos hzero
    rw [hvisible]
    rcases le_or_gt progress' 0 with hzero' | hpos'
    · exact (if_pos hzero' : computeChunkVisibleSize chunk progress' size = 0).ge
    · have hbounds := (visible_bounds hchunk hpos'.le hsize).1
      omega
  · have hquot : (progress + chunk - 1) / chunk ≤ (progress' + chunk - 1) / chunk :=
      Int.ediv_le_ediv hchunk (by omega)
    have haligned := Int.mul_le_mul_of_nonneg_right hquot hchunk.le
    rw [computeChunkVisibleSize, if_neg hpos.not_ge, computeChunkVisibleSize,
      if_neg (hpos.trans_le h).not_ge]
    exact min_le_min_left size haligned

/-- One more flow: it is large or small, and truly large if it is large. -/
theorem classifyFlow_counts (threshold : Int) (hchunk : 0 < chunk) {p : FlowProgress}
    (hprogress : 0 ≤ p.progressBytes) (hsize : 0 ≤ p.flowSize) (m : Classified)
    (hlarge : m.largeCount ≤ m.trueLargeCount) :
    let m' := classifyFlow chunk threshold m p
    m'.largeCount ≤ m'.trueLargeCount ∧
      m'.largeCount + m'.smallCount = m.largeCount + m.smallCount + 1 ∧
      m'.trueLargeCount + m'.trueSmallCount = m.trueLargeCount + m.trueSmallCount + 1 := by
  have hle := (visible_bounds hchunk hprogress hsize).2.2
  unfold classifyFlow
  dsimp only
  split_ifs with htrue hvisible hvisible <;> dsimp only <;> omega

theorem classify_counts (hchunk : 0 < chunk) {d : Dict FlowProgress}
    (hd : ∀ x ∈ d, 0 ≤ x.2.progressBytes ∧ 0 ≤ x.2.flowSize) :
    let m := classifyHostFlowProgress chunk threshold d
    m.largeCount ≤ m.trueLargeCount ∧ m.largeCount + m.smallCount = d.length ∧
      m.trueLargeCount + m.trueSmallCount = d.length := by
  suffices h : ∀ (ps : List FlowProgress) (m : Classified),
      (∀ p ∈ ps, 0 ≤ p.progressBytes ∧ 0 ≤ p.flowSize) → m.largeCount ≤ m.trueLargeCount →
        let m' := ps.foldl (classifyFlow chunk threshold) m
        m'.largeCount ≤ m'.trueLargeCount ∧
          m'.largeCount + m'.smallCount = m.largeCount + m.smallCount + ps.length ∧
          m'.trueLargeCount + m'.trueSmallCount =
            m.trueLargeCount + m.trueSmallCount + ps.length by
    have hall := h (d.map Prod.snd)
      { large := 0, small := 0, largeCount := 0, potentialLarge := 0, smallCount := 0,
        potentialEffective := 0, trueLargeCount := 0, trueSmallCount := 0 }
      (fun p hp => by
        obtain ⟨x, hx, rfl⟩ := List.mem_map.mp hp
        exact hd x hx) le_rfl
    simp only [List.length_map, Nat.zero_add] at hall
    exact hall
  intro ps
  induction ps with
  | nil => exact fun m _ hle => ⟨hle, rfl, rfl⟩
  | cons p ps ih =>
    intro m hps hle
    obtain ⟨⟨hprogress, hsize⟩, hrest⟩ := List.forall_mem_cons.mp hps
    obtain ⟨hle', hcount, htrue⟩ := classifyFlow_counts threshold hchunk hprogress hsize m hle
    obtain ⟨hle'', hcount', htrue'⟩ := ih (classifyFlow chunk threshold m p) hrest hle'
    refine ⟨hle'', ?_, ?_⟩
    · rw [List.foldl_cons, hcount', hcount, List.length_cons]
      omega
    · rw [List.foldl_cons, htrue', htrue, List.length_cons]
      omega

end Visible

/-- In later reports a flow has the same size and no less progress. -/
def Advancing (reports : List Report) : Prop :=
  reports.Pairwise fun r r' => ∀ c c' l l', r.lines c = some l → r'.lines c' = some l' →
    c.1 = c'.1 → l.qpnKey = l'.qpnKey →
      l.completedBytes ≤ l'.completedBytes ∧ l.flowSizeBytes = l'.flowSizeBytes

/-- The reports of every run are so. -/
theorem placed_advancing_of_reachable {s : State} (h : Runs.Reachable step .init s) :
    (∀ r ∈ s.reports, r.Placed) ∧ Advancing s.reports := by
  have hinv : Inv s := h.invariant inv_init fun _ _ _ hs hstep => hs.step hstep
  have hplaced : ∀ r ∈ s.reports, r.Placed := fun r hr c l hl => by
    obtain ⟨f, -, rfl, bytes, -, rfl⟩ := hinv.lines r hr c l hl
    rfl
  refine ⟨hplaced,
    hinv.increasing.imp_of_mem fun {r r'} hr hr' hle c c' l l' hl hl' hhost hkey => ?_⟩
  have hcell : c = c' := by
    refine Prod.ext hhost ?_
    rw [hplaced r hr c l hl, hplaced r' hr' c' l' hl', hkey]
  subst hcell
  refine ⟨hle c l l' hl hl' hkey, ?_⟩
  obtain ⟨f, hf, hfcell, bytes, -, rfl⟩ := hinv.lines r hr c l hl
  obtain ⟨g, hg, hgcell, bytes', -, rfl⟩ := hinv.lines r' hr' c l' hl'
  obtain rfl : f = g := hinv.distinct.eq_of_cell hf hg (hfcell.trans hgcell.symm) hkey
  rfl

/-- What is read of a report of the hosts in some order. -/
def records (hr : List UInt32 × Report) : Dict FlowProgress := (entries hr.1 hr.2).map record

theorem record_nonneg {hr : List UInt32 × Report} {x : Text × FlowProgress} (hx : x ∈ records hr) :
    0 ≤ x.2.progressBytes ∧ 0 ≤ x.2.flowSize := by
  obtain ⟨e, -, rfl⟩ := List.mem_map.mp hx
  exact ⟨Int.natCast_nonneg _, Int.natCast_nonneg _⟩

/-- The reports of a run have one place for each flow, and flows only advance in them. A complete
report is read with one record for each entry. Whatever the size of the chunks and the
threshold, the visible size of a flow is between its progress and that of its last chunk, at
most its size, and does not decrease from report to report; no flow is taken for a larger one,
and each is counted once. -/
theorem hostReports_classified :
    (∀ s, Runs.Reachable step .init s → (∀ r ∈ s.reports, r.Placed) ∧ Advancing s.reports) ∧
    (∀ (fl : ℚ → ℚ) (time : TimeText fl) (hosts : List UInt32) (r : Report), hosts.Nodup →
      r.Placed → (∀ c l, r.lines c = some l → c.1 ∈ hosts) →
        loadHostFlowReport fl (reportText time.text hosts r) =
            some { currentTime := some time.value, progress := records (hosts, r) } ∧
          ((records (hosts, r)).map Prod.fst).Nodup ∧ (entries hosts r).Nodup ∧
          ∀ e, e ∈ entries hosts r ↔ r.lines e.1 = some e.2) ∧
    ∀ chunk threshold : Int, 0 < chunk → ∀ reports : List (List UInt32 × Report),
      Advancing (reports.map Prod.snd) →
        (∀ hr ∈ reports,
          (∀ x ∈ records hr,
            let visible := computeChunkVisibleSize chunk x.2.progressBytes x.2.flowSize
            min x.2.progressBytes x.2.flowSize ≤ visible ∧
              visible ≤ x.2.progressBytes + chunk - 1 ∧ visible ≤ x.2.flowSize) ∧
          let m := classifyHostFlowProgress chunk threshold (records hr)
          m.largeCount ≤ m.trueLargeCount ∧
            m.largeCount + m.smallCount = (records hr).length ∧
            m.trueLargeCount + m.trueSmallCount = (records hr).length) ∧
        reports.Pairwise fun hr hr' => ∀ x ∈ records hr, ∀ x' ∈ records hr', x.1 = x'.1 →
          let visible := computeChunkVisibleSize chunk x.2.progressBytes x.2.flowSize
          let visible' := computeChunkVisibleSize chunk x'.2.progressBytes x'.2.flowSize
          visible ≤ visible' ∧ (threshold ≤ visible → threshold ≤ visible') := by
  refine ⟨fun s h => placed_advancing_of_reachable h, fun fl time hosts r hhosts hr hall => ?_,
    fun chunk threshold hchunk reports hadv => ⟨fun hr hmem => ⟨fun x hx => ?_, ?_⟩, ?_⟩⟩
  · have hnodup := nodup_records hr hhosts
    refine ⟨load_report hnodup, ?_, nodup_entries hhosts, fun e => ?_⟩
    · rw [records, List.map_map]
      exact hnodup
    · rw [mem_entries]
      exact and_iff_right_of_imp fun hl => hall e.1 e.2 hl
  · obtain ⟨hprogress, hsize⟩ := record_nonneg hx
    exact visible_bounds hchunk hprogress hsize
  · exact classify_counts hchunk fun x hx => record_nonneg hx
  · refine (List.pairwise_map.mp hadv).imp fun {hr hr'} hle x hx x' hx' hkey => ?_
    obtain ⟨e, he, rfl⟩ := List.mem_map.mp hx
    obtain ⟨e', he', rfl⟩ := List.mem_map.mp hx'
    obtain ⟨hhost, hqpn⟩ := flowId_inj hkey
    obtain ⟨hprogress, hsize⟩ := hle e.1 e'.1 e.2 e'.2 (mem_entries.mp he).2 (mem_entries.mp he').2
      (UInt32.toNat_inj.mp hhost) (UInt64.toNat_inj.mp hqpn)
    have hvisible : computeChunkVisibleSize chunk (record e).2.progressBytes (record e).2.flowSize ≤
        computeChunkVisibleSize chunk (record e').2.progressBytes (record e').2.flowSize := by
      have hmono := visible_mono hchunk (record_nonneg hx).2 (Int.ofNat_le.mpr hprogress)
      change computeChunkVisibleSize chunk e.2.completedBytes e.2.flowSizeBytes ≤
        computeChunkVisibleSize chunk e'.2.completedBytes e'.2.flowSizeBytes
      rw [← hsize]
      exact hmono
    exact ⟨hvisible, fun hlarge => hlarge.trans hvisible⟩

/-! ## A report that is being written -/

/-- The text ends inside the size of a flow, of which it has only some digits. -/
def EndsInSize (time : Text) (hosts : List UInt32) (r : Report) (text : Text) : Prop :=
  ∃ before e after cut, entries hosts r = before ++ e :: after ∧ cut ≠ [] ∧
    cut <+: decimal e.2.flowSizeBytes ∧ cut ≠ decimal e.2.flowSizeBytes ∧
      text = unlines (before.map fun e => fields (lineFields time e.1 e.2)) ++
        (sizePrefix time e ++ cut)

/-- Every flow that is read has the progress and the size of its entry. -/
def ReadExactly (fl : ℚ → ℚ) (hosts : List UInt32) (r : Report) (text : Text) : Prop :=
  ∃ loaded, loadHostFlowReport fl text = some loaded ∧
    ∀ x ∈ loaded.progress, x ∈ records (hosts, r)

/-- A numeral without its last digits is another number. -/
theorem number_ne_of_prefix {n : Nat} {cut : Text} (hne : cut ≠ []) (hcut : cut <+: decimal n)
    (hproper : cut ≠ decimal n) : number cut ≠ n := by
  obtain ⟨rest, hrest⟩ := hcut
  have hrest' : rest ≠ [] := fun hnil => hproper (by rw [← hrest, hnil, List.append_nil])
  intro heq
  have hnumber : number (cut ++ rest) = n := by rw [hrest, number_decimal]
  rw [number_append, heq] at hnumber
  have hpow : 10 ≤ 10 ^ rest.length := by
    calc 10 = 10 ^ 1 := rfl
      _ ≤ 10 ^ rest.length := Nat.pow_le_pow_right (by decide) (List.length_pos_iff.mpr hrest')
  -- only zero is not changed, and it has one digit
  have hzero : n = 0 := by nlinarith
  have hone : (cut ++ rest).length = 1 := by rw [hrest, hzero]; rfl
  have hpos := List.length_pos_iff.mpr hne
  have hpos' := List.length_pos_iff.mpr hrest'
  rw [List.length_append] at hone
  omega

variable {fl : ℚ → ℚ} {time : TimeText fl} {hosts : List UInt32} {r : Report} {text : Text}

/-- A flow whose size is cut is read with another size. -/
theorem not_readExactly_of_endsInSize (hr : r.Placed) (hhosts : hosts.Nodup)
    (h : EndsInSize time.text hosts r text) : ¬ReadExactly fl hosts r text := by
  rintro ⟨loaded, hload, hexact⟩
  obtain ⟨before, e, after, cut, hentries, hne, hcut, hproper, rfl⟩ := h
  have hnodup := nodup_records hr hhosts
  rw [hentries, List.map_append] at hnodup
  have hdigits : ∀ c ∈ cut, c.isDigit = true :=
    fun c hc => isDigit_of_mem_decimal (hcut.subset hc)
  have hline : ∀ c ∈ sizePrefix time.text e ++ cut, c ≠ '\n' ∧ c ≠ '\r' := fun c hc => by
    refine not_mem_fields (words_lineFields time e) c ?_
    rw [fields_lineFields]
    exact ((List.prefix_append_right_inj _).mpr hcut).subset hc
  obtain ⟨t, hlines⟩ := load_lines time (List.nodup_append.mp hnodup).1 hline
  have hnew : ∀ x ∈ before.map record, x.1 ≠ (record e).1 := fun x hx => by
    obtain ⟨e', he', rfl⟩ := List.mem_map.mp hx
    exact (List.nodup_append.mp hnodup).2.2 _ (List.mem_map_of_mem he') _ List.mem_cons_self
  rw [hlines, loadLine_digits hne hdigits, Dict.set_new hnew] at hload
  cases hload
  -- the record that is read is none of the report's: the entry of its flow has another size
  have hread := hexact
    ((record e).1, { progressBytes := e.2.completedBytes, flowSize := number cut })
    (List.mem_append_right _ (List.mem_singleton.mpr rfl))
  obtain ⟨e', he', hrecord⟩ := List.mem_map.mp hread
  have hmem : e ∈ entries hosts r := hentries ▸ List.mem_append_right _ List.mem_cons_self
  have hkey : (record e').1 = (record e).1 := (Prod.ext_iff.mp hrecord).1
  obtain rfl := entry_eq_of_flowId hr he' hmem hkey
  have hsize : (e'.2.flowSizeBytes : Int) = number cut :=
    congrArg FlowProgress.flowSize (Prod.ext_iff.mp hrecord).2
  exact number_ne_of_prefix hne hcut hproper (Int.ofNat_inj.mp hsize).symm

/-- A report that is read while it is written is read exactly, unless it ends inside the size of
a flow. -/
theorem load_exact_iff (hr : r.Placed) (hhosts : hosts.Nodup)
    (h : text <+: reportText time.text hosts r) :
    ReadExactly fl hosts r text ↔ ¬EndsInSize time.text hosts r text := by
  constructor
  · exact fun hexact hcut => not_readExactly_of_endsInSize hr hhosts hcut hexact
  · intro hcut
    obtain ⟨before, after, t, hentries,
      hload | ⟨e, after', cut, rfl, hne, hprefix, htext, hload⟩⟩ :=
      load_prefix hr hhosts h
    · refine ⟨_, hload, fun x hx => ?_⟩
      rw [records, hentries, List.map_append]
      exact List.mem_append_left _ hx
    · have hwhole : cut = decimal e.2.flowSizeBytes := by
        by_contra hproper
        exact hcut ⟨before, e, after', cut, hentries, hne, hprefix, hproper, htext⟩
      refine ⟨_, hload, fun x hx => ?_⟩
      rw [records, hentries, List.map_append, List.map_cons]
      rw [hwhole, number_decimal] at hx
      rcases List.mem_append.mp hx with hx | hx
      · exact List.mem_append_left _ hx
      · rw [List.mem_singleton.mp hx]
        exact List.mem_append_right _ List.mem_cons_self

/-! ## A run in which the tuner reads too early -/

/-- Two seconds. -/
def exTime : TimeText id where
  text := ['2']
  word := by simp [PyText.isSpace]
  value := 2
  float_text := float_of_digits id (by simp) (by simp [Char.isDigit])

/-- A flow of a mebibyte and one of 800 bytes, at two hosts. -/
def twoFlows (completed completed' : Nat) : Report where
  lines c :=
    if c = (1, getHostWrSlot 5) then
      some { qpnKey := 5, completedBytes := completed, flowSizeBytes := 1048576 }
    else if c = (2, getHostWrSlot 6) then
      some { qpnKey := 6, completedBytes := completed', flowSizeBytes := 800 }
    else none
  activeEntryCount := 2
  collisionCount := 0
  clearCount := 0

theorem twoFlows_lines {p q : Nat} {c : Cell} {l : Line} (hl : (twoFlows p q).lines c = some l) :
    c = (1, getHostWrSlot 5) ∧
        l = { qpnKey := 5, completedBytes := p, flowSizeBytes := 1048576 } ∨
      c = (2, getHostWrSlot 6) ∧
        l = { qpnKey := 6, completedBytes := q, flowSizeBytes := 800 } := by
  rw [twoFlows] at hl
  dsimp only at hl
  split_ifs at hl with hfirst hsecond
  · exact .inl ⟨hfirst, (Option.some.inj hl).symm⟩
  · exact .inr ⟨hsecond, (Option.some.inj hl).symm⟩

theorem twoFlows_placed (p q : Nat) : (twoFlows p q).Placed := by
  intro c l hl
  obtain ⟨rfl, rfl⟩ | ⟨rfl, rfl⟩ := twoFlows_lines hl <;> rfl

theorem twoFlows_advancing {p q p' q' : Nat} (hp : p ≤ p') (hq : q ≤ q') :
    Advancing [twoFlows p q, twoFlows p' q'] := by
  refine List.pairwise_pair.mpr fun c c' l l' hl hl' hhost _ => ?_
  obtain ⟨rfl, rfl⟩ | ⟨rfl, rfl⟩ := twoFlows_lines hl <;>
    obtain ⟨rfl, rfl⟩ | ⟨rfl, rfl⟩ := twoFlows_lines hl'
  · exact ⟨hp, rfl⟩
  · exact absurd hhost (by decide)
  · exact absurd hhost (by decide)
  · exact ⟨hq, rfl⟩

/-- The first flow is large, and is taken for a small one until its last chunk begins. -/
theorem twoFlows_classified :
    (∀ r ∈ [twoFlows 1000 500, twoFlows 1000000 800],
      loadHostFlowReport id (reportText exTime.text [1, 2] r) =
        some { currentTime := some 2, progress := records ([1, 2], r) }) ∧
    (∀ hr ∈ [([1, 2], twoFlows 1000 500), ([1, 2], twoFlows 1000000 800)],
      let m := classifyHostFlowProgress 65536 1048576 (records hr)
      m.largeCount ≤ m.trueLargeCount ∧ m.largeCount + m.smallCount = (records hr).length) ∧
    (classifyHostFlowProgress 65536 1048576 (records ([1, 2], twoFlows 1000 500))).largeCount = 0 ∧
    (classifyHostFlowProgress 65536 1048576
      (records ([1, 2], twoFlows 1000000 800))).largeCount = 1 := by
  obtain ⟨-, hread, hclassify⟩ := hostReports_classified
  have hclassify := (hclassify 65536 1048576 (by decide)
    [([1, 2], twoFlows 1000 500), ([1, 2], twoFlows 1000000 800)]
    (twoFlows_advancing (by decide) (by decide))).1
  refine ⟨fun r hr => ?_, fun hr hmem => ?_, by decide +kernel, by decide +kernel⟩
  · obtain ⟨p, q, rfl⟩ : ∃ p q, r = twoFlows p q := by
      simp only [List.mem_cons, List.not_mem_nil, or_false] at hr
      rcases hr with rfl | rfl <;> exact ⟨_, _, rfl⟩
    have hlines : ∀ c l, (twoFlows p q).lines c = some l → c.1 ∈ [1, 2] := fun c l hl => by
      obtain ⟨rfl, -⟩ | ⟨rfl, -⟩ := twoFlows_lines hl <;> decide
    exact (hread id exTime [1, 2] _ (by decide) (twoFlows_placed p q) hlines).1
  · obtain ⟨-, hle, hcount, -⟩ := hclassify hr hmem
    exact ⟨hle, hcount⟩

/-- One flow of a mebibyte, of which a million bytes have arrived. -/
def exReport : Report where
  lines c :=
    if c = (1, getHostWrSlot 5) then
      some { qpnKey := 5, completedBytes := 1000000, flowSizeBytes := 1048576 }
    else none
  activeEntryCount := 1
  collisionCount := 0
  clearCount := 0

def exEntry : Cell × Line :=
  ((1, getHostWrSlot 5), { qpnKey := 5, completedBytes := 1000000, flowSizeBytes := 1048576 })

theorem exReport_placed : exReport.Placed := by
  intro c l hl
  obtain ⟨rfl, hl⟩ := Option.ite_none_right_eq_some.mp hl
  obtain rfl := Option.some.inj hl
  rfl

theorem exReport_entries : entries [1] exReport = [exEntry] := by
  decide +kernel

/-- Half of the digits of the size. -/
def exDigits : Text := ['1', '0', '4', '8']

theorem exDigits_isPrefixOf : exDigits <+: decimal exEntry.2.flowSizeBytes := by decide

/-- The report without the last digits of the size. -/
def exCut : Text := sizePrefix exTime.text exEntry ++ exDigits

theorem exCut_prefix : exCut <+: reportText exTime.text [1] exReport := by
  rw [reportText, reportLines, exReport_entries, unlines_append, List.map_singleton,
    fields_lineFields]
  have hline : exCut <+: sizePrefix exTime.text exEntry ++ decimal exEntry.2.flowSizeBytes :=
    (List.prefix_append_right_inj _).mpr exDigits_isPrefixOf
  rw [unlines, List.flatMap_singleton, List.append_assoc]
  exact hline.trans (List.prefix_append ..)

theorem exCut_endsInSize : EndsInSize exTime.text [1] exReport exCut :=
  ⟨[], exEntry, [], exDigits, exReport_entries, by decide, exDigits_isPrefixOf, by decide, rfl⟩

/-- A flow of 1048576 bytes is read as one of 1048. -/
theorem cut_report_misread :
    exReport.Placed ∧ exCut <+: reportText exTime.text [1] exReport ∧
      loadHostFlowReport id exCut = some
        { currentTime := some 2
          progress := [("1-5".toList, { progressBytes := 1000000, flowSize := 1048 })] } ∧
      ¬ReadExactly id [1] exReport exCut := by
  refine ⟨exReport_placed, exCut_prefix, ?_,
    not_readExactly_of_endsInSize exReport_placed (List.nodup_singleton _) exCut_endsInSize⟩
  have hclean : ∀ c ∈ exCut, c ≠ '\n' ∧ c ≠ '\r' := fun c hc => by
    refine not_mem_fields (words_lineFields exTime exEntry) c ?_
    rw [fields_lineFields]
    exact ((List.prefix_append_right_inj _).mpr exDigits_isPrefixOf).subset hc
  have hnone : (([] : List (Cell × Line)).map fun e => (record e).1).Nodup := List.nodup_nil
  obtain ⟨t, hlines⟩ := load_lines exTime hnone hclean
  have hne : exDigits ≠ [] := List.cons_ne_nil _ _
  have hdigits : ∀ c ∈ exDigits, c.isDigit = true := fun c hc =>
    isDigit_of_mem_decimal (exDigits_isPrefixOf.subset hc)
  have hline : loadLine id { currentTime := t, progress := [] }
      (sizePrefix exTime.text exEntry ++ exDigits) = some
        { currentTime := some 2
          progress := [("1-5".toList, { progressBytes := 1000000, flowSize := 1048 })] } :=
    (loadLine_digits hne hdigits).trans rfl
  exact hlines.trans hline

theorem exCut_exact_iff :
    ReadExactly id [1] exReport exCut ↔ ¬EndsInSize exTime.text [1] exReport exCut :=
  load_exact_iff exReport_placed (List.nodup_singleton _) exCut_prefix

end Paraleon.Tuning.HostWr
