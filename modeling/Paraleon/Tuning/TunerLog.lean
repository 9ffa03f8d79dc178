import Paraleon.Library.PyText
import Paraleon.Library.Streams
import Paraleon.Tuning.Parameters

/-!
# The log of the tuner

`log_cycle_summary` writes a block of five lines for each cycle, and `load_tuning_blocks` of the
analysis reads the blocks. A line is a name and groups of `name=value`; the writer puts more than
one group into one line, and the reader makes one dictionary of it.

* `parseScalar_format`: what is read of a value.
* `parseBlock_plain`: the strings that can be read.
-/

namespace Paraleon.Tuning.TunerLog

open Numerals Streams PyText

/-! ## Values -/

/-- A double, which may be no number. -/
inductive Double where
  | finite (x : ℚ)
  | inf (negative : Bool)
  | nan
deriving DecidableEq, Repr

/-- What is logged. -/
inductive LogValue where
  | bool (b : Bool)
  | int (n : Int)
  | float (d : Double)
  | str (s : Text)
deriving DecidableEq

def ofValue : Value → LogValue
  | .int n => .int n
  | .float x => .float (.finite x)

/-- `format_log_value` -/
def formatLogValue : LogValue → Text
  | .bool b => if b then "true".toList else "false".toList
  | .int n => (if n < 0 then ['-'] else []) ++ decimal n.natAbs
  | .float .nan => "nan".toList
  | .float (.inf negative) => if negative then "-inf".toList else "inf".toList
  | .float (.finite x) => ((fixed 6 x).rdropWhile (· = '0')).rdropWhile (· = '.')
  | .str s => s

/-- What `parse_scalar` can return. -/
inductive Scalar where
  | bool (b : Bool)
  | int (n : Int)
  | float (d : Double)
  | str (s : Text)
deriving DecidableEq

/-- A numeral; `fl` is the double nearest to a number. -/
def parseNumber (fl : ℚ → Double) (token : Text) : Option Scalar :=
  if token.any fun c => c = '.' || c = 'e' || c = 'E' then (float fl token).map Scalar.float
  else (int token).map Scalar.int

/-- `parse_scalar`; of the letters of `"true"` and `"false"`, `lower` only changes capitals. -/
def parseScalar (fl : ℚ → Double) (value : Text) : Scalar :=
  let token := PyText.strip value
  if token.map Char.toLower = "true".toList then .bool true
  else if token.map Char.toLower = "false".toList then .bool false
  else (parseNumber fl token).getD (.str token)

/-! ## The writer -/

/-- `key=value` -/
def item (key : Text) (value : LogValue) : Text := key ++ '=' :: formatLogValue value

def joinComma : List Text → Text := List.intercalate [',', ' ']

/-- `flow_ratio`; a key that is missing is `none`, as is a count that is `None`. -/
structure FlowRatio where
  large : Option Value
  small : Option Value
  largeCount : Option Value
  potentialLarge : Option Value
  smallCount : Option Value
  potentialEffective : Option Value

/-- `float` of a number; an integer that is too large raises an exception. -/
def toFloat (fl : ℚ → Double) : Value → Option ℚ
  | .int n =>
    match fl n with
    | .finite x => some x
    | _ => none
  | .float x => some x

structure Distribution where
  large : ℚ
  small : ℚ
  total : Double
  largeRatio : Double
  smallRatio : Double

/-- `x / total` if the total is positive, else 0. -/
def ratio (fl : ℚ → Double) (x : ℚ) : Double → Double
  | .finite total => if 0 < total then fl (x / total) else .finite 0
  | _ => .finite 0

/-- What `format_flow_distribution_line` computes of a flow ratio. -/
def distribution (fl : ℚ → Double) (r : FlowRatio) : Option Distribution :=
  (toFloat fl (r.large.getD (.int 0))).bind fun large =>
    (toFloat fl (r.small.getD (.int 0))).map fun small =>
      let total := fl (large + small)
      { large, small, total, largeRatio := ratio fl large total,
        smallRatio := ratio fl small total }

/-- The previous distribution, if there is one: `-1` stands for none. -/
def previousDistribution (fl : ℚ → Double) : Option FlowRatio → Option (Option Distribution)
  | some r =>
    if (r.small.getD (.int (-1))).toRat ≠ -1 then (distribution fl r).map some else some none
  | none => some none

/-- The parts of the line behind those of the current distribution. -/
def detailParts (r : FlowRatio) : List Text :=
  (r.largeCount.map fun v => item "large".toList (ofValue v)).toList ++
    (r.potentialLarge.map fun v => item "potential_large".toList (ofValue v)).toList ++
    (r.smallCount.map fun v => item "small".toList (ofValue v)).toList ++
    (r.potentialEffective.map fun v => item "potential_effective".toList (ofValue v)).toList

def flowDistributionLine (r : FlowRatio) (d : Distribution) (previous : Option Distribution)
    (klDivergence : Option Value) : Text :=
  joinComma <|
    ["flow_distribution: ".toList ++ joinComma
      [item "large".toList (.float (.finite d.large)),
        item "small".toList (.float (.finite d.small)),
        item "total".toList (.float d.total),
        item "large_ratio".toList (.float d.largeRatio),
        item "small_ratio".toList (.float d.smallRatio)]] ++
    (if r.largeCount.isSome || r.potentialLarge.isSome || r.smallCount.isSome then
      ["observed_distribution: ".toList ++ joinComma (detailParts r)] else []) ++
    (match previous with
      | some p => ["previous_distribution: ".toList ++ joinComma
          [item "large_ratio".toList (.float p.largeRatio),
            item "small_ratio".toList (.float p.smallRatio)]]
      | none => []) ++
    match klDivergence with
    | some v => [item "kl_divergence".toList (ofValue v)]
    | none => []

/-- `format_flow_distribution_line`; `none` is an exception. -/
def formatFlowDistributionLine (fl : ℚ → Double) (r : FlowRatio) (previous : Option FlowRatio)
    (klDivergence : Option Value) : Option Text :=
  (distribution fl r).bind fun d => (previousDistribution fl previous).map fun p =>
    flowDistributionLine r d p klDivergence

/-- A component of the utility: its normalised, raw and weighted value. -/
structure Component where
  norm : Value
  raw : Value
  weighted : Value

/-- `utility_breakdown`, as far as it is logged. -/
structure UtilityBreakdown where
  throughput : Component
  rtt : Component
  pfc : Component
  totalUtility : Value

def componentPart (name : Text) (u : Component) : Text :=
  item name (ofValue u.norm) ++ " (".toList ++ (item "raw".toList (ofValue u.raw) ++
    ", ".toList ++ item "weighted".toList (ofValue u.weighted)) ++ [')']

/-- `format_utility_line` -/
def formatUtilityLine (u : UtilityBreakdown) : Text :=
  "utility: ".toList ++ joinComma
    [componentPart "throughput_norm".toList u.throughput, componentPart "rtt_norm".toList u.rtt,
      componentPart "pfc_norm".toList u.pfc, item "total".toList (ofValue u.totalUtility)]

/-- `format_parameter_line` -/
def formatParameterLine (v : ParameterValues) : Text :=
  "parameters: ".toList ++
    joinComma (parameterNames.map fun name => item name.text (ofValue (v name)))

/-- The keys of `tuning_info` that are logged. -/
inductive TuningKey where
  | state
  | mode
  | triggerReason
  | tuningRoundIndex
  | tuningRound
  | temperature
  | candidateType
  | accepted
  | bestValue
deriving DecidableEq, Repr

/-- `ordered_fields` -/
def orderedFields : List TuningKey :=
  [.state, .mode, .triggerReason, .tuningRoundIndex, .tuningRound, .temperature, .candidateType,
    .accepted, .bestValue]

def TuningKey.label : TuningKey → Text
  | .state => "state".toList
  | .mode => "mode".toList
  | .triggerReason => "trigger".toList
  | .tuningRoundIndex => "session".toList
  | .tuningRound => "round".toList
  | .temperature => "temperature".toList
  | .candidateType => "candidate".toList
  | .accepted => "accepted".toList
  | .bestValue => "best_utility".toList

/-- A key that is missing, or whose value is `None`, is `none`. -/
abbrev TuningInfo := TuningKey → Option LogValue

def idle : LogValue := .str "idle".toList

/-- The labels and values of a tuning line. -/
def tuningFields (info : TuningInfo) : List (Text × LogValue) :=
  let fieldParts := orderedFields.filterMap fun key => (info key).map fun v => (key.label, v)
  if fieldParts = [] then [(TuningKey.state.label, idle)] else fieldParts

/-- `format_tuning_line` -/
def formatTuningLine : Option TuningInfo → Text
  | none => "tuning: ".toList ++ item TuningKey.state.label idle
  | some info =>
    "tuning: ".toList ++ joinComma ((tuningFields info).map fun e => item e.1 e.2)

/-- The arguments of `log_cycle_summary`. -/
structure Call where
  simTime : Value
  flowRatio : FlowRatio
  utilityBreakdown : UtilityBreakdown
  parameterValues : ParameterValues
  tuningInfo : Option TuningInfo
  previousFlowRatio : Option FlowRatio
  klDivergence : Option Value

/-- The lines of a block. -/
def blockLines (simTime : Value) (detailLines : List Text) : List Text :=
  item "sim_time".toList (ofValue simTime) :: detailLines.map ('\t' :: ·)

/-- `write_trace_block`: the lines, the end of the last one, and an empty line. -/
def writeTraceBlock (simTime : Value) (detailLines : List Text) : Text :=
  List.intercalate ['\n'] (blockLines simTime detailLines) ++ ['\n', '\n']

def logCycleSummary (fl : ℚ → Double) (c : Call) : Option Text :=
  (formatFlowDistributionLine fl c.flowRatio c.previousFlowRatio c.klDivergence).map fun line =>
    writeTraceBlock c.simTime
      [line, formatUtilityLine c.utilityBreakdown, formatParameterLine c.parameterValues,
        formatTuningLine c.tuningInfo]

/-- The log after some calls; `none` if one raises an exception. -/
def logText (fl : ℚ → Double) (calls : List Call) : Option Text :=
  (calls.mapM (logCycleSummary fl)).map List.flatten

/-! ## The reader -/

/-- The loop of `split_top_level_commas`, in parentheses of a depth, with the begun part. -/
def splitLoop : Text → Nat → Text → List Text
  | [], _, part => [PyText.strip part]
  | c :: text, depth, part =>
    if c = '(' then splitLoop text (depth + 1) (part ++ [c])
    else if c = ')' then splitLoop text (depth - 1) (part ++ [c])
    else if c = ',' ∧ depth = 0 then PyText.strip part :: splitLoop text depth []
    else splitLoop text depth (part ++ [c])

def splitTopLevelCommas (text : Text) : List Text := (splitLoop text 0 []).filter (· ≠ [])

/-- `text.split(c, 1)`, if there is a `c`. -/
def cut (c : Char) (text : Text) : Option (Text × Text) :=
  match text.span (· ≠ c) with
  | (_, []) => none
  | (before, _ :: after) => some (before, after)

/-- The body of the loop of `parse_key_value_line`. -/
def setKeyValue (fl : ℚ → Double) (values : Dict Scalar) (part : Text) : Dict Scalar :=
  match cut '=' part with
  | none => values
  | some (key, value) => values.set (PyText.strip key) (parseScalar fl value)

def parseKeyValueLine (fl : ℚ → Double) (text : Text) : Dict Scalar :=
  (splitTopLevelCommas text).foldl (setKeyValue fl) []

/-- What is behind a text that comes first. -/
def behind (first text : Text) : Option Text :=
  if first.isPrefixOf text then some (text.drop first.length) else none

/-- `\w`; `beyond` is what it is beyond ASCII. -/
def isWord (beyond : Char → Bool) (c : Char) : Bool :=
  if c.toNat < 128 then c.isAlphanum || c = '_' else beyond c

/-- The groups of a match of `UTILITY_SEGMENT_RE`. -/
structure UtilityMatch where
  name : Text
  norm : Text
  raw : Text
  weighted : Text

/-- `UTILITY_SEGMENT_RE.match` of a stripped text. No group can end anywhere but where the
character comes that ends it. -/
def utilityMatch (beyond : Char → Bool) (part : Text) : Option UtilityMatch :=
  (cut '=' part).bind fun (name, rest) =>
    let (norm, rest) := rest.span fun c => !PyText.isSpace c
    (behind " (raw=".toList rest).bind fun rest =>
      let (raw, rest) := rest.span (· ≠ ',')
      (behind ", weighted=".toList rest).bind fun rest =>
        let (weighted, rest) := rest.span (· ≠ ')')
        if name ≠ [] ∧ name.all (isWord beyond) ∧ norm ≠ [] ∧ raw ≠ [] ∧ weighted ≠ [] ∧
            rest = [')'] then
          some { name, norm, raw, weighted }
        else none

/-- `name.replace('_norm', '')` -/
def replaceNorm : Text → Text
  | '_' :: 'n' :: 'o' :: 'r' :: 'm' :: text => replaceNorm text
  | c :: text => c :: replaceNorm text
  | [] => []

/-- The body of the loop of `parse_utility_line`. -/
def setUtility (fl : ℚ → Double) (beyond : Char → Bool) (values : Dict Scalar) (part : Text) :
    Dict Scalar :=
  match utilityMatch beyond part with
  | some m =>
    let stem := if "_norm".toList.isSuffixOf m.name then replaceNorm m.name else m.name
    ((values.set m.name (parseScalar fl m.norm)).set (stem ++ "_raw".toList)
      (parseScalar fl m.raw)).set (stem ++ "_weighted".toList) (parseScalar fl m.weighted)
  | none => setKeyValue fl values part

def parseUtilityLine (fl : ℚ → Double) (beyond : Char → Bool) (text : Text) : Dict Scalar :=
  (splitTopLevelCommas text).foldl (setUtility fl beyond) []

inductive Entry where
  | scalar (s : Scalar)
  | dict (d : Dict Scalar)
deriving DecidableEq

abbrev Block := Dict Entry

/-- The body of the loop over the lines behind the first. -/
def setLine (fl : ℚ → Double) (beyond : Char → Bool) (block : Block) (line : Text) : Block :=
  match cut ':' (PyText.strip line) with
  | none => block
  | some (key, content) =>
    let content := PyText.strip content
    if key = "utility".toList then block.set key (.dict (parseUtilityLine fl beyond content))
    else block.set key (.dict (parseKeyValueLine fl content))

/-- `parse_block` -/
def parseBlock (fl : ℚ → Double) (beyond : Char → Bool) (blockText : Text) : Option Block :=
  let lines := ((splitlines blockText).filter fun line => PyText.strip line ≠ []).map
    fun line => line.rdropWhile PyText.isSpace
  match lines with
  | [] => none
  | first :: lines =>
    (cut '=' first).map fun (firstKey, firstValue) =>
      lines.foldl (setLine fl beyond) [(PyText.strip firstKey, .scalar (parseScalar fl firstValue))]

/-- `text.split('\n\n')`, with the begun part. -/
def splitBlocks : Text → Text → List Text
  | '\n' :: '\n' :: text, part => part :: splitBlocks text []
  | c :: text, part => splitBlocks text (part ++ [c])
  | [], part => [part]

/-- `load_tuning_blocks`; it does not return if there is no block. -/
def loadTuningBlocks (fl : ℚ → Double) (beyond : Char → Bool) (file : Text) :
    Option (List Block) :=
  let blocks := (splitBlocks (newlines file) []).filterMap (parseBlock fl beyond)
  if blocks = [] then none else some blocks

/-! ## What is read of a value -/

variable {fl : ℚ → Double} {beyond : Char → Bool} {s text : Text}

/-- What is read of the text of a value. -/
def shown (fl : ℚ → Double) : LogValue → Scalar
  | .bool b => .bool b
  | .int n => .int n
  | .float (.finite x) =>
    if fixedUnits 6 x % 10 ^ 6 = 0 then
      .int (if x < 0 then -((fixedUnits 6 x / 10 ^ 6 : Nat) : Int) else
        (fixedUnits 6 x / 10 ^ 6 : Nat))
    else .float (fl (fixedValue 6 x))
  | v => .str (formatLogValue v)

/-- A string that is read as it is: without white space at its ends or a line break, and neither
a truth value nor a numeral. -/
structure Plain (fl : ℚ → Double) (s : Text) : Prop where
  stripped : PyText.strip s = s
  unbroken : ∀ c ∈ s, isBreak c = false
  ne_true : s.map Char.toLower ≠ "true".toList
  ne_false : s.map Char.toLower ≠ "false".toList
  no_number : parseNumber fl s = none

theorem Plain.parseScalar (h : Plain fl s) : parseScalar fl s = .str s := by
  rw [TunerLog.parseScalar, h.stripped, if_neg h.ne_true, if_neg h.ne_false, h.no_number]
  rfl

/-- A string that is read is the stripped text, and is plain if that has no line break. -/
theorem plain_of_parseScalar (hbreak : ∀ c ∈ text, isBreak c = false)
    (h : parseScalar fl text = .str s) : Plain fl s := by
  have hnumber : ∀ t : Text, parseNumber fl t ≠ some (.str s) := by
    intro t ht
    unfold parseNumber at ht
    split at ht <;>
    · obtain ⟨_, -, heq⟩ := Option.map_eq_some_iff.mp ht
      cases heq
  unfold TunerLog.parseScalar at h
  dsimp only at h
  split at h
  · cases h
  · next htrue =>
    split at h
    · cases h
    · next hfalse =>
      cases hparse : parseNumber fl (PyText.strip text) with
      | some v =>
        rw [hparse, Option.getD_some] at h
        exact absurd (hparse.trans (congrArg some h)) (hnumber _)
      | none =>
        rw [hparse, Option.getD_none] at h
        cases h
        exact
          { stripped := strip_strip text
            unbroken := fun c hc => hbreak c (mem_of_mem_strip hc)
            ne_true := htrue
            ne_false := hfalse
            no_number := hparse }

/-- The text of a number has no white space and no letter. -/
theorem parseScalar_of_chars {v : Scalar} (hchars : ∀ c ∈ s, c.isDigit = true ∨ c = '-' ∨ c = '.')
    (hnumber : parseNumber fl s = some v) : parseScalar fl s = v := by
  have hword : ∀ c ∈ s, PyText.isSpace c = false := by
    intro c hc
    rcases hchars c hc with hdigit | rfl | rfl
    · exact PyText.not_isSpace_of_isDigit hdigit
    · rfl
    · rfl
  have hlower : s.map Char.toLower = s := by
    conv_rhs => rw [← List.map_id s]
    refine List.map_congr_left fun c hc => ?_
    have hsmall : ¬(c.val ≥ 'A'.val ∧ c.val ≤ 'Z'.val) := by
      rintro ⟨hge, -⟩
      rcases hchars c hc with hdigit | rfl | rfl
      · have hle : c.toNat ≤ 57 := (Char.isDigit_iff_toNat.mp hdigit).2
        exact absurd ((UInt32.le_iff_toNat_le.mp hge).trans hle) (by decide)
      · exact absurd hge (by decide)
      · exact absurd hge (by decide)
    exact dif_neg hsmall
  have hne : ∀ t : Text, 'e' ∈ t → s.map Char.toLower ≠ t := by
    rintro t ht rfl
    rw [hlower] at ht
    rcases hchars _ ht with hdigit | heq | heq
    · simp [Char.isDigit] at hdigit
    · cases heq
    · cases heq
  rw [TunerLog.parseScalar, strip_of_word hword, if_neg (hne _ (by decide)),
    if_neg (hne _ (by decide)), hnumber, Option.getD_some]

/-- Without a point and an exponent, a text is read by `int`. -/
theorem parseNumber_of_digits (hchars : ∀ c ∈ s, c.isDigit = true ∨ c = '-') :
    parseNumber fl s = (int s).map Scalar.int := by
  have hnone : s.any (fun c => c = '.' || c = 'e' || c = 'E') = false := by
    refine List.any_eq_false.mpr fun c hc => ?_
    rcases hchars c hc with hdigit | rfl
    · have hne : c ≠ '.' ∧ c ≠ 'e' ∧ c ≠ 'E' := by
        refine ⟨?_, ?_, ?_⟩ <;> rintro rfl <;> simp [Char.isDigit] at hdigit
      simp [hne]
    · decide
  rw [parseNumber, hnone]
  rfl

theorem parseScalar_trimmed (x : ℚ) :
    parseScalar fl (trimmed 6 x) = shown fl (.float (.finite x)) := by
  rw [shown]
  split
  · next hwhole =>
    obtain ⟨hchars, hint⟩ := int_trimmed (by decide) hwhole
    refine parseScalar_of_chars (fun c hc => (hchars c hc).imp_right .inl) ?_
    rw [parseNumber_of_digits hchars, hint]
    rfl
  · next hpart =>
    obtain ⟨hpoint, hchars, hfloat⟩ := float_trimmed fl (by decide) hpart
    refine parseScalar_of_chars (fun c hc => hchars c hc) ?_
    have hsome : (trimmed 6 x).any (fun c => c = '.' || c = 'e' || c = 'E') = true :=
      List.any_eq_true.mpr ⟨'.', hpoint, rfl⟩
    rw [parseNumber, hsome, if_pos rfl, hfloat]
    rfl

theorem trimmed_chars (x : ℚ) : ∀ c ∈ trimmed 6 x, c.isDigit = true ∨ c = '-' ∨ c = '.' := by
  intro c hc
  rcases eq_or_ne (fixedUnits 6 x % 10 ^ 6) 0 with hwhole | hpart
  · exact ((int_trimmed (by decide) hwhole).1 c hc).imp_right .inl
  · exact (float_trimmed id (by decide) hpart).2.1 c hc

theorem int_chars (n : Int) : ∀ c ∈ formatLogValue (.int n), c.isDigit = true ∨ c = '-' := by
  intro c hc
  rw [formatLogValue] at hc
  rcases List.mem_append.mp hc with hc | hc
  · split at hc
    · exact .inr (List.mem_singleton.mp hc)
    · cases hc
  · exact .inl (isDigit_of_mem_decimal hc)

theorem parseScalar_int (n : Int) : parseScalar fl (formatLogValue (.int n)) = .int n := by
  have hdigits : ∀ c ∈ decimal n.natAbs, c.isDigit = true := fun c hc => isDigit_of_mem_decimal hc
  have hchars := int_chars n
  refine parseScalar_of_chars (fun c hc => (hchars c hc).imp_right .inl) ?_
  have hread := int_signed (decide (n < 0)) decimal_ne_nil hdigits
  simp only [decide_eq_true_eq, number_decimal] at hread
  rw [parseNumber_of_digits hchars, formatLogValue, hread]
  have habs : (if n < 0 then -(n.natAbs : Int) else n.natAbs) = n := by
    split <;> omega
  rw [habs]
  rfl

/-- What can be written without being taken for something else. -/
def Readable (fl : ℚ → Double) (v : LogValue) : Prop := ∀ s, v = .str s → Plain fl s

/-- The text of a value is read as what is shown of it. -/
theorem parseScalar_format {v : LogValue} (hv : Readable fl v) :
    parseScalar fl (formatLogValue v) = shown fl v := by
  match v, hv with
  | .bool true, _ => rfl
  | .bool false, _ => rfl
  | .int n, _ => exact parseScalar_int n
  | .float (.finite x), _ => exact parseScalar_trimmed x
  | .float .nan, _ => rfl
  | .float (.inf true), _ => rfl
  | .float (.inf false), _ => rfl
  | .str s, hv => exact (hv s rfl).parseScalar

/-! ## The strings that can be read -/

def Unbroken (text : Text) : Prop := ∀ c ∈ text, isBreak c = false

/-- A value that is a plain string, or none. -/
def PlainScalar (fl : ℚ → Double) (v : Scalar) : Prop := ∀ s, v = .str s → Plain fl s

def PlainDict (fl : ℚ → Double) (d : Dict Scalar) : Prop := ∀ e ∈ d, PlainScalar fl e.2

theorem Unbroken.plain (h : Unbroken text) : PlainScalar fl (parseScalar fl text) :=
  fun _ hs => plain_of_parseScalar h hs

theorem PlainDict.set {d : Dict Scalar} (hd : PlainDict fl d) {key : Text} {v : Scalar}
    (hv : PlainScalar fl v) : PlainDict fl (d.set key v) := by
  intro e he
  rcases Dict.mem_set he with he | rfl
  · exact hd e he
  · exact hv

/-- The text of what is no string has no character that separates anything. -/
theorem format_chars {v : LogValue} (hv : ∀ s, v ≠ .str s) : ∀ c ∈ formatLogValue v,
    PyText.isSpace c = false ∧ isBreak c = false ∧ c ≠ '(' ∧ c ≠ ')' ∧ c ≠ ',' := by
  have hnumber : ∀ {t : Text}, (∀ c ∈ t, c.isDigit = true ∨ c = '-' ∨ c = '.') → ∀ c ∈ t,
      PyText.isSpace c = false ∧ isBreak c = false ∧ c ≠ '(' ∧ c ≠ ')' ∧ c ≠ ',' := by
    intro t ht c hc
    rcases ht c hc with hdigit | rfl | rfl
    · refine ⟨PyText.not_isSpace_of_isDigit hdigit, not_isBreak_of_isDigit hdigit, ?_, ?_, ?_⟩ <;>
        rintro rfl <;> simp [Char.isDigit] at hdigit
    · decide
    · decide
  match v with
  | .bool true => exact List.all_iff_forall_prop.mp (by decide)
  | .bool false => exact List.all_iff_forall_prop.mp (by decide)
  | .int n => exact hnumber fun c hc => (int_chars n c hc).imp_right .inl
  | .float (.finite x) => exact hnumber (trimmed_chars x)
  | .float .nan => exact List.all_iff_forall_prop.mp (by decide)
  | .float (.inf true) => exact List.all_iff_forall_prop.mp (by decide)
  | .float (.inf false) => exact List.all_iff_forall_prop.mp (by decide)
  | .str s => exact absurd rfl (hv s)

theorem cut_eq_some {c : Char} {before after : Text} (h : cut c text = some (before, after)) :
    text = before ++ c :: after := by
  unfold cut at h
  rw [List.span_eq_takeWhile_dropWhile] at h
  have hsplit := List.takeWhile_append_dropWhile (p := fun d => decide (d ≠ c)) (l := text)
  split at h
  · cases h
  · next before' d after' heq =>
    obtain ⟨hbefore, hafter⟩ := Prod.mk.inj heq
    obtain ⟨rfl, rfl⟩ := Prod.mk.inj (Option.some.inj h)
    have hd := List.head?_dropWhile_not (fun d => decide (d ≠ c)) text
    rw [hafter] at hd
    have hdc : d = c := by simpa using hd
    rw [hbefore, hafter, hdc] at hsplit
    exact hsplit.symm

theorem setKeyValue_plain {d : Dict Scalar} (hd : PlainDict fl d) {part : Text}
    (hpart : Unbroken part) : PlainDict fl (setKeyValue fl d part) := by
  unfold setKeyValue
  split
  · exact hd
  · next key value heq =>
    have hvalue : Unbroken value := fun c hc => hpart c (by rw [cut_eq_some heq]; simp [hc])
    exact hd.set hvalue.plain

theorem mem_of_mem_splitLoop {depth : Nat} {begun part : Text}
    (h : part ∈ splitLoop text depth begun) {c : Char} (hc : c ∈ part) : c ∈ begun ++ text := by
  induction text generalizing depth begun with
  | nil =>
    obtain rfl := List.mem_singleton.mp h
    exact List.mem_append_left _ (mem_of_mem_strip hc)
  | cons d text ih =>
    rw [splitLoop] at h
    split_ifs at h with hopen hclose hcomma
    · simpa using ih h
    · simpa using ih h
    · rcases List.mem_cons.mp h with rfl | h
      · exact List.mem_append_left _ (mem_of_mem_strip hc)
      · exact List.mem_append_right _ (List.mem_cons_of_mem d (ih h))
    · simpa using ih h

theorem unbroken_of_mem_split (h : Unbroken text) {part : Text}
    (hpart : part ∈ splitTopLevelCommas text) : Unbroken part := fun c hc => by
  have hmem := mem_of_mem_splitLoop (List.mem_filter.mp hpart).1 hc
  exact h c (by simpa using hmem)

/-- A dictionary that is made of the parts of a line. -/
theorem foldl_plain {set : Dict Scalar → Text → Dict Scalar}
    (hset : ∀ d part, PlainDict fl d → Unbroken part → PlainDict fl (set d part))
    (h : Unbroken text) : PlainDict fl ((splitTopLevelCommas text).foldl set []) :=
  List.foldlRecOn (motive := PlainDict fl) _ set nofun fun d hd part hpart =>
    hset d part hd (unbroken_of_mem_split h hpart)

theorem mem_of_behind {first rest : Text} (h : behind first text = some rest) {c : Char}
    (hc : c ∈ rest) : c ∈ text := by
  obtain ⟨-, heq⟩ := Option.ite_none_right_eq_some.mp h
  cases heq
  exact List.mem_of_mem_drop hc

theorem utilityMatch_mem {part : Text} {m : UtilityMatch} (h : utilityMatch beyond part = some m) :
    ∀ c, c ∈ m.norm ∨ c ∈ m.raw ∨ c ∈ m.weighted → c ∈ part := by
  simp only [utilityMatch, List.span_eq_takeWhile_dropWhile] at h
  obtain ⟨⟨name, rest⟩, hcut, h⟩ := Option.bind_eq_some_iff.mp h
  obtain ⟨rest₁, hraw, h⟩ := Option.bind_eq_some_iff.mp h
  obtain ⟨rest₂, hweighted, h⟩ := Option.bind_eq_some_iff.mp h
  obtain ⟨-, heq⟩ := Option.ite_none_right_eq_some.mp h
  cases heq
  have hrest : ∀ c ∈ rest, c ∈ part := fun c hc => by
    rw [cut_eq_some hcut]
    exact List.mem_append_right _ (List.mem_cons_of_mem _ hc)
  have hrest₁ : ∀ c ∈ rest₁, c ∈ rest := fun c hc =>
    (List.dropWhile_suffix _).subset (mem_of_behind hraw hc)
  have hrest₂ : ∀ c ∈ rest₂, c ∈ rest₁ := fun c hc =>
    (List.dropWhile_suffix _).subset (mem_of_behind hweighted hc)
  rintro c (hc | hc | hc)
  · exact hrest c ((List.takeWhile_prefix _).subset hc)
  · exact hrest c (hrest₁ c ((List.takeWhile_prefix _).subset hc))
  · exact hrest c (hrest₁ c (hrest₂ c ((List.takeWhile_prefix _).subset hc)))

theorem setUtility_plain {d : Dict Scalar} (hd : PlainDict fl d) {part : Text}
    (hpart : Unbroken part) : PlainDict fl (setUtility fl beyond d part) := by
  unfold setUtility
  split
  · next m hm =>
    have hmem := utilityMatch_mem hm
    have hnorm : Unbroken m.norm := fun c hc => hpart c (hmem c (.inl hc))
    have hraw : Unbroken m.raw := fun c hc => hpart c (hmem c (.inr (.inl hc)))
    have hweighted : Unbroken m.weighted := fun c hc => hpart c (hmem c (.inr (.inr hc)))
    exact ((hd.set hnorm.plain).set hraw.plain).set hweighted.plain
  · exact setKeyValue_plain hd hpart

def PlainBlock (fl : ℚ → Double) (block : Block) : Prop :=
  ∀ e ∈ block, ∀ d, e.2 = .dict d → PlainDict fl d

theorem setLine_plain {block : Block} (hblock : PlainBlock fl block) {line : Text}
    (hline : Unbroken line) : PlainBlock fl (setLine fl beyond block line) := by
  unfold setLine
  split
  · exact hblock
  · next key content heq =>
    have hcontent : Unbroken (PyText.strip content) := fun c hc => by
      refine hline c (mem_of_mem_strip ?_)
      rw [cut_eq_some heq]
      exact List.mem_append_right _ (List.mem_cons_of_mem _ (mem_of_mem_strip hc))
    dsimp only
    split
    all_goals
      intro e he d hd
      rcases Dict.mem_set he with he | rfl
      · exact hblock e he d hd
      · cases hd
        first
        | exact foldl_plain (fun _ _ hd hpart => setUtility_plain hd hpart) hcontent
        | exact foldl_plain (fun _ _ hd hpart => setKeyValue_plain hd hpart) hcontent

/-- Every string of a block that is read is plain. -/
theorem parseBlock_plain {blockText : Text} {block : Block}
    (h : parseBlock fl beyond blockText = some block) : PlainBlock fl block := by
  unfold parseBlock at h
  obtain ⟨lines, hlines⟩ : ∃ lines, lines = ((splitlines blockText).filter
    fun line => PyText.strip line ≠ []).map fun line => line.rdropWhile PyText.isSpace := ⟨_, rfl⟩
  have hunbroken : ∀ line ∈ lines, Unbroken line := by
    intro line hline c hc
    rw [hlines] at hline
    obtain ⟨line', hline', rfl⟩ := List.mem_map.mp hline
    exact (forall_mem_splitOnP line' (List.mem_filter.mp hline').1 c
      ((List.rdropWhile_prefix _ _).subset hc)).2
  rw [← hlines] at h
  cases lines with
  | nil => cases h
  | cons first lines =>
    obtain ⟨⟨firstKey, firstValue⟩, -, rfl⟩ := Option.map_eq_some_iff.mp h
    obtain ⟨-, hrest⟩ := List.forall_mem_cons.mp hunbroken
    have hstart : PlainBlock fl
        [(PyText.strip firstKey, .scalar (TunerLog.parseScalar fl firstValue))] := by
      intro e he d hd
      obtain rfl := List.mem_singleton.mp he
      cases hd
    exact List.foldlRecOn (motive := PlainBlock fl) lines _ hstart fun block hblock line hline =>
      setLine_plain hblock (hrest line hline)

end Paraleon.Tuning.TunerLog
