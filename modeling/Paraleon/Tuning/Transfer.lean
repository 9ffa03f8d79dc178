import Mathlib.Data.Char
import Mathlib.Data.List.Lex
import Mathlib.Data.List.Nodup
import Paraleon.Library.SortedMap
import Paraleon.Rdma.Dcqcn
import Paraleon.Tuning.Parameters

/-!
# From the tuner to the simulator

`parameter_tuning` reads the parameter file into a map and gives it to `ChangeParameters` on
every host and to `ChangeECNthreshold` on every switch.

* `mem_readParameterText`: the entries of the map, for a file that holds the lines of some
  parameters, complete or with the last one cut.
* `transfer_exact`: after a complete file, every knob has the value that the tuner wrote,
  and the tuner reads the same values.
-/

namespace Paraleon.Tuning

open Numerals Function Rdma.Dcqcn

/-! ## `readParameterText` -/

/-- The two `getline`s on a line. The second one fails when nothing is left. -/
def parseLine (line : Text) : Option (Text × Text) :=
  match line.span (· ≠ '=') with
  | (key, _ :: value) => if value = [] then none else some (key, value)
  | (_, []) => none

def readLines (lines : List Text) : ParameterMap :=
  lines.foldl (fun data line =>
    match parseLine line with
    | some (key, value) => SortedMap.insert key value data
    | none => data) []

/-- `readParameterText`. An empty line, as after the last line break, reads as no entry. -/
def readParameterText (text : Text) : ParameterMap := readLines (text.splitOn '\n')

/-! ## `ChangeParameters` -/

/-- The change that an entry for a host parameter makes; `none` is an exception. -/
def readHost (T : FloatTexts) (name : HostName) (value : Text) : Option Parameter :=
  match name with
  | .rateToSetOnFirstCnp => (T.stof value).map .rateToSetOnFirstCnp
  | .rpgMinDecFac => (T.stof value).map .rpgMinDecFac
  | .timeReset => (T.stof value).map .timeReset
  | .minTimeBetweenCnps => (T.stof value).map .minTimeBetweenCnps
  | .aiRate => (stoul value).map fun n => .aiRate (Words.u32 n)
  | .haiRate => (stoul value).map fun n => .haiRate (Words.u32 n)
  | .rpgMinRate => (stoul value).map fun n => .rpgMinRate (Words.u32 n)
  | .rpgGd => (stoul value).map fun n => .rpgGd (Words.u32 n)
  | .dceTcpG => (stoul value).map fun n => .dceTcpG (Words.u32 n)
  | .initialAlphaValue => (stoul value).map fun n => .initialAlphaValue (Words.u32 n)

/-- The comparisons of a key with the names of the host parameters. -/
def HostName.ofText (key : Text) : Option HostName :=
  [HostName.rateToSetOnFirstCnp, .rpgMinDecFac, .timeReset, .minTimeBetweenCnps, .aiRate, .haiRate,
    .rpgMinRate, .rpgGd, .dceTcpG, .initialAlphaValue].find? fun name => name.text = key

/-- An entry with any other key, as those for the switches, has its value read by `stoul`. -/
def readParameter (T : FloatTexts) (e : Text × Text) : Option (Option Parameter) :=
  match HostName.ofText e.1 with
  | some name => (readHost T name e.2).map some
  | none => (stoul e.2).map fun _ => none

/-- `RdmaHw::ChangeParameters` -/
def changeParameters (T : FloatTexts) (parameterMap : ParameterMap) (p : Params) :
    Option Params :=
  parameterMap.foldlM (fun p e =>
    (readParameter T e).map fun change => change.elim p p.change) p

/-! ## The map of a file -/

variable {T : FloatTexts} {v w : ParameterValues} {key value : Text}

theorem parseLine_entry (hkey : '=' ∉ key) :
    parseLine (key ++ '=' :: value) = if value = [] then none else some (key, value) := by
  have hpos : ∀ c ∈ key, decide (c ≠ '=') = true := fun c hc => by
    simpa using fun h : c = '=' => hkey (h ▸ hc)
  have hspan : (key ++ '=' :: value).span (· ≠ '=') = (key, '=' :: value) := by
    rw [List.span_eq_takeWhile_dropWhile, List.takeWhile_append_of_pos hpos,
      List.dropWhile_append_of_pos hpos]
    simp
  rw [parseLine, hspan]

theorem parseLine_cut (hkey : '=' ∉ key) : parseLine key = none := by
  have hpos : ∀ c ∈ key, decide (c ≠ '=') = true := fun c hc => by
    simpa using fun h : c = '=' => hkey (h ▸ hc)
  have hspan : key.span (· ≠ '=') = (key, []) := by
    rw [List.span_eq_takeWhile_dropWhile, List.takeWhile_eq_self_iff.mpr hpos,
      List.dropWhile_eq_nil_iff.mpr hpos]
  rw [parseLine, hspan]

/-- Entries with different keys are all in the map, which is sorted. -/
theorem readLines_entries (lines : List Text) {data : ParameterMap} (hdata : SortedMap.Sorted data)
    (hkeys : ((lines.filterMap parseLine).map Prod.fst).Nodup) :
    let m := lines.foldl (fun data line =>
      match parseLine line with
      | some (key, value) => SortedMap.insert key value data
      | none => data) data
    SortedMap.Sorted m ∧ ∀ e, e ∈ m ↔ e ∈ lines.filterMap parseLine ∨
      e ∈ data ∧ e.1 ∉ (lines.filterMap parseLine).map Prod.fst := by
  induction lines generalizing data with
  | nil => exact ⟨hdata, fun e => by simp⟩
  | cons line lines ih =>
    rw [List.foldl_cons]
    cases hline : parseLine line with
    | none =>
      rw [List.filterMap_cons_none hline] at hkeys ⊢
      exact ih hdata hkeys
    | some d =>
      rw [List.filterMap_cons_some hline] at hkeys ⊢
      rw [List.map_cons, List.nodup_cons] at hkeys
      obtain ⟨hsorted, hmem⟩ := ih (hdata.insert d.1 d.2) hkeys.2
      refine ⟨hsorted, fun e => (hmem e).trans ?_⟩
      rw [SortedMap.mem_insert hdata, List.mem_cons, List.map_cons, List.mem_cons]
      constructor
      · rintro (he | ⟨rfl | ⟨he, hne⟩, hnot⟩)
        · exact .inl (.inr he)
        · exact .inl (.inl rfl)
        · exact .inr ⟨he, not_or.mpr ⟨hne, hnot⟩⟩
      · rintro ((rfl | he) | ⟨he, hnot⟩)
        · exact .inr ⟨.inl rfl, hkeys.1⟩
        · exact .inl he
        · exact .inr ⟨.inr ⟨he, (not_or.mp hnot).1⟩, (not_or.mp hnot).2⟩

/-- The entries of the lines that `write_parameters` prints for some names. -/
def entries (T : FloatTexts) (v : ParameterValues) (names : List Name) : List (Text × Text) :=
  names.map fun name => (name.text, (v name).str T)

/-- A file with the lines of `names` and then a text without a line break. -/
theorem mem_readParameterText {names : List Name} (rest : Text)
    (hv : ∀ name, Writable T name (v name)) (hnames : names.Nodup) (hrest : '\n' ∉ rest)
    (hkey : ∀ e, parseLine rest = some e → e.1 ∉ names.map Name.text) :
    let m := readParameterText
      ((names.flatMap fun name => outputLine T v name ++ ['\n']) ++ rest)
    SortedMap.Sorted m ∧ ∀ e, e ∈ m ↔ e ∈ entries T v names ∨ parseLine rest = some e := by
  have hlines : (names.map (outputLine T v)).filterMap parseLine = entries T v names := by
    rw [List.filterMap_map, entries, ← List.filterMap_eq_map]
    refine List.filterMap_congr fun name _ => ?_
    have hnot : '=' ∉ name.text := fun hc => (name.text_chars.2 _ hc).2.1 rfl
    exact (parseLine_entry hnot).trans (if_neg (hv name).str_chars.1)
  have hall : (names.map (outputLine T v) ++ [rest]).filterMap parseLine =
      entries T v names ++ (parseLine rest).toList := by
    rw [List.filterMap_append, hlines]
    cases h : parseLine rest <;> simp [h]
  have htexts : (entries T v names).map Prod.fst = names.map Name.text := by
    rw [entries, List.map_map]
    rfl
  -- no key comes twice, so that no line replaces another
  have hkeys : ((entries T v names ++ (parseLine rest).toList).map Prod.fst).Nodup := by
    rw [List.map_append, htexts]
    refine List.nodup_append.mpr ⟨hnames.map Name.text_injective, ?_, ?_⟩
    · cases parseLine rest <;> simp
    · intro key hmem key' hmem'
      cases h : parseLine rest with
      | none => simp [h] at hmem'
      | some e =>
        have hkey' : key' = e.1 := by simpa [h] using hmem'
        rintro rfl
        exact hkey e h (hkey' ▸ hmem)
  have hread := readLines_entries (names.map (outputLine T v) ++ [rest]) SortedMap.sorted_nil
    (by rw [hall]; exact hkeys)
  rw [hall] at hread
  dsimp only
  rw [readParameterText, splitOn_outputLines hv, List.splitOn_eq_singleton hrest]
  refine ⟨hread.1, fun e => (hread.2 e).trans ?_⟩
  simp [eq_comm]

/-! ## The knobs of a host -/

/-- The parameters of `RdmaHw` by name; rates are in bit/s. -/
def knob (p : Params) : HostName → ℚ
  | .timeReset => p.rpgTimeReset
  | .aiRate => p.rai
  | .haiRate => p.rhai
  | .rateToSetOnFirstCnp => p.rateOnFirstCnp
  | .rpgMinDecFac => p.minDecFac
  | .rpgMinRate => p.minRate
  | .rpgGd => p.rpgGd
  | .minTimeBetweenCnps => p.rateDecreaseInterval
  | .dceTcpG => p.dceTcpG
  | .initialAlphaValue => p.initialAlphaValue

/-- What a change sets, and to what. -/
def changed : Parameter → HostName × ℚ
  | .timeReset x => (.timeReset, x)
  | .aiRate n => (.aiRate, (n * 10 ^ 6 : Nat))
  | .haiRate n => (.haiRate, (n * 10 ^ 6 : Nat))
  | .rateToSetOnFirstCnp x => (.rateToSetOnFirstCnp, x)
  | .rpgMinDecFac x => (.rpgMinDecFac, x)
  | .rpgMinRate n => (.rpgMinRate, (n * 10 ^ 6 : Nat))
  | .rpgGd n => (.rpgGd, n)
  | .minTimeBetweenCnps x => (.minTimeBetweenCnps, x)
  | .dceTcpG n => (.dceTcpG, n)
  | .initialAlphaValue n => (.initialAlphaValue, n)

theorem knob_change (p : Params) (q : Parameter) :
    knob (p.change q) = update (knob p) (changed q).1 (changed q).2 := by
  funext name
  rw [update_apply]
  cases q <;> cases name <;> rfl

theorem changed_readHost {name : HostName} {s : Text} {q : Parameter}
    (h : readHost T name s = some q) : (changed q).1 = name := by
  cases name <;> obtain ⟨x, -, rfl⟩ := Option.map_eq_some_iff.mp h <;> rfl

theorem HostName.ofText_text (name : HostName) : HostName.ofText name.text = some name := by
  cases name <;> decide

theorem HostName.text_of_ofText {key : Text} {name : HostName}
    (h : HostName.ofText key = some name) : key = name.text := by
  have hfind := List.find?_some h
  exact (of_decide_eq_true hfind).symm

theorem HostName.ofText_ecn (field : Field) : HostName.ofText field.text = none := by
  cases field <;> decide

/-- What `ChangeParameters` does with a sorted map: each entry of a host parameter sets its
knob, and nothing else changes. -/
theorem knob_changeParameters {m : ParameterMap} (hm : SortedMap.Sorted m) {p p' : Params}
    (h : changeParameters T m p = some p') (name : HostName) :
    (∀ s, (name.text, s) ∈ m →
      ∃ q, readHost T name s = some q ∧ knob p' name = (changed q).2) ∧
    ((∀ s, (name.text, s) ∉ m) → knob p' name = knob p name) := by
  induction m generalizing p with
  | nil =>
    cases h
    exact ⟨fun s hs => absurd hs List.not_mem_nil, fun _ => rfl⟩
  | cons e m ih =>
    obtain ⟨he, hm⟩ := List.pairwise_cons.mp hm
    obtain ⟨p₁, hstep, hrest⟩ := Option.bind_eq_some_iff.mp h
    obtain ⟨change, hread, hp₁⟩ := Option.map_eq_some_iff.mp hstep
    obtain ⟨hin, hout⟩ := ih hm hrest
    -- the map is sorted: after the entry of the knob no other names it
    by_cases hkey : e.1 = name.text
    · have hnot : ∀ s, (name.text, s) ∉ m := fun s hs => (he _ hs).ne hkey
      rw [readParameter, hkey, HostName.ofText_text] at hread
      obtain ⟨q, hq, rfl⟩ := Option.map_eq_some_iff.mp hread
      refine ⟨fun s hs => ⟨q, ?_, ?_⟩, fun hall => ?_⟩
      · rcases List.mem_cons.mp hs with heq | hs
        · rw [← hq, ← heq]
        · exact absurd hs (hnot s)
      · rw [hout hnot, ← hp₁, Option.elim_some, knob_change, changed_readHost hq, update_self]
      · exact absurd List.mem_cons_self (hkey ▸ hall e.2)
    · have hknob : knob p₁ name = knob p name := by
        rw [← hp₁]
        -- an entry of another host parameter, or of none
        cases change with
        | none => rfl
        | some q =>
          unfold readParameter at hread
          split at hread
          · next other hother =>
            obtain ⟨q', hq', hqq⟩ := Option.map_eq_some_iff.mp hread
            cases hqq
            have hne : name ≠ other := fun hn => hkey (hn ▸ HostName.text_of_ofText hother)
            rw [Option.elim_some, knob_change, changed_readHost hq', update_of_ne hne]
          · obtain ⟨_, -, hqq⟩ := Option.map_eq_some_iff.mp hread
            cases hqq
      refine ⟨fun s hs => hin s ((List.mem_cons.mp hs).resolve_left ?_), fun hall => ?_⟩
      · rintro rfl
        exact hkey rfl
      · rw [hout fun s hs => hall s (List.mem_cons_of_mem e hs), hknob]

theorem exists_changeParameters {m : ParameterMap} (h : ∀ e ∈ m, (readParameter T e).isSome)
    (p : Params) : ∃ p', changeParameters T m p = some p' := by
  induction m generalizing p with
  | nil => exact ⟨p, rfl⟩
  | cons e m ih =>
    obtain ⟨he, hm⟩ := List.forall_mem_cons.mp h
    obtain ⟨change, hchange⟩ := Option.isSome_iff_exists.mp he
    obtain ⟨p', hp'⟩ := ih hm (change.elim p p.change)
    refine ⟨p', ?_⟩
    rw [changeParameters, List.foldlM_cons, hchange]
    exact hp'

/-! ## The values of a file -/

/-- The value of a knob of the hosts for a vector of the tuner. -/
def hostValue (T : FloatTexts) (v : ParameterValues) (name : HostName) : ℚ :=
  let x := (v (.host name)).toRat
  match name with
  | .aiRate | .haiRate | .rpgMinRate => x * 10 ^ 6
  | .rateToSetOnFirstCnp | .rpgMinDecFac => T.single x
  | .timeReset | .rpgGd | .minTimeBetweenCnps | .dceTcpG | .initialAlphaValue => x

theorem Writable.of_int {name : Name} {value : Value} (h : Writable T name value)
    (htype : (spec name).type = .int) : ∃ n : Nat, value = .int n ∧ n ≤ 6400 := by
  unfold Writable at h
  cases value with
  | float x => simp [htype] at h
  | int n =>
    simp only [htype] at h
    exact ⟨n.toNat, by rw [Int.toNat_of_nonneg h.1], by omega⟩

theorem Writable.of_float {name : Name} {value : Value} (h : Writable T name value)
    (htype : (spec name).type = .float) : ∃ x, value = .float x ∧ T.isFloat x ∧ 0 ≤ x ∧ x ≤ 1 := by
  unfold Writable at h
  cases value with
  | int n => simp [htype] at h
  | float x =>
    simp only [htype] at h
    exact ⟨x, rfl, h⟩

theorem str_int (n : Nat) : (Value.int n).str T = decimal n := by
  rw [Value.str, if_neg (by omega), Int.natAbs_natCast]

theorem stoul_str_int {n : Nat} (hn : n ≤ 6400) :
    (stoul ((Value.int n).str T)).map Words.u32 = some n := by
  rw [str_int, stoul_decimal (by omega), Option.map_some, Words.u32_of_lt (by omega)]

/-- Every text of the tuner is read as the value it was written for. -/
theorem readHost_str {name : HostName} (h : Writable T (.host name) (v (.host name))) :
    ∃ q, readHost T name ((v (.host name)).str T) = some q ∧
      (changed q).2 = hostValue T v name := by
  cases htype : (spec (.host name)).type with
  | float =>
    obtain ⟨x, hx, hfloat, -⟩ := h.of_float htype
    have hstof := T.stof_repr x hfloat
    unfold hostValue
    rw [hx]
    cases name with
    | rateToSetOnFirstCnp | rpgMinDecFac => exact ⟨_, congrArg (Option.map _) hstof, rfl⟩
    | timeReset | aiRate | haiRate | rpgMinRate | rpgGd | minTimeBetweenCnps | dceTcpG
    | initialAlphaValue => cases htype
  | int =>
    obtain ⟨n, hx, hn⟩ := h.of_int htype
    have hstof : T.stof ((Value.int n).str T) = some (n : ℚ) := by
      rw [str_int]
      exact T.stof_decimal n (by omega)
    obtain ⟨k, hk, hkn⟩ := Option.map_eq_some_iff.mp (stoul_str_int (T := T) hn)
    unfold hostValue
    rw [hx]
    cases name with
    | rateToSetOnFirstCnp | rpgMinDecFac => cases htype
    | timeReset | minTimeBetweenCnps => exact ⟨_, congrArg (Option.map _) hstof, rfl⟩
    | rpgGd | dceTcpG | initialAlphaValue =>
      exact ⟨_, congrArg (Option.map _) hk, by simp [changed, hkn, Value.toRat]⟩
    | aiRate | haiRate | rpgMinRate =>
      refine ⟨_, congrArg (Option.map _) hk, ?_⟩
      simp only [changed, hkn, Value.toRat, Nat.cast_mul, Nat.cast_pow, Nat.cast_ofNat,
        Int.cast_natCast]

theorem readParameter_str (hv : ∀ name, Writable T name (v name)) (name : Name) :
    (readParameter T (name.text, (v name).str T)).isSome = true := by
  cases name with
  | host name =>
    obtain ⟨q, hq, -⟩ := readHost_str (hv (.host name))
    change (match HostName.ofText name.text with
      | some name => (readHost T name _).map some
      | none => _).isSome = true
    rw [HostName.ofText_text]
    dsimp only
    rw [hq]
    rfl
  | ecn field =>
    have hother : HostName.ofText (Name.ecn field).text = none := HostName.ofText_ecn field
    have hstoul : (stoul ((v (.ecn field)).str T)).isSome = true := by
      cases htype : (spec (.ecn field)).type with
      | int =>
        obtain ⟨n, hx, hn⟩ := (hv _).of_int htype
        rw [hx, str_int, stoul_decimal (by omega)]
        rfl
      | float =>
        obtain ⟨x, hx, hfloat, h0, h1⟩ := (hv _).of_float htype
        obtain ⟨d, rest, hrepr, hd, hrest⟩ := T.repr_digit x hfloat h0 h1
        rw [hx, Value.str, hrepr]
        exact stoul_of_digit hd hrest
    rw [readParameter, hother]
    simpa using hstoul

/-! ## The switches -/

/-- The `double`s of the simulator. -/
def FloatTexts.floats (T : FloatTexts) : Floats ℚ :=
  { lt := fun x y => decide (x < y), zero := 0, one := 1, fifth := 3602879701896397 / 2 ^ 54,
    stof := T.stof }

theorem clampProbability_of_unit {x : ℚ} (h0 : 0 ≤ x) (h1 : x ≤ 1) :
    T.floats.clampProbability x = x := by
  have hmin : (if T.floats.lt x T.floats.one then x else T.floats.one) = x := by
    by_cases hlt : x < 1
    · exact if_pos (decide_eq_true hlt)
    · exact (if_neg (by simpa [FloatTexts.floats] using hlt)).trans (le_antisymm (not_lt.mp hlt) h1)
  rw [Floats.clampProbability, hmin]
  by_cases hlt : 0 < x
  · exact if_pos (decide_eq_true hlt)
  · exact (if_neg (by simpa [FloatTexts.floats] using hlt)).trans (le_antisymm h0 (not_lt.mp hlt))

theorem Field.ofText_host (name : HostName) : Field.ofText name.text = none := by
  cases name <;> decide

theorem parsePortConfigKey_name (name : Name) (switchId : UInt32) :
    parsePortConfigKey name.text switchId = none := by
  have h : ∀ a ∈ parameterNames, "switch.".toList.isPrefixOf? a.text = none := by decide
  rw [parsePortConfigKey, h name name.mem_parameterNames, Option.bind_none]

theorem lastValue_of_mem {β : Type} {value : Text → Option β} {field : Field} {m : ParameterMap}
    {s : Text} {x : β} (hm : SortedMap.Sorted m) (hmem : (field.text, s) ∈ m)
    (hx : value s = some x) : lastValue Field.ofText value field m = some x := by
  have hall : ∀ y ∈ m.filterMap fun e =>
      if Field.ofText e.1 = some field then value e.2 else none, y = x := by
    intro y hy
    obtain ⟨e, he, hey⟩ := List.mem_filterMap.mp hy
    split at hey
    · next hfield =>
      have hunique := hm.unique he hmem (Field.ofText_eq_some_iff.mp hfield)
      rw [hunique, hx] at hey
      exact (Option.some.inj hey).symm
    · cases hey
  have hin : x ∈ m.filterMap fun e =>
      if Field.ofText e.1 = some field then value e.2 else none :=
    List.mem_filterMap.mpr ⟨_, hmem, by rw [if_pos (Field.ofText_eq_some_iff.mpr rfl), hx]⟩
  have hne := List.ne_nil_of_mem hin
  rw [lastValue, List.getLast?_eq_getLast_of_ne_nil hne, hall _ (List.getLast_mem hne)]

theorem not_any_of_forall {α : Type} {f : Floats α} {which : Text → Option Field}
    {m : ParameterMap} (h : ∀ e ∈ m, which e.1 = none) : (named f which m).any = false := by
  have hnil : ∀ {β : Type} (value : Text → Option β) (field : Field),
      lastValue which value field m = none := by
    intro β value field
    rw [lastValue, List.filterMap_eq_nil_iff.mpr fun e he => by rw [if_neg (by simp [h e he])]]
    rfl
  simp [named, Named.any, hnil]

/-- A map without keys of ports, whose global values are all numbers. -/
theorem exists_changeEcnThreshold {α : Type} {f : Floats α} {sw : EcnSwitch α} {m : ParameterMap}
    (hport : ∀ e ∈ m, parsePortConfigKey e.1 sw.id = none)
    (hvalue : ∀ e ∈ m, ∀ field, Field.ofText e.1 = some field →
      ∀ c : PortEcnConfig α, (c.set f e.2 field).isSome = true) :
    ∃ sw', changeEcnThreshold f sw m = some sw' := by
  have hloop : ∀ u : EcnUpdate α,
      ∃ u', m.foldlM (fun (u : EcnUpdate α) e => u.read f sw e) u = some u' := by
    induction m with
    | nil => exact fun u => ⟨u, rfl⟩
    | cons e m ih =>
      intro u
      obtain ⟨he, hm⟩ := List.forall_mem_cons.mp hport
      obtain ⟨hev, hmv⟩ := List.forall_mem_cons.mp hvalue
      have hstep : ∃ u', u.read f sw e = some u' := by
        rw [EcnUpdate.read, he]
        dsimp only
        unfold EcnUpdate.setGlobal
        split
        · next field hfield =>
          obtain ⟨c, hc⟩ := Option.isSome_iff_exists.mp (hev field hfield u.global)
          exact ⟨_, by rw [hc]; rfl⟩
        · exact ⟨u, rfl⟩
      obtain ⟨u₁, hu₁⟩ := hstep
      obtain ⟨u', hu'⟩ := ih hm hmv u₁
      refine ⟨u', ?_⟩
      rw [List.foldlM_cons, hu₁]
      exact hu'
  obtain ⟨u, hu⟩ := hloop (EcnUpdate.init f)
  exact ⟨_, by rw [changeEcnThreshold, hu]; rfl⟩

/-- When the map has no key of a port, every port gets the global thresholds. -/
theorem ports_global {α : Type} {f : Floats α} {sw sw' : EcnSwitch α} {m : ParameterMap}
    (hport : ∀ e ∈ m, parsePortConfigKey e.1 sw.id = none)
    (h : changeEcnThreshold f sw m = some sw') {i : Nat} (hi : i < sw.nDevices) :
    sw'.ports i = ((globalNamed f m).fillFrom (EcnUpdate.defaults f)).apply f := by
  obtain ⟨u, hu, rfl⟩ := Option.map_eq_some_iff.mp h
  have hreads := read_named f hu
  have hnone : ∀ j, (portNamed f sw m j).any = false := fun j =>
    not_any_of_forall fun e he => by rw [portField, hport e he, Option.bind_none]
  have hno : ¬ u.hasPortUpdate = true := by simp [hreads.hasPortUpdate, hnone]
  change EcnUpdate.apply f sw u i = _
  rw [EcnUpdate.apply, if_neg (Nat.not_le.mpr hi), if_neg hno, hreads.global]

/-! ## A complete file -/

theorem mem_readParameterText_write (hv : ∀ name, Writable T name (w name)) :
    let m := readParameterText
      (parameterNames.flatMap fun name => outputLine T w name ++ ['\n'])
    SortedMap.Sorted m ∧ ∀ e, e ∈ m ↔ ∃ name : Name, e = (name.text, (w name).str T) := by
  have h := mem_readParameterText [] hv nodup_parameterNames (by simp) fun e he => by cases he
  rw [List.append_nil] at h
  refine ⟨h.1, fun e => (h.2 e).trans ?_⟩
  constructor
  · rintro (he | he)
    · obtain ⟨name, -, rfl⟩ := List.mem_map.mp he
      exact ⟨name, rfl⟩
    · cases he
  · rintro ⟨name, rfl⟩
    exact .inl (List.mem_map.mpr ⟨name, name.mem_parameterNames, rfl⟩)

/-- A switch can read the texts of its fields. -/
theorem set_str (hw : ∀ name, Writable T name (w name)) {name : Name} {field : Field}
    (hfield : Field.ofText name.text = some field) (c : PortEcnConfig ℚ) :
    (c.set T.floats ((w name).str T) field).isSome = true := by
  cases name with
  | host name => exact absurd ((Field.ofText_host name).symm.trans hfield) (by simp)
  | ecn field' =>
    obtain rfl : field' = field :=
      Option.some.inj ((Field.ofText_eq_some_iff.mpr rfl).symm.trans hfield)
    have hint : ∀ n ≤ 6400, (stoi ((Value.int (n : Nat)).str T)).isSome = true := fun n hn => by
      rw [str_int, stoi_decimal (by omega)]
      rfl
    cases field' with
    | kmin =>
      obtain ⟨n, hx, hn⟩ := (hw (.ecn .kmin)).of_int rfl
      rw [hx]
      simpa [PortEcnConfig.set] using hint n hn
    | kmax =>
      obtain ⟨n, hx, hn⟩ := (hw (.ecn .kmax)).of_int rfl
      rw [hx]
      simpa [PortEcnConfig.set] using hint n hn
    | pmax =>
      obtain ⟨x, hx, hfloat, -⟩ := (hw (.ecn .pmax)).of_float rfl
      have hstof : T.floats.stof (T.repr x) = some (T.single x) := T.stof_repr x hfloat
      rw [hx, Value.str]
      simp [PortEcnConfig.set, hstof]

/-- The thresholds of a port, which are in bytes, and its probability. -/
def portKnob (e : PortEcn ℚ) : Field → ℚ
  | .kmin => e.kmin.toNat
  | .kmax => e.kmax.toNat
  | .pmax => e.pmax

/-- The value of a knob of the ports for a vector of the tuner. -/
def portValue (T : FloatTexts) (v : ParameterValues) (field : Field) : ℚ :=
  let x := (v (.ecn field)).toRat
  match field with
  | .kmin | .kmax => x * 1000
  | .pmax => T.single x

/-- A port gets the value of an entry, where `kmax` is not raised when the map has `kmin` too. -/
theorem portKnob_write {sw sw' : EcnSwitch ℚ} {m : ParameterMap} (hm : SortedMap.Sorted m)
    (hport : ∀ e ∈ m, parsePortConfigKey e.1 sw.id = none)
    (hw : ∀ name, Writable T name (w name))
    (hle : (w (.ecn .kmin)).toRat ≤ (w (.ecn .kmax)).toRat) {field : Field}
    (hmin : (Field.kmin.text, (w (.ecn .kmin)).str T) ∈ m)
    (hmem : (field.text, (w (.ecn field)).str T) ∈ m)
    (h : changeEcnThreshold T.floats sw m = some sw') {i : Nat} (hi : i < sw.nDevices) :
    portKnob (sw'.ports i) field = portValue T w field := by
  have hstoi : ∀ n ≤ 6400, stoi ((Value.int (n : Nat)).str T) = some (n : Int) := fun n hn => by
    rw [str_int, stoi_decimal (by omega)]
  have hkb : ∀ n ≤ 6400, ((kilobytes (n : Nat)).toNat : ℚ) = (n : ℚ) * 1000 := fun n hn => by
    rw [kilobytes_toNat (by omega)]
    simp
  -- `kmin` bounds `kmax` from below, so that it is needed for both
  obtain ⟨kmin, hkmin, hkmin'⟩ := (hw (.ecn .kmin)).of_int rfl
  have hnamed : (globalNamed T.floats m).kmin = some (kmin : Int) :=
    lastValue_of_mem hm hmin (by rw [hkmin, hstoi kmin hkmin'])
  rw [ports_global hport h hi]
  cases field with
  | kmin =>
    rw [portValue, hkmin]
    simp only [portKnob, PortEcnConfig.apply, configEcn, Named.fillFrom, hnamed, Option.getD_some]
    exact hkb kmin hkmin'
  | kmax =>
    obtain ⟨kmax, hkmax, hkmax'⟩ := (hw (.ecn .kmax)).of_int rfl
    have hnamed' : (globalNamed T.floats m).kmax = some (kmax : Int) :=
      lastValue_of_mem hm hmem (by rw [hkmax, hstoi kmax hkmax'])
    -- the vector is normalised, and the maximum leaves `kmax` as it is
    rw [hkmin, hkmax] at hle
    have hle' : (kmin : Int) ≤ kmax := by
      have hcast : ((kmin : Int) : ℚ) ≤ ((kmax : Int) : ℚ) := hle
      exact_mod_cast hcast
    rw [portValue, hkmax]
    simp only [portKnob, PortEcnConfig.apply, configEcn, Named.fillFrom, hnamed, hnamed',
      Option.getD_some, max_eq_right hle']
    exact hkb kmax hkmax'
  | pmax =>
    obtain ⟨x, hx, hfloat, h0, h1⟩ := (hw (.ecn .pmax)).of_float rfl
    have hstof : T.floats.stof ((w (.ecn .pmax)).str T) = some (T.single x) := by
      rw [hx]
      exact T.stof_repr x hfloat
    have hnamed' : (globalNamed T.floats m).pmax = some (T.single x) :=
      lastValue_of_mem hm hmem hstof
    -- a probability in the unit interval is not clamped
    have hunit := T.single_unit x hfloat h0 h1
    rw [portValue, hx]
    simp only [portKnob, PortEcnConfig.apply, configEcn, Named.fillFrom, hnamed', Option.getD_some]
    exact clampProbability_of_unit hunit.1 hunit.2

/-- A complete parameter file sets every knob of every host and every port to the vector that
the tuner wrote, and the tuner reads the same vector. -/
theorem transfer_exact (h : InRange T v) :
    let w := normalizeParameterValues v
    let text := writeParameters T v
    let m := readParameterText text
    (∀ p, ∃ p', changeParameters T m p = some p' ∧
        ∀ name, knob p' name = hostValue T w name) ∧
      (∀ sw, ∃ sw', changeEcnThreshold T.floats sw m = some sw' ∧
        ∀ i < sw.nDevices, ∀ field, portKnob (sw'.ports i) field = portValue T w field) ∧
      loadCurrentParameters T text = some w := by
  intro w text m
  have hw : ∀ name, Writable T name (w name) := h.writable
  obtain ⟨hm, hmem⟩ := mem_readParameterText_write hw
  change SortedMap.Sorted m at hm
  change ∀ e, e ∈ m ↔ _ at hmem
  refine ⟨fun p => ?_, fun sw => ?_, load_write h⟩
  · obtain ⟨p', hp'⟩ := exists_changeParameters (T := T) (m := m) (fun e he => by
      obtain ⟨name, rfl⟩ := (hmem e).mp he
      exact readParameter_str hw name) p
    refine ⟨p', hp', fun name => ?_⟩
    obtain ⟨q, hq, hknob⟩ := (knob_changeParameters hm hp' name).1 _
      ((hmem _).mpr ⟨.host name, rfl⟩)
    obtain ⟨q', hq', hvalue⟩ := readHost_str (hw (.host name))
    rw [hknob, ← hvalue, Option.some.inj (hq.symm.trans hq')]
  · have hport : ∀ e ∈ m, parsePortConfigKey e.1 sw.id = none := fun e he => by
      obtain ⟨name, rfl⟩ := (hmem e).mp he
      exact parsePortConfigKey_name name sw.id
    obtain ⟨sw', hsw'⟩ := exists_changeEcnThreshold (f := T.floats) hport fun e he => by
      obtain ⟨name, rfl⟩ := (hmem e).mp he
      exact fun field hfield c => set_str hw hfield c
    exact ⟨sw', hsw', fun i hi field => portKnob_write hm hport hw (normalize_le v)
      ((hmem _).mpr ⟨.ecn .kmin, rfl⟩) ((hmem _).mpr ⟨.ecn field, rfl⟩) hsw' hi⟩

/-- The texts of the default values: `0.5`, `0.2`, and `0.2` in single precision. -/
def defaultTexts : FloatTexts where
  isFloat x := x = 1 / 2 ∨ x = 3602879701896397 / 2 ^ 54
  repr x := if x = 1 / 2 then "0.5".toList else "0.2".toList
  pyFloat s :=
    if s = "0.5".toList then some (1 / 2)
    else if s = "0.2".toList then some (3602879701896397 / 2 ^ 54)
    else none
  stof s :=
    if s = "0.5".toList then some (1 / 2)
    else if s = "0.2".toList then some (13421773 / 2 ^ 26)
    else (stoul s).map fun n => (n : ℚ)
  single x := if x = 3602879701896397 / 2 ^ 54 then 13421773 / 2 ^ 26 else x
  repr_chars := by
    rintro x (rfl | rfl) <;>
      exact ⟨by decide +kernel, List.all_iff_forall_prop.mp (by decide +kernel)⟩
  repr_digit := by
    rintro x (rfl | rfl) - -
    · exact ⟨'0', ".5".toList, by decide +kernel, rfl, by simp⟩
    · exact ⟨'0', ".2".toList, by decide +kernel, rfl, by simp⟩
  pyFloat_repr := by rintro x (rfl | rfl) <;> decide +kernel
  stof_repr := by rintro x (rfl | rfl) <;> decide +kernel
  stof_decimal := by
    intro n hn
    have hdot : ∀ s : Text, '.' ∈ s → decimal n ≠ s := by
      rintro s hs rfl
      have hdigit := isDigit_of_mem_decimal hs
      simp [Char.isDigit] at hdigit
    rw [if_neg (hdot _ (by decide)), if_neg (hdot _ (by decide)), stoul_decimal (by omega)]
    rfl
  single_unit := by rintro x (rfl | rfl) <;> decide +kernel

/-- Every default value passes its own check. -/
theorem default_inRange : InRange defaultTexts fun name => (spec name).default := by
  have hfloat : defaultTexts.isFloat (1 / 2 ^ 1) := .inl (by decide +kernel)
  rintro (name | field)
  · cases name with
    | rateToSetOnFirstCnp | rpgMinDecFac =>
      exact ⟨by decide +kernel, by decide +kernel, by simpa [spec, double] using hfloat⟩
    | timeReset | aiRate | haiRate | rpgMinRate | rpgGd | minTimeBetweenCnps | dceTcpG
    | initialAlphaValue => exact ⟨by decide +kernel, by decide +kernel, trivial⟩
  · cases field with
    | kmin | kmax => exact ⟨by decide +kernel, by decide +kernel, trivial⟩
    | pmax => exact ⟨by decide +kernel, by decide +kernel, .inr (by decide +kernel)⟩

theorem transfer_exact_default :
    let text := writeParameters defaultTexts fun name => (spec name).default
    ∃ p', changeParameters defaultTexts (readParameterText text) Params.default = some p' ∧
      ∀ name, knob p' name = hostValue defaultTexts defaultParameterValues name :=
  (transfer_exact default_inRange).1 Params.default

end Paraleon.Tuning
