import Paraleon.Tuning.Transfer

/-!
# A parameter file that is read while it is written

`write_parameters` truncates the file and prints one line after the other, and
`parameter_tuning` may read any prefix. A prefix that ends inside a value sets a wrong knob
(`tornRead_corrupts`).

* `prefix_old_or_new`: this is the only way in which a knob of a host gets anything but the
  old or the new value; the ports get the new value of each field whose line is there.
-/

namespace Paraleon.Tuning

open Numerals Rdma.Dcqcn

variable {T : FloatTexts} {v w old new : ParameterValues} {text s : Text}

/-- The lines of some names, each with its line break. -/
def outputLines (T : FloatTexts) (w : ParameterValues) (names : List Name) : Text :=
  names.flatMap fun name => outputLine T w name ++ ['\n']

/-- The lines that are written before the one of `name`. -/
def namesBefore (name : Name) : List Name := parameterNames.takeWhile (· ≠ name)

/-- The text ends in the value of `name`, of which it has only `s`, which is not empty. -/
structure EndsInside (T : FloatTexts) (w : ParameterValues) (text : Text) (name : Name) (s : Text) :
    Prop where
  text_eq : text = outputLines T w (namesBefore name) ++ (name.text ++ '=' :: s)
  nonempty : s ≠ []
  cut : s <+: (w name).str T
  proper : s ≠ (w name).str T

/-- The text has the line of `name`, perhaps without the line break. -/
def HasLine (T : FloatTexts) (w : ParameterValues) (text : Text) (name : Name) : Prop :=
  outputLines T w (namesBefore name) ++ outputLine T w name <+: text

theorem parameterNames_split (name : Name) :
    ∃ rest, parameterNames = namesBefore name ++ name :: rest := by
  have h : ∀ a ∈ parameterNames,
      parameterNames = namesBefore a ++ a :: (parameterNames.dropWhile (· ≠ a)).tail := by decide
  exact ⟨_, h name name.mem_parameterNames⟩

theorem namesBefore_of_split {done rest : List Name} {name : Name}
    (h : parameterNames = done ++ name :: rest) : namesBefore name = done := by
  have hnodup : (done ++ name :: rest).Nodup := h ▸ nodup_parameterNames
  have hnot : ∀ a ∈ done, decide (a ≠ name) = true := fun a ha =>
    decide_eq_true ((List.nodup_append.mp hnodup).2.2 a ha name List.mem_cons_self)
  rw [namesBefore, h, List.takeWhile_append_of_pos hnot, List.takeWhile_cons_of_neg (by simp),
    List.append_nil]

/-- A prefix has some lines and a part of the next one. -/
theorem prefix_outputLines (names : List Name) (h : text <+: outputLines T w names) :
    ∃ done rest cut, names = done ++ rest ∧ text = outputLines T w done ++ cut ∧
      (cut = [] ∨ ∃ name rest', rest = name :: rest' ∧ cut <+: outputLine T w name) := by
  induction names generalizing text with
  | nil => exact ⟨[], [], [], rfl, by simpa [outputLines] using h, .inl rfl⟩
  | cons name names ih =>
    have hcons : outputLines T w (name :: names) =
        (outputLine T w name ++ ['\n']) ++ outputLines T w names := rfl
    rw [hcons] at h
    rcases List.prefix_or_prefix_of_prefix h (List.prefix_append ..) with hshort | ⟨tail, rfl⟩
    · rcases List.prefix_concat_iff.mp hshort with rfl | hline
      · exact ⟨[name], names, [], rfl, by simp [outputLines], .inl rfl⟩
      · exact ⟨[], name :: names, text, rfl, rfl, .inr ⟨name, names, rfl, hline⟩⟩
    · obtain ⟨done, rest, cut, rfl, rfl, hcut⟩ := ih ((List.prefix_append_right_inj _).mp h)
      exact ⟨name :: done, rest, cut, rfl, by simp [outputLines], hcut⟩

/-- What the last, incomplete line is read as. -/
theorem parseLine_prefix {name : Name} {cut : Text} (h : cut <+: outputLine T w name) :
    parseLine cut = none ∨ ∃ s, cut = name.text ++ '=' :: s ∧ s ≠ [] ∧ s <+: (w name).str T ∧
      parseLine cut = some (name.text, s) := by
  have hnot : '=' ∉ name.text := fun hc => (name.text_chars.2 _ hc).2.1 rfl
  rcases List.prefix_or_prefix_of_prefix h (List.prefix_append name.text _) with hkey | ⟨tail, rfl⟩
  · exact .inl (parseLine_cut fun hc => hnot (hkey.subset hc))
  · have htail := (List.prefix_append_right_inj _).mp h
    cases tail with
    | nil =>
      rw [List.append_nil]
      exact .inl (parseLine_cut hnot)
    | cons c s =>
      obtain ⟨rfl, hs⟩ := List.cons_prefix_cons.mp htail
      rw [parseLine_entry hnot]
      by_cases hne : s = []
      · exact .inl (if_pos hne)
      · exact .inr ⟨s, rfl, hne, hs, if_neg hne⟩

/-- The map of the lines of `done` and a part of the next one. -/
theorem mem_readParameterText_cut (hw : ∀ name, Writable T name (w name)) {done rest : List Name}
    {cut : Text} (hnames : parameterNames = done ++ rest)
    (hcut : cut = [] ∨ ∃ name rest', rest = name :: rest' ∧ cut <+: outputLine T w name) :
    let m := readParameterText (outputLines T w done ++ cut)
    SortedMap.Sorted m ∧ ∀ e, e ∈ m ↔ e ∈ entries T w done ∨ parseLine cut = some e := by
  have hnodup : (done ++ rest).Nodup := hnames ▸ nodup_parameterNames
  have hbreak : '\n' ∉ cut := by
    rcases hcut with rfl | ⟨name, -, -, hline⟩
    · simp
    · exact fun hc => (outputLine_chars hw name _ (hline.subset hc)).1 rfl
  refine mem_readParameterText cut hw (List.nodup_append.mp hnodup).1 hbreak fun e he hmem => ?_
  rcases hcut with rfl | ⟨name, rest', rfl, hline⟩
  · cases he
  · rcases parseLine_prefix hline with hnone | ⟨s, -, -, -, hsome⟩
    · cases hnone.symm.trans he
    · cases hsome.symm.trans he
      obtain ⟨name', hname', heq⟩ := List.mem_map.mp hmem
      exact (List.nodup_append.mp hnodup).2.2 name' hname' name List.mem_cons_self
        (Name.text_injective heq)

/-- The map of a prefix has entries as they were written, and perhaps one that is cut. -/
theorem mem_readParameterText_prefix (hw : ∀ name, Writable T name (w name))
    (h : text <+: outputLines T w parameterNames) :
    SortedMap.Sorted (readParameterText text) ∧ ∀ e ∈ readParameterText text,
      ∃ name : Name, e.1 = name.text ∧ (e.2 = (w name).str T ∨ EndsInside T w text name e.2) := by
  obtain ⟨done, rest, cut, hnames, rfl, hcut⟩ := prefix_outputLines parameterNames h
  obtain ⟨hsorted, hmem⟩ := mem_readParameterText_cut hw hnames hcut
  refine ⟨hsorted, fun e he => ?_⟩
  rcases (hmem e).mp he with he | he
  · obtain ⟨name, -, rfl⟩ := List.mem_map.mp he
    exact ⟨name, rfl, .inl rfl⟩
  · rcases hcut with rfl | ⟨name, rest', rfl, hline⟩
    · cases he
    · rcases parseLine_prefix hline with hnone | ⟨s, rfl, hne, hs, hsome⟩
      · cases hnone.symm.trans he
      · cases hsome.symm.trans he
        refine ⟨name, rfl, ?_⟩
        by_cases hstr : s = (w name).str T
        · exact .inl hstr
        · exact .inr ⟨by rw [namesBefore_of_split hnames], hne, hs, hstr⟩

/-- A complete line is an entry of the map. -/
theorem mem_of_hasLine (hw : ∀ name, Writable T name (w name))
    (h : text <+: outputLines T w parameterNames) {name : Name} (hline : HasLine T w text name) :
    (name.text, (w name).str T) ∈ readParameterText text := by
  obtain ⟨rest, hnames⟩ := parameterNames_split name
  have hparse : parseLine (outputLine T w name) = some (name.text, (w name).str T) := by
    have hnot : '=' ∉ name.text := fun hc => (name.text_chars.2 _ hc).2.1 rfl
    rw [outputLine, parseLine_entry hnot, if_neg (hw name).str_chars.1]
  have hall : outputLines T w parameterNames =
      (outputLines T w (namesBefore name) ++ outputLine T w name) ++
        '\n' :: outputLines T w rest := by
    rw [hnames]
    simp [outputLines]
  obtain ⟨tail, rfl⟩ := hline
  rw [hall] at h
  cases tail with
  | nil =>
    rw [List.append_nil]
    exact ((mem_readParameterText_cut hw hnames
      (.inr ⟨name, rest, rfl, List.prefix_rfl⟩)).2 _).mpr (.inr hparse)
  | cons c tail =>
    -- the line break is there, and the rest is again some lines and a part of the next one
    obtain ⟨rfl, htail⟩ := List.cons_prefix_cons.mp ((List.prefix_append_right_inj _).mp h)
    obtain ⟨done, rest, cut, rfl, rfl, hcut⟩ := prefix_outputLines rest htail
    have hnames' : parameterNames = (namesBefore name ++ name :: done) ++ rest := by
      rw [hnames, List.append_assoc, List.cons_append]
    have hread := mem_readParameterText_cut hw hnames' hcut
    have htext : outputLines T w (namesBefore name) ++ outputLine T w name ++
        '\n' :: (outputLines T w done ++ cut) =
          outputLines T w (namesBefore name ++ name :: done) ++ cut := by
      simp [outputLines]
    rw [htext]
    exact (hread.2 _).mpr (.inl (List.mem_map.mpr ⟨name, by simp, rfl⟩))

/-- The line of `kmin` comes first. -/
theorem HasLine.kmin {field : Field} (h : HasLine T w text (.ecn field)) :
    HasLine T w text (.ecn .kmin) := by
  have hbefore : field = .kmin ∨ ∃ names,
      namesBefore (.ecn field) = namesBefore (.ecn .kmin) ++ .ecn .kmin :: names := by
    cases field with
    | kmin => exact .inl rfl
    | kmax => exact .inr ⟨[], by decide⟩
    | pmax => exact .inr ⟨[.ecn .kmax], by decide⟩
  rcases hbefore with rfl | ⟨names, hnames⟩
  · exact h
  · have hlines : outputLines T w (namesBefore (.ecn field)) =
        (outputLines T w (namesBefore (.ecn .kmin)) ++ outputLine T w (.ecn .kmin)) ++
          '\n' :: outputLines T w names := by
      rw [hnames]
      simp [outputLines]
    rw [HasLine, hlines, List.append_assoc] at h
    exact (List.prefix_append ..).trans h

/-- A prefix of the file leaves each knob of a host at the old or the new value, or it ends
inside the value of that knob, which gets what is there of it. The ports get the new values of the
lines that are there. When the prefix does not end inside a value, all entries can be read. -/
theorem prefix_old_or_new (hnew : InRange T new) (h : text <+: writeParameters T new) :
    let v := normalizeParameterValues old
    let w := normalizeParameterValues new
    let m := readParameterText text
    (∀ p p', (∀ name, knob p name = hostValue T v name) → changeParameters T m p = some p' →
        ∀ name, knob p' name = hostValue T v name ∨ knob p' name = hostValue T w name ∨
          ∃ s q, EndsInside T w text (.host name) s ∧ readHost T name s = some q ∧
            knob p' name = (changed q).2) ∧
      (∀ sw sw', changeEcnThreshold T.floats sw m = some sw' →
        ∀ field, HasLine T w text (.ecn field) → ∀ i < sw.nDevices,
          portKnob (sw'.ports i) field = portValue T w field) ∧
      ((∀ name s, ¬ EndsInside T w text name s) →
        (∀ p, ∃ p', changeParameters T m p = some p') ∧
          ∀ sw, ∃ sw', changeEcnThreshold T.floats sw m = some sw') := by
  intro v w m
  have hw : ∀ name, Writable T name (w name) := hnew.writable
  obtain ⟨hm, hmem⟩ := mem_readParameterText_prefix hw h
  -- no key of the map is one of a single port
  have hport : ∀ id, ∀ e ∈ m, parsePortConfigKey e.1 id = none := fun id e he => by
    obtain ⟨name, hname, -⟩ := hmem e he
    exact hname ▸ parsePortConfigKey_name name id
  refine ⟨fun p p' hp hp' name => ?_, fun sw sw' hsw' field hline i hi => ?_, fun hnot => ?_⟩
  · obtain ⟨hin, hout⟩ := knob_changeParameters hm hp' name
    -- the parser has found a value for the knob, or leaves it alone
    by_cases hs : ∃ s, (name.text, s) ∈ m
    · obtain ⟨s, hs⟩ := hs
      obtain ⟨q, hq, hknob⟩ := hin s hs
      obtain ⟨name', hname, hval⟩ := hmem _ hs
      have hsame : name' = .host name := Name.text_injective hname.symm
      subst hsame
      rcases hval with rfl | hcut
      · obtain ⟨q', hq', hvalue⟩ := readHost_str (hw (.host name))
        rw [hknob, ← hvalue, Option.some.inj (hq.symm.trans hq')]
        exact .inr (.inl rfl)
      · exact .inr (.inr ⟨s, q, hcut, hq, hknob⟩)
    · exact .inl ((hout (not_exists.mp hs)).trans (hp name))
  · exact portKnob_write hm (hport sw.id) hw (normalize_le new) (mem_of_hasLine hw h hline.kmin)
      (mem_of_hasLine hw h hline) hsw' hi
  -- no value is cut, so that every entry is one that was written
  · have hentry : ∀ e ∈ m, ∃ name : Name, e = (name.text, (w name).str T) := fun e he => by
      obtain ⟨name, hname, hval⟩ := hmem e he
      exact ⟨name, Prod.ext hname (hval.resolve_right (hnot name e.2))⟩
    refine ⟨exists_changeParameters fun e he => ?_, fun sw => ?_⟩
    · obtain ⟨name, rfl⟩ := hentry e he
      exact readParameter_str hw name
    · exact exists_changeEcnThreshold (hport sw.id) fun e he field hfield c => by
        obtain ⟨name, rfl⟩ := hentry e he
        exact set_str hw hfield c

/-- The values of `defaultParameterValues` with an `ai_rate` of 100. -/
def fasterValues : ParameterValues :=
  Function.update (fun name => (spec name).default) (.host .aiRate) (.int 100)

/-- A host with the default values. -/
def tunedParams : Params :=
  { Params.default with
    rateOnFirstCnp := 1 / 2, rpgTimeReset := 300, rateDecreaseInterval := 4, minDecFac := 1 / 2,
    rai := 5 * 10 ^ 6, rhai := 50 * 10 ^ 6, minRate := 10 ^ 6, rpgGd := 11, dceTcpG := 1019,
    initialAlphaValue := 1023 }

/-- The file up to the first digit of the new `ai_rate`. -/
def tornText : Text := "time_reset=300\nai_rate=1".toList

theorem fasterValues_inRange : InRange defaultTexts fasterValues := by
  intro name
  rcases eq_or_ne name (.host .aiRate) with rfl | hname
  · exact ⟨by decide +kernel, by decide +kernel, trivial⟩
  · rw [fasterValues, Function.update_of_ne hname]
    exact default_inRange name

theorem knob_tunedParams (name : HostName) :
    knob tunedParams name = hostValue defaultTexts defaultParameterValues name := by
  cases name <;> decide +kernel

theorem tornText_prefix : tornText <+: writeParameters defaultTexts fasterValues := by
  decide +kernel

/-- The host gets an `ai_rate` of 1 Mbit/s, where 5 was in force and 100 was written. -/
theorem tornRead_corrupts :
    InRange defaultTexts (fun name => (spec name).default) ∧
      InRange defaultTexts fasterValues ∧
      tornText <+: writeParameters defaultTexts fasterValues ∧
      (∀ name, knob tunedParams name = hostValue defaultTexts defaultParameterValues name) ∧
      ((changeParameters defaultTexts (readParameterText tornText) tunedParams).map
        fun p => knob p .aiRate) = some (10 ^ 6) ∧
      hostValue defaultTexts defaultParameterValues .aiRate = 5 * 10 ^ 6 ∧
      hostValue defaultTexts (normalizeParameterValues fasterValues) .aiRate = 100 * 10 ^ 6 :=
  ⟨default_inRange, fasterValues_inRange, tornText_prefix, knob_tunedParams, by decide +kernel,
    by decide +kernel, by decide +kernel⟩

theorem prefix_old_or_new_torn :
    let w := normalizeParameterValues fasterValues
    ∀ p', changeParameters defaultTexts (readParameterText tornText) tunedParams = some p' →
      ∀ name, knob p' name = hostValue defaultTexts defaultParameterValues name ∨
        knob p' name = hostValue defaultTexts w name ∨
        ∃ s q, EndsInside defaultTexts w tornText (.host name) s ∧
          readHost defaultTexts name s = some q ∧ knob p' name = (changed q).2 :=
  fun p' => (prefix_old_or_new fasterValues_inRange tornText_prefix).1 tunedParams p'
    knob_tunedParams

end Paraleon.Tuning
