import Paraleon.Tuning.LogItems

/-!
# The lines and blocks of the log

* `parseUtilityLine_items`: the utility line makes a dictionary of all its values.
* `parseBlock_lines`: a block is read line by line.
* `load_bodies`: a file is read block by block.
-/

namespace Paraleon.Tuning.TunerLog

open Numerals Streams PyText

variable {fl : ℚ → Double} {beyond : Char → Bool} {text part rest begun : Text}

/-! ## The utility line -/

theorem behind_append (first rest : Text) : behind first (first ++ rest) = some rest := by
  rw [behind, if_pos (List.isPrefixOf_iff_prefix.mpr (List.prefix_append _ _)), List.drop_left]

theorem span_append {p : Char → Bool} {s : Text} (hs : ∀ c ∈ s, p c = true) {c : Char}
    (hc : p c = false) (rest : Text) : (s ++ c :: rest).span p = (s, c :: rest) := by
  rw [List.span_eq_takeWhile_dropWhile, List.takeWhile_append_of_pos hs,
    List.dropWhile_append_of_pos hs, List.takeWhile_cons_of_neg (by simp [hc]),
    List.dropWhile_cons_of_neg (by simp [hc]), List.append_nil]

theorem format_ne_nil (v : Value) : formatLogValue (ofValue v) ≠ [] := by
  intro hnil
  have hvalued : Valued (fun _ => .nan) (ofValue v) := valued_ofValue v
  have hread := parseScalar_format hvalued.readable
  rw [hnil] at hread
  have hstr : parseScalar (fun _ => .nan) [] = .str [] := rfl
  rw [hstr] at hread
  cases v with
  | int n => cases hread
  | float x =>
    rw [ofValue, shown] at hread
    split at hread <;> cases hread

/-- The name of a component, and what it is without its end. -/
structure ComponentName (beyond : Char → Bool) (name stem : Text) : Prop where
  key : Key name
  word : ∀ c ∈ name, isWord beyond c = true
  isNorm : "_norm".toList.isSuffixOf name = true
  stem_eq : replaceNorm name = stem

variable {name stem : Text} {u : Component}

/-- What is behind the name of a component, from each of its values on. -/
def weightedText (u : Component) : Text := formatLogValue (ofValue u.weighted) ++ [')']

def rawText (u : Component) : Text :=
  formatLogValue (ofValue u.raw) ++ ',' :: (" weighted=".toList ++ weightedText u)

def normText (u : Component) : Text :=
  formatLogValue (ofValue u.norm) ++ ' ' :: ("(raw=".toList ++ rawText u)

theorem componentPart_eq (name : Text) (u : Component) :
    componentPart name u = name ++ '=' :: normText u := by
  simp [componentPart, item, normText, rawText, weightedText]

theorem utilityMatch_component (hname : ComponentName beyond name stem) :
    utilityMatch beyond (componentPart name u) = some
      { name
        norm := formatLogValue (ofValue u.norm)
        raw := formatLogValue (ofValue u.raw)
        weighted := formatLogValue (ofValue u.weighted) } := by
  have hchars : ∀ v : Value, ∀ c ∈ formatLogValue (ofValue v), PyText.isSpace c = false ∧
      isBreak c = false ∧ c ≠ '(' ∧ c ≠ ')' ∧ c ≠ ',' :=
    fun v => format_chars fun s hs => by cases v <;> cases hs
  have hcut : cut '=' (name ++ '=' :: normText u) = some (name, normText u) :=
    cut_append (fun c hc => (hname.key.chars c hc).2.2.2) _
  -- each group ends at the character that ends it
  have hnorm : (normText u).span (fun c => !PyText.isSpace c) =
      (formatLogValue (ofValue u.norm), " (raw=".toList ++ rawText u) :=
    span_append (fun c hc => by rw [(hchars u.norm c hc).1]; rfl) (by decide) _
  have hraw : (rawText u).span (fun c => decide (c ≠ ',')) =
      (formatLogValue (ofValue u.raw), ", weighted=".toList ++ weightedText u) :=
    span_append (fun c hc => decide_eq_true (hchars u.raw c hc).2.2.2.2) (by decide) _
  have hweighted : (weightedText u).span (fun c => decide (c ≠ ')')) =
      (formatLogValue (ofValue u.weighted), [')']) :=
    span_append (fun c hc => decide_eq_true (hchars u.weighted c hc).2.2.2.1) (by decide) []
  have hne : name ≠ [] := by
    obtain ⟨c, rest, rfl, -⟩ := hname.key.head
    exact List.cons_ne_nil c rest
  rw [componentPart_eq, utilityMatch, hcut, Option.bind_some]
  dsimp only
  rw [hnorm]
  dsimp only
  rw [behind_append, Option.bind_some, hraw]
  dsimp only
  rw [behind_append, Option.bind_some, hweighted, if_pos]
  exact ⟨hne, List.all_eq_true.mpr hname.word, format_ne_nil u.norm, format_ne_nil u.raw,
    format_ne_nil u.weighted, rfl⟩

/-- The items that are read of a component. -/
def componentItems (name stem : Text) (u : Component) : List (Text × LogValue) :=
  [(name, ofValue u.norm), (stem ++ "_raw".toList, ofValue u.raw),
    (stem ++ "_weighted".toList, ofValue u.weighted)]

theorem setUtility_component (hname : ComponentName beyond name stem) (d : Dict Scalar) :
    setUtility fl beyond d (componentPart name u) =
      (componentItems name stem u).foldl (fun d e => d.set e.1 (shown fl e.2)) d := by
  rw [setUtility, utilityMatch_component hname]
  dsimp only
  rw [if_pos hname.isNorm, hname.stem_eq, parseScalar_format (valued_ofValue u.norm).readable,
    parseScalar_format (valued_ofValue u.raw).readable,
    parseScalar_format (valued_ofValue u.weighted).readable]
  rfl

theorem part_component (hname : ComponentName beyond name stem) : Part (componentPart name u) where
  closed := by
    have hvalued : ∀ v : Value, Valued (fun _ => .nan) (ofValue v) := valued_ofValue
    have hraw : Key "raw".toList := key_of_isKey (by decide)
    have hweighted : Key "weighted".toList := key_of_isKey (by decide)
    have hcomma : ∀ c ∈ ", ".toList, c ≠ '(' ∧ c ≠ ')' := List.all_iff_forall_prop.mp (by decide)
    have hitem : ∀ {key : Text}, Key key → ∀ v : Value, ∀ c ∈ item key (ofValue v),
        c ≠ '(' ∧ c ≠ ')' := fun hkey v c hc =>
      ⟨(item_chars hkey (hvalued v) c hc).1, (item_chars hkey (hvalued v) c hc).2.1⟩
    have hinner : ∀ c ∈ item "raw".toList (ofValue u.raw) ++ ", ".toList ++
        item "weighted".toList (ofValue u.weighted), c ≠ '(' ∧ c ≠ ')' :=
      List.forall_mem_append.mpr ⟨List.forall_mem_append.mpr ⟨hitem hraw u.raw, hcomma⟩,
        hitem hweighted u.weighted⟩
    have hblank : Closed [' '] := closed_of_chars (List.all_iff_forall_prop.mp (by decide))
    have hsplit : componentPart name u = item name (ofValue u.norm) ++ ([' '] ++
        ('(' :: (item "raw".toList (ofValue u.raw) ++ ", ".toList ++
          item "weighted".toList (ofValue u.weighted)) ++ [')'])) := by
      simp [componentPart]
    rw [hsplit]
    exact (part_item hname.key (hvalued u.norm)).closed.append
      (hblank.append (closed_parentheses hinner))
  stripped := by
    have hsplit : componentPart name u = name ++ '=' :: (formatLogValue (ofValue u.norm) ++
      ' ' :: ("(raw=".toList ++ (formatLogValue (ofValue u.raw) ++
        ',' :: (" weighted=".toList ++ formatLogValue (ofValue u.weighted))))) ++ [')'] := by
      simp [componentPart, item]
    obtain ⟨c, rest, hcons, hc⟩ := hname.key.head
    refine PyText.strip_eq_self (fun d hd => ?_) fun d hd => ?_
    · rw [componentPart_eq, hcons] at hd
      obtain rfl : c = d := Option.some.inj hd
      exact hc
    · rw [hsplit, List.getLast?_append_of_ne_nil _ (List.cons_ne_nil _ _)] at hd
      obtain rfl : ')' = d := Option.some.inj hd
      rfl
  ne_nil := by simp [componentPart, item]

/-- An item without parentheses is no component. -/
theorem setUtility_item {key : Text} (hkey : Key key) (v : Value) (d : Dict Scalar) :
    setUtility fl beyond d (item key (ofValue v)) = d.set key (shown fl (ofValue v)) := by
  have hchars : ∀ c ∈ formatLogValue (ofValue v), (!PyText.isSpace c) = true := fun c hc => by
    have hspace := (format_chars (v := ofValue v) (fun s hs => by cases v <;> cases hs) c hc).1
    rw [hspace]
    rfl
  have hcut : cut '=' (item key (ofValue v)) = some (key, formatLogValue (ofValue v)) :=
    cut_append (fun c hc => (hkey.chars c hc).2.2.2) _
  have hnone : utilityMatch beyond (item key (ofValue v)) = none := by
    rw [utilityMatch, hcut, Option.bind_some]
    dsimp only
    rw [List.span_eq_takeWhile_dropWhile, List.dropWhile_eq_nil_iff.mpr hchars]
    rfl
  rw [setUtility, hnone]
  exact setKeyValue_item hkey (valued_ofValue v) d

/-- Three components and an item. -/
theorem foldl_setUtility {name₁ stem₁ name₂ stem₂ name₃ stem₃ key : Text}
    (h₁ : ComponentName beyond name₁ stem₁) (h₂ : ComponentName beyond name₂ stem₂)
    (h₃ : ComponentName beyond name₃ stem₃) (hkey : Key key) (u₁ u₂ u₃ : Component) (v : Value) :
    [componentPart name₁ u₁, componentPart name₂ u₂, componentPart name₃ u₃,
      item key (ofValue v)].foldl (setUtility fl beyond) [] =
      readItems fl (componentItems name₁ stem₁ u₁ ++ componentItems name₂ stem₂ u₂ ++
        componentItems name₃ stem₃ u₃ ++ [(key, ofValue v)]) := by
  rw [List.foldl_cons, List.foldl_cons, List.foldl_cons, List.foldl_cons, List.foldl_nil,
    setUtility_component h₁, setUtility_component h₂, setUtility_component h₃,
    setUtility_item hkey, readItems, List.foldl_append, List.foldl_append, List.foldl_append,
    List.foldl_cons, List.foldl_nil]

/-- The items that are read of a utility line. -/
def utilityItems (u : UtilityBreakdown) : List (Text × LogValue) :=
  componentItems "throughput_norm".toList "throughput".toList u.throughput ++
    componentItems "rtt_norm".toList "rtt".toList u.rtt ++
    componentItems "pfc_norm".toList "pfc".toList u.pfc ++
    [("total".toList, ofValue u.totalUtility)]

def utilityParts (u : UtilityBreakdown) : List Text :=
  [componentPart "throughput_norm".toList u.throughput, componentPart "rtt_norm".toList u.rtt,
    componentPart "pfc_norm".toList u.pfc, item "total".toList (ofValue u.totalUtility)]

theorem componentName_of (hkey : isKey name = true)
    (hword : (name.all fun c => c.toNat < 128 && (c.isAlphanum || c = '_')) = true)
    (hnorm : "_norm".toList.isSuffixOf name = true) (hstem : replaceNorm name = stem) :
    ComponentName beyond name stem where
  key := key_of_isKey hkey
  word c hc := by
    have hc := List.all_eq_true.mp hword c hc
    rw [Bool.and_eq_true, decide_eq_true_eq] at hc
    rw [isWord, if_pos hc.1, hc.2]
  isNorm := hnorm
  stem_eq := hstem

theorem componentName_throughput :
    ComponentName beyond "throughput_norm".toList "throughput".toList :=
  componentName_of (by decide) (by decide) (by decide) (by decide)

theorem componentName_rtt : ComponentName beyond "rtt_norm".toList "rtt".toList :=
  componentName_of (by decide) (by decide) (by decide) (by decide)

theorem componentName_pfc : ComponentName beyond "pfc_norm".toList "pfc".toList :=
  componentName_of (by decide) (by decide) (by decide) (by decide)

theorem parts_utility (beyond : Char → Bool) (u : UtilityBreakdown) :
    ∀ part ∈ utilityParts u, Part part := by
  have htotal : Key "total".toList := key_of_isKey (by decide)
  have hvalued : Valued (fun _ => .nan) (ofValue u.totalUtility) := valued_ofValue _
  have hthroughput : Part (componentPart "throughput_norm".toList u.throughput) :=
    part_component (componentName_throughput : ComponentName beyond _ _)
  have hrtt : Part (componentPart "rtt_norm".toList u.rtt) :=
    part_component (componentName_rtt : ComponentName beyond _ _)
  have hpfc : Part (componentPart "pfc_norm".toList u.pfc) :=
    part_component (componentName_pfc : ComponentName beyond _ _)
  exact List.forall_mem_cons.mpr ⟨hthroughput, List.forall_mem_cons.mpr ⟨hrtt,
    List.forall_mem_cons.mpr ⟨hpfc, List.forall_mem_singleton.mpr (part_item htotal hvalued)⟩⟩⟩

theorem parseUtilityLine_items (u : UtilityBreakdown) :
    parseUtilityLine fl beyond (joinComma (utilityParts u)) = readItems fl (utilityItems u) := by
  have hne : utilityParts u ≠ [] := List.cons_ne_nil _ _
  rw [parseUtilityLine, splitTopLevelCommas_join hne (parts_utility beyond u)]
  exact foldl_setUtility componentName_throughput componentName_rtt componentName_pfc
    (key_of_isKey (by decide)) u.throughput u.rtt u.pfc u.totalUtility

/-! ## The lines of a block -/

/-- A line without white space at its ends or a line break. -/
structure Line (line : Text) : Prop where
  stripped : PyText.strip line = line
  ne_nil : line ≠ []
  unbroken : Unbroken line

/-- The line of a name and its content. -/
def detail (name content : Text) : Text := name ++ ':' :: ' ' :: content

/-- The writer has the colon in the name. -/
theorem detail_of_label {name label : Text} (h : label = name ++ [':', ' ']) (content : Text) :
    label ++ content = detail name content := by
  rw [h, List.append_assoc]
  rfl

theorem Line.detail {name content : Text} (hname : Key name) (hbreak : Unbroken name)
    (hcontent : Line content) : Line (detail name content) where
  stripped := by
    have hends := (strip_eq_self_iff.mp hcontent.stripped).2
    obtain ⟨c, rest, hcons, hc⟩ := hname.head
    refine PyText.strip_eq_self (fun d hd => ?_) fun d hd => ?_
    · rw [TunerLog.detail, hcons] at hd
      obtain rfl : c = d := Option.some.inj hd
      exact hc
    · rw [TunerLog.detail, List.getLast?_append_of_ne_nil _ (List.cons_ne_nil _ _),
        List.getLast?_cons_of_ne_nil (List.cons_ne_nil _ _),
        List.getLast?_cons_of_ne_nil hcontent.ne_nil] at hd
      exact hends d hd
  ne_nil := by simp [TunerLog.detail]
  unbroken := hbreak.append (.cons rfl (.cons rfl hcontent.unbroken))

theorem setLine_detail {name content : Text} (hname : ∀ c ∈ name, c ≠ ':')
    (hcontent : PyText.strip content = content) (hline : Line (detail name content))
    (block : Block) :
    setLine fl beyond block ('\t' :: detail name content) =
      if name = "utility".toList then block.set name (.dict (parseUtilityLine fl beyond content))
      else block.set name (.dict (parseKeyValueLine fl content)) := by
  have hcut : cut ':' (detail name content) = some (name, ' ' :: content) := cut_append hname _
  rw [setLine, PyText.strip_cons rfl, hline.stripped, hcut]
  dsimp only
  rw [PyText.strip_cons rfl, hcontent]

theorem splitlines_join {lines : List Text} (hne : lines ≠ [])
    (h : ∀ line ∈ lines, Unbroken line) :
    splitlines (List.intercalate ['\n'] lines) = lines := by
  induction lines with
  | nil => exact absurd rfl hne
  | cons line lines ih =>
    obtain ⟨hline, hrest⟩ := List.forall_mem_cons.mp h
    rcases eq_or_ne lines [] with rfl | hlines
    · rw [List.intercalate_singleton]
      exact List.splitOnP_eq_singleton hline
    · rw [List.intercalate_cons_of_ne_nil hlines, List.append_assoc, List.singleton_append,
        splitlines, List.splitOnP_append_cons_of_forall_mem hline '\n' rfl]
      exact congrArg (line :: ·) (ih hlines hrest)

/-- The text of a block is read line by line. -/
theorem parseBlock_lines {first : Text} {details : List Text} (hfirst : Line first)
    (hdetails : ∀ line ∈ details, Line line) :
    parseBlock fl beyond (List.intercalate ['\n'] (first :: details.map ('\t' :: ·))) =
      (cut '=' first).map fun e => (details.map ('\t' :: ·)).foldl (setLine fl beyond)
        [(PyText.strip e.1, .scalar (parseScalar fl e.2))] := by
  have hunbroken : ∀ line ∈ first :: details.map ('\t' :: ·), Unbroken line := by
    refine List.forall_mem_cons.mpr ⟨hfirst.unbroken, fun line hline => ?_⟩
    obtain ⟨detail, hdetail, rfl⟩ := List.mem_map.mp hline
    exact List.forall_mem_cons.mpr ⟨rfl, (hdetails detail hdetail).unbroken⟩
  have hstrip : ∀ line ∈ first :: details.map ('\t' :: ·), PyText.strip line ≠ [] := by
    refine List.forall_mem_cons.mpr ⟨?_, fun line hline => ?_⟩
    · rw [hfirst.stripped]
      exact hfirst.ne_nil
    · obtain ⟨detail, hdetail, rfl⟩ := List.mem_map.mp hline
      rw [PyText.strip_cons rfl, (hdetails detail hdetail).stripped]
      exact (hdetails detail hdetail).ne_nil
  have hright : ∀ line ∈ first :: details.map ('\t' :: ·),
      line.rdropWhile PyText.isSpace = line := by
    have hlast : ∀ {line}, Line line → ∀ c ∈ line.getLast?, PyText.isSpace c = false :=
      fun hline => (strip_eq_self_iff.mp hline.stripped).2
    refine List.forall_mem_cons.mpr ⟨rdropWhile_of_getLast (hlast hfirst), fun line hline => ?_⟩
    obtain ⟨detail, hdetail, rfl⟩ := List.mem_map.mp hline
    refine rdropWhile_of_getLast fun c hc => hlast (hdetails detail hdetail) c ?_
    rwa [List.getLast?_cons_of_ne_nil (hdetails detail hdetail).ne_nil] at hc
  rw [parseBlock, splitlines_join (List.cons_ne_nil _ _) hunbroken,
    List.filter_eq_self.mpr fun line hline => decide_eq_true (hstrip line hline),
    List.map_congr_left hright, List.map_id']

theorem line_items {items : List (Text × LogValue)} (hne : items ≠ []) (h : Items fl items) :
    Line (joinComma (itemTexts items)) := by
  have hne' : itemTexts items ≠ [] := fun hnil => hne (List.map_eq_nil_iff.mp hnil)
  obtain ⟨hstripped, hjoin⟩ := strip_joinComma hne' h.parts
  refine ⟨hstripped, hjoin, unbroken_joinComma fun part hpart => ?_⟩
  obtain ⟨e, he, rfl⟩ := List.mem_map.mp hpart
  exact unbroken_item (h e he).1 (h e he).2

theorem unbroken_component (hname : ComponentName beyond name stem) :
    Unbroken (componentPart name u) := by
  have hvalued : ∀ v : Value, Valued (fun _ => .nan) (ofValue v) := valued_ofValue
  have hraw : Key "raw".toList := key_of_isKey (by decide)
  have hweighted : Key "weighted".toList := key_of_isKey (by decide)
  have hopen : Unbroken " (".toList := List.all_iff_forall_prop.mp (by decide)
  have hcomma : Unbroken ", ".toList := List.all_iff_forall_prop.mp (by decide)
  have hclose : Unbroken [')'] := List.all_iff_forall_prop.mp (by decide)
  have hinner : Unbroken (item "raw".toList (ofValue u.raw) ++
      ", ".toList ++ item "weighted".toList (ofValue u.weighted)) :=
    ((unbroken_item hraw (hvalued u.raw)).append hcomma).append
      (unbroken_item hweighted (hvalued u.weighted))
  rw [componentPart]
  exact (((unbroken_item hname.key (hvalued u.norm)).append hopen).append hinner).append hclose

theorem line_utility (beyond : Char → Bool) (u : UtilityBreakdown) :
    Line (joinComma (utilityParts u)) := by
  have htotal : Key "total".toList := key_of_isKey (by decide)
  have hvalued : Valued (fun _ => .nan) (ofValue u.totalUtility) := valued_ofValue _
  obtain ⟨hstripped, hjoin⟩ := strip_joinComma (List.cons_ne_nil _ _) (parts_utility beyond u)
  refine ⟨hstripped, hjoin, unbroken_joinComma ?_⟩
  exact List.forall_mem_cons.mpr
    ⟨unbroken_component (componentName_throughput : ComponentName beyond _ _),
      List.forall_mem_cons.mpr ⟨unbroken_component (componentName_rtt : ComponentName beyond _ _),
        List.forall_mem_cons.mpr
          ⟨unbroken_component (componentName_pfc : ComponentName beyond _ _),
            List.forall_mem_singleton.mpr (unbroken_item htotal hvalued)⟩⟩⟩

/-! ## The blocks of a file -/

/-- A text of lines that are not empty. -/
structure Body (body : Text) : Prop where
  lines : ∃ lines : List Text, lines ≠ [] ∧ (∀ line ∈ lines, line ≠ [] ∧ Unbroken line) ∧
    body = List.intercalate ['\n'] lines

theorem splitBlocks_line {line : Text} (h : ∀ c ∈ line, c ≠ '\n') (rest begun : Text) :
    splitBlocks (line ++ rest) begun = splitBlocks rest (begun ++ line) := by
  induction line generalizing begun with
  | nil => rw [List.nil_append, List.append_nil]
  | cons c line ih =>
    obtain ⟨hc, hrest⟩ := List.forall_mem_cons.mp h
    rw [List.cons_append, splitBlocks, ih hrest, List.append_assoc]
    · rfl
    · exact fun _ heq => absurd heq hc

/-- A block ends at the first empty line. -/
theorem splitBlocks_body {body : Text} (h : Body body) (rest : Text) :
    splitBlocks (body ++ '\n' :: '\n' :: rest) [] = body :: splitBlocks rest [] := by
  obtain ⟨lines, hne, hlines, rfl⟩ := h
  have hnot : ∀ {line : Text}, Unbroken line → ∀ c ∈ line, c ≠ '\n' := by
    rintro line hline c hc rfl
    exact absurd (hline _ hc) (by decide)
  have hloop : ∀ begun : Text,
      splitBlocks (List.intercalate ['\n'] lines ++ '\n' :: '\n' :: rest) begun =
        (begun ++ List.intercalate ['\n'] lines) :: splitBlocks rest [] := by
    induction lines with
    | nil => exact absurd rfl hne
    | cons line lines ih =>
      intro begun
      obtain ⟨⟨-, hline⟩, hrest⟩ := List.forall_mem_cons.mp hlines
      rcases eq_or_ne lines [] with rfl | hlines'
      · rw [List.intercalate_singleton, splitBlocks_line (hnot hline), splitBlocks]
      · obtain ⟨next, lines, rfl⟩ := List.exists_cons_of_ne_nil hlines'
        obtain ⟨⟨hnext, hnext'⟩, -⟩ := List.forall_mem_cons.mp hrest
        obtain ⟨c, next, rfl⟩ := List.exists_cons_of_ne_nil hnext
        have hc : c ≠ '\n' := hnot hnext' c List.mem_cons_self
        rw [List.intercalate_cons_of_ne_nil hlines', List.append_assoc, List.append_assoc,
          splitBlocks_line (hnot hline), List.singleton_append]
        -- an end of a line in front of a line that is not empty
        obtain ⟨tail, htail⟩ : ∃ tail, List.intercalate ['\n'] ((c :: next) :: lines) ++
            '\n' :: '\n' :: rest = c :: tail := by
          rcases eq_or_ne lines [] with rfl | hlines''
          · exact ⟨_, by rw [List.intercalate_singleton]; rfl⟩
          · exact ⟨_, by rw [List.intercalate_cons_of_ne_nil hlines'']; rfl⟩
        have hstep : splitBlocks ('\n' :: c :: tail) (begun ++ line) =
            splitBlocks (c :: tail) (begun ++ line ++ ['\n']) := by
          rw [splitBlocks]
          rintro _ - heq
          exact hc (List.cons.inj heq).1
        rw [htail, hstep, ← htail, ih hlines' hrest]
        simp
  exact hloop []

theorem splitBlocks_bodies {bodies : List Text} (h : ∀ body ∈ bodies, Body body) :
    splitBlocks (bodies.flatMap (· ++ ['\n', '\n'])) [] = bodies ++ [[]] := by
  induction bodies with
  | nil => rfl
  | cons body bodies ih =>
    obtain ⟨hbody, hrest⟩ := List.forall_mem_cons.mp h
    rw [List.flatMap_cons, List.append_assoc, List.cons_append, List.singleton_append,
      splitBlocks_body hbody, ih hrest, List.cons_append]

theorem newlines_eq_self (h : '\r' ∉ text) : newlines text = text := by
  induction text with
  | nil => rfl
  | cons c text ih =>
    obtain ⟨hc, hrest⟩ := not_or.mp (mt List.mem_cons.mpr h)
    rw [newlines, ih hrest]
    · rintro _ rfl
      exact absurd rfl hc
    · rintro rfl
      exact absurd rfl hc

theorem not_mem_join {lines : List Text} (h : ∀ line ∈ lines, Unbroken line) :
    '\r' ∉ List.intercalate ['\n'] lines := by
  have hnot : ∀ {line : Text}, Unbroken line → '\r' ∉ line := fun hline hmem =>
    absurd (hline _ hmem) (by decide)
  induction lines with
  | nil => exact nofun
  | cons line lines ih =>
    obtain ⟨hline, hrest⟩ := List.forall_mem_cons.mp h
    rcases eq_or_ne lines [] with rfl | hne
    · rw [List.intercalate_singleton]
      exact hnot hline
    · rw [List.intercalate_cons_of_ne_nil hne]
      intro hmem
      rcases List.mem_append.mp hmem with hmem | hmem
      · rcases List.mem_append.mp hmem with hmem | hmem
        · exact hnot hline hmem
        · exact absurd hmem (by decide)
      · exact ih hrest hmem

/-- The blocks of a log are read one after the other. -/
theorem load_bodies {bodies : List Text} (h : ∀ body ∈ bodies, Body body) :
    (splitBlocks (newlines (bodies.flatMap (· ++ ['\n', '\n']))) []).filterMap
      (parseBlock fl beyond) = bodies.filterMap (parseBlock fl beyond) := by
  have hnot : '\r' ∉ bodies.flatMap (· ++ ['\n', '\n']) := by
    intro hmem
    obtain ⟨body, hbody, hmem⟩ := List.mem_flatMap.mp hmem
    obtain ⟨lines, -, hlines, rfl⟩ := (h body hbody).lines
    rcases List.mem_append.mp hmem with hmem | hmem
    · exact not_mem_join (fun line hline => (hlines line hline).2) hmem
    · exact absurd hmem (by decide)
  have hempty : parseBlock fl beyond [] = none := by
    rw [parseBlock, splitlines, List.splitOnP_nil]
    rfl
  rw [newlines_eq_self hnot, splitBlocks_bodies h, List.filterMap_append,
    List.filterMap_cons_none hempty, List.filterMap_nil, List.append_nil]

end Paraleon.Tuning.TunerLog
