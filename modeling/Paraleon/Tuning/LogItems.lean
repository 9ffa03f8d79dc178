import Paraleon.Tuning.TunerLog

/-!
# The items of a log line

A line is a list of `key=value` with a comma and a blank between them. The reader splits it at the
commas that are not in parentheses and makes a dictionary of the parts.

* `splitTopLevelCommas_join`: splitting undoes joining.
* `parseKeyValueLine_items`: a line of items makes a dictionary of them, one after the other.
* `get_readItems`: the last item of a key is found.
-/

namespace Paraleon.Tuning.TunerLog

open Numerals Streams PyText

variable {fl : ℚ → Double} {beyond : Char → Bool} {text part rest begun : Text} {depth : Nat}

/-! ## Splitting at commas -/

/-- A text that `split_top_level_commas` does not split. -/
def Closed (part : Text) : Prop :=
  ∀ rest begun, splitLoop (part ++ rest) 0 begun = splitLoop rest 0 (begun ++ part)

/-- In parentheses, only parentheses count. -/
theorem splitLoop_inner (h : ∀ c ∈ part, c ≠ '(' ∧ c ≠ ')') (rest begun : Text) (depth : Nat) :
    splitLoop (part ++ rest) (depth + 1) begun = splitLoop rest (depth + 1) (begun ++ part) := by
  induction part generalizing begun with
  | nil => rw [List.nil_append, List.append_nil]
  | cons c part ih =>
    obtain ⟨⟨hopen, hclose⟩, hpart⟩ := List.forall_mem_cons.mp h
    rw [List.cons_append, splitLoop, if_neg hopen, if_neg hclose,
      if_neg fun hcomma => Nat.succ_ne_zero _ hcomma.2, ih hpart, List.append_assoc]
    rfl

theorem closed_of_chars (h : ∀ c ∈ part, c ≠ '(' ∧ c ≠ ')' ∧ c ≠ ',') : Closed part := by
  intro rest begun
  induction part generalizing begun with
  | nil => rw [List.nil_append, List.append_nil]
  | cons c part ih =>
    obtain ⟨⟨hopen, hclose, hcomma⟩, hpart⟩ := List.forall_mem_cons.mp h
    rw [List.cons_append, splitLoop, if_neg hopen, if_neg hclose, if_neg fun h => hcomma h.1,
      ih hpart, List.append_assoc]
    rfl

theorem Closed.append {part' : Text} (h : Closed part) (h' : Closed part') :
    Closed (part ++ part') := by
  intro rest begun
  rw [List.append_assoc, h, h', List.append_assoc]

theorem closed_parentheses (h : ∀ c ∈ part, c ≠ '(' ∧ c ≠ ')') : Closed ('(' :: part ++ [')']) := by
  intro rest begun
  rw [List.append_assoc, List.cons_append, splitLoop, if_pos rfl, splitLoop_inner h,
    List.singleton_append, splitLoop, if_neg (by decide), if_pos rfl, Nat.add_sub_cancel]
  simp

/-- A part of a line. -/
structure Part (part : Text) : Prop where
  closed : Closed part
  stripped : PyText.strip part = part
  ne_nil : part ≠ []

theorem joinComma_cons {parts : List Text} (h : parts ≠ []) :
    joinComma (part :: parts) = part ++ ',' :: ' ' :: joinComma parts := by
  rw [joinComma, List.intercalate_cons_of_ne_nil h, List.append_assoc]
  rfl

theorem joinComma_singleton (part : Text) : joinComma [part] = part :=
  List.intercalate_singleton

/-- The parts of a line are its parts. -/
theorem splitTopLevelCommas_join {parts : List Text} (hne : parts ≠ [])
    (h : ∀ part ∈ parts, Part part) : splitTopLevelCommas (joinComma parts) = parts := by
  have hstrip : ∀ {part begun : Text}, (∀ c ∈ begun, PyText.isSpace c = true) →
      PyText.strip (begun ++ part) = PyText.strip part := by
    intro part begun hbegun
    induction begun with
    | nil => rfl
    | cons c begun ih =>
      obtain ⟨hc, hrest⟩ := List.forall_mem_cons.mp hbegun
      rw [List.cons_append, PyText.strip_cons hc, ih hrest]
  have hloop : ∀ begun : Text, (∀ c ∈ begun, PyText.isSpace c = true) →
      splitLoop (joinComma parts) 0 begun = parts := by
    induction parts with
    | nil => exact absurd rfl hne
    | cons part parts ih =>
      intro begun hbegun
      obtain ⟨hpart, hparts⟩ := List.forall_mem_cons.mp h
      rcases eq_or_ne parts [] with rfl | hparts'
      · have hclosed := hpart.closed [] begun
        rw [List.append_nil] at hclosed
        rw [joinComma_singleton, hclosed, splitLoop, hstrip hbegun, hpart.stripped]
      · -- the blank behind the comma is stripped from the next part
        rw [joinComma_cons hparts', hpart.closed, splitLoop, if_neg (by decide),
          if_neg (by decide), if_pos ⟨rfl, rfl⟩, hstrip hbegun, hpart.stripped, splitLoop,
          if_neg (by decide), if_neg (by decide), if_neg (by decide), List.nil_append,
          ih hparts' hparts [' '] (by simp [PyText.isSpace])]
  rw [splitTopLevelCommas, hloop [] fun _ hc => absurd hc List.not_mem_nil]
  exact List.filter_eq_self.mpr fun part hpart => decide_eq_true (h part hpart).ne_nil

/-- A line of parts does not begin or end with white space. -/
theorem strip_joinComma {parts : List Text} (hne : parts ≠ []) (h : ∀ part ∈ parts, Part part) :
    PyText.strip (joinComma parts) = joinComma parts ∧ joinComma parts ≠ [] := by
  have hends : ∀ {part}, Part part → (∀ c ∈ part.head?, PyText.isSpace c = false) ∧
      ∀ c ∈ part.getLast?, PyText.isSpace c = false := fun hpart =>
    strip_eq_self_iff.mp hpart.stripped
  have hjoin : joinComma parts ≠ [] ∧ (∀ c ∈ (joinComma parts).head?, PyText.isSpace c = false) ∧
      ∀ c ∈ (joinComma parts).getLast?, PyText.isSpace c = false := by
    induction parts with
    | nil => exact absurd rfl hne
    | cons part parts ih =>
      obtain ⟨hpart, hparts⟩ := List.forall_mem_cons.mp h
      rcases eq_or_ne parts [] with rfl | hparts'
      · rw [joinComma_singleton]
        exact ⟨hpart.ne_nil, hends hpart⟩
      · obtain ⟨hrest, -, hlast⟩ := ih hparts' hparts
        rw [joinComma_cons hparts']
        refine ⟨by simp, fun c hc => (hends hpart).1 c ?_, fun c hc => hlast c ?_⟩
        · rwa [List.head?_append_of_ne_nil _ hpart.ne_nil] at hc
        · rwa [List.getLast?_append_of_ne_nil _ (List.cons_ne_nil _ _),
            List.getLast?_cons_of_ne_nil (List.cons_ne_nil _ _),
            List.getLast?_cons_of_ne_nil hrest] at hc
  exact ⟨strip_eq_self_iff.mpr hjoin.2, hjoin.1⟩

/-! ## Items -/

/-- A key that can be read. -/
structure Key (key : Text) : Prop where
  chars : ∀ c ∈ key, c ≠ '(' ∧ c ≠ ')' ∧ c ≠ ',' ∧ c ≠ '='
  unbroken : Unbroken key
  head : ∃ c rest, key = c :: rest ∧ PyText.isSpace c = false
  stripped : PyText.strip key = key

/-- A value whose text does not end its item. -/
structure Valued (fl : ℚ → Double) (v : LogValue) : Prop where
  chars : ∀ c ∈ formatLogValue v, c ≠ '(' ∧ c ≠ ')' ∧ c ≠ ','
  unbroken : Unbroken (formatLogValue v)
  stripped : PyText.strip (formatLogValue v) = formatLogValue v
  readable : Readable fl v

theorem cut_append {c : Char} (h : ∀ d ∈ text, d ≠ c) (rest : Text) :
    cut c (text ++ c :: rest) = some (text, rest) := by
  have hne : ∀ d ∈ text, decide (d ≠ c) = true := fun d hd => decide_eq_true (h d hd)
  rw [cut, List.span_eq_takeWhile_dropWhile, List.takeWhile_append_of_pos hne,
    List.dropWhile_append_of_pos hne, List.dropWhile_cons_of_neg (by simp)]
  simp

/-- A text without white space at its end, behind one that begins with none. -/
theorem strip_item {key : Text} (hkey : Key key) {s : Text} (hs : PyText.strip s = s) :
    PyText.strip (key ++ '=' :: s) = key ++ '=' :: s := by
  have hends := (strip_eq_self_iff.mp hs).2
  obtain ⟨c, rest, rfl, hc⟩ := hkey.head
  refine PyText.strip_eq_self (fun d hd => ?_) fun d hd => ?_
  · obtain rfl : c = d := Option.some.inj hd
    exact hc
  · rw [List.getLast?_append_of_ne_nil _ (List.cons_ne_nil _ _)] at hd
    rcases eq_or_ne s [] with rfl | hne
    · obtain rfl : '=' = d := Option.some.inj hd
      rfl
    · rw [List.getLast?_cons_of_ne_nil hne] at hd
      exact hends d hd

theorem item_chars {key : Text} (hkey : Key key) {v : LogValue} (hv : Valued fl v) :
    ∀ c ∈ item key v, c ≠ '(' ∧ c ≠ ')' ∧ c ≠ ',' := by
  refine List.forall_mem_append.mpr ⟨fun c hc => ?_, List.forall_mem_cons.mpr ⟨by decide, hv.chars⟩⟩
  obtain ⟨hopen, hclose, hcomma, -⟩ := hkey.chars c hc
  exact ⟨hopen, hclose, hcomma⟩

theorem part_item {key : Text} (hkey : Key key) {v : LogValue} (hv : Valued fl v) :
    Part (item key v) where
  closed := closed_of_chars (item_chars hkey hv)
  stripped := strip_item hkey hv.stripped
  ne_nil := by simp [item]

theorem Unbroken.append (h : Unbroken part) (h' : Unbroken rest) : Unbroken (part ++ rest) :=
  List.forall_mem_append.mpr ⟨h, h'⟩

theorem Unbroken.cons {c : Char} (hc : isBreak c = false) (h : Unbroken text) :
    Unbroken (c :: text) :=
  List.forall_mem_cons.mpr ⟨hc, h⟩

theorem unbroken_item {key : Text} (hkey : Key key) {v : LogValue} (hv : Valued fl v) :
    Unbroken (item key v) :=
  hkey.unbroken.append (.cons rfl hv.unbroken)

theorem unbroken_joinComma {parts : List Text} (h : ∀ part ∈ parts, Unbroken part) :
    Unbroken (joinComma parts) := by
  induction parts with
  | nil => exact nofun
  | cons part parts ih =>
    obtain ⟨hpart, hrest⟩ := List.forall_mem_cons.mp h
    rcases eq_or_ne parts [] with rfl | hne
    · rw [joinComma_singleton]
      exact hpart
    · rw [joinComma_cons hne]
      exact hpart.append (.cons rfl (.cons rfl (ih hrest)))

theorem setKeyValue_item {key : Text} (hkey : Key key) {v : LogValue} (hv : Valued fl v)
    (d : Dict Scalar) : setKeyValue fl d (item key v) = d.set key (shown fl v) := by
  have hcut : cut '=' (item key v) = some (key, formatLogValue v) :=
    cut_append (fun c hc => (hkey.chars c hc).2.2.2) _
  rw [setKeyValue, hcut]
  dsimp only
  rw [hkey.stripped, parseScalar_format hv.readable]

/-- The items of a line. -/
def Items (fl : ℚ → Double) (items : List (Text × LogValue)) : Prop :=
  ∀ e ∈ items, Key e.1 ∧ Valued fl e.2

/-- What is read of items. -/
def readItems (fl : ℚ → Double) (items : List (Text × LogValue)) : Dict Scalar :=
  items.foldl (fun d e => d.set e.1 (shown fl e.2)) []

def itemTexts (items : List (Text × LogValue)) : List Text := items.map fun e => item e.1 e.2

theorem itemTexts_append (items items' : List (Text × LogValue)) :
    itemTexts (items ++ items') = itemTexts items ++ itemTexts items' := List.map_append

theorem Items.parts {items : List (Text × LogValue)} (h : Items fl items) :
    ∀ part ∈ itemTexts items, Part part := by
  intro part hpart
  obtain ⟨e, he, rfl⟩ := List.mem_map.mp hpart
  exact part_item (h e he).1 (h e he).2

theorem parseKeyValueLine_items {items : List (Text × LogValue)} (hne : items ≠ [])
    (h : Items fl items) :
    parseKeyValueLine fl (joinComma (itemTexts items)) = readItems fl items := by
  have hne' : itemTexts items ≠ [] := fun hnil => hne (List.map_eq_nil_iff.mp hnil)
  rw [parseKeyValueLine, splitTopLevelCommas_join hne' h.parts, readItems, itemTexts,
    List.foldl_map]
  have hfold : ∀ d : Dict Scalar,
      items.foldl (fun d e => setKeyValue fl d (item e.1 e.2)) d =
        items.foldl (fun d e => d.set e.1 (shown fl e.2)) d := by
    clear hne hne'
    induction items with
    | nil => exact fun d => rfl
    | cons e items ih =>
      intro d
      obtain ⟨⟨hkey, hv⟩, hrest⟩ := List.forall_mem_cons.mp h
      rw [List.foldl_cons, List.foldl_cons, setKeyValue_item hkey hv]
      exact ih hrest _
  exact hfold []

/-- The last item of a key. -/
def lastItem (key : Text) : List (Text × LogValue) → Option LogValue
  | [] => none
  | e :: items => (lastItem key items).or (if e.1 = key then some e.2 else none)

/-- Of the items of a key, the last one is found. -/
theorem get_readItems (items : List (Text × LogValue)) (key : Text) :
    (readItems fl items).get key = (lastItem key items).map (shown fl) := by
  have hfold : ∀ d : Dict Scalar,
      (items.foldl (fun d e => d.set e.1 (shown fl e.2)) d).get key =
        ((lastItem key items).map (shown fl)).or (d.get key) := by
    induction items with
    | nil => exact fun d => rfl
    | cons e items ih =>
      intro d
      rw [List.foldl_cons, ih, Dict.get_set, lastItem]
      cases lastItem key items with
      | some v => rfl
      | none => split <;> rfl
  rw [readItems, hfold []]
  exact Option.or_none

theorem lastItem_append (key : Text) (items items' : List (Text × LogValue)) :
    lastItem key (items ++ items') = (lastItem key items').or (lastItem key items) := by
  induction items with
  | nil => exact Option.or_none.symm
  | cons e items ih => rw [List.cons_append, lastItem, ih, Option.or_assoc, lastItem]

theorem lastItem_eq_none {key : Text} {items : List (Text × LogValue)}
    (h : ∀ e ∈ items, e.1 ≠ key) : lastItem key items = none := by
  induction items with
  | nil => rfl
  | cons e items ih =>
    obtain ⟨he, hrest⟩ := List.forall_mem_cons.mp h
    rw [lastItem, ih hrest, if_neg he]
    rfl

theorem lastItem_of_nodup {items : List (Text × LogValue)} (h : (items.map Prod.fst).Nodup)
    {e : Text × LogValue} (he : e ∈ items) : lastItem e.1 items = some e.2 := by
  induction items with
  | nil => cases he
  | cons e' items ih =>
    obtain ⟨hnot, hrest⟩ := List.nodup_cons.mp h
    rw [lastItem]
    rcases List.mem_cons.mp he with rfl | he
    · rw [lastItem_eq_none fun e' he' heq => hnot (List.mem_map.mpr ⟨e', he', heq⟩), if_pos rfl]
      rfl
    · rw [ih hrest he]
      rfl

/-- A test for keys. -/
def isKey : Text → Bool
  | [] => false
  | c :: rest => !PyText.isSpace c && PyText.strip (c :: rest) = c :: rest &&
      ((c :: rest).all fun d => d ≠ '(' ∧ d ≠ ')' ∧ d ≠ ',' ∧ d ≠ '=') &&
      (c :: rest).all fun d => !isBreak d

theorem key_of_isKey {key : Text} (h : isKey key = true) : Key key := by
  cases key with
  | nil => cases h
  | cons c rest =>
    simp only [isKey, Bool.and_eq_true, Bool.not_eq_true', decide_eq_true_eq] at h
    obtain ⟨⟨⟨hc, hstrip⟩, hall⟩, hbreak⟩ := h
    exact
      { chars := fun d hd => of_decide_eq_true (List.all_eq_true.mp hall d hd)
        unbroken := fun d hd => by simpa using List.all_eq_true.mp hbreak d hd
        head := ⟨c, rest, rfl, hc⟩
        stripped := hstrip }

theorem items_of_keys {items : List (Text × LogValue)} {keys : List Text}
    (hitems : items.map Prod.fst = keys) (hkeys : keys.all isKey = true)
    (hv : ∀ e ∈ items, Valued fl e.2) : Items fl items := by
  intro e he
  have hmem : e.1 ∈ keys := hitems ▸ List.mem_map_of_mem he
  exact ⟨key_of_isKey (List.all_eq_true.mp hkeys e.1 hmem), hv e he⟩

/-- A string without the characters that separate items. -/
def Simple (s : Text) : Prop := ∀ c ∈ s, c ≠ ',' ∧ c ≠ '=' ∧ c ≠ ':' ∧ c ≠ '(' ∧ c ≠ ')'

theorem valued {v : LogValue} (h : ∀ s, v = .str s → Simple s ∧ Plain fl s) : Valued fl v := by
  cases hv : v with
  | str s =>
    obtain ⟨hsimple, hplain⟩ := h s hv
    exact
      { chars := fun c hc => by
          obtain ⟨hcomma, -, -, hopen, hclose⟩ := hsimple c hc
          exact ⟨hopen, hclose, hcomma⟩
        unbroken := hplain.unbroken
        stripped := hplain.stripped
        readable := fun s' hs' => LogValue.str.inj hs' ▸ hplain }
  | _ =>
    have hchars : ∀ c ∈ formatLogValue v, PyText.isSpace c = false ∧ isBreak c = false ∧
        c ≠ '(' ∧ c ≠ ')' ∧ c ≠ ',' := format_chars fun s hs => by rw [hv] at hs; cases hs
    rw [← hv]
    exact
      { chars := fun c hc => (hchars c hc).2.2
        unbroken := fun c hc => (hchars c hc).2.1
        stripped := strip_of_word fun c hc => (hchars c hc).1
        readable := fun s hs => by rw [hv] at hs; cases hs }

theorem valued_ofValue (v : Value) : Valued fl (ofValue v) :=
  valued fun s hs => by cases v <;> cases hs

theorem valued_float (d : Double) : Valued fl (.float d) := valued nofun

end Paraleon.Tuning.TunerLog
