import Mathlib.Algebra.Order.Ring.Rat
import Mathlib.Data.List.DropRight
import Mathlib.Data.List.TakeDrop
import Paraleon.Library.Streams

/-!
# Texts in Python

What `strip`, `split`, `int` and `float` of Python do with any text: white space and digits are
those of Unicode, and there may be underscores between digits. A dictionary keeps its keys in
the order in which they came.

* `split_append_break`: a text is split at its white space.
* `int_of_digits`, `float_fixed`: what other programs print as a number is read as that number.
-/

namespace PyText

open Numerals

/-! ## White space -/

/-- `str.isspace` -/
def isSpace (c : Char) : Bool :=
  c.toNat ∈ [0x09, 0x0a, 0x0b, 0x0c, 0x0d, 0x1c, 0x1d, 0x1e, 0x1f, 0x20, 0x85, 0xa0, 0x1680, 0x2000,
    0x2001, 0x2002, 0x2003, 0x2004, 0x2005, 0x2006, 0x2007, 0x2008, 0x2009, 0x200a, 0x2028, 0x2029,
    0x202f, 0x205f, 0x3000]

/-- The characters at which `str.splitlines` ends a line. -/
def isBreak (c : Char) : Bool :=
  c.toNat ∈ [0x0a, 0x0b, 0x0c, 0x0d, 0x1c, 0x1d, 0x1e, 0x85, 0x2028, 0x2029]

/-- `s.strip()` -/
def strip (s : Text) : Text := (s.dropWhile isSpace).rdropWhile isSpace

/-- `s.split()` -/
def split (s : Text) : List Text := (s.splitOnP isSpace).filter (· ≠ [])

/-- `s.splitlines()`, with an empty line more behind the last break and inside `"\r\n"`. -/
def splitlines (s : Text) : List Text := s.splitOnP isBreak

/-- The lines of a file that is open as text, without their ends; empty ones are as above. -/
def fileLines (s : Text) : List Text := s.splitOnP fun c => c = '\n' || c = '\r'

/-- What is read of a file that is open as text: each kind of line end is `"\n"`. -/
def newlines : Text → Text
  | '\r' :: '\n' :: s => '\n' :: newlines s
  | '\r' :: s => '\n' :: newlines s
  | c :: s => c :: newlines s
  | [] => []

/-- The lines over which a file is iterated, without their ends; nothing follows a last end. -/
def readLines (s : Text) : List Text :=
  let lines := (newlines s).splitOnP (· = '\n')
  if lines.getLast? = some [] then lines.dropLast else lines

/-! ## Numbers -/

/-- The code points of the digits zero of the scripts of Unicode. -/
def zeros : List Nat :=
  [0x30, 0x660, 0x6f0, 0x7c0, 0x966, 0x9e6, 0xa66, 0xae6, 0xb66, 0xbe6, 0xc66, 0xce6, 0xd66, 0xde6,
    0xe50, 0xed0, 0xf20, 0x1040, 0x1090, 0x17e0, 0x1810, 0x1946, 0x19d0, 0x1a80, 0x1a90, 0x1b50,
    0x1bb0, 0x1c40, 0x1c50, 0xa620, 0xa8d0, 0xa900, 0xa9d0, 0xa9f0, 0xaa50, 0xabf0, 0xff10, 0x104a0,
    0x10d30, 0x11066, 0x110f0, 0x11136, 0x111d0, 0x112f0, 0x11450, 0x114d0, 0x11650, 0x116c0,
    0x11730, 0x118e0, 0x11950, 0x11c50, 0x11d50, 0x11da0, 0x16a60, 0x16ac0, 0x16b50, 0x1d7ce,
    0x1d7d8, 0x1d7e2, 0x1d7ec, 0x1d7f6, 0x1e140, 0x1e2f0, 0x1e950, 0x1fbf0]

/-- `unicodedata.decimal` -/
def digitValue (c : Char) : Option Nat :=
  (zeros.find? fun z => z ≤ c.toNat && c.toNat < z + 10).map fun z => c.toNat - z

/-- Digits, with single underscores between them. -/
def digits : Text → Option (List Nat)
  | [] => none
  | [c] => (digitValue c).map fun d => [d]
  | c :: '_' :: s => (digitValue c).bind fun d => (digits s).map (d :: ·)
  | c :: s => (digitValue c).bind fun d => (digits s).map (d :: ·)

/-- The number of some digits. -/
def ofDigits (ds : List Nat) : Nat := ds.foldl (fun n d => 10 * n + d) 0

/-- `int(s)`; `none` is a `ValueError`. -/
def int (s : Text) : Option Int :=
  let (negative, s) := splitSign (strip s)
  (digits s).map fun ds => if negative then -(ofDigits ds : Int) else ofDigits ds

/-- The digits before and behind the point; one of the two may be missing. -/
def mantissa (s : Text) : Option (List Nat × List Nat) :=
  match s.span (· ≠ '.') with
  | (whole, []) => (digits whole).map fun ds => (ds, [])
  | ([], _ :: fraction) => (digits fraction).map fun ds => ([], ds)
  | (whole, [_]) => (digits whole).map fun ds => (ds, [])
  | (whole, _ :: fraction) =>
    (digits whole).bind fun ds => (digits fraction).map fun fs => (ds, fs)

/-- `float(s)` for a decimal numeral. `fl` is the double nearest to a number. -/
def float {F : Type*} (fl : ℚ → F) (s : Text) : Option F :=
  let (negative, s) := splitSign (strip s)
  let (m, s) := s.span fun c => c ≠ 'e' && c ≠ 'E'
  (mantissa m).bind fun (whole, fraction) =>
    let exponent : Option Int :=
      match s with
      | [] => some 0
      | _ :: s =>
        let (negative, s) := splitSign s
        (digits s).map fun ds => if negative then -(ofDigits ds : Int) else ofDigits ds
    exponent.map fun e =>
      let v : ℚ := ofDigits (whole ++ fraction) / 10 ^ fraction.length * 10 ^ e
      fl (if negative then -v else v)

/-! ## Dictionaries -/

/-- A dictionary, in the order in which its keys came. -/
abbrev Dict (α : Type*) := List (Text × α)

namespace Dict

variable {α : Type*}

/-- `d[key] = value` -/
def set (d : Dict α) (key : Text) (value : α) : Dict α :=
  if d.any fun e => e.1 = key then d.map fun e => if e.1 = key then (key, value) else e
  else d ++ [(key, value)]

/-- `d.get(key)` -/
def get (d : Dict α) (key : Text) : Option α := (d.find? fun e => e.1 = key).map Prod.snd

theorem mem_set {d : Dict α} {key : Text} {value : α} {e : Text × α} (h : e ∈ d.set key value) :
    e ∈ d ∨ e = (key, value) := by
  unfold set at h
  split at h
  · obtain ⟨e', he', rfl⟩ := List.mem_map.mp h
    split
    · exact .inr rfl
    · exact .inl he'
  · exact (List.mem_append.mp h).imp_right List.mem_singleton.mp

/-- Where a key is found. -/
theorem find?_key {d : Dict α} {key : Text} {e : Text × α}
    (h : (d.find? fun e => e.1 = key) = some e) : e ∈ d ∧ e.1 = key := by
  have hkey : decide (e.1 = key) = true :=
    List.find?_some (p := fun e : Text × α => decide (e.1 = key)) h
  exact ⟨List.mem_of_find?_eq_some h, of_decide_eq_true hkey⟩

theorem mem_of_get {d : Dict α} {key : Text} {value : α} (h : d.get key = some value) :
    (key, value) ∈ d := by
  obtain ⟨e, he, rfl⟩ := Option.map_eq_some_iff.mp h
  obtain ⟨hmem, rfl⟩ := find?_key he
  exact hmem

theorem get_set (d : Dict α) (key key' : Text) (value : α) :
    (d.set key value).get key' = if key = key' then some value else d.get key' := by
  unfold set
  split
  · next hany =>
    have hfind : ((d.map fun e => if e.1 = key then (key, value) else e).find?
        fun e => decide (e.1 = key')) =
          (d.find? fun e => decide (e.1 = key')).map
            fun e => if e.1 = key then (key, value) else e := by
      rw [List.find?_map]
      congr 2
      funext e
      simp only [Function.comp_apply]
      split
      · next heq => rw [heq]
      · rfl
    rw [get, hfind, Option.map_map]
    split
    · next heq =>
      subst heq
      obtain ⟨e, he, hkey⟩ := List.any_eq_true.mp hany
      obtain ⟨e', he'⟩ := Option.isSome_iff_exists.mp
        (List.find?_isSome.mpr ⟨e, he, hkey⟩ : (d.find? fun e => decide (e.1 = key)).isSome)
      rw [he', Option.map_some, Function.comp_apply, if_pos (find?_key he').2]
    · next hne =>
      cases hfound : d.find? fun e => decide (e.1 = key') with
      | none => rw [get, hfound, Option.map_none, Option.map_none]
      | some e =>
        have hkey : e.1 ≠ key := fun heq => hne (heq.symm.trans (find?_key hfound).2)
        rw [get, hfound, Option.map_some, Option.map_some, Function.comp_apply, if_neg hkey]
  · next hany =>
    rw [get, get, List.find?_append]
    split
    · next heq =>
      subst heq
      have hnone : (d.find? fun e => decide (e.1 = key)) = none :=
        List.find?_eq_none.mpr fun e he hkey => hany (List.any_eq_true.mpr ⟨e, he, hkey⟩)
      rw [hnone]
      simp
    · next hne => simp [hne]

theorem set_new {d : Dict α} {key : Text} (h : ∀ e ∈ d, e.1 ≠ key) (value : α) :
    d.set key value = d ++ [(key, value)] := by
  have hany : (d.any fun e => e.1 = key) = false := by simpa using h
  rw [set, hany]
  rfl

end Dict

/-! ## Splitting -/

theorem forall_mem_splitOnP {p : Char → Bool} {s : Text} :
    ∀ part ∈ s.splitOnP p, ∀ c ∈ part, c ∈ s ∧ p c = false := by
  induction s with
  | nil => simp
  | cons d s ih =>
    intro part hpart c hc
    rw [List.splitOnP_cons_eq_if_modifyHead] at hpart
    obtain ⟨first, rest, hsplit⟩ := List.exists_cons_of_ne_nil (List.splitOnP_ne_nil p s)
    rw [hsplit] at ih hpart
    split at hpart
    · rcases List.mem_cons.mp hpart with rfl | hpart
      · cases hc
      · exact (ih part hpart c hc).imp_left (List.mem_cons_of_mem d)
    · next hd =>
      rcases List.mem_cons.mp hpart with rfl | hpart
      · rcases List.mem_cons.mp hc with rfl | hc
        · exact ⟨List.mem_cons_self, Bool.eq_false_of_not_eq_true hd⟩
        · exact (ih first List.mem_cons_self c hc).imp_left (List.mem_cons_of_mem d)
      · exact (ih part (List.mem_cons_of_mem _ hpart) c hc).imp_left (List.mem_cons_of_mem d)

variable {s t rest : Text} {c : Char}

theorem split_append_break (hc : isSpace c = true) (s rest : Text) :
    split (s ++ c :: rest) = split s ++ split rest := by
  rw [split, List.splitOnP_append_cons s rest hc, List.filter_append]
  rfl

theorem split_word (hs : s ≠ []) (hword : ∀ c ∈ s, isSpace c = false) : split s = [s] := by
  rw [split, List.splitOnP_eq_singleton hword]
  simp [hs]

/-- The first word. -/
theorem split_cons (hs : s ≠ []) (hword : ∀ c ∈ s, isSpace c = false) (hc : isSpace c = true)
    (rest : Text) : split (s ++ c :: rest) = s :: split rest := by
  rw [split_append_break hc, split_word hs hword]
  rfl

/-- Nothing is stripped from a text that neither begins nor ends with white space. -/
theorem strip_eq_self (hhead : ∀ c ∈ s.head?, isSpace c = false)
    (hlast : ∀ c ∈ s.getLast?, isSpace c = false) : strip s = s := by
  have hdrop : s.dropWhile isSpace = s := by
    cases s with
    | nil => rfl
    | cons c s => rw [List.dropWhile_cons_of_neg (by simp [hhead c rfl])]
  rw [strip, hdrop, List.rdropWhile_eq_self_iff]
  intro hs
  simp [hlast _ (List.getLast?_eq_some_getLast hs)]

theorem strip_of_word (hword : ∀ c ∈ s, isSpace c = false) : strip s = s :=
  strip_eq_self (fun c hc => hword c (List.mem_of_mem_head? hc))
    fun c hc => hword c (List.mem_of_mem_getLast? hc)

theorem mem_of_mem_strip (h : c ∈ strip s) : c ∈ s :=
  (List.dropWhile_suffix _).subset ((List.rdropWhile_prefix _ _).subset h)

/-- A stripped text neither begins nor ends with white space. -/
theorem strip_ends (s : Text) :
    (∀ c ∈ (strip s).head?, isSpace c = false) ∧ ∀ c ∈ (strip s).getLast?, isSpace c = false := by
  constructor
  · intro c hc
    have hhead := List.head?_dropWhile_not isSpace s
    obtain ⟨t, ht⟩ := List.rdropWhile_prefix isSpace (s.dropWhile isSpace)
    have hc' : (s.dropWhile isSpace).head? = some c := by
      rw [← ht, List.head?_append, show (List.rdropWhile isSpace (s.dropWhile isSpace)).head? =
        some c from hc, Option.some_or]
    rw [hc'] at hhead
    simpa using hhead
  · intro c hc
    obtain ⟨hne, rfl⟩ := List.mem_getLast?_eq_getLast hc
    exact Bool.eq_false_of_not_eq_true (List.rdropWhile_last_not isSpace _ hne)

theorem strip_strip (s : Text) : strip (strip s) = strip s :=
  strip_eq_self (strip_ends s).1 (strip_ends s).2

theorem strip_eq_self_iff : strip s = s ↔
    (∀ c ∈ s.head?, isSpace c = false) ∧ ∀ c ∈ s.getLast?, isSpace c = false := by
  constructor
  · intro h
    have hends := strip_ends s
    rwa [h] at hends
  · rintro ⟨hhead, hlast⟩
    exact strip_eq_self hhead hlast

theorem strip_cons (hc : isSpace c = true) (s : Text) : strip (c :: s) = strip s := by
  rw [strip, List.dropWhile_cons_of_pos hc]
  rfl

theorem split_dropWhile (s : Text) : split (s.dropWhile isSpace) = split s := by
  induction s with
  | nil => rfl
  | cons c s ih =>
    cases hc : isSpace c with
    | true =>
      rw [List.dropWhile_cons_of_pos hc, ih]
      exact (split_append_break hc [] s).symm
    | false => rw [List.dropWhile_cons_of_neg (by simp [hc])]

theorem split_rdropWhile (s : Text) : split (s.rdropWhile isSpace) = split s := by
  induction s using List.reverseRecOn with
  | nil => rfl
  | append_singleton s c ih =>
    cases hc : isSpace c with
    | true =>
      rw [List.rdropWhile_concat_pos _ _ _ hc, ih, split_append_break hc]
      exact (List.append_nil _).symm
    | false => rw [List.rdropWhile_concat_neg _ _ _ (by simp [hc])]

/-- `s.strip().split()` -/
theorem split_strip (s : Text) : split (strip s) = split s := by
  rw [strip, split_rdropWhile, split_dropWhile]

/-! ## Words with a blank between them -/

def fields : List Text → Text
  | [] => []
  | [w] => w
  | w :: ws => w ++ ' ' :: fields ws

/-- The words are not empty and have no white space. -/
def Words (ws : List Text) : Prop := ∀ w ∈ ws, w ≠ [] ∧ ∀ c ∈ w, isSpace c = false

theorem fields_cons {w : Text} {ws : List Text} (hws : ws ≠ []) :
    fields (w :: ws) = w ++ ' ' :: fields ws := by
  obtain ⟨v, ws, rfl⟩ := List.exists_cons_of_ne_nil hws
  rfl

/-- A text that ends inside a word has the words before it, and the part of that word. -/
theorem split_cut {ws : List Text} (hws : Words ws) {cut : Text}
    (hcut : ∀ c ∈ cut, isSpace c = false) :
    split (ws.flatMap (fun w => w ++ [' ']) ++ cut) = ws ++ if cut = [] then [] else [cut] := by
  induction ws with
  | nil =>
    by_cases hnil : cut = []
    · rw [if_pos hnil, hnil]
      rfl
    · rw [if_neg hnil]
      exact split_word hnil hcut
  | cons w ws ih =>
    obtain ⟨⟨hne, hword⟩, hrest⟩ := List.forall_mem_cons.mp hws
    rw [List.flatMap_cons, List.append_assoc, List.append_assoc, List.singleton_append,
      split_cons hne hword (by decide), ih hrest]
    rfl

/-- Where a prefix of the words may end. -/
theorem prefix_fields {ws : List Text} (hws : ws ≠ []) {q : Text} (hq : q <+: fields ws) :
    ∃ before w after cut, ws = before ++ w :: after ∧ cut <+: w ∧
      q = before.flatMap (fun w => w ++ [' ']) ++ cut := by
  induction ws generalizing q with
  | nil => exact absurd rfl hws
  | cons w ws ih =>
    by_cases hnil : ws = []
    · subst hnil
      exact ⟨[], w, [], q, rfl, hq, rfl⟩
    · rw [fields_cons hnil] at hq
      rcases List.prefix_or_prefix_of_prefix hq (List.prefix_append w _) with hw | ⟨tail, rfl⟩
      · exact ⟨[], w, ws, q, rfl, hw, rfl⟩
      · have htail := (List.prefix_append_right_inj w).mp hq
        cases tail with
        | nil => exact ⟨[], w, ws, w, rfl, List.prefix_rfl, by simp⟩
        | cons c tail =>
          obtain ⟨rfl, hfields⟩ := List.cons_prefix_cons.mp htail
          obtain ⟨before, v, after, cut, rfl, hcut, rfl⟩ := ih hnil hfields
          exact ⟨w :: before, v, after, cut, rfl, hcut, by simp⟩

theorem fields_eq_flatMap (ws : List Text) (w : Text) :
    fields (ws ++ [w]) = ws.flatMap (fun w => w ++ [' ']) ++ w := by
  induction ws with
  | nil => rfl
  | cons v ws ih =>
    rw [List.cons_append, fields_cons (by simp), ih]
    simp

theorem split_fields {ws : List Text} (hws : Words ws) : split (fields ws) = ws := by
  induction ws using List.reverseRecOn with
  | nil => rfl
  | append_singleton ws w =>
    obtain ⟨hne, hword⟩ := hws w (by simp)
    rw [fields_eq_flatMap, split_cut (fun v hv => hws v (List.mem_append_left _ hv)) hword,
      if_neg hne]

/-! ## Lines -/

/-- Lines, each with its end. -/
def unlines (ls : List Text) : Text := ls.flatMap fun l => l ++ ['\n']

theorem unlines_append (ls ls' : List Text) : unlines (ls ++ ls') = unlines ls ++ unlines ls' :=
  List.flatMap_append

/-- A prefix has some lines and a part of the next one. -/
theorem prefix_unlines {ls : List Text} (h : s <+: unlines ls) :
    ∃ before after cut, ls = before ++ after ∧ s = unlines before ++ cut ∧
      (cut = [] ∨ ∃ l after', after = l :: after' ∧ cut <+: l) := by
  induction ls generalizing s with
  | nil => exact ⟨[], [], [], rfl, by simpa [unlines] using h, .inl rfl⟩
  | cons l ls ih =>
    have hcons : unlines (l :: ls) = (l ++ ['\n']) ++ unlines ls := rfl
    rw [hcons] at h
    rcases List.prefix_or_prefix_of_prefix h (List.prefix_append ..) with hshort | ⟨tail, rfl⟩
    · rcases List.prefix_concat_iff.mp hshort with rfl | hline
      · exact ⟨[l], ls, [], rfl, by simp [unlines], .inl rfl⟩
      · exact ⟨[], l :: ls, s, rfl, rfl, .inr ⟨l, ls, rfl, hline⟩⟩
    · obtain ⟨before, after, cut, rfl, rfl, hcut⟩ := ih ((List.prefix_append_right_inj _).mp h)
      exact ⟨l :: before, after, cut, rfl, by simp [unlines], hcut⟩

/-- A text of lines and a part of one more. -/
theorem fileLines_unlines {ls : List Text} (hls : ∀ l ∈ ls, ∀ c ∈ l, c ≠ '\n' ∧ c ≠ '\r')
    {cut : Text} (hcut : ∀ c ∈ cut, c ≠ '\n' ∧ c ≠ '\r') :
    fileLines (unlines ls ++ cut) = ls ++ [cut] := by
  have hnot : ∀ l : Text, (∀ c ∈ l, c ≠ '\n' ∧ c ≠ '\r') →
      ∀ c ∈ l, (c = '\n' || c = '\r') = false := fun l hl c hc => by simp [hl c hc]
  induction ls with
  | nil => exact List.splitOnP_eq_singleton (hnot cut hcut)
  | cons l ls ih =>
    obtain ⟨hl, hrest⟩ := List.forall_mem_cons.mp hls
    have hline : unlines (l :: ls) ++ cut = l ++ '\n' :: (unlines ls ++ cut) := by
      simp [unlines]
    rw [hline, fileLines, List.splitOnP_append_cons_of_forall_mem (hnot l hl) '\n' (by decide)]
    exact congrArg (l :: ·) (ih hrest)

/-! ## Reading numbers -/

theorem digitValue_of_isDigit (hc : c.isDigit = true) : digitValue c = some (c.toNat - 48) := by
  obtain ⟨hge, hle⟩ := Char.isDigit_iff_toNat.mp hc
  have hge' : 0x30 ≤ c.toNat := hge
  have hlt : c.toNat < 0x30 + 10 := Nat.lt_succ_of_le hle
  rw [digitValue, zeros, List.find?_cons_of_pos (by simp [hge', hlt])]
  rfl

theorem digits_of_isDigit (hs : s ≠ []) (hdigits : ∀ c ∈ s, c.isDigit = true) :
    digits s = some (s.map fun c => c.toNat - 48) := by
  induction s using digits.induct with
  | case1 => exact absurd rfl hs
  | case2 c => rw [digits, digitValue_of_isDigit (hdigits c List.mem_cons_self)]; rfl
  | case3 c s ih =>
    have hunderscore := hdigits '_' (by simp)
    simp [Char.isDigit] at hunderscore
  | case4 c s hne hnot ih =>
    have hrest := ih (fun h => hne h) fun d hd => hdigits d (List.mem_cons_of_mem c hd)
    rw [digits, digitValue_of_isDigit (hdigits c List.mem_cons_self), Option.bind_some, hrest]
    · rfl
    · exact hne
    · exact hnot

theorem ofDigits_map (s : Text) : ofDigits (s.map fun c => c.toNat - 48) = number s := by
  rw [ofDigits, List.foldl_map]
  rfl

theorem not_isSpace_of_isDigit (hc : c.isDigit = true) : isSpace c = false := by
  obtain ⟨hge, hle⟩ := Char.isDigit_iff_toNat.mp hc
  have hge' : 48 ≤ c.toNat := hge
  have hle' : c.toNat ≤ 57 := hle
  refine decide_eq_false fun h => ?_
  simp only [List.mem_cons, List.not_mem_nil, or_false] at h
  omega

theorem not_isBreak_of_isDigit (hc : c.isDigit = true) : isBreak c = false := by
  obtain ⟨hge, hle⟩ := Char.isDigit_iff_toNat.mp hc
  have hge' : 48 ≤ c.toNat := hge
  have hle' : c.toNat ≤ 57 := hle
  refine decide_eq_false fun h => ?_
  simp only [List.mem_cons, List.not_mem_nil, or_false] at h
  omega

/-- A sign or none, in front of digits. -/
theorem splitSign_signed (negative : Bool) (hs : s ≠ []) (hdigits : ∀ c ∈ s, c.isDigit = true)
    (rest : Text) :
    splitSign ((if negative then ['-'] else []) ++ (s ++ rest)) = (negative, s ++ rest) := by
  obtain ⟨c, s, rfl⟩ := List.exists_cons_of_ne_nil hs
  cases negative with
  | true => rfl
  | false => exact splitSign_of_isDigit (hdigits c List.mem_cons_self) _

/-- The text of a number, as other programs print it. -/
theorem int_signed (negative : Bool) (hs : s ≠ []) (hdigits : ∀ c ∈ s, c.isDigit = true) :
    int ((if negative then ['-'] else []) ++ s) =
      some (if negative then -(number s : Int) else number s) := by
  have hword : ∀ c ∈ (if negative then ['-'] else []) ++ s, isSpace c = false := by
    intro c hc
    rcases List.mem_append.mp hc with hc | hc
    · cases negative with
      | true => exact (List.mem_singleton.mp hc) ▸ rfl
      | false => cases hc
    · exact not_isSpace_of_isDigit (hdigits c hc)
  have hsign := splitSign_signed negative hs hdigits []
  rw [List.append_nil] at hsign
  rw [int, strip_of_word hword, hsign]
  dsimp only
  rw [digits_of_isDigit hs hdigits, Option.map_some, ofDigits_map]

theorem int_of_digits (hs : s ≠ []) (hdigits : ∀ c ∈ s, c.isDigit = true) :
    int s = some (number s : Int) :=
  int_signed false hs hdigits

theorem int_decimal (n : Nat) : int (decimal n) = some (n : Int) := by
  rw [int_of_digits decimal_ne_nil fun c hc => isDigit_of_mem_decimal hc, number_decimal]

section Float

variable {F : Type*} (fl : ℚ → F) (negative : Bool) {whole fraction : Text}

theorem float_eq_map (s : Text) : float fl s = (float id s).map fl := by
  simp only [float, Option.map_bind, Function.comp_def, Option.map_map, id_eq]

/-- A sign or none, and characters that are digits or the point. -/
theorem float_of_mantissa (hs : s ≠ []) (hdigits : ∀ c ∈ s, c.isDigit = true)
    (hrest : ∀ c ∈ rest, c.isDigit = true ∨ c = '.') {ds fs : List Nat}
    (hmantissa : mantissa (s ++ rest) = some (ds, fs)) :
    float fl ((if negative then ['-'] else []) ++ (s ++ rest)) =
      some (fl (if negative then -(ofDigits (ds ++ fs) / 10 ^ fs.length)
        else ofDigits (ds ++ fs) / 10 ^ fs.length)) := by
  have hchars : ∀ c ∈ s ++ rest, c.isDigit = true ∨ c = '.' := by
    intro c hc
    rcases List.mem_append.mp hc with hc | hc
    · exact .inl (hdigits c hc)
    · exact hrest c hc
  have hword : ∀ c ∈ (if negative then ['-'] else []) ++ (s ++ rest), isSpace c = false := by
    intro c hc
    rcases List.mem_append.mp hc with hc | hc
    · cases negative with
      | true => exact (List.mem_singleton.mp hc) ▸ rfl
      | false => cases hc
    · rcases hchars c hc with hdigit | rfl
      · exact not_isSpace_of_isDigit hdigit
      · rfl
  -- there is no exponent
  have hspan : (s ++ rest).span (fun c => c ≠ 'e' && c ≠ 'E') = (s ++ rest, []) := by
    rw [List.span_eq_takeWhile_dropWhile, List.takeWhile_eq_self_iff.mpr,
      List.dropWhile_eq_nil_iff.mpr]
    all_goals
      intro c hc
      rcases hchars c hc with hdigit | rfl
      · have hne : c ≠ 'e' ∧ c ≠ 'E' := by
          constructor <;> rintro rfl <;> simp [Char.isDigit] at hdigit
        simp [hne]
      · rfl
  rw [float, strip_of_word hword, splitSign_signed negative hs hdigits rest]
  dsimp only
  rw [hspan]
  dsimp only
  rw [hmantissa, Option.bind_some, Option.map_some, zpow_zero, mul_one]

theorem float_of_digits (hs : s ≠ []) (hdigits : ∀ c ∈ s, c.isDigit = true) :
    float fl s = some (fl (number s)) := by
  have hmantissa : mantissa (s ++ []) = some (s.map fun c => c.toNat - 48, []) := by
    have hne : ∀ c ∈ s, decide (c ≠ '.') = true := fun c hc => by
      have hdigit := hdigits c hc
      refine decide_eq_true ?_
      rintro rfl
      simp [Char.isDigit] at hdigit
    rw [mantissa, List.append_nil, List.span_eq_takeWhile_dropWhile,
      List.takeWhile_eq_self_iff.mpr hne, List.dropWhile_eq_nil_iff.mpr hne]
    dsimp only
    rw [digits_of_isDigit hs hdigits, Option.map_some]
  have hfloat := float_of_mantissa fl false hs hdigits (by simp) hmantissa
  simpa [ofDigits_map] using hfloat

/-- Digits with a point between them. -/
theorem float_fixed (hwhole : whole ≠ []) (hwhole' : ∀ c ∈ whole, c.isDigit = true)
    (hfraction : fraction ≠ []) (hfraction' : ∀ c ∈ fraction, c.isDigit = true) :
    float fl ((if negative then ['-'] else []) ++ (whole ++ '.' :: fraction)) =
      some (fl (if negative then -(number (whole ++ fraction) / 10 ^ fraction.length)
        else number (whole ++ fraction) / 10 ^ fraction.length)) := by
  have hmantissa : mantissa (whole ++ '.' :: fraction) =
      some (whole.map fun c => c.toNat - 48, fraction.map fun c => c.toNat - 48) := by
    obtain ⟨c, whole, rfl⟩ := List.exists_cons_of_ne_nil hwhole
    obtain ⟨d, fraction, rfl⟩ := List.exists_cons_of_ne_nil hfraction
    have hpoint : '.' ∉ c :: whole := fun h => absurd (hwhole' _ h) (by decide)
    rw [mantissa, span_point hpoint]
    dsimp only
    rw [digits_of_isDigit hwhole hwhole', Option.bind_some,
      digits_of_isDigit hfraction hfraction', Option.map_some]
  have hfloat := float_of_mantissa fl negative hwhole hwhole'
    (fun c hc => (List.mem_cons.mp hc).elim .inr fun hc => .inl (hfraction' c hc)) hmantissa
  rw [hfloat, ← List.map_append, ofDigits_map, List.length_map]

end Float

/-! ## Fixed notation without zeros at the end -/

section Trimmed

open Streams

/-- `f'{x:.{places}f}'.rstrip('0').rstrip('.')` -/
def trimmed (places : Nat) (x : ℚ) : Text :=
  ((fixed places x).rdropWhile (· = '0')).rdropWhile (· = '.')

/-- The sign of a number in front of a text. -/
def signed (x : ℚ) (s : Text) : Text := (if x < 0 then ['-'] else []) ++ s

theorem rdropWhile_append_replicate {p : Char → Bool} (hc : p c = true) (s : Text) (k : Nat) :
    (s ++ List.replicate k c).rdropWhile p = s.rdropWhile p := by
  induction k with
  | zero => rw [List.replicate_zero, List.append_nil]
  | succ k ih =>
    rw [List.replicate_succ', ← List.append_assoc, List.rdropWhile_concat_pos _ _ _ hc, ih]

theorem rdropWhile_of_getLast {p : Char → Bool} (hlast : ∀ c ∈ s.getLast?, p c = false) :
    s.rdropWhile p = s := by
  refine List.rdropWhile_eq_self_iff.mpr fun hs => ?_
  simp [hlast _ (List.getLast?_eq_some_getLast hs)]

variable {places : Nat} {x : ℚ}

/-- The digits behind the point that are left, and the zeros that are not. -/
theorem padded_split (hplaces : 0 < places) (x : ℚ) :
    ∃ f k, padded places (fixedUnits places x % 10 ^ places) = f ++ List.replicate k '0' ∧
      (∀ c ∈ f, c.isDigit = true) ∧ (∀ c ∈ f.getLast?, c ≠ '0') ∧
      (f = [] ↔ fixedUnits places x % 10 ^ places = 0) := by
  obtain ⟨n, hn⟩ : ∃ n, n = fixedUnits places x % 10 ^ places := ⟨_, rfl⟩
  have hlt : n < 10 ^ places := hn ▸ Nat.mod_lt _ (Nat.pow_pos (by decide))
  rw [← hn]
  have hsplit := List.rdropWhile_append_rtakeWhile (p := fun c => decide (c = '0'))
    (l := padded places n)
  have hzeros : (padded places n).rtakeWhile (fun c => decide (c = '0')) =
      List.replicate ((padded places n).rtakeWhile fun c => decide (c = '0')).length '0' :=
    List.eq_replicate_iff.mpr
      ⟨rfl, fun c hc =>
        of_decide_eq_true (List.mem_rtakeWhile_imp (p := fun d => decide (d = '0')) hc)⟩
  rw [hzeros] at hsplit
  refine ⟨_, _, hsplit.symm, fun c hc => isDigit_of_mem_padded
    ((List.rdropWhile_prefix _ _).subset hc), fun c hc => ?_, ?_⟩
  · obtain ⟨hne, rfl⟩ := List.mem_getLast?_eq_getLast hc
    have hnot := List.rdropWhile_last_not (fun c => decide (c = '0')) _ hne
    simpa using hnot
  · have hnumber : number (padded places n) = n := by
      have hdigits := ofDigitChars_padded places n 0 (length_padded hplaces hlt)
      rwa [Nat.mul_zero, Nat.zero_add] at hdigits
    rw [List.rdropWhile_eq_nil_iff]
    constructor
    · intro hall
      have hrep : padded places n = List.replicate (padded places n).length '0' :=
        List.eq_replicate_iff.mpr ⟨rfl, fun c hc => of_decide_eq_true (hall c hc)⟩
      rw [← hnumber, hrep, number, Nat.ofDigitChars_replicate_zero, Nat.mul_zero]
    · rintro rfl c hc
      rcases List.mem_append.mp hc with hc | hc
      · exact decide_eq_true (List.eq_of_mem_replicate hc)
      · exact decide_eq_true (List.mem_singleton.mp hc)

theorem trimmed_cases (hplaces : 0 < places) (x : ℚ) :
    (fixedUnits places x % 10 ^ places = 0 ∧
        trimmed places x = signed x (decimal (fixedUnits places x / 10 ^ places))) ∨
      ∃ f k, fixedUnits places x % 10 ^ places ≠ 0 ∧ f ≠ [] ∧ (∀ c ∈ f, c.isDigit = true) ∧
        padded places (fixedUnits places x % 10 ^ places) = f ++ List.replicate k '0' ∧
        trimmed places x =
          signed x (decimal (fixedUnits places x / 10 ^ places) ++ '.' :: f) := by
  obtain ⟨f, k, hpadded, hdigits, hlast, hnil⟩ := padded_split hplaces x
  have hdigit : ∀ {c}, c.isDigit = true → decide (c = '.') = false := fun {c} hc => by
    refine decide_eq_false ?_
    rintro rfl
    simp [Char.isDigit] at hc
  have hfixed : fixed places x =
      signed x (decimal (fixedUnits places x / 10 ^ places) ++ '.' :: f) ++
        List.replicate k '0' := by
    rw [fixed, hpadded, signed]
    simp
  have hzeros : (fixed places x).rdropWhile (fun c => decide (c = '0')) =
      signed x (decimal (fixedUnits places x / 10 ^ places) ++ '.' :: f) := by
    rw [hfixed, rdropWhile_append_replicate (by decide), rdropWhile_of_getLast]
    intro c hc
    rw [signed, ← List.append_assoc, List.getLast?_append_of_ne_nil _ (List.cons_ne_nil _ _)] at hc
    rcases List.eq_nil_or_concat f with rfl | ⟨f, d, rfl⟩
    · cases hc
      rfl
    · rw [List.getLast?_cons, List.concat_eq_append, List.getLast?_append] at hc
      simp only [List.getLast?_singleton, Option.some_or, Option.getD_some, Option.mem_def,
        Option.some.injEq] at hc
      subst hc
      simpa using hlast d (by simp)
  rw [trimmed, hzeros]
  rcases eq_or_ne f [] with rfl | hne
  · left
    refine ⟨hnil.mp rfl, ?_⟩
    have hpoint : signed x (decimal (fixedUnits places x / 10 ^ places) ++ ['.']) =
        signed x (decimal (fixedUnits places x / 10 ^ places)) ++ ['.'] := by
      simp [signed]
    rw [hpoint, List.rdropWhile_concat_pos _ _ _ (by decide), rdropWhile_of_getLast]
    intro c hc
    rw [signed, List.getLast?_append_of_ne_nil _ decimal_ne_nil] at hc
    exact hdigit (isDigit_of_mem_decimal (List.mem_of_mem_getLast? hc))
  · right
    refine ⟨f, k, fun hzero => hne (hnil.mpr hzero), hne, hdigits, hpadded, ?_⟩
    rw [rdropWhile_of_getLast]
    intro c hc
    rw [signed, ← List.append_assoc, List.getLast?_append_of_ne_nil _ (List.cons_ne_nil _ _),
      List.getLast?_cons_of_ne_nil hne] at hc
    exact hdigit (hdigits c (List.mem_of_mem_getLast? hc))

/-- A text without a point is read as the whole number that it is. -/
theorem int_trimmed (hplaces : 0 < places)
    (h : fixedUnits places x % 10 ^ places = 0) :
    (∀ c ∈ trimmed places x, c.isDigit = true ∨ c = '-') ∧
      int (trimmed places x) = some
        (if x < 0 then -((fixedUnits places x / 10 ^ places : Nat) : Int)
        else (fixedUnits places x / 10 ^ places : Nat)) := by
  rcases trimmed_cases hplaces x with ⟨-, htext⟩ | ⟨_, _, hne, -⟩
  · have hdigits : ∀ c ∈ decimal (fixedUnits places x / 10 ^ places), c.isDigit = true :=
      fun c hc => isDigit_of_mem_decimal hc
    have hread := int_signed (decide (x < 0)) decimal_ne_nil hdigits
    simp only [decide_eq_true_eq, number_decimal] at hread
    rw [htext, signed]
    refine ⟨fun c hc => ?_, hread⟩
    rcases List.mem_append.mp hc with hc | hc
    · split at hc
      · exact .inr (List.mem_singleton.mp hc)
      · cases hc
    · exact .inl (hdigits c hc)
  · exact absurd h hne

/-- A text with a point is read as the number that is printed. -/
theorem float_trimmed {F : Type*} (fl : ℚ → F) (hplaces : 0 < places)
    (h : fixedUnits places x % 10 ^ places ≠ 0) :
    '.' ∈ trimmed places x ∧ (∀ c ∈ trimmed places x, c.isDigit = true ∨ c = '-' ∨ c = '.') ∧
      float fl (trimmed places x) = some (fl (fixedValue places x)) := by
  rcases trimmed_cases hplaces x with ⟨hzero, -⟩ | ⟨f, k, -, hne, hdigits, hpadded, htext⟩
  · exact absurd hzero h
  · have hwhole : ∀ c ∈ decimal (fixedUnits places x / 10 ^ places), c.isDigit = true :=
      fun c hc => isDigit_of_mem_decimal hc
    have hread := float_fixed fl (decide (x < 0)) decimal_ne_nil hwhole hne hdigits
    simp only [decide_eq_true_eq] at hread
    have hlen := length_padded hplaces (Nat.mod_lt (fixedUnits places x) (Nat.pow_pos (by decide)))
    have hfraction := ofDigitChars_padded places (fixedUnits places x % 10 ^ places) 0 hlen
    rw [hpadded] at hlen hfraction
    rw [Nat.mul_zero, Nat.zero_add] at hfraction
    have hnumber : number (f ++ List.replicate k '0') = fixedUnits places x % 10 ^ places :=
      hfraction
    -- the zeros are a power of ten
    have hunits : number (decimal (fixedUnits places x / 10 ^ places) ++ f) * 10 ^ k =
        fixedUnits places x := by
      calc number (decimal (fixedUnits places x / 10 ^ places) ++ f) * 10 ^ k
          = number (decimal (fixedUnits places x / 10 ^ places) ++
              (f ++ List.replicate k '0')) := by
            rw [← List.append_assoc, number_append _ (List.replicate k '0'),
              List.length_replicate, number, number, Nat.ofDigitChars_replicate_zero,
              Nat.mul_zero, Nat.add_zero]
        _ = fixedUnits places x := by
            rw [number_append, hlen, hnumber, number_decimal, Nat.div_add_mod']
    have hvalue : (number (decimal (fixedUnits places x / 10 ^ places) ++ f) : ℚ) / 10 ^ f.length =
        fixedUnits places x / 10 ^ places := by
      have hpow : (10 : ℚ) ^ places = 10 ^ f.length * 10 ^ k := by
        rw [← pow_add, ← hlen, List.length_append, List.length_replicate]
      have hcast : (number (decimal (fixedUnits places x / 10 ^ places) ++ f) : ℚ) * 10 ^ k =
          fixedUnits places x := by
        exact_mod_cast hunits
      rw [hpow, ← hcast, mul_div_mul_right _ _ (pow_ne_zero k (by norm_num))]
    refine ⟨?_, fun c hc => ?_, ?_⟩
    · rw [htext, signed]
      simp
    · rw [htext, signed] at hc
      rcases List.mem_append.mp hc with hc | hc
      · split at hc
        · exact .inr (.inl (List.mem_singleton.mp hc))
        · cases hc
      · rcases List.mem_append.mp hc with hc | hc
        · exact .inl (hwhole c hc)
        · rcases List.mem_cons.mp hc with rfl | hc
          · exact .inr (.inr rfl)
          · exact .inl (hdigits c hc)
    · rw [htext, signed, hread, hvalue, fixedValue]
      split
      · rw [neg_one_mul]
      · rw [one_mul]

end Trimmed

end PyText
