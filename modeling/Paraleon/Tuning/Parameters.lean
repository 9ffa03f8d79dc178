import Mathlib.Data.Bool.AllAny
import Mathlib.Data.List.DropRight
import Mathlib.Data.Rat.Defs
import Mathlib.Algebra.Order.Ring.Rat
import Paraleon.Tuning.Ecn

/-!
# The parameters of the tuner

The thirteen entries of `ALL_PARAMETER_SPECS`, the parameter file that the tuner writes, and
how it reads the file back. A Python float is a rational number; what depends on its text is
in `FloatTexts`, with what is documented of these functions.

* `load_write`: the tuner reads back what it wrote.
-/

namespace Paraleon.Tuning

open Numerals Function

/-! ## The table -/

/-- The parameters of the hosts. -/
inductive HostName where
  | timeReset
  | aiRate
  | haiRate
  | rateToSetOnFirstCnp
  | rpgMinDecFac
  | rpgMinRate
  | rpgGd
  | minTimeBetweenCnps
  | dceTcpG
  | initialAlphaValue
deriving DecidableEq, Repr

inductive Name where
  | host (name : HostName)
  | ecn (field : Field)
deriving DecidableEq, Repr

def HostName.text : HostName → Text
  | .timeReset => "time_reset".toList
  | .aiRate => "ai_rate".toList
  | .haiRate => "hai_rate".toList
  | .rateToSetOnFirstCnp => "rate_to_set_on_first_cnp".toList
  | .rpgMinDecFac => "rpg_min_dec_fac".toList
  | .rpgMinRate => "rpg_min_rate".toList
  | .rpgGd => "rpg_gd".toList
  | .minTimeBetweenCnps => "min_time_between_cnps".toList
  | .dceTcpG => "dce_tcp_g".toList
  | .initialAlphaValue => "initial_alpha_value".toList

def Name.text : Name → Text
  | .host name => name.text
  | .ecn field => field.text

/-- The names in the order of `PARAMETER_SPECS`. -/
def parameterNames : List Name :=
  [.host .timeReset, .host .aiRate, .host .haiRate, .host .rateToSetOnFirstCnp,
    .host .rpgMinDecFac, .host .rpgMinRate, .host .rpgGd, .host .minTimeBetweenCnps,
    .host .dceTcpG, .host .initialAlphaValue, .ecn .kmin, .ecn .kmax, .ecn .pmax]

/-- `PARAMETER_SPEC_BY_NAME.get` -/
def Name.ofText (key : Text) : Option Name := parameterNames.find? fun name => name.text = key

inductive Value where
  | int (n : Int)
  | float (x : ℚ)
deriving DecidableEq, Repr

def Value.toRat : Value → ℚ
  | .int n => n
  | .float x => x

inductive ValueType where
  | int
  | float
deriving DecidableEq, Repr

structure Spec where
  default : Value
  type : ValueType
  aggressiveDirection : Int
  min : Value
  max : Value
  step : Value

/-- The double `m / 2 ^ e`. -/
def double (m e : Nat) : Value := .float (m / 2 ^ e)

def spec : Name → Spec
  | .host .timeReset =>
    { default := .int 300, type := .int, aggressiveDirection := -1, min := .int 50,
      max := .int 600, step := .int 50 }
  | .host .aiRate =>
    { default := .int 5, type := .int, aggressiveDirection := 1, min := .int 5,
      max := .int 100, step := .int 5 }
  | .host .haiRate =>
    { default := .int 50, type := .int, aggressiveDirection := 1, min := .int 30,
      max := .int 600, step := .int 50 }
  | .host .rateToSetOnFirstCnp => -- 0.5, 0.3, 0.8, 0.1
    { default := double 1 1, type := .float, aggressiveDirection := 1,
      min := double 5404319552844595 54, max := double 3602879701896397 52,
      step := double 3602879701896397 55 }
  | .host .rpgMinDecFac =>
    { default := double 1 1, type := .float, aggressiveDirection := -1,
      min := double 5404319552844595 54, max := double 3602879701896397 52,
      step := double 3602879701896397 55 }
  | .host .rpgMinRate =>
    { default := .int 1, type := .int, aggressiveDirection := 1, min := .int 1,
      max := .int 5000, step := .int 300 }
  | .host .rpgGd =>
    { default := .int 11, type := .int, aggressiveDirection := 1, min := .int 11,
      max := .int 13, step := .int 1 }
  | .host .minTimeBetweenCnps =>
    { default := .int 4, type := .int, aggressiveDirection := 1, min := .int 4,
      max := .int 128, step := .int 8 }
  | .host .dceTcpG =>
    { default := .int 1019, type := .int, aggressiveDirection := -1, min := .int 960,
      max := .int 1020, step := .int 5 }
  | .host .initialAlphaValue =>
    { default := .int 1023, type := .int, aggressiveDirection := -1, min := .int 1,
      max := .int 1023, step := .int 16 }
  | .ecn .kmin =>
    { default := .int 400, type := .int, aggressiveDirection := 1, min := .int 40,
      max := .int 1600, step := .int 100 }
  | .ecn .kmax =>
    { default := .int 1600, type := .int, aggressiveDirection := 1, min := .int 480,
      max := .int 6400, step := .int 400 }
  | .ecn .pmax => -- 0.2, 0.1, 0.4, 0.01
    { default := double 3602879701896397 54, type := .float, aggressiveDirection := -1,
      min := double 3602879701896397 55, max := double 3602879701896397 53,
      step := double 5764607523034235 59 }

/-- A list of values in the order of `PARAMETER_SPECS`, by name. -/
abbrev ParameterValues := Name → Value

def normalizeParameterValues (v : ParameterValues) : ParameterValues :=
  if (v (.ecn .kmax)).toRat < (v (.ecn .kmin)).toRat then
    update (update v (.ecn .kmin) (v (.ecn .kmax))) (.ecn .kmax) (v (.ecn .kmin))
  else v

def defaultParameterValues : ParameterValues :=
  normalizeParameterValues fun name => (spec name).default

theorem Name.mem_parameterNames (name : Name) : name ∈ parameterNames := by
  rcases name with name | field
  · cases name <;> decide
  · cases field <;> decide

theorem nodup_parameterNames : parameterNames.Nodup := by decide

theorem Name.text_injective : Injective Name.text := by
  have h : ∀ a ∈ parameterNames, ∀ b ∈ parameterNames, a.text = b.text → a = b := by decide
  exact fun a b hab => h a a.mem_parameterNames b b.mem_parameterNames hab

theorem Name.ofText_text (name : Name) : Name.ofText name.text = some name := by
  have h : ∀ a ∈ parameterNames, Name.ofText a.text = some a := by decide
  exact h name name.mem_parameterNames

/-- A name has none of the characters that separate the entries of the file. -/
theorem Name.text_chars (name : Name) :
    name.text ≠ [] ∧ ∀ c ∈ name.text, c ≠ '\n' ∧ c ≠ '=' ∧ isSpace c = false := by
  have h : ∀ a ∈ parameterNames,
      a.text ≠ [] ∧ a.text.all fun c => c ≠ '\n' ∧ c ≠ '=' ∧ isSpace c = false := by decide
  exact (h name name.mem_parameterNames).imp_right List.all_iff_forall_prop.mp

/-! ## Vectors -/

theorem normalize_other {v : ParameterValues} {name : Name} (hmin : name ≠ .ecn .kmin)
    (hmax : name ≠ .ecn .kmax) : normalizeParameterValues v name = v name := by
  unfold normalizeParameterValues
  split
  · rw [update_of_ne hmax, update_of_ne hmin]
  · rfl

/-- The two thresholds, ordered. -/
theorem normalize_thresholds (v : ParameterValues) :
    (normalizeParameterValues v (.ecn .kmin) = v (.ecn .kmin) ∧
        normalizeParameterValues v (.ecn .kmax) = v (.ecn .kmax) ∧
        (v (.ecn .kmin)).toRat ≤ (v (.ecn .kmax)).toRat) ∨
      (normalizeParameterValues v (.ecn .kmin) = v (.ecn .kmax) ∧
        normalizeParameterValues v (.ecn .kmax) = v (.ecn .kmin) ∧
        (v (.ecn .kmax)).toRat < (v (.ecn .kmin)).toRat) := by
  unfold normalizeParameterValues
  split
  · next h =>
    refine .inr ⟨?_, update_self .., h⟩
    rw [update_of_ne (by decide), update_self]
  · next h => exact .inl ⟨rfl, rfl, not_lt.mp h⟩

theorem normalize_le (v : ParameterValues) :
    (normalizeParameterValues v (.ecn .kmin)).toRat ≤
      (normalizeParameterValues v (.ecn .kmax)).toRat := by
  rcases normalize_thresholds v with ⟨hmin, hmax, hle⟩ | ⟨hmin, hmax, hlt⟩
  · rwa [hmin, hmax]
  · rw [hmin, hmax]
    exact hlt.le

theorem normalize_normalize (v : ParameterValues) :
    normalizeParameterValues (normalizeParameterValues v) = normalizeParameterValues v :=
  if_neg (not_lt.mpr (normalize_le v))

/-! ## Texts -/

/-- The texts of floating-point numbers in Python (`str`, `float`) and C++ (`std::stof`, which
rounds to single precision). -/
structure FloatTexts where
  isFloat : ℚ → Prop
  repr : ℚ → Text
  pyFloat : Text → Option ℚ
  stof : Text → Option ℚ
  single : ℚ → ℚ
  repr_chars : ∀ x, isFloat x →
    repr x ≠ [] ∧ ∀ c ∈ repr x, c ≠ '\n' ∧ c ≠ '=' ∧ isSpace c = false
  /-- `0.2` and `1e-05` have one digit at the front. -/
  repr_digit : ∀ x, isFloat x → 0 ≤ x → x ≤ 1 →
    ∃ d rest, repr x = d :: rest ∧ d.isDigit = true ∧ ∀ c ∈ rest.head?, c.isDigit = false
  pyFloat_repr : ∀ x, isFloat x → pyFloat (repr x) = some x
  stof_repr : ∀ x, isFloat x → stof (repr x) = some (single x)
  stof_decimal : ∀ n ≤ 2 ^ 24, stof (decimal n) = some (n : ℚ)
  single_unit : ∀ x, isFloat x → 0 ≤ x → x ≤ 1 → 0 ≤ single x ∧ single x ≤ 1

variable (T : FloatTexts)

/-- `str` of a value. -/
def Value.str : Value → Text
  | .int n => if n < 0 then '-' :: decimal n.natAbs else decimal n.natAbs
  | .float x => T.repr x

/-- A line that `write_parameters` prints. -/
def outputLine (v : ParameterValues) (name : Name) : Text := name.text ++ '=' :: (v name).str T

def writeParameters (v : ParameterValues) : Text :=
  let v := normalizeParameterValues v
  parameterNames.flatMap fun name => outputLine T v name ++ ['\n']

/-- Digits, with single underscores between them. -/
def pyNat (s : Text) : Option Nat :=
  let groups := s.splitOn '_'
  if groups.all fun g => !g.isEmpty && g.all Char.isDigit then
    some (Nat.ofDigitChars 10 groups.flatten 0)
  else none

/-- `int(s)` of a stripped text. -/
def pyInt : Text → Option Int
  | '-' :: s => (pyNat s).map fun n => -(n : Int)
  | '+' :: s => (pyNat s).map Int.ofNat
  | s => (pyNat s).map Int.ofNat

/-- `s.strip()` -/
def strip (s : Text) : Text := (s.dropWhile isSpace).rdropWhile isSpace

/-- The body of the loop over the lines, with the dictionary `parameter_map`. -/
def loadLine (parameterMap : Name → Option Value) (line : Text) : Option (Name → Option Value) :=
  let line := strip line
  if line = [] then some parameterMap
  else
    match line.splitOn '=' with
    | [key, value] =>
      match Name.ofText key with
      | none => some parameterMap
      | some name =>
        let value := match (spec name).type with
          | .float => (T.pyFloat (strip value)).map Value.float
          | .int => (pyInt (strip value)).map Value.int
        value.map fun value => update parameterMap name (some value)
    | _ => none

/-- `load_current_parameters`; `none` is a `ValueError`. -/
def loadCurrentParameters (text : Text) : Option ParameterValues :=
  if text = [] then some defaultParameterValues
  else
    ((text.splitOn '\n').foldlM (loadLine T) fun _ => none).map fun parameterMap =>
      normalizeParameterValues fun name => (parameterMap name).getD (spec name).default

/-! ## What is written can be read -/

/-- The value of a parameter in its range, of its type. -/
def Spec.InRange (s : Spec) (value : Value) : Prop :=
  s.min.toRat ≤ value.toRat ∧ value.toRat ≤ s.max.toRat ∧
    match s.type, value with
    | .int, .int _ => True
    | .float, .float x => T.isFloat x
    | _, _ => False

def InRange (v : ParameterValues) : Prop := ∀ name, (spec name).InRange T (v name)

/-- What matters of a value for its text. -/
def Writable (name : Name) (value : Value) : Prop :=
  match (spec name).type, value with
  | .int, .int n => 0 ≤ n ∧ n ≤ 6400
  | .float, .float x => T.isFloat x ∧ 0 ≤ x ∧ x ≤ 1
  | _, _ => False

variable {T} {v : ParameterValues} {name : Name}

theorem spec_bounds (name : Name) :
    0 ≤ (spec name).min.toRat ∧ (spec name).max.toRat ≤ 6400 ∧
      ((spec name).type = .float → (spec name).max.toRat ≤ 1) := by
  have h : ∀ a ∈ parameterNames, 0 ≤ (spec a).min.toRat ∧ (spec a).max.toRat ≤ 6400 ∧
      ((spec a).type = .float → (spec a).max.toRat ≤ 1) := by decide +kernel
  exact h name name.mem_parameterNames

theorem Spec.InRange.writable {value : Value} (h : (spec name).InRange T value) :
    Writable T name value := by
  obtain ⟨hmin, hmax, htype⟩ := h
  obtain ⟨h0, h6400, h1⟩ := spec_bounds name
  unfold Writable
  cases hs : (spec name).type with
  | int =>
    cases value with
    | float x => simp [hs] at htype
    | int n =>
      have hlo : (0 : ℚ) ≤ n := h0.trans hmin
      have hhi : (n : ℚ) ≤ 6400 := hmax.trans h6400
      exact ⟨by exact_mod_cast hlo, by exact_mod_cast hhi⟩
  | float =>
    cases value with
    | int n => simp [hs] at htype
    | float x =>
      simp only [hs] at htype
      exact ⟨htype, h0.trans hmin, hmax.trans (h1 hs)⟩

/-- The two thresholds may change places. -/
theorem InRange.writable (h : InRange T v) (name : Name) :
    Writable T name (normalizeParameterValues v name) := by
  have hkmin : Writable T (.ecn .kmin) (v (.ecn .kmin)) := (h _).writable
  have hkmax : Writable T (.ecn .kmax) (v (.ecn .kmax)) := (h _).writable
  rcases eq_or_ne name (.ecn .kmin) with rfl | hmin
  · rcases normalize_thresholds v with ⟨heq, -⟩ | ⟨heq, -⟩
    · exact heq ▸ hkmin
    · exact heq ▸ hkmax
  · rcases eq_or_ne name (.ecn .kmax) with rfl | hmax
    · rcases normalize_thresholds v with ⟨-, heq, -⟩ | ⟨-, heq, -⟩
      · exact heq ▸ hkmax
      · exact heq ▸ hkmin
    · rw [normalize_other hmin hmax]
      exact (h name).writable

theorem decimal_chars {n : Nat} : ∀ c ∈ decimal n, c ≠ '\n' ∧ c ≠ '=' ∧ isSpace c = false := by
  intro c hc
  have hdigit := isDigit_of_mem_decimal hc
  refine ⟨?_, ?_, not_isSpace_of_isDigit hdigit⟩ <;> rintro rfl <;> simp [Char.isDigit] at hdigit

/-- The text of a value has none of the characters that separate the entries. -/
theorem Writable.str_chars {value : Value} (h : Writable T name value) :
    value.str T ≠ [] ∧ ∀ c ∈ value.str T, c ≠ '\n' ∧ c ≠ '=' ∧ isSpace c = false := by
  unfold Writable at h
  cases value with
  | int n =>
    cases hs : (spec name).type with
    | float => simp [hs] at h
    | int =>
      simp only [hs] at h
      rw [Value.str, if_neg (not_lt.mpr h.1)]
      exact ⟨decimal_ne_nil, decimal_chars⟩
  | float x =>
    cases hs : (spec name).type with
    | int => simp [hs] at h
    | float =>
      simp only [hs] at h
      exact T.repr_chars x h.1

theorem strip_of_chars {s : Text} (h : ∀ c ∈ s, isSpace c = false) : strip s = s := by
  have hleft : s.dropWhile isSpace = s := by
    cases s with
    | nil => rfl
    | cons c s => exact List.dropWhile_cons_of_neg (by simp [h c List.mem_cons_self])
  rw [strip, hleft, List.rdropWhile_eq_self_iff]
  intro hne
  simp [h _ (List.getLast_mem hne)]

theorem pyInt_decimal (n : Nat) : pyInt (decimal n) = some (n : Int) := by
  have hnat : pyNat (decimal n) = some n := by
    have hgroups : (decimal n).splitOn '_' = [decimal n] :=
      List.splitOn_eq_singleton Nat.underscore_not_in_toDigits
    have hval : Nat.ofDigitChars 10 (decimal n) 0 = n := Nat.ofDigitChars_ten_toDigits
    simp only [pyNat, hgroups]
    rw [if_pos (by simpa [decimal_ne_nil] using fun c hc => isDigit_of_mem_decimal hc)]
    simp [hval]
  cases h : decimal n with
  | nil => exact absurd h decimal_ne_nil
  | cons c s =>
    have hdigit : c.isDigit = true := isDigit_of_mem_decimal (h ▸ List.mem_cons_self)
    rw [← h]
    unfold pyInt
    split
    · next heq =>
      cases h.symm.trans heq
      simp [Char.isDigit] at hdigit
    · next heq =>
      cases h.symm.trans heq
      simp [Char.isDigit] at hdigit
    · rw [hnat]
      rfl

/-- `int` and `float` read the text of a value of their type. -/
theorem Writable.read {value : Value} (h : Writable T name value) :
    (match (spec name).type with
      | .float => (T.pyFloat (value.str T)).map Value.float
      | .int => (pyInt (value.str T)).map Value.int) = some value := by
  unfold Writable at h
  cases value with
  | int n =>
    cases hs : (spec name).type with
    | float => simp [hs] at h
    | int =>
      simp only [hs] at h
      dsimp only
      have hn : ((n.natAbs : Nat) : Int) = n := Int.natAbs_of_nonneg h.1
      rw [Value.str, if_neg (not_lt.mpr h.1), pyInt_decimal, hn]
      rfl
  | float x =>
    cases hs : (spec name).type with
    | int => simp [hs] at h
    | float =>
      simp only [hs] at h
      dsimp only
      rw [Value.str, T.pyFloat_repr x h.1]
      rfl

theorem loadLine_nil (parameterMap : Name → Option Value) :
    loadLine T parameterMap [] = some parameterMap := rfl

section load

variable (hv : ∀ name, Writable T name (v name))

include hv

theorem outputLine_chars (name : Name) :
    ∀ c ∈ outputLine T v name, c ≠ '\n' ∧ isSpace c = false := by
  intro c hc
  rcases List.mem_append.mp hc with hc | hc
  · obtain ⟨hline, -, hspace⟩ := name.text_chars.2 c hc
    exact ⟨hline, hspace⟩
  · rcases List.mem_cons.mp hc with rfl | hc
    · decide
    · obtain ⟨hline, -, hspace⟩ := (hv name).str_chars.2 c hc
      exact ⟨hline, hspace⟩

theorem loadLine_outputLine (parameterMap : Name → Option Value) (name : Name) :
    loadLine T parameterMap (outputLine T v name) =
      some (update parameterMap name (some (v name))) := by
  have hsplit : (outputLine T v name).splitOn '=' = [name.text, (v name).str T] := by
    rw [outputLine, List.splitOn_append_cons_self_of_not_mem
      (fun hc => (name.text_chars.2 _ hc).2.1 rfl),
      List.splitOn_eq_singleton fun hc => ((hv name).str_chars.2 _ hc).2.1 rfl]
  have hne : outputLine T v name ≠ [] := by simp [outputLine]
  unfold loadLine
  rw [strip_of_chars fun c hc => (outputLine_chars hv name c hc).2]
  simp only [hne, if_false, hsplit, Name.ofText_text]
  rw [strip_of_chars fun c hc => ((hv name).str_chars.2 c hc).2.2, (hv name).read]
  rfl

theorem splitOn_outputLines (names : List Name) (rest : Text) :
    ((names.flatMap fun name => outputLine T v name ++ ['\n']) ++ rest).splitOn '\n' =
      names.map (outputLine T v) ++ rest.splitOn '\n' := by
  induction names with
  | nil => simp
  | cons name names ih =>
    rw [List.flatMap_cons, List.append_assoc, List.append_assoc, List.singleton_append,
      List.splitOn_append_cons_self_of_not_mem fun hc => (outputLine_chars hv name _ hc).1 rfl, ih]
    rfl

theorem foldlM_loadLine (names : List Name) (parameterMap : Name → Option Value) :
    (names.map (outputLine T v)).foldlM (loadLine T) parameterMap =
      some (names.foldl (fun m name => update m name (some (v name))) parameterMap) := by
  induction names generalizing parameterMap with
  | nil => rfl
  | cons name names ih =>
    rw [List.map_cons, List.foldlM_cons, loadLine_outputLine hv]
    exact ih _

end load

theorem foldl_update_mem {names : List Name} {m : Name → Option Value} {name : Name}
    (h : name ∈ names ∨ m name = some (v name)) :
    names.foldl (fun m name => update m name (some (v name))) m name = some (v name) := by
  induction names generalizing m with
  | nil => exact h.resolve_left List.not_mem_nil
  | cons first names ih =>
    refine ih ?_
    rcases eq_or_ne name first with rfl | hname
    · exact .inr (update_self ..)
    · refine h.imp (fun hmem => (List.mem_cons.mp hmem).resolve_left hname) fun hm => ?_
      exact (update_of_ne hname ..).trans hm

/-- The tuner reads back the vector that it wrote. -/
theorem load_write (h : InRange T v) :
    loadCurrentParameters T (writeParameters T v) = some (normalizeParameterValues v) := by
  have hw := h.writable
  have hsplit := splitOn_outputLines hw parameterNames []
  rw [List.append_nil] at hsplit
  have hne : writeParameters T v ≠ [] := by simp [writeParameters, parameterNames]
  rw [loadCurrentParameters, if_neg hne, writeParameters, hsplit, List.foldlM_append,
    foldlM_loadLine hw]
  have hall : (fun name => ((parameterNames.foldl (fun m name =>
      update m name (some (normalizeParameterValues v name))) fun _ => none) name).getD
        (spec name).default) = normalizeParameterValues v := by
    funext name
    rw [foldl_update_mem (.inl name.mem_parameterNames), Option.getD_some]
  simp only [List.splitOn_nil, Option.bind_eq_bind, Option.bind_some, List.foldlM_cons,
    List.foldlM_nil, loadLine_nil]
  exact congrArg some ((congrArg normalizeParameterValues hall).trans (normalize_normalize v))

end Paraleon.Tuning
