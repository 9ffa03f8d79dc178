import Mathlib.Algebra.Group.Int.Defs
import Mathlib.Algebra.Group.Nat.Defs
import Mathlib.Data.List.Basic
import Mathlib.Data.List.Induction
import Mathlib.Data.List.TakeDrop
import Mathlib.Data.List.TakeWhile
import Mathlib.Data.Nat.Basic

/-!
# Decimal numerals in texts

A text is a list of characters. `strtol` reads the numeral at the front of a text as the
functions of the C library do: blanks, an optional sign, and then as many digits as there
are. `stoi` and `stoul` are the C++ conversions to a 32-bit `int` and a 64-bit unsigned
number; `none` stands for the exception that they throw.

* `strtol_decimal`: the numeral of a number, with anything behind it that is not a digit,
  is read as that number.
* `number_eq_iff`: two texts of digits are the same number if and only if they are
  the same but for the zeros at the front.
* `stoul_eq_some_iff`: all that `stoul` takes for a numeral.
-/

namespace Numerals

abbrev Text := List Char

def isSpace (c : Char) : Bool :=
  c = ' ' || c = '\t' || c = '\n' || c = '\x0b' || c = '\x0c' || c = '\r'

/-- The digits at the front, when there are any. -/
def leadingNat (s : Text) : Option Nat :=
  let digits := s.takeWhile Char.isDigit
  if digits = [] then none else some (Nat.ofDigitChars 10 digits 0)

/-- A sign, and whether it is a minus, with what follows. -/
def splitSign : Text → Bool × Text
  | '-' :: s => (true, s)
  | '+' :: s => (false, s)
  | s => (false, s)

/-- The signed numeral at the front, before any check of its range. -/
def strtol (s : Text) : Option Int :=
  match s.dropWhile isSpace with
  | '-' :: s => (leadingNat s).map fun n => -(n : Int)
  | '+' :: s => (leadingNat s).map Int.ofNat
  | s => (leadingNat s).map Int.ofNat

def stoi (s : Text) : Option Int :=
  (strtol s).bind fun n => if -2 ^ 31 ≤ n ∧ n < 2 ^ 31 then some n else none

/-- A negative numeral is the unsigned number it wraps to. -/
def stoul (s : Text) : Option Nat :=
  (strtol s).bind fun n => if n.natAbs < 2 ^ 64 then some (n % 2 ^ 64).toNat else none

/-- `std::to_string` and `str` of a number. -/
def decimal (n : Nat) : Text := Nat.toDigits 10 n

variable {n : Nat} {rest : Text}

theorem isDigit_of_mem_decimal {d : Char} (h : d ∈ decimal n) : d.isDigit = true :=
  Nat.isDigit_of_mem_toDigits (by decide) (by decide) h

theorem decimal_ne_nil : decimal n ≠ [] := Nat.toDigits_ne_nil

theorem leadingNat_decimal (hrest : ∀ d ∈ rest.head?, d.isDigit = false) :
    leadingNat (decimal n ++ rest) = some n := by
  have htake : (decimal n ++ rest).takeWhile Char.isDigit = decimal n := by
    rw [List.takeWhile_append_of_pos fun d hd => isDigit_of_mem_decimal hd]
    cases rest with
    | nil => simp
    | cons d rest => simp [hrest d rfl]
  rw [leadingNat, htake, if_neg decimal_ne_nil, decimal, Nat.ofDigitChars_ten_toDigits]

theorem not_isSpace_of_isDigit {d : Char} (hd : d.isDigit = true) : isSpace d = false := by
  unfold isSpace
  by_contra h
  simp only [Bool.not_eq_false, Bool.or_eq_true, decide_eq_true_eq] at h
  rcases h with ((((rfl | rfl) | rfl) | rfl) | rfl) | rfl <;> simp [Char.isDigit] at hd

/-- A digit is no sign. -/
theorem splitSign_of_isDigit {d : Char} (hd : d.isDigit = true) (s : Text) :
    splitSign (d :: s) = (false, d :: s) := by
  unfold splitSign
  split
  · next h =>
    cases h
    simp [Char.isDigit] at hd
  · next h =>
    cases h
    simp [Char.isDigit] at hd
  · rfl

/-- What stands before the first point. -/
theorem span_point {s : Text} (hs : '.' ∉ s) (rest : Text) :
    (s ++ '.' :: rest).span (· ≠ '.') = (s, '.' :: rest) := by
  have hne : ∀ c ∈ s, decide (c ≠ '.') = true := fun c hc =>
    decide_eq_true fun heq => hs (heq ▸ hc)
  rw [List.span_eq_takeWhile_dropWhile, List.takeWhile_append_of_pos hne,
    List.dropWhile_append_of_pos hne]
  simp

/-- A digit is neither a blank nor a sign. -/
theorem strtol_of_isDigit {d : Char} (hd : d.isDigit = true) :
    strtol (d :: rest) = (leadingNat (d :: rest)).map Int.ofNat := by
  unfold strtol
  rw [List.dropWhile_cons_of_neg (by simp [not_isSpace_of_isDigit hd])]
  split
  · next h =>
    cases h
    simp [Char.isDigit] at hd
  · next h =>
    cases h
    simp [Char.isDigit] at hd
  · rfl

theorem strtol_decimal (rest : Text) (hrest : ∀ d ∈ rest.head?, d.isDigit = false) :
    strtol (decimal n ++ rest) = some (n : Int) := by
  have hread := leadingNat_decimal (n := n) hrest
  cases h : decimal n with
  | nil => exact absurd h decimal_ne_nil
  | cons d ds =>
    have hd : d.isDigit = true := isDigit_of_mem_decimal (h ▸ List.mem_cons_self)
    rw [h] at hread
    rw [List.cons_append, strtol_of_isDigit hd, ← List.cons_append, hread]
    rfl

theorem stoi_decimal (hn : n < 2 ^ 31) : stoi (decimal n) = some (n : Int) := by
  have h := strtol_decimal (n := n) [] (by simp)
  rw [List.append_nil] at h
  rw [stoi, h, Option.bind_some, if_pos (by omega)]

theorem stoul_decimal (hn : n < 2 ^ 64) : stoul (decimal n) = some n := by
  have h := strtol_decimal (n := n) [] (by simp)
  rw [List.append_nil] at h
  have hmod : ((n : Int) % 2 ^ 64).toNat = n := by omega
  rw [stoul, h, Option.bind_some, if_pos (by simpa using hn), hmod]

/-- A digit and then something else is a number below ten. -/
theorem stoul_of_digit {d : Char} (hd : d.isDigit = true)
    (hrest : ∀ c ∈ rest.head?, c.isDigit = false) : (stoul (d :: rest)).isSome = true := by
  have htake : (d :: rest).takeWhile Char.isDigit = [d] := by
    cases rest with
    | nil => simp [hd]
    | cons c rest => simp [hd, hrest c rfl]
  have hle : d.toNat ≤ 57 := (Char.isDigit_iff_toNat.mp hd).2
  have hread : leadingNat (d :: rest) = some (d.toNat - 48) := by
    rw [leadingNat, htake]
    simp [Nat.ofDigitChars]
  rw [stoul, strtol_of_isDigit hd, hread, Option.map_some, Option.bind_some, if_pos]
  · rfl
  · change d.toNat - 48 < 2 ^ 64
    omega

/-! ## Texts of digits -/

/-- The number of a text of digits. -/
abbrev number (s : Text) : Nat := Nat.ofDigitChars 10 s 0

theorem number_decimal : number (decimal n) = n := Nat.ofDigitChars_ten_toDigits

/-- What is written behind a numeral shifts its number. -/
theorem number_append (s t : Text) :
    number (s ++ t) = number s * 10 ^ t.length + number t := by
  rw [number, Nat.ofDigitChars_append, Nat.ofDigitChars_eq_ofDigitChars_zero, Nat.mul_comm]

def dropZeros (s : Text) : Text := s.dropWhile fun d => d = '0'

theorem number_dropZeros (s : Text) : number (dropZeros s) = number s := by
  induction s with
  | nil => rfl
  | cons d s ih =>
    rcases eq_or_ne d '0' with rfl | hd
    · rw [dropZeros, List.dropWhile_cons_of_pos (by simp)]
      exact ih
    · rw [dropZeros, List.dropWhile_cons_of_neg (by simp [hd])]

theorem digitChar_sub {d : Char} (hd : d.isDigit = true) : (d.toNat - 48).digitChar = d := by
  obtain ⟨hge, hle⟩ := Char.isDigit_iff_toNat.mp hd
  have hge' : 48 ≤ d.toNat := hge
  have hle' : d.toNat ≤ 57 := hle
  refine Char.toNat_inj.mp ?_
  rw [Nat.toNat_digitChar_of_lt_ten (by omega)]
  omega

/-- The numeral of the number that a text without zeros at the front is. -/
theorem decimal_number {s : Text} (hdigits : ∀ d ∈ s, d.isDigit = true)
    (hhead : ∀ d ∈ s.head?, d ≠ '0') (hs : s ≠ []) : decimal (number s) = s := by
  induction s using List.reverseRecOn with
  | nil => exact absurd rfl hs
  | append_singleton s d ih =>
    have hd : d.isDigit = true := hdigits d (by simp)
    have hlt : d.toNat - 48 < 10 := by
      have hle : d.toNat ≤ 57 := (Char.isDigit_iff_toNat.mp hd).2
      omega
    have hnumber : number (s ++ [d]) = 10 * number s + (d.toNat - 48) := by
      rw [number, Nat.ofDigitChars_append]
      rfl
    rw [hnumber]
    rcases eq_or_ne s ([]) with rfl | hnil
    · rw [decimal, Nat.toDigits_of_lt_base (by simpa [number] using hlt)]
      simpa [number] using digitChar_sub hd
    · have ih := ih (fun d hd => hdigits d (by simp [hd]))
        (fun d hd => hhead d (by rw [List.head?_append_of_ne_nil _ hnil]; exact hd)) hnil
      have hpos : 0 < number s := by
        refine Nat.pos_of_ne_zero fun hzero => ?_
        rw [hzero] at ih
        exact hhead '0' (by rw [List.head?_append_of_ne_nil _ hnil, ← ih]; rfl) rfl
      rw [decimal, ← Nat.toDigits_append_toDigits (by decide) hpos hlt,
        Nat.toDigits_of_lt_base hlt, digitChar_sub hd]
      exact congrArg (· ++ [d]) ih

section DropZeros

variable {s t : Text}

theorem ne_zero_of_head?_dropZeros {d : Char} (h : d ∈ (dropZeros s).head?) : d ≠ '0' := by
  have hnot := List.head?_dropWhile_not (fun d => decide (d = '0')) s
  rw [show (s.dropWhile fun d => d = '0').head? = some d from h] at hnot
  simpa using hnot

/-- What is left of a text of digits is the numeral of its number. -/
theorem decimal_dropZeros (hdigits : ∀ d ∈ s, d.isDigit = true) (hs : dropZeros s ≠ []) :
    decimal (number s) = dropZeros s := by
  rw [← number_dropZeros]
  exact decimal_number (fun d hd => hdigits d ((List.dropWhile_suffix _).subset hd))
    (fun _ hd => ne_zero_of_head?_dropZeros hd) hs

theorem dropZeros_eq_nil_iff (hdigits : ∀ d ∈ s, d.isDigit = true) :
    dropZeros s = [] ↔ number s = 0 := by
  constructor
  · intro h
    rw [← number_dropZeros, h]
    rfl
  · intro hzero
    by_contra hs
    have hdecimal := decimal_dropZeros hdigits hs
    rw [hzero] at hdecimal
    exact ne_zero_of_head?_dropZeros (d := '0') (by rw [← hdecimal]; rfl) rfl

theorem number_eq_iff (hs : ∀ d ∈ s, d.isDigit = true) (ht : ∀ d ∈ t, d.isDigit = true) :
    number s = number t ↔ dropZeros s = dropZeros t := by
  constructor
  · intro h
    by_cases hnil : dropZeros s = []
    · rw [hnil, ((dropZeros_eq_nil_iff ht).mpr (h ▸ (dropZeros_eq_nil_iff hs).mp hnil))]
    · have hnil' : dropZeros t ≠ [] := by
        rwa [Ne, dropZeros_eq_nil_iff ht, ← h, ← dropZeros_eq_nil_iff hs]
      rw [← decimal_dropZeros hs hnil, ← decimal_dropZeros ht hnil', h]
  · intro h
    rw [← number_dropZeros s, h, number_dropZeros]

end DropZeros

/-! ## What is taken for a numeral -/

theorem leadingNat_eq_some_iff {s : Text} : leadingNat s = some n ↔
    ∃ digits junk, s = digits ++ junk ∧ digits ≠ [] ∧ (∀ d ∈ digits, d.isDigit = true) ∧
      (∀ c ∈ junk.head?, c.isDigit = false) ∧ number digits = n := by
  constructor
  · intro h
    obtain ⟨hne, hn⟩ := Option.ite_none_left_eq_some.mp h
    refine ⟨s.takeWhile Char.isDigit, s.dropWhile Char.isDigit,
      List.takeWhile_append_dropWhile.symm, hne, fun d hd => List.mem_takeWhile_imp hd, ?_,
      Option.some.inj hn⟩
    intro c hc
    have hnot := List.head?_dropWhile_not Char.isDigit s
    rw [show (s.dropWhile Char.isDigit).head? = some c from hc] at hnot
    simpa using hnot
  · rintro ⟨digits, junk, rfl, hne, hdigits, hjunk, rfl⟩
    have htake : (digits ++ junk).takeWhile Char.isDigit = digits := by
      rw [List.takeWhile_append_of_pos hdigits]
      cases junk with
      | nil => simp
      | cons c junk => simp [hjunk c rfl]
    rw [leadingNat, htake, if_neg hne]

/-- The parts of a text that begins with a numeral: blanks, perhaps a sign, the digits, and
anything that is not a digit. -/
structure NumeralParts (s blanks sign digits junk : Text) : Prop where
  eq_append : s = blanks ++ (sign ++ (digits ++ junk))
  blanks : ∀ c ∈ blanks, isSpace c = true
  sign : sign = [] ∨ sign = ['+'] ∨ sign = ['-']
  nonempty : digits ≠ []
  digits : ∀ d ∈ digits, d.isDigit = true
  junk : ∀ c ∈ junk.head?, c.isDigit = false

/-- The value of digits behind a sign. -/
def signedValue (sign digits : Text) : Int :=
  if sign = ['-'] then -(number digits : Int) else number digits

theorem strtol_eq_some_iff {s : Text} {v : Int} : strtol s = some v ↔
    ∃ blanks sign digits junk, NumeralParts s blanks sign digits junk ∧
      signedValue sign digits = v := by
  constructor
  · intro h
    have hsplit : s = s.takeWhile isSpace ++ s.dropWhile isSpace :=
      List.takeWhile_append_dropWhile.symm
    have hblanks : ∀ c ∈ s.takeWhile isSpace, isSpace c = true := fun c hc =>
      List.mem_takeWhile_imp hc
    unfold strtol at h
    split at h
    · next s' hs' =>
      obtain ⟨v, hv, rfl⟩ := Option.map_eq_some_iff.mp h
      obtain ⟨n, hn, hnv⟩ := Option.bind_eq_some_iff.mp hv
      obtain ⟨digits, junk, rfl, hne, hdigits, hjunk, rfl⟩ := leadingNat_eq_some_iff.mp hn
      rw [hs'] at hsplit
      exact ⟨_, ['-'], digits, junk, ⟨hsplit, hblanks, .inr (.inr rfl), hne, hdigits, hjunk⟩,
        congrArg Neg.neg (Option.some.inj hnv)⟩
    · next s' hs' =>
      obtain ⟨n, hn, rfl⟩ := Option.map_eq_some_iff.mp h
      obtain ⟨digits, junk, rfl, hne, hdigits, hjunk, rfl⟩ := leadingNat_eq_some_iff.mp hn
      rw [hs'] at hsplit
      exact ⟨_, ['+'], digits, junk, ⟨hsplit, hblanks, .inr (.inl rfl), hne, hdigits, hjunk⟩, rfl⟩
    · obtain ⟨n, hn, rfl⟩ := Option.map_eq_some_iff.mp h
      obtain ⟨digits, junk, hs', hne, hdigits, hjunk, rfl⟩ := leadingNat_eq_some_iff.mp hn
      rw [hs'] at hsplit
      exact ⟨_, [], digits, junk, ⟨hsplit, hblanks, .inl rfl, hne, hdigits, hjunk⟩, rfl⟩
  · rintro ⟨blanks, sign, digits, junk, h, rfl⟩
    obtain ⟨rfl, hblanks, hsign, hne, hdigits, hjunk⟩ := h
    have hread : leadingNat (digits ++ junk) = some (number digits) :=
      leadingNat_eq_some_iff.mpr ⟨digits, junk, rfl, hne, hdigits, hjunk, rfl⟩
    obtain ⟨d, ds, rfl⟩ := List.exists_cons_of_ne_nil hne
    have hd : d.isDigit = true := hdigits d List.mem_cons_self
    rcases hsign with rfl | rfl | rfl
    · -- without a sign, the first digit ends the blanks
      have hstrtol : strtol (d :: (ds ++ junk)) = (leadingNat (d :: (ds ++ junk))).map Int.ofNat :=
        strtol_of_isDigit hd
      rw [strtol, List.dropWhile_cons_of_neg (by simp [not_isSpace_of_isDigit hd])] at hstrtol
      rw [strtol, List.dropWhile_append_of_pos hblanks, List.nil_append, List.cons_append,
        List.dropWhile_cons_of_neg (by simp [not_isSpace_of_isDigit hd]), hstrtol,
        ← List.cons_append, hread]
      rfl
    · rw [strtol, List.dropWhile_append_of_pos hblanks, List.singleton_append,
        List.dropWhile_cons_of_neg (by simp [isSpace])]
      exact congrArg (Option.map Int.ofNat) hread
    · rw [strtol, List.dropWhile_append_of_pos hblanks, List.singleton_append,
        List.dropWhile_cons_of_neg (by simp [isSpace])]
      exact congrArg (fun o : Option Nat => (o.bind fun n => some (n : Int)).map fun v => -v) hread

/-- A text of digits is the numeral of its number. -/
theorem stoul_number {s : Text} (hs : s ≠ []) (hdigits : ∀ d ∈ s, d.isDigit = true)
    (hlt : number s < 2 ^ 64) : stoul s = some (number s) := by
  have hstrtol : strtol s = some (number s : Int) :=
    strtol_eq_some_iff.mpr ⟨[], [], s, [], ⟨by simp, nofun, .inl rfl, hs, hdigits, nofun⟩, rfl⟩
  have hmod : ((number s : Int) % 2 ^ 64).toNat = number s := by omega
  rw [stoul, hstrtol, Option.bind_some, if_pos (by simpa using hlt), hmod]

/-- What `stoul` accepts: whatever is behind the digits, and either sign. -/
theorem stoul_eq_some_iff {s : Text} : stoul s = some n ↔
    ∃ blanks sign digits junk, NumeralParts s blanks sign digits junk ∧ number digits < 2 ^ 64 ∧
      n = if sign = ['-'] then (2 ^ 64 - number digits) % 2 ^ 64 else number digits := by
  have hvalue : ∀ sign digits : Text, (signedValue sign digits).natAbs = number digits := by
    intro sign digits
    unfold signedValue
    split <;> simp
  have hwrap : ∀ sign digits : Text, number digits < 2 ^ 64 →
      (signedValue sign digits % 2 ^ 64).toNat =
        if sign = ['-'] then (2 ^ 64 - number digits) % 2 ^ 64 else number digits := by
    intro sign digits hlt
    unfold signedValue
    split <;> omega
  constructor
  · intro h
    obtain ⟨v, hv, h⟩ := Option.bind_eq_some_iff.mp h
    obtain ⟨blanks, sign, digits, junk, hparts, rfl⟩ := strtol_eq_some_iff.mp hv
    obtain ⟨hlt, hn⟩ := Option.ite_none_right_eq_some.mp h
    rw [hvalue] at hlt
    exact ⟨blanks, sign, digits, junk, hparts, hlt, by rw [← hwrap _ _ hlt, Option.some.inj hn]⟩
  · rintro ⟨blanks, sign, digits, junk, hparts, hlt, rfl⟩
    rw [stoul, strtol_eq_some_iff.mpr ⟨blanks, sign, digits, junk, hparts, rfl⟩, Option.bind_some,
      hvalue, if_pos hlt, hwrap _ _ hlt]

end Numerals
