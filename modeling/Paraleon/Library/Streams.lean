import Mathlib.Algebra.Order.Floor.Ring
import Mathlib.Data.Rat.Floor
import Mathlib.Tactic.FieldSimp
import Mathlib.Tactic.Linarith
import Mathlib.Tactic.Positivity
import Mathlib.Tactic.Ring
import Paraleon.Library.Numerals

/-!
# Numbers in streams

`std::istream` as far as `operator>>` for `uint32_t` and `double` goes: blanks are skipped, a
numeral is taken as far as it goes, and a failure is remembered, after which nothing is read any
more. `fixed` is `%.nf` of C and Python.

* `readUInt32_decimal`: a number of 32 bits is read back.
* `readDouble_fixed`: what `fixed` prints is read as the number that it stands for, rounded to a
  double.
-/

namespace Streams

open Numerals

structure Istream where
  rest : Text
  failed : Bool
deriving DecidableEq

/-- The exponent of a numeral, `none` if it has no digits, with what follows. -/
def splitExponent : Text → Option Int × Text
  | c :: s =>
    if c = 'e' ∨ c = 'E' then
      let (negative, s) := splitSign s
      let n : Option Int := (leadingNat s).map fun n => if negative then -(n : Int) else n
      (n, s.dropWhile Char.isDigit)
    else (some 0, c :: s)
  | [] => (some 0, [])

/-- The digits behind a point, if there is one, with what follows. -/
def splitFraction : Text → Text × Text
  | '.' :: s => (s.takeWhile Char.isDigit, s.dropWhile Char.isDigit)
  | s => ([], s)

/-- The largest double. -/
def maxDouble : ℚ := 2 ^ 1024 - 2 ^ 971

/-- From here on a number is rounded to infinity. -/
def doubleLimit : ℚ := 2 ^ 1024 - 2 ^ 970

namespace Istream

/-- `is >> x` for a `uint32_t` with the value `x`. A number that is too large, or no number,
leaves the largest value, or 0; a negative one wraps; at the end `x` stays. -/
def readUInt32 (is : Istream) (x : Nat) : Nat × Istream :=
  if is.failed then (x, is)
  else
    let s := is.rest.dropWhile isSpace
    if s = [] then (x, ⟨[], true⟩)
    else
      let (negative, s) := splitSign s
      let rest := s.dropWhile Char.isDigit
      match leadingNat s with
      | none => (0, ⟨rest, true⟩)
      | some n =>
        if 2 ^ 32 ≤ n then (2 ^ 32 - 1, ⟨rest, true⟩)
        else (if negative then (2 ^ 32 - n) % 2 ^ 32 else n, ⟨rest, false⟩)

/-- `is >> x` for a `double` with the value `x`. `fl` is the double nearest to a number. -/
def readDouble (fl : ℚ → ℚ) (is : Istream) (x : ℚ) : ℚ × Istream :=
  if is.failed then (x, is)
  else
    let s := is.rest.dropWhile isSpace
    if s = [] then (x, ⟨[], true⟩)
    else
      let (negative, s) := splitSign s
      let whole := s.takeWhile Char.isDigit
      let (fraction, s) := splitFraction (s.dropWhile Char.isDigit)
      if whole = [] ∧ fraction = [] then (0, ⟨s, true⟩)
      else
        let sign : ℚ := if negative then -1 else 1
        match splitExponent s with
        | (none, s) => (0, ⟨s, true⟩)
        | (some e, s) =>
          let v : ℚ := Nat.ofDigitChars 10 (whole ++ fraction) 0 / 10 ^ fraction.length * 10 ^ e
          if doubleLimit ≤ v then (sign * maxDouble, ⟨s, true⟩)
          else (fl (sign * v), ⟨s, false⟩)

end Istream

/-! ## Printing -/

/-- The nearest integer; a tie goes to the even one. -/
def roundHalfEven (x : ℚ) : Int :=
  let rest := x - ⌊x⌋
  if rest < 1 / 2 then ⌊x⌋
  else if 1 / 2 < rest then ⌊x⌋ + 1
  else if ⌊x⌋ % 2 = 0 then ⌊x⌋
  else ⌊x⌋ + 1

/-- A number below `10 ^ places`, with zeros in front. -/
def padded (places n : Nat) : Text :=
  List.replicate (places - (decimal n).length) '0' ++ decimal n

/-- The number of units of the last place that are printed of `x`. -/
def fixedUnits (places : Nat) (x : ℚ) : Nat := (roundHalfEven (|x| * 10 ^ places)).toNat

/-- `%.nf` with `places > 0`. -/
def fixed (places : Nat) (x : ℚ) : Text :=
  let n := fixedUnits places x
  (if x < 0 then ['-'] else []) ++ decimal (n / 10 ^ places) ++
    '.' :: padded places (n % 10 ^ places)

/-- The number that `fixed` prints. -/
def fixedValue (places : Nat) (x : ℚ) : ℚ :=
  (if x < 0 then -1 else 1) * (fixedUnits places x / 10 ^ places)

/-! ## Reading back -/

variable {n places : Nat} {x : ℚ} {pre rest : Text}

theorem dropWhile_isSpace {d : Char} {s : Text} (hpre : ∀ c ∈ pre, isSpace c = true)
    (hd : isSpace d = false) : (pre ++ d :: s).dropWhile isSpace = d :: s := by
  rw [List.dropWhile_append_of_pos hpre, List.dropWhile_cons_of_neg (by simp [hd])]

theorem exists_decimal (n : Nat) : ∃ d ds, decimal n = d :: ds ∧ d.isDigit = true := by
  cases h : decimal n with
  | nil => exact absurd h decimal_ne_nil
  | cons d ds => exact ⟨d, ds, rfl, isDigit_of_mem_decimal (h ▸ List.mem_cons_self)⟩

theorem takeWhile_digits {digits : Text} (h : ∀ d ∈ digits, d.isDigit = true)
    (hrest : ∀ d ∈ rest.head?, d.isDigit = false) :
    (digits ++ rest).takeWhile Char.isDigit = digits ∧
      (digits ++ rest).dropWhile Char.isDigit = rest := by
  rw [List.takeWhile_append_of_pos h, List.dropWhile_append_of_pos h]
  cases rest with
  | nil => simp
  | cons d rest => simp [hrest d rfl]

/-- A number behind blanks, as long as it has 32 bits. -/
theorem readUInt32_decimal (old : Nat) (hpre : ∀ c ∈ pre, isSpace c = true)
    (hrest : ∀ d ∈ rest.head?, d.isDigit = false) (hn : n < 2 ^ 32) :
    Istream.readUInt32 ⟨pre ++ (decimal n ++ rest), false⟩ old = (n, ⟨rest, false⟩) := by
  obtain ⟨d, ds, hds, hd⟩ := exists_decimal n
  have hskip : (pre ++ (decimal n ++ rest)).dropWhile isSpace = decimal n ++ rest := by
    rw [hds, List.cons_append]
    exact dropWhile_isSpace hpre (not_isSpace_of_isDigit hd)
  have hsign : splitSign (decimal n ++ rest) = (false, decimal n ++ rest) := by
    rw [hds, List.cons_append]
    exact splitSign_of_isDigit hd _
  have hne : decimal n ++ rest ≠ [] := by simp [hds]
  have hdrop := (takeWhile_digits (fun d => isDigit_of_mem_decimal (n := n)) hrest).2
  simp only [Istream.readUInt32, hskip, hsign, hdrop, leadingNat_decimal hrest, hne,
    Bool.false_eq_true, if_false, Nat.not_le.mpr hn]

/-- Whatever is read has 32 bits. -/
theorem readUInt32_lt (is : Istream) {old : Nat} (hold : old < 2 ^ 32) :
    (is.readUInt32 old).1 < 2 ^ 32 := by
  unfold Istream.readUInt32
  split
  · exact hold
  · dsimp only
    split
    · exact hold
    · split
      · exact Nat.two_pow_pos 32
      · next n _ =>
        split
        · exact Nat.sub_lt (Nat.two_pow_pos 32) Nat.one_pos
        · next hsmall =>
          split
          · exact Nat.mod_lt _ (Nat.two_pow_pos 32)
          · exact Nat.lt_of_not_le hsmall

theorem length_padded (hplaces : 0 < places) (hn : n < 10 ^ places) :
    (padded places n).length = places := by
  have hle : (decimal n).length ≤ places :=
    (Nat.length_toDigits_le_iff (by decide) hplaces).mpr hn
  rw [padded, List.length_append, List.length_replicate, Nat.sub_add_cancel hle]

theorem isDigit_of_mem_padded {d : Char} (h : d ∈ padded places n) : d.isDigit = true := by
  rcases List.mem_append.mp h with h | h
  · rw [(List.mem_replicate.mp h).2]
    rfl
  · exact isDigit_of_mem_decimal h

theorem ofDigitChars_padded (places n init : Nat) (hlen : (padded places n).length = places) :
    Nat.ofDigitChars 10 (padded places n) init = 10 ^ places * init + n := by
  rw [padded, List.length_append, List.length_replicate, Nat.add_comm] at hlen
  rw [padded, Nat.ofDigitChars_append, Nat.ofDigitChars_replicate_zero,
    Nat.ofDigitChars_eq_ofDigitChars_zero, ← Nat.mul_assoc, ← Nat.pow_add, hlen, decimal,
    Nat.ofDigitChars_ten_toDigits]

theorem roundHalfEven_nonneg (hx : 0 ≤ x) : 0 ≤ roundHalfEven x := by
  have hfloor : 0 ≤ ⌊x⌋ := Int.floor_nonneg.mpr hx
  unfold roundHalfEven
  dsimp only
  split_ifs <;> omega

theorem roundHalfEven_le (x : ℚ) : (roundHalfEven x : ℚ) ≤ x + 1 / 2 := by
  have hfloor := Int.floor_le x
  unfold roundHalfEven
  dsimp only
  split_ifs with h₁ h₂ h₃
  · linarith
  · push_cast
    linarith
  · linarith
  · push_cast
    linarith

theorem roundHalfEven_mono {y : ℚ} (h : x ≤ y) : roundHalfEven x ≤ roundHalfEven y := by
  have hfloor : ⌊x⌋ ≤ ⌊y⌋ := Int.floor_le_floor h
  rcases hfloor.eq_or_lt with heq | hlt
  · -- The same integer below both: the rest of `x` is not the larger one.
    have hrest : x - ⌊x⌋ ≤ y - ⌊x⌋ := sub_le_sub_right h _
    unfold roundHalfEven
    rw [← heq]
    dsimp only
    split_ifs <;> first | omega | linarith
  · have hx : roundHalfEven x ≤ ⌊x⌋ + 1 := by
      unfold roundHalfEven
      dsimp only
      split_ifs <;> omega
    have hy : ⌊y⌋ ≤ roundHalfEven y := by
      unfold roundHalfEven
      dsimp only
      split_ifs <;> omega
    omega

/-- What is printed is within half a unit of the last place. -/
theorem fixedUnits_le (places : Nat) (x : ℚ) :
    (fixedUnits places x : ℚ) ≤ |x| * 10 ^ places + 1 / 2 := by
  have hnonneg : 0 ≤ roundHalfEven (|x| * 10 ^ places) := roundHalfEven_nonneg (by positivity)
  have hcast : (fixedUnits places x : ℚ) = (roundHalfEven (|x| * 10 ^ places) : ℚ) := by
    rw [fixedUnits, ← Int.cast_natCast, Int.toNat_of_nonneg hnonneg]
  rw [hcast]
  exact roundHalfEven_le _

/-- A double is printed as a number that is not out of range. -/
theorem fixedUnits_lt_limit (places : Nat) (hx : |x| ≤ maxDouble) :
    (fixedUnits places x : ℚ) / 10 ^ places < doubleLimit := by
  have hpos : (0 : ℚ) < 10 ^ places := by positivity
  have hone : (1 : ℚ) ≤ 10 ^ places := one_le_pow₀ (by norm_num)
  rw [div_lt_iff₀ hpos]
  have hgap : maxDouble + 1 < doubleLimit := by
    have hdouble : (2 : ℚ) ^ 971 = 2 * 2 ^ 970 := by rw [← pow_succ']
    have hlarge : (1 : ℚ) < 2 ^ 970 := one_lt_pow₀ one_lt_two (by decide)
    rw [maxDouble, doubleLimit, hdouble]
    generalize (2 : ℚ) ^ 1024 = a
    generalize (2 : ℚ) ^ 970 = b at hlarge ⊢
    linarith
  calc (fixedUnits places x : ℚ) ≤ |x| * 10 ^ places + 1 / 2 := fixedUnits_le places x
    _ ≤ maxDouble * 10 ^ places + 1 / 2 := by gcongr
    _ < (maxDouble + 1) * 10 ^ places := by linarith
    _ ≤ doubleLimit * 10 ^ places := by gcongr

/-- Rounding to some places keeps the order. -/
theorem fixedValue_mono (places : Nat) {y : ℚ} (h : x ≤ y) :
    fixedValue places x ≤ fixedValue places y := by
  have hunits : ∀ {a b : ℚ}, a ≤ b → (roundHalfEven (a * 10 ^ places)).toNat ≤
      (roundHalfEven (b * 10 ^ places)).toNat := fun hab =>
    Int.toNat_le_toNat (roundHalfEven_mono (mul_le_mul_of_nonneg_right hab (by positivity)))
  have hnonneg : ∀ z : ℚ, (0 : ℚ) ≤ fixedUnits places z / 10 ^ places := fun z => by positivity
  have hscale : ∀ {m n : Nat}, m ≤ n → (m : ℚ) / 10 ^ places ≤ n / 10 ^ places := fun hmn =>
    div_le_div_of_nonneg_right (Nat.cast_le.mpr hmn) (by positivity)
  rw [fixedValue, fixedValue]
  split_ifs with hx hy hy
  · have hle : fixedUnits places y ≤ fixedUnits places x := by
      rw [fixedUnits, fixedUnits, abs_of_neg hx, abs_of_neg hy]
      exact hunits (neg_le_neg h)
    linarith [hscale hle]
  · linarith [hnonneg x, hnonneg y]
  · exact absurd (h.trans_lt hy) hx
  · have hle : fixedUnits places x ≤ fixedUnits places y := by
      rw [fixedUnits, fixedUnits, abs_of_nonneg (not_lt.mp hx), abs_of_nonneg (not_lt.mp hy)]
      exact hunits h
    linarith [hscale hle]

theorem fixedValue_nonneg (places : Nat) (hx : 0 ≤ x) : 0 ≤ fixedValue places x := by
  rw [fixedValue, if_neg hx.not_gt, one_mul]
  positivity

/-- What `fixed` prints, behind blanks and before something that is no part of a number. -/
theorem readDouble_fixed (fl : ℚ → ℚ) (old : ℚ) (hplaces : 0 < places) (hx : |x| ≤ maxDouble)
    (hpre : ∀ c ∈ pre, isSpace c = true)
    (hrest : ∀ d ∈ rest.head?, d.isDigit = false ∧ d ≠ 'e' ∧ d ≠ 'E') :
    Istream.readDouble fl ⟨pre ++ (fixed places x ++ rest), false⟩ old =
      (fl (fixedValue places x), ⟨rest, false⟩) := by
  have hlen := length_padded (n := fixedUnits places x % 10 ^ places) hplaces
    (Nat.mod_lt _ (Nat.pow_pos (by decide)))
  obtain ⟨d, ds, hds, hd⟩ := exists_decimal (fixedUnits places x / 10 ^ places)
  -- the text behind the sign, and its parts
  obtain ⟨tail, htail⟩ : ∃ tail, tail = decimal (fixedUnits places x / 10 ^ places) ++
    ('.' :: (padded places (fixedUnits places x % 10 ^ places) ++ rest)) := ⟨_, rfl⟩
  have htext : fixed places x ++ rest = (if x < 0 then ['-'] else []) ++ tail := by
    simp [fixed, htail]
  have hsplit : splitSign (fixed places x ++ rest) = (decide (x < 0), tail) := by
    rw [htext]
    split
    · next hneg => simp [splitSign, hneg]
    · next hpos =>
      rw [List.nil_append, htail, hds, List.cons_append, splitSign_of_isDigit hd]
      simp [hpos]
  have hskip : (pre ++ (fixed places x ++ rest)).dropWhile isSpace = fixed places x ++ rest := by
    rw [htext]
    split
    · exact dropWhile_isSpace hpre (by decide)
    · rw [List.nil_append, htail, hds, List.cons_append]
      exact dropWhile_isSpace hpre (not_isSpace_of_isDigit hd)
  have hne : fixed places x ++ rest ≠ [] := by simp [fixed]
  have hdigits₁ : ∀ d ∈ decimal (fixedUnits places x / 10 ^ places), d.isDigit = true :=
    fun d hd => isDigit_of_mem_decimal hd
  have hdigits₂ : ∀ d ∈ padded places (fixedUnits places x % 10 ^ places), d.isDigit = true :=
    fun d hd => isDigit_of_mem_padded hd
  have hpoint : ∀ d ∈ ('.' :: (padded places (fixedUnits places x % 10 ^ places) ++ rest)).head?,
      d.isDigit = false := by simp [Char.isDigit]
  obtain ⟨hwhole, hbehind⟩ := takeWhile_digits hdigits₁ hpoint
  rw [← htail] at hwhole hbehind
  obtain ⟨hfraction, hend⟩ := takeWhile_digits hdigits₂ fun d hd => (hrest d hd).1
  have hexponent : splitExponent rest = (some 0, rest) := by
    cases rest with
    | nil => rfl
    | cons d rest => simp [splitExponent, hrest d rfl]
  have hdigits : Nat.ofDigitChars 10 (decimal (fixedUnits places x / 10 ^ places) ++
      padded places (fixedUnits places x % 10 ^ places)) 0 = fixedUnits places x := by
    rw [Nat.ofDigitChars_append, ofDigitChars_padded _ _ _ hlen, decimal,
      Nat.ofDigitChars_ten_toDigits, Nat.div_add_mod]
  have hlimit := fixedUnits_lt_limit places hx
  simp only [Istream.readDouble, hskip, hsplit, hwhole, hbehind, splitFraction, hfraction, hend,
    hexponent, hdigits, hlen, hne, decimal_ne_nil, Bool.false_eq_true, if_false, false_and,
    zpow_zero, mul_one, not_le.mpr hlimit, decide_eq_true_eq]
  rw [fixedValue]

end Streams
