import Mathlib.Tactic.NormNum
import Paraleon.Library.Polyline
import Paraleon.Library.PyText

/-!
# Flow sizes from a distribution function

`CustomRand` reads a cumulative distribution function as points of a size and a percentile, and
interpolates between them. The numbers are those of any field, and exact.

* `sampling_iff`: what the constructor accepts is sampled correctly exactly when the lines that
  the search uses rise from the first point to the last, and nothing else counts in the mean.
* `proper_iff_of_sorted`: what that says of a file whose percentiles do not decrease.
-/

namespace Paraleon.Traffic

open Numerals Polyline PyText Set

/-! ## The class -/

/-- A line of the file; `fl` is the number that `float` makes of a numeral. -/
def readPoint {K : Type*} (fl : ℚ → K) (line : Text) : Option (Point K) :=
  match split (strip line) with
  | [x, y] => (float fl x).bind fun x => (float fl y).map fun y => { x, y }
  | _ => none

def readCdf {K : Type*} (fl : ℚ → K) (file : Text) : Option (List (Point K)) :=
  (readLines file).mapM (readPoint fl)

/-- The points, with what the constructor asserts of them. -/
structure CustomRand (K : Type*) [Field K] [LinearOrder K] where
  first : Point K
  rest : List (Point K)
  first_y : first.y = 0
  last_y : (rest.getLastD first).y = 100
  increasing : (first :: rest).IsChain fun a b => b.y > a.y ∨ b.x > a.x

/-- What comes instead of a number. -/
inductive Fault where
  | zeroDivisionError
  | noneReturned
deriving DecidableEq, Repr

namespace CustomRand

variable {K : Type*} [Field K] [LinearOrder K]

/-- `__init__`; `none` is an exception. -/
def init (fl : ℚ → K) (file : Text) : Option (CustomRand K) :=
  match readCdf fl file with
  | some (first :: rest) =>
    if h : first.y = 0 ∧ (rest.getLastD first).y = 100 ∧
        (first :: rest).IsChain fun a b => b.y > a.y ∨ b.x > a.x then
      some { first, rest, first_y := h.1, last_y := h.2.1, increasing := h.2.2 }
    else none
  | _ => none

theorem init_eq_some {fl : ℚ → K} {file : Text} {r : CustomRand K}
    (h : readCdf fl file = some (r.first :: r.rest)) : init fl file = some r := by
  rw [init, h]
  exact dif_pos ⟨r.first_y, r.last_y, r.increasing⟩

/-- `get_avg`; the area of two points is `(x + last_x) / 2.0 * (y - last_y)`. -/
def getAvg (r : CustomRand K) : K :=
  let (s, _) := r.rest.foldl (fun (s, last) p => (s + area last p, p)) (0, r.first)
  s / 100

/-- The loop of `get_value_from_percentile`. -/
def search : Point K → List (Point K) → K → Except Fault K
  | _, [], _ => .error .noneReturned
  | p₀, p₁ :: rest, percentile =>
    if percentile ≤ p₁.y then
      if p₁.y - p₀.y = 0 then .error .zeroDivisionError
      else .ok (p₀.x + (p₁.x - p₀.x) / (p₁.y - p₀.y) * (percentile - p₀.y))
    else search p₁ rest percentile

def getValueFromPercentile (r : CustomRand K) (percentile : K) : Except Fault K :=
  search r.first r.rest percentile

def last (r : CustomRand K) : Point K := r.rest.getLastD r.first

end CustomRand

/-! ## What is computed -/

section Field

variable {K : Type*} [Field K] [LinearOrder K] {a b : Point K} {rest : List (Point K)} {p : K}

theorem search_eq_value (hp : ∃ b ∈ rest, p ≤ b.y)
    (h : a.y < p ∨ ∀ b ∈ rest.head?, b.y ≠ a.y) :
    CustomRand.search a rest p = .ok (value a rest p) := by
  induction rest generalizing a with
  | nil => obtain ⟨b, hb, -⟩ := hp; cases hb
  | cons b rest ih =>
    rw [CustomRand.search, value]
    rcases le_or_gt p b.y with hle | hlt
    · have hne : b.y - a.y ≠ 0 := by
        refine sub_ne_zero.mpr ?_
        rcases h with hlt | hhead
        · exact (hlt.trans_le hle).ne'
        · exact hhead b rfl
      rw [if_pos hle, if_pos hle, if_neg hne, line]
    · rw [if_neg hlt.not_ge, if_neg hlt.not_ge]
      exact ih (reached_of_lt hp hlt) (.inl hlt)

omit [LinearOrder K] in
theorem foldl_area (s : K) (a : Point K) (rest : List (Point K)) :
    (rest.foldl (fun (s, last) p => (s + area last p, p)) (s, a)).1 =
      s + totalArea a rest := by
  induction rest generalizing s a with
  | nil => exact (add_zero s).symm
  | cons b rest ih => rw [List.foldl_cons, ih, totalArea, add_assoc]

theorem CustomRand.getAvg_eq (r : CustomRand K) : r.getAvg = totalArea r.first r.rest / 100 := by
  have hfold := foldl_area 0 r.first r.rest
  rw [zero_add] at hfold
  rw [← hfold]
  rfl

end Field

namespace CustomRand

variable {K : Type*} [Field K] [LinearOrder K] [IsStrictOrderedRing K]

theorem reaches (r : CustomRand K) : ∃ b ∈ r.rest, 100 ≤ b.y := by
  have hlast := r.last_y
  cases hrest : r.rest with
  | nil =>
    rw [hrest, List.getLastD_nil, r.first_y] at hlast
    norm_num at hlast
  | cons b rest =>
    rw [hrest] at hlast
    refine ⟨(b :: rest).getLast (List.cons_ne_nil b rest), List.getLast_mem _, ?_⟩
    rw [List.getLastD_eq_getLast?, List.getLast?_eq_some_getLast (List.cons_ne_nil b rest)] at hlast
    exact hlast.ge

/-- The second percentile is not zero; the lines that the search uses rise from the first point to
the last; and the areas of what it does not use, which are in the mean, add up to zero. -/
def Proper (r : CustomRand K) : Prop :=
  (∀ b ∈ r.rest.head?, b.y ≠ 0) ∧ Begins 0 r.first.x r.first r.rest ∧
    Rising 100 r.last.x r.first r.rest 0 r.first.x ∧ unusedArea 100 r.first r.rest 0 = 0

/-- Every percentile has a value, from that of the first point to that of the last and never
decreasing, and the mean is that of these values. -/
def Sampling (r : CustomRand ℝ) : Prop :=
  ∃ g : ℝ → ℝ, (∀ p ∈ Icc (0 : ℝ) 100, r.getValueFromPercentile p = .ok (g p)) ∧
    MonotoneOn g (Icc 0 100) ∧ g 0 = r.first.x ∧ g 100 = r.last.x ∧
      r.getAvg = 1 / 100 * ∫ p in (0 : ℝ)..100, g p

end CustomRand

theorem sampling_iff_proper (r : CustomRand ℝ) : r.Sampling ↔ r.Proper := by
  have hreach := r.reaches
  have hfirst : r.first.y ≤ 0 := r.first_y.le
  have hlow : (0 : ℝ) < 100 := by norm_num
  obtain ⟨-, hintegral⟩ := integral_value hlow hfirst hreach
  have hvalue : (∀ b ∈ r.rest.head?, b.y ≠ 0) → ∀ p ∈ Icc (0 : ℝ) 100,
      r.getValueFromPercentile p = .ok (value r.first r.rest p) := by
    intro hne p hp
    obtain ⟨b, hb, hle⟩ := hreach
    refine search_eq_value ⟨b, hb, hp.2.trans hle⟩ (.inr fun b hb => ?_)
    rw [r.first_y]
    exact hne b hb
  have hmean : r.getAvg = 1 / 100 * ∫ p in (0 : ℝ)..100, value r.first r.rest p ↔
      unusedArea 100 r.first r.rest 0 = 0 := by
    rw [r.getAvg_eq, hintegral]
    constructor <;> intro h <;> linarith
  constructor
  · rintro ⟨g, hg, hmono, hzero, htop, havg⟩
    have hne : ∀ b ∈ r.rest.head?, b.y ≠ 0 := by
      intro b hb hy
      have hdefined := hg 0 ⟨le_rfl, hlow.le⟩
      obtain ⟨rest, hrest⟩ := List.head?_eq_some_iff.mp hb
      rw [CustomRand.getValueFromPercentile, hrest, CustomRand.search, if_pos hy.ge, if_pos
        (by rw [hy, r.first_y, sub_zero])] at hdefined
      cases hdefined
    have heq : EqOn g (value r.first r.rest) (Icc 0 100) := fun p hp =>
      Except.ok.inj ((hg p hp).symm.trans (hvalue hne p hp))
    have hint : ∫ p in (0 : ℝ)..100, g p = ∫ p in (0 : ℝ)..100, value r.first r.rest p :=
      intervalIntegral.integral_congr (by rwa [uIcc_of_le hlow.le])
    rw [hint] at havg
    rw [heq ⟨le_rfl, hlow.le⟩] at hzero
    rw [heq ⟨hlow.le, le_rfl⟩] at htop
    obtain ⟨hbegins, hrising⟩ :=
      (begins_rising_iff hlow hfirst hreach).mpr ⟨hmono.congr heq, hzero, htop⟩
    exact ⟨hne, hbegins, hrising, hmean.mp havg⟩
  · rintro ⟨hne, hbegins, hrising, hunused⟩
    obtain ⟨hmono, hzero, htop⟩ := (begins_rising_iff hlow hfirst hreach).mp ⟨hbegins, hrising⟩
    exact ⟨value r.first r.rest, hvalue hne, hmono, hzero, htop, hmean.mpr hunused⟩

/-- For every file that the constructor accepts, the samples and their mean are right exactly if the
points are proper. -/
theorem sampling_iff {fl : ℚ → ℝ} {file : Text} {r : CustomRand ℝ}
    (_h : CustomRand.init fl file = some r) : r.Sampling ↔ r.Proper :=
  sampling_iff_proper r

/-- Where no percentile is below the one before, the points are proper if the sizes do not
decrease, the second percentile is above 0 and the last but one below 100. -/
theorem proper_iff_of_sorted (r : CustomRand ℝ)
    (h : (r.first :: r.rest).IsChain fun a b => a.y ≤ b.y) :
    r.Proper ↔ (∀ b ∈ r.rest.head?, b.y ≠ 0) ∧
      (r.first :: r.rest).IsChain (fun a b => a.x ≤ b.x) ∧
        ∀ c ∈ (r.first :: r.rest).dropLast, c.y ≠ 100 := by
  have hsorted : Sorted (r.first :: r.rest) :=
    List.isChain_iff_getElem.mpr fun i hi =>
      ⟨List.isChain_iff_getElem.mp h i hi, List.isChain_iff_getElem.mp r.increasing i hi⟩
  have hlow : r.first.y < 100 := by
    rw [r.first_y]
    norm_num
  have hbegins : Begins 0 r.first.x r.first r.rest := by
    cases hrest : r.rest with
    | nil => exact trivial
    | cons b rest =>
      rw [hrest] at hsorted
      have hle := (sorted_cons_cons.mp hsorted).1.1
      rw [r.first_y] at hle
      rw [Begins, if_pos hle, ← r.first_y, line_left]
  have hunused := hsorted.unusedArea_eq_zero r.last_y
  have hrising := hsorted.rising_iff r.last_y hlow le_rfl
  rw [r.first_y] at hunused hrising
  rw [CustomRand.Proper, and_iff_right hbegins, and_iff_left hunused]
  exact and_congr_right fun _ => hrising

/-! ## Files -/

/-- The numbers of a file are those of the same file in rational numbers. -/
theorem readCdf_eq_map {K : Type*} (fl : ℚ → K) (file : Text) :
    readCdf fl file =
      (readCdf id file).map (List.map fun p => { x := fl p.x, y := fl p.y }) := by
  have hpoint : readPoint fl = fun line =>
      (readPoint id line).map fun p => ({ x := fl p.x, y := fl p.y } : Point K) := by
    funext line
    unfold readPoint
    split
    · next x y heq =>
      rw [float_eq_map fl x, float_eq_map fl y]
      cases float id x <;> cases float id y <;> rfl
    · rfl
  rw [readCdf, readCdf, hpoint]
  induction readLines file with
  | nil => rfl
  | cons line lines ih =>
    rw [List.mapM_cons, List.mapM_cons, ih]
    cases readPoint id line with
    | none => rfl
    | some p => cases List.mapM (readPoint id) lines <;> rfl

/-- A distribution function of two lines. -/
def exFile : Text := "0 0\n1000 50\n5000 100\n".toList

/-- The same, but no percentile lies between the first two sizes. -/
def exFlat : Text := "0 0\n1000 0\n5000 100\n".toList

theorem exFile_cdf : readCdf id exFile = some [⟨0, 0⟩, ⟨1000, 50⟩, ⟨5000, 100⟩] := by
  decide +kernel

theorem exFlat_cdf : readCdf id exFlat = some [⟨0, 0⟩, ⟨1000, 0⟩, ⟨5000, 100⟩] := by
  decide +kernel

def exRand : CustomRand ℝ where
  first := ⟨0, 0⟩
  rest := [⟨1000, 50⟩, ⟨5000, 100⟩]
  first_y := rfl
  last_y := rfl
  increasing := by norm_num

def exFlatRand : CustomRand ℝ where
  first := ⟨0, 0⟩
  rest := [⟨1000, 0⟩, ⟨5000, 100⟩]
  first_y := rfl
  last_y := rfl
  increasing := by norm_num

theorem exFile_init : CustomRand.init (fun q => (q : ℝ)) exFile = some exRand := by
  refine CustomRand.init_eq_some ?_
  rw [readCdf_eq_map, exFile_cdf]
  norm_num [exRand]

theorem exFlat_init : CustomRand.init (fun q => (q : ℝ)) exFlat = some exFlatRand := by
  refine CustomRand.init_eq_some ?_
  rw [readCdf_eq_map, exFlat_cdf]
  norm_num [exFlatRand]

theorem exRand_sampling : exRand.Sampling ↔ exRand.Proper := sampling_iff exFile_init

/-- A file whose second percentile is zero is accepted, and zero divides by zero. -/
theorem flat_start_divides :
    CustomRand.init (fun q => (q : ℝ)) exFlat = some exFlatRand ∧
      exFlatRand.getValueFromPercentile 0 = .error .zeroDivisionError ∧ ¬exFlatRand.Sampling := by
  have hzero : exFlatRand.getValueFromPercentile 0 = .error .zeroDivisionError := by
    simp [CustomRand.getValueFromPercentile, exFlatRand, CustomRand.search]
  refine ⟨exFlat_init, hzero, fun ⟨g, hg, _⟩ => ?_⟩
  have hdefined := hg 0 ⟨le_rfl, by norm_num⟩
  rw [hzero] at hdefined
  cases hdefined

end Paraleon.Traffic
