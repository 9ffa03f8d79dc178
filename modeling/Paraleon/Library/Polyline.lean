import Mathlib.Analysis.SpecialFunctions.Integrals.Basic
import Mathlib.Order.Monotone.Union

/-!
# Polylines that are searched from the front

A list of points, between which lie straight lines, is read as a function of `y`: the line up to
the first point whose `y` is not smaller than the argument gives the value. Nothing is assumed
about the order of the points.

* `integral_value`: the integral of the function is the area of the polyline without its parts
  that the search never uses.
* `rising_iff`: when the function is nondecreasing and ends at a given value.
* `Sorted.rising_iff`: the same for points in order.
-/

namespace Polyline

open Set

structure Point (K : Type*) where
  x : K
  y : K
deriving DecidableEq, Repr

section Field

variable {K : Type*} [Field K]

/-- The line through two points. -/
def line (a b : Point K) (p : K) : K := a.x + (b.x - a.x) / (b.y - a.y) * (p - a.y)

/-- The area between two points, counted backwards if the second is below. -/
def area (a b : Point K) : K := (b.x + a.x) / 2 * (b.y - a.y)

/-- The area between two arguments. -/
def areaBetween (a b : Point K) (p q : K) : K := (line a b p + line a b q) / 2 * (q - p)

def totalArea : Point K → List (Point K) → K
  | _, [] => 0
  | a, b :: rest => area a b + totalArea b rest

theorem line_left (a b : Point K) : line a b a.y = a.x := by simp [line]

theorem line_right {a b : Point K} (h : a.y ≠ b.y) : line a b b.y = b.x := by
  rw [line, div_mul_cancel₀ _ (sub_ne_zero.mpr h.symm), add_sub_cancel]

theorem areaBetween_ends {a b : Point K} (h : a.y ≠ b.y) : areaBetween a b a.y b.y = area a b := by
  rw [areaBetween, line_left, line_right h, area, add_comm]

theorem areaBetween_add [CharZero K] (a b : Point K) (p q r : K) :
    areaBetween a b p q + areaBetween a b q r = areaBetween a b p r := by
  simp only [areaBetween, line]
  ring

theorem areaBetween_self (a b : Point K) (p : K) : areaBetween a b p p = 0 := by
  rw [areaBetween, sub_self, mul_zero]

end Field

section Order

variable {K : Type*} [Field K] [LinearOrder K]

/-- The value at `p`: the first line that reaches `p` has it. -/
def value : Point K → List (Point K) → K → K
  | a, [], _ => a.x
  | a, b :: rest, p => if p ≤ b.y then line a b p else value b rest p

/-- The area of what the search never uses, where it starts above `low` and ends at `hi`. -/
def unusedArea (hi : K) : Point K → List (Point K) → K → K
  | _, [], _ => 0
  | a, b :: rest, low =>
    if low < hi ∧ low < b.y then
      areaBetween a b a.y low + areaBetween a b (min hi b.y) b.y + unusedArea hi b rest b.y
    else area a b + unusedArea hi b rest low

/-- The lines that the search uses above `low` rise, each from the value where the one before
ends, the first from `v`, and the last of them is at `top` at `hi`. -/
def Rising (hi top : K) : Point K → List (Point K) → K → K → Prop
  | _, [], _, _ => True
  | a, b :: rest, low, v =>
    if low < b.y then
      a.x ≤ b.x ∧ v ≤ line a b low ∧
        if hi ≤ b.y then line a b hi = top else Rising hi top b rest b.y b.x
    else Rising hi top b rest low v

/-- The first line that reaches `low` is at `bottom` there. -/
def Begins (low bottom : K) : Point K → List (Point K) → Prop
  | _, [] => True
  | a, b :: rest => if low ≤ b.y then line a b low = bottom else Begins low bottom b rest

variable {a b : Point K} {rest : List (Point K)} {hi low top v : K}

theorem unusedArea_of_le (h : hi ≤ low) : unusedArea hi a rest low = totalArea a rest := by
  induction rest generalizing a with
  | nil => rfl
  | cons b rest ih => rw [unusedArea, if_neg fun hlow => hlow.1.not_ge h, ih, totalArea]

theorem begins_iff (h : ∃ b ∈ rest, low ≤ b.y) :
    Begins low v a rest ↔ value a rest low = v := by
  induction rest generalizing a with
  | nil => obtain ⟨b, hb, -⟩ := h; cases hb
  | cons b rest ih =>
    rw [Begins, value]
    split
    · rfl
    · next hlow =>
      obtain ⟨c, hc, hle⟩ := h
      refine ih ⟨c, (List.mem_cons.mp hc).resolve_left ?_, hle⟩
      rintro rfl
      exact hlow hle

/-- Above the first argument a line does not reach, the search goes on behind it. -/
theorem eqOn_value_skip (h : b.y ≤ low) :
    EqOn (value a (b :: rest)) (value b rest) (Ioc low hi) := fun p hp => by
  rw [value, if_neg (h.trans_lt hp.1).not_ge]

theorem eqOn_value_line (h : hi ≤ b.y) :
    EqOn (value a (b :: rest)) (line a b) (Ioc low hi) := fun p hp => by
  rw [value, if_pos (hp.2.trans h)]

omit [Field K] in
/-- What is not yet reached is reached later. -/
theorem reached_of_lt (h : ∃ c ∈ b :: rest, hi ≤ c.y) (hb : b.y < hi) : ∃ c ∈ rest, hi ≤ c.y := by
  obtain ⟨c, hc, hle⟩ := h
  refine ⟨c, (List.mem_cons.mp hc).resolve_left ?_, hle⟩
  rintro rfl
  exact hb.not_ge hle

end Order

/-! ## Where the values rise -/

section RisesFrom

variable {K : Type*} [LinearOrder K] {hi low v q : K} {f g : K → K}

/-- A function rises above `low` from `v` on. -/
def RisesFrom (v low hi : K) (f : K → K) : Prop :=
  MonotoneOn f (Ioc low hi) ∧ ∀ p ∈ Ioc low hi, v ≤ f p

theorem RisesFrom.congr (h : EqOn f g (Ioc low hi)) :
    RisesFrom v low hi f ↔ RisesFrom v low hi g := by
  refine and_congr ⟨fun hf => hf.congr h, fun hg => hg.congr h.symm⟩ ?_
  exact forall₂_congr fun p hp => by rw [h hp]

theorem risesFrom_iff_monotoneOn (hq : q ≤ hi) :
    RisesFrom (f q) q hi f ↔ MonotoneOn f (Icc q hi) := by
  constructor
  · rintro ⟨hmono, hv⟩ p hp p' hp' hle
    rcases hp.1.eq_or_lt with rfl | hlt
    · rcases hp'.1.eq_or_lt with rfl | hlt'
      · exact le_rfl
      · exact hv p' ⟨hlt', hp'.2⟩
    · exact hmono ⟨hlt, hp.2⟩ ⟨hlt.trans_le hle, hp'.2⟩ hle
  · intro hmono
    exact ⟨hmono.mono Ioc_subset_Icc_self,
      fun p hp => hmono ⟨le_rfl, hq⟩ (Ioc_subset_Icc_self hp) hp.1.le⟩

/-- A function rises on two intervals one after the other. -/
theorem risesFrom_split (hlow : low < q) (hq : q ≤ hi) :
    RisesFrom v low hi f ↔ RisesFrom v low q f ∧ RisesFrom (f q) q hi f := by
  constructor
  · rintro ⟨hmono, hv⟩
    have hfirst : Ioc low q ⊆ Ioc low hi := Ioc_subset_Ioc_right hq
    have hsecond : Ioc q hi ⊆ Ioc low hi := Ioc_subset_Ioc_left hlow.le
    exact ⟨⟨hmono.mono hfirst, fun p hp => hv p (hfirst hp)⟩, hmono.mono hsecond,
      fun p hp => hmono (hfirst ⟨hlow, le_rfl⟩) (hsecond hp) hp.1.le⟩
  · rintro ⟨⟨hmono₁, hv₁⟩, hmono₂, hv₂⟩
    have hclosed : MonotoneOn f (Icc q hi) := (risesFrom_iff_monotoneOn hq).mp ⟨hmono₂, hv₂⟩
    have hunion : Ioc low q ∪ Icc q hi = Ioc low hi := Ioc_union_Icc_eq_Ioc hlow hq
    have hqmem : q ∈ Ioc low q := ⟨hlow, le_rfl⟩
    refine ⟨hunion ▸ hmono₁.union_right hclosed ⟨hqmem, fun p hp => hp.2⟩
      ⟨⟨le_rfl, hq⟩, fun p hp => hp.1⟩, fun p hp => ?_⟩
    rcases le_or_gt p q with hle | hlt
    · exact hv₁ p ⟨hp.1, hle⟩
    · exact (hv₁ q hqmem).trans (hv₂ p ⟨hlt, hp.2⟩)

end RisesFrom

section Rising

variable {K : Type*} [Field K] [LinearOrder K] [IsStrictOrderedRing K]
variable {a b : Point K} {rest : List (Point K)} {hi low top v : K}

theorem risesFrom_line (hlow : low < hi) (hab : a.y < b.y) :
    RisesFrom v low hi (line a b) ↔ a.x ≤ b.x ∧ v ≤ line a b low := by
  have hy : 0 < b.y - a.y := sub_pos.mpr hab
  have hdiff : ∀ p q, line a b q - line a b p = (b.x - a.x) / (b.y - a.y) * (q - p) := fun p q => by
    simp only [line]
    ring
  constructor
  · rintro ⟨hmono, hv⟩
    obtain ⟨m, hm⟩ := exists_between hlow
    have hmid : line a b m ≤ line a b hi :=
      hmono ⟨hm.1, hm.2.le⟩ ⟨hlow, le_rfl⟩ hm.2.le
    have hslope : 0 ≤ (b.x - a.x) / (b.y - a.y) := by
      refine nonneg_of_mul_nonneg_left ?_ (sub_pos.mpr hm.2)
      rw [← hdiff]
      exact sub_nonneg.mpr hmid
    have hx : 0 ≤ b.x - a.x := by
      have hmul := mul_nonneg hslope hy.le
      rwa [div_mul_cancel₀ _ hy.ne'] at hmul
    refine ⟨sub_nonneg.mp hx, le_of_forall_pos_le_add fun ε hε => ?_⟩
    -- close to `low`, the line is less than `ε` higher
    obtain ⟨k, hk⟩ : ∃ k, k = (b.x - a.x) / (b.y - a.y) := ⟨_, rfl⟩
    rw [← hk] at hslope hdiff
    have hkpos : 0 < k + 1 := by linarith
    obtain ⟨p, hp, hpε⟩ : ∃ p ∈ Ioc low hi, p - low ≤ ε / (k + 1) := by
      refine ⟨min hi (low + ε / (k + 1)), ⟨?_, min_le_left _ _⟩, ?_⟩
      · exact lt_min hlow (lt_add_of_pos_right _ (div_pos hε hkpos))
      · linarith [min_le_right hi (low + ε / (k + 1))]
    have hstep := hdiff low p
    have hbound : k * (p - low) ≤ ε := by
      calc k * (p - low) ≤ (k + 1) * (p - low) := by nlinarith [hp.1]
        _ ≤ (k + 1) * (ε / (k + 1)) := mul_le_mul_of_nonneg_left hpε hkpos.le
        _ = ε := mul_div_cancel₀ _ hkpos.ne'
    linarith [hv p hp]
  · rintro ⟨hx, hv⟩
    have hslope : 0 ≤ (b.x - a.x) / (b.y - a.y) := div_nonneg (sub_nonneg.mpr hx) hy.le
    have hmono : Monotone (line a b) := fun p q hpq => by
      have hmul := mul_nonneg hslope (sub_nonneg.mpr hpq)
      rw [← hdiff] at hmul
      exact sub_nonneg.mp hmul
    exact ⟨hmono.monotoneOn _, fun p hp => hv.trans (hmono hp.1.le)⟩

/-- The values rise, up to `top` at `hi`, exactly if the lines do that are in use. -/
theorem rising_iff (hlow : low < hi) (ha : a.y ≤ low) (h : ∃ b ∈ rest, hi ≤ b.y) :
    Rising hi top a rest low v ↔ RisesFrom v low hi (value a rest) ∧ value a rest hi = top := by
  induction rest generalizing a low v with
  | nil => obtain ⟨b, hb, -⟩ := h; cases hb
  | cons b rest ih =>
    rw [Rising]
    rcases le_or_gt b.y low with hskip | hused
    · have heq : EqOn (value a (b :: rest)) (value b rest) (Ioc low hi) := eqOn_value_skip hskip
      rw [if_neg hskip.not_gt, ih hlow hskip (reached_of_lt h (hskip.trans_lt hlow)),
        RisesFrom.congr heq, heq ⟨hlow, le_rfl⟩]
    · have hab : a.y < b.y := ha.trans_lt hused
      rw [if_pos hused]
      rcases le_or_gt hi b.y with hlast | hnext
      · have heq : EqOn (value a (b :: rest)) (line a b) (Ioc low hi) := eqOn_value_line hlast
        rw [if_pos hlast, RisesFrom.congr heq, heq ⟨hlow, le_rfl⟩, risesFrom_line hlow hab,
          and_assoc]
      · have heq₁ : EqOn (value a (b :: rest)) (line a b) (Ioc low b.y) := eqOn_value_line le_rfl
        have heq₂ : EqOn (value a (b :: rest)) (value b rest) (Ioc b.y hi) :=
          eqOn_value_skip le_rfl
        have hend : value a (b :: rest) b.y = b.x := by
          rw [heq₁ ⟨hused, le_rfl⟩, line_right hab.ne]
        rw [if_neg hnext.not_ge, ih hnext le_rfl (reached_of_lt h hnext),
          risesFrom_split hused hnext.le, hend, RisesFrom.congr heq₁, RisesFrom.congr heq₂,
          heq₂ ⟨hnext, le_rfl⟩, risesFrom_line hused hab]
        simp only [and_assoc]

/-- The values rise from `bottom` to `top`. -/
theorem begins_rising_iff {bottom : K} (hlow : low < hi) (ha : a.y ≤ low)
    (h : ∃ b ∈ rest, hi ≤ b.y) :
    Begins low bottom a rest ∧ Rising hi top a rest low bottom ↔
      MonotoneOn (value a rest) (Icc low hi) ∧ value a rest low = bottom ∧
        value a rest hi = top := by
  have hlow' : ∃ b ∈ rest, low ≤ b.y := by
    obtain ⟨b, hb, hle⟩ := h
    exact ⟨b, hb, hlow.le.trans hle⟩
  rw [begins_iff hlow', rising_iff hlow ha h, ← risesFrom_iff_monotoneOn hlow.le]
  constructor
  · rintro ⟨rfl, hrises, htop⟩
    exact ⟨hrises, rfl, htop⟩
  · rintro ⟨hrises, rfl, htop⟩
    exact ⟨rfl, hrises, htop⟩

end Rising

/-! ## Points in order -/

section Sorted

variable {K : Type*} [LinearOrder K] {a b : Point K} {rest : List (Point K)}

/-- No point is below the one before, and above it or to the right of it. -/
def Sorted (ps : List (Point K)) : Prop :=
  ps.IsChain fun a b => a.y ≤ b.y ∧ (a.y < b.y ∨ a.x < b.x)

theorem sorted_cons_cons :
    Sorted (a :: b :: rest) ↔ (a.y ≤ b.y ∧ (a.y < b.y ∨ a.x < b.x)) ∧ Sorted (b :: rest) :=
  List.isChain_cons_cons

theorem Sorted.y_le_last (h : Sorted (a :: rest)) : a.y ≤ (rest.getLastD a).y := by
  induction rest generalizing a with
  | nil => exact le_rfl
  | cons b rest ih =>
    obtain ⟨⟨hle, -⟩, hrest⟩ := sorted_cons_cons.mp h
    rw [List.getLastD_cons]
    exact hle.trans (ih hrest)

/-- Points at one height go to the right. -/
theorem Sorted.x_lt_last (h : Sorted (a :: b :: rest)) (hy : a.y = (rest.getLastD b).y) :
    a.x < (rest.getLastD b).x := by
  induction rest generalizing a b with
  | nil =>
    obtain ⟨⟨-, hlt | hlt⟩, -⟩ := sorted_cons_cons.mp h
    · exact absurd hy hlt.ne
    · exact hlt
  | cons c rest ih =>
    obtain ⟨⟨hle, hlt⟩, hrest⟩ := sorted_cons_cons.mp h
    rw [List.getLastD_cons] at hy ⊢
    have hend := (sorted_cons_cons.mp hrest).1.1.trans (sorted_cons_cons.mp hrest).2.y_le_last
    have hab : a.y = b.y := le_antisymm hle (hy ▸ hend)
    exact (hlt.resolve_left hab.not_lt).trans (ih hrest (hab.symm.trans hy))

variable [Field K] {hi v : K}

/-- Everything of the lines between points in order is used. -/
theorem Sorted.unusedArea_eq_zero (h : Sorted (a :: rest)) (hlast : (rest.getLastD a).y = hi) :
    unusedArea hi a rest a.y = 0 := by
  induction rest generalizing a with
  | nil => rfl
  | cons b rest ih =>
    obtain ⟨⟨hle, -⟩, hrest⟩ := sorted_cons_cons.mp h
    rw [List.getLastD_cons] at hlast
    have hb : b.y ≤ hi := hlast ▸ hrest.y_le_last
    rw [unusedArea]
    split
    · rw [areaBetween_self, min_eq_right hb, areaBetween_self, ih hrest hlast, add_zero, add_zero]
    · next hnot =>
      have hab : a.y = b.y := by
        rcases hle.eq_or_lt with heq | hlt
        · exact heq
        · exact absurd ⟨hlt.trans_le hb, hlt⟩ hnot
      rw [hab, ih hrest hlast, area, hab, sub_self, mul_zero, add_zero]

/-- The lines between points in order rise up to the last point exactly if the points go to the
right, and no other point is as high as the last. -/
theorem Sorted.rising_iff (h : Sorted (a :: rest)) (hlast : (rest.getLastD a).y = hi)
    (ha : a.y < hi) (hv : v ≤ a.x) :
    Rising hi (rest.getLastD a).x a rest a.y v ↔
      (a :: rest).IsChain (fun a b => a.x ≤ b.x) ∧ ∀ c ∈ (a :: rest).dropLast, c.y ≠ hi := by
  induction rest generalizing a v with
  | nil => exact absurd hlast ha.ne
  | cons b rest ih =>
    obtain ⟨⟨hle, hlt⟩, hrest⟩ := sorted_cons_cons.mp h
    rw [List.getLastD_cons] at hlast ⊢
    rw [Rising, List.isChain_cons_cons, List.dropLast_cons_cons, List.forall_mem_cons,
      line_left]
    rcases hle.eq_or_lt with heq | hup
    · -- a step to the right, which the search leaves out
      have hx : a.x < b.x := hlt.resolve_left heq.not_lt
      have hb : b.y < hi := heq ▸ ha
      rw [if_neg heq.not_lt, heq, ih hrest hlast hb (hv.trans hx.le), and_iff_right hx.le,
        and_iff_right hb.ne]
    · rw [if_pos hup, and_iff_right hv, and_iff_right ha.ne, and_assoc]
      refine and_congr_right fun _ => ?_
      rcases le_or_gt hi b.y with htop | hnext
      · have hb : b.y = hi := le_antisymm (hlast ▸ hrest.y_le_last) htop
        rw [if_pos htop, ← hb, line_right hup.ne]
        cases rest with
        | nil => simp
        | cons c rest =>
          rw [List.getLastD_cons] at hlast ⊢
          have hx := hrest.x_lt_last (hb.trans hlast.symm)
          refine iff_of_false hx.ne fun hall => ?_
          rw [List.dropLast_cons_cons] at hall
          exact hall.2 b List.mem_cons_self rfl
      · rw [if_neg hnext.not_ge, ih hrest hlast hnext le_rfl]

end Sorted

/-! ## The integral -/

section Integral

variable {a b : Point ℝ} {rest : List (Point ℝ)} {hi low : ℝ}

theorem continuous_line (a b : Point ℝ) : Continuous (line a b) := by
  unfold line
  fun_prop

theorem integral_line (a b : Point ℝ) (p q : ℝ) :
    ∫ t in p..q, line a b t = areaBetween a b p q := by
  have hlinear : ∀ t, line a b t =
      (a.x - (b.x - a.x) / (b.y - a.y) * a.y) + (b.x - a.x) / (b.y - a.y) * t := fun t => by
    rw [line]
    ring
  simp only [areaBetween, hlinear]
  rw [intervalIntegral.integral_add (by simp) (Continuous.intervalIntegrable (by fun_prop) _ _),
    intervalIntegral.integral_const, intervalIntegral.integral_const_mul, integral_id, smul_eq_mul]
  ring

/-- The integral has the area of the lines in use. -/
theorem integral_value (hlow : low < hi) (ha : a.y ≤ low) (h : ∃ b ∈ rest, hi ≤ b.y) :
    IntervalIntegrable (value a rest) MeasureTheory.volume low hi ∧
      ∫ t in low..hi, value a rest t = totalArea a rest - unusedArea hi a rest low := by
  induction rest generalizing a low with
  | nil => obtain ⟨b, hb, -⟩ := h; cases hb
  | cons b rest ih =>
    have hoc : uIoc low hi = Ioc low hi := uIoc_of_le hlow.le
    rcases le_or_gt b.y low with hskip | hused
    · -- the line lies below
      obtain ⟨hint, hval⟩ := ih hlow hskip (reached_of_lt h (hskip.trans_lt hlow))
      have heq : EqOn (value a (b :: rest)) (value b rest) (uIoc low hi) :=
        hoc ▸ eqOn_value_skip hskip
      refine ⟨(intervalIntegrable_congr heq).mpr hint, ?_⟩
      rw [intervalIntegral.integral_congr_ae (.of_forall heq), hval, totalArea, unusedArea,
        if_neg fun hlt => hlt.2.not_ge hskip]
      ring
    · have hne : a.y ≠ b.y := (ha.trans_lt hused).ne
      have hline : ∀ p q, IntervalIntegrable (line a b) MeasureTheory.volume p q :=
        fun p q => (continuous_line a b).intervalIntegrable p q
      rw [totalArea, unusedArea, if_pos ⟨hlow, hused⟩, ← areaBetween_ends hne,
        ← areaBetween_add a b a.y low b.y]
      rcases le_or_gt hi b.y with hlast | hnext
      · -- the line reaches the end
        have heq : EqOn (value a (b :: rest)) (line a b) (uIoc low hi) :=
          hoc ▸ eqOn_value_line hlast
        refine ⟨(intervalIntegrable_congr heq).mpr (hline _ _), ?_⟩
        rw [intervalIntegral.integral_congr_ae (.of_forall heq), integral_line, min_eq_left hlast,
          unusedArea_of_le hlast, ← areaBetween_add a b low hi b.y]
        ring
      · obtain ⟨hint, hval⟩ := ih hnext le_rfl (reached_of_lt h hnext)
        have hoc₁ : uIoc low b.y = Ioc low b.y := uIoc_of_le hused.le
        have hoc₂ : uIoc b.y hi = Ioc b.y hi := uIoc_of_le hnext.le
        have heq₁ : EqOn (value a (b :: rest)) (line a b) (uIoc low b.y) :=
          hoc₁ ▸ eqOn_value_line le_rfl
        have heq₂ : EqOn (value a (b :: rest)) (value b rest) (uIoc b.y hi) :=
          hoc₂ ▸ eqOn_value_skip le_rfl
        have hint₁ := (intervalIntegrable_congr heq₁).mpr (hline low b.y)
        have hint₂ := (intervalIntegrable_congr heq₂).mpr hint
        refine ⟨hint₁.trans hint₂, ?_⟩
        rw [← intervalIntegral.integral_add_adjacent_intervals hint₁ hint₂,
          intervalIntegral.integral_congr_ae (.of_forall heq₁),
          intervalIntegral.integral_congr_ae (.of_forall heq₂), integral_line, hval,
          min_eq_right hnext.le, areaBetween_self]
        ring

end Integral

end Polyline
