import Mathlib.Tactic.Linarith
import Mathlib.Tactic.Positivity
import Paraleon.Library.Runs
import Paraleon.Rdma.Dcqcn

/-!
# The rates of DCQCN

With the parameters in their ranges, the rate and the target rate of a queue pair stay
between the least minimum rate that was in force and the line rate, and alpha stays in
its interval, whatever the order of CNPs, timers and parameter changes.

The two halves of a rate are cut to whole bit/s separately, which does not eat into the
floor because minimum rates are whole Mb/s, and so even.
-/

namespace Paraleon.Rdma.Dcqcn

open Runs

/-! ## Stored rates -/

section DataRate

variable {x : ℚ} {n : Nat}

theorem dataRate_of_nonneg (h : 0 ≤ x) : dataRate x = ⌊x⌋.toNat := if_neg (not_lt.mpr h)

theorem dataRate_le (h : 0 ≤ x) (hx : x ≤ n) : dataRate x ≤ n := by
  rw [dataRate_of_nonneg h]
  refine Int.toNat_le.mpr ?_
  have hfloor : (⌊x⌋ : ℚ) ≤ n := le_trans (Int.floor_le x) hx
  exact_mod_cast hfloor

theorem le_dataRate (hx : (n : ℚ) ≤ x) : n ≤ dataRate x := by
  have h : 0 ≤ x := le_trans (Nat.cast_nonneg n) hx
  rw [dataRate_of_nonneg h]
  have hfloor : (n : ℤ) ≤ ⌊x⌋ := Int.le_floor.mpr (by exact_mod_cast hx)
  omega

end DataRate

/-! ## The bounds -/

/-- Parameters that are defaults or in their ranges. -/
structure ParamsOk (p : Params) : Prop where
  minRate_even : 2 ∣ p.minRate
  minRate_le : p.minRate ≤ 5000 * 10 ^ 6
  first_ge : 3 / 10 ≤ p.rateOnFirstCnp
  first_le : p.rateOnFirstCnp ≤ 1
  dec_nonneg : 0 ≤ p.minDecFac
  dec_le : p.minDecFac ≤ 1
  gd_ge : 10 ≤ p.rpgGd
  dceTcpG_le : p.dceTcpG ≤ 2 ^ 10
  alpha_nonneg : 0 ≤ p.initialAlphaValue
  alpha_le : p.initialAlphaValue ≤ 2 ^ 10

/-- A scheme of DCQCN on a NIC of at least 25 Gb/s. -/
structure ConfigOk (c : Config) : Prop where
  mlx : c.scheme = .dcqcn ∨ c.scheme = .dcqcnPlus
  line : 25 * 10 ^ 9 ≤ c.lineRate
  g_nonneg : 0 ≤ c.g
  g_le : c.g ≤ 1

/-- The interval of alpha: `[0, 1024]` in DCQCN, `[0, 1]` in DCQCN+. -/
def alphaMax (c : Config) : ℚ := if c.scheme = .dcqcnPlus then 1 else 2 ^ 10

/-- The rates lie between `m` and the line rate. Before the first CNP of DCQCN, they
are the line rate, but for a bit lost in halving it. -/
structure Bounded (c : Config) (m : Nat) (s : Sender) : Prop where
  params : ParamsOk s.params
  min_even : 2 ∣ m
  min_le : m ≤ 100 * 10 ^ 6
  min_force : m ≤ s.params.minRate
  rate_ge : m ≤ s.rate
  rate_le : s.rate ≤ c.lineRate
  target_ge : m ≤ s.mlx.targetRate
  target_le : s.mlx.targetRate ≤ c.lineRate
  alpha_nonneg : 0 ≤ s.mlx.alpha
  alpha_le : s.mlx.alpha ≤ alphaMax c
  unmarked : c.scheme = .dcqcn → s.mlx.firstCnp = true →
    s.mlx.decreaseCnpArrived = false ∧ s.mlx.targetRate = c.lineRate ∧ c.lineRate ≤ s.rate + 1

section Steps

variable {c : Config} {m : Nat} {s t : Sender}

/-- What the bounds are about is the same in `t` as in `s`. -/
structure SameRates (s t : Sender) : Prop where
  params : t.params = s.params
  rate : t.rate = s.rate
  target : t.mlx.targetRate = s.mlx.targetRate
  alpha : t.mlx.alpha = s.mlx.alpha
  first : t.mlx.firstCnp = true → s.mlx.firstCnp = true
  decrease : t.mlx.firstCnp = true → s.mlx.decreaseCnpArrived = false →
    t.mlx.decreaseCnpArrived = false

theorem Bounded.congr (h : Bounded c m s) (hsame : SameRates s t) : Bounded c m t where
  params := hsame.params ▸ h.params
  min_even := h.min_even
  min_le := h.min_le
  min_force := hsame.params ▸ h.min_force
  rate_ge := hsame.rate ▸ h.rate_ge
  rate_le := hsame.rate ▸ h.rate_le
  target_ge := hsame.target ▸ h.target_ge
  target_le := hsame.target ▸ h.target_le
  alpha_nonneg := hsame.alpha ▸ h.alpha_nonneg
  alpha_le := hsame.alpha ▸ h.alpha_le
  unmarked hscheme hfirst := by
    obtain ⟨hdecrease, hrates⟩ := h.unmarked hscheme (hsame.first hfirst)
    rw [hsame.target, hsame.rate]
    exact ⟨hsame.decrease hfirst hdecrease, hrates⟩

theorem Bounded.lineRate_ge (h : Bounded c m s) (hc : ConfigOk c) :
    m ≤ c.lineRate ∧ s.params.minRate ≤ c.lineRate ∧ 1 ≤ c.lineRate := by
  have hline := hc.line
  have hmin := h.min_le
  have hforce := h.params.minRate_le
  exact ⟨by omega, by omega, by omega⟩

/-- Halving both rates keeps an even floor, and the line rate but for one bit. -/
theorem halfWay_bounds (h : Bounded c m s) :
    m ≤ s.halfWay ∧ s.halfWay ≤ c.lineRate ∧
      (s.mlx.targetRate = c.lineRate → c.lineRate ≤ s.rate + 1 → c.lineRate ≤ s.halfWay + 1) := by
  obtain ⟨k, hk⟩ := h.min_even
  have h₁ := h.rate_ge
  have h₂ := h.rate_le
  have h₃ := h.target_ge
  have h₄ := h.target_le
  unfold Sender.halfWay
  refine ⟨by omega, by omega, fun htarget hrate => by omega⟩

/-- A new rate, within the bounds. -/
theorem Bounded.set_rate (h : Bounded c m s) {r : Nat} (hge : m ≤ r) (hle : r ≤ c.lineRate)
    (hfirst : c.scheme = .dcqcn → s.mlx.firstCnp = true → c.lineRate ≤ r + 1) :
    Bounded c m (s.setRate r) where
  params := h.params
  min_even := h.min_even
  min_le := h.min_le
  min_force := h.min_force
  rate_ge := hge
  rate_le := hle
  target_ge := h.target_ge
  target_le := h.target_le
  alpha_nonneg := h.alpha_nonneg
  alpha_le := h.alpha_le
  unmarked hscheme hcnp :=
    ⟨(h.unmarked hscheme hcnp).1, (h.unmarked hscheme hcnp).2.1, hfirst hscheme hcnp⟩

/-- A new target rate, within the bounds. -/
theorem Bounded.set_target (h : Bounded c m s) {r : Nat} (hge : m ≤ r) (hle : r ≤ c.lineRate)
    (hfirst : c.scheme = .dcqcn → s.mlx.firstCnp = true → r = c.lineRate) :
    Bounded c m (s.setTargetRate r) where
  params := h.params
  min_even := h.min_even
  min_le := h.min_le
  min_force := h.min_force
  rate_ge := h.rate_ge
  rate_le := h.rate_le
  target_ge := hge
  target_le := hle
  alpha_nonneg := h.alpha_nonneg
  alpha_le := h.alpha_le
  unmarked hscheme hcnp :=
    ⟨(h.unmarked hscheme hcnp).1, hfirst hscheme hcnp, (h.unmarked hscheme hcnp).2.2⟩

/-- A new alpha, within the bounds. -/
theorem Bounded.set_alpha (h : Bounded c m s) {a : ℚ} (hge : 0 ≤ a) (hle : a ≤ alphaMax c) :
    Bounded c m { s with mlx := { s.mlx with alpha := a } } where
  params := h.params
  min_even := h.min_even
  min_le := h.min_le
  min_force := h.min_force
  rate_ge := h.rate_ge
  rate_le := h.rate_le
  target_ge := h.target_ge
  target_le := h.target_le
  alpha_nonneg := hge
  alpha_le := hle
  unmarked := h.unmarked

/-- The rate moves half way to the target. -/
theorem Bounded.halve (h : Bounded c m s) : Bounded c m (s.setRate s.halfWay) := by
  obtain ⟨hge, hle, hfirst⟩ := halfWay_bounds h
  refine h.set_rate hge hle fun hscheme hcnp => ?_
  obtain ⟨-, htarget, hrate⟩ := h.unmarked hscheme hcnp
  exact hfirst htarget hrate

theorem changeRate_same (s : Sender) (r : Nat) : SameRates (s.setRate r) (s.changeRate r) :=
  ⟨rfl, rfl, rfl, rfl, id, fun _ => id⟩

theorem increasedTarget_bounds (h : Bounded c m s) (hc : ConfigOk c) (step : ℚ)
    (hstep : 0 ≤ step) :
    m ≤ Sender.increasedTarget c step s ∧ Sender.increasedTarget c step s ≤ c.lineRate := by
  have htarget : (m : ℚ) ≤ s.mlx.targetRate := by exact_mod_cast h.target_ge
  have hline : (m : ℚ) ≤ c.lineRate := by exact_mod_cast (h.lineRate_ge hc).1
  have hone : (1 : ℚ) ≤ c.lineRate := by exact_mod_cast (h.lineRate_ge hc).2.2
  unfold Sender.increasedTarget
  constructor
  · refine le_dataRate (le_trans ?_ (le_max_right _ _))
    exact le_min hline (by linarith)
  · exact dataRate_le (le_trans zero_le_one (le_max_left _ _)) (max_le hone (min_le_left _ _))

/-- Every rate increase keeps the bounds. -/
theorem rateIncEventMlx_bounded (h : Bounded c m s) (hc : ConfigOk c) :
    Bounded c m (Sender.rateIncEventMlx c s) := by
  -- DCQCN+ sets a target that is clamped, DCQCN adds to it and cuts at the line rate
  have hplus {r : Nat} (hge : m ≤ r) (hle : r ≤ c.lineRate) (hscheme : c.scheme = .dcqcnPlus) :
      Bounded c m ((s.setTargetRate r).changeRate (s.setTargetRate r).halfWay) := by
    refine Bounded.congr (Bounded.halve (h.set_target hge hle ?_)) (changeRate_same _ _)
    intro hdcqcn
    rw [hscheme] at hdcqcn
    cases hdcqcn
  have hdcqcn (inc : Nat) : Bounded c m
      ((s.setTargetRate (min (s.mlx.targetRate + inc) c.lineRate)).setRate
        (s.setTargetRate (min (s.mlx.targetRate + inc) c.lineRate)).halfWay) := by
    refine Bounded.halve (h.set_target ?_ (Nat.min_le_right _ _) ?_)
    · exact Nat.le_min.mpr ⟨Nat.le_trans h.target_ge (Nat.le_add_right _ _), (h.lineRate_ge hc).1⟩
    · intro hscheme hcnp
      rw [(h.unmarked hscheme hcnp).2.1]
      exact Nat.min_eq_right (Nat.le_add_right _ _)
  unfold Sender.rateIncEventMlx Sender.activeIncreaseMlx Sender.hyperIncreaseMlx
  have hrate : (0 : ℚ) ≤ s.rate := Nat.cast_nonneg _
  have hline : (0 : ℚ) ≤ c.lineRate := Nat.cast_nonneg _
  split
  · exact h.halve
  split
  · split
    · next hscheme =>
      dsimp only
      obtain ⟨hge, hle⟩ := increasedTarget_bounds h hc
        (if 1 / 10 < s.mlx.alpha then min (s.rate / 5) (c.lineRate / 50)
          else min (s.rate / 10) (c.lineRate / 100))
        (by split <;> exact le_min (by positivity) (by positivity))
      exact hplus hge hle hscheme
    · exact hdcqcn _
  · split
    · next hscheme =>
      dsimp only
      obtain ⟨hge, hle⟩ := increasedTarget_bounds h hc
        (min s.rate (s.stepScale c * c.lineRate / 100)) (le_min hrate (by positivity))
      exact hplus hge hle hscheme
    · exact hdcqcn _

theorem Bounded.schedule (h : Bounded c m s) (k : Kind) (delay : Int) :
    Bounded c m (s.schedule k delay) :=
  h.congr ⟨rfl, rfl, rfl, rfl, id, fun _ => id⟩

/-- After the first CNP the bounds are all there is. -/
theorem Bounded.marked (h : Bounded c m s) (hparams : t.params = s.params)
    (hrate : m ≤ t.rate ∧ t.rate ≤ c.lineRate)
    (htarget : m ≤ t.mlx.targetRate ∧ t.mlx.targetRate ≤ c.lineRate)
    (halpha : 0 ≤ t.mlx.alpha ∧ t.mlx.alpha ≤ alphaMax c) (hfirst : t.mlx.firstCnp = false) :
    Bounded c m t where
  params := hparams ▸ h.params
  min_even := h.min_even
  min_le := h.min_le
  min_force := hparams ▸ h.min_force
  rate_ge := hrate.1
  rate_le := hrate.2
  target_ge := htarget.1
  target_le := htarget.2
  alpha_nonneg := halpha.1
  alpha_le := halpha.2
  unmarked _ hcnp := by
    rw [hfirst] at hcnp
    cases hcnp

theorem scheduleUpdateAlphaMlx_same : SameRates s (Sender.scheduleUpdateAlphaMlx c s) := by
  unfold Sender.scheduleUpdateAlphaMlx
  split <;> exact ⟨rfl, rfl, rfl, rfl, id, fun _ => id⟩

/-- Alpha is an average of itself and one end of its interval. -/
theorem updateAlphaMlx_bounded (h : Bounded c m s) (hc : ConfigOk c) :
    Bounded c m (Sender.updateAlphaMlx c s) := by
  have hg : 0 ≤ 1 - c.g := by linarith [hc.g_le]
  unfold Sender.updateAlphaMlx
  split
  · next hscheme =>
    -- with DCQCN+ the other end is 0
    have hmax : alphaMax c = 1 := if_pos hscheme
    have halpha : s.mlx.alpha ≤ 1 := hmax ▸ h.alpha_le
    refine Bounded.congr (h.set_alpha (le_max_left _ _) ?_) scheduleUpdateAlphaMlx_same
    rw [hmax]
    refine max_le zero_le_one ?_
    calc (1 - c.g) * s.mlx.alpha ≤ (1 - c.g) * 1 := mul_le_mul_of_nonneg_left halpha hg
      _ ≤ 1 := by linarith [hc.g_nonneg]
  · next hscheme =>
    -- in units of 1/1024, with 0 or 1024 as the other end
    have hmax : alphaMax c = 2 ^ 10 := if_neg hscheme
    have halpha : s.mlx.alpha ≤ 2 ^ 10 := hmax ▸ h.alpha_le
    have hdce : (s.params.dceTcpG : ℚ) ≤ 2 ^ 10 := by exact_mod_cast h.params.dceTcpG_le
    have hdce₀ : (0 : ℚ) ≤ s.params.dceTcpG := Nat.cast_nonneg _
    have hdecay₀ : 0 ≤ s.params.dceTcpG / 2 ^ 10 * s.mlx.alpha :=
      mul_nonneg (by positivity) h.alpha_nonneg
    have hdecay : s.params.dceTcpG / 2 ^ 10 * s.mlx.alpha ≤ s.params.dceTcpG := by
      calc s.params.dceTcpG / 2 ^ 10 * s.mlx.alpha ≤ s.params.dceTcpG / 2 ^ 10 * 2 ^ 10 :=
            mul_le_mul_of_nonneg_left halpha (by positivity)
        _ = s.params.dceTcpG := by ring
    dsimp only
    refine Bounded.congr ?_ scheduleUpdateAlphaMlx_same
    refine Bounded.congr (h.set_alpha (a := if s.mlx.alphaCnpArrived then
        s.params.dceTcpG / 2 ^ 10 * s.mlx.alpha + 2 ^ 10 - s.params.dceTcpG
      else s.params.dceTcpG / 2 ^ 10 * s.mlx.alpha) ?_ ?_) ⟨rfl, rfl, rfl, rfl, id, fun _ => id⟩
    · split
      · linarith
      · exact hdecay₀
    · rw [hmax]
      split
      · linarith
      · linarith

/-- A decrease factor in `[0, 1]` leads to a rate that is no greater. -/
theorem dataRate_mul_le (h : Bounded c m s) {f : ℚ} (hge : 0 ≤ f) (hle : f ≤ 1) :
    dataRate (s.rate * f) ≤ c.lineRate := by
  have hrate : (0 : ℚ) ≤ s.rate := Nat.cast_nonneg _
  have hline : (s.rate : ℚ) ≤ c.lineRate := by exact_mod_cast h.rate_le
  refine dataRate_le (mul_nonneg hrate hge) ?_
  calc (s.rate : ℚ) * f ≤ s.rate * 1 := mul_le_mul_of_nonneg_left hle hrate
    _ = s.rate := mul_one _
    _ ≤ c.lineRate := hline

/-- Alpha never exceeds `2 ^ rpg_gd`, so that the factor of the decrease stays in `[0, 1]`. -/
theorem decreaseFactor_bounds (h : Bounded c m s) :
    0 ≤ 1 - s.mlx.alpha / 2 ^ s.params.rpgGd ∧ 1 - s.mlx.alpha / 2 ^ s.params.rpgGd ≤ 1 := by
  have hmax : alphaMax c ≤ 2 ^ 10 := by
    unfold alphaMax
    split <;> norm_num
  have hpow : (2 : ℚ) ^ 10 ≤ 2 ^ s.params.rpgGd := pow_le_pow_right₀ (by norm_num) h.params.gd_ge
  have hpos : (0 : ℚ) < 2 ^ s.params.rpgGd := by positivity
  have hle : s.mlx.alpha / 2 ^ s.params.rpgGd ≤ 1 :=
    (div_le_one hpos).mpr (le_trans h.alpha_le (le_trans hmax hpow))
  have hge : 0 ≤ s.mlx.alpha / 2 ^ s.params.rpgGd := div_nonneg h.alpha_nonneg (le_of_lt hpos)
  exact ⟨by linarith, by linarith⟩

theorem checkRateDecreaseMlx_bounded (h : Bounded c m s) (hc : ConfigOk c) :
    Bounded c m (Sender.checkRateDecreaseMlx c s) := by
  unfold Sender.checkRateDecreaseMlx Sender.scheduleDecreaseRateMlx
  dsimp only
  split
  · next harrived =>
    -- a rate decrease before the first CNP of DCQCN has no CNP to react to
    have hlater : c.scheme = .dcqcn → s.mlx.firstCnp = true → False := by
      intro hscheme hcnp
      have hnone : s.mlx.decreaseCnpArrived = false := (h.unmarked hscheme hcnp).1
      exact absurd harrived (by simp [Sender.schedule, hnone])
    generalize hr : max s.params.minRate (max (dataRate (s.params.minDecFac * s.rate))
      (dataRate (s.rate * (1 - s.mlx.alpha / 2 ^ s.params.rpgGd)))) = r
    generalize htgt : (if (c.ecnClampTgtRate || s.mlx.rpTimeStage != 0) = true then s.rate
      else s.mlx.targetRate) = tgt
    have hge : m ≤ r := hr ▸ Nat.le_trans h.min_force (Nat.le_max_left _ _)
    have hle : r ≤ c.lineRate := by
      obtain ⟨hfac₀, hfac₁⟩ := decreaseFactor_bounds h
      rw [← hr, mul_comm s.params.minDecFac]
      exact Nat.max_le.mpr ⟨(h.lineRate_ge hc).2.1, Nat.max_le.mpr
        ⟨dataRate_mul_le h h.params.dec_nonneg h.params.dec_le, dataRate_mul_le h hfac₀ hfac₁⟩⟩
    have htgt' : m ≤ tgt ∧ tgt ≤ c.lineRate := by
      rw [← htgt]
      split
      · exact ⟨h.rate_ge, h.rate_le⟩
      · exact ⟨h.target_ge, h.target_le⟩
    have hnew : Bounded c m ((s.setTargetRate tgt).setRate r) :=
      (h.set_target htgt'.1 htgt'.2 fun hscheme hcnp => (hlater hscheme hcnp).elim).set_rate hge hle
        fun hscheme hcnp => (hlater hscheme hcnp).elim
    exact hnew.congr ⟨rfl, hr, htgt, rfl, id, fun _ _ => rfl⟩
  · exact h.congr ⟨rfl, rfl, rfl, rfl, id, fun _ => id⟩

/-- A CNP of DCQCN+: alpha moves towards one, and the rate falls by half of it. -/
theorem cnpReceivedPlus_bounded {tau : Nat} (h : Bounded c m s) (hc : ConfigOk c)
    (hscheme : c.scheme = .dcqcnPlus) : Bounded c m (Sender.cnpReceivedPlus c tau s) := by
  have hmax : alphaMax c = 1 := if_pos hscheme
  generalize hα : min 1 ((1 - c.g) * (if s.mlx.firstCnp = true then s.params.initialAlphaValue
    else s.mlx.alpha) + c.g) = α
  have hα₀ : 0 ≤ α := by
    have hold : 0 ≤ if s.mlx.firstCnp = true then s.params.initialAlphaValue else s.mlx.alpha := by
      split
      · exact h.params.alpha_nonneg
      · exact h.alpha_nonneg
    rw [← hα]
    exact le_min zero_le_one
      (add_nonneg (mul_nonneg (by linarith [hc.g_le]) hold) hc.g_nonneg)
  have hα₁ : α ≤ 1 := hα ▸ min_le_left _ _
  generalize hr : dataRate (max 1 (max (s.params.minRate : ℚ) ((s.rate : ℚ) * (1 - α / 2)))) = r
  -- the minimum rate is forced from below, and a factor of at most one from above
  have hge : m ≤ r := by
    have hforce : (m : ℚ) ≤ s.params.minRate := by exact_mod_cast h.min_force
    exact hr ▸ le_dataRate (le_trans hforce (le_trans (le_max_left _ _) (le_max_right _ _)))
  have hle : r ≤ c.lineRate := by
    obtain ⟨-, hmin, hone⟩ := h.lineRate_ge hc
    have hrate : (s.rate : ℚ) ≤ c.lineRate := by exact_mod_cast h.rate_le
    have hrate₀ : (0 : ℚ) ≤ s.rate := Nat.cast_nonneg _
    rw [← hr]
    refine dataRate_le (le_trans zero_le_one (le_max_left _ _)) (max_le ?_ (max_le ?_ ?_))
    · exact_mod_cast hone
    · exact_mod_cast hmin
    · calc (s.rate : ℚ) * (1 - α / 2) ≤ s.rate * 1 :=
            mul_le_mul_of_nonneg_left (by linarith) hrate₀
        _ ≤ c.lineRate := by linarith
  unfold Sender.cnpReceivedPlus
  dsimp only
  refine Bounded.schedule (Bounded.congr ?_ scheduleUpdateAlphaMlx_same) _ _
  rw [hα]
  exact h.marked rfl (by subst hr; exact ⟨hge, hle⟩) ⟨h.rate_ge, h.rate_le⟩
    ⟨hα₀, hmax ▸ hα₁⟩ rfl

/-- A CNP of DCQCN: the first one sets both rates to a fraction of the rate, which is
still the line rate but for one bit. -/
theorem cnpReceivedDcqcn_bounded (h : Bounded c m s) (hc : ConfigOk c)
    (hscheme : c.scheme = .dcqcn) : Bounded c m (Sender.cnpReceivedDcqcn c s) := by
  have hmax : alphaMax c = 2 ^ 10 := by simp [alphaMax, hscheme]
  unfold Sender.cnpReceivedDcqcn
  dsimp only
  split
  · next hfirst =>
    obtain ⟨-, -, hline⟩ := h.unmarked hscheme hfirst
    generalize hr : dataRate (s.params.rateOnFirstCnp * s.rate) = r
    have hge : m ≤ r := by
      -- 0.3 of 25 Gbit/s is far above the largest minimum rate
      have hfrac : (3 / 10 : ℚ) ≤ s.params.rateOnFirstCnp := h.params.first_ge
      have hrate : (100 * 10 ^ 6 : ℚ) * 10 / 3 ≤ s.rate := by
        have : (25 * 10 ^ 9 : ℚ) ≤ s.rate + 1 := by exact_mod_cast le_trans hc.line hline
        linarith
      have hmin : (m : ℚ) ≤ 100 * 10 ^ 6 := by exact_mod_cast h.min_le
      rw [← hr]
      refine le_dataRate (le_trans hmin ?_)
      calc (100 * 10 ^ 6 : ℚ) = 3 / 10 * (100 * 10 ^ 6 * 10 / 3) := by norm_num
        _ ≤ s.params.rateOnFirstCnp * s.rate :=
          mul_le_mul hfrac hrate (by norm_num) (le_trans (by norm_num) hfrac)
    have hle : r ≤ c.lineRate := by
      rw [← hr, mul_comm]
      exact dataRate_mul_le h (le_trans (by norm_num) h.params.first_ge) h.params.first_le
    -- arming the timer changes no rate
    have hsame := scheduleUpdateAlphaMlx_same (c := c) (s := { s with mlx := { s.mlx with
      alphaCnpArrived := false, decreaseCnpArrived := true, alpha := s.params.initialAlphaValue } })
    generalize Sender.scheduleUpdateAlphaMlx c _ = u at hsame ⊢
    have hu : dataRate (u.params.rateOnFirstCnp * u.rate) = r := by
      rw [hsame.params, hsame.rate]
      exact hr
    have hbounds : m ≤ dataRate (u.params.rateOnFirstCnp * u.rate) ∧
        dataRate (u.params.rateOnFirstCnp * u.rate) ≤ c.lineRate := by
      rw [hu]
      exact ⟨hge, hle⟩
    have halpha : u.mlx.alpha = s.params.initialAlphaValue := hsame.alpha
    refine h.marked hsame.params hbounds hbounds ?_ rfl
    show 0 ≤ u.mlx.alpha ∧ u.mlx.alpha ≤ alphaMax c
    rw [halpha, hmax]
    exact ⟨h.params.alpha_nonneg, h.params.alpha_le⟩
  · next hlater =>
    exact h.congr ⟨rfl, rfl, rfl, rfl, fun hcnp => absurd hcnp hlater,
      fun hcnp => absurd hcnp hlater⟩

theorem cnpReceivedMlx_bounded {tau : Nat} (h : Bounded c m s) (hc : ConfigOk c) :
    Bounded c m (Sender.cnpReceivedMlx c tau s) := by
  unfold Sender.cnpReceivedMlx
  split
  · next hscheme => exact cnpReceivedPlus_bounded h hc hscheme
  · next hscheme => exact cnpReceivedDcqcn_bounded h hc (hc.mlx.resolve_right hscheme)

theorem fire_bounded {k : Kind} (h : Bounded c m s) (hc : ConfigOk c) :
    Bounded c m (Sender.fire c k s) := by
  cases k with
  | updateAlpha => exact updateAlphaMlx_bounded h hc
  | decreaseRate => exact checkRateDecreaseMlx_bounded h hc
  | rpTimer =>
    unfold Sender.fire Sender.rateIncEventTimerMlx
    exact (rateIncEventMlx_bounded (h.schedule _ _) hc).congr ⟨rfl, rfl, rfl, rfl, id, fun _ => id⟩

theorem receiveCnp_bounded {qfb : Nat} (h : Bounded c m s) (hc : ConfigOk c) :
    Bounded c m (Sender.receiveCnp c qfb s) := by
  have hmlx : c.mlxMode = true := by rcases hc.mlx with h | h <;> simp [Config.mlxMode, h]
  have hline := (h.lineRate_ge hc).1
  unfold Sender.receiveCnp
  split
  · exact h
  · refine cnpReceivedMlx_bounded ?_ hc
    split
    · refine (h.set_rate hline (Nat.le_refl _) ?_).set_target hline (Nat.le_refl _) fun _ _ => rfl
      exact fun _ _ => Nat.le_add_right _ _
    · exact h

theorem qpComplete_bounded (h : Bounded c m s) : Bounded c m (Sender.qpComplete c s) := by
  refine h.congr ?_
  unfold Sender.qpComplete
  split <;> exact ⟨rfl, rfl, rfl, rfl, id, fun _ => id⟩

theorem receiveAck_bounded {a : Sender.Ack} (h : Bounded c m s) (hc : ConfigOk c)
    (hstep : Sender.receiveAck c a s = some t) : Bounded c m t := by
  have hmlx : c.mlxMode = true := by rcases hc.mlx with h | h <;> simp [Config.mlxMode, h]
  refine receiveAck_keeps ?_ ?_ ?_ ?_ h hstep
  · intro s q hs hq
    exact hs.congr ⟨rfl, hq, rfl, rfl, id, fun _ => id⟩
  · intro s hs
    exact qpComplete_bounded hs
  · intro _ s tau hs
    exact cnpReceivedMlx_bounded hs hc
  · intro hmode
    rw [hmlx] at hmode
    cases hmode

/-- A parameter in its range keeps all parameters good. -/
theorem ParamsOk.change {p : Params} {x : Parameter} (h : ParamsOk p) (hx : x.InRange) :
    ParamsOk (p.change x) := by
  obtain ⟨h₁, h₂, h₃, h₄, h₅, h₆, h₇, h₈, h₉, h₁₀⟩ := h
  cases x with
  | rateToSetOnFirstCnp x =>
    exact ⟨h₁, h₂, hx.1, le_trans hx.2 (by norm_num), h₅, h₆, h₇, h₈, h₉, h₁₀⟩
  | rpgMinDecFac x =>
    exact ⟨h₁, h₂, h₃, h₄, le_trans (by norm_num) hx.1, le_trans hx.2 (by norm_num), h₇, h₈, h₉,
      h₁₀⟩
  | timeReset x => exact ⟨h₁, h₂, h₃, h₄, h₅, h₆, h₇, h₈, h₉, h₁₀⟩
  | minTimeBetweenCnps x => exact ⟨h₁, h₂, h₃, h₄, h₅, h₆, h₇, h₈, h₉, h₁₀⟩
  | aiRate n => exact ⟨h₁, h₂, h₃, h₄, h₅, h₆, h₇, h₈, h₉, h₁₀⟩
  | haiRate n => exact ⟨h₁, h₂, h₃, h₄, h₅, h₆, h₇, h₈, h₉, h₁₀⟩
  | rpgMinRate n =>
    exact ⟨Dvd.dvd.mul_left (by norm_num) n, Nat.mul_le_mul_right _ hx.2, h₃, h₄, h₅, h₆, h₇, h₈,
      h₉, h₁₀⟩
  | rpgGd n => exact ⟨h₁, h₂, h₃, h₄, h₅, h₆, le_trans (by norm_num) hx.1, h₈, h₉, h₁₀⟩
  | dceTcpG n => exact ⟨h₁, h₂, h₃, h₄, h₅, h₆, h₇, le_trans hx.2 (by norm_num), h₉, h₁₀⟩
  | initialAlphaValue n =>
    refine ⟨h₁, h₂, h₃, h₄, h₅, h₆, h₇, h₈, Nat.cast_nonneg n, ?_⟩
    have hn : (n : ℚ) ≤ 1023 := by exact_mod_cast hx.2
    exact le_trans hn (by norm_num)

theorem paramsOk_foldl {ps : List Parameter} {p : Params} (h : ParamsOk p)
    (hps : ∀ x ∈ ps, x.InRange) : ParamsOk (ps.foldl Params.change p) := by
  induction ps generalizing p with
  | nil => exact h
  | cons x ps ih =>
    exact ih (h.change (hps x List.mem_cons_self)) fun y hy => hps y (List.mem_cons_of_mem _ hy)

theorem paramsOk_default : ParamsOk Params.default := by
  refine ⟨by decide, by decide, ?_, ?_, ?_, ?_, by decide, by decide, ?_, ?_⟩ <;>
    norm_num [Params.default]

/-- The event changes parameters only to values in their ranges. -/
def Event.InRange : Event → Prop
  | .changeParameters ps => ∀ x ∈ ps, x.InRange
  | .send _ | .ack _ | .cnp _ | .timer _ => True

/-- Every step keeps the bounds, as long as `m` stays below the minimum rate in force. -/
theorem bounded_step {e : Event} (hc : ConfigOk c) (h : Bounded c m s) (he : e.InRange)
    (hstep : step c s e = some t) (hforce : m ≤ t.params.minRate) : Bounded c m t := by
  cases e with
  | send now =>
    simp only [step, Sender.send] at hstep
    split at hstep
    · cases hstep
      exact h.congr ⟨rfl, rfl, rfl, rfl, id, fun _ => id⟩
    · cases hstep
  | ack a => exact receiveAck_bounded h hc hstep
  | cnp qfb =>
    cases hstep
    exact receiveCnp_bounded h hc
  | timer id =>
    obtain ⟨timer, -, rfl⟩ := Option.map_eq_some_iff.mp hstep
    exact fire_bounded (h.congr ⟨rfl, rfl, rfl, rfl, fun h => h, fun _ h => h⟩) hc
  | changeParameters ps =>
    cases hstep
    exact ⟨paramsOk_foldl h.params he, h.min_even, h.min_le, hforce, h.rate_ge, h.rate_le,
      h.target_ge, h.target_le, h.alpha_nonneg, h.alpha_le, h.unmarked⟩

end Steps

/-! ## Runs -/

section Runs

variable {c : Config} {s t : Sender} {es : List Event}

/-- The least minimum rate that was in force in a run. -/
def leastMinRate (c : Config) : Sender → List Event → Nat
  | s, [] => s.params.minRate
  | s, e :: es =>
    min s.params.minRate ((step c s e).elim s.params.minRate fun t => leastMinRate c t es)

theorem leastMinRate_le (c : Config) (s : Sender) (es : List Event) :
    leastMinRate c s es ≤ s.params.minRate := by
  cases es with
  | nil => exact Nat.le_refl _
  | cons e es => exact Nat.min_le_left _ _

theorem leastMinRate_cons {e : Event} (hstep : step c s e = some t) :
    leastMinRate c s (e :: es) = min s.params.minRate (leastMinRate c t es) := by
  rw [leastMinRate, hstep]
  rfl

/-- A run keeps the bounds above the least minimum rate in force in it. -/
theorem bounded_run {m : Nat} (hc : ConfigOk c) (h : Bounded c m s)
    (hrange : ∀ e ∈ es, e.InRange) (hm : m ≤ leastMinRate c s es)
    (hrun : run (step c) s es = some t) : Bounded c m t := by
  induction es generalizing s with
  | nil =>
    cases hrun
    exact h
  | cons e es ih =>
    obtain ⟨u, hu, hrun⟩ := Option.bind_eq_some_iff.mp hrun
    rw [leastMinRate_cons hu] at hm
    have hmu : m ≤ leastMinRate c u es := Nat.le_trans hm (Nat.min_le_right _ _)
    have hbounded := bounded_step hc h (hrange e List.mem_cons_self) hu
      (Nat.le_trans hmu (leastMinRate_le c u es))
    exact ih hbounded (fun e' he' => hrange e' (List.mem_cons_of_mem _ he')) hmu hrun

/-- A queue pair starts at the line rate. -/
theorem bounded_create {m : Nat} (hc : ConfigOk c) (size : UInt64) (win : UInt32) (varWin : Bool)
    (heven : 2 ∣ m) (hm : m ≤ 100 * 10 ^ 6) : Bounded c m (Sender.create c size win varWin) := by
  have hmlx : c.mlxMode = true := by rcases hc.mlx with h | h <;> simp [Config.mlxMode, h]
  have hline : m ≤ c.lineRate := Nat.le_trans hm (Nat.le_trans (by norm_num) hc.line)
  have htarget : (Sender.create c size win varWin).mlx.targetRate = c.lineRate := if_pos hmlx
  have halpha : (1 : ℚ) ≤ alphaMax c := by
    unfold alphaMax
    split <;> norm_num
  exact {
    params := paramsOk_default
    min_even := heven
    min_le := hm
    min_force := hm
    rate_ge := hline
    rate_le := Nat.le_refl _
    target_ge := htarget.symm ▸ hline
    target_le := Nat.le_of_eq htarget
    alpha_nonneg := zero_le_one
    alpha_le := halpha
    unmarked := fun _ _ => ⟨rfl, htarget, Nat.le_succ _⟩ }

/-- Minimum rates are whole Mb/s, and so is the least of them. -/
theorem leastMinRate_even (hc : ConfigOk c) (h : Bounded c 0 s) (hrange : ∀ e ∈ es, e.InRange) :
    2 ∣ leastMinRate c s es := by
  induction es generalizing s with
  | nil => exact h.params.minRate_even
  | cons e es ih =>
    rcases hstep : step c s e with _ | t
    · rw [leastMinRate, hstep]
      exact (Nat.min_self _).symm ▸ h.params.minRate_even
    · have ht : Bounded c 0 t :=
        bounded_step hc h (hrange e List.mem_cons_self) hstep (Nat.zero_le _)
      have hrest := ih ht fun e' he' => hrange e' (List.mem_cons_of_mem _ he')
      rw [leastMinRate_cons hstep]
      rcases Nat.le_total s.params.minRate (leastMinRate c t es) with hle | hle
      · exact (Nat.min_eq_left hle).symm ▸ h.params.minRate_even
      · exact (Nat.min_eq_right hle).symm ▸ hrest

/-- In every run from the defaults, the rates stay between the least minimum rate so far
and the line rate, and alpha stays in the interval of its scheme. -/
theorem rates_bounded (c : Config) (hc : ConfigOk c) (size : UInt64) (win : UInt32) (varWin : Bool)
    (es : List Event) (hrange : ∀ e ∈ es, e.InRange) (s : Sender)
    (hrun : run (step c) (Sender.create c size win varWin) es = some s) :
    s.rate ≤ c.lineRate ∧ s.mlx.targetRate ≤ c.lineRate ∧
      leastMinRate c (Sender.create c size win varWin) es ≤ s.rate ∧
      (c.scheme = .dcqcn → 0 ≤ s.mlx.alpha ∧ s.mlx.alpha ≤ 1024) ∧
      (c.scheme = .dcqcnPlus → 0 ≤ s.mlx.alpha ∧ s.mlx.alpha ≤ 1) := by
  have heven : 2 ∣ leastMinRate c (Sender.create c size win varWin) es :=
    leastMinRate_even hc (bounded_create hc size win varWin (Nat.dvd_zero 2) (Nat.zero_le _)) hrange
  have hm : leastMinRate c (Sender.create c size win varWin) es ≤ 100 * 10 ^ 6 :=
    leastMinRate_le c _ es
  have h := bounded_run hc (bounded_create hc size win varWin heven hm) hrange (Nat.le_refl _) hrun
  refine ⟨h.rate_le, h.target_le, h.rate_ge, ?_, ?_⟩
  · intro hscheme
    have hmax : alphaMax c = 1024 := by
      rw [alphaMax, hscheme, if_neg (by decide)]
      norm_num
    exact ⟨h.alpha_nonneg, hmax ▸ h.alpha_le⟩
  · intro hscheme
    have hmax : alphaMax c = 1 := if_pos hscheme
    exact ⟨h.alpha_nonneg, hmax ▸ h.alpha_le⟩

theorem dcqcnPlusConfig_ok : ConfigOk dcqcnPlusConfig := by
  refine ⟨Or.inr rfl, by decide, ?_, ?_⟩ <;> norm_num [dcqcnPlusConfig, dcqcnConfig]

/-- A CNP halves the rate, and fast recovery takes it back to three quarters, while the
minimum rate goes up to 2 Gb/s. -/
theorem rates_bounded_recovery :
    ∃ s, run (step dcqcnPlusConfig) (Sender.create dcqcnPlusConfig 5000 0 false)
        [.send 0, .cnp 100, .changeParameters [.rpgMinRate 2000], .timer 1] = some s ∧
      s.rate ≤ 100 * 10 ^ 9 ∧ 100 * 10 ^ 6 ≤ s.rate ∧ s.mlx.alpha ≤ 1 := by
  obtain ⟨s, hs⟩ := Option.isSome_iff_exists.mp (show (run (step dcqcnPlusConfig)
    (Sender.create dcqcnPlusConfig 5000 0 false)
    [.send 0, .cnp 100, .changeParameters [.rpgMinRate 2000], .timer 1]).isSome = true by
      decide +kernel)
  have hrange : ∀ e ∈ [Event.send 0, .cnp 100, .changeParameters [.rpgMinRate 2000], .timer 1],
      e.InRange := by
    simp [Event.InRange, Parameter.InRange]
  obtain ⟨hline, -, hmin, -, halpha⟩ :=
    rates_bounded dcqcnPlusConfig dcqcnPlusConfig_ok 5000 0 false
      [.send 0, .cnp 100, .changeParameters [.rpgMinRate 2000], .timer 1] hrange s hs
  have hleast : 100 * 10 ^ 6 = leastMinRate dcqcnPlusConfig
      (Sender.create dcqcnPlusConfig 5000 0 false)
      [.send 0, .cnp 100, .changeParameters [.rpgMinRate 2000], .timer 1] := by
    decide +kernel
  exact ⟨s, hs, hline, hleast ▸ hmin, (halpha rfl).2⟩

end Runs

end Paraleon.Rdma.Dcqcn
