import Mathlib.Data.Int.ModEq
import Mathlib.Tactic.Linarith
import Paraleon.Library.Runs
import Paraleon.Rdma.Dcqcn

/-!
# The hyper increase of DCQCN+

Past the threshold F, `HyperIncreaseMlx` scales its step by the stage: one percent of
the line rate, then two, and so on from stage 4F. `std::max(1.0, ..)` keeps the scale at
1 before that, but it is applied to a subtraction of `uint32_t`, so between F and 4F - 1
the scale is close to 2^32 instead.

`rampsUp_iff` says at which stages the step is the intended one, and when the scales of
a ramp start at 1 and grow.
-/

namespace Paraleon.Rdma.Dcqcn

open Runs Words

namespace HyperIncrease

/-- The scale at stage `n` with the threshold `threshold`, on `uint32_t`. -/
def scaleAt (threshold n : Nat) : Nat := max 1 (u32 (sub32 n (u32 (4 * threshold)) + 1))

/-- The scale over the integers. -/
def intendedScale (threshold n : Nat) : ℤ := max 1 (n - 4 * threshold + 1)

theorem stepScale_eq (c : Config) (s : Sender) :
    s.stepScale c = scaleAt c.rpgThreshold s.mlx.rpTimeStage := rfl

/-! ## The scale of a stage -/

section Scales

variable {threshold n : Nat}

variable (threshold) in
theorem scaleAt_cast (hn : n < 2 ^ 32) :
    (scaleAt threshold n : ℤ) = max 1 ((n + 1 - 4 * threshold : ℤ) % 2 ^ 32) := by
  have hwrapped : ((u32 (sub32 n (u32 (4 * threshold)) + 1) : Nat) : ℤ) =
      (n + 1 - 4 * threshold : ℤ) % 2 ^ 32 := by
    unfold u32 sub32
    split <;> omega
  rw [scaleAt, Nat.cast_max, hwrapped, Nat.cast_one]

/-- The subtraction stays in range, or wraps to 0 or 1. -/
def Unwrapped (threshold n : Nat) : Prop :=
  4 * threshold ≤ n + 1 ∧ n + 1 < 4 * threshold + 2 ^ 32 ∨
    n + 1 < 4 * threshold ∧
      (4 * threshold ≡ n + 1 [ZMOD 2 ^ 32] ∨ 4 * threshold ≡ n [ZMOD 2 ^ 32])

theorem max_emod_eq_iff {d : ℤ} (hd : d ≤ 2 ^ 32) :
    max 1 (d % 2 ^ 32) = max 1 d ↔
      0 ≤ d ∧ d < 2 ^ 32 ∨ d < 0 ∧ (2 ^ 32 ∣ d ∨ 2 ^ 32 ∣ d - 1) := by
  rcases lt_or_ge d 0 with hneg | hpos
  · rw [max_eq_left (b := d) (by omega)]
    omega
  · rcases hd.lt_or_eq with hlt | rfl
    · rw [Int.emod_eq_of_lt hpos hlt]
      exact iff_of_true rfl (.inl ⟨hpos, hlt⟩)
    · decide

theorem scaleAt_intended_iff (hn : n < 2 ^ 32) :
    (scaleAt threshold n : ℤ) = intendedScale threshold n ↔ Unwrapped threshold n := by
  have hd : (n + 1 - 4 * threshold : ℤ) ≤ 2 ^ 32 := by omega
  have hprev : (n + 1 - 4 * threshold - 1 : ℤ) = n - 4 * threshold := by ring
  have hintended : intendedScale threshold n = max 1 (n + 1 - 4 * threshold : ℤ) := by
    rw [intendedScale, sub_add_eq_add_sub]
  rw [scaleAt_cast threshold hn, hintended, max_emod_eq_iff hd, hprev, Unwrapped,
    Int.modEq_iff_dvd, Int.modEq_iff_dvd]
  refine or_congr (and_congr ?_ ?_) (and_congr_left' ?_)
  · omega
  · omega
  · omega

theorem max_emod_eq_one_iff (d : ℤ) :
    max 1 (d % 2 ^ 32) = 1 ↔ 2 ^ 32 ∣ d ∨ 2 ^ 32 ∣ d - 1 := by
  omega

/-- `c - 3F` wraps at most twice. -/
theorem wraps_of_dvd (ht : threshold < 2 ^ 32) {c k : ℤ} (hc : 0 ≤ c ∧ c ≤ 2)
    (hk : c - 3 * threshold = 2 ^ 32 * k) : k = 0 ∨ k = -1 ∨ k = -2 := by
  obtain ⟨hc₀, hc₂⟩ := hc
  have hcast : (threshold : ℤ) < 2 ^ 32 := by omega
  have hge : -3 < k := by linarith
  have hle : k < 1 := by linarith
  omega

/-- The first stage of the ramp. -/
theorem scaleAt_first_iff (hn : threshold + 1 < 2 ^ 32) :
    scaleAt threshold (threshold + 1) = 1 ↔
      threshold = 1431655766 ∨ threshold = 2863311531 := by
  have ht : threshold < 2 ^ 32 := threshold.lt_succ_self.trans hn
  have hd : ((threshold + 1 : Nat) + 1 - 4 * threshold : ℤ) = 2 - 3 * threshold := by
    push_cast
    ring
  rw [← Nat.cast_inj (R := ℤ), scaleAt_cast threshold hn, hd, Nat.cast_one, max_emod_eq_one_iff]
  constructor
  · rintro (⟨k, hk⟩ | ⟨k, hk⟩)
    · rcases wraps_of_dvd ht (by decide) hk with rfl | rfl | rfl <;> omega
    · rw [sub_right_comm] at hk
      rcases wraps_of_dvd ht (by decide) hk with rfl | rfl | rfl <;> omega
  · rintro (rfl | rfl) <;> decide

/-- From one stage to the next, the scale only falls where the difference wraps. -/
theorem scaleAt_succ_iff (hn : n + 1 < 2 ^ 32) :
    scaleAt threshold n ≤ scaleAt threshold (n + 1) ↔
      ¬4 * threshold ≡ n + 2 [ZMOD 2 ^ 32] := by
  have hcast := scaleAt_cast threshold (n.lt_succ_self.trans hn)
  have hcast' := scaleAt_cast threshold hn
  rw [Int.ModEq]
  push_cast at hcast'
  omega

/-- The scale does not fall on the ramp up to stage `n`. -/
def Grows (threshold n : Nat) : Prop :=
  ∀ i j, threshold < i → i ≤ j → j ≤ n → scaleAt threshold i ≤ scaleAt threshold j

/-- A stage of the ramp before `n` has the scale 2^32 - 1. -/
def Drops (threshold n : Nat) : Prop :=
  ∃ i, threshold < i ∧ i < n ∧ 4 * threshold ≡ i + 2 [ZMOD 2 ^ 32]

theorem grows_iff (hn : n < 2 ^ 32) : Grows threshold n ↔ ¬Drops threshold n := by
  constructor
  · rintro hgrows ⟨i, hi, hin, hmod⟩
    exact (scaleAt_succ_iff (by omega)).mp (hgrows i (i + 1) hi i.le_succ hin) hmod
  · intro hdrops i j hi hij hjn
    induction j, hij using Nat.le_induction with
    | base => exact le_rfl
    | succ j hij ih =>
      have hstep : scaleAt threshold j ≤ scaleAt threshold (j + 1) :=
        (scaleAt_succ_iff (by omega)).mpr fun hmod => hdrops ⟨j, by omega, hjn, hmod⟩
      exact (ih (by omega)).trans hstep

end Scales

/-! ## Stages of runs -/

section Stages

variable {c : Config} {s t : Sender}

theorem rateIncEventMlx_stage :
    (Sender.rateIncEventMlx c s).mlx.rpTimeStage = s.mlx.rpTimeStage := by
  unfold Sender.rateIncEventMlx Sender.activeIncreaseMlx Sender.hyperIncreaseMlx
  split_ifs <;> rfl

theorem scheduleUpdateAlphaMlx_stage :
    (Sender.scheduleUpdateAlphaMlx c s).mlx.rpTimeStage = s.mlx.rpTimeStage := by
  unfold Sender.scheduleUpdateAlphaMlx
  split <;> rfl

/-- A stage is a `uint32_t`. -/
def InWord (s : Sender) : Prop := s.mlx.rpTimeStage < 2 ^ 32

theorem fire_inWord (k : Kind) (h : InWord s) : InWord (Sender.fire c k s) := by
  cases k with
  | updateAlpha =>
    show (Sender.updateAlphaMlx c s).mlx.rpTimeStage < 2 ^ 32
    unfold Sender.updateAlphaMlx
    split <;> (rw [scheduleUpdateAlphaMlx_stage]; exact h)
  | decreaseRate =>
    show (Sender.checkRateDecreaseMlx c s).mlx.rpTimeStage < 2 ^ 32
    unfold Sender.checkRateDecreaseMlx
    dsimp only
    split
    · exact Nat.two_pow_pos 32
    · exact h
  | rpTimer => exact u32_lt _

theorem cnpReceivedMlx_inWord (tau : Nat) (h : InWord s) :
    InWord (Sender.cnpReceivedMlx c tau s) := by
  unfold Sender.cnpReceivedMlx
  split
  · show (Sender.scheduleUpdateAlphaMlx c _).mlx.rpTimeStage < 2 ^ 32
    rw [scheduleUpdateAlphaMlx_stage]
    exact Nat.two_pow_pos 32
  · unfold Sender.cnpReceivedDcqcn
    dsimp only
    split
    · show (Sender.scheduleUpdateAlphaMlx c _).mlx.rpTimeStage < 2 ^ 32
      rw [scheduleUpdateAlphaMlx_stage]
      exact h
    · exact h

theorem receiveCnp_inWord (qfb : Nat) (h : InWord s) : InWord (Sender.receiveCnp c qfb s) := by
  have hmlx (tau : Nat) {t : Sender} (ht : InWord t) :
      InWord (if c.mlxMode then Sender.cnpReceivedMlx c tau t else t) := by
    split
    · exact cnpReceivedMlx_inWord tau ht
    · exact ht
  unfold Sender.receiveCnp
  dsimp only
  split
  · exact h
  · refine hmlx _ ?_
    split_ifs <;> exact h

theorem inWord_step {e : Event} (h : InWord s) (hstep : step c s e = some t) : InWord t := by
  cases e with
  | send now =>
    simp only [step, Sender.send] at hstep
    split at hstep
    · cases hstep
      exact h
    · cases hstep
  | cnp qfb =>
    cases hstep
    exact receiveCnp_inWord qfb h
  | timer id =>
    obtain ⟨timer, -, rfl⟩ := Option.map_eq_some_iff.mp hstep
    exact fire_inWord timer.kind h
  | changeParameters ps =>
    cases hstep
    exact h
  | ack a =>
    refine receiveAck_keeps (P := InWord) (fun _ _ h _ => h) ?_
      (fun _ _ tau h => cnpReceivedMlx_inWord tau h) (fun _ _ _ h => h) h hstep
    intro s h
    unfold Sender.qpComplete
    dsimp only
    split <;> exact h

end Stages

/-! ## Every stage is reached -/

/-- The sender is at stage `n`, and the timer of the rate increase is the second of its
timers. -/
structure AtStage (n : Nat) (s : Sender) : Prop where
  stage : s.mlx.rpTimeStage = n
  nextId : s.nextId ≠ 0
  timers : ∃ delay id delay', id ≠ 0 ∧
    s.timers = [⟨0, .updateAlpha, delay⟩, ⟨id, .rpTimer, delay'⟩]

theorem atStage_cnp (c : Config) (hplus : c.scheme = .dcqcnPlus) (size : UInt64) (win : UInt32)
    (varWin : Bool) :
    AtStage 0 (Sender.receiveCnp c 0 (Sender.create c size win varWin)) := by
  have hmode : c.mlxMode = true := by simp [Config.mlxMode, hplus]
  have hin : ¬(Sender.create c size win varWin).inQpMap = false := by simp [Sender.create]
  unfold Sender.receiveCnp Sender.cnpReceivedMlx Sender.cnpReceivedPlus
    Sender.scheduleUpdateAlphaMlx
  simp only [hmode, hplus, if_true]
  rw [if_neg hin]
  split <;> exact ⟨rfl, Nat.succ_ne_zero 1, _, 1, _, Nat.one_ne_zero, rfl⟩

theorem rateIncEventMlx_keeps (c : Config) (s : Sender) :
    (Sender.rateIncEventMlx c s).timers = s.timers ∧
      (Sender.rateIncEventMlx c s).nextId = s.nextId := by
  unfold Sender.rateIncEventMlx Sender.activeIncreaseMlx Sender.hyperIncreaseMlx
  split_ifs <;> exact ⟨rfl, rfl⟩

theorem atStage_timer {c : Config} {s : Sender} {n : Nat} (h : AtStage n s)
    (hn : n + 1 < 2 ^ 32) :
    ∃ id t, step c s (.timer id) = some t ∧ AtStage (n + 1) t := by
  obtain ⟨delay, id, delay', hid, htimers⟩ := h.timers
  have hfind : s.timers.find? (fun t => t.id = id) = some ⟨id, .rpTimer, delay'⟩ := by
    simp [htimers, hid.symm]
  have hrest : s.timers.filter (fun t => t.id ≠ id) = [⟨0, .updateAlpha, delay⟩] := by
    simp [htimers, hid.symm]
  refine ⟨id, Sender.rateIncEventTimerMlx c { s with timers := [⟨0, .updateAlpha, delay⟩] }, ?_,
    ?_, ?_, ?_⟩
  · rw [step, hfind, Option.map_some, hrest]
    rfl
  · show u32 (Sender.mlx (Sender.rateIncEventMlx c _)).rpTimeStage.succ = n + 1
    rw [rateIncEventMlx_stage]
    exact (congrArg (fun i => u32 (i + 1)) h.stage).trans (u32_of_lt hn)
  · show (Sender.rateIncEventMlx c _).nextId ≠ 0
    rw [(rateIncEventMlx_keeps c _).2]
    exact Nat.succ_ne_zero _
  · refine ⟨delay, s.nextId, microSeconds (if c.scheme = .dcqcnPlus then s.mlx.recoveryInterval
      else s.params.rpgTimeReset), h.nextId, ?_⟩
    show (Sender.rateIncEventMlx c _).timers = _
    rw [(rateIncEventMlx_keeps c _).1]
    rfl

/-- Every stage is reached, by that many firings after a CNP. -/
theorem exists_atStage (c : Config) (hplus : c.scheme = .dcqcnPlus) (size : UInt64)
    (win : UInt32) (varWin : Bool) {n : Nat} (hn : n < 2 ^ 32) :
    ∃ s, Reachable (step c) (Sender.create c size win varWin) s ∧ AtStage n s := by
  induction n with
  | zero => exact ⟨_, ⟨[.cnp 0], rfl⟩, atStage_cnp c hplus size win varWin⟩
  | succ n ih =>
    obtain ⟨s, hs, hstage⟩ := ih (n.lt_succ_self.trans hn)
    obtain ⟨id, t, hstep, ht⟩ := atStage_timer (c := c) hstage hn
    exact ⟨t, hs.snoc hstep, ht⟩

/-! ## The ramp -/

/-- At the stage of `s` the scale is the intended one, and the next firing steps by it. -/
structure Intended (c : Config) (s : Sender) : Prop where
  scale : (s.stepScale c : ℤ) = intendedScale c.rpgThreshold s.mlx.rpTimeStage
  step : (Sender.rateIncEventTimerMlx c s).mlx.targetRate =
    Sender.increasedTarget c
      (min s.rate (intendedScale c.rpgThreshold s.mlx.rpTimeStage * c.lineRate / 100)) s

/-- Past the threshold, a firing steps by the scale on `uint32_t`. -/
theorem rateIncEventTimerMlx_target {c : Config} (hplus : c.scheme = .dcqcnPlus) {s : Sender}
    (hyper : c.rpgThreshold < s.mlx.rpTimeStage) :
    (Sender.rateIncEventTimerMlx c s).mlx.targetRate =
      Sender.increasedTarget c (min s.rate (s.stepScale c * c.lineRate / 100)) s := by
  have hscheduled (delay : Int) :
      (Sender.rateIncEventMlx c (s.schedule .rpTimer delay)).mlx.targetRate =
        Sender.increasedTarget c (min s.rate (s.stepScale c * c.lineRate / 100)) s := by
    have hlow : ¬(s.schedule .rpTimer delay).mlx.rpTimeStage < c.rpgThreshold := hyper.not_gt
    have hactive : ¬(s.schedule .rpTimer delay).mlx.rpTimeStage = c.rpgThreshold := hyper.ne'
    rw [Sender.rateIncEventMlx, if_neg hlow, if_neg hactive, Sender.hyperIncreaseMlx, if_pos hplus]
    rfl
  exact hscheduled _

theorem intended_iff {c : Config} (hplus : c.scheme = .dcqcnPlus) {s : Sender}
    (hyper : c.rpgThreshold < s.mlx.rpTimeStage) (hword : InWord s) :
    Intended c s ↔ Unwrapped c.rpgThreshold s.mlx.rpTimeStage := by
  rw [← scaleAt_intended_iff hword]
  constructor
  · exact fun h => h.scale
  · intro hscale
    refine ⟨hscale, ?_⟩
    rw [rateIncEventTimerMlx_target hplus hyper, ← hscale]
    rfl

/-- For every threshold and every stage of a hyper increase that a run reaches: the scale
and the step are the intended ones if and only if the difference does not wrap, or wraps
to 0 or 1. The ramp starts at 1 for two thresholds only, and it grows if and only if
the difference wraps at none of its stages. -/
theorem rampsUp_iff (c : Config) (hplus : c.scheme = .dcqcnPlus) (size : UInt64) (win : UInt32)
    (varWin : Bool) {s : Sender}
    (h : Reachable (step c) (Sender.create c size win varWin) s)
    (hyper : c.rpgThreshold < s.mlx.rpTimeStage) :
    (Intended c s ↔ Unwrapped c.rpgThreshold s.mlx.rpTimeStage) ∧
      (scaleAt c.rpgThreshold (c.rpgThreshold + 1) = 1 ↔
        c.rpgThreshold = 1431655766 ∨ c.rpgThreshold = 2863311531) ∧
      (Grows c.rpgThreshold s.mlx.rpTimeStage ↔ ¬Drops c.rpgThreshold s.mlx.rpTimeStage) := by
  have hword : InWord s :=
    h.invariant (I := InWord) (Nat.two_pow_pos 32) fun _ _ _ hs hstep => inWord_step hs hstep
  have hfirst : c.rpgThreshold + 1 < 2 ^ 32 := (Nat.succ_le_of_lt hyper).trans_lt hword
  exact ⟨intended_iff hplus hyper hword, scaleAt_first_iff hfirst, grows_iff hword⟩

/-- Stage 19 with the default threshold 5. -/
theorem rampsUp_nineteen :
    ∃ s, Reachable (step dcqcnPlusConfig) (Sender.create dcqcnPlusConfig 1000 0 false) s ∧
      s.mlx.rpTimeStage = 19 ∧ Intended dcqcnPlusConfig s := by
  obtain ⟨s, hs, hstage⟩ := exists_atStage dcqcnPlusConfig rfl 1000 0 false (n := 19) (by decide)
  have hyper : dcqcnPlusConfig.rpgThreshold < s.mlx.rpTimeStage := by
    rw [hstage.stage]
    decide
  refine ⟨s, hs, hstage.stage, (rampsUp_iff dcqcnPlusConfig rfl 1000 0 false hs hyper).1.mpr ?_⟩
  rw [hstage.stage]
  exact .inl (by decide)

/-- The first hyper increase with the threshold 5 scales by 2^32 - 13, so that the step is
the whole current rate. -/
theorem first_hyper_increase_jumps :
    ∃ s, Reachable (step dcqcnPlusConfig) (Sender.create dcqcnPlusConfig 1000 0 false) s ∧
      s.mlx.rpTimeStage = 6 ∧ s.stepScale dcqcnPlusConfig = 4294967283 ∧
      intendedScale 5 6 = 1 ∧ ¬Intended dcqcnPlusConfig s := by
  obtain ⟨s, hs, hstage⟩ := exists_atStage dcqcnPlusConfig rfl 1000 0 false (n := 6) (by decide)
  have hscale : s.stepScale dcqcnPlusConfig = 4294967283 := by
    rw [stepScale_eq, hstage.stage]
    decide
  refine ⟨s, hs, hstage.stage, hscale, by decide, fun h => ?_⟩
  have heq := h.scale
  rw [hscale, hstage.stage] at heq
  revert heq
  decide

end HyperIncrease

end Paraleon.Rdma.Dcqcn
