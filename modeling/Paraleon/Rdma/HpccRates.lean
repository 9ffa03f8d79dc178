import Mathlib.Tactic.Linarith
import Mathlib.Tactic.Positivity
import Paraleon.Rdma.Hpcc

/-!
# Where HPCC divides by zero

Rates stay between the minimum rate and the line rate, since every new rate is clamped.
But two records of a hop with the same time field, such as two that are 2^24 ns apart, make
`UpdateRateHp` divide by a duration of 0. In multi-rate mode it also divides by the
utilisation of a hop whose stage has reached `m_miThresh`, which is 0 when nothing was
sent and queued for a base RTT.

`update_defined_iff`: a run of ACKs divides by zero at none of these places if and only if
all its ACKs are regular.
-/

namespace Paraleon.Rdma.Hpcc

open AckRates (Limits)
open Dcqcn (dataRate)
open Function Runs Wire

/-! ## One hop -/

section Hop

variable {c : Config} {old new : IntHop} {u x : ℚ} {tau : Nat}

theorem getTimeDelta_eq_zero_iff : new.getTimeDelta old = 0 ↔ new.time = old.time := by
  have hold : old.time < 2 ^ 24 := BitFields.get_lt 3 24 old.word
  unfold IntHop.getTimeDelta
  split <;> omega

theorem getLineRate_pos (h : new.lineRate < 5) : 0 < new.getLineRate := by
  have hall : ∀ i < 5, 0 < IntHop.lineRateValues.getD i 0 := by decide
  exact hall new.lineRate h

theorem divide_of_ne {y : ℚ} (h : y ≠ 0) : divide x y = some (x / y) := if_neg h

/-- Nothing was sent between two records, and one of them has no queue. -/
def Idle (c : Config) (old new : IntHop) : Prop :=
  new.getBytesDelta c.multi old = 0 ∧
    (min (new.getQlen c.multi) (old.getQlen c.multi) = 0 ∨ c.limits.maxRate = 0)

theorem utilisation_same_time (h : new.time = old.time) : utilisation c old new = none := by
  have hduration : ((new.getTimeDelta old : Nat) : ℚ) / 10 ^ 9 = 0 := by
    rw [getTimeDelta_eq_zero_iff.mpr h, Nat.cast_zero, zero_div]
  rw [utilisation, hduration, divide, if_pos rfl]
  rfl

theorem utilisation_spec (hknown : new.lineRate < 5) (htime : new.time ≠ old.time) :
    ∃ u, utilisation c old new = some u ∧ 0 ≤ u ∧ (u = 0 ↔ Idle c old new) := by
  have hdelta : new.getTimeDelta old ≠ 0 := mt getTimeDelta_eq_zero_iff.mp htime
  have hduration : ((new.getTimeDelta old : Nat) : ℚ) / 10 ^ 9 ≠ 0 :=
    div_ne_zero (Nat.cast_ne_zero.mpr hdelta) (by norm_num)
  have hline : (new.getLineRate : ℚ) ≠ 0 := Nat.cast_ne_zero.mpr (getLineRate_pos hknown).ne'
  have hwin : (c.win.toNat : ℚ) ≠ 0 :=
    Nat.cast_ne_zero.mpr (UInt32.lt_iff_toNat_lt.mp c.win_pos).ne'
  have hsome : utilisation c old new = some
      ((new.getBytesDelta c.multi old * 8 : ℚ) / ((new.getTimeDelta old : Nat) / 10 ^ 9) /
          new.getLineRate +
        (min (new.getQlen c.multi) (old.getQlen c.multi) : Nat) * c.limits.maxRate /
          new.getLineRate / c.win.toNat) := by
    rw [utilisation, divide_of_ne hduration, Option.bind_eq_bind, Option.bind_some,
      divide_of_ne hline, Option.bind_some]
    dsimp only
    rw [divide_of_ne hline, Option.bind_some, divide_of_ne hwin, Option.bind_some]
  -- the two parts of the sum are not negative, so that it is 0 when both are
  have hsent : (new.getBytesDelta c.multi old * 8 : ℚ) / ((new.getTimeDelta old : Nat) / 10 ^ 9) /
      new.getLineRate = 0 ↔ new.getBytesDelta c.multi old = 0 := by
    rw [div_eq_zero_iff, or_iff_left hline, div_eq_zero_iff, or_iff_left hduration, mul_eq_zero,
      or_iff_left (by norm_num), Nat.cast_eq_zero]
  have hqueued : ((min (new.getQlen c.multi) (old.getQlen c.multi) : Nat) * c.limits.maxRate /
      new.getLineRate / c.win.toNat : ℚ) = 0 ↔
        min (new.getQlen c.multi) (old.getQlen c.multi) = 0 ∨ c.limits.maxRate = 0 := by
    rw [div_eq_zero_iff, or_iff_left hwin, div_eq_zero_iff, or_iff_left hline, mul_eq_zero,
      Nat.cast_eq_zero, Nat.cast_eq_zero]
  refine ⟨_, hsome, by positivity, ?_⟩
  rw [add_eq_zero_iff_of_nonneg (by positivity) (by positivity), hsent, hqueued, Idle]

end Hop

/-! ## The moving average -/

section Average

variable {c : Config} {old new : ℚ} {tau : Nat}

theorem average_eq (c : Config) (old new : ℚ) (tau : Nat) :
    average c old new tau =
      (old * (c.baseRtt.toNat - min tau c.baseRtt.toNat : Nat) +
        new * (min tau c.baseRtt.toNat : Nat)) / c.baseRtt.toNat := by
  have hmin : (if c.baseRtt.toNat < tau then c.baseRtt.toNat else tau) =
      min tau c.baseRtt.toNat := by
    split
    · next h => exact (Nat.min_eq_right h.le).symm
    · next h => exact (Nat.min_eq_left (not_lt.mp h)).symm
  rw [average, hmin]

theorem baseRtt_pos (c : Config) : 0 < c.baseRtt.toNat := UInt64.lt_iff_toNat_lt.mp c.baseRtt_pos

theorem average_nonneg (hold : 0 ≤ old) (hnew : 0 ≤ new) : 0 ≤ average c old new tau := by
  rw [average_eq]
  positivity

/-- The average is 0 if nothing of the old one is left, or it was 0 itself. -/
theorem average_eq_zero_iff (hold : 0 ≤ old) (hnew : 0 ≤ new) (htau : tau ≠ 0) :
    average c old new tau = 0 ↔ new = 0 ∧ (old = 0 ∨ c.baseRtt.toNat ≤ tau) := by
  have hrtt := baseRtt_pos c
  have hne : (c.baseRtt.toNat : ℚ) ≠ 0 := Nat.cast_ne_zero.mpr hrtt.ne'
  have hpart : ((min tau c.baseRtt.toNat : Nat) : ℚ) ≠ 0 := Nat.cast_ne_zero.mpr (by omega)
  have hrest : c.baseRtt.toNat - min tau c.baseRtt.toNat = 0 ↔ c.baseRtt.toNat ≤ tau := by omega
  rw [average_eq, div_eq_zero_iff, or_iff_left hne,
    add_eq_zero_iff_of_nonneg (by positivity) (by positivity), mul_eq_zero, mul_eq_zero,
    or_iff_left hpart, Nat.cast_eq_zero, hrest, and_comm]

/-- With a positive old average, only a utilisation of 0 for some time makes it 0. -/
theorem average_pos (hold : 0 < old) (hnew : 0 ≤ new) (htau : tau = 0 ∨ 0 < new) :
    0 < average c old new tau := by
  refine (average_nonneg hold.le hnew).lt_of_ne' fun hzero => ?_
  rcases eq_or_ne tau 0 with rfl | h
  · have hne : (c.baseRtt.toNat : ℚ) ≠ 0 := Nat.cast_ne_zero.mpr (baseRtt_pos c).ne'
    rw [average_eq, Nat.zero_min, Nat.sub_zero, Nat.cast_zero, mul_zero, add_zero,
      mul_div_cancel_right₀ _ hne] at hzero
    exact hold.ne' hzero
  · exact (htau.resolve_left h).ne' ((average_eq_zero_iff hold.le hnew h).mp hzero).1

end Average

/-! ## A new rate -/

section React

variable {c : Config} {u : ℚ} {rate : Nat} {incStage : UInt32}

theorem clamp_within (l : Limits) (rate : Nat) : l.Within (clamp l rate) :=
  ⟨le_min l.le (le_max_left _ _), min_le_left _ _⟩

theorem react_isSome_iff :
    (react c u rate incStage).isSome = true ↔ ¬(u = 0 ∧ c.miThresh ≤ incStage) := by
  have htarget := c.targetUtil_pos.ne'
  rw [react, divide_of_ne htarget, Option.bind_eq_bind, Option.bind_some]
  by_cases hu : u / c.targetUtil = 0
  · have hu' : u = 0 := (div_eq_zero_iff.mp hu).resolve_right htarget
    by_cases hstage : c.miThresh ≤ incStage
    · simp [hu', hstage, divide]
    · have hone : ¬(1 : ℚ) ≤ 0 := by norm_num
      simp [hu', hstage, hone]
  · have hu' : u ≠ 0 := fun h => hu (by rw [h, zero_div])
    rw [divide_of_ne hu]
    split <;> simp [hu']

theorem react_within {new : Nat × UInt32} (h : react c u rate incStage = some new) :
    c.limits.Within new.1 := by
  rw [react, divide_of_ne c.targetUtil_pos.ne', Option.bind_eq_bind, Option.bind_some] at h
  split at h
  · obtain ⟨decreased, -, h⟩ := Option.bind_eq_some_iff.mp h
    cases h
    exact clamp_within _ _
  · cases h
    exact clamp_within _ _

end React

/-! ## The first loop -/

section Measure

variable {c : Config} {a : Ack} {fast : Bool} {q : State} {s s' : Loop} {i : Hop} {done : List Hop}

theorem mem_hops : i ∈ a.hops ↔ i.val < a.nhop := by simp [Ack.hops]

theorem measureHop_isSome_iff (hi : i.val < a.nhop) :
    (measureHop c a fast q s i).isSome = true ↔
      (isLookedAt c a fast i = true → (a.hop i).time ≠ (q.hop i).time) := by
  unfold measureHop
  split
  · next hlooked =>
    by_cases htime : (a.hop i).time = (q.hop i).time
    · rw [utilisation_same_time htime]
      simp [hlooked, htime]
    · obtain ⟨u, hu, -⟩ := utilisation_spec (c := c) (a.known i hi) htime
      simp [hu, htime]
  · next hlooked => simp [hlooked]

/-- The state of a hop of which `u` was measured. -/
def measured (c : Config) (a : Ack) (q : State) (i : Hop) (u : ℚ) : HopState :=
  { q.hopState i with
    u := average c (q.hopState i).u u ((a.hop i).getTimeDelta (q.hop i)) }

/-- What the first loop has done when it has been through the hops `done`. -/
structure Loop.After (c : Config) (a : Ack) (fast : Bool) (q : State) (done : List Hop)
    (s : Loop) : Prop where
  updated : ∀ i, s.updated i = true ↔ i ∈ done ∧ isLookedAt c a fast i = true
  kept : ∀ i, ¬(c.multipleRate = true ∧ s.updated i = true) → s.hopState i = q.hopState i
  measured : ∀ i, c.multipleRate = true → s.updated i = true →
    ∃ u, utilisation c (q.hop i) (a.hop i) = some u ∧ 0 ≤ u ∧ s.hopState i = measured c a q i u
  maxU_nonneg : 0 ≤ s.maxU
  dt : s.dt = 0 ∨ 0 < s.maxU

theorem start_after : (Loop.start q).After c a fast q [] where
  updated _ := by simp [Loop.start]
  kept _ _ := rfl
  measured _ _ h := by simp [Loop.start] at h
  maxU_nonneg := le_rfl
  dt := .inl rfl

/-- An iteration that looks at the hop. -/
theorem measureHop_looked (hi : i.val < a.nhop) (hlooked : isLookedAt c a fast i = true)
    (hstep : measureHop c a fast q s i = some s') :
    ∃ u, utilisation c (q.hop i) (a.hop i) = some u ∧ 0 ≤ u ∧
      s'.updated = update s.updated i true ∧
      (s'.hopState =
        if c.multipleRate then update s.hopState i (measured c a q i u) else s.hopState) ∧
      (s'.maxU = s.maxU ∧ s'.dt = s.dt ∨ s'.maxU = u ∧ s.maxU < u) := by
  rw [measureHop, if_pos hlooked] at hstep
  obtain ⟨u, hu, rfl⟩ := Option.map_eq_some_iff.mp hstep
  have htime : (a.hop i).time ≠ (q.hop i).time := fun htime => by
    rw [utilisation_same_time htime] at hu
    cases hu
  obtain ⟨v, hv, hnonneg, -⟩ := utilisation_spec (c := c) (a.known i hi) htime
  obtain rfl : v = u := Option.some.inj (hv.symm.trans hu)
  refine ⟨v, hu, hnonneg, ?_⟩
  dsimp only
  split
  · exact ⟨rfl, rfl, .inl ⟨rfl, rfl⟩⟩
  · split
    · next hlt => exact ⟨rfl, rfl, .inr ⟨rfl, hlt⟩⟩
    · exact ⟨rfl, rfl, .inl ⟨rfl, rfl⟩⟩

theorem measureHop_after (hi : i.val < a.nhop) (h : s.After c a fast q done)
    (hstep : measureHop c a fast q s i = some s') : s'.After c a fast q (done ++ [i]) := by
  -- only a hop that is looked at changes, and only its own record
  by_cases hlooked : isLookedAt c a fast i = true
  · obtain ⟨u, hu, hnonneg, hupdated, hstate, hmax⟩ := measureHop_looked hi hlooked hstep
    have hother {j : Hop} (hj : j ≠ i) :
        s'.updated j = s.updated j ∧ s'.hopState j = s.hopState j := by
      rw [hupdated, hstate, update_of_ne hj]
      split
      · exact ⟨rfl, update_of_ne hj _ _⟩
      · exact ⟨rfl, rfl⟩
    refine ⟨fun j => ?_, fun j hnot => ?_, fun j hmulti hj' => ?_, ?_, ?_⟩
    · rw [List.mem_append, List.mem_singleton]
      rcases eq_or_ne j i with rfl | hj
      · simp [hupdated, hlooked]
      · rw [(hother hj).1, h.updated j, or_iff_left hj]
    · by_cases hmulti : c.multipleRate = true
      · have hj : j ≠ i := fun hj => hnot ⟨hmulti, by rw [hupdated, hj, update_self]⟩
        rw [(hother hj).1] at hnot
        rw [(hother hj).2, h.kept j hnot]
      · rw [hstate, if_neg hmulti, h.kept j fun hboth => hmulti hboth.1]
    · rcases eq_or_ne j i with rfl | hj
      · exact ⟨u, hu, hnonneg, by rw [hstate, if_pos hmulti, update_self]⟩
      · rw [(hother hj).2]
        exact h.measured j hmulti ((hother hj).1 ▸ hj')
    · rcases hmax with ⟨hmax, -⟩ | ⟨hmax, -⟩
      · exact hmax ▸ h.maxU_nonneg
      · exact hmax ▸ hnonneg
    · rcases hmax with ⟨hmax, hdt⟩ | ⟨hmax, hlt⟩
      · rw [hmax, hdt]
        exact h.dt
      · exact .inr (hmax ▸ h.maxU_nonneg.trans_lt hlt)
  · rw [measureHop, if_neg hlooked] at hstep
    cases hstep
    refine { h with updated := fun j => ?_ }
    rw [h.updated j, List.mem_append, List.mem_singleton]
    constructor
    · exact fun ⟨hj, hlooked⟩ => ⟨.inl hj, hlooked⟩
    · rintro ⟨hj | rfl, hlooked'⟩
      · exact ⟨hj, hlooked'⟩
      · exact absurd hlooked' hlooked

theorem measure_isSome_iff : (run (measureHop c a fast q) s a.hops).isSome = true ↔
    ∀ i ∈ a.hops, isLookedAt c a fast i = true → (a.hop i).time ≠ (q.hop i).time := by
  have hevent (s : Loop) (i : Hop) (hi : i ∈ a.hops) :
      (measureHop c a fast q s i).isSome = true ↔
        (isLookedAt c a fast i = true → (a.hop i).time ≠ (q.hop i).time) :=
    measureHop_isSome_iff (mem_hops.mp hi)
  exact run_isSome_iff_forall hevent s

theorem measure_after {is : List Hop} (hi : ∀ i ∈ is, i.val < a.nhop)
    (h : s.After c a fast q done) (hrun : run (measureHop c a fast q) s is = some s') :
    s'.After c a fast q (done ++ is) := by
  induction is generalizing s done with
  | nil =>
    cases hrun
    rwa [List.append_nil]
  | cons i is ih =>
    obtain ⟨s₁, hstep, hrun⟩ := Option.bind_eq_some_iff.mp hrun
    rw [List.forall_mem_cons] at hi
    have := ih hi.2 (measureHop_after hi.1 h hstep) hrun
    rwa [List.append_assoc] at this

theorem Loop.After.same (h : s.After c a fast q done) (i : Hop) :
    (s.hopState i).rc = (q.hopState i).rc ∧
      (s.hopState i).incStage = (q.hopState i).incStage := by
  by_cases hboth : c.multipleRate = true ∧ s.updated i = true
  · obtain ⟨u, -, -, hstate⟩ := h.measured i hboth.1 hboth.2
    rw [hstate]
    exact ⟨rfl, rfl⟩
  · rw [h.kept i hboth]
    exact ⟨rfl, rfl⟩

theorem Loop.After.u_nonneg (h : s.After c a fast q done) (hq : ∀ i, 0 ≤ (q.hopState i).u)
    (i : Hop) : 0 ≤ (s.hopState i).u := by
  by_cases hboth : c.multipleRate = true ∧ s.updated i = true
  · obtain ⟨u, -, hnonneg, hstate⟩ := h.measured i hboth.1 hboth.2
    rw [hstate]
    exact average_nonneg (hq i) hnonneg
  · rw [h.kept i hboth]
    exact hq i

end Measure

/-! ## The second loop -/

section PerHop

variable {c : Config} {s : Loop} {r r' : PerHop} {i : Hop} {done : List Hop}

theorem reactHop_isSome_iff : (reactHop c s r i).isSome = true ↔
    (s.updated i = true → ¬((s.hopState i).u = 0 ∧ c.miThresh ≤ (s.hopState i).incStage)) := by
  unfold reactHop
  dsimp only
  split
  · next hupdated => rw [Option.isSome_map, react_isSome_iff, forall_prop_of_true hupdated]
  · next hupdated => simp [hupdated]

/-- The rates of the second loop when it has been through the hops `done`. -/
structure PerHop.After (c : Config) (s : Loop) (done : List Hop) (r : PerHop) : Prop where
  newRate : c.limits.Within r.newRate
  rates : ∀ i ∈ done, s.updated i = true → c.limits.Within (r.rates i)

theorem within_min {l : Limits} {m n : Nat} (hm : l.Within m) (hn : l.Within n) :
    l.Within (min m n) :=
  ⟨le_min hm.1 hn.1, (min_le_left m n).trans hm.2⟩

theorem reactHop_after (hrc : ∀ i, c.limits.Within (s.hopState i).rc)
    (h : r.After c s done) (hstep : reactHop c s r i = some r') : r'.After c s (done ++ [i]) := by
  unfold reactHop at hstep
  dsimp only at hstep
  split at hstep
  · obtain ⟨new, hnew, rfl⟩ := Option.map_eq_some_iff.mp hstep
    have hwithin := react_within hnew
    refine ⟨within_min h.newRate hwithin, fun j hj hupdated => ?_⟩
    dsimp only
    by_cases hji : j = i
    · rw [hji, update_self]
      exact hwithin
    · rw [update_of_ne hji]
      exact h.rates j ((List.mem_append.mp hj).resolve_right (by simpa using hji)) hupdated
  · next hnot =>
    cases hstep
    refine ⟨within_min h.newRate (hrc i), fun j hj hupdated => ?_⟩
    rcases List.mem_append.mp hj with hj | hj
    · exact h.rates j hj hupdated
    · rw [List.mem_singleton.mp hj] at hupdated
      exact absurd hupdated hnot

theorem react_after {is : List Hop} (hrc : ∀ i, c.limits.Within (s.hopState i).rc)
    (h : r.After c s done) (hrun : run (reactHop c s) r is = some r') :
    r'.After c s (done ++ is) := by
  induction is generalizing r done with
  | nil =>
    cases hrun
    rwa [List.append_nil]
  | cons i is ih =>
    obtain ⟨r₁, hstep, hrun⟩ := Option.bind_eq_some_iff.mp hrun
    have hrest := ih (reactHop_after hrc h hstep) hrun
    rwa [List.append_assoc] at hrest

end PerHop

/-! ## One ACK -/

section Step

variable {c : Config} {a : Ack} {fast : Bool} {q q' : State} {s : Loop}

structure InBounds (c : Config) (q : State) : Prop where
  rate : c.limits.Within q.rate
  curRate : c.limits.Within q.curRate
  rc : c.multipleRate = true → ∀ i, c.limits.Within (q.hopState i).rc

/-- The average of the path never falls to 0. -/
structure Inv (c : Config) (q : State) : Prop extends InBounds c q where
  u_pos : 0 < q.u
  hop_nonneg : ∀ i, 0 ≤ (q.hopState i).u

/-- With one rate for the path, the division by the utilisation is always possible. -/
theorem reactAggregate_spec (h : Inv c q) (hsingle : c.multipleRate = false)
    (hs : s.After c a fast q done) :
    ∃ q', reactAggregate c fast s q = some q' ∧ Inv c q' := by
  have hpos : 0 < average c q.u s.maxU s.dt := average_pos h.u_pos hs.maxU_nonneg hs.dt
  have hrc : ∀ q' : State, c.multipleRate = true → ∀ i, c.limits.Within (q'.hopState i).rc :=
    fun _ hmulti => by simp [hsingle] at hmulti
  unfold reactAggregate
  dsimp only
  split
  · have hsome : (react c (average c q.u s.maxU s.dt) q.curRate q.incStage).isSome = true :=
      react_isSome_iff.mpr fun hzero => hpos.ne' hzero.1
    obtain ⟨new, hnew⟩ := Option.isSome_iff_exists.mp hsome
    have hwithin := react_within hnew
    rw [hnew]
    refine ⟨_, rfl, ?_⟩
    split
    · exact ⟨⟨hwithin, h.curRate, hrc _⟩, hpos, h.hop_nonneg⟩
    · exact ⟨⟨hwithin, hwithin, hrc _⟩, hpos, h.hop_nonneg⟩
  · exact ⟨_, rfl, ⟨h.rate, h.curRate, hrc _⟩, h.u_pos, h.hop_nonneg⟩

/-- With a rate for each hop, they are in bounds when the second loop goes to its end. -/
theorem reactPerHop_spec (h : Inv c q) (hmulti : c.multipleRate = true)
    (hs : s.After c a fast q a.hops) (hq : reactPerHop c a fast s q = some q') : Inv c q' := by
  have hrc (i : Hop) : c.limits.Within (s.hopState i).rc := (hs.same i).1 ▸ h.rc hmulti i
  have hu (i : Hop) : 0 ≤ (s.hopState i).u := hs.u_nonneg h.hop_nonneg i
  obtain ⟨r, hr, rfl⟩ := Option.map_eq_some_iff.mp hq
  have hafter : r.After c s ([] ++ a.hops) :=
    react_after hrc ⟨c.limits.within_max, fun _ hi => absurd hi List.not_mem_nil⟩ hr
  rw [List.nil_append] at hafter
  have hrates (i : Hop) : c.limits.Within (if s.updated i = true then
      { s.hopState i with rc := r.rates i, incStage := r.incStages i } else s.hopState i).rc := by
    split
    · next hupdated => exact hafter.rates i ((hs.updated i).mp hupdated).1 hupdated
    · exact hrc i
  have hu' (i : Hop) : 0 ≤ (if s.updated i = true then
      { s.hopState i with rc := r.rates i, incStage := r.incStages i } else s.hopState i).u := by
    split <;> exact hu i
  dsimp only
  cases hany : s.updatedAny <;> cases fast
  · exact ⟨⟨h.rate, h.curRate, fun _ => hrates⟩, h.u_pos, hu'⟩
  · exact ⟨⟨h.rate, h.curRate, fun _ => hrc⟩, h.u_pos, hu⟩
  · exact ⟨⟨hafter.newRate, hafter.newRate, fun _ => hrates⟩, h.u_pos, hu'⟩
  · exact ⟨⟨hafter.newRate, h.curRate, fun _ => hrc⟩, h.u_pos, hu⟩

/-- The rate of the hop would be divided by a utilisation of 0: its stage has reached the
threshold, and nothing was sent and queued, neither before nor for a base RTT. -/
def Stalled (c : Config) (q : State) (a : Ack) (i : Hop) : Prop :=
  c.multipleRate = true ∧ c.miThresh ≤ (q.hopState i).incStage ∧ Idle c (q.hop i) (a.hop i) ∧
    ((q.hopState i).u = 0 ∨ c.baseRtt.toNat ≤ (a.hop i).getTimeDelta (q.hop i))

/-- The ACK brings a new time for the hop, which is not stalled. -/
def Fresh (c : Config) (q : State) (a : Ack) (i : Hop) : Prop :=
  (a.hop i).time ≠ (q.hop i).time ∧ ¬Stalled c q a i

theorem reactHop_defined_iff (h : Inv c q) (hs : s.After c a fast q a.hops) {i : Hop}
    (hi : i ∈ a.hops) (hmulti : c.multipleRate = true)
    (htime : isLookedAt c a fast i = true → (a.hop i).time ≠ (q.hop i).time) :
    (s.updated i = true → ¬((s.hopState i).u = 0 ∧ c.miThresh ≤ (s.hopState i).incStage)) ↔
      (isLookedAt c a fast i = true → ¬Stalled c q a i) := by
  rw [hs.updated i, and_iff_right hi]
  refine forall_congr' fun hlooked => not_congr ?_
  obtain ⟨u, hu, hnonneg, hstate⟩ := hs.measured i hmulti ((hs.updated i).mpr ⟨hi, hlooked⟩)
  obtain ⟨v, hv, -, hidle⟩ := utilisation_spec (c := c) (a.known i (mem_hops.mp hi)) (htime hlooked)
  obtain rfl : v = u := Option.some.inj (hv.symm.trans hu)
  have htau : (a.hop i).getTimeDelta (q.hop i) ≠ 0 :=
    mt getTimeDelta_eq_zero_iff.mp (htime hlooked)
  have hzero : (s.hopState i).u = 0 ↔ Idle c (q.hop i) (a.hop i) ∧
      ((q.hopState i).u = 0 ∨ c.baseRtt.toNat ≤ (a.hop i).getTimeDelta (q.hop i)) := by
    rw [hstate, measured, average_eq_zero_iff (h.hop_nonneg i) hnonneg htau, hidle]
  rw [hzero, (hs.same i).2, Stalled, and_iff_right hmulti]
  exact and_comm

theorem reactPerHop_isSome_iff (h : Inv c q) (hs : s.After c a fast q a.hops)
    (hmulti : c.multipleRate = true)
    (htime : ∀ i ∈ a.hops, isLookedAt c a fast i = true → (a.hop i).time ≠ (q.hop i).time) :
    (reactPerHop c a fast s q).isSome = true ↔
      ∀ i ∈ a.hops, isLookedAt c a fast i = true → ¬Stalled c q a i := by
  have hrun (r : PerHop) : (run (reactHop c s) r a.hops).isSome = true ↔
      ∀ i ∈ a.hops, s.updated i = true →
        ¬((s.hopState i).u = 0 ∧ c.miThresh ≤ (s.hopState i).incStage) := by
    refine run_isSome_iff_forall (fun r i _ => ?_) r
    exact reactHop_isSome_iff
  unfold reactPerHop
  dsimp only
  rw [Option.isSome_map, hrun]
  exact forall₂_congr fun i hi => reactHop_defined_iff h hs hi hmulti (htime i hi)

theorem setRates_isSome_iff (h : Inv c q) (hs : s.After c a fast q a.hops)
    (htime : ∀ i ∈ a.hops, isLookedAt c a fast i = true → (a.hop i).time ≠ (q.hop i).time) :
    (setRates c a fast q s).isSome = true ↔
      ∀ i ∈ a.hops, isLookedAt c a fast i = true → ¬Stalled c q a i := by
  unfold setRates
  split
  · next hmulti => exact reactPerHop_isSome_iff h hs hmulti htime
  · next hsingle =>
    obtain ⟨q', hq', -⟩ := reactAggregate_spec h (by simpa using hsingle) hs
    rw [hq']
    exact iff_of_true rfl fun _ _ _ hstalled => hsingle hstalled.1

theorem setRates_inv (h : Inv c q) (hs : s.After c a fast q a.hops)
    (hq : setRates c a fast q s = some q') : Inv c q' := by
  unfold setRates at hq
  split at hq
  · next hmulti => exact reactPerHop_spec h hmulti hs hq
  · next hsingle =>
    obtain ⟨q₁, hq₁, h₁⟩ := reactAggregate_spec h (by simpa using hsingle) hs
    rwa [Option.some.inj (hq.symm.trans hq₁)]

/-- Both loops go to their ends if and only if every hop they look at is fresh. -/
theorem updateRateHp_isSome_iff (h : Inv c q) (hseq : q.lastUpdateSeq ≠ 0) :
    (updateRateHp c a fast q).isSome = true ↔
      ∀ i ∈ a.hops, isLookedAt c a fast i = true → Fresh c q a i := by
  rw [updateRateHp, if_neg hseq, Option.isSome_map]
  cases hrun : run (measureHop c a fast q) (Loop.start q) a.hops with
  | none =>
    refine iff_of_false Bool.false_ne_true fun hfresh => ?_
    have hsome : (run (measureHop c a fast q) (Loop.start q) a.hops).isSome = true :=
      measure_isSome_iff.mpr fun i hi hlooked => (hfresh i hi hlooked).1
    rw [hrun] at hsome
    cases hsome
  | some s =>
    have htime := measure_isSome_iff.mp (Option.isSome_iff_exists.mpr ⟨s, hrun⟩)
    have hs := measure_after (fun _ hi => mem_hops.mp hi) start_after hrun
    rw [Option.bind_some, setRates_isSome_iff h hs htime]
    constructor
    · exact fun hstalled i hi hlooked => ⟨htime i hi hlooked, hstalled i hi hlooked⟩
    · exact fun hfresh i hi hlooked => (hfresh i hi hlooked).2

theorem updateRateHp_inv (h : Inv c q) (hq : updateRateHp c a fast q = some q') : Inv c q' := by
  unfold updateRateHp at hq
  split at hq
  · cases hq
    exact ⟨⟨h.rate, h.curRate, h.rc⟩, h.u_pos, h.hop_nonneg⟩
  · obtain ⟨q₁, hq₁, rfl⟩ := Option.map_eq_some_iff.mp hq
    obtain ⟨s, hrun, hq₁⟩ := Option.bind_eq_some_iff.mp hq₁
    have h₁ := setRates_inv h (measure_after (fun _ hi => mem_hops.mp hi) start_after hrun) hq₁
    unfold setLastUpdateSeq
    dsimp only
    split
    · exact ⟨⟨h₁.rate, h₁.curRate, h₁.rc⟩, h₁.u_pos, h₁.hop_nonneg⟩
    · exact h₁

/-- The condition on an ACK: when it is not the first one, every hop that is looked at is
fresh. Without `m_fast_react`, an ACK below `m_lastUpdateSeq` looks at none. -/
def Regular (c : Config) (q : State) (a : Ack) : Prop :=
  q.lastUpdateSeq ≠ 0 → (q.lastUpdateSeq < a.seq ∨ c.fastReact = true) →
    ∀ i ∈ a.hops, isLookedAt c a (!decide (q.lastUpdateSeq < a.seq)) i = true → Fresh c q a i

theorem step_isSome_iff (h : Inv c q) : (step c q a).isSome = true ↔ Regular c q a := by
  unfold step handleAckHp fastReactHp Regular
  by_cases hseq : q.lastUpdateSeq = 0
  · -- the first ACK is stored
    have hfirst (fast : Bool) : (updateRateHp c a fast q).isSome = true := by
      rw [updateRateHp, if_pos hseq]
      rfl
    refine iff_of_true ?_ fun hne => absurd hseq hne
    split_ifs
    · exact hfirst false
    · exact hfirst true
    · rfl
  · rw [forall_prop_of_true hseq]
    by_cases hnew : q.lastUpdateSeq < a.seq
    · simp [hnew, updateRateHp_isSome_iff h hseq]
    · by_cases hfast : c.fastReact = true
      · simp [hnew, hfast, updateRateHp_isSome_iff h hseq]
      · simp [hnew, hfast]

theorem step_inv (h : Inv c q) (hstep : step c q a = some q') : Inv c q' := by
  unfold step handleAckHp at hstep
  split at hstep
  · exact updateRateHp_inv h hstep
  · unfold fastReactHp at hstep
    split at hstep
    · exact updateRateHp_inv h hstep
    · cases hstep
      exact h

theorem create_inv (c : Config) (hop : Hop → IntHop) : Inv c (State.create c hop) where
  rate := c.limits.within_max
  curRate := c.limits.within_max
  rc hmulti _ := by
    show c.limits.Within (if c.multipleRate = true then c.limits.maxRate else 0)
    rw [if_pos hmulti]
    exact c.limits.within_max
  u_pos := one_pos
  hop_nonneg _ := zero_le_one

end Step

/-- For every path and every run of ACKs: no update divides by zero, and the rates are in
bounds throughout, if and only if all the ACKs are regular. -/
theorem update_defined_iff (c : Config) (hop : Hop → IntHop) (acks : List Ack) :
    ((run (step c) (State.create c hop) acks).isSome = true ∧
        Always (step c) (InBounds c) (State.create c hop) acks) ↔
      Meets (step c) (Regular c) (State.create c hop) acks := by
  have hinv : Always (step c) (Inv c) (State.create c hop) acks :=
    always_of_invariant (fun _ _ _ h hstep => step_inv h hstep) (create_inv c hop) acks
  rw [and_iff_left (hinv.mono fun _ h => h.toInBounds)]
  exact run_isSome_iff_meets (fun _ _ _ h hstep => step_inv h hstep)
    (fun _ _ h => step_isSome_iff h) (create_inv c hop) acks

/-! ## Two records that are 2^24 ns apart -/

def singleRate : Config where
  limits := AckRates.limits
  rai := 5 * 10 ^ 6
  win := 100000
  baseRtt := 8000
  targetUtil := 95 / 100
  miThresh := 5
  multipleRate := false
  sampleFeedback := false
  fastReact := true
  multi := 1
  win_pos := by decide
  baseRtt_pos := by decide
  targetUtil_pos := by norm_num

/-- The records of a link of 100 Gbit/s at 1000 ns and at 16778216 ns. -/
def earlyHop : IntHop := ⟨8002, 0⟩

def lateHop : IntHop := ⟨536878914, 3⟩

/-- An ACK of a path with one switch. -/
def oneHopAck (seq : UInt32) (hop : IntHop) (known : hop.lineRate < 5) : Ack where
  seq
  sndNxt := 1000
  nhop := 1
  hop := fun _ => hop
  unset := 0
  nhop_le := by decide
  known := fun _ _ => known

theorem same_time_divides_by_zero :
    IntHop.set 1 1000 0 0 100000000000 (IntHop.ofWord 0) = some earlyHop ∧
      IntHop.set 1 16778216 12800 0 100000000000 (IntHop.ofWord 0) = some lateHop ∧
      (run (step singleRate) (State.create singleRate fun _ => IntHop.ofWord 0)
        [oneHopAck 1000 earlyHop (by decide), oneHopAck 2000 lateHop (by decide)]).isSome =
          false := by
  decide +kernel

end Paraleon.Rdma.Hpcc
