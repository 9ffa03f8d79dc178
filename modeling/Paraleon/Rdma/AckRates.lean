import Mathlib.Analysis.Convex.Basic
import Paraleon.Rdma.DcqcnRates

/-!
# The rates of TIMELY and DCTCP

Both schemes set the rate of a queue pair when an ACK arrives: TIMELY from the round
trip times that the ACKs measure, DCTCP from the share of them that carry the CNP flag.
An ACK comes with the `snd_nxt` of the queue pair, which a NACK may have moved back.

As with DCQCN, doubles are rational numbers and a rate is cut to whole bit/s where it is
stored. A sum of two rates is a `uint64_t`, into which an increase of the line rate fits.
Whatever the ACKs say, each rate stays between the minimum rate and the line rate.
-/

namespace Paraleon.Rdma.AckRates

open Dcqcn Runs

/-- What an ACK brings, the time `now` when it is handled, and `snd_nxt` at that time. -/
structure Ack where
  seq : UInt32
  cnp : Bool
  ts : UInt64
  now : UInt64
  sndNxt : UInt64
deriving DecidableEq, Repr

/-- The bounds of a rate, in bit/s. -/
structure Limits where
  minRate : Nat
  maxRate : Nat
  le : minRate ≤ maxRate

/-- A rate within the bounds. -/
def Limits.Within (l : Limits) (rate : Nat) : Prop := l.minRate ≤ rate ∧ rate ≤ l.maxRate

/-! ## Rates within the bounds -/

section Limits

variable {l : Limits} {rate : Nat}

theorem Limits.within_max (l : Limits) : l.Within l.maxRate := ⟨l.le, le_rfl⟩

/-- An increase that fits, cut at the upper bound. -/
theorem Limits.Within.increase (h : l.Within rate) {step : Nat}
    (hfits : l.maxRate + step < 2 ^ 64) :
    l.Within (min l.maxRate ((rate + step) % 2 ^ 64)) := by
  rw [Nat.mod_eq_of_lt ((Nat.add_le_add_right h.2 step).trans_lt hfits)]
  exact ⟨le_min l.le (h.1.trans (Nat.le_add_right rate step)), min_le_left _ _⟩

/-- A decrease by a factor, cut at the lower bound. -/
theorem Limits.Within.decrease (h : l.Within rate) {factor : ℚ} (hge : 0 ≤ factor)
    (hle : factor ≤ 1) : l.Within (max l.minRate (dataRate (rate * factor))) := by
  have hrate : (0 : ℚ) ≤ rate := Nat.cast_nonneg rate
  have hcut : dataRate (rate * factor) ≤ rate :=
    dataRate_le (mul_nonneg hrate hge) (mul_le_of_le_one_right hrate hle)
  exact ⟨le_max_left _ _, max_le l.le (hcut.trans h.2)⟩

end Limits

/-! ## TIMELY -/

namespace Timely

/-- The attributes of TIMELY. -/
structure Config where
  limits : Limits
  rai : Nat
  rhai : Nat
  alpha : ℚ
  beta : ℚ
  tLow : UInt64
  tHigh : UInt64
  minRtt : UInt64
  beta_nonneg : 0 ≤ beta
  beta_le : beta ≤ 1
  minRtt_pos : 0 < minRtt
  rai_fits : limits.maxRate + rai < 2 ^ 64
  rhai_fits : limits.maxRate + rhai < 2 ^ 64

/-- `m_rate` and `qp->tmly`. -/
structure State where
  rate : Nat
  lastUpdateSeq : UInt32
  curRate : Nat
  incStage : UInt32
  lastRtt : UInt64
  rttDiff : ℚ

/-- The queue pair as `AddQueuePair` leaves it. -/
def State.create (c : Config) : State :=
  { rate := c.limits.maxRate, lastUpdateSeq := 0, curRate := c.limits.maxRate, incStage := 0,
    lastRtt := 0, rttDiff := 0 }

/-- The factor `c` of a decrease, and `none` for an increase. -/
def decreaseFactor (c : Config) (rtt : UInt64) (gradient : ℚ) : Option ℚ :=
  if rtt < c.tLow then none
  else if c.tHigh < rtt then some (1 - c.beta * (1 - c.tHigh.toNat / rtt.toNat))
  else if gradient ≤ 0 then none
  else
    let factor := 1 - c.beta * gradient
    some (if factor < 0 then 0 else factor)

/-- The part of `UpdateRateTimely` that changes rates. With `us`, only `m_rate`. -/
def changeRates (c : Config) (rtt : UInt64) (us : Bool) (q : State) : State :=
  -- the difference of two `int64_t`, of which an overflow wraps
  let newRttDiff := (rtt - q.lastRtt).toInt64.toInt
  let rttDiff := (1 - c.alpha) * q.rttDiff + c.alpha * newRttDiff
  match decreaseFactor c rtt (rttDiff / c.minRtt.toNat) with
  | none =>
    let step := if q.incStage < 5 then c.rai else c.rhai
    let rate := min c.limits.maxRate ((q.curRate + step) % 2 ^ 64)
    if us then { q with rate }
    else { q with rate, curRate := rate, incStage := q.incStage + 1, rttDiff }
  | some factor =>
    let rate := max c.limits.minRate (dataRate (q.curRate * factor))
    if us then { q with rate }
    else { q with rate, curRate := rate, incStage := 0, rttDiff }

def updateRateTimely (c : Config) (a : Ack) (us : Bool) (q : State) : State :=
  let nextSeq := a.sndNxt.toUInt32
  let rtt := a.now - a.ts
  let q := if q.lastUpdateSeq ≠ 0 then changeRates c rtt us q else q
  if us = false ∧ q.lastUpdateSeq < nextSeq then { q with lastUpdateSeq := nextSeq, lastRtt := rtt }
  else q

/-- An ACK below `m_lastUpdateSeq` goes to `FastReactTimely`, which does nothing. -/
def handleAckTimely (c : Config) (a : Ack) (q : State) : State :=
  if q.lastUpdateSeq < a.seq then updateRateTimely c a false q else q

def step (c : Config) (q : State) (a : Ack) : Option State := some (handleAckTimely c a q)

structure InBounds (c : Config) (q : State) : Prop where
  rate : c.limits.Within q.rate
  curRate : c.limits.Within q.curRate

variable {c : Config} {q : State}

theorem create_inBounds (c : Config) : InBounds c (State.create c) :=
  ⟨c.limits.within_max, c.limits.within_max⟩

/-- A decrease does not go below zero and is no increase. -/
theorem decreaseFactor_bounds {rtt : UInt64} {gradient factor : ℚ}
    (h : decreaseFactor c rtt gradient = some factor) : 0 ≤ factor ∧ factor ≤ 1 := by
  have hbeta := c.beta_nonneg
  have hbeta' := c.beta_le
  unfold decreaseFactor at h
  dsimp only at h
  split_ifs at h with hlow hhigh hgrad hneg
  · cases h
    -- the round trip time is above THigh, so that the quotient is below 1
    have hrtt : (c.tHigh.toNat : ℚ) ≤ rtt.toNat := by
      exact_mod_cast (UInt64.lt_iff_toNat_lt.mp hhigh).le
    have hquot : (c.tHigh.toNat : ℚ) / rtt.toNat ≤ 1 :=
      div_le_one_of_le₀ hrtt (Nat.cast_nonneg _)
    have hquot' : 0 ≤ (c.tHigh.toNat : ℚ) / rtt.toNat := by positivity
    have hcut : c.beta * (1 - c.tHigh.toNat / rtt.toNat) ≤ 1 :=
      mul_le_one₀ hbeta' (sub_nonneg.mpr hquot) (sub_le_self 1 hquot')
    have hcut' : 0 ≤ c.beta * (1 - c.tHigh.toNat / rtt.toNat) :=
      mul_nonneg hbeta (sub_nonneg.mpr hquot)
    exact ⟨sub_nonneg.mpr hcut, sub_le_self 1 hcut'⟩
  · cases h
    exact ⟨le_rfl, zero_le_one⟩
  · cases h
    exact ⟨not_lt.mp hneg, sub_le_self 1 (mul_nonneg hbeta (not_le.mp hgrad).le)⟩

theorem changeRates_inBounds (h : InBounds c q) (rtt : UInt64) (us : Bool) :
    InBounds c (changeRates c rtt us q) := by
  unfold changeRates
  dsimp only
  split
  · have hfits : c.limits.maxRate + (if q.incStage < 5 then c.rai else c.rhai) < 2 ^ 64 := by
      split
      · exact c.rai_fits
      · exact c.rhai_fits
    have hrate := h.curRate.increase hfits
    split
    · exact ⟨hrate, h.curRate⟩
    · exact ⟨hrate, hrate⟩
  · next factor hfactor =>
    obtain ⟨hge, hle⟩ := decreaseFactor_bounds hfactor
    have hrate := h.curRate.decrease hge hle
    split
    · exact ⟨hrate, h.curRate⟩
    · exact ⟨hrate, hrate⟩

theorem updateRateTimely_inBounds (h : InBounds c q) (a : Ack) (us : Bool) :
    InBounds c (updateRateTimely c a us q) := by
  have hchanged : InBounds c
      (if q.lastUpdateSeq ≠ 0 then changeRates c (a.now - a.ts) us q else q) := by
    split
    · exact changeRates_inBounds h _ us
    · exact h
  unfold updateRateTimely
  dsimp only
  generalize (if q.lastUpdateSeq ≠ 0 then changeRates c (a.now - a.ts) us q else q) = t
    at hchanged ⊢
  split
  · exact ⟨hchanged.rate, hchanged.curRate⟩
  · exact hchanged

theorem step_inBounds {a : Ack} {q' : State} (h : InBounds c q) (hstep : step c q a = some q') :
    InBounds c q' := by
  cases hstep
  unfold handleAckTimely
  split
  · exact updateRateTimely_inBounds h a false
  · exact h

end Timely

/-! ## DCTCP -/

namespace Dctcp

/-- The attributes of DCTCP. -/
structure Config where
  limits : Limits
  rai : Nat
  g : ℚ
  mtu : UInt32
  g_nonneg : 0 ≤ g
  g_le : g ≤ 1
  rai_fits : limits.maxRate + rai < 2 ^ 64

/-- `m_rate` and `qp->dctcp`. -/
structure State where
  rate : Nat
  lastUpdateSeq : UInt32
  caState : UInt32
  highSeq : UInt32
  alpha : ℚ
  ecnCnt : UInt32
  batchSizeOfAlpha : UInt32

/-- The queue pair as `AddQueuePair` leaves it. -/
def State.create (c : Config) : State :=
  { rate := c.limits.maxRate, lastUpdateSeq := 0, caState := 0, highSeq := 0, alpha := 1,
    ecnCnt := 0, batchSizeOfAlpha := 0 }

/-- The share of marked ACKs. The batch size is 0 where it wraps, and then `std::min` takes
1, which an infinity is above and a NaN not below. -/
def fraction (q : State) : ℚ :=
  if q.batchSizeOfAlpha = 0 then 1 else min 1 (q.ecnCnt.toNat / q.batchSizeOfAlpha.toNat)

/-- The number of packets in `bytes`, and one. The divisor is not 0. -/
def batchSize (c : Config) (bytes : UInt64) : UInt32 := (bytes / c.mtu.toUInt64 + 1).toUInt32

/-- The end of a batch: "update alpha". -/
def updateAlpha (c : Config) (a : Ack) (q : State) : State :=
  if q.lastUpdateSeq = 0 then
    { q with lastUpdateSeq := a.sndNxt.toUInt32, batchSizeOfAlpha := batchSize c a.sndNxt }
  else
    { q with
      alpha := (1 - c.g) * q.alpha + c.g * fraction q
      lastUpdateSeq := a.sndNxt.toUInt32
      ecnCnt := 0
      batchSizeOfAlpha := batchSize c (a.sndNxt - a.seq.toUInt64) }

/-- "Check cwr exit". -/
def exitCwr (a : Ack) (q : State) : State :=
  if q.caState = 1 ∧ q.highSeq < a.seq then { q with caState := 0 } else q

/-- "ECN and not in CWR". -/
def reduceRate (c : Config) (a : Ack) (q : State) : State :=
  if a.cnp ∧ q.caState = 0 then
    { q with rate := max c.limits.minRate (dataRate (q.rate * (1 - q.alpha / 2)))
             caState := 1
             highSeq := a.sndNxt.toUInt32 }
  else q

/-- "Additive inc". -/
def additiveInc (c : Config) (newBatch : Bool) (q : State) : State :=
  if q.caState = 0 ∧ newBatch then
    { q with rate := min c.limits.maxRate ((q.rate + c.rai) % 2 ^ 64) }
  else q

/-- With `m_mtu` 0, the batch size divides by zero. -/
def handleAckDctcp (c : Config) (a : Ack) (q : State) : Option State :=
  let q := { q with ecnCnt := q.ecnCnt + if a.cnp then 1 else 0 }
  let newBatch := decide (q.lastUpdateSeq < a.seq)
  if newBatch ∧ c.mtu = 0 then none
  else
    let q := if newBatch then updateAlpha c a q else q
    some (additiveInc c newBatch (reduceRate c a (exitCwr a q)))

def step (c : Config) (q : State) (a : Ack) : Option State := handleAckDctcp c a q

structure InBounds (c : Config) (q : State) : Prop where
  rate : c.limits.Within q.rate
  alpha : q.alpha ∈ Set.Icc (0 : ℚ) 1

variable {c : Config} {q : State}

theorem create_inBounds (c : Config) : InBounds c (State.create c) :=
  ⟨c.limits.within_max, zero_le_one, le_rfl⟩

theorem fraction_mem (q : State) : fraction q ∈ Set.Icc (0 : ℚ) 1 := by
  unfold fraction
  split
  · exact ⟨zero_le_one, le_rfl⟩
  · exact ⟨le_min zero_le_one (by positivity), min_le_left _ _⟩

/-- The new alpha lies between the old one and the share of marked ACKs. -/
theorem updateAlpha_inBounds (h : InBounds c q) (a : Ack) : InBounds c (updateAlpha c a q) := by
  unfold updateAlpha
  split
  · exact ⟨h.rate, h.alpha⟩
  · refine ⟨h.rate, ?_⟩
    have hconvex := convex_Icc (𝕜 := ℚ) (0 : ℚ) 1
    exact hconvex h.alpha (fraction_mem q) (sub_nonneg.mpr c.g_le) c.g_nonneg
      (sub_add_cancel 1 c.g)

theorem exitCwr_inBounds (h : InBounds c q) (a : Ack) : InBounds c (exitCwr a q) := by
  unfold exitCwr
  split
  · exact ⟨h.rate, h.alpha⟩
  · exact h

theorem reduceRate_inBounds (h : InBounds c q) (a : Ack) : InBounds c (reduceRate c a q) := by
  obtain ⟨hge, hle⟩ := h.alpha
  unfold reduceRate
  split
  · exact ⟨h.rate.decrease (by linarith) (by linarith), h.alpha⟩
  · exact h

theorem additiveInc_inBounds (h : InBounds c q) (newBatch : Bool) :
    InBounds c (additiveInc c newBatch q) := by
  unfold additiveInc
  split
  · exact ⟨h.rate.increase c.rai_fits, h.alpha⟩
  · exact h

theorem step_inBounds {a : Ack} {q' : State} (h : InBounds c q) (hstep : step c q a = some q') :
    InBounds c q' := by
  unfold step handleAckDctcp at hstep
  dsimp only at hstep
  split at hstep
  · cases hstep
  · cases hstep
    refine additiveInc_inBounds (reduceRate_inBounds (exitCwr_inBounds ?_ a) a) _
    have hcounted : InBounds c { q with ecnCnt := q.ecnCnt + if a.cnp then 1 else 0 } :=
      ⟨h.rate, h.alpha⟩
    split
    · exact updateAlpha_inBounds hcounted a
    · exact hcounted

end Dctcp

/-! ## Both schemes -/

/-- In every run of ACKs, every state is within the bounds. `UpdateRateTimely` also keeps
them when it is called with `us`, for a fast reaction. -/
theorem rates_inBounds (ct : Timely.Config) (cd : Dctcp.Config) (acks : List Ack) :
    Always (Timely.step ct)
        (fun q => Timely.InBounds ct q ∧
          ∀ a us, Timely.InBounds ct (Timely.updateRateTimely ct a us q))
        (Timely.State.create ct) acks ∧
      Always (Dctcp.step cd) (Dctcp.InBounds cd) (Dctcp.State.create cd) acks := by
  have htimely : Always (Timely.step ct) (Timely.InBounds ct) (Timely.State.create ct) acks :=
    always_of_invariant (fun _ _ _ h hstep => Timely.step_inBounds h hstep)
      (Timely.create_inBounds ct) acks
  have hdctcp : Always (Dctcp.step cd) (Dctcp.InBounds cd) (Dctcp.State.create cd) acks :=
    always_of_invariant (fun _ _ _ h hstep => Dctcp.step_inBounds h hstep)
      (Dctcp.create_inBounds cd) acks
  exact ⟨htimely.mono fun q h => ⟨h, fun a us => Timely.updateRateTimely_inBounds h a us⟩, hdctcp⟩

/-! ## With the attribute defaults, at 100 Gbit/s -/

def limits : Limits := { minRate := 100 * 10 ^ 6, maxRate := 100 * 10 ^ 9, le := by decide }

def timelyConfig : Timely.Config where
  limits
  rai := 5 * 10 ^ 6
  rhai := 50 * 10 ^ 6
  alpha := 7 / 8
  beta := 4 / 5
  tLow := 50000
  tHigh := 500000
  minRtt := 20000
  beta_nonneg := by norm_num
  beta_le := by norm_num
  minRtt_pos := by decide
  rai_fits := by decide
  rhai_fits := by decide

def dctcpConfig : Dctcp.Config where
  limits
  rai := 10 ^ 9
  g := 1 / 16
  mtu := 1000
  g_nonneg := by norm_num
  g_le := by norm_num
  rai_fits := by decide

/-- A round trip of 1 ms, twice THigh. -/
example : (run (Timely.step timelyConfig) (.create timelyConfig)
    [⟨1000, false, 0, 10000, 50000⟩, ⟨51000, false, 0, 1000000, 100000⟩]).map (·.rate) =
      some 60000000000 := by
  decide +kernel

/-- The first marked ACK halves the rate. -/
example : (run (Dctcp.step dctcpConfig) (.create dctcpConfig)
    [⟨1000, true, 0, 0, 50000⟩]).map (·.rate) = some 50000000000 := by
  decide +kernel

end Paraleon.Rdma.AckRates
