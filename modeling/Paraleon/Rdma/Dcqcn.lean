import Mathlib.Data.Rat.Floor
import Paraleon.Rdma.Hw

/-!
# The rate control of a sender

The DCQCN and DCQCN+ parts of `RdmaHw` for one queue pair: CNPs, the three timers of
`qp->mlx`, parameter changes, and the pacing of packets. For HPCC and HPCC-PINT the
rate that the feedback of an ACK leads to is left open.

Rates are in bit/s and times in ns. Doubles are rational numbers: the arithmetic is
exact, and a rate is cut to whole bit/s where it is stored. The order in which timers
fire is left open.
-/

namespace Paraleon.Rdma.Dcqcn

open Words

/-- `m_cc_mode`, with `m_dcqcnPlusEnabled`. -/
inductive Scheme where
  | dcqcn
  | dcqcnPlus
  | hpcc
  | hpccPint
deriving DecidableEq, Repr

/-- The attributes that stay as they are, and the line rate of the NIC. -/
structure Config where
  scheme : Scheme
  hw : RdmaHw
  intSize : Nat
  interframeGap : ℚ
  rateBound : Bool
  lineRate : Nat
  g : ℚ
  ecnClampTgtRate : Bool
  rpgThreshold : Nat
  alphaResumeInterval : ℚ
  dcqcnPlusMinTauUs : Nat
  dcqcnPlusTimerScale : ℚ
  dcqcnPlusAlphaTimerScale : ℚ

/-- The scheme runs with `m_cc_mode` 1. -/
def Config.mlxMode (c : Config) : Bool := c.scheme = .dcqcn || c.scheme = .dcqcnPlus

/-- The attributes that `ChangeParameters` sets. -/
structure Params where
  rateOnFirstCnp : ℚ
  rpgTimeReset : ℚ
  rateDecreaseInterval : ℚ
  minDecFac : ℚ
  rai : Nat
  rhai : Nat
  minRate : Nat
  rpgGd : Nat
  dceTcpG : Nat
  initialAlphaValue : ℚ
deriving DecidableEq, Repr

/-- The attribute defaults. -/
def Params.default : Params :=
  { rateOnFirstCnp := 1, rpgTimeReset := 1500, rateDecreaseInterval := 4, minDecFac := 1 / 2,
    rai := 5 * 10 ^ 6, rhai := 50 * 10 ^ 6, minRate := 100 * 10 ^ 6, rpgGd := 11, dceTcpG := 1019,
    initialAlphaValue := 1023 }

/-- The timers: `m_eventUpdateAlpha`, `m_eventDecreaseRate` and `m_rpTimer`. -/
inductive Kind where
  | updateAlpha
  | decreaseRate
  | rpTimer
deriving DecidableEq, Repr

/-- A pending event of the simulator, with the delay it was scheduled for. -/
structure Timer where
  id : Nat
  kind : Kind
  delay : Int
deriving DecidableEq, Repr

/-- `qp->mlx`. `handle` are the three event handles. -/
structure Mlx where
  targetRate : Nat
  alpha : ℚ
  alphaCnpArrived : Bool
  firstCnp : Bool
  decreaseCnpArrived : Bool
  rpTimeStage : Nat
  alphaInterval : ℚ
  recoveryInterval : ℚ
  handle : Kind → Option Nat

structure Sender where
  params : Params
  transport : RdmaQueuePair
  lastPktSize : Nat
  nextAvail : ℚ
  mlx : Mlx
  inQpMap : Bool
  timers : List Timer
  nextId : Nat

/-- A computed rate as it is stored: a negative one wraps. -/
def dataRate (x : ℚ) : Nat := if x < 0 then sub64 0 ⌊-x⌋.toNat else ⌊x⌋.toNat

/-- `MicroSeconds` of a double, which is cut to whole us. -/
def microSeconds (us : ℚ) : Int := 1000 * ⌊us⌋

/-- `DataRate::CalculateTxTime`, in ns. -/
def calculateTxTime (rate bytes : Nat) : ℚ := bytes * 8 * 10 ^ 9 / rate

namespace Sender

/-- `AddQueuePair`, with the default parameters. -/
def create (c : Config) (size : UInt64) (win : UInt32) (varWin : Bool) : Sender where
  params := .default
  transport := { size := size.toNat, sndNxt := 0, sndUna := 0, win := win.toNat, varWin,
                 rate := c.lineRate, maxRate := c.lineRate }
  lastPktSize := 0
  nextAvail := 0
  mlx := { targetRate := if c.mlxMode then c.lineRate else 0, alpha := 1,
           alphaCnpArrived := false, firstCnp := true, decreaseCnpArrived := false,
           rpTimeStage := 0, alphaInterval := 55, recoveryInterval := 55,
           handle := fun _ => none }
  inQpMap := true
  timers := []
  nextId := 0

def rate (s : Sender) : Nat := s.transport.rate

/-- An assignment to `m_rate`. -/
def setRate (s : Sender) (rate : Nat) : Sender :=
  { s with transport := s.transport.changeRate rate }

/-! ## Pacing -/

/-- `PktSent` at time `now`. -/
def pktSent (c : Config) (now : ℚ) (size : Nat) (s : Sender) : Sender :=
  let rate := if c.rateBound then s.rate else s.transport.maxRate
  { s with lastPktSize := size,
           nextAvail := now + (c.interframeGap + calculateTxTime rate size) }

/-- The next packet of the queue pair: `GetNxtPacket` and `PktSent`. -/
def send (c : Config) (now : ℚ) (s : Sender) : Option Sender :=
  if 0 < s.transport.getBytesLeft then
    let (p, transport) := getNxtPacket c.hw s.transport
    some (pktSent c now (p.payload + (6 + c.intSize) + 8 + 20 + 14) { s with transport })
  else none

/-- `ChangeRate`: the next send time moves with the time of the last packet. -/
def changeRate (rate : Nat) (s : Sender) : Sender :=
  { s with nextAvail := s.nextAvail + calculateTxTime rate s.lastPktSize
                          - calculateTxTime s.rate s.lastPktSize }.setRate rate

/-! ## Timers -/

def schedule (kind : Kind) (delay : Int) (s : Sender) : Sender :=
  { s with timers := s.timers ++ [{ id := s.nextId, kind, delay }], nextId := s.nextId + 1,
           mlx := { s.mlx with handle := Function.update s.mlx.handle kind (some s.nextId) } }

def cancel (kind : Kind) (s : Sender) : Sender :=
  { s with timers := s.timers.filter fun t => s.mlx.handle kind ≠ some t.id }

def scheduleUpdateAlphaMlx (c : Config) (s : Sender) : Sender :=
  if c.scheme = .dcqcnPlus then s.schedule .updateAlpha (microSeconds s.mlx.alphaInterval)
  else s.schedule .updateAlpha (microSeconds c.alphaResumeInterval)

/-- `delta` is in ns. -/
def scheduleDecreaseRateMlx (delta : Int) (s : Sender) : Sender :=
  s.schedule .decreaseRate (microSeconds s.params.rateDecreaseInterval + delta)

def updateAlphaMlx (c : Config) (s : Sender) : Sender :=
  if c.scheme = .dcqcnPlus then
    scheduleUpdateAlphaMlx c
      { s with mlx := { s.mlx with alpha := max 0 ((1 - c.g) * s.mlx.alpha) } }
  else
    let decayed : ℚ := s.params.dceTcpG / 2 ^ 10 * s.mlx.alpha
    let alpha : ℚ := if s.mlx.alphaCnpArrived then decayed + 2 ^ 10 - s.params.dceTcpG else decayed
    scheduleUpdateAlphaMlx c { s with mlx := { s.mlx with alpha, alphaCnpArrived := false } }

/-- The DCQCN+ part of `cnp_received_mlx`. -/
def cnpReceivedPlus (c : Config) (feedbackTauUs : Nat) (s : Sender) : Sender :=
  let currentRate := s.rate
  let alpha := if s.mlx.firstCnp then s.params.initialAlphaValue else s.mlx.alpha
  let alpha := min 1 ((1 - c.g) * alpha + c.g)
  let packetBytes := max (if c.hw.mtu = 0 then 1000 else c.hw.mtu)
    (if s.lastPktSize = 0 then 1000 else s.lastPktSize)
  let packetTxTimeUs : ℚ :=
    if 0 < currentRate then (packetBytes : ℚ) * 8 * 10 ^ 6 / currentRate else 0
  let resetIntervalUs : ℚ := max (max c.dcqcnPlusMinTauUs feedbackTauUs : Nat) packetTxTimeUs
  let s := { s with mlx := { s.mlx with
    alpha
    alphaInterval := max 1 (c.dcqcnPlusAlphaTimerScale * resetIntervalUs)
    recoveryInterval := max 1 (c.dcqcnPlusTimerScale * resetIntervalUs)
    targetRate := currentRate } }
  let newRateBps : ℚ := max (s.params.minRate : ℚ) ((currentRate : ℚ) * (1 - alpha / 2))
  let s := s.changeRate (dataRate (max 1 newRateBps))
  let s := { s with mlx := { s.mlx with rpTimeStage := 0, firstCnp := false } }
  let s := (s.cancel .updateAlpha).cancel .rpTimer
  (scheduleUpdateAlphaMlx c s).schedule .rpTimer (microSeconds s.mlx.recoveryInterval)

/-- The DCQCN part of `cnp_received_mlx`. -/
def cnpReceivedDcqcn (c : Config) (s : Sender) : Sender :=
  let s := { s with mlx := { s.mlx with alphaCnpArrived := true, decreaseCnpArrived := true } }
  if s.mlx.firstCnp then
    let s := { s with mlx := { s.mlx with alpha := s.params.initialAlphaValue,
                                          alphaCnpArrived := false } }
    -- 1 ns more than the interval: an alpha update due at the same time comes first
    let s := scheduleDecreaseRateMlx 1 (scheduleUpdateAlphaMlx c s)
    let rate := dataRate (s.params.rateOnFirstCnp * s.rate)
    let s := s.setRate rate
    { s with mlx := { s.mlx with targetRate := rate, firstCnp := false } }
  else s

def cnpReceivedMlx (c : Config) (feedbackTauUs : Nat) (s : Sender) : Sender :=
  if c.scheme = .dcqcnPlus then cnpReceivedPlus c feedbackTauUs s else cnpReceivedDcqcn c s

def checkRateDecreaseMlx (c : Config) (s : Sender) : Sender :=
  let s := scheduleDecreaseRateMlx 0 s
  if s.mlx.decreaseCnpArrived then
    let clamp := c.ecnClampTgtRate || s.mlx.rpTimeStage != 0
    let targetRate := if clamp then s.rate else s.mlx.targetRate
    let rate := max s.params.minRate (max (dataRate (s.params.minDecFac * s.rate))
      (dataRate (s.rate * (1 - s.mlx.alpha / 2 ^ s.params.rpgGd))))
    let s := s.setRate rate
    let s := { s with mlx := { s.mlx with targetRate, rpTimeStage := 0,
                                          decreaseCnpArrived := false } }
    (s.cancel .rpTimer).schedule .rpTimer (microSeconds s.params.rpgTimeReset)
  else s

/-- `m_rate / 2 + m_targetRate / 2`, each half cut to whole bit/s. -/
def halfWay (s : Sender) : Nat := s.rate / 2 + s.mlx.targetRate / 2

def setTargetRate (s : Sender) (targetRate : Nat) : Sender :=
  { s with mlx := { s.mlx with targetRate } }

def fastRecoveryMlx (s : Sender) : Sender := s.setRate s.halfWay

/-- The target rate of DCQCN+ after a step. -/
def increasedTarget (c : Config) (stepBps : ℚ) (s : Sender) : Nat :=
  dataRate (max 1 (min c.lineRate (s.mlx.targetRate + stepBps)))

def activeIncreaseMlx (c : Config) (s : Sender) : Sender :=
  if c.scheme = .dcqcnPlus then
    let stepBps : ℚ :=
      if 1 / 10 < s.mlx.alpha then min (s.rate / 5) (c.lineRate / 50)
      else min (s.rate / 10) (c.lineRate / 100)
    let s := s.setTargetRate (increasedTarget c stepBps s)
    s.changeRate s.halfWay
  else
    let s := s.setTargetRate (min (s.mlx.targetRate + s.params.rai) c.lineRate)
    s.setRate s.halfWay

/-- The step scale of DCQCN+ is computed on `uint32_t`, where the subtraction wraps. -/
def stepScale (c : Config) (s : Sender) : Nat :=
  max 1 (u32 (sub32 s.mlx.rpTimeStage (u32 (4 * c.rpgThreshold)) + 1))

def hyperIncreaseMlx (c : Config) (s : Sender) : Sender :=
  if c.scheme = .dcqcnPlus then
    let stepBps : ℚ := min s.rate (s.stepScale c * c.lineRate / 100)
    let s := s.setTargetRate (increasedTarget c stepBps s)
    s.changeRate s.halfWay
  else
    let s := s.setTargetRate (min (s.mlx.targetRate + s.params.rhai) c.lineRate)
    s.setRate s.halfWay

def rateIncEventMlx (c : Config) (s : Sender) : Sender :=
  if s.mlx.rpTimeStage < c.rpgThreshold then s.fastRecoveryMlx
  else if s.mlx.rpTimeStage = c.rpgThreshold then activeIncreaseMlx c s
  else hyperIncreaseMlx c s

def rateIncEventTimerMlx (c : Config) (s : Sender) : Sender :=
  let delay := if c.scheme = .dcqcnPlus then s.mlx.recoveryInterval else s.params.rpgTimeReset
  let s := rateIncEventMlx c (s.schedule .rpTimer (microSeconds delay))
  { s with mlx := { s.mlx with rpTimeStage := u32 (s.mlx.rpTimeStage + 1) } }

/-- The function that a timer runs. -/
def fire (c : Config) : Kind → Sender → Sender
  | .updateAlpha => updateAlphaMlx c
  | .decreaseRate => checkRateDecreaseMlx c
  | .rpTimer => rateIncEventTimerMlx c

/-! ## Packets from the network -/

def qpComplete (c : Config) (s : Sender) : Sender :=
  let s :=
    if c.mlxMode then ((s.cancel .updateAlpha).cancel .decreaseRate).cancel .rpTimer else s
  { s with inQpMap := false }

/-- `ReceiveCnp`. A rate of zero is set to the line rate first. -/
def receiveCnp (c : Config) (qfb : Nat) (s : Sender) : Sender :=
  if s.inQpMap = false then s
  else
    let s :=
      if s.rate = 0 then
        let s := s.setRate c.lineRate
        if c.mlxMode then s.setTargetRate c.lineRate else s
      else s
    if c.mlxMode then cnpReceivedMlx c (if c.scheme = .dcqcnPlus then qfb else 0) s else s

/-- An ACK or NACK. `feedback` is the rate that `HandleAckHp` or `HandleAckHpPint`
passes to `ChangeRate`, if it calls it. -/
structure Ack where
  isNack : Bool
  seq : Nat
  cnp : Bool
  cnpTau : Nat
  feedback : Option Nat
deriving DecidableEq, Repr

/-- The acknowledgement at the start of `ReceiveAck`. -/
def acknowledge (c : Config) (a : Ack) (s : Sender) : Option Sender :=
  if c.hw.ackInterval = 0 then some s
  else
    (acknowledgeSeq c.hw a.seq s.transport).map fun transport =>
      let s := { s with transport }
      if transport.isFinished then qpComplete c s else s

/-- `ReceiveAck`. An ACK that completes the flow is processed to its end. -/
def receiveAck (c : Config) (a : Ack) (s : Sender) : Option Sender :=
  if s.inQpMap = false then some s
  else
    (acknowledge c a s).map fun s =>
      let s := if a.isNack then { s with transport := s.transport.recoverQueue } else s
      let s := if a.cnp && c.mlxMode then cnpReceivedMlx c a.cnpTau s else s
      if c.mlxMode then s else a.feedback.elim s s.changeRate

/-! ## Parameters -/

end Sender

/-- One entry of the map that `ChangeParameters` is called with. Rates are in Mb/s. -/
inductive Parameter where
  | rateToSetOnFirstCnp (x : ℚ)
  | rpgMinDecFac (x : ℚ)
  | timeReset (x : ℚ)
  | minTimeBetweenCnps (x : ℚ)
  | aiRate (n : Nat)
  | haiRate (n : Nat)
  | rpgMinRate (n : Nat)
  | rpgGd (n : Nat)
  | dceTcpG (n : Nat)
  | initialAlphaValue (n : Nat)
deriving DecidableEq, Repr

def Params.change (p : Params) : Parameter → Params
  | .rateToSetOnFirstCnp x => { p with rateOnFirstCnp := x }
  | .rpgMinDecFac x => { p with minDecFac := x }
  | .timeReset x => { p with rpgTimeReset := x }
  | .minTimeBetweenCnps x => { p with rateDecreaseInterval := x }
  | .aiRate n => { p with rai := n * 10 ^ 6 }
  | .haiRate n => { p with rhai := n * 10 ^ 6 }
  | .rpgMinRate n => { p with minRate := n * 10 ^ 6 }
  | .rpgGd n => { p with rpgGd := n }
  | .dceTcpG n => { p with dceTcpG := n }
  | .initialAlphaValue n => { p with initialAlphaValue := n }

/-- The ranges of `ALL_PARAMETER_SPECS`. -/
def Parameter.InRange : Parameter → Prop
  | .rateToSetOnFirstCnp x | .rpgMinDecFac x => 3 / 10 ≤ x ∧ x ≤ 8 / 10
  | .timeReset x => 50 ≤ x ∧ x ≤ 600
  | .minTimeBetweenCnps x => 4 ≤ x ∧ x ≤ 128
  | .aiRate n => 5 ≤ n ∧ n ≤ 100
  | .haiRate n => 30 ≤ n ∧ n ≤ 600
  | .rpgMinRate n => 1 ≤ n ∧ n ≤ 5000
  | .rpgGd n => 11 ≤ n ∧ n ≤ 13
  | .dceTcpG n => 960 ≤ n ∧ n ≤ 1020
  | .initialAlphaValue n => 1 ≤ n ∧ n ≤ 1023

inductive Event where
  | send (now : ℚ)
  | ack (a : Sender.Ack)
  | cnp (qfb : Nat)
  /-- A pending timer fires. -/
  | timer (id : Nat)
  | changeParameters (ps : List Parameter)

open Sender in
def step (c : Config) (s : Sender) : Event → Option Sender
  | .send now => send c now s
  | .ack a => receiveAck c a s
  | .cnp qfb => some (receiveCnp c qfb s)
  | .timer id =>
    (s.timers.find? fun t => t.id = id).map fun t =>
      fire c t.kind { s with timers := s.timers.filter fun t => t.id ≠ id }
  | .changeParameters ps => some { s with params := ps.foldl Params.change s.params }

/-! ## Acknowledgements -/

theorem acknowledgeSeq_rate {hw : RdmaHw} {seq : Nat} {q q' : RdmaQueuePair}
    (h : acknowledgeSeq hw seq q = some q') : q'.rate = q.rate := by
  have hack (ack : Nat) : (q.acknowledge ack).rate = q.rate := by
    unfold RdmaQueuePair.acknowledge
    split <;> rfl
  unfold acknowledgeSeq at h
  split_ifs at h
  · cases h
    exact hack _
  · cases h
    exact hack _

/-- An ACK touches a queue pair through the transport, `QpComplete`, a CNP of the mlx
schemes and `ChangeRate` of the others. What these keep, it keeps. -/
theorem receiveAck_keeps {c : Config} {a : Sender.Ack} {s t : Sender} {P : Sender → Prop}
    (htransport : ∀ s q, P s → q.rate = s.rate → P { s with transport := q })
    (hcomplete : ∀ s, P s → P (Sender.qpComplete c s))
    (hcnp : c.mlxMode = true → ∀ s tau, P s → P (Sender.cnpReceivedMlx c tau s))
    (hchange : c.mlxMode = false → ∀ s rate, P s → P (s.changeRate rate))
    (hs : P s) (hstep : Sender.receiveAck c a s = some t) : P t := by
  cases hmap : s.inQpMap with
  | false =>
    rw [Sender.receiveAck, if_pos hmap] at hstep
    cases hstep
    exact hs
  | true =>
    rw [Sender.receiveAck, if_neg (by simp [hmap])] at hstep
    obtain ⟨s₁, hs₁, rfl⟩ := Option.map_eq_some_iff.mp hstep
    -- the transport first, and completion if the ACK was the last
    have h₁ : P s₁ := by
      unfold Sender.acknowledge at hs₁
      split at hs₁
      · cases hs₁
        exact hs
      · obtain ⟨q, hq, rfl⟩ := Option.map_eq_some_iff.mp hs₁
        have hq' : P { s with transport := q } := htransport s q hs (acknowledgeSeq_rate hq)
        dsimp only
        split
        · exact hcomplete _ hq'
        · exact hq'
    -- then the rollback of a NACK
    have h₂ : P (if a.isNack = true then { s₁ with transport := s₁.transport.recoverQueue }
        else s₁) := by
      split
      · exact htransport s₁ _ h₁ rfl
      · exact h₁
    dsimp only
    -- the mlx schemes only see the CNP bit, the others may set a rate
    cases hmode : c.mlxMode with
    | true =>
      rw [if_pos rfl, Bool.and_true]
      split
      · exact hcnp hmode _ _ h₂
      · exact h₂
    | false =>
      rw [if_neg Bool.false_ne_true, Bool.and_false, if_neg Bool.false_ne_true]
      cases a.feedback with
      | none => exact h₂
      | some rate => exact hchange hmode _ rate h₂

/-! ## Configurations -/

/-- DCQCN with the attribute defaults on a NIC of 100 Gb/s, with an ACK for every
packet. -/
def dcqcnConfig : Config where
  scheme := .dcqcn
  hw := .shipped
  intSize := 8
  interframeGap := 0
  rateBound := true
  lineRate := 100 * 10 ^ 9
  g := 1 / 16
  ecnClampTgtRate := false
  rpgThreshold := 5
  alphaResumeInterval := 55
  dcqcnPlusMinTauUs := 50
  dcqcnPlusTimerScale := 2
  dcqcnPlusAlphaTimerScale := 1

/-- DCQCN+ on the same NIC. -/
def dcqcnPlusConfig : Config :=
  { dcqcnConfig with
    scheme := .dcqcnPlus
    hw := { RdmaHw.shipped with dcqcnPlusEnabled := true } }

end Paraleon.Rdma.Dcqcn
