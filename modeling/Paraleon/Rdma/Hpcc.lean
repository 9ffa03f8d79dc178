import Paraleon.Rdma.AckRates
import Paraleon.Wire.IntHop

/-!
# The rates of HPCC

With every ACK come the INT records of the hops on the path. `UpdateRateHp` compares each
of them with the record that the queue pair has of the hop, and from the utilisations it
sets one rate for the path, or one for each hop, of which the smallest counts.

Doubles are rational numbers, and `none` is a division by zero. The divisors are the time
between two records, the line rate of the hop, the window, and the utilisation over its
target where a rate is divided by it.
-/

namespace Paraleon.Rdma.Hpcc

open AckRates (Limits)
open Dcqcn (dataRate)
open Function Runs Wire

/-- An index below `IntHeader::maxHop`. -/
abbrev Hop := Fin 5

/-- The attributes of HPCC, `IntHop::multi`, and what is fixed in a queue pair. -/
structure Config where
  limits : Limits
  rai : Nat
  win : UInt32
  baseRtt : UInt64
  targetUtil : ℚ
  miThresh : UInt32
  multipleRate : Bool
  sampleFeedback : Bool
  fastReact : Bool
  multi : UInt32
  win_pos : 0 < win
  baseRtt_pos : 0 < baseRtt
  targetUtil_pos : 0 < targetUtil

/-- `hopState`. -/
structure HopState where
  u : ℚ
  rc : Nat
  incStage : UInt32

/-- `m_rate` and `qp->hp`. -/
structure State where
  rate : Nat
  lastUpdateSeq : UInt32
  curRate : Nat
  hop : Hop → IntHop
  incStage : UInt32
  u : ℚ
  hopState : Hop → HopState

/-- The queue pair as `AddQueuePair` leaves it. Its records are not initialised, and
its rates of the hops are set in multi-rate mode only. -/
def State.create (c : Config) (hop : Hop → IntHop) : State where
  rate := c.limits.maxRate
  lastUpdateSeq := 0
  curRate := c.limits.maxRate
  hop
  incStage := 0
  u := 1
  hopState := fun _ =>
    { u := 1, rc := if c.multipleRate then c.limits.maxRate else 0, incStage := 0 }

/-- An ACK with the records of a path of at most `maxHop` switches of known rates, and the
`snd_nxt` of the queue pair when it is handled. `unset` is what `new_incStage` holds when
it is not assigned. -/
structure Ack where
  seq : UInt32
  sndNxt : UInt64
  nhop : Nat
  hop : Hop → IntHop
  unset : UInt32
  nhop_le : nhop ≤ 5
  known : ∀ i : Hop, i.val < nhop → (hop i).lineRate < 5

/-- The loops over the hops go through these. -/
def Ack.hops (a : Ack) : List Hop := (List.finRange 5).filter fun i => i.val < a.nhop

def divide (x y : ℚ) : Option ℚ := if y = 0 then none else some (x / y)

/-! ## The first loop: utilisations -/

/-- `u`, from the record `old` of the queue pair and that of the ACK. -/
def utilisation (c : Config) (old new : IntHop) : Option ℚ := do
  let duration : ℚ := new.getTimeDelta old / 10 ^ 9
  let txRate ← divide (new.getBytesDelta c.multi old * 8) duration
  let sent ← divide txRate new.getLineRate
  let qlen := min (new.getQlen c.multi) (old.getQlen c.multi)
  let queue ← divide (qlen * c.limits.maxRate) new.getLineRate
  let queued ← divide queue c.win.toNat
  some (sent + queued)

/-- The moving average over a base RTT, `tau` of which has the utilisation `new`. -/
def average (c : Config) (old new : ℚ) (tau : Nat) : ℚ :=
  let tau := if c.baseRtt.toNat < tau then c.baseRtt.toNat else tau
  (old * (c.baseRtt.toNat - tau : Nat) + new * tau) / c.baseRtt.toNat

/-- With `m_sampleFeedback`, a fast reaction skips the hops without a queue. -/
def isLookedAt (c : Config) (a : Ack) (fast : Bool) (i : Hop) : Bool :=
  !(c.sampleFeedback && (a.hop i).getQlen c.multi == 0 && fast)

/-- The locals of the first loop, `maxU` for `U`, and what it changes in the queue pair. -/
structure Loop where
  maxU : ℚ
  dt : Nat
  updated : Hop → Bool
  hop : Hop → IntHop
  hopState : Hop → HopState

def Loop.start (q : State) : Loop :=
  { maxU := 0, dt := 0, updated := fun _ => false, hop := q.hop, hopState := q.hopState }

def Loop.updatedAny (s : Loop) : Bool := (List.finRange 5).any s.updated

/-- One iteration. A hop comes up once, so that its record and its state are still those
of the queue pair `q` before the loop. -/
def measureHop (c : Config) (a : Ack) (fast : Bool) (q : State) (s : Loop) (i : Hop) :
    Option Loop :=
  if isLookedAt c a fast i then
    (utilisation c (q.hop i) (a.hop i)).map fun u =>
      let tau := (a.hop i).getTimeDelta (q.hop i)
      let s := { s with updated := update s.updated i true, hop := update s.hop i (a.hop i) }
      if c.multipleRate then
        let state := q.hopState i
        { s with hopState := update s.hopState i { state with u := average c state.u u tau } }
      else if s.maxU < u then { s with maxU := u, dt := tau }
      else s
  else some s

/-! ## The new rates -/

def clamp (l : Limits) (rate : Nat) : Nat := min l.maxRate (max l.minRate rate)

/-- `new_rate` and `new_incStage` from a utilisation, or those of one hop. -/
def react (c : Config) (u : ℚ) (rate : Nat) (incStage : UInt32) : Option (Nat × UInt32) := do
  let maxC ← divide u c.targetUtil
  if 1 ≤ maxC ∨ c.miThresh ≤ incStage then
    let decreased ← divide rate maxC
    some (clamp c.limits (dataRate decreased + c.rai), 0)
  else some (clamp c.limits (rate + c.rai), incStage + 1)

/-- One rate for the path. -/
def reactAggregate (c : Config) (fast : Bool) (s : Loop) (q : State) : Option State :=
  let q := { q with hop := s.hop }
  if s.updatedAny then
    let u := average c q.u s.maxU s.dt
    (react c u q.curRate q.incStage).map fun (rate, incStage) =>
      let q := { q with u, rate }
      if fast then q else { q with curRate := rate, incStage }
  else some q

/-- The locals of the second loop: `new_rate` and the arrays of the hops. -/
structure PerHop where
  newRate : Nat
  rates : Hop → Nat
  incStages : Hop → UInt32

def reactHop (c : Config) (s : Loop) (r : PerHop) (i : Hop) : Option PerHop :=
  let state := s.hopState i
  if s.updated i then
    (react c state.u state.rc state.incStage).map fun (rate, incStage) =>
      { newRate := min r.newRate rate, rates := update r.rates i rate
        incStages := update r.incStages i incStage }
  else some { r with newRate := min r.newRate state.rc }

/-- A rate for each hop. `new_incStage` is not assigned here. -/
def reactPerHop (c : Config) (a : Ack) (fast : Bool) (s : Loop) (q : State) : Option State :=
  let q := { q with hop := s.hop, hopState := s.hopState }
  let start : PerHop :=
    { newRate := c.limits.maxRate, rates := fun _ => 0, incStages := fun _ => 0 }
  (run (reactHop c s) start a.hops).map fun r =>
    let q := if s.updatedAny then { q with rate := r.newRate } else q
    if fast then q
    else
      let q := if s.updatedAny then { q with curRate := r.newRate, incStage := a.unset } else q
      { q with hopState := fun i =>
          if s.updated i then { q.hopState i with rc := r.rates i, incStage := r.incStages i }
          else q.hopState i }

def setRates (c : Config) (a : Ack) (fast : Bool) (q : State) (s : Loop) : Option State :=
  if c.multipleRate then reactPerHop c a fast s q else reactAggregate c fast s q

/-! ## ACKs -/

/-- A full update goes on to the next RTT. -/
def setLastUpdateSeq (a : Ack) (fast : Bool) (q : State) : State :=
  let nextSeq := a.sndNxt.toUInt32
  if fast = false ∧ q.lastUpdateSeq < nextSeq then { q with lastUpdateSeq := nextSeq } else q

/-- The records of the first RTT are only stored. -/
def updateRateHp (c : Config) (a : Ack) (fast : Bool) (q : State) : Option State :=
  if q.lastUpdateSeq = 0 then
    some { q with lastUpdateSeq := a.sndNxt.toUInt32
                  hop := fun i => if i.val < a.nhop then a.hop i else q.hop i }
  else
    ((run (measureHop c a fast q) (Loop.start q) a.hops).bind (setRates c a fast q)).map
      (setLastUpdateSeq a fast)

def fastReactHp (c : Config) (a : Ack) (q : State) : Option State :=
  if c.fastReact then updateRateHp c a true q else some q

def handleAckHp (c : Config) (a : Ack) (q : State) : Option State :=
  if q.lastUpdateSeq < a.seq then updateRateHp c a false q else fastReactHp c a q

def step (c : Config) (q : State) (a : Ack) : Option State := handleAckHp c a q

end Paraleon.Rdma.Hpcc
