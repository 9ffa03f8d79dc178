import Mathlib.Tactic.Positivity
import Mathlib.Tactic.Ring
import Paraleon.Library.Runs
import Paraleon.Rdma.Dcqcn

/-!
# Pacing of a queue pair

`ChangeRate` moves `m_nextAvail` from the rate that was to the rate that is. What it
does not touch is the time that the rate is added to, `paceBase`: the time of the last
send and the interframe gap. An assignment to `m_rate` beside `ChangeRate` shifts it.

Of the schemes whose rates go through `ChangeRate`, DCQCN+ has two such assignments:
`FastRecoveryMlx`, whose siblings `ActiveIncreaseMlx` and `HyperIncreaseMlx` call
`ChangeRate`, and the lazy initialization in `ReceiveCnp`, which the other schemes
share. `paced_iff` says that these are the only ones.
-/

namespace Paraleon.Rdma.Dcqcn

open Runs

/-! ## A queue pair and its last send -/

/-- A sender with the time of its last send. -/
structure Clocked where
  sender : Sender
  lastSend : Option ℚ

def Event.sendTime : Event → Option ℚ
  | .send now => some now
  | .ack _ | .cnp _ | .timer _ | .changeParameters _ => none

def clockedStep (c : Config) (s : Clocked) (e : Event) : Option Clocked :=
  (step c s.sender e).map fun sender => { sender, lastSend := e.sendTime.or s.lastSend }

def Clocked.create (c : Config) (size : UInt64) (win : UInt32) (varWin : Bool) : Clocked :=
  { sender := .create c size win varWin, lastSend := none }

/-- The next send time is the one that the current rate prescribes for the last packet. -/
def OnPace (c : Config) (s : Clocked) : Prop :=
  ∀ now ∈ s.lastSend, s.sender.nextAvail =
    now + c.interframeGap + calculateTxTime s.sender.rate s.sender.lastPktSize

/-- After the first send, no step changes the rate beside `ChangeRate`: fast recovery
finds the rate where it takes it, and a CNP does not find a rate of zero. -/
def NoDirectChange (c : Config) (s : Clocked) (e : Event) : Prop :=
  s.lastSend.isSome → match e with
  | .timer id => ∀ t ∈ s.sender.timers.find? fun t => t.id = id,
      t.kind = .rpTimer → s.sender.mlx.rpTimeStage < c.rpgThreshold →
        s.sender.rate / 2 + s.sender.mlx.targetRate / 2 = s.sender.rate
  | .cnp _ => s.sender.inQpMap = true → s.sender.rate = 0 → c.lineRate = 0
  | .send _ | .ack _ | .changeParameters _ => True

/-! ## What the rate is added to -/

/-- The time that the transmission time at the current rate is added to. -/
def paceBase (s : Sender) : ℚ := s.nextAvail - calculateTxTime s.rate s.lastPktSize

/-- `t` is paced from the same time as `s`, for a packet of the same size. -/
structure SamePace (s t : Sender) : Prop where
  base : paceBase t = paceBase s
  size : t.lastPktSize = s.lastPktSize

section Pace

variable {c : Config} {s t u : Sender}

theorem SamePace.refl (s : Sender) : SamePace s s := ⟨rfl, rfl⟩

theorem SamePace.trans (h : SamePace s t) (h' : SamePace t u) : SamePace s u :=
  ⟨h'.base.trans h.base, h'.size.trans h.size⟩

theorem calculateTxTime_inj {r r' bytes : Nat} (hbytes : 0 < bytes)
    (h : calculateTxTime r bytes = calculateTxTime r' bytes) : r = r' := by
  have hbits : (bytes * 8 * 10 ^ 9 : ℚ) ≠ 0 := by positivity
  unfold calculateTxTime at h
  rw [div_eq_mul_inv, div_eq_mul_inv] at h
  exact_mod_cast inv_injective (mul_left_cancel₀ hbits h)

/-- `ChangeRate` keeps what the rate is added to. -/
theorem changeRate_samePace (rate : Nat) (s : Sender) : SamePace s (s.changeRate rate) := by
  refine ⟨?_, rfl⟩
  show s.nextAvail + calculateTxTime rate s.lastPktSize - calculateTxTime s.rate s.lastPktSize
    - calculateTxTime rate s.lastPktSize = s.nextAvail - calculateTxTime s.rate s.lastPktSize
  ring

/-- A direct assignment keeps it only when it assigns the rate that is there. -/
theorem setRate_paceBase {rate : Nat} (hsize : 0 < s.lastPktSize) :
    paceBase (s.setRate rate) = paceBase s ↔ rate = s.rate := by
  constructor
  · intro h
    have htx : calculateTxTime rate s.lastPktSize = calculateTxTime s.rate s.lastPktSize :=
      sub_right_injective h
    exact calculateTxTime_inj hsize htx
  · intro h
    rw [h]
    rfl

theorem schedule_samePace (k : Kind) (delay : Int) (s : Sender) :
    SamePace s (s.schedule k delay) :=
  ⟨rfl, rfl⟩

theorem scheduleUpdateAlphaMlx_samePace : SamePace s (Sender.scheduleUpdateAlphaMlx c s) := by
  unfold Sender.scheduleUpdateAlphaMlx
  split
  · exact schedule_samePace _ _ s
  · exact schedule_samePace _ _ s

theorem updateAlphaMlx_samePace : SamePace s (Sender.updateAlphaMlx c s) := by
  unfold Sender.updateAlphaMlx
  dsimp only
  split
  · refine .trans ?_ scheduleUpdateAlphaMlx_samePace
    exact ⟨rfl, rfl⟩
  · refine .trans ?_ scheduleUpdateAlphaMlx_samePace
    exact ⟨rfl, rfl⟩

theorem cnpReceivedPlus_samePace {tau : Nat} : SamePace s (Sender.cnpReceivedPlus c tau s) := by
  unfold Sender.cnpReceivedPlus
  dsimp only
  refine .trans ?_ (schedule_samePace _ _ _)
  refine .trans ?_ scheduleUpdateAlphaMlx_samePace
  exact .trans (.trans ⟨rfl, rfl⟩ (changeRate_samePace _ _)) ⟨rfl, rfl⟩

/-- Of the rate increases of DCQCN+, only fast recovery assigns the rate. -/
theorem rateIncEventMlx_paceBase (hscheme : c.scheme = .dcqcnPlus) (hsize : 0 < s.lastPktSize) :
    paceBase (Sender.rateIncEventMlx c s) = paceBase s ↔
      (s.mlx.rpTimeStage < c.rpgThreshold → s.halfWay = s.rate) := by
  unfold Sender.rateIncEventMlx Sender.activeIncreaseMlx Sender.hyperIncreaseMlx
  rw [if_pos hscheme, if_pos hscheme]
  split
  · next hstage =>
    rw [Sender.fastRecoveryMlx, setRate_paceBase hsize]
    exact ⟨fun h _ => h, fun h => h hstage⟩
  · next hstage =>
    refine iff_of_true ?_ fun h => absurd h hstage
    split
    · exact (SamePace.trans ⟨rfl, rfl⟩ (changeRate_samePace _ _)).base
    · exact (SamePace.trans ⟨rfl, rfl⟩ (changeRate_samePace _ _)).base

theorem rateIncEventMlx_size : (Sender.rateIncEventMlx c s).lastPktSize = s.lastPktSize := by
  unfold Sender.rateIncEventMlx Sender.activeIncreaseMlx Sender.hyperIncreaseMlx
  split_ifs <;> rfl

end Pace

/-! ## Steps -/

/-- Only DCQCN+ has timers, and none for a rate decrease. -/
def TimersOfPlus (c : Config) (s : Sender) : Prop :=
  ∀ t ∈ s.timers, c.scheme = .dcqcnPlus ∧ t.kind ≠ .decreaseRate

section Steps

variable {c : Config} {s t : Sender}

theorem TimersOfPlus.schedule {k : Kind} {delay : Int} (h : TimersOfPlus c s)
    (hscheme : c.scheme = .dcqcnPlus) (hk : k ≠ .decreaseRate) :
    TimersOfPlus c (s.schedule k delay) := by
  intro t ht
  rcases List.mem_append.mp ht with hmem | hnew
  · exact h t hmem
  · cases List.mem_singleton.mp hnew
    exact ⟨hscheme, hk⟩

theorem TimersOfPlus.filter {p : Timer → Bool} (h : TimersOfPlus c s)
    (ht : t.timers = s.timers.filter p) : TimersOfPlus c t := by
  intro timer htimer
  rw [ht] at htimer
  exact h timer (List.mem_of_mem_filter htimer)

theorem TimersOfPlus.congr (h : TimersOfPlus c s) (ht : t.timers = s.timers) :
    TimersOfPlus c t := by
  intro timer htimer
  rw [ht] at htimer
  exact h timer htimer

theorem scheduleUpdateAlphaMlx_timersOfPlus (h : TimersOfPlus c s)
    (hscheme : c.scheme = .dcqcnPlus) : TimersOfPlus c (Sender.scheduleUpdateAlphaMlx c s) := by
  rw [Sender.scheduleUpdateAlphaMlx, if_pos hscheme]
  exact h.schedule hscheme nofun

theorem updateAlphaMlx_timersOfPlus (h : TimersOfPlus c s) (hscheme : c.scheme = .dcqcnPlus) :
    TimersOfPlus c (Sender.updateAlphaMlx c s) := by
  rw [Sender.updateAlphaMlx, if_pos hscheme]
  exact scheduleUpdateAlphaMlx_timersOfPlus (h.congr rfl) hscheme

theorem cnpReceivedPlus_timersOfPlus {tau : Nat} (h : TimersOfPlus c s)
    (hscheme : c.scheme = .dcqcnPlus) : TimersOfPlus c (Sender.cnpReceivedPlus c tau s) := by
  unfold Sender.cnpReceivedPlus
  dsimp only
  refine TimersOfPlus.schedule (scheduleUpdateAlphaMlx_timersOfPlus ?_ hscheme) hscheme nofun
  exact TimersOfPlus.filter (TimersOfPlus.filter (TimersOfPlus.congr h rfl) rfl) rfl

theorem rateIncEventMlx_timers : (Sender.rateIncEventMlx c s).timers = s.timers := by
  unfold Sender.rateIncEventMlx Sender.activeIncreaseMlx Sender.hyperIncreaseMlx
  split_ifs <;> rfl

/-- What a step other than a send does to the pace, `G` being what it takes to keep it. -/
structure KeepsPace (c : Config) (s t : Sender) (G : Prop) : Prop where
  size : t.lastPktSize = s.lastPktSize
  base : 0 < s.lastPktSize → (paceBase t = paceBase s ↔ G)
  timers : TimersOfPlus c t

theorem SamePace.keepsPace (h : SamePace s t) (ht : TimersOfPlus c t) : KeepsPace c s t True :=
  ⟨h.size, fun _ => iff_of_true h.base trivial, ht⟩

theorem fire_keepsPace {timer : Timer} (h : TimersOfPlus c s) (hmem : timer ∈ s.timers) :
    KeepsPace c s (Sender.fire c timer.kind
        { s with timers := s.timers.filter fun t => t.id ≠ timer.id })
      (timer.kind = .rpTimer → s.mlx.rpTimeStage < c.rpgThreshold → s.halfWay = s.rate) := by
  obtain ⟨hscheme, hkind⟩ := h timer hmem
  have hrest : TimersOfPlus c { s with timers := s.timers.filter fun t => t.id ≠ timer.id } :=
    h.filter rfl
  cases hk : timer.kind with
  | updateAlpha =>
    have hsame : SamePace s (Sender.updateAlphaMlx c
        { s with timers := s.timers.filter fun t => t.id ≠ timer.id }) := by
      refine .trans ?_ updateAlphaMlx_samePace
      exact ⟨rfl, rfl⟩
    refine ⟨hsame.size, fun _ => iff_of_true hsame.base nofun, ?_⟩
    exact updateAlphaMlx_timersOfPlus hrest hscheme
  | decreaseRate => exact absurd hk hkind
  | rpTimer =>
    unfold Sender.fire Sender.rateIncEventTimerMlx
    refine ⟨rateIncEventMlx_size, fun hsize => ?_, ?_⟩
    · refine (rateIncEventMlx_paceBase hscheme ?_).trans ?_
      · exact hsize
      · exact ⟨fun h _ => h, fun h => h rfl⟩
    · refine TimersOfPlus.congr ?_ rateIncEventMlx_timers
      exact hrest.schedule hscheme nofun

theorem receiveCnp_keepsPace {qfb : Nat} (hscheme : c.scheme ≠ .dcqcn) (h : TimersOfPlus c s) :
    KeepsPace c s (Sender.receiveCnp c qfb s)
      (s.inQpMap = true → s.rate = 0 → c.lineRate = 0) := by
  -- the CNP itself keeps the pace of the queue pair it finds
  have hcnp {u : Sender} (hu : TimersOfPlus c u) : KeepsPace c u
      (if c.mlxMode then
        Sender.cnpReceivedMlx c (if c.scheme = .dcqcnPlus then qfb else 0) u else u) True := by
    split
    · next hmode =>
      have hplus : c.scheme = .dcqcnPlus := by simpa [Config.mlxMode, hscheme] using hmode
      rw [Sender.cnpReceivedMlx, if_pos hplus]
      exact cnpReceivedPlus_samePace.keepsPace (cnpReceivedPlus_timersOfPlus hu hplus)
    · exact (SamePace.refl u).keepsPace hu
  cases hmap : s.inQpMap with
  | false =>
    rw [Sender.receiveCnp, if_pos hmap]
    exact ⟨rfl, fun _ => iff_of_true rfl nofun, h⟩
  | true =>
    rw [Sender.receiveCnp, if_neg (by simp [hmap])]
    dsimp only
    rcases eq_or_ne s.rate 0 with hrate | hrate
    · rw [if_pos hrate]
      have hset : SamePace (s.setRate c.lineRate)
          (if c.mlxMode then (s.setRate c.lineRate).setTargetRate c.lineRate
            else s.setRate c.lineRate) := by
        split <;> exact ⟨rfl, rfl⟩
      generalize hu : (if c.mlxMode = true then (s.setRate c.lineRate).setTargetRate c.lineRate
        else s.setRate c.lineRate) = u at hset ⊢
      have htimers : TimersOfPlus c u := by
        rw [← hu]
        split <;> exact h.congr rfl
      have hsize : u.lastPktSize = s.lastPktSize := hset.size
      have hstep := hcnp htimers
      refine ⟨hstep.size.trans hsize, fun hpos => ?_, hstep.timers⟩
      rw [(hstep.base (hsize ▸ hpos)).mpr trivial, hset.base, setRate_paceBase hpos, hrate]
      exact ⟨fun hline _ _ => hline, fun hline => hline rfl rfl⟩
    · rw [if_neg hrate]
      have hstep := hcnp h
      refine ⟨hstep.size, fun hsize => ?_, hstep.timers⟩
      exact iff_of_true ((hstep.base hsize).mpr trivial) fun _ hzero => absurd hzero hrate

theorem qpComplete_samePace : SamePace s (Sender.qpComplete c s) := by
  unfold Sender.qpComplete
  split <;> exact ⟨rfl, rfl⟩

theorem qpComplete_timersOfPlus (h : TimersOfPlus c s) :
    TimersOfPlus c (Sender.qpComplete c s) := by
  unfold Sender.qpComplete
  split
  · exact TimersOfPlus.filter (TimersOfPlus.filter (TimersOfPlus.filter h rfl) rfl) rfl
  · exact h.congr rfl

/-- An assignment to the transport that leaves the rate as it is. -/
theorem transport_samePace {q : RdmaQueuePair} (hq : q.rate = s.rate) :
    SamePace s { s with transport := q } := by
  refine ⟨?_, rfl⟩
  unfold paceBase Sender.rate
  rw [hq]
  rfl

theorem receiveAck_keepsPace {a : Sender.Ack} (hscheme : c.scheme ≠ .dcqcn)
    (h : TimersOfPlus c s) (hstep : Sender.receiveAck c a s = some t) :
    SamePace s t ∧ TimersOfPlus c t := by
  refine receiveAck_keeps (P := fun u => SamePace s u ∧ TimersOfPlus c u) ?_ ?_ ?_ ?_
    ⟨.refl s, h⟩ hstep
  · intro u q hu hq
    exact ⟨hu.1.trans (transport_samePace hq), hu.2.congr rfl⟩
  · intro u hu
    exact ⟨hu.1.trans qpComplete_samePace, qpComplete_timersOfPlus hu.2⟩
  · intro hmode u tau hu
    have hplus : c.scheme = .dcqcnPlus := by simpa [Config.mlxMode, hscheme] using hmode
    rw [Sender.cnpReceivedMlx, if_pos hplus]
    exact ⟨hu.1.trans cnpReceivedPlus_samePace, cnpReceivedPlus_timersOfPlus hu.2 hplus⟩
  · intro _ u rate hu
    exact ⟨hu.1.trans (changeRate_samePace rate u), hu.2.congr rfl⟩

end Steps

/-! ## Runs -/

section Runs

variable {c : Config} {s t : Clocked} {e : Event}

/-- What holds of every queue pair beside its pace. -/
structure Prepared (c : Config) (s : Clocked) : Prop where
  size : s.lastSend.isSome → 0 < s.sender.lastPktSize
  timers : TimersOfPlus c s.sender

theorem onPace_iff {now : ℚ} (h : s.lastSend = some now) :
    OnPace c s ↔ paceBase s.sender = now + c.interframeGap := by
  unfold OnPace paceBase
  rw [h]
  constructor
  · intro hpace
    rw [hpace now rfl]
    ring
  · intro hbase now' hnow
    cases hnow
    rw [← hbase]
    ring

/-- A send paces the queue pair from now on, whatever was before. -/
theorem send_onPace {now : ℚ} {u : Sender} (hbound : c.rateBound = true)
    (hstep : Sender.send c now s.sender = some u) :
    paceBase u = now + c.interframeGap ∧ 0 < u.lastPktSize ∧ u.timers = s.sender.timers := by
  unfold Sender.send at hstep
  split at hstep
  · cases hstep
    refine ⟨?_, Nat.add_pos_right _ (by norm_num), rfl⟩
    unfold paceBase Sender.pktSent
    dsimp only
    rw [if_pos hbound]
    exact (sub_eq_of_eq_add (add_assoc _ _ _).symm)
  · cases hstep

/-- A step other than a send leaves the pace to what it does to the rate. -/
theorem prepared_of_keepsPace {u : Sender} {G : Prop} (hs : Prepared c s)
    (h : KeepsPace c s.sender u G) :
    Prepared c { sender := u, lastSend := s.lastSend } ∧
      (OnPace c s → (OnPace c { sender := u, lastSend := s.lastSend } ↔
        (s.lastSend.isSome → G))) := by
  refine ⟨⟨fun hsent => h.size ▸ hs.size hsent, h.timers⟩, fun hpace => ?_⟩
  rcases hlast : s.lastSend with _ | now
  · exact iff_of_true (fun now hnow => nomatch hnow) nofun
  · have hsize : 0 < s.sender.lastPktSize := hs.size (by rw [hlast]; rfl)
    have hbase : paceBase s.sender = now + c.interframeGap := (onPace_iff hlast).mp hpace
    rw [onPace_iff rfl, ← hbase, h.base hsize]
    exact ⟨fun hG _ => hG, fun hG => hG rfl⟩

/-- A step keeps a queue pair on pace exactly when it does not change the rate beside
`ChangeRate`. -/
theorem prepared_step (hbound : c.rateBound = true) (hscheme : c.scheme ≠ .dcqcn)
    (hs : Prepared c s) (hstep : clockedStep c s e = some t) :
    Prepared c t ∧ (OnPace c s → (OnPace c t ↔ NoDirectChange c s e)) := by
  obtain ⟨u, hu, rfl⟩ := Option.map_eq_some_iff.mp hstep
  cases e with
  | send now =>
    obtain ⟨hbase, hsize, htimers⟩ := send_onPace hbound hu
    refine ⟨⟨fun _ => hsize, hs.timers.congr htimers⟩, fun _ => iff_of_true ?_ fun _ => trivial⟩
    exact (onPace_iff rfl).mpr hbase
  | ack a =>
    obtain ⟨hsame, htimers⟩ := receiveAck_keepsPace hscheme hs.timers hu
    exact prepared_of_keepsPace hs (hsame.keepsPace htimers)
  | cnp qfb =>
    cases hu
    exact prepared_of_keepsPace hs (receiveCnp_keepsPace hscheme hs.timers)
  | timer id =>
    obtain ⟨timer, hfind, rfl⟩ := Option.map_eq_some_iff.mp hu
    have hmem : timer ∈ s.sender.timers := List.mem_of_find?_eq_some hfind
    obtain rfl : timer.id = id := by simpa using List.find?_some hfind
    obtain ⟨hprepared, hiff⟩ := prepared_of_keepsPace hs (fire_keepsPace hs.timers hmem)
    refine ⟨hprepared, fun hpace => (hiff hpace).trans (imp_congr_right fun _ => ?_)⟩
    -- the timer that fires is the one that is found
    dsimp only
    rw [hfind]
    constructor
    · intro h timer' htimer'
      cases htimer'
      exact h
    · intro h
      exact h timer rfl
  | changeParameters ps =>
    cases hu
    exact prepared_of_keepsPace hs (SamePace.keepsPace ⟨rfl, rfl⟩ (hs.timers.congr rfl))

/-- In every run of HPCC, HPCC-PINT and DCQCN+, the next send time follows the rate in
every state if and only if no step changes the rate beside `ChangeRate`. -/
theorem paced_iff (c : Config) (hbound : c.rateBound = true) (hscheme : c.scheme ≠ .dcqcn)
    (size : UInt64) (win : UInt32) (varWin : Bool) (es : List Event) :
    Always (clockedStep c) (OnPace c) (Clocked.create c size win varWin) es ↔
      Guarded (clockedStep c) (NoDirectChange c) (Clocked.create c size win varWin) es := by
  refine always_iff_guarded (J := Prepared c)
    (fun s e t hs he => (prepared_step hbound hscheme hs he).1)
    (fun s e t hs hpace he => (prepared_step hbound hscheme hs he).2 hpace) ?_ ?_ es
  · exact ⟨nofun, fun timer htimer => nomatch htimer⟩
  · exact fun now hnow => nomatch hnow

end Runs

/-! ## A queue pair with a window of one packet -/

instance {c : Config} {s : Clocked} : Decidable (OnPace c s) :=
  inferInstanceAs (Decidable (∀ now ∈ s.lastSend, s.sender.nextAvail =
    now + c.interframeGap + calculateTxTime s.sender.rate s.sender.lastPktSize))

instance {c : Config} {s : Clocked} {e : Event} : Decidable (NoDirectChange c s e) :=
  match e with
  | .timer id => inferInstanceAs (Decidable (s.lastSend.isSome →
      ∀ t ∈ s.sender.timers.find? fun t => t.id = id,
        t.kind = .rpTimer → s.sender.mlx.rpTimeStage < c.rpgThreshold →
          s.sender.rate / 2 + s.sender.mlx.targetRate / 2 = s.sender.rate))
  | .cnp _ => inferInstanceAs (Decidable (s.lastSend.isSome →
      s.sender.inQpMap = true → s.sender.rate = 0 → c.lineRate = 0))
  | .send _ => inferInstanceAs (Decidable (s.lastSend.isSome → True))
  | .ack _ => inferInstanceAs (Decidable (s.lastSend.isSome → True))
  | .changeParameters _ => inferInstanceAs (Decidable (s.lastSend.isSome → True))

/-- The CNP slows the next packet down, and its ACK speeds nothing up. -/
theorem paced_cnp : Always (clockedStep dcqcnPlusConfig) (OnPace dcqcnPlusConfig)
    (Clocked.create dcqcnPlusConfig 5000 1000 false)
    [.send 0, .cnp 100,
      .ack { isNack := false, seq := 1000, cnp := false, cnpTau := 0, feedback := none },
      .send 20000] :=
  (paced_iff dcqcnPlusConfig rfl (by decide) 5000 1000 false _).mpr (by decide +kernel)

/-- The first packet is sent, a CNP halves the rate, and fast recovery takes it back to
75 Gb/s, but leaves the next send time at 50 Gb/s. -/
theorem fastRecovery_offPace : ¬Always (clockedStep dcqcnPlusConfig) (OnPace dcqcnPlusConfig)
    (Clocked.create dcqcnPlusConfig 5000 1000 false) [.send 0, .cnp 100, .timer 1] := by
  decide +kernel

end Paraleon.Rdma.Dcqcn
