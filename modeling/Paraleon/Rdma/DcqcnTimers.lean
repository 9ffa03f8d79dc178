import Paraleon.Library.Runs
import Paraleon.Rdma.Dcqcn

/-!
# The timers of DCQCN

Each of the three timers of a queue pair is pending at most once, whatever happens.
`QpComplete` cancels them, but `ReceiveAck` goes on with the ACK that completed the
flow: when it carries the CNP flag, `cnp_received_mlx` arms timers again, which then
renew themselves for ever. `timers_disciplined` says that nothing else does.
-/

namespace Paraleon.Rdma.Dcqcn

open Runs

/-! ## Pending timers -/

section Pending

variable {c : Config} {s : Sender} {k k' : Kind}

/-- The pending timers of one kind. -/
def pending (k : Kind) (s : Sender) : List Timer := s.timers.filter fun t => t.kind = k

/-- At most one timer of the kind is pending, and the handle is its own. -/
def Single (s : Sender) (k : Kind) : Prop :=
  pending k s = [] ∨ ∃ t, pending k s = [t] ∧ s.mlx.handle k = some t.id

theorem pending_schedule (delay : Int) :
    pending k (s.schedule k' delay) =
      pending k s ++ if k' = k then [{ id := s.nextId, kind := k', delay }] else [] := by
  unfold pending Sender.schedule
  rw [List.filter_append]
  rcases eq_or_ne k' k with rfl | hne
  · simp
  · simp [hne]

theorem single_schedule (delay : Int) (h : ∀ k, Single s k) (hnone : pending k' s = []) :
    ∀ k, Single (s.schedule k' delay) k := by
  intro k
  unfold Single
  rw [pending_schedule]
  rcases eq_or_ne k' k with rfl | hne
  · refine .inr ⟨_, by rw [hnone, if_pos rfl]; rfl, ?_⟩
    simp [Sender.schedule]
  · rw [if_neg hne, List.append_nil]
    exact (h k).imp_right fun ⟨t, hone, hid⟩ =>
      ⟨t, hone, by simpa [Sender.schedule, hne.symm] using hid⟩

theorem pending_cancel : pending k (s.cancel k') =
    (pending k s).filter fun t => s.mlx.handle k' ≠ some t.id := by
  simp only [pending, Sender.cancel, List.filter_filter]
  congr 1
  funext t
  exact Bool.and_comm _ _

theorem pending_cancel_nil (h : pending k s = []) : pending k (s.cancel k') = [] := by
  rw [pending_cancel, h, List.filter_nil]

theorem pending_cancel_self (h : Single s k) : pending k (s.cancel k) = [] := by
  rcases h with hnone | ⟨t, hone, hhandle⟩
  · exact pending_cancel_nil hnone
  · rw [pending_cancel, hone]
    simp [hhandle]

/-- What is left of the timers of a kind is nothing, or the one there was. -/
theorem single_of_filter {t : Sender} {p : Timer → Bool} (h : Single s k)
    (hpending : pending k t = (pending k s).filter p) (hhandle : t.mlx.handle = s.mlx.handle) :
    Single t k := by
  rcases h with hnone | ⟨timer, hone, hid⟩
  · exact .inl (by rw [hpending, hnone, List.filter_nil])
  · rw [hone] at hpending
    cases hp : p timer with
    | false =>
      exact .inl (by rw [hpending, List.filter_cons_of_neg (by simp [hp]), List.filter_nil])
    | true =>
      refine .inr ⟨timer, ?_, hhandle ▸ hid⟩
      rw [hpending, List.filter_cons_of_pos hp, List.filter_nil]

variable (k') in
theorem single_cancel (h : ∀ k, Single s k) : ∀ k, Single (s.cancel k') k :=
  fun k => single_of_filter (h k) pending_cancel rfl

theorem single_length (h : Single s k) : (pending k s).length ≤ 1 := by
  rcases h with hnone | ⟨t, hone, -⟩
  · simp [hnone]
  · simp [hone]

theorem timers_eq_nil_iff : s.timers = [] ↔ ∀ k, pending k s = [] := by
  constructor
  · intro h k
    simp [pending, h]
  · intro h
    refine List.eq_nil_iff_forall_not_mem.mpr fun t ht => ?_
    have hmem : t ∈ pending t.kind s := List.mem_filter.mpr ⟨ht, by simp⟩
    rw [h] at hmem
    cases hmem

end Pending

/-! ## What each function does to the timers -/

/-- The sender `t` has the timers of `s`, and knows them by the same handles. -/
structure SameTimers (s t : Sender) : Prop where
  timers : t.timers = s.timers
  handle : t.mlx.handle = s.mlx.handle
  inQpMap : t.inQpMap = s.inQpMap

/-- The timers of a sender are single, and before the first CNP of DCQCN neither alpha
nor the rate is being updated. -/
structure Tracked (c : Config) (s : Sender) : Prop where
  single : ∀ k, Single s k
  fresh : c.scheme = .dcqcn → s.mlx.firstCnp = true →
    pending .updateAlpha s = [] ∧ pending .decreaseRate s = []

section Functions

variable {c : Config} {s t : Sender} {k : Kind}

theorem SameTimers.pending (h : SameTimers s t) (k : Kind) : pending k t = pending k s := by
  rw [Dcqcn.pending, h.timers, Dcqcn.pending]

theorem SameTimers.single (h : SameTimers s t) (hs : ∀ k, Single s k) : ∀ k, Single t k := by
  intro k
  rw [Single, h.pending, h.handle]
  exact hs k

theorem rateIncEventMlx_frame : SameTimers s (Sender.rateIncEventMlx c s) ∧
    (Sender.rateIncEventMlx c s).mlx.firstCnp = s.mlx.firstCnp := by
  unfold Sender.rateIncEventMlx Sender.activeIncreaseMlx Sender.hyperIncreaseMlx
  split_ifs <;> exact ⟨⟨rfl, rfl, rfl⟩, rfl⟩

theorem scheduleUpdateAlphaMlx_eq : Sender.scheduleUpdateAlphaMlx c s =
    s.schedule .updateAlpha (microSeconds
      (if c.scheme = .dcqcnPlus then s.mlx.alphaInterval else c.alphaResumeInterval)) := by
  unfold Sender.scheduleUpdateAlphaMlx
  split <;> rfl

theorem updateAlphaMlx_eq : ∃ s' delay, SameTimers s s' ∧ s'.mlx.firstCnp = s.mlx.firstCnp ∧
    Sender.updateAlphaMlx c s = s'.schedule .updateAlpha delay := by
  unfold Sender.updateAlphaMlx
  split
  · refine ⟨_, _, ?_, ?_, scheduleUpdateAlphaMlx_eq⟩
    · exact ⟨rfl, rfl, rfl⟩
    · rfl
  · refine ⟨_, _, ?_, ?_, scheduleUpdateAlphaMlx_eq⟩
    · exact ⟨rfl, rfl, rfl⟩
    · rfl

/-- A rate decrease renews its own timer, and may restart that of the rate increase. -/
theorem checkRateDecreaseMlx_spec (h : ∀ k, Single s k) (hfired : pending .decreaseRate s = []) :
    (∀ k, Single (Sender.checkRateDecreaseMlx c s) k) ∧
      (Sender.checkRateDecreaseMlx c s).mlx.firstCnp = s.mlx.firstCnp ∧
      (Sender.checkRateDecreaseMlx c s).inQpMap = s.inQpMap := by
  have hscheduled (delay : Int) := single_schedule delay h hfired
  unfold Sender.checkRateDecreaseMlx Sender.scheduleDecreaseRateMlx
  dsimp only
  split
  · refine ⟨?_, rfl, rfl⟩
    refine single_schedule _ (single_cancel _ ?_) (pending_cancel_self ?_)
    · exact SameTimers.single ⟨rfl, rfl, rfl⟩ (hscheduled _)
    · exact SameTimers.single ⟨rfl, rfl, rfl⟩ (hscheduled _) .rpTimer
  · exact ⟨hscheduled _, rfl, rfl⟩

/-- A timer that fires renews itself, and no function arms a timer twice. -/
theorem fire_tracked (h : Tracked c s) (hfired : pending k s = [])
    (hafter : c.scheme = .dcqcn → s.mlx.firstCnp = true → k = .rpTimer) :
    Tracked c (Sender.fire c k s) ∧ (Sender.fire c k s).inQpMap = s.inQpMap := by
  cases k with
  | updateAlpha =>
    obtain ⟨s', delay, hsame, hfirst, heq⟩ := updateAlphaMlx_eq (c := c) (s := s)
    rw [Sender.fire, heq]
    refine ⟨⟨single_schedule delay (hsame.single h.single) ?_, ?_⟩, hsame.inQpMap⟩
    · rw [hsame.pending, hfired]
    · intro hscheme hcnp
      cases hafter hscheme (hfirst.symm.trans hcnp)
  | decreaseRate =>
    obtain ⟨hsingle, hfirst, hmap⟩ := checkRateDecreaseMlx_spec (c := c) h.single hfired
    refine ⟨⟨hsingle, ?_⟩, hmap⟩
    intro hscheme hcnp
    cases hafter hscheme (hfirst.symm.trans hcnp)
  | rpTimer =>
    unfold Sender.fire Sender.rateIncEventTimerMlx
    dsimp only
    generalize microSeconds _ = delay
    have hsingle := single_schedule delay h.single hfired
    obtain ⟨hsame, hfirst⟩ := rateIncEventMlx_frame (c := c) (s := s.schedule .rpTimer delay)
    generalize Sender.rateIncEventMlx c (s.schedule .rpTimer delay) = t at hsame hfirst ⊢
    refine ⟨⟨?_, ?_⟩, hsame.inQpMap⟩
    · exact SameTimers.single ⟨hsame.timers, hsame.handle, hsame.inQpMap⟩ hsingle
    · intro hscheme hcnp
      obtain ⟨halpha, hdecrease⟩ := h.fresh hscheme (hfirst.symm.trans hcnp)
      have hpending (k : Kind) (hk : Kind.rpTimer ≠ k) : pending k t = pending k s := by
        rw [hsame.pending, pending_schedule, if_neg hk, List.append_nil]
      exact ⟨(hpending .updateAlpha (by decide)).trans halpha,
        (hpending .decreaseRate (by decide)).trans hdecrease⟩

theorem single_restart (h : ∀ k, Single s k) (delay delay' : Int) :
    ∀ k, Single ((((s.cancel .updateAlpha).cancel .rpTimer).schedule .updateAlpha delay).schedule
      .rpTimer delay') k := by
  have hcancelled : ∀ k, Single ((s.cancel .updateAlpha).cancel .rpTimer) k :=
    single_cancel _ (single_cancel _ h)
  refine single_schedule delay' (single_schedule delay hcancelled ?_) ?_
  · exact pending_cancel_nil (pending_cancel_self (h .updateAlpha))
  · rw [pending_schedule, if_neg (by decide), List.append_nil]
    exact pending_cancel_self (single_cancel _ h .rpTimer)

/-- A CNP of DCQCN+ restarts two timers. -/
theorem cnpReceivedPlus_tracked (tau : Nat) (h : Tracked c s)
    (hscheme : c.scheme = .dcqcnPlus) :
    Tracked c (Sender.cnpReceivedPlus c tau s) ∧
      (Sender.cnpReceivedPlus c tau s).inQpMap = s.inQpMap ∧
      (Sender.cnpReceivedPlus c tau s).timers ≠ [] := by
  unfold Sender.cnpReceivedPlus
  dsimp only
  rw [scheduleUpdateAlphaMlx_eq]
  generalize microSeconds _ = delay
  generalize microSeconds _ = delay'
  refine ⟨⟨single_restart (SameTimers.single ⟨rfl, rfl, rfl⟩ h.single) _ _, ?_⟩, rfl, ?_⟩
  · intro hdcqcn
    rw [hscheme] at hdcqcn
    cases hdcqcn
  · simp [Sender.schedule]

/-- The first CNP of DCQCN arms two timers, a later one none. -/
theorem cnpReceivedDcqcn_tracked (h : Tracked c s) (hscheme : c.scheme = .dcqcn) :
    Tracked c (Sender.cnpReceivedDcqcn c s) ∧
      (Sender.cnpReceivedDcqcn c s).inQpMap = s.inQpMap ∧
      (s.mlx.firstCnp = true → (Sender.cnpReceivedDcqcn c s).timers ≠ []) ∧
      (s.mlx.firstCnp = false → (Sender.cnpReceivedDcqcn c s).timers = s.timers) := by
  unfold Sender.cnpReceivedDcqcn
  dsimp only
  split
  · next hfirst =>
    obtain ⟨halpha, hdecrease⟩ := h.fresh hscheme hfirst
    rw [scheduleUpdateAlphaMlx_eq, Sender.scheduleDecreaseRateMlx]
    generalize microSeconds _ = delay'
    generalize microSeconds _ = delay
    refine ⟨⟨?_, fun _ hcnp => by cases hcnp⟩, rfl, ?_, ?_⟩
    · refine SameTimers.single (s := (s.schedule .updateAlpha delay).schedule .decreaseRate _)
        ⟨rfl, rfl, rfl⟩ (single_schedule (delay' + 1) (single_schedule delay h.single halpha) ?_)
      rw [pending_schedule, if_neg (by decide), List.append_nil]
      exact hdecrease
    · intro _
      simp [Sender.schedule, Sender.setRate]
    · intro hlater
      rw [hfirst] at hlater
      cases hlater
  · next hlater =>
    refine ⟨⟨SameTimers.single ⟨rfl, rfl, rfl⟩ h.single, ?_⟩, rfl, ?_, fun _ => rfl⟩
    · intro _ hcnp
      exact absurd hcnp hlater
    · intro hfirst
      exact absurd hfirst hlater

/-- The CNP arms timers again: in DCQCN+ always, in DCQCN if it is the first one. -/
def rearms (c : Config) (s : Sender) : Prop := c.scheme = .dcqcnPlus ∨ s.mlx.firstCnp = true

theorem cnpReceivedMlx_tracked (tau : Nat) (h : Tracked c s) (hmlx : c.mlxMode = true) :
    Tracked c (Sender.cnpReceivedMlx c tau s) ∧
      (Sender.cnpReceivedMlx c tau s).inQpMap = s.inQpMap ∧
      (rearms c s → (Sender.cnpReceivedMlx c tau s).timers ≠ []) ∧
      (¬rearms c s → (Sender.cnpReceivedMlx c tau s).timers = s.timers) := by
  unfold Sender.cnpReceivedMlx rearms
  split
  · next hplus =>
    obtain ⟨htracked, hmap, harmed⟩ := cnpReceivedPlus_tracked tau h hplus
    exact ⟨htracked, hmap, fun _ => harmed, fun hnot => absurd (.inl hplus) hnot⟩
  · next hplus =>
    have hscheme : c.scheme = .dcqcn := by simpa [Config.mlxMode, hplus] using hmlx
    obtain ⟨htracked, hmap, harmed, hkept⟩ := cnpReceivedDcqcn_tracked h hscheme
    refine ⟨htracked, hmap, fun hrearms => harmed (hrearms.resolve_left hplus), fun hnot => ?_⟩
    exact hkept (Bool.eq_false_iff.mpr fun hfirst => hnot (.inr hfirst))

/-- `QpComplete` leaves no timer. -/
theorem qpComplete_tracked (h : Tracked c s) :
    Tracked c (Sender.qpComplete c s) ∧ (Sender.qpComplete c s).inQpMap = false ∧
      (c.mlxMode = true → (Sender.qpComplete c s).timers = []) ∧
      (Sender.qpComplete c s).mlx.firstCnp = s.mlx.firstCnp := by
  unfold Sender.qpComplete
  split
  · have halpha := single_cancel .updateAlpha h.single
    have hdecrease := single_cancel .decreaseRate halpha
    have hnone : ∀ k, pending k (((s.cancel .updateAlpha).cancel .decreaseRate).cancel .rpTimer)
        = [] := by
      intro k
      cases k with
      | updateAlpha =>
        exact pending_cancel_nil (pending_cancel_nil (pending_cancel_self (h.single .updateAlpha)))
      | decreaseRate => exact pending_cancel_nil (pending_cancel_self (halpha .decreaseRate))
      | rpTimer => exact pending_cancel_self (hdecrease .rpTimer)
    exact ⟨⟨fun k => .inl (hnone k), fun _ _ => ⟨hnone _, hnone _⟩⟩, rfl,
      fun _ => timers_eq_nil_iff.mpr hnone, rfl⟩
  · next hmlx =>
    refine ⟨⟨?_, h.fresh⟩, rfl, fun h => absurd h hmlx, rfl⟩
    exact fun k => h.single k

/-- The timers are tracked, and without DCQCN there are none. -/
structure Timed (c : Config) (s : Sender) : Prop extends Tracked c s where
  idle : c.mlxMode = false → s.timers = []

/-- The flow is finished after the ACK. -/
def completes (c : Config) (a : Sender.Ack) (s : Sender) : Prop :=
  c.hw.ackInterval ≠ 0 ∧
    ∃ q ∈ acknowledgeSeq c.hw a.seq s.transport, q.isFinished = true

/-- The ACK carries the CNP flag, and its CNP arms timers. -/
def rearmsWith (c : Config) (a : Sender.Ack) (s : Sender) : Prop :=
  a.cnp = true ∧ c.mlxMode = true ∧ rearms c s

/-- What part of the state the timers depend on. -/
theorem Timed.congr (h : Timed c s) (hsame : SameTimers s t)
    (hfirst : t.mlx.firstCnp = s.mlx.firstCnp) : Timed c t where
  single := hsame.single h.single
  fresh hscheme hcnp := by
    rw [hsame.pending, hsame.pending]
    exact h.fresh hscheme (hfirst.symm.trans hcnp)
  idle hmlx := hsame.timers.trans (h.idle hmlx)

theorem qpComplete_timed (h : Timed c s) :
    Timed c (Sender.qpComplete c s) ∧ (Sender.qpComplete c s).inQpMap = false ∧
      (Sender.qpComplete c s).timers = [] ∧
      (Sender.qpComplete c s).mlx.firstCnp = s.mlx.firstCnp := by
  obtain ⟨htracked, hmap, hnone, hfirst⟩ := qpComplete_tracked h.toTracked
  have hnil : (Sender.qpComplete c s).timers = [] := by
    cases hmlx : c.mlxMode with
    | true => exact hnone hmlx
    | false =>
      have hkept : (Sender.qpComplete c s).timers = s.timers := by
        simp [Sender.qpComplete, hmlx]
      exact hkept.trans (h.idle hmlx)
  exact ⟨⟨htracked, fun _ => hnil⟩, hmap, hnil, hfirst⟩

/-- The CNP part of `ReceiveAck`. -/
theorem ackCnp_timed {a : Sender.Ack} (h : Timed c s) :
    let t := if a.cnp && c.mlxMode then Sender.cnpReceivedMlx c a.cnpTau s else s
    Timed c t ∧ t.inQpMap = s.inQpMap ∧
      (s.timers = [] → (t.timers = [] ↔ ¬rearmsWith c a s)) := by
  dsimp only
  split
  · next hcnp =>
    obtain ⟨hflag, hmlx⟩ := Bool.and_eq_true_iff.mp hcnp
    obtain ⟨htracked, hmap, harmed, hkept⟩ :=
      cnpReceivedMlx_tracked a.cnpTau h.toTracked hmlx
    refine ⟨⟨htracked, fun hno => absurd hmlx (by simp [hno])⟩, hmap, fun hnil => ?_⟩
    constructor
    · intro hnone hre
      exact harmed hre.2.2 hnone
    · intro hre
      rw [hkept fun hrearms => hre ⟨hflag, hmlx, hrearms⟩, hnil]
  · next hcnp =>
    refine ⟨h, rfl, fun hnil => ⟨fun _ hre => hcnp ?_, fun _ => hnil⟩⟩
    rw [hre.1, hre.2.1]
    rfl

/-- The acknowledgement part of `ReceiveAck`. -/
theorem acknowledge_timed {a : Sender.Ack} (h : Timed c s) (hmap : s.inQpMap = true)
    (hstep : Sender.acknowledge c a s = some t) :
    Timed c t ∧ (t.inQpMap = false ↔ completes c a s) ∧ (completes c a s → t.timers = []) ∧
      t.mlx.firstCnp = s.mlx.firstCnp := by
  unfold Sender.acknowledge at hstep
  split at hstep
  · next hzero =>
    cases hstep
    have hnot : ¬completes c a s := fun hc => hc.1 hzero
    exact ⟨h, by simp [hmap, hnot], fun hc => absurd hc hnot, rfl⟩
  · next hpos =>
    obtain ⟨q, hq, rfl⟩ := Option.map_eq_some_iff.mp hstep
    have hiff : completes c a s ↔ q.isFinished = true := by
      simp [completes, hpos, hq]
    have hq' : Timed c { s with transport := q } := h.congr ⟨rfl, rfl, rfl⟩ rfl
    rw [hiff]
    dsimp only
    split
    · next hfinished =>
      obtain ⟨htimed, hgone, hnil, hfirst⟩ := qpComplete_timed hq'
      exact ⟨htimed, by simp [hgone, hfinished], fun _ => hnil, hfirst⟩
    · next hfinished => exact ⟨hq', by simp [hmap, hfinished], fun hf => absurd hf hfinished, rfl⟩

/-- An ACK of a queue pair that is still in the map. -/
theorem receiveAck_timed {a : Sender.Ack} (h : Timed c s) (hmap : s.inQpMap = true)
    (hstep : Sender.receiveAck c a s = some t) :
    Timed c t ∧ (t.inQpMap = false ↔ completes c a s) ∧
      (completes c a s → (t.timers = [] ↔ ¬rearmsWith c a s)) := by
  rw [Sender.receiveAck, if_neg (by simp [hmap])] at hstep
  obtain ⟨s₁, hs₁, hstep⟩ := Option.map_eq_some_iff.mp hstep
  obtain ⟨htimed₁, hmap₁, hnil₁, hfirst₁⟩ := acknowledge_timed h hmap hs₁
  -- a NACK moves `snd_nxt` only
  obtain ⟨s₂, hs₂, hsame, hfirst₂⟩ : ∃ s₂,
      (if a.isNack = true then { s₁ with transport := s₁.transport.recoverQueue } else s₁) = s₂ ∧
      SameTimers s₁ s₂ ∧ s₂.mlx.firstCnp = s₁.mlx.firstCnp := by
    refine ⟨_, rfl, ?_⟩
    split <;> exact ⟨⟨rfl, rfl, rfl⟩, rfl⟩
  rw [hs₂] at hstep
  dsimp only at hstep
  obtain ⟨htimed₃, hmap₃, hnil₃⟩ := ackCnp_timed (a := a) (htimed₁.congr hsame hfirst₂)
  generalize (if (a.cnp && c.mlxMode) = true then Sender.cnpReceivedMlx c a.cnpTau s₂ else s₂)
    = s₃ at hstep htimed₃ hmap₃ hnil₃
  have hre : rearmsWith c a s₂ ↔ rearmsWith c a s := by
    simp only [rearmsWith, rearms, hfirst₂, hfirst₁]
  -- so does the rate of the feedback
  have hlast : SameTimers s₃ t ∧ t.mlx.firstCnp = s₃.mlx.firstCnp := by
    rw [← hstep]
    split
    · exact ⟨⟨rfl, rfl, rfl⟩, rfl⟩
    · cases a.feedback <;> exact ⟨⟨rfl, rfl, rfl⟩, rfl⟩
  refine ⟨htimed₃.congr hlast.1 hlast.2, ?_, fun hc => ?_⟩
  · rw [hlast.1.inQpMap, hmap₃, hsame.inQpMap]
    exact hmap₁
  · rw [hlast.1.timers, hnil₃ (hsame.timers.trans (hnil₁ hc)), hre]

/-- A CNP packet. -/
theorem receiveCnp_timed (qfb : Nat) (h : Timed c s) :
    Timed c (Sender.receiveCnp c qfb s) ∧ (Sender.receiveCnp c qfb s).inQpMap = s.inQpMap ∧
      (s.inQpMap = false → (Sender.receiveCnp c qfb s).timers = s.timers) := by
  unfold Sender.receiveCnp
  split
  · exact ⟨h, rfl, fun _ => rfl⟩
  · next hmap =>
    dsimp only
    obtain ⟨s₁, hs₁, hsame, hfirst⟩ : ∃ s₁,
        (if s.rate = 0 then
          if c.mlxMode = true then (s.setRate c.lineRate).setTargetRate c.lineRate
          else s.setRate c.lineRate
        else s) = s₁ ∧ SameTimers s s₁ ∧ s₁.mlx.firstCnp = s.mlx.firstCnp := by
      refine ⟨_, rfl, ?_⟩
      split_ifs <;> exact ⟨⟨rfl, rfl, rfl⟩, rfl⟩
    rw [hs₁]
    have hs₁' : Timed c s₁ := h.congr hsame hfirst
    split
    · next hmlx =>
      obtain ⟨htracked, hmap₂, -⟩ := cnpReceivedMlx_tracked
        (if c.scheme = .dcqcnPlus then qfb else 0) hs₁'.toTracked hmlx
      exact ⟨⟨htracked, fun hno => absurd hmlx (by simp [hno])⟩, hmap₂.trans hsame.inQpMap,
        fun hgone => absurd hgone hmap⟩
    · exact ⟨hs₁', hsame.inQpMap, fun _ => hsame.timers⟩

/-- A pending timer that fires. -/
theorem timer_timed {timer : Timer} (h : Timed c s) (hmem : timer ∈ s.timers) :
    Timed c (Sender.fire c timer.kind
        { s with timers := s.timers.filter fun t => t.id ≠ timer.id }) ∧
      (Sender.fire c timer.kind
        { s with timers := s.timers.filter fun t => t.id ≠ timer.id }).inQpMap = s.inQpMap := by
  have hpending (k : Kind) : pending k { s with timers := s.timers.filter fun t => t.id ≠ timer.id }
      = (pending k s).filter fun t => t.id ≠ timer.id := by
    simp only [pending, List.filter_filter]
    congr 1
    funext t
    exact Bool.and_comm _ _
  have hin : timer ∈ pending timer.kind s := List.mem_filter.mpr ⟨hmem, by simp⟩
  have hsub (k : Kind) (hnil : pending k s = []) :
      pending k { s with timers := s.timers.filter fun t => t.id ≠ timer.id } = [] := by
    rw [hpending, hnil, List.filter_nil]
  have htracked : Tracked c { s with timers := s.timers.filter fun t => t.id ≠ timer.id } :=
    ⟨fun k => single_of_filter (h.single k) (hpending k) rfl, fun hscheme hcnp =>
      ⟨hsub _ (h.fresh hscheme hcnp).1, hsub _ (h.fresh hscheme hcnp).2⟩⟩
  -- the fired timer was the only one of its kind
  have hfired : pending timer.kind
      { s with timers := s.timers.filter fun t => t.id ≠ timer.id } = [] := by
    rw [hpending]
    rcases h.single timer.kind with hnil | ⟨t, hone, -⟩
    · rw [hnil, List.filter_nil]
    · rw [hone] at hin
      obtain rfl := List.mem_singleton.mp hin
      rw [hone]
      simp
  -- before the first CNP the other two kinds are not armed
  have hafter : c.scheme = .dcqcn → s.mlx.firstCnp = true → timer.kind = .rpTimer := by
    intro hscheme hcnp
    obtain ⟨halpha, hdecrease⟩ := h.fresh hscheme hcnp
    cases hkind : timer.kind with
    | rpTimer => rfl
    | updateAlpha => rw [hkind, halpha] at hin; cases hin
    | decreaseRate => rw [hkind, hdecrease] at hin; cases hin
  obtain ⟨ht, hmap⟩ := fire_tracked htracked hfired hafter
  refine ⟨⟨ht, fun hno => ?_⟩, hmap⟩
  rw [h.idle hno] at hmem
  cases hmem

end Functions

/-! ## Runs -/

/-- At most one timer of each kind is pending, and none once `QpComplete` has run. -/
def Disciplined (s : Sender) : Prop :=
  (∀ k, (pending k s).length ≤ 1) ∧ (s.inQpMap = false → s.timers = [])

/-- The event is not an ACK that completes the flow with a CNP that arms timers. -/
def QuietCompletion (c : Config) (s : Sender) : Event → Prop
  | .ack a => s.inQpMap = true → completes c a s → ¬rearmsWith c a s
  | .send _ | .cnp _ | .timer _ | .changeParameters _ => True

section Runs

variable {c : Config} {s t : Sender} {e : Event}

/-- The timers are tracked through every step, and those that are gone stay gone but
for an ACK that completes the flow. -/
theorem timed_step (h : Timed c s) (hstep : step c s e = some t) :
    Timed c t ∧ ((s.inQpMap = false → s.timers = []) →
      ((t.inQpMap = false → t.timers = []) ↔ QuietCompletion c s e)) := by
  cases e with
  | send now =>
    simp only [step, Sender.send] at hstep
    split at hstep
    · cases hstep
      exact ⟨h.congr ⟨rfl, rfl, rfl⟩ rfl, fun hgone => iff_of_true hgone trivial⟩
    · cases hstep
  | cnp qfb =>
    cases hstep
    obtain ⟨htimed, hmap, hkept⟩ := receiveCnp_timed qfb h
    refine ⟨htimed, fun hgone => iff_of_true (fun hout => ?_) trivial⟩
    have hout' := hmap.symm.trans hout
    exact (hkept hout').trans (hgone hout')
  | timer id =>
    obtain ⟨timer, hfind, rfl⟩ := Option.map_eq_some_iff.mp hstep
    have hmem := List.mem_of_find?_eq_some hfind
    obtain rfl : timer.id = id := by simpa using List.find?_some hfind
    obtain ⟨htimed, hmap⟩ := timer_timed h hmem
    refine ⟨htimed, fun hgone => iff_of_true (fun hout => ?_) trivial⟩
    rw [hgone (hmap.symm.trans hout)] at hmem
    cases hmem
  | changeParameters ps =>
    cases hstep
    exact ⟨h.congr ⟨rfl, rfl, rfl⟩ rfl, fun hgone => iff_of_true hgone trivial⟩
  | ack a =>
    cases hmap : s.inQpMap with
    | false =>
      rw [step, Sender.receiveAck, if_pos hmap] at hstep
      cases hstep
      exact ⟨h, fun hgone => iff_of_true (fun _ => hgone rfl) fun hin => by simp [hmap] at hin⟩
    | true =>
      -- only an ACK removes the queue pair, and it may arm timers after that
      obtain ⟨htimed, hout, hnil⟩ := receiveAck_timed h hmap hstep
      refine ⟨htimed, fun _ => ?_⟩
      rw [hout]
      constructor
      · exact fun h _ hc => (hnil hc).mp (h hc)
      · exact fun h hc => (hnil hc).mpr (h hmap hc)

theorem timed_create (c : Config) (size : UInt64) (win : UInt32) (varWin : Bool) :
    Timed c (Sender.create c size win varWin) :=
  ⟨⟨fun _ => .inl rfl, fun _ _ => ⟨rfl, rfl⟩⟩, fun _ => rfl⟩

/-- In every run the timers are disciplined in every state if and only if no ACK that
completes the flow carries a CNP that arms timers again. -/
theorem timers_disciplined (c : Config) (size : UInt64) (win : UInt32) (varWin : Bool)
    (es : List Event) :
    Always (step c) Disciplined (Sender.create c size win varWin) es ↔
      Guarded (step c) (QuietCompletion c) (Sender.create c size win varWin) es := by
  refine always_iff_guarded (J := Timed c) (fun s e t h he => (timed_step h he).1) ?_
    (timed_create c size win varWin) ?_ es
  · intro s e t h hs he
    obtain ⟨htimed, hiff⟩ := timed_step h he
    rw [← hiff hs.2]
    exact ⟨And.right, fun hgone => ⟨fun k => single_length (htimed.single k), hgone⟩⟩
  · exact ⟨fun k => by cases k <;> exact Nat.zero_le 1, fun hout => by cases hout⟩

end Runs

/-! ## A flow of one packet whose only ACK carries the CNP flag -/

def markedAck : Sender.Ack :=
  { isNack := false, seq := 1000, cnp := true, cnpTau := 0, feedback := none }

instance {s : Sender} : Decidable (Disciplined s) :=
  decidable_of_iff
    (((pending .updateAlpha s).length ≤ 1 ∧ (pending .decreaseRate s).length ≤ 1 ∧
      (pending .rpTimer s).length ≤ 1) ∧ (s.inQpMap = false → s.timers = []))
    ⟨fun h => ⟨fun k => by cases k; exacts [h.1.1, h.1.2.1, h.1.2.2], h.2⟩,
      fun h => ⟨⟨h.1 _, h.1 _, h.1 _⟩, h.2⟩⟩

/-- The alpha update and the rate decrease of the finished flow are pending. -/
theorem markedAck_rearms : ¬Always (step dcqcnConfig) Disciplined
    (Sender.create dcqcnConfig 1000 0 false) [.send 0, .ack markedAck] := by
  decide +kernel

end Paraleon.Rdma.Dcqcn
