import Paraleon.Switch.Agreement

/-!
# No stuck and no missing pause

Pauses are decided when a packet arrives and resumes when one departs, while the
threshold moves with all other traffic. Two things link the counters with the
flag: a slot with bytes in its headroom is paused, and a paused slot has bytes
in the buffer.

* `pauseOk_dequeues`: every departure keeps both, also through the calls nested
  in it, whose slots are put right only when they return.
* `pause_sound`: so does every run without `TakeDown` in which every charged
  packet gets into its queue.
* `refusedRun`: a packet that is charged, pauses its slot, and is then refused
  by the egress queue.
-/

namespace Paraleon.Switch.SwitchNode

open Words Weights Runs

/-- Outside the slots `except`, headroom in use means paused, and paused means
that bytes are held. -/
def PauseOk (except : Slot → Prop) (m : SwitchMmu) : Prop :=
  ∀ i, i.2 ≠ 0 → ¬ except i →
    (0 < m.hdrmBytes i → m.paused i = true) ∧
      (m.paused i = true → 0 < m.ingressBytes i + m.hdrmBytes i)

/-- One more slot is left out. -/
def alsoAt (except : Slot → Prop) (i : Slot) : Slot → Prop := fun j => except j ∨ j = i

section Departure

variable {c : SwitchConfig} {s t : SwitchNode} {d : Port} {q : Class} {p : Packet}
  {rest : List Packet} {except : Slot → Prop}

theorem release_hdrm (c : SwitchConfig) (s : SwitchNode) (d : Port) (q : Class) (p : Packet)
    (rest : List Packet) (i : Slot) :
    (s.release c d q p rest).mmu.hdrmBytes i ≤ s.mmu.hdrmBytes i := by
  show Function.update s.mmu.hdrmBytes (p.flowId, q) (sub32 _ _) i ≤ _
  rcases eq_or_ne i (p.flowId, q) with rfl | hi
  · rw [Function.update_self, sub32_of_le SwitchMmu.fromHdrm_le_hdrm]
    exact Nat.sub_le _ _
  · rw [Function.update_of_ne hi]

/-- No departure puts bytes into a headroom. -/
theorem hdrm_dequeues (hd : Dequeues c d s t) (i : Slot) :
    t.mmu.hdrmBytes i ≤ s.mmu.hdrmBytes i := by
  induction hd with
  | idle => exact Nat.le_refl _
  | control _ _ _ => rw [transmitStart_mmu, setQueue_mmu]
  | data _ _ _ _ _ _ _ =>
    rw [transmitStart_mmu]
    exact release_hdrm _ _ _ _ _ _ _
  | dataResume _ _ _ _ _ _ _ _ ih =>
    rw [enqueue_mmu] at ih
    rw [transmitStart_mmu]
    exact Nat.le_trans ih (release_hdrm _ _ _ _ _ _ _)

/-- A departure touches only the slot the packet came in by. -/
theorem pauseOk_release (h : PauseOk except s.mmu) :
    PauseOk (alsoAt except (p.flowId, q)) (s.release c d q p rest).mmu := by
  intro i hi hexcept
  have hne : i ≠ (p.flowId, q) := fun heq => hexcept (.inr heq)
  obtain ⟨hin, hh⟩ :=
    SwitchMmu.removeFromIngressAdmission_other c.mmu s.mmu (p.flowId, q) p.size hne
  have hold := h i hi fun hx => hexcept (.inl hx)
  show (0 < (s.mmu.removeFromIngressAdmission c.mmu (p.flowId, q) p.size).hdrmBytes i → _) ∧
    (_ → 0 < (s.mmu.removeFromIngressAdmission c.mmu (p.flowId, q) p.size).ingressBytes i +
      (s.mmu.removeFromIngressAdmission c.mmu (p.flowId, q) p.size).hdrmBytes i)
  rw [hin, hh]
  exact hold

theorem checkShouldResume_of_empty {m : SwitchMmu} {i : Slot} (hpaused : m.paused i = true)
    (hin : m.ingressBytes i = 0) (hh : m.hdrmBytes i = 0) : m.checkShouldResume c.mmu i = true := by
  simp [SwitchMmu.checkShouldResume, SwitchMmu.getSharedUsed, hpaused, hin, hh]

/-- When a departure does not resume its slot, the slot is as it should be. -/
theorem pauseOk_release_no (h : PauseOk except s.mmu)
    (hno : (s.release c d q p rest).mmu.checkShouldResume c.mmu (p.flowId, q) = false) :
    PauseOk except (s.release c d q p rest).mmu := by
  intro i hi hexcept
  rcases eq_or_ne i (p.flowId, q) with rfl | hip
  · refine ⟨fun hpos => ?_, fun hpaused => Nat.pos_of_ne_zero fun hzero => ?_⟩
    · exact (h _ hi hexcept).1 (Nat.lt_of_lt_of_le hpos (release_hdrm _ _ _ _ _ _ _))
    · rw [checkShouldResume_of_empty hpaused (by omega) (by omega)] at hno
      cases hno
  · exact pauseOk_release h i hi fun hx => hx.elim hexcept hip

theorem hdrm_of_resume {m : SwitchMmu} {i : Slot} (h : m.checkShouldResume c.mmu i = true) :
    m.hdrmBytes i = 0 := by
  simp only [SwitchMmu.checkShouldResume, Bool.and_eq_true, decide_eq_true_eq] at h
  exact h.1.2

/-- A resume puts its slot right. -/
theorem pauseOk_setResume {m : SwitchMmu} {i : Slot} (h : PauseOk (alsoAt except i) m)
    (hh : m.hdrmBytes i = 0) : PauseOk except (m.setResume i) := by
  intro j hj hexcept
  show (0 < m.hdrmBytes j → Function.update m.paused i false j = true) ∧
    (Function.update m.paused i false j = true → 0 < m.ingressBytes j + m.hdrmBytes j)
  rcases eq_or_ne j i with rfl | hji
  · simp [hh]
  · rw [Function.update_of_ne hji]
    exact h j hj fun hx => hx.elim hexcept hji

/-- `DequeueAndTransmit` keeps the pauses right, at every depth of nesting. -/
theorem pauseOk_dequeues (hd : Dequeues c d s t) (h : PauseOk except s.mmu) :
    PauseOk except t.mmu := by
  induction hd generalizing except with
  | idle => exact h
  | control _ _ _ => simpa using h
  | data _ _ _ _ _ _ hno =>
    rw [transmitStart_mmu]
    exact pauseOk_release_no h hno
  | dataResume _ _ _ _ _ _ hresume hnested ih =>
    rw [transmitStart_mmu]
    refine pauseOk_setResume (ih (by rw [enqueue_mmu]; exact pauseOk_release h)) ?_
    have hle := hdrm_dequeues hnested
    rw [enqueue_mmu] at hle
    exact Nat.eq_zero_of_le_zero (Nat.le_trans (hle _) (Nat.le_of_eq (hdrm_of_resume hresume)))

end Departure

/-! ## Arrivals -/

section Arrival

variable {c : SwitchConfig} {s t : SwitchNode} {d : Port} {q : Class} {p : Packet}

/-- No slot is left out. -/
def nowhere : Slot → Prop := fun _ => False

theorem pauseOk_update {except : Slot → Prop} (h : PauseOk except s.mmu) :
    PauseOk (alsoAt except (p.flowId, q)) (s.updateMmu c d q p).mmu := by
  intro i hi hexcept
  have hne : i ≠ (p.flowId, q) := fun heq => hexcept (.inr heq)
  obtain ⟨hin, hh⟩ := SwitchMmu.updateIngressAdmission_other c.mmu s.mmu (p.flowId, q) p.size hne
  have hold := h i hi fun hx => hexcept (.inl hx)
  show (0 < (s.mmu.updateIngressAdmission c.mmu (p.flowId, q) p.size).hdrmBytes i →
      (s.mmu.updateIngressAdmission c.mmu (p.flowId, q) p.size).paused i = true) ∧
    ((s.mmu.updateIngressAdmission c.mmu (p.flowId, q) p.size).paused i = true →
      0 < (s.mmu.updateIngressAdmission c.mmu (p.flowId, q) p.size).ingressBytes i +
        (s.mmu.updateIngressAdmission c.mmu (p.flowId, q) p.size).hdrmBytes i)
  rw [hin, hh, SwitchMmu.updateIngressAdmission_paused]
  exact hold

/-- The slot of a packet in hand holds bytes. -/
theorem Agree.inHand_pos {idx : Port} (h : Agree c (some ⟨idx, q, p⟩) s) (hsize : 0 < p.size) :
    0 < s.mmu.ingressBytes (p.flowId, q) + s.mmu.hdrmBytes (p.flowId, q) := by
  rw [h.charged.ingress]
  simp only [handFrom, if_pos]
  omega

/-- Where no pause is due, headroom in use means that the slot is paused. -/
theorem paused_of_noPause {m : SwitchMmu} {i : Slot} (h : m.checkShouldPause c.mmu i = false)
    (hh : 0 < m.hdrmBytes i) : m.paused i = true := by
  cases hp : m.paused i with
  | true => rfl
  | false => simp [SwitchMmu.checkShouldPause, hp, hh] at h

theorem pauseOk_setPause {m : SwitchMmu} {i : Slot} (h : PauseOk (alsoAt nowhere i) m)
    (hpos : 0 < m.ingressBytes i + m.hdrmBytes i) : PauseOk nowhere (m.setPause i) := by
  intro j hj _
  show (0 < m.hdrmBytes j → Function.update m.paused i true j = true) ∧
    (Function.update m.paused i true j = true → 0 < m.ingressBytes j + m.hdrmBytes j)
  rcases eq_or_ne j i with rfl | hji
  · simp [hpos]
  · rw [Function.update_of_ne hji]
    exact h j hj fun hx => hx.elim id hji

theorem pauseOk_admission {idx : Port} (h : PauseOk nowhere s.mmu) (ha : Agree c none s)
    (hne : q ≠ 0) (hfit : s.heldBytes + p.size < 2 ^ 32) (hsize : 0 < p.size)
    (hadmission : s.admission c idx q p = some t) : PauseOk nowhere t.mmu := by
  have hcharge : Agree c (some ⟨idx, q, p⟩) (s.updateMmu c idx q p) := agree_charge ha hfit
  have hupdate : PauseOk (alsoAt nowhere (p.flowId, q)) (s.updateMmu c idx q p).mmu :=
    pauseOk_update h
  rcases admit_cases hadmission with ⟨hz, -⟩ | ⟨-, hno, rfl⟩ | ⟨-, -, u, hu, rfl⟩
  · exact absurd hz hne
  · intro i hi _
    rcases eq_or_ne i (p.flowId, q) with rfl | hip
    · exact ⟨paused_of_noPause hno, fun _ => hcharge.inHand_pos hsize⟩
    · exact hupdate i hi fun hx => hx.elim id hip
  · have hnested := agree_dequeues hu (hcharge.of_same same_enqueueZero)
    exact pauseOk_setPause (pauseOk_dequeues hu (by simpa using hupdate))
      (hnested.inHand_pos hsize)

/-- What a run without `TakeDown` has to keep besides the bytes: no packet is
empty. -/
def KeepsPauses (c : SwitchConfig) (s : SwitchNode) (e : Event) : Prop :=
  KeepsBytes c s e ∧
    match e with
    | .receive _ p _ => 0 < p.size
    | .takeDown _ => False
    | _ => True

instance (c : SwitchConfig) (s : SwitchNode) (e : Event) : Decidable (KeepsPauses c s e) := by
  unfold KeepsPauses
  cases e <;> infer_instance

theorem pauseOk_receive {stale : UInt32} (h : PauseOk nowhere s.mmu) (ha : Agree c none s)
    (hkeeps : KeepsPauses c s (.receive d p stale)) (hstep : s.receive c d p stale = some t) :
    PauseOk nowhere t.mmu := by
  rcases receive_cases hstep with rfl | ⟨-, -, rfl⟩ | ⟨-, hd⟩ | ⟨hup, hpfc, hsend⟩
  · exact h
  · exact h
  · exact pauseOk_dequeues hd (by simpa using h)
  rcases sendToDev_cases hsend with ⟨-, rfl⟩ | ⟨idx, u, hout, hadmission, hd⟩
  · exact h
  have hclass : queueIndex c { p with flowId := d } = queueIndex c p := rfl
  rw [hclass] at hadmission hd
  have hsame : SameCharges s (s.incident (s.devices idx).linkUp (.linkDown idx)) :=
    same_incident _ _
  have hmmu : PauseOk nowhere (s.incident (s.devices idx).linkUp (.linkDown idx)).mmu := by
    rw [incident_mmu]
    exact h
  by_cases hne : queueIndex c p = 0
  · rcases admit_cases hadmission with ⟨-, rfl⟩ | ⟨hq, -⟩ | ⟨hq, -⟩
    · exact pauseOk_dequeues hd (by rw [enqueue_mmu]; exact hmmu)
    · exact absurd hne hq
    · exact absurd hne hq
  · obtain ⟨hfit, -⟩ := hkeeps.1 idx (forwardTo_eq hup hpfc hout) hne
    have hfit' :
        (s.incident (s.devices idx).linkUp (.linkDown idx)).heldBytes + p.size < 2 ^ 32 := by
      rw [heldBytes, hsame.queuedTo]
      exact hfit
    have hadmitted : PauseOk nowhere u.mmu := by
      refine pauseOk_admission hmmu (ha.of_same hsame) hne ?_ ?_ hadmission
      · exact hfit'
      · exact hkeeps.2
    exact pauseOk_dequeues hd (by rw [enqueue_mmu]; exact hadmitted)

/-- The invariant of a run: the bytes agree, and the pauses are right. -/
structure Calm (c : SwitchConfig) (s : SwitchNode) : Prop where
  agree : Agree c none s
  pauses : PauseOk nowhere s.mmu

theorem calm_step (s : SwitchNode) (e : Event) (t : SwitchNode) (h : Calm c s)
    (hkeeps : KeepsPauses c s e) (hstep : step c s e = some t) : Calm c t := by
  refine ⟨agree_step s e t h.agree hkeeps.1 hstep, ?_⟩
  cases e with
  | receive d p stale => exact pauseOk_receive h.pauses h.agree hkeeps hstep
  | transmitComplete d =>
    obtain ⟨-, hd⟩ := transmitComplete_cases hstep
    exact pauseOk_dequeues hd (by simpa using h.pauses)
  | deliver d =>
    obtain ⟨⟨p, u⟩, hdeliver, rfl⟩ := Option.map_eq_some_iff.mp hstep
    obtain ⟨rest, -, rfl⟩ := deliver_cases hdeliver
    exact h.pauses
  | takeDown d => exact absurd hkeeps.2 id
  | setRoutes rtTable =>
    cases hstep
    exact h.pauses

end Arrival

/-! ## Main result -/

/-- Headroom in use means paused, and a paused slot has a packet in some queue. -/
structure PauseSound (s : SwitchNode) : Prop where
  paused : ∀ i q, q ≠ 0 → 0 < s.mmu.hdrmBytes (i, q) → s.mmu.paused (i, q) = true
  buffered : ∀ i q, q ≠ 0 → s.mmu.paused (i, q) = true →
    0 < ∑ d, weightOf (·.size) (·.flowId) i (s.waiting d q)

theorem Calm.sound {c : SwitchConfig} {s : SwitchNode} (h : Calm c s) : PauseSound s where
  paused i q hq := (h.pauses (i, q) hq id).1
  buffered i q hq hpaused := by
    rw [← h.agree.agrees.ingress i q hq]
    exact (h.pauses (i, q) hq id).2 hpaused

/-- The pauses are right in every run without `TakeDown` in which every charged
packet gets into its queue and the sums stay in 32 bits. -/
theorem pause_sound (c : SwitchConfig) (rtTable : UInt32 → List Port) (es : List Event)
    (hkeeps : Guarded (step c) (KeepsPauses c) (create rtTable) es) :
    Always (step c) PauseSound (create rtTable) es := by
  have hstart : Calm c (create rtTable) :=
    ⟨agree_create c rtTable, fun i _ _ => ⟨fun h => absurd h (Nat.lt_irrefl 0), nofun⟩⟩
  exact (always_of_guarded calm_step hstart hkeeps).mono fun _ h => h.sound

/-- A packet goes through the switch. -/
theorem pause_sound_through :
    Always (step twoPortConfig) PauseSound (create toPortTwo)
      [.receive 1 { size := 1048, pg := 3 } 0, .transmitComplete 2] :=
  pause_sound twoPortConfig toPortTwo _ (by decide +kernel)

/-! ## A packet that is refused -/

/-- A buffer of 2000 MiB, more than the 1000 MiB an egress queue takes, and links
eight times as fast as the NICs. -/
def bigBufferConfig : SwitchConfig :=
  { twoPortConfig with
    mmu := configSwitch 12500000000 2000 2 fun _ => { rate := 100000000000, delay := 1000 } }

def refusedRun : List Event := [.receive 1 { size := 1048576000, pg := 3 } 0]

/-- The slot is paused, and nothing is in any queue. -/
theorem refusedRun_stuck :
    ∃ t, run (step bigBufferConfig) (create toPortTwo) refusedRun = some t ∧
      t.mmu.paused (1, 3) = true ∧ ∑ d, weightOf (·.size) (·.flowId) 1 (t.waiting d 3) = 0 := by
  have hrun : (run (step bigBufferConfig) (create toPortTwo) refusedRun).map (fun t =>
      (t.mmu.paused (1, 3), ∑ d, weightOf (·.size) (·.flowId) 1 (t.waiting d 3))) =
        some (true, 0) := by
    decide +kernel
  obtain ⟨t, ht, hvalues⟩ := Option.map_eq_some_iff.mp hrun
  simp only [Prod.mk.injEq] at hvalues
  exact ⟨t, ht, hvalues⟩

end Paraleon.Switch.SwitchNode
