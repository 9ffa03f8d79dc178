import Paraleon.Switch.Dequeue

/-!
# The transmitters of a switch

`DequeueAndTransmit` finds its device READY, calls `SwitchNotifyDequeue`, and
then starts the transmission. A nested call on the same device starts one of its
own in between. `reenters` follows the calls down and tells whether that happens;
`keepsTransmitters_iff` shows that it is the only thing that can go wrong: a step
keeps all transmitters in order if and only if none of its calls comes back to a
device that is waiting.
-/

namespace Paraleon.Switch

/-- Nothing is being sent, or one packet is, and its `TransmitComplete` is
scheduled. -/
def Settled (state : TxMachineState) (currentPkt : Option Packet) (completes : Nat) : Prop :=
  (state = .ready ∧ currentPkt = none ∧ completes = 0) ∨
    (state = .busy ∧ currentPkt.isSome = true ∧ completes = 1)

/-- The assertions of `TransmitStart` and `TransmitComplete`. -/
def Incident.ofTransmitter : Incident → Bool
  | .notReady _ | .notBusy _ | .noPacket _ => true
  | .linkDown _ | .notPaused _ _ | .refused _ _ => false

namespace SwitchNode

/-- The assertions about transmitters that have failed. -/
def broken (s : SwitchNode) : List Incident := s.incidents.filter Incident.ofTransmitter

/-- Every transmitter is settled, and no assertion about one has failed. -/
structure TransmittersOk (s : SwitchNode) : Prop where
  settled : ∀ d, Settled (s.devices d).txMachineState (s.devices d).currentPkt
    (s.devices d).completes
  asserted : s.broken = []

/-- Does `DequeueAndTransmit` on `d`, called while the devices `outer` wait for
their own call to return, start a transmission on one of them? -/
def reenters (c : SwitchConfig) : Nat → List Port → Port → SwitchNode → Bool
  | 0, _, _, _ => false
  | fuel + 1, outer, d, s =>
    let dev := s.devices d
    if dev.linkUp = false then false
    else if dev.txMachineState = .busy then false
    else
      match dev.queue.dequeueRR dev.paused with
      | none => false
      | some (p, queue) =>
        let released := (s.setQueue d queue).removeFromMmu c d queue.qlast p
        outer.contains d ||
          (decide (queue.qlast ≠ 0) &&
            released.mmu.checkShouldResume c.mmu (p.flowId, queue.qlast) &&
            reenters c fuel (d :: outer) p.flowId
              (released.enqueue p.flowId 0 (pfcFrame c p.flowId queue.qlast .resume)))

/-- A call from an event comes back to no device that is waiting. -/
def NoReentry (c : SwitchConfig) (d : Port) (s : SwitchNode) : Prop :=
  reenters c (s.backlog + 1) [] d s = false

instance (c : SwitchConfig) (d : Port) (s : SwitchNode) : Decidable (NoReentry c d s) :=
  inferInstanceAs (Decidable (_ = _))

/-! ## What leaves the transmitters alone -/

section Frame

variable {c : SwitchConfig} {s t u : SwitchNode} {d e : Port} {q : Class} {p : Packet}

/-- The transmitters of `t` are those of `s`, and no assertion about them has
failed in between. -/
structure SameTransmitters (s t : SwitchNode) : Prop where
  state : ∀ d, (t.devices d).txMachineState = (s.devices d).txMachineState
  packet : ∀ d, (t.devices d).currentPkt = (s.devices d).currentPkt
  completes : ∀ d, (t.devices d).completes = (s.devices d).completes
  broken : t.broken = s.broken

theorem SameTransmitters.trans (h : SameTransmitters s t) (h' : SameTransmitters t u) :
    SameTransmitters s u where
  state d := (h'.state d).trans (h.state d)
  packet d := (h'.packet d).trans (h.packet d)
  completes d := (h'.completes d).trans (h.completes d)
  broken := h'.broken.trans h.broken

theorem SameTransmitters.symm (h : SameTransmitters s t) : SameTransmitters t s where
  state d := (h.state d).symm
  packet d := (h.packet d).symm
  completes d := (h.completes d).symm
  broken := h.broken.symm

theorem TransmittersOk.of_same (hok : TransmittersOk s) (h : SameTransmitters s t) :
    TransmittersOk t where
  settled d := by
    rw [h.state, h.packet, h.completes]
    exact hok.settled d
  asserted := h.broken.trans hok.asserted

theorem SameTransmitters.ok_iff (h : SameTransmitters s t) : TransmittersOk t ↔ TransmittersOk s :=
  ⟨fun ht => ht.of_same h.symm, fun hs => hs.of_same h⟩

/-- A device keeps its transmitter when other fields of it change. -/
theorem sameTransmitters_setDevice {dev : QbbNetDevice}
    (hstate : dev.txMachineState = (s.devices d).txMachineState)
    (hpacket : dev.currentPkt = (s.devices d).currentPkt)
    (hcompletes : dev.completes = (s.devices d).completes) :
    SameTransmitters s (s.setDevice d dev) := by
  constructor
  · intro e
    by_cases h : e = d
    · rw [h, setDevice_self, hstate]
    · rw [setDevice_other _ _ h]
  · intro e
    by_cases h : e = d
    · rw [h, setDevice_self, hpacket]
    · rw [setDevice_other _ _ h]
  · intro e
    by_cases h : e = d
    · rw [h, setDevice_self, hcompletes]
    · rw [setDevice_other _ _ h]
  · rfl

theorem sameTransmitters_incident {ok : Bool} {i : Incident} (h : i.ofTransmitter = false) :
    SameTransmitters s (s.incident ok i) := by
  refine ⟨fun d => by rw [incident_devices], fun d => by rw [incident_devices],
    fun d => by rw [incident_devices], ?_⟩
  unfold incident
  split
  · rfl
  · simp [broken, h]

theorem sameTransmitters_enqueue : SameTransmitters s (s.enqueue d q p) := by
  rcases enqueue_cases s d q p with ⟨queue, -, heq⟩ | heq
  · rw [heq]
    exact sameTransmitters_setDevice rfl rfl rfl
  · rw [heq]
    exact sameTransmitters_incident rfl

theorem sameTransmitters_setQueue (queue : BEgressQueue) :
    SameTransmitters s (s.setQueue d queue) :=
  sameTransmitters_setDevice rfl rfl rfl

theorem sameTransmitters_release (queue : BEgressQueue) :
    SameTransmitters s ((s.setQueue d queue).removeFromMmu c d q p) :=
  (sameTransmitters_setQueue queue).trans ⟨fun _ => rfl, fun _ => rfl, fun _ => rfl, rfl⟩

theorem sameTransmitters_mmu (m : SwitchMmu) : SameTransmitters s { s with mmu := m } :=
  ⟨fun _ => rfl, fun _ => rfl, fun _ => rfl, rfl⟩

end Frame

/-! ## Starting a transmission -/

section Start

variable {c : SwitchConfig} {s t : SwitchNode} {d e : Port} {p : Packet}

@[simp] theorem transmitStart_state_self :
    ((s.transmitStart d p).devices d).txMachineState = .busy := by
  simp [transmitStart]

theorem transmitStart_other (h : e ≠ d) : (s.transmitStart d p).devices e = s.devices e := by
  rw [transmitStart, setDevice_other _ _ h, incident_devices]

/-- On a READY device all stays in order. -/
theorem ok_transmitStart (hready : (s.devices d).txMachineState = .ready) (h : TransmittersOk s) :
    TransmittersOk (s.transmitStart d p) := by
  constructor
  · intro e
    rcases eq_or_ne e d with rfl | he
    · obtain ⟨-, -, hzero⟩ | ⟨hbusy, -, -⟩ := h.settled e
      · simp [transmitStart, Settled, hzero]
      · simp [hready] at hbusy
    · rw [transmitStart_other he]
      exact h.settled e
  · show (s.incident _ _).broken = []
    rw [hready]
    exact h.asserted

/-- On a BUSY device "Must be READY to transmit" fails. -/
theorem broken_transmitStart (hbusy : (s.devices d).txMachineState = .busy) :
    (s.transmitStart d p).broken ≠ [] := by
  simp [transmitStart, incident, hbusy, broken, setDevice, Incident.ofTransmitter]

theorem broken_of_mem {i : Incident} (hi : i.ofTransmitter = true) (hmem : i ∈ s.incidents) :
    s.broken ≠ [] :=
  List.ne_nil_of_mem (List.mem_filter.mpr ⟨hmem, hi⟩)

theorem exists_of_broken (h : s.broken ≠ []) :
    ∃ i ∈ s.incidents, Incident.ofTransmitter i = true := by
  obtain ⟨i, hi⟩ := List.exists_mem_of_ne_nil _ h
  exact ⟨i, List.mem_filter.mp hi⟩

/-- A failed assertion stays on record through a call. -/
theorem broken_dequeues (hd : Dequeues c d s t) (h : s.broken ≠ []) : t.broken ≠ [] := by
  obtain ⟨i, hmem, hi⟩ := exists_of_broken h
  exact broken_of_mem hi (mem_dequeues hd hmem)

end Start

/-! ## One call -/

section Call

variable {c : SwitchConfig} {s t : SwitchNode} {d : Port} {fuel : Nat} {outer : List Port}

theorem reenters_idle (hidle : (s.devices d).linkUp = false ∨
    (s.devices d).txMachineState = .busy ∨
    (s.devices d).queue.dequeueRR (s.devices d).paused = none) :
    reenters c (fuel + 1) outer d s = false := by
  rw [reenters]
  rcases hidle with h | h | h
  · rw [if_pos h]
  · rw [if_pos h, ite_self]
  · rw [h, ite_self, ite_self]

theorem reenters_ready {p : Packet} {queue : BEgressQueue} (hup : ¬ (s.devices d).linkUp = false)
    (hbusy : ¬ (s.devices d).txMachineState = .busy)
    (hdeq : (s.devices d).queue.dequeueRR (s.devices d).paused = some (p, queue)) :
    reenters c (fuel + 1) outer d s =
      (outer.contains d ||
        (decide (queue.qlast ≠ 0) &&
          ((s.setQueue d queue).removeFromMmu c d queue.qlast p).mmu.checkShouldResume c.mmu
            (p.flowId, queue.qlast) &&
          reenters c fuel (d :: outer) p.flowId
            (((s.setQueue d queue).removeFromMmu c d queue.qlast p).enqueue p.flowId 0
              (pfcFrame c p.flowId queue.qlast .resume)))) := by
  rw [reenters, if_neg hup, if_neg hbusy, hdeq]

/-- A call does nothing, or sends a packet, or sends one after a nested call on
the port it came in by. -/
theorem dequeueAndTransmit_cases (h : dequeueAndTransmit c (fuel + 1) d s = some t) :
    (t = s ∧ ∀ outer, reenters c (fuel + 1) outer d s = false) ∨
    (∃ u p, SameTransmitters s u ∧ (s.devices d).txMachineState = .ready ∧
      t = u.transmitStart d p ∧ ∀ outer, reenters c (fuel + 1) outer d s = outer.contains d) ∨
    (∃ (u v : SwitchNode) (m : SwitchMmu) (p : Packet), SameTransmitters s u ∧
      (s.devices d).txMachineState = .ready ∧ dequeueAndTransmit c fuel p.flowId u = some v ∧
      t = ({ v with mmu := m } : SwitchNode).transmitStart d p ∧
      ∀ outer, reenters c (fuel + 1) outer d s =
        (outer.contains d || reenters c fuel (d :: outer) p.flowId u)) := by
  simp only [dequeueAndTransmit] at h
  split at h
  · next hdown =>
    cases h
    exact .inl ⟨rfl, fun _ => reenters_idle (.inl hdown)⟩
  next hup =>
  split at h
  · next hbusy =>
    cases h
    exact .inl ⟨rfl, fun _ => reenters_idle (.inr (.inl hbusy))⟩
  next hbusy =>
  have hready : (s.devices d).txMachineState = .ready := by
    cases hs : (s.devices d).txMachineState with
    | ready => rfl
    | busy => exact absurd hs hbusy
  split at h
  · next hdeq =>
    cases h
    exact .inl ⟨rfl, fun _ => reenters_idle (.inr (.inr hdeq))⟩
  next p queue hdeq =>
  -- from here on a packet has left its queue; the port starts once the hook returns
  obtain ⟨v, hnotify, rfl⟩ : ∃ v, switchNotifyDequeue (dequeueAndTransmit c fuel) c
      (s.setQueue d queue) d queue.qlast p = some v ∧ v.transmitStart d p = t := by
    simpa [Option.bind_eq_some_iff] using h
  right
  unfold switchNotifyDequeue at hnotify
  split at hnotify
  · next hne =>
    unfold checkAndSendResume at hnotify
    split at hnotify
    · next hresume =>
      -- the resume is sent from the hook, which is where another port can be entered
      obtain ⟨u, hnested, rfl⟩ : ∃ u, dequeueAndTransmit c fuel p.flowId
          (((s.setQueue d queue).removeFromMmu c d queue.qlast p).enqueue p.flowId 0
            (pfcFrame c p.flowId queue.qlast .resume)) = some u ∧
          { u with mmu := u.mmu.setResume (p.flowId, queue.qlast) } = v := by
        simpa [sendPfc, switchSend, Option.bind_eq_some_iff] using hnotify
      right
      refine ⟨_, u, u.mmu.setResume (p.flowId, queue.qlast), p,
        (sameTransmitters_release queue).trans sameTransmitters_enqueue, hready, hnested, rfl, ?_⟩
      intro outer
      rw [reenters_ready hup hbusy hdeq, decide_eq_true hne, hresume, Bool.true_and, Bool.true_and]
    · next hno =>
      cases hnotify
      refine .inl ⟨_, p, sameTransmitters_release queue, hready, rfl, fun outer => ?_⟩
      rw [reenters_ready hup hbusy hdeq, eq_false_of_ne_true hno, Bool.and_false, Bool.false_and,
        Bool.or_false]
  · next hzero =>
    cases hnotify
    refine .inl ⟨_, p, sameTransmitters_setQueue queue, hready, rfl, fun outer => ?_⟩
    rw [reenters_ready hup hbusy hdeq, decide_eq_false hzero, Bool.false_and, Bool.false_and,
      Bool.or_false]

/-- Without re-entry a call keeps the transmitters in order, and does not touch
those of the devices that wait. -/
theorem ok_dequeueAndTransmit (h : dequeueAndTransmit c fuel d s = some t)
    (hno : reenters c fuel outer d s = false) (hok : TransmittersOk s) :
    TransmittersOk t ∧
      ∀ e ∈ outer, (t.devices e).txMachineState = (s.devices e).txMachineState := by
  induction fuel generalizing d s t outer with
  | zero => cases h
  | succ fuel ih =>
    rcases dequeueAndTransmit_cases h with ⟨rfl, -⟩ | ⟨u, p, hsame, hready, rfl, hre⟩ |
      ⟨u, v, m, p, hsame, hready, hnested, rfl, hre⟩
    · exact ⟨hok, fun _ _ => rfl⟩
    · rw [hre] at hno
      refine ⟨ok_transmitStart (by rw [hsame.state, hready]) (hok.of_same hsame), ?_⟩
      intro e he
      have hne : e ≠ d := fun hx => by simp [← hx, he] at hno
      rw [transmitStart_other hne, hsame.state]
    · rw [hre, Bool.or_eq_false_iff] at hno
      obtain ⟨hv, hwait⟩ := ih hnested hno.2 (hok.of_same hsame)
      have hd : (v.devices d).txMachineState = .ready := by
        rw [hwait d List.mem_cons_self, hsame.state, hready]
      refine ⟨ok_transmitStart hd (hv.of_same (sameTransmitters_mmu m)), ?_⟩
      intro e he
      have hne : e ≠ d := fun hx => by simp [← hx, he] at hno
      rw [transmitStart_other hne]
      exact (hwait e (List.mem_cons_of_mem _ he)).trans (hsame.state e)

/-- With re-entry an assertion has failed, or a device that waits is BUSY, so
that its own `TransmitStart` will fail. -/
theorem broken_dequeueAndTransmit (h : dequeueAndTransmit c fuel d s = some t)
    (hre : reenters c fuel outer d s = true) :
    t.broken ≠ [] ∨ ∃ e ∈ outer, (t.devices e).txMachineState = .busy := by
  induction fuel generalizing d s t outer with
  | zero => cases h
  | succ fuel ih =>
    rcases dequeueAndTransmit_cases h with ⟨rfl, hnone⟩ | ⟨u, p, -, -, rfl, heq⟩ |
      ⟨u, v, m, p, -, -, hnested, rfl, heq⟩
    · rw [hnone] at hre
      cases hre
    · rw [heq] at hre
      exact .inr ⟨d, by simpa using hre, transmitStart_state_self⟩
    · rw [heq, Bool.or_eq_true] at hre
      rcases hre with hmem | hre
      · exact .inr ⟨d, by simpa using hmem, transmitStart_state_self⟩
      · rcases ih hnested hre with hbroken | ⟨e, he, hbusy⟩
        · obtain ⟨i, hmem, hi⟩ := exists_of_broken hbroken
          exact .inl (broken_of_mem hi (mem_transmitStart hmem))
        · rcases eq_or_ne e d with rfl | hed
          · exact .inl (broken_transmitStart hbusy)
          · refine .inr ⟨e, (List.mem_cons.mp he).resolve_left hed, ?_⟩
            rw [transmitStart_other hed]
            exact hbusy

/-- A call from an event keeps the transmitters in order exactly when it comes
back to no device that is waiting. -/
theorem ok_dequeue_iff (hok : TransmittersOk s) (h : dequeue c d s = some t) :
    TransmittersOk t ↔ NoReentry c d s := by
  constructor
  · intro ht
    by_contra hre
    rcases broken_dequeueAndTransmit h (eq_true_of_ne_false hre) with hbroken | ⟨e, he, -⟩
    · exact hbroken ht.asserted
    · cases he
  · intro hno
    exact (ok_dequeueAndTransmit h hno hok).1

/-- What goes wrong in a call from an event is on record after it. -/
theorem ok_dequeue_of_asserted (hok : TransmittersOk s) (h : dequeue c d s = some t)
    (hasserted : t.broken = []) : TransmittersOk t := by
  refine (ok_dequeue_iff hok h).mpr ?_
  by_contra hre
  rcases broken_dequeueAndTransmit h (eq_true_of_ne_false hre) with hbroken | ⟨e, he, -⟩
  · exact hbroken hasserted
  · cases he

end Call

/-! ## The events of the switch -/

/-- The state in which `Resume` calls `DequeueAndTransmit`. -/
def resumed (s : SwitchNode) (d : Port) (qIndex : Class) : SwitchNode :=
  let dev := s.devices d
  (s.incident (dev.paused qIndex) (.notPaused d qIndex)).setDevice d
    { dev with paused := Function.update dev.paused qIndex false }

/-- The state in which `TransmitComplete` calls it. -/
def completed (s : SwitchNode) (d : Port) : SwitchNode :=
  let dev := s.devices d
  ((s.incident (dev.txMachineState = .busy) (.notBusy d)).incident dev.currentPkt.isSome
    (.noPacket d)).setDevice d
      { dev with txMachineState := .ready, currentPkt := none, completes := dev.completes - 1 }

/-- The state in which the `SendPfc` of a pause calls it. -/
def pausing (c : SwitchConfig) (s : SwitchNode) (idx : Port) (qIndex : Class) (p : Packet) :
    SwitchNode :=
  (s.updateMmu c idx qIndex p).enqueue p.flowId 0 (pfcFrame c p.flowId qIndex .pause)

/-- The calls of `SendToDev` come back to no device that is waiting. -/
def SendsInOrder (c : SwitchConfig) (s : SwitchNode) (idx : Port) (p : Packet) : Prop :=
  (queueIndex c p ≠ 0 →
    (s.updateMmu c idx (queueIndex c p) p).mmu.checkShouldPause c.mmu
      (p.flowId, queueIndex c p) = true →
    NoReentry c p.flowId (s.pausing c idx (queueIndex c p) p)) ∧
  ∀ u ∈ s.admission c idx (queueIndex c p) p, NoReentry c idx (u.enqueue idx (queueIndex c p) p)

/-- What a step has to keep: no call it makes comes back to a device that is
waiting. -/
def KeepsTransmitters (c : SwitchConfig) (s : SwitchNode) : Event → Prop
  | .receive d p stale => (s.devices d).linkUp = true →
      (p.l3Prot = 0xFE → c.qbbEnabled d = true → p.pfcTime = 0 →
        NoReentry c d (s.resumed d p.pfcQIndex)) ∧
      (p.l3Prot ≠ 0xFE → ∀ idx ∈ s.getOutDev c { p with flowId := d } stale,
        SendsInOrder c (s.incident (s.devices idx).linkUp (.linkDown idx)) idx
          { p with flowId := d })
  | .transmitComplete d => NoReentry c d (s.completed d)
  | _ => True

instance (c : SwitchConfig) (s : SwitchNode) (idx : Port) (p : Packet) :
    Decidable (SendsInOrder c s idx p) := by
  unfold SendsInOrder
  infer_instance

instance (c : SwitchConfig) (s : SwitchNode) (e : Event) : Decidable (KeepsTransmitters c s e) :=
  match e with
  | .receive _ _ _ => inferInstanceAs (Decidable (_ → _ ∧ _))
  | .transmitComplete _ => inferInstanceAs (Decidable (NoReentry ..))
  | .deliver _ | .takeDown _ | .setRoutes _ => isTrue trivial

section Events

variable {c : SwitchConfig} {s t : SwitchNode} {d idx : Port} {q : Class} {p : Packet}

theorem sameTransmitters_resumed : SameTransmitters s (s.resumed d q) :=
  SameTransmitters.trans (sameTransmitters_incident rfl)
    (sameTransmitters_setDevice (by rw [incident_devices]) (by rw [incident_devices])
      (by rw [incident_devices]))

/-- A `TransmitComplete` that is scheduled finds its packet and leaves the device
READY. -/
theorem ok_completed (hok : TransmittersOk s) (hscheduled : (s.devices d).completes ≠ 0) :
    TransmittersOk (s.completed d) := by
  obtain ⟨hbusy, hpacket, hone⟩ : (s.devices d).txMachineState = .busy ∧
      (s.devices d).currentPkt.isSome = true ∧ (s.devices d).completes = 1 :=
    (hok.settled d).resolve_left fun h => hscheduled h.2.2
  constructor
  · intro e
    rcases eq_or_ne e d with rfl | he
    · simp [completed, Settled, hone]
    · rw [completed, setDevice_other _ _ he, incident_devices, incident_devices]
      exact hok.settled e
  · show ((s.incident _ _).incident _ _).broken = []
    rw [hbusy, hpacket]
    exact hok.asserted

theorem ok_admit_iff (hok : TransmittersOk s) (h : s.admission c idx q p = some t) :
    TransmittersOk t ↔ (q ≠ 0 →
      (s.updateMmu c idx q p).mmu.checkShouldPause c.mmu (p.flowId, q) = true →
      NoReentry c p.flowId (s.pausing c idx q p)) := by
  have hupdate : SameTransmitters s (s.updateMmu c idx q p) := sameTransmitters_mmu _
  rcases admit_calls h with ⟨hzero, rfl⟩ | ⟨-, hno, rfl⟩ | ⟨hne, hdue, u, hcall, rfl⟩
  · exact ⟨fun _ hne => absurd hzero hne, fun _ => hok⟩
  · exact ⟨fun _ _ hdue => by simp [hno] at hdue, fun _ => hok.of_same hupdate⟩
  · rw [(sameTransmitters_mmu _).ok_iff,
      ok_dequeue_iff (hok.of_same (hupdate.trans sameTransmitters_enqueue)) hcall]
    exact ⟨fun hno _ _ => hno, fun hno => hno hne hdue⟩

theorem ok_admit_of_asserted (hok : TransmittersOk s) (h : s.admission c idx q p = some t)
    (hasserted : t.broken = []) : TransmittersOk t := by
  have hupdate : SameTransmitters s (s.updateMmu c idx q p) := sameTransmitters_mmu _
  rcases admit_calls h with ⟨-, rfl⟩ | ⟨-, -, rfl⟩ | ⟨-, -, u, hcall, rfl⟩
  · exact hok
  · exact hok.of_same hupdate
  · exact (ok_dequeue_of_asserted (hok.of_same (hupdate.trans sameTransmitters_enqueue)) hcall
      hasserted).of_same (sameTransmitters_mmu _)

theorem ok_sendToDev_iff {stale : UInt32} (hok : TransmittersOk s)
    (h : s.sendToDev c p stale = some t) :
    TransmittersOk t ↔ ∀ idx ∈ s.getOutDev c p stale,
      SendsInOrder c (s.incident (s.devices idx).linkUp (.linkDown idx)) idx p := by
  rcases sendToDev_calls h with ⟨hout, rfl⟩ | ⟨idx, u, hout, hadmission, hcall⟩
  · simp [hout, hok]
  have hlink : TransmittersOk (s.incident (s.devices idx).linkUp (.linkDown idx)) :=
    hok.of_same (sameTransmitters_incident rfl)
  have hadmitted := ok_admit_iff hlink hadmission
  have hsent (hu : TransmittersOk u) : TransmittersOk t ↔
      NoReentry c idx (u.enqueue idx (queueIndex c p) p) :=
    ok_dequeue_iff (hu.of_same sameTransmitters_enqueue) hcall
  simp only [hout, Option.mem_some_iff, forall_eq', SendsInOrder, hadmission]
  constructor
  · intro ht
    -- an assertion that fails at admission is still on record after the packet was sent
    have hu : TransmittersOk u := by
      refine ok_admit_of_asserted hlink hadmission ?_
      by_contra hbroken
      exact broken_dequeues (dequeues_of_dequeue hcall)
        (by rwa [sameTransmitters_enqueue.broken]) ht.asserted
    exact ⟨hadmitted.mp hu, (hsent hu).mp ht⟩
  · rintro ⟨hpause, hsend⟩
    exact (hsent (hadmitted.mpr hpause)).mpr hsend

theorem ok_receive_iff {stale : UInt32} (hok : TransmittersOk s)
    (h : s.receive c d p stale = some t) :
    TransmittersOk t ↔ KeepsTransmitters c s (.receive d p stale) := by
  simp only [receive] at h
  unfold KeepsTransmitters
  split at h
  · next hdown =>
    cases h
    simp [hdown, hok]
  next hup =>
  have hup : (s.devices d).linkUp = true := by simpa using hup
  split at h
  · next hpfc =>
    split at h
    · next hqbb =>
      cases h
      simp [hpfc, hqbb, hok]
    next hqbb =>
    split at h
    · next htime =>
      cases h
      -- a pause only sets a flag
      have hzero : p.pfcTime ≠ 0 := fun hx => by simp [hx] at htime
      have hset : TransmittersOk (s.setDevice d { s.devices d with
          paused := Function.update (s.devices d).paused p.pfcQIndex true }) :=
        hok.of_same (sameTransmitters_setDevice rfl rfl rfl)
      simp [hpfc, hzero, hset]
    · next htime =>
      -- a resume may send at once
      have hzero : p.pfcTime = 0 := by simpa using htime
      rw [resume] at h
      rw [ok_dequeue_iff (hok.of_same sameTransmitters_resumed) h]
      simp [hup, hpfc, hqbb, hzero, resumed]
  · next hpfc =>
    rw [ok_sendToDev_iff hok h]
    simp [hup, hpfc]

/-- A step keeps the transmitters in order exactly when none of its calls comes
back to a device that is waiting. -/
theorem keepsTransmitters_iff {e : Event} (hok : TransmittersOk s) (hstep : step c s e = some t) :
    TransmittersOk t ↔ KeepsTransmitters c s e := by
  cases e with
  | receive d p stale => exact ok_receive_iff hok hstep
  | transmitComplete d =>
    simp only [step, transmitComplete] at hstep
    split at hstep
    · cases hstep
    · next hscheduled => exact ok_dequeue_iff (ok_completed hok hscheduled) hstep
  | deliver d =>
    obtain ⟨⟨p, u⟩, hdeliver, rfl⟩ := Option.map_eq_some_iff.mp hstep
    obtain ⟨rest, -, rfl⟩ := deliver_cases hdeliver
    exact iff_of_true (hok.of_same (sameTransmitters_setDevice rfl rfl rfl)) trivial
  | takeDown d =>
    cases hstep
    exact iff_of_true (hok.of_same (sameTransmitters_setDevice rfl rfl rfl)) trivial
  | setRoutes rtTable =>
    cases hstep
    exact iff_of_true ⟨hok.settled, hok.asserted⟩ trivial

theorem transmittersOk_create (rtTable : UInt32 → List Port) : TransmittersOk (create rtTable) :=
  ⟨fun _ => .inl ⟨rfl, rfl, rfl⟩, rfl⟩

end Events

end SwitchNode

end Paraleon.Switch
