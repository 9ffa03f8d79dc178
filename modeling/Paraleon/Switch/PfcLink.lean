import Paraleon.Library.Mirror
import Paraleon.Library.Runs
import Paraleon.Switch.Config
import Paraleon.Switch.Dequeue

/-!
# PFC agreement over a link

A switch port and the device at the other end of its link. `SendPfc` puts a frame
into class 0 of the port, from where it goes over the wire in order; the
neighbour's `m_paused` follows the `paused` of the MMU, with the frames on the
way in between.

* `inStep_dequeues`: `DequeueAndTransmit` keeps the frames of a class and the
  flag in step, although a resume frame is sent before `SetResume`, with nested
  calls between the two.
* `pfc_agrees`: in every run the frames alternate, lead from the neighbour's
  flag to that of the switch, and "Must be PAUSEd" never fails.
-/

namespace Paraleon.Switch

open Runs Mirror

/-- The device at the other end of a link, as far as PFC frames read and change
it. -/
structure Neighbour where
  linkUp : Bool
  qbbEnabled : Bool
  paused : Class → Bool
  /-- The classes whose `Resume` has found "Must be PAUSEd" violated. -/
  notPaused : List Class

namespace Neighbour

def create : Neighbour :=
  { linkUp := true, qbbEnabled := true, paused := fun _ => false, notPaused := [] }

/-- `Resume`, without the `DequeueAndTransmit` at its end: what the neighbour
sends are arbitrary arrivals at the switch. -/
def resume (n : Neighbour) (qIndex : Class) : Neighbour :=
  { n with
    paused := Function.update n.paused qIndex false
    notPaused := if n.paused qIndex then n.notPaused else n.notPaused ++ [qIndex] }

/-- `Receive`; other packets go to the node of the device. -/
def receive (n : Neighbour) (p : Packet) : Neighbour :=
  if n.linkUp = false then n
  else if p.l3Prot = 0xFE then
    if n.qbbEnabled = false then n
    else if 0 < p.pfcTime then { n with paused := Function.update n.paused p.pfcQIndex true }
    else n.resume p.pfcQIndex
  else n

end Neighbour

/-- What a packet tells the neighbour about class `q`: to pause, to resume, or
nothing. -/
def command (q : Class) (p : Packet) : Option Bool :=
  if p.l3Prot = 0xFE ∧ p.pfcQIndex = q then some (decide (0 < p.pfcTime)) else none

namespace SwitchNode

variable (a : Port) (q : Class)

/-- The PFC frames for class `q` that are queued in class 0 of port `a` or in
flight, oldest first. -/
def frames (s : SwitchNode) : List Bool :=
  ((s.devices a).wire ++ s.waiting a 0).filterMap (command q)

/-- No packet that waits in a class from 1 on is a PFC frame. -/
def NoPfcData (s : SwitchNode) : Prop :=
  ∀ r, r ≠ 0 → ∀ p ∈ s.waiting a r, p.l3Prot ≠ 0xFE

end SwitchNode

structure PfcLink where
  node : SwitchNode
  neighbour : Neighbour

namespace PfcLink

open SwitchNode

def create (rtTable : UInt32 → List Port) : PfcLink :=
  { node := .create rtTable, neighbour := .create }

/-- A step of the switch. What leaves the wire of port `a` reaches the neighbour. -/
def step (c : SwitchConfig) (a : Port) (s : PfcLink) : Event → Option PfcLink
  | .deliver d => (s.node.deliver d).map fun (p, node) =>
      { node, neighbour := if d = a then s.neighbour.receive p else s.neighbour }
  | e => (SwitchNode.step c s.node e).map fun node => { s with node }

end PfcLink

namespace SwitchNode

variable {c : SwitchConfig} {s t : SwitchNode} {a d : Port} {q : Class} {p : Packet} {b : Bool}

/-! ## What changes the frames -/

theorem command_of_ne (h : p.l3Prot ≠ 0xFE) : command q p = none := if_neg fun hx => h hx.1

theorem command_pfcFrame (hpause : 0 < c.pausetime d) (r : Class) (type : PfcType) :
    command q (pfcFrame c d r type) = if r = q then some (decide (type = .pause)) else none := by
  cases type <;> simp [command, pfcFrame, hpause]

theorem frames_congr (hwire : (t.devices a).wire = (s.devices a).wire)
    (hqueue : t.waiting a 0 = s.waiting a 0) : t.frames a q = s.frames a q := by
  rw [frames, hwire, hqueue, frames]

/-- A packet that is not a PFC frame goes onto a wire unnoticed. -/
theorem frames_transmitStart (hp : d = a → p.l3Prot ≠ 0xFE) :
    (s.transmitStart d p).frames a q = s.frames a q := by
  unfold frames waiting
  rw [transmitStart_queue]
  rcases eq_or_ne a d with rfl | h
  · simp [transmitStart, command_of_ne (hp rfl)]
  · rw [transmitStart, setDevice_other _ _ h, incident_devices]

/-- The head of class 0 goes from the queue to the wire. -/
theorem frames_control {rest : List Packet} (hq : (s.devices d).queue.queues 0 = p :: rest) :
    ((s.setQueue d ((s.devices d).queue.pop 0 p rest)).transmitStart d p).frames a q =
      s.frames a q := by
  unfold frames waiting
  rw [transmitStart_queue, setQueue_queue]
  rcases eq_or_ne a d with rfl | h
  · simp [transmitStart, hq]
  · rw [if_neg h, transmitStart, setDevice_other _ _ h, incident_devices, setQueue_other _ _ h]

/-- A departure from a class from 1 on touches no frame. -/
theorem frames_release {r : Class} {rest : List Packet} (hr : r ≠ 0) :
    (s.release c d r p rest).frames a q = s.frames a q := by
  unfold frames waiting
  simp only [release, removeFromMmu_devices, setQueue_queue]
  rcases eq_or_ne a d with rfl | h
  · simp [hr.symm]
  · rw [if_neg h, setQueue_other _ _ h]

theorem enqueue_wire (s : SwitchNode) (d e : Port) (q : Class) (p : Packet) :
    ((s.enqueue d q p).devices e).wire = (s.devices e).wire := by
  rcases enqueue_cases s d q p with ⟨queue, -, h⟩ | h
  · rw [h]
    rcases eq_or_ne e d with rfl | hd
    · simp
    · rw [setQueue_other _ _ hd]
  · rw [h, incident_devices]

/-- An `Enqueue` changes the queue it is for. -/
theorem enqueue_waiting_other {r : Class} (h : ¬ (a = d ∧ q = r)) :
    (s.enqueue d r p).waiting a q = s.waiting a q := by
  unfold waiting
  rcases enqueue_cases s d r p with ⟨queue, hqueue, heq⟩ | heq
  · rw [heq, setQueue_queue]
    split
    · next had =>
      subst had
      rw [(BEgressQueue.enqueue_queues hqueue).1, Function.update_of_ne fun hx => h ⟨rfl, hx⟩]
    · rfl
  · rw [heq, incident_devices]

theorem enqueue_waiting_self (hno : .refused d q ∉ (s.enqueue d q p).incidents) :
    (s.enqueue d q p).waiting d q = s.waiting d q ++ [p] := by
  unfold waiting
  rcases enqueue_cases s d q p with ⟨queue, hqueue, heq⟩ | heq
  · rw [heq, setQueue_self]
    simp [(BEgressQueue.enqueue_queues hqueue).1]
  · exact absurd (by simp [heq, incident]) hno

/-! ## One call of `DequeueAndTransmit` -/

/-- The flags in `copy` and the frames of port `a` lead to the flags of the MMU. -/
structure InStep (a : Port) (copy : Class → Bool) (s : SwitchNode) : Prop where
  data : NoPfcData a s
  mirrored : ∀ q, Mirrored (copy q) (s.frames a q) (s.mmu.paused (a, q))

variable {copy : Class → Bool}

/-- `InStep` is about the flags, the frames and the packets that wait. -/
theorem InStep.of_same (h : InStep a copy s) (hpaused : t.mmu.paused = s.mmu.paused)
    (hframes : ∀ q, t.frames a q = s.frames a q)
    (hwaiting : ∀ r, r ≠ 0 → ∀ p ∈ t.waiting a r, p ∈ s.waiting a r) : InStep a copy t where
  data r hr p hp := h.data r hr p (hwaiting r hr p hp)
  mirrored q := by
    rw [hpaused, hframes q]
    exact h.mirrored q

theorem inStep_incident {ok : Bool} {i : Incident} (h : InStep a copy s) :
    InStep a copy (s.incident ok i) :=
  h.of_same (by rw [incident_mmu]) (fun q => frames_congr (by rw [incident_devices])
    (by rw [waiting, incident_devices, waiting])) fun r _ p hp => by
      rwa [waiting, incident_devices] at hp

/-- What `Resume` and `TransmitComplete` do to a device before they call
`DequeueAndTransmit`. -/
theorem inStep_setDevice {dev : QbbNetDevice} (h : InStep a copy s)
    (hwire : dev.wire = (s.devices d).wire) (hqueue : dev.queue = (s.devices d).queue) :
    InStep a copy (s.setDevice d dev) := by
  have hdevice : ((s.setDevice d dev).devices a).wire = (s.devices a).wire ∧
      ((s.setDevice d dev).devices a).queue = (s.devices a).queue := by
    rcases eq_or_ne a d with rfl | hd
    · simp [hwire, hqueue]
    · rw [setDevice_other _ _ hd]
      exact ⟨rfl, rfl⟩
  refine h.of_same rfl (fun q => frames_congr hdevice.1 ?_) fun r _ p hp => ?_
  · rw [waiting, hdevice.2, waiting]
  · rwa [waiting, hdevice.2] at hp

theorem inStep_transmitStart (h : InStep a copy s) (hp : d = a → p.l3Prot ≠ 0xFE) :
    InStep a copy (s.transmitStart d p) :=
  h.of_same (by rw [transmitStart_mmu]) (fun q => frames_transmitStart hp) fun r _ p hp => by
    rwa [waiting, transmitStart_queue] at hp

theorem inStep_release {r : Class} {rest : List Packet} (h : InStep a copy s) (hr : r ≠ 0)
    (hq : (s.devices d).queue.queues r = p :: rest) : InStep a copy (s.release c d r p rest) := by
  refine h.of_same rfl (fun q => frames_release hr) fun r' _ p' hp' => ?_
  simp only [waiting, release, removeFromMmu_devices, setQueue_queue] at hp' ⊢
  split at hp'
  · next had =>
    subst had
    rw [BEgressQueue.pop_queues] at hp'
    rcases eq_or_ne r' r with rfl | hrr
    · rw [Function.update_self] at hp'
      rw [hq]
      exact List.mem_cons_of_mem _ hp'
    · rwa [Function.update_of_ne hrr] at hp'
  · exact hp'

/-- A packet that is not a PFC frame may join any queue. -/
theorem inStep_enqueue {r : Class} (h : InStep a copy s) (hp : p.l3Prot ≠ 0xFE) :
    InStep a copy (s.enqueue d r p) := by
  have hwaiting : ∀ q, (s.enqueue d r p).waiting a q = s.waiting a q ∨
      (s.enqueue d r p).waiting a q = s.waiting a q ++ [p] := by
    intro q
    by_cases hslot : a = d ∧ q = r
    · obtain ⟨rfl, rfl⟩ := hslot
      rcases enqueue_cases s a q p with ⟨queue, hqueue, heq⟩ | heq
      · right
        simp [waiting, heq, (BEgressQueue.enqueue_queues hqueue).1]
      · left
        rw [waiting, heq, incident_devices, waiting]
    · exact .inl (enqueue_waiting_other hslot)
  constructor
  · intro r' hr' p' hp'
    rcases hwaiting r' with heq | heq
    · exact h.data r' hr' p' (heq ▸ hp')
    · rw [heq, List.mem_append, List.mem_singleton] at hp'
      rcases hp' with hp' | rfl
      · exact h.data r' hr' p' hp'
      · exact hp
  · intro q
    have hframes : (s.enqueue d r p).frames a q = s.frames a q := by
      unfold frames
      rw [enqueue_wire]
      rcases hwaiting 0 with heq | heq
      · rw [heq]
      · simp [heq, command_of_ne hp]
    rw [hframes, enqueue_mmu]
    exact h.mirrored q

/-- With packets in class 0, a call sends the oldest of them or nothing. -/
theorem frames_of_control (hd : Dequeues c a s t) (hne : s.waiting a 0 ≠ []) :
    t.mmu = s.mmu ∧ (∀ q, t.frames a q = s.frames a q) ∧
      ∀ r, r ≠ 0 → t.waiting a r = s.waiting a r := by
  cases hd with
  | idle => exact ⟨rfl, fun _ => rfl, fun _ _ => rfl⟩
  | control _ _ hq =>
    refine ⟨by simp, fun q => frames_control hq, fun r hr => ?_⟩
    simp [waiting, hr]
  | data _ _ hzero _ _ _ _ => exact absurd hzero hne
  | dataResume _ _ hzero _ _ _ _ _ => exact absurd hzero hne

/-- `SendPfc` with the change of the flag after it. The nested call is the
argument `hother` unless it runs on port `a` itself: there the frame is in class
0, and the call can only send what is in front. -/
theorem inStep_sendPfc (hpause : 0 < c.pausetime a) {r : Class} {type : PfcType} {m : SwitchMmu}
    (hm : m.paused = Function.update t.mmu.paused (d, r) (decide (type = .pause)))
    (hflag : s.mmu.paused (d, r) ≠ decide (type = .pause))
    (hnested : Dequeues c d (s.enqueue d 0 (pfcFrame c d r type)) t)
    (hno : .refused a 0 ∉ t.incidents) (h : InStep a copy s)
    (hother : InStep a copy (s.enqueue d 0 (pfcFrame c d r type)) → InStep a copy t) :
    InStep a copy { t with mmu := m } := by
  by_cases had : d = a
  · subst had
    -- the frame goes out of the port itself, behind what class 0 has
    have hqueue := enqueue_waiting_self fun hx => hno (mem_dequeues hnested hx)
    obtain ⟨hmmu, hframes, hwaiting⟩ := frames_of_control hnested (by simp [hqueue])
    constructor
    · intro r' hr' p' hp'
      change p' ∈ t.waiting d r' at hp'
      rw [hwaiting r' hr', enqueue_waiting_other fun hx => hr' hx.2] at hp'
      exact h.data r' hr' p' hp'
    · intro q
      have hsent : t.frames d q =
          s.frames d q ++ if r = q then [decide (type = .pause)] else [] := by
        rw [hframes, frames, enqueue_wire, hqueue, ← List.append_assoc, List.filterMap_append,
          ← frames, List.filterMap_cons, command_pfcFrame hpause]
        split <;> simp_all
      show Mirrored (copy q) (t.frames d q) (m.paused (d, q))
      rw [hsent, hm, hmmu, enqueue_mmu]
      rcases eq_or_ne r q with rfl | hrq
      · rw [if_pos rfl, Function.update_self]
        exact (h.mirrored r).send hflag
      · rw [if_neg hrq, List.append_nil,
          Function.update_of_ne fun hx => hrq (Prod.mk.inj hx).2.symm]
        exact h.mirrored q
  -- another port: neither the frames of `a` nor its flags are touched
  · have hsame : InStep a copy (s.enqueue d 0 (pfcFrame c d r type)) := by
      refine h.of_same (by rw [enqueue_mmu]) (fun q => frames_congr (enqueue_wire _ _ _ _ _) ?_)
        fun r' _ p' hp' => ?_
      · exact enqueue_waiting_other fun hx => had hx.1.symm
      · rwa [enqueue_waiting_other fun hx => had hx.1.symm] at hp'
    have hafter := hother hsame
    refine ⟨hafter.data, fun q => ?_⟩
    show Mirrored (copy q) (t.frames a q) (m.paused (a, q))
    rw [hm, Function.update_of_ne fun hx => had (Prod.mk.inj hx).1.symm]
    exact hafter.mirrored q

theorem paused_of_shouldResume {m : SwitchMmu} {i : Slot} (h : m.checkShouldResume c.mmu i = true) :
    m.paused i = true := by
  simp only [SwitchMmu.checkShouldResume, Bool.and_eq_true] at h
  exact h.1.1

theorem not_paused_of_shouldPause {m : SwitchMmu} {i : Slot}
    (h : m.checkShouldPause c.mmu i = true) : m.paused i = false := by
  simp only [SwitchMmu.checkShouldPause, Bool.and_eq_true, Bool.not_eq_true'] at h
  exact h.1

/-- `DequeueAndTransmit` keeps frames and flags in step, at every depth of
nesting. -/
theorem inStep_dequeues (hpause : 0 < c.pausetime a) (hd : Dequeues c d s t)
    (hno : .refused a 0 ∉ t.incidents) (h : InStep a copy s) : InStep a copy t := by
  induction hd with
  | idle => exact h
  | control _ _ hq =>
    refine h.of_same (by simp) (fun q => frames_control hq) fun r hr p hp => ?_
    rw [waiting, transmitStart_queue, setQueue_queue] at hp
    split at hp
    · next had =>
      subst had
      rwa [BEgressQueue.pop_queues, Function.update_of_ne hr] at hp
    · exact hp
  | data _ _ _ _ hne hq _ =>
    refine inStep_transmitStart (inStep_release h hne hq) fun had => ?_
    subst had
    exact h.data _ hne _ (by simp [waiting, hq])
  | dataResume _ _ _ _ hne hq hresume hnested ih =>
    have hno' := fun hx => hno (mem_transmitStart hx)
    refine inStep_transmitStart ?_ fun had => ?_
    · refine inStep_sendPfc hpause rfl ?_ hnested hno' (inStep_release h hne hq) (ih hno')
      simp [paused_of_shouldResume hresume]
    · subst had
      exact h.data _ hne _ (by simp [waiting, hq])

/-! ## The events of the switch -/

theorem inStep_admission (hpause : 0 < c.pausetime a) {idx : Port} {r : Class}
    (hadmission : s.admission c idx r p = some t) (hno : .refused a 0 ∉ t.incidents)
    (h : InStep a copy s) : InStep a copy t := by
  have hupdate : InStep a copy (s.updateMmu c idx r p) := by
    refine h.of_same ?_ (fun _ => rfl) fun _ _ _ hp => hp
    exact SwitchMmu.updateIngressAdmission_paused
  rcases admit_cases hadmission with ⟨-, rfl⟩ | ⟨-, -, rfl⟩ | ⟨-, hdue, u, hu, rfl⟩
  · exact h
  · exact hupdate
  · refine inStep_sendPfc hpause rfl ?_ hu hno hupdate (inStep_dequeues hpause hu hno)
    simp [not_paused_of_shouldPause hdue]

theorem inStep_receive (hpause : 0 < c.pausetime a) {stale : UInt32}
    (hstep : s.receive c d p stale = some t) (hno : .refused a 0 ∉ t.incidents)
    (h : InStep a copy s) : InStep a copy t := by
  rcases receive_cases hstep with rfl | ⟨-, -, rfl⟩ | ⟨-, hd⟩ | ⟨-, hpfc, hsend⟩
  · exact h
  · exact inStep_setDevice h rfl rfl
  · exact inStep_dequeues hpause hd hno (inStep_setDevice (inStep_incident h)
      (by rw [incident_devices]) (by rw [incident_devices]))
  rcases sendToDev_cases hsend with ⟨-, rfl⟩ | ⟨idx, u, -, hadmission, hd⟩
  · exact h
  have hno' : .refused a 0 ∉ u.incidents := fun hx => hno (mem_dequeues hd (mem_enqueue hx))
  exact inStep_dequeues hpause hd hno
    (inStep_enqueue (inStep_admission hpause hadmission hno' (inStep_incident h)) hpfc)

/-- The link of port `a` stays up. -/
def staysUp (a : Port) : Event → Bool
  | .takeDown d => d ≠ a
  | _ => true

/-- Every event but the arrival of a packet at the neighbour keeps frames and
flags in step. -/
theorem inStep_step (hpause : 0 < c.pausetime a) {e : Event} (hup : staysUp a e = true)
    (hdeliver : ∀ d, e ≠ .deliver d) (hstep : step c s e = some t)
    (hno : .refused a 0 ∉ t.incidents) (h : InStep a copy s) : InStep a copy t := by
  cases e with
  | receive d p stale => exact inStep_receive hpause hstep hno h
  | transmitComplete d =>
    obtain ⟨-, hd⟩ := transmitComplete_cases hstep
    exact inStep_dequeues hpause hd hno (inStep_setDevice (inStep_incident (inStep_incident h))
      (by simp only [incident_devices]) (by simp only [incident_devices]))
  | deliver d => exact absurd rfl (hdeliver d)
  | takeDown d =>
    cases hstep
    have had : a ≠ d := fun hx => by simp [staysUp, hx] at hup
    have hdevice : (s.takeDown d).devices a = s.devices a := setDevice_other _ _ had
    refine h.of_same rfl (fun q => frames_congr (by rw [hdevice]) ?_) fun r _ p hp => ?_
    · rw [waiting, hdevice, waiting]
    · rwa [waiting, hdevice] at hp
  | setRoutes rtTable =>
    cases hstep
    exact h.of_same rfl (fun _ => rfl) fun _ _ _ hp => hp

/-- The packet at the end of a wire is the oldest frame, or none. -/
theorem frames_deliver {rest : List Packet} (hwire : (s.devices a).wire = p :: rest) :
    s.frames a q = (command q p).toList ++
      (s.setDevice a { s.devices a with wire := rest }).frames a q := by
  unfold frames waiting
  rw [hwire, setDevice_self, List.cons_append, List.filterMap_cons]
  cases command q p <;> rfl

/-- A packet that leaves another wire changes nothing at port `a`. -/
theorem inStep_deliver_other (had : a ≠ d) (hdeliver : s.deliver d = some (p, t))
    (h : InStep a copy s) : InStep a copy t := by
  obtain ⟨rest, -, rfl⟩ := deliver_cases hdeliver
  have hdevice : (s.setDevice d { s.devices d with wire := rest }).devices a = s.devices a :=
    setDevice_other _ _ had
  refine h.of_same rfl (fun q => frames_congr (by rw [hdevice]) ?_) fun r _ p hp => ?_
  · rw [waiting, hdevice, waiting]
  · rwa [waiting, hdevice] at hp

end SwitchNode

/-! ## The neighbour -/

namespace Neighbour

variable {n : Neighbour} {p : Packet} {q : Class}

/-- On an up link with QbbEnabled, the flags follow the commands. -/
theorem receive_paused (hup : n.linkUp = true) (henabled : n.qbbEnabled = true) (p : Packet)
    (q : Class) : (n.receive p).paused q = (command q p).getD (n.paused q) := by
  have hlink : ¬ n.linkUp = false := by simp [hup]
  have hqbb : ¬ n.qbbEnabled = false := by simp [henabled]
  unfold receive command
  rw [if_neg hlink, if_neg hqbb]
  by_cases hpfc : p.l3Prot = 0xFE
  · rw [if_pos hpfc]
    rcases eq_or_ne p.pfcQIndex q with rfl | hq
    · split
      · next htime => simp [hpfc, htime]
      · next htime => simp [hpfc, htime, resume]
    · split
      · simp [hq, Ne.symm hq]
      · simp [hq, Ne.symm hq, resume]
  · rw [if_neg hpfc, if_neg fun hx => hpfc hx.1, Option.getD_none]

theorem receive_linkUp (n : Neighbour) (p : Packet) : (n.receive p).linkUp = n.linkUp := by
  unfold receive resume
  split_ifs <;> rfl

theorem receive_qbbEnabled (n : Neighbour) (p : Packet) :
    (n.receive p).qbbEnabled = n.qbbEnabled := by
  unfold receive resume
  split_ifs <;> rfl

/-- "Must be PAUSEd" holds when a resume finds its class paused. -/
theorem receive_notPaused (h : ∀ q, command q p = some false → n.paused q = true) :
    (n.receive p).notPaused = n.notPaused := by
  unfold receive
  split_ifs with _ hpfc _ htime
  · rfl
  · rfl
  · rfl
  · have hpaused : n.paused p.pfcQIndex = true := h _ (by simp [command, hpfc, htime])
    simp [resume, hpaused]
  · rfl

/-- A list of packets settles each flag by its commands. -/
theorem foldl_receive (hup : n.linkUp = true) (henabled : n.qbbEnabled = true) (l : List Packet)
    (q : Class) :
    (l.foldl receive n).paused q = settle (n.paused q) (l.filterMap (command q)) := by
  induction l generalizing n with
  | nil => rfl
  | cons p l ih =>
    rw [List.foldl_cons, ih (by rw [receive_linkUp, hup]) (by rw [receive_qbbEnabled, henabled]),
      receive_paused hup henabled, List.filterMap_cons]
    cases command q p <;> rfl

end Neighbour

namespace PfcLink

open SwitchNode

variable {c : SwitchConfig} {a : Port} {s t : PfcLink}

/-- The invariant of the two parties and what is between them. -/
structure Joined (a : Port) (s : PfcLink) : Prop where
  up : s.neighbour.linkUp = true
  enabled : s.neighbour.qbbEnabled = true
  inStep : InStep a s.neighbour.paused s.node
  never : s.neighbour.notPaused = []

/-- What the claimed agreement needs of a step: the link stays up, and class 0 of
the port takes every frame. -/
def Accepting (c : SwitchConfig) (a : Port) (s : PfcLink) (e : Event) : Prop :=
  staysUp a e = true ∧ ∀ t ∈ step c a s e, .refused a 0 ∉ t.node.incidents

instance (c : SwitchConfig) (a : Port) (s : PfcLink) (e : Event) :
    Decidable (Accepting c a s e) := by
  unfold Accepting
  infer_instance

/-- The neighbour takes the oldest packet on the wire. -/
theorem joined_deliver {p : Packet} {node : SwitchNode}
    (hdeliver : s.node.deliver a = some (p, node)) (h : Joined a s) :
    Joined a { node, neighbour := s.neighbour.receive p } := by
  obtain ⟨rest, hwire, rfl⟩ := deliver_cases hdeliver
  have hmirrored : ∀ q, (∀ b, command q p = some b → s.neighbour.paused q ≠ b) ∧
      Mirrored ((command q p).getD (s.neighbour.paused q))
        ((s.node.setDevice a { s.node.devices a with wire := rest }).frames a q)
        (s.node.mmu.paused (a, q)) := by
    intro q
    have hq := h.inStep.mirrored q
    rw [frames_deliver hwire] at hq
    cases hcommand : command q p with
    | none =>
      rw [hcommand] at hq
      exact ⟨nofun, hq⟩
    | some b =>
      rw [hcommand] at hq
      obtain ⟨hne, hrest⟩ := hq.receive
      exact ⟨fun b' hb' => Option.some.inj hb' ▸ hne, hrest⟩
  refine ⟨by rw [Neighbour.receive_linkUp, h.up], by rw [Neighbour.receive_qbbEnabled, h.enabled],
    ⟨fun r hr p' hp' => h.inStep.data r hr p' ?_, fun q => ?_⟩, ?_⟩
  · rwa [waiting, setDevice_self] at hp'
  · rw [Neighbour.receive_paused h.up h.enabled]
    exact (hmirrored q).2
  · refine (Neighbour.receive_notPaused fun q hq => ?_).trans h.never
    exact eq_true_of_ne_false ((hmirrored q).1 false hq)

theorem joined_step (hpause : 0 < c.pausetime a) (s : PfcLink) (e : Event) (t : PfcLink)
    (h : Joined a s) (haccepting : Accepting c a s e) (hstep : step c a s e = some t) :
    Joined a t := by
  have hno : .refused a 0 ∉ t.node.incidents := haccepting.2 t hstep
  by_cases hdeliver : ∃ d, e = .deliver d
  · obtain ⟨d, rfl⟩ := hdeliver
    obtain ⟨⟨p, node⟩, hnode, rfl⟩ := Option.map_eq_some_iff.mp hstep
    rcases eq_or_ne d a with rfl | had
    · simpa using joined_deliver hnode h
    · simp only [if_neg had]
      exact ⟨h.up, h.enabled, inStep_deliver_other (Ne.symm had) hnode h.inStep, h.never⟩
  · obtain ⟨node, hnode, rfl⟩ : ∃ node, SwitchNode.step c s.node e = some node ∧
        { s with node := node } = t := by
      rw [← Option.map_eq_some_iff]
      cases e with
      | deliver d => exact absurd ⟨d, rfl⟩ hdeliver
      | receive | transmitComplete | takeDown | setRoutes => exact hstep
    exact ⟨h.up, h.enabled, inStep_step hpause haccepting.1 (fun d hd => hdeliver ⟨d, hd⟩) hnode hno
      h.inStep, h.never⟩

theorem joined_create (a : Port) (rtTable : UInt32 → List Port) : Joined a (create rtTable) :=
  ⟨rfl, rfl, ⟨fun _ _ _ hp => absurd hp List.not_mem_nil, fun _ => .start _⟩, rfl⟩

/-! ## Main result -/

/-- The two ends of a link agree about PFC. -/
structure PfcAgrees (a : Port) (s : PfcLink) : Prop where
  alternate : ∀ q, (s.node.frames a q).IsChain (· ≠ ·)
  /-- The neighbour's flag, when everything on the way has been received. -/
  applied : ∀ q, (((s.node.devices a).wire ++ s.node.waiting a 0).foldl Neighbour.receive
    s.neighbour).paused q = s.node.mmu.paused (a, q)
  equal : ∀ q, s.node.frames a q = [] → s.neighbour.paused q = s.node.mmu.paused (a, q)
  mustBePaused : s.neighbour.notPaused = []

theorem Joined.agrees (h : Joined a s) : PfcAgrees a s where
  alternate q := (h.inStep.mirrored q).alternates.tail
  applied q := (Neighbour.foldl_receive h.up h.enabled _ q).trans (h.inStep.mirrored q).settles
  equal q hnil := by
    have hq := h.inStep.mirrored q
    rw [hnil] at hq
    exact hq.eq_of_nil
  mustBePaused := h.never

/-- The ends of an up link agree about PFC in every run in which class 0 of the
port takes the frames. -/
theorem pfc_agrees (c : SwitchConfig) (a : Port) (rtTable : UInt32 → List Port) (es : List Event)
    (hpause : 0 < c.pausetime a)
    (haccepting : Guarded (step c a) (Accepting c a) (create rtTable) es) :
    Always (step c a) (PfcAgrees a) (create rtTable) es :=
  (always_of_guarded (joined_step hpause) (joined_create a rtTable) haccepting).mono
    fun _ h => h.agrees

/-- Four ports of 8 Gbit/s and 86016 ns, whose reserves and headrooms take up the
whole buffer: every packet pauses its slot. -/
def tightConfig : SwitchConfig :=
  { mmu := configSwitch 8000000000 1 4 fun _ => { rate := 8000000000, delay := 86016 }
    ecmpSeed := 1, ackHighPrio := true, pausetime := fun _ => 5, qbbEnabled := fun _ => true }

/-- One packet pauses and resumes the neighbour, which gets the two frames one
after the other. -/
theorem pfc_agrees_through :
    Always (step tightConfig 1) (PfcAgrees 1) (create fun _ => [2])
      [.receive 1 { size := 1048, pg := 3 } 0, .deliver 1, .transmitComplete 1, .deliver 1] :=
  pfc_agrees tightConfig 1 _ _ (by decide) (by decide +kernel)

end PfcLink

end Paraleon.Switch
