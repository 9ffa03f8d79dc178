import Paraleon.Library.Runs
import Paraleon.Rdma.Keys
import Paraleon.Rdma.Nic

/-!
# The groups of queue pairs

`m_qpMap` and the group of each NIC hold references to the same queue pairs. They are
edited in different places: `GetNextQindex` compacts the group of its device, an ACK
takes a completed queue pair out of the map, and `RedistributeQp` rebuilds all groups
while it makes the devices send.

* `view_getNextQindex`: by reference, the choice and the compaction are those of the
  queue of values.
* `partition`: a queue pair of the map that has not finished is in one group, once, and
  a completed one is never put into a group again.
-/

namespace Paraleon.Rdma.QpGroups

open Function Runs
open Switch (Port TxMachineState Packet)

/-- A reference to an `RdmaQueuePair`. -/
abbrev QpId := Nat

/-- A `QbbNetDevice` of the host as `DequeueAndTransmit` sees it, with its group. -/
structure Device where
  linkUp : Bool
  txMachineState : TxMachineState
  paused : Switch.Class → Bool
  rrlast : Nat
  ackQ : List Packet
  qpGrp : List QpId

def Device.create : Device :=
  { linkUp := true, txMachineState := .ready, paused := fun _ => false, rrlast := 0, ackQ := [],
    qpGrp := [] }

/-- The calls of `AddQp` and `DeleteQueuePair`. -/
inductive Call where
  | addQp (d : Port) (q : QpId)
  | deleteQueuePair (q : QpId)
deriving DecidableEq, Repr

/-- The data rate of the device of each entry of `m_nic` is `none` where there is no
such device. -/
structure Config where
  nic : NicConfig
  varWin : Bool
  dataRate : Port → Option UInt64

/-- `RdmaHw` and its devices. `created` counts the queue pairs created so far, which have
the references below it; `m_qpMap` is listed in its order of iteration. -/
structure RdmaHost where
  qps : QpId → NicQueuePair
  created : Nat
  qpMap : List (UInt64 × QpId)
  rtTable : UInt32 → List Port
  devs : Port → Device
  calls : List Call

/-- What there is before the first queue pair. -/
def blank : NicQueuePair :=
  { transport := .create 0 0 false 0, pg := 0, sip := 0, dip := 0, sport := 0, dport := 0,
    nextAvail := 0 }

def start : RdmaHost :=
  { qps := fun _ => blank, created := 0, qpMap := [], rtTable := fun _ => [],
    devs := fun _ => .create, calls := [] }

/-! ## The egress queue -/

/-- The queue of a device with the queue pairs it refers to. -/
def Device.view (qps : QpId → NicQueuePair) (dev : Device) : RdmaEgressQueue :=
  { rrlast := dev.rrlast, ackQ := dev.ackQ, qpGrp := dev.qpGrp.map qps }

/-- The loop of `GetNextQindex` that clears finished queue pairs. -/
def clearFinished (qps : QpId → NicQueuePair) :
    Nat → List QpId → List QpId → Option Nat → List QpId × Option Nat
  | _, [], kept, res => (kept, res)
  | i, q :: rest, kept, res =>
    if (qps q).transport.isFinished then clearFinished qps (i + 1) rest kept res
    else clearFinished qps (i + 1) rest (kept ++ [q])
      (if res = some i then some kept.length else res)

def getNextQindex (c : NicConfig) (now : Nat) (qps : QpId → NicQueuePair) (dev : Device) :
    Qindex × Device :=
  if dev.paused c.ackQIdx = false ∧ dev.ackQ ≠ [] then (.highPrio, dev)
  else
    let (res, minFinishId) :=
      (dev.view qps).scan now dev.paused (List.range' 1 dev.qpGrp.length) none
    let (qpGrp, res) :=
      match minFinishId with
      | none => (dev.qpGrp, res)
      | some m => clearFinished qps (m + 1) (dev.qpGrp.drop (m + 1)) (dev.qpGrp.take m) res
    (res.elim .none .qp, { dev with qpGrp })

section GetNextQindex

variable {c : NicConfig} {now : Nat} {qps : QpId → NicQueuePair} {dev : Device}

variable (qps) in
theorem map_clearFinished (i : Nat) (rest kept : List QpId) (res : Option Nat) :
    RdmaEgressQueue.clearFinished i (rest.map qps) (kept.map qps) res =
      ((clearFinished qps i rest kept res).1.map qps, (clearFinished qps i rest kept res).2) := by
  induction rest generalizing i kept res with
  | nil => rfl
  | cons q rest ih =>
    rw [List.map_cons, RdmaEgressQueue.clearFinished, clearFinished]
    split
    · exact ih (i + 1) kept res
    · rw [List.length_map, ← ih, List.map_append, List.map_singleton]

/-- By reference, `GetNextQindex` does what it does with the queue pairs as values. -/
theorem view_getNextQindex :
    (dev.view qps).getNextQindex c now dev.paused =
      ((getNextQindex c now qps dev).1, (getNextQindex c now qps dev).2.view qps) := by
  have hlen : (dev.view qps).qpGrp.length = dev.qpGrp.length := List.length_map _
  have hackQ : (dev.view qps).ackQ = dev.ackQ := rfl
  rw [RdmaEgressQueue.getNextQindex, getNextQindex, hackQ]
  split
  · next hack => rfl
  · next hack =>
    rw [hlen]
    cases (dev.view qps).scan now dev.paused (List.range' 1 dev.qpGrp.length) none with
    | mk res minFinishId =>
      cases minFinishId with
      | none => rfl
      | some m =>
        have hmap := map_clearFinished qps (m + 1) (dev.qpGrp.drop (m + 1))
          (dev.qpGrp.take m) res
        simp only [Device.view, ← List.map_drop, ← List.map_take, hmap]

theorem clearFinished_fst (i : Nat) (rest kept : List QpId) (res : Option Nat) :
    (clearFinished qps i rest kept res).1 =
      kept ++ rest.filter fun q => !(qps q).transport.isFinished := by
  induction rest generalizing i kept res with
  | nil => simp [clearFinished]
  | cons q rest ih =>
    rw [clearFinished]
    split
    · next hfinished => rw [ih, List.filter_cons_of_neg (by simp [hfinished])]
    · next hfinished =>
      rw [ih, List.filter_cons_of_pos (by simp [hfinished]), List.append_assoc,
        List.singleton_append]

/-- `grp'` is left of `grp` when some finished queue pairs are taken out. -/
structure Compacts (qps : QpId → NicQueuePair) (grp grp' : List QpId) : Prop where
  sublist : grp'.Sublist grp
  kept : ∀ q ∈ grp, (qps q).transport.isFinished = false → q ∈ grp'

theorem Compacts.refl (grp : List QpId) : Compacts qps grp grp :=
  ⟨List.Sublist.refl grp, fun _ hq _ => hq⟩

/-- The queue pair at the least position the scan returns is dropped, and those behind
it are filtered. -/
theorem getNextQindex_compacts :
    Compacts qps dev.qpGrp (getNextQindex c now qps dev).2.qpGrp := by
  rw [getNextQindex]
  split
  · exact .refl _
  cases hscan : (dev.view qps).scan now dev.paused (List.range' 1 dev.qpGrp.length) none with
  | mk res minFinishId =>
    cases minFinishId with
    | none => exact .refl _
    | some m =>
      obtain hnone | ⟨qp, hqp, hfinished⟩ :=
        RdmaEgressQueue.scan_snd_finished (congrArg Prod.snd hscan)
      · cases hnone
      obtain ⟨q, hq, rfl⟩ : ∃ q, dev.qpGrp[m]? = some q ∧ qps q = qp := by
        simpa [Device.view] using hqp
      have hsplit : dev.qpGrp = dev.qpGrp.take m ++ q :: dev.qpGrp.drop (m + 1) := by
        obtain ⟨hlt, rfl⟩ := List.getElem?_eq_some_iff.mp hq
        rw [← List.drop_eq_getElem_cons hlt, List.take_append_drop]
      simp only [clearFinished_fst]
      constructor
      · conv_rhs => rw [hsplit]
        exact (List.Sublist.refl _).append (List.filter_sublist.trans (List.sublist_cons_self _ _))
      · intro q' hq' hunfinished
        rw [hsplit] at hq'
        rcases List.mem_append.mp hq' with hbefore | hafter
        · exact List.mem_append_left _ hbefore
        · rcases List.mem_cons.mp hafter with rfl | hbehind
          · rw [hfinished] at hunfinished
            cases hunfinished
          · exact List.mem_append_right _ (List.mem_filter.mpr ⟨hbehind, by simp [hunfinished]⟩)

end GetNextQindex

/-! ## The host -/

namespace RdmaHost

def setDev (s : RdmaHost) (d : Port) (dev : Device) : RdmaHost :=
  { s with devs := update s.devs d dev }

def setQp (s : RdmaHost) (q : QpId) (qp : NicQueuePair) : RdmaHost :=
  { s with qps := update s.qps q qp }

@[simp] theorem setDev_self (s : RdmaHost) (d : Port) (dev : Device) :
    (s.setDev d dev).devs d = dev := by
  simp [setDev]

theorem setDev_of_ne (s : RdmaHost) {d d' : Port} (hne : d' ≠ d) (dev : Device) :
    (s.setDev d dev).devs d' = s.devs d' := by
  simp [setDev, hne]

@[simp] theorem setQp_self (s : RdmaHost) (q : QpId) (qp : NicQueuePair) :
    (s.setQp q qp).qps q = qp := by
  simp [setQp]

theorem setQp_of_ne (s : RdmaHost) {q q' : QpId} (hne : q' ≠ q) (qp : NicQueuePair) :
    (s.setQp q qp).qps q' = s.qps q' := by
  simp [setQp, hne]

/-- `DequeueAndTransmit`, up to `m_nextSend` when there is nothing to send. -/
def dequeueAndTransmit (c : NicConfig) (now : Nat) (d : Port) (s : RdmaHost) : RdmaHost :=
  let dev := s.devs d
  if dev.linkUp = false then s
  else if dev.txMachineState = .busy then s
  else
    let (qIndex, dev) := getNextQindex c now s.qps dev
    match qIndex with
    | .none => s.setDev d dev
    | .highPrio => s.setDev d { dev with ackQ := dev.ackQ.tail, txMachineState := .busy }
    | .qp i =>
      match dev.qpGrp[i]? with
      | none => s.setDev d dev
      | some q =>
        let (p, qp) := (s.qps q).getNxtPacket c
        (s.setQp q (qp.pktSent c now p.size)).setDev d
          { dev with rrlast := i, txMachineState := .busy }

/-- `GetNicIdxOfQp`: an assertion fails when there is no route, and the entry of `m_nic`
must have a device. -/
def getNicIdxOfQp (c : Config) (s : RdmaHost) (dip : UInt32) (dport : UInt16) : Option Port := do
  let v := s.rtTable dip
  let d ← v[dport.toNat % v.length]?
  let _ ← c.dataRate d
  some d

def addQp (s : RdmaHost) (d : Port) (q : QpId) : RdmaHost :=
  { s.setDev d { s.devs d with qpGrp := (s.devs d).qpGrp ++ [q] } with
    calls := s.calls ++ [.addQp d q] }

def getQp (s : RdmaHost) (dip : UInt32) (sport pg : UInt16) : Option QpId :=
  s.qpMap.lookup (getQpKey dip sport pg)

def keyOf (qp : NicQueuePair) : UInt64 :=
  getQpKey qp.dip qp.sport (UInt16.ofNat qp.pg.val)

/-- `AddQueuePair`. The rates are set after the queue pair is in its group, and nothing
reads them before. -/
def addQueuePair (c : Config) (now : Nat) (size : UInt64) (win : UInt32) (pg : Switch.Class)
    (sip dip : UInt32) (sport dport : UInt16) (s : RdmaHost) : Option RdmaHost := do
  let d ← s.getNicIdxOfQp c dip dport
  let bps ← c.dataRate d
  let q := s.created
  let qp : NicQueuePair :=
    { transport := .create size win c.varWin bps, pg, sip, dip, sport, dport, nextAvail := now }
  let s := { s.setQp q qp with created := q + 1 }
  let s := s.addQp d q
  let s := { s with qpMap := (keyOf qp, q) :: s.qpMap.filter fun e => e.1 ≠ keyOf qp }
  some (s.dequeueAndTransmit c.nic now d)

def deleteQueuePair (s : RdmaHost) (q : QpId) : RdmaHost :=
  { s with qpMap := s.qpMap.filter fun e => e.1 ≠ keyOf (s.qps q)
           calls := s.calls ++ [.deleteQueuePair q] }

/-- `ChangeRate`, to a rate that the congestion control gives. -/
def changeRate (s : RdmaHost) (q : QpId) (rate nextAvail : Nat) : RdmaHost :=
  s.setQp q { s.qps q with transport := (s.qps q).transport.changeRate rate, nextAvail }

/-- The acknowledgement in `ReceiveAck`, which ends in `QpComplete` when the queue pair has
finished. -/
def acknowledge (c : Config) (q : QpId) (seq : Nat) (s : RdmaHost) : Option RdmaHost :=
  if c.nic.hw.ackInterval = 0 then some s
  else do
    let transport ← acknowledgeSeq c.nic.hw seq (s.qps q).transport
    let s := s.setQp q { s.qps q with transport }
    some (if transport.isFinished then s.deleteQueuePair q else s)

/-- `ReceiveAck` of an ACK or NACK from `sip` for the port and priority group in its
header. `rate` is the call of `ChangeRate` it may lead to. -/
def receiveAck (c : Config) (now : Nat) (sip : UInt32) (dport pg : UInt16) (a : AckPacket)
    (rate : Option (Nat × Nat)) (s : RdmaHost) : Option RdmaHost :=
  match s.getQp sip dport pg with
  | none => some s
  | some q => do
    let d ← s.getNicIdxOfQp c (s.qps q).dip (s.qps q).dport
    let s ← s.acknowledge c q a.seq
    let s :=
      if a.isNack then
        s.setQp q { s.qps q with transport := (s.qps q).transport.recoverQueue }
      else s
    let s := rate.elim s fun (rate, nextAvail) => s.changeRate q rate nextAvail
    some (s.dequeueAndTransmit c.nic now d)

/-- The loop of `RedistributeQp` over `m_qpMap`. -/
def redistribute (c : Config) (now : Nat) :
    List (UInt64 × QpId) → RdmaHost → Option RdmaHost
  | [], s => some s
  | (_, q) :: rest, s => do
    let d ← s.getNicIdxOfQp c (s.qps q).dip (s.qps q).dport
    redistribute c now rest ((s.addQp d q).dequeueAndTransmit c.nic now d)

/-- The groups of the entries of `m_nic` that have a device are cleared. -/
def clearGroups (c : Config) (s : RdmaHost) : RdmaHost :=
  { s with devs := fun d =>
      if (c.dataRate d).isSome then { s.devs d with qpGrp := [] } else s.devs d }

def redistributeQp (c : Config) (now : Nat) (s : RdmaHost) : Option RdmaHost :=
  redistribute c now s.qpMap (s.clearGroups c)

end RdmaHost

/-- What can happen to a host. -/
inductive Event where
  | addQueuePair (now : Nat) (size : UInt64) (win : UInt32) (pg : Switch.Class) (sip dip : UInt32)
      (sport dport : UInt16)
  | receiveAck (now : Nat) (sip : UInt32) (dport pg : UInt16) (a : AckPacket)
      (rate : Option (Nat × Nat))
  /-- A timer or a CNP changes the rate of a queue pair. -/
  | changeRate (q : QpId) (rate nextAvail : Nat)
  /-- `DequeueAndTransmit` is called: a transmission is complete, a class resumes,
  `m_nextSend` is due, or there is an ACK to send. -/
  | trigger (now : Nat) (d : Port)
  /-- A device changes in any other way. -/
  | device (d : Port) (linkUp : Bool) (txMachineState : TxMachineState)
      (paused : Switch.Class → Bool) (ackQ : List Packet)
  /-- `ClearTable` and `AddTableEntry`. -/
  | setRoutes (rtTable : UInt32 → List Port)
  /-- The map changes its order of iteration. -/
  | rehash (qpMap : List (UInt64 × QpId))
  | redistributeQp (now : Nat)

def step (c : Config) (s : RdmaHost) : Event → Option RdmaHost
  | .addQueuePair now size win pg sip dip sport dport =>
    s.addQueuePair c now size win pg sip dip sport dport
  | .receiveAck now sip dport pg a rate => s.receiveAck c now sip dport pg a rate
  | .changeRate q rate nextAvail => some (s.changeRate q rate nextAvail)
  | .trigger now d => some (s.dequeueAndTransmit c.nic now d)
  | .device d linkUp txMachineState paused ackQ =>
    some (s.setDev d { s.devs d with linkUp, txMachineState, paused, ackQ })
  | .setRoutes rtTable => some { s with rtTable }
  | .rehash qpMap => if qpMap.Perm s.qpMap then some { s with qpMap } else none
  | .redistributeQp now => s.redistributeQp c now

/-! ## What keeps the groups in order -/

/-- What the map and the groups need to know of a queue pair does not change, but for
it to finish. -/
structure Follows (qp qp' : NicQueuePair) : Prop where
  key : RdmaHost.keyOf qp' = RdmaHost.keyOf qp
  finished : qp.transport.isFinished = true → qp'.transport.isFinished = true

/-- A step that adds no queue pair and completes none. -/
structure Keeps (s s' : RdmaHost) : Prop where
  qps : ∀ q, Follows (s.qps q) (s'.qps q)
  created : s'.created = s.created
  qpMap : s'.qpMap = s.qpMap
  group : ∀ d, Compacts s'.qps (s.devs d).qpGrp (s'.devs d).qpGrp
  calls : s'.calls = s.calls

/-- Each queue pair of `m_qpMap` that has not finished is in the group of one NIC, once. -/
def Partitioned (s : RdmaHost) : Prop :=
  ∀ e ∈ s.qpMap, (s.qps e.2).transport.isFinished = false →
    ∃ d, (s.devs d).qpGrp.count e.2 = 1 ∧ ∀ d', d' ≠ d → e.2 ∉ (s.devs d').qpGrp

/-- No call of `AddQp` comes after the `DeleteQueuePair` of the same queue pair. -/
def NeverReadded (s : RdmaHost) : Prop :=
  s.calls.Pairwise fun call later => ∀ q d, call = .deleteQueuePair q → later ≠ .addQp d q

/-- The queue pairs of `pending` are in no group, and wait to be put into one. -/
structure Consistent (c : Config) (pending : List QpId) (s : RdmaHost) : Prop where
  nodup : ∀ d, (s.devs d).qpGrp.Nodup
  disjoint : ∀ d d' q, q ∈ (s.devs d).qpGrp → q ∈ (s.devs d').qpGrp → d = d'
  member : ∀ d, ∀ q ∈ (s.devs d).qpGrp, q < s.created ∧ (c.dataRate d).isSome = true
  waiting : ∀ q ∈ pending, q < s.created ∧ .deleteQueuePair q ∉ s.calls ∧
    ∀ d, q ∉ (s.devs d).qpGrp
  pendingNodup : pending.Nodup
  mapNodup : (s.qpMap.map Prod.fst).Nodup
  mapped : ∀ e ∈ s.qpMap, e.2 < s.created ∧ RdmaHost.keyOf (s.qps e.2) = e.1
  live : ∀ e ∈ s.qpMap, (s.qps e.2).transport.isFinished = false →
    e.2 ∈ pending ∨ ∃ d, e.2 ∈ (s.devs d).qpGrp
  deleted : ∀ q, .deleteQueuePair q ∈ s.calls → q < s.created ∧ ∀ e ∈ s.qpMap, e.2 ≠ q
  ordered : NeverReadded s

section Consistent

variable {c : Config} {s s' : RdmaHost} {pending : List QpId} {d : Port} {q : QpId} {now : Nat}

theorem Consistent.partitioned (h : Consistent c [] s) : Partitioned s := by
  intro e he hunfinished
  obtain hpending | ⟨d, hd⟩ := h.live e he hunfinished
  · cases hpending
  · refine ⟨d, List.count_eq_one_of_mem (h.nodup d) hd, ?_⟩
    intro d' hne hd'
    exact hne (h.disjoint d' d e.2 hd' hd)

theorem Follows.refl (qp : NicQueuePair) : Follows qp qp := ⟨rfl, id⟩

theorem Keeps.refl (s : RdmaHost) : Keeps s s :=
  ⟨fun _ => .refl _, rfl, rfl, fun _ => .refl _, rfl⟩

theorem Follows.unfinished {qp qp' : NicQueuePair} (h : Follows qp qp')
    (hunfinished : qp'.transport.isFinished = false) : qp.transport.isFinished = false := by
  cases hfinished : qp.transport.isFinished with
  | false => rfl
  | true => exact (h.finished hfinished).symm.trans hunfinished

theorem Follows.trans {qp qp' qp'' : NicQueuePair} (h : Follows qp qp') (h' : Follows qp' qp'') :
    Follows qp qp'' :=
  ⟨h'.key.trans h.key, fun hfinished => h'.finished (h.finished hfinished)⟩

theorem Compacts.follows {qps qps' : QpId → NicQueuePair} {grp grp' : List QpId}
    (h : Compacts qps grp grp') (hqps : ∀ q, Follows (qps q) (qps' q)) : Compacts qps' grp grp' :=
  ⟨h.sublist, fun q hq hunfinished => h.kept q hq ((hqps q).unfinished hunfinished)⟩

theorem Keeps.trans {s'' : RdmaHost} (h : Keeps s s') (h' : Keeps s' s'') : Keeps s s'' := by
  refine ⟨fun q => (h.qps q).trans (h'.qps q), h'.created.trans h.created,
    h'.qpMap.trans h.qpMap, fun d => ⟨?_, ?_⟩, h'.calls.trans h.calls⟩
  · exact (h'.group d).sublist.trans (h.group d).sublist
  · intro q hq hunfinished
    exact (h'.group d).kept q ((h.group d).kept q hq ((h'.qps q).unfinished hunfinished))
      hunfinished

theorem keeps_setQp {qp : NicQueuePair} (h : Follows (s.qps q) qp) : Keeps s (s.setQp q qp) := by
  refine ⟨?_, rfl, rfl, fun _ => .refl _, rfl⟩
  intro q'
  rcases eq_or_ne q' q with rfl | hne
  · rw [RdmaHost.setQp_self]
    exact h
  · rw [RdmaHost.setQp_of_ne s hne]
    exact .refl _

theorem keeps_setDev {dev : Device} (h : Compacts s.qps (s.devs d).qpGrp dev.qpGrp) :
    Keeps s (s.setDev d dev) := by
  refine ⟨fun _ => .refl _, rfl, rfl, ?_, rfl⟩
  intro d'
  rcases eq_or_ne d' d with rfl | hne
  · rw [RdmaHost.setDev_self]
    exact h
  · rw [RdmaHost.setDev_of_ne s hne]
    exact .refl _

/-- A transmission compacts the group of its device and moves `snd_nxt` of one queue
pair. -/
theorem keeps_dequeueAndTransmit {c : NicConfig} :
    Keeps s (s.dequeueAndTransmit c now d) := by
  have hcompacts : Compacts s.qps (s.devs d).qpGrp
      (getNextQindex c now s.qps (s.devs d)).2.qpGrp := getNextQindex_compacts
  simp only [RdmaHost.dequeueAndTransmit]
  split
  · exact .refl s
  split
  · exact .refl s
  split
  · exact keeps_setDev hcompacts
  · exact keeps_setDev hcompacts
  split
  · exact keeps_setDev hcompacts
  next q _ =>
  have hfollows : Follows (s.qps q) ((((s.qps q).getNxtPacket c).2).pktSent c now
      ((s.qps q).getNxtPacket c).1.size) := ⟨rfl, id⟩
  have hkeeps := keeps_setQp hfollows
  exact hkeeps.trans (keeps_setDev (hcompacts.follows hkeeps.qps))

/-- Nothing is lost by a step that adds no queue pair and completes none. -/
theorem Consistent.keeps (h : Consistent c pending s) (hkeeps : Keeps s s') :
    Consistent c pending s' where
  nodup d := (h.nodup d).sublist (hkeeps.group d).sublist
  disjoint d d' q hd hd' :=
    h.disjoint d d' q ((hkeeps.group d).sublist.subset hd) ((hkeeps.group d').sublist.subset hd')
  member d q hq := by
    rw [hkeeps.created]
    exact h.member d q ((hkeeps.group d).sublist.subset hq)
  waiting q hq := by
    obtain ⟨hcreated, hnot, hfree⟩ := h.waiting q hq
    rw [hkeeps.created, hkeeps.calls]
    exact ⟨hcreated, hnot, fun d hd => hfree d ((hkeeps.group d).sublist.subset hd)⟩
  pendingNodup := h.pendingNodup
  mapNodup := by
    rw [hkeeps.qpMap]
    exact h.mapNodup
  mapped e he := by
    rw [hkeeps.qpMap] at he
    rw [hkeeps.created, (hkeeps.qps e.2).key]
    exact h.mapped e he
  live e he hunfinished := by
    rw [hkeeps.qpMap] at he
    rcases h.live e he ((hkeeps.qps e.2).unfinished hunfinished) with hpending | ⟨d, hd⟩
    · exact .inl hpending
    · exact .inr ⟨d, (hkeeps.group d).kept e.2 hd hunfinished⟩
  deleted q hq := by
    rw [hkeeps.calls] at hq
    rw [hkeeps.created, hkeeps.qpMap]
    exact h.deleted q hq
  ordered := by
    rw [NeverReadded, hkeeps.calls]
    exact h.ordered

/-- A waiting queue pair goes into the group of a device. -/
theorem Consistent.addQp (h : Consistent c (q :: pending) s) (hdev : (c.dataRate d).isSome = true) :
    Consistent c pending (s.addQp d q) := by
  obtain ⟨hcreated, hnot, hfree⟩ := h.waiting q List.mem_cons_self
  have hgrp : ∀ d', ((s.addQp d q).devs d').qpGrp =
      if d' = d then (s.devs d).qpGrp ++ [q] else (s.devs d').qpGrp := by
    intro d'
    rcases eq_or_ne d' d with rfl | hne
    · simp [RdmaHost.addQp]
    · simp [RdmaHost.addQp, RdmaHost.setDev_of_ne s hne, hne]
  have hmem : ∀ d' q', q' ∈ ((s.addQp d q).devs d').qpGrp ↔
      q' ∈ (s.devs d').qpGrp ∨ (d' = d ∧ q' = q) := by
    intro d' q'
    rw [hgrp]
    split
    · next heq => simp [heq]
    · next hne => simp [hne]
  constructor
  case nodup =>
    intro d'
    rw [hgrp]
    split
    · refine List.Nodup.append (h.nodup d) (List.nodup_singleton q) ?_
      exact List.disjoint_singleton.mpr (hfree d)
    · exact h.nodup d'
  case disjoint =>
    intro d₁ d₂ q' h₁ h₂
    rcases (hmem d₁ q').mp h₁ with hold₁ | ⟨hd₁, hq₁⟩
    · rcases (hmem d₂ q').mp h₂ with hold₂ | ⟨-, hq₂⟩
      · exact h.disjoint d₁ d₂ q' hold₁ hold₂
      · exact absurd (hq₂ ▸ hold₁) (hfree d₁)
    · rcases (hmem d₂ q').mp h₂ with hold₂ | ⟨hd₂, -⟩
      · exact absurd (hq₁ ▸ hold₂) (hfree d₂)
      · exact hd₁.trans hd₂.symm
  case member =>
    intro d' q' hq'
    rcases (hmem d' q').mp hq' with hq' | ⟨rfl, rfl⟩
    · exact h.member d' q' hq'
    · exact ⟨hcreated, hdev⟩
  case waiting =>
    intro q' hq'
    have hne : q' ≠ q := fun heq => (List.nodup_cons.mp h.pendingNodup).1 (heq ▸ hq')
    obtain ⟨hcreated', hnot', hfree'⟩ := h.waiting q' (List.mem_cons_of_mem q hq')
    refine ⟨hcreated', ?_, ?_⟩
    · simpa [RdmaHost.addQp] using hnot'
    · intro d' hd'
      rcases (hmem d' q').mp hd' with hd' | ⟨-, heq⟩
      · exact hfree' d' hd'
      · exact hne heq
  case pendingNodup => exact (List.nodup_cons.mp h.pendingNodup).2
  case mapNodup => exact h.mapNodup
  case mapped => exact h.mapped
  case live =>
    intro e he hunfinished
    rcases h.live e he hunfinished with hpending | ⟨d', hd'⟩
    · rcases List.mem_cons.mp hpending with heq | hpending
      · exact .inr ⟨d, (hmem d e.2).mpr (.inr ⟨rfl, heq⟩)⟩
      · exact .inl hpending
    · exact .inr ⟨d', (hmem d' e.2).mpr (.inl hd')⟩
  case deleted =>
    intro q' hq'
    exact h.deleted q' (by simpa [RdmaHost.addQp] using hq')
  case ordered =>
    -- the queue pair has not been deleted before
    refine List.pairwise_append.mpr ⟨h.ordered, List.pairwise_singleton _ _, ?_⟩
    intro call hcall later hlater q' d' hdeleted hadded
    obtain rfl := List.mem_singleton.mp hlater
    cases hadded
    exact hnot (hdeleted ▸ hcall)

/-- A completed queue pair leaves the map; its key is its own. -/
theorem Consistent.deleteQueuePair (h : Consistent c pending s) (hq : q < s.created)
    (hpending : q ∉ pending) : Consistent c pending (s.deleteQueuePair q) where
  nodup := h.nodup
  disjoint := h.disjoint
  member := h.member
  waiting q' hq' := by
    obtain ⟨hcreated, hnot, hfree⟩ := h.waiting q' hq'
    refine ⟨hcreated, ?_, hfree⟩
    have hne : q' ≠ q := fun heq => hpending (heq ▸ hq')
    simpa [RdmaHost.deleteQueuePair, hne] using hnot
  pendingNodup := h.pendingNodup
  mapNodup := h.mapNodup.sublist (List.filter_sublist.map Prod.fst)
  mapped e he := h.mapped e (List.mem_filter.mp he).1
  live e he := h.live e (List.mem_filter.mp he).1
  deleted q' hq' := by
    rcases List.mem_append.mp hq' with hq' | hq'
    · obtain ⟨hcreated, hgone⟩ := h.deleted q' hq'
      exact ⟨hcreated, fun e he => hgone e (List.mem_filter.mp he).1⟩
    · obtain rfl : q' = q := by simpa using hq'
      refine ⟨hq, ?_⟩
      intro e he heq
      obtain ⟨hmem, hkey⟩ := List.mem_filter.mp he
      have hown := (h.mapped e hmem).2
      rw [heq] at hown
      simp [hown] at hkey
  ordered := by
    refine List.pairwise_append.mpr ⟨h.ordered, List.pairwise_singleton _ _, ?_⟩
    intro call hcall later hlater q' d' hdeleted hadded
    obtain rfl := List.mem_singleton.mp hlater
    cases hadded

/-- The map may be listed in another order. -/
theorem Consistent.rehash {qpMap : List (UInt64 × QpId)} (h : Consistent c pending s)
    (hperm : qpMap.Perm s.qpMap) : Consistent c pending { s with qpMap } where
  nodup := h.nodup
  disjoint := h.disjoint
  member := h.member
  waiting := h.waiting
  pendingNodup := h.pendingNodup
  mapNodup := (hperm.map Prod.fst).nodup_iff.mpr h.mapNodup
  mapped e he := h.mapped e (hperm.mem_iff.mp he)
  live e he := h.live e (hperm.mem_iff.mp he)
  deleted q hq := ⟨(h.deleted q hq).1, fun e he => (h.deleted q hq).2 e (hperm.mem_iff.mp he)⟩
  ordered := h.ordered

/-- When the groups are cleared, all queue pairs of the map wait. -/
theorem Consistent.clearGroups (h : Consistent c [] s) :
    Consistent c (s.qpMap.map Prod.snd) (s.clearGroups c) := by
  have hempty : ∀ d, ((s.clearGroups c).devs d).qpGrp = [] := by
    intro d
    simp only [RdmaHost.clearGroups]
    split
    · rfl
    · next hnone =>
      refine List.eq_nil_iff_forall_not_mem.mpr fun q hq => hnone (h.member d q hq).2
  constructor
  case nodup => exact fun d => by simp [hempty]
  case disjoint => exact fun d d' q hq => by simp [hempty] at hq
  case member => exact fun d q hq => by simp [hempty] at hq
  case waiting =>
    intro q hq
    obtain ⟨e, he, rfl⟩ := List.mem_map.mp hq
    refine ⟨(h.mapped e he).1, ?_, fun d => by simp [hempty]⟩
    exact fun hdeleted => (h.deleted e.2 hdeleted).2 e he rfl
  case pendingNodup =>
    -- entries with one queue pair have one key
    refine h.mapNodup.of_map _ |>.map_on ?_
    intro e he e' he' heq
    refine Prod.ext ?_ heq
    rw [← (h.mapped e he).2, ← (h.mapped e' he').2, heq]
  case mapNodup => exact h.mapNodup
  case mapped => exact h.mapped
  case live => exact fun e he _ => .inl (List.mem_map_of_mem he)
  case deleted => exact h.deleted
  case ordered => exact h.ordered

theorem dataRate_of_getNicIdxOfQp {dip : UInt32} {dport : UInt16}
    (h : s.getNicIdxOfQp c dip dport = some d) : (c.dataRate d).isSome = true := by
  obtain ⟨d', -, h⟩ := Option.bind_eq_some_iff.mp h
  obtain ⟨bps, hbps, h⟩ := Option.bind_eq_some_iff.mp h
  obtain rfl := Option.some.inj h
  simp [hbps]

/-- Each turn of the loop finds a place for one queue pair and lets a device send. -/
theorem Consistent.redistribute {order : List (UInt64 × QpId)}
    (h : Consistent c (order.map Prod.snd) s) (hstep : s.redistribute c now order = some s') :
    Consistent c [] s' := by
  induction order generalizing s with
  | nil =>
    obtain rfl := Option.some.inj hstep
    exact h
  | cons e rest ih =>
    obtain ⟨d, hd, hstep⟩ := Option.bind_eq_some_iff.mp hstep
    refine ih ?_ hstep
    exact (h.addQp (dataRate_of_getNicIdxOfQp hd)).keeps keeps_dequeueAndTransmit

/-- A new queue pair waits. -/
theorem Consistent.create (h : Consistent c [] s) (qp : NicQueuePair) :
    Consistent c [s.created] { s.setQp s.created qp with created := s.created + 1 } := by
  have hold : ∀ q < s.created, (s.setQp s.created qp).qps q = s.qps q :=
    fun q hq => s.setQp_of_ne (Nat.ne_of_lt hq) qp
  constructor
  case nodup => exact h.nodup
  case disjoint => exact h.disjoint
  case member =>
    intro d q hq
    exact ⟨Nat.lt_succ_of_lt (h.member d q hq).1, (h.member d q hq).2⟩
  case waiting =>
    intro q hq
    obtain rfl := List.mem_singleton.mp hq
    refine ⟨Nat.lt_succ_self _, ?_, ?_⟩
    · exact fun hdeleted => Nat.lt_irrefl _ (h.deleted _ hdeleted).1
    · exact fun d hd => Nat.lt_irrefl _ (h.member d _ hd).1
  case pendingNodup => exact List.nodup_singleton _
  case mapNodup => exact h.mapNodup
  case mapped =>
    intro e he
    obtain ⟨hlt, hkey⟩ := h.mapped e he
    exact ⟨Nat.lt_succ_of_lt hlt, (congrArg RdmaHost.keyOf (hold e.2 hlt)).trans hkey⟩
  case live =>
    intro e he hunfinished
    have hunfinished : (s.qps e.2).transport.isFinished = false := by
      rw [← hold e.2 (h.mapped e he).1]
      exact hunfinished
    exact .inr ((h.live e he hunfinished).resolve_left List.not_mem_nil)
  case deleted => exact fun q hq => ⟨Nat.lt_succ_of_lt (h.deleted q hq).1, (h.deleted q hq).2⟩
  case ordered => exact h.ordered

/-- A queue pair that is in a group is put into the map. Another one with its key loses
its entry. -/
theorem Consistent.insert (h : Consistent c [] s) (hq : q ∈ (s.devs d).qpGrp)
    (hnot : .deleteQueuePair q ∉ s.calls) {key : UInt64} (hkey : RdmaHost.keyOf (s.qps q) = key) :
    Consistent c [] { s with qpMap := (key, q) :: s.qpMap.filter fun e => e.1 ≠ key } where
  nodup := h.nodup
  disjoint := h.disjoint
  member := h.member
  waiting := h.waiting
  pendingNodup := h.pendingNodup
  mapNodup := by
    rw [List.map_cons, List.nodup_cons]
    refine ⟨?_, h.mapNodup.sublist (List.filter_sublist.map Prod.fst)⟩
    intro hmem
    obtain ⟨e, he, heq⟩ := List.mem_map.mp hmem
    simpa [heq] using (List.mem_filter.mp he).2
  mapped e he := by
    rcases List.mem_cons.mp he with rfl | he
    · exact ⟨(h.member d q hq).1, hkey⟩
    · exact h.mapped e (List.mem_filter.mp he).1
  live e he hunfinished := by
    rcases List.mem_cons.mp he with rfl | he
    · exact .inr ⟨d, hq⟩
    · exact h.live e (List.mem_filter.mp he).1 hunfinished
  deleted q' hq' := by
    refine ⟨(h.deleted q' hq').1, ?_⟩
    intro e he
    rcases List.mem_cons.mp he with rfl | he
    · intro heq
      obtain rfl : q = q' := heq
      exact hnot hq'
    · exact (h.deleted q' hq').2 e (List.mem_filter.mp he).1
  ordered := h.ordered

theorem Consistent.addQueuePair {size : UInt64} {win : UInt32} {pg : Switch.Class}
    {sip dip : UInt32} {sport dport : UInt16} (h : Consistent c [] s)
    (hstep : s.addQueuePair c now size win pg sip dip sport dport = some s') :
    Consistent c [] s' := by
  obtain ⟨d, hd, hstep⟩ := Option.bind_eq_some_iff.mp hstep
  obtain ⟨bps, hbps, hstep⟩ := Option.bind_eq_some_iff.mp hstep
  obtain rfl := Option.some.inj hstep
  have hcreate := h.create
    { transport := .create size win c.varWin bps, pg, sip, dip, sport, dport, nextAvail := now }
  have hnot := (hcreate.waiting s.created List.mem_cons_self).2.1
  have hadded := hcreate.addQp (d := d) (dataRate_of_getNicIdxOfQp hd)
  refine (hadded.insert (d := d) ?_ ?_ ?_).keeps keeps_dequeueAndTransmit
  · simp [RdmaHost.addQp]
  · simpa [RdmaHost.addQp] using hnot
  · simp [RdmaHost.addQp, RdmaHost.setDev]

theorem follows_acknowledgeSeq {hw : RdmaHw} {seq : Nat} {qp : NicQueuePair}
    {transport : RdmaQueuePair} (h : acknowledgeSeq hw seq qp.transport = some transport) :
    Follows qp { qp with transport } := by
  have hack : ∃ ack, transport = qp.transport.acknowledge ack := by
    simp only [acknowledgeSeq] at h
    split at h
    · split at h
      · cases h
      · exact ⟨_, (Option.some.inj h).symm⟩
    · exact ⟨_, (Option.some.inj h).symm⟩
  obtain ⟨ack, rfl⟩ := hack
  refine ⟨rfl, ?_⟩
  simp only [RdmaQueuePair.isFinished_iff, RdmaQueuePair.acknowledge_size,
    RdmaQueuePair.acknowledge_sndUna]
  exact fun hle => Nat.le_trans hle (Nat.le_max_left _ _)

theorem follows_recoverQueue (qp : NicQueuePair) :
    Follows qp { qp with transport := qp.transport.recoverQueue } := ⟨rfl, id⟩

theorem keeps_changeRate (s : RdmaHost) (q : QpId) (rate nextAvail : Nat) :
    Keeps s (s.changeRate q rate nextAvail) := keeps_setQp ⟨rfl, id⟩

theorem mem_of_getQp {dip : UInt32} {sport pg : UInt16} (h : s.getQp dip sport pg = some q) :
    (getQpKey dip sport pg, q) ∈ s.qpMap := by
  obtain ⟨l₁, l₂, heq, -⟩ := List.lookup_eq_some_iff.mp h
  rw [heq]
  exact List.mem_append_right l₁ List.mem_cons_self

/-- Only the queue pair that the ACK has completed leaves the map. -/
theorem Consistent.acknowledge {seq : Nat} (h : Consistent c [] s) (hq : q < s.created)
    (hack : s.acknowledge c q seq = some s') : Consistent c [] s' := by
  simp only [RdmaHost.acknowledge] at hack
  split at hack
  · obtain rfl := Option.some.inj hack
    exact h
  · obtain ⟨transport, htransport, hack⟩ := Option.bind_eq_some_iff.mp hack
    have hset := h.keeps (keeps_setQp (follows_acknowledgeSeq htransport))
    obtain rfl := Option.some.inj hack
    split
    · exact hset.deleteQueuePair hq List.not_mem_nil
    · exact hset

theorem Consistent.receiveAck {sip : UInt32} {dport pg : UInt16} {a : AckPacket}
    {rate : Option (Nat × Nat)} (h : Consistent c [] s)
    (hstep : s.receiveAck c now sip dport pg a rate = some s') : Consistent c [] s' := by
  simp only [RdmaHost.receiveAck] at hstep
  split at hstep
  · obtain rfl := Option.some.inj hstep
    exact h
  next q hq =>
  obtain ⟨d, -, hstep⟩ := Option.bind_eq_some_iff.mp hstep
  obtain ⟨s₁, hs₁, hstep⟩ := Option.bind_eq_some_iff.mp hstep
  obtain rfl := Option.some.inj hstep
  have hacked : Consistent c [] s₁ :=
    h.acknowledge (h.mapped _ (mem_of_getQp hq)).1 hs₁
  refine Consistent.keeps ?_ keeps_dequeueAndTransmit
  have hrecovered : Consistent c [] (if a.isNack = true then
      s₁.setQp q { s₁.qps q with transport := (s₁.qps q).transport.recoverQueue } else s₁) := by
    split
    · exact hacked.keeps (keeps_setQp (follows_recoverQueue _))
    · exact hacked
  cases rate with
  | none => exact hrecovered
  | some r => exact hrecovered.keeps (keeps_changeRate _ q r.1 r.2)

theorem Consistent.step {e : Event} (h : Consistent c [] s) (hstep : step c s e = some s') :
    Consistent c [] s' := by
  cases e with
  | addQueuePair now size win pg sip dip sport dport => exact h.addQueuePair hstep
  | receiveAck now sip dport pg a rate => exact h.receiveAck hstep
  | changeRate q rate nextAvail =>
    obtain rfl := Option.some.inj hstep
    exact h.keeps (keeps_changeRate s q rate nextAvail)
  | trigger now d =>
    obtain rfl := Option.some.inj hstep
    exact h.keeps keeps_dequeueAndTransmit
  | device d linkUp txMachineState paused ackQ =>
    obtain rfl := Option.some.inj hstep
    exact h.keeps (keeps_setDev (.refl _))
  | setRoutes rtTable =>
    obtain rfl := Option.some.inj hstep
    exact { h with }
  | rehash qpMap =>
    simp only [QpGroups.step] at hstep
    split at hstep
    · next hperm =>
      obtain rfl := Option.some.inj hstep
      exact h.rehash hperm
    · cases hstep
  | redistributeQp now => exact h.clearGroups.redistribute hstep

theorem consistent_start (c : Config) : Consistent c [] start := by
  constructor <;> simp [start, Device.create, NeverReadded]

end Consistent

/-- In every run, whatever order the map is listed in and whatever the devices do: the
unfinished queue pairs of the map are spread over the groups, each in one place, and no
completed one comes back. A key may even be used again. -/
theorem partition (c : Config) (es : List Event) :
    Always (step c) (fun s => Partitioned s ∧ NeverReadded s) start es := by
  have hrun : Always (step c) (Consistent c []) start es :=
    always_of_invariant (fun _ _ _ h => h.step) (consistent_start c) es
  exact hrun.mono fun _ h => ⟨h.partitioned, h.ordered⟩

end Paraleon.Rdma.QpGroups
