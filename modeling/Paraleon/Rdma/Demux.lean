import Paraleon.Library.Runs
import Paraleon.Rdma.CnpScheduler
import Paraleon.Wire.CustomHeader

/-!
# Demultiplexing

A network of hosts with addresses of their own, as far as queue pairs are found by what
packets say about them: at the sender for ACKs, NACKs and CNPs, at the receiver for data
packets and, without a packet, when a flow completes.

* `Resolved`: the active queue pairs are what `m_qpMap` finds, under their own keys.
* `demultiplexing`: each packet about a flow leads to the queue pair of this flow, and
  the end of a flow takes its receiver state and no other.
-/

namespace Paraleon.Rdma.Demux

open CnpScheduler (DcqcnPlusReceiverState Cnp Receiver)
open Function Runs Wire

/-! ## The network -/

/-- The addresses of an `RdmaQueuePair`. `id` tells two queue pairs apart. -/
structure Qp where
  id : Nat
  sip : UInt32
  dip : UInt32
  sport : UInt16
  dport : UInt16
  pg : UInt16
deriving DecidableEq, Repr

/-- The key of a queue pair in `m_qpMap`. -/
def Qp.key (qp : Qp) : UInt64 := getQpKey qp.dip qp.sport qp.pg

/-- The key in `m_rxQpMap` under which a data packet of the flow is received. -/
def Qp.rxKey (qp : Qp) : UInt64 := getRxQpKey qp.sip qp.pg qp.sport

/-- Source, destination, source port and priority group agree. -/
def Qp.SameFlow (qp qp' : Qp) : Prop :=
  qp.sip = qp'.sip ∧ qp.dip = qp'.dip ∧ qp.sport = qp'.sport ∧ qp.pg = qp'.pg

/-- The hosts by their addresses. `active` and `added` are the queue pairs that have not
completed and all there ever were. -/
structure Net where
  qpMap : UInt32 → UInt64 → Option Qp
  receiver : UInt32 → Receiver
  active : List Qp
  added : List Qp

def start : Net :=
  { qpMap := fun _ _ => none, receiver := fun _ => Receiver.start, active := [], added := [] }

/-- `RdmaHw::GetQp`. -/
def getQp (m : UInt64 → Option Qp) (dip : UInt32) (sport pg : UInt16) : Option Qp :=
  m (getQpKey dip sport pg)

inductive Event where
  | addQueuePair (qp : Qp)
  /-- A data packet of the queue pair, however late, arrives with these ECN bits. -/
  | data (now : Int) (qp : Qp) (ecnbits : UInt8)
  /-- The CNP scheduler of a host runs. -/
  | scan (now : Int) (host : UInt32) (event : Nat)
  | qpComplete (now : Int) (qp : Qp)

def Qp.dataHeader (qp : Qp) (ecnbits : UInt8) : DataHeader :=
  { sip := qp.sip, dip := qp.dip, sport := qp.sport, dport := qp.dport, pg := qp.pg, ecnbits }

/-- A step of one receiver. -/
def stepReceiver (c : CnpScheduler.Config) (s : Net) (host : UInt32) (e : CnpScheduler.Event) :
    Option Net :=
  (CnpScheduler.step c (s.receiver host) e).map fun r =>
    { s with receiver := update s.receiver host r }

/-- A queue pair is only added when no active one has its flow, with a priority group of
a byte. `QpComplete` calls `qp_finish`, which reaches over to the receiver, and then
`DeleteQueuePair`. -/
def step (c : CnpScheduler.Config) (s : Net) : Event → Option Net
  | .addQueuePair qp =>
    if qp.pg < 256 ∧ qp ∉ s.added ∧ ∀ qp' ∈ s.active,
        ¬(qp.sip = qp'.sip ∧ qp.dip = qp'.dip ∧ qp.sport = qp'.sport ∧ qp.pg = qp'.pg) then
      some { s with qpMap := update s.qpMap qp.sip (update (s.qpMap qp.sip) qp.key (some qp)),
                    active := qp :: s.active, added := qp :: s.added }
    else none
  | .data now qp ecnbits =>
    if qp ∈ s.added then stepReceiver c s qp.dip (.receiveUdp now (qp.dataHeader ecnbits))
    else none
  | .scan now host event => stepReceiver c s host (.scan now event)
  | .qpComplete now qp =>
    if qp ∈ s.active then
      (stepReceiver c s qp.dip (.deleteRxQp now qp.sip qp.pg qp.sport)).map fun s =>
        { s with qpMap := update s.qpMap qp.sip (update (s.qpMap qp.sip) qp.key none),
                 active := s.active.filter (· ≠ qp) }
    else none

/-! ## Packets -/

/-- The IPv4 header of a packet from `source` to `destination`. -/
def ipv4Header (source destination : UInt32) (tos : UInt8) (identification : UInt16) :
    Ipv4Header :=
  { tos, payloadSize := 0, identification, dontFragment := false, moreFragments := false,
    fragmentOffset := 0, ttl := 64, protocol := 0, source, destination }

/-- The data packet of a queue pair: `GetNxtPacket`, with the ECN bits and INT that it
has when it arrives. -/
def Qp.dataPacket (c : IntConfig) (stale : Nat → UInt8) (qp : Qp) (tos : UInt8) (ipid : UInt16)
    (seq : UInt32) (ih : IntHeader) (payloadSize : Nat) : List UInt8 :=
  Wire.dataPacket c stale (ipv4Header qp.sip qp.dip tos ipid)
    { sourcePort := qp.sport, destinationPort := qp.dport } { seq, pg := qp.pg, ih } payloadSize

def replyHeader (ch : CustomHeader) (expected : UInt32) (cnp : Bool) : QbbHeader :=
  { sport := ch.udp.dport, dport := ch.udp.sport, flags := if cnp then 1 else 0, pg := ch.udp.pg,
    seq := expected, cnpTau := 0, ih := ch.udp.ih }

/-- The ACK or NACK of `ReceiveUdp` for the data packet with the header `ch`. -/
def reply (c : IntConfig) (stale : Nat → UInt8) (ch : CustomHeader) (isNack : Bool)
    (expected : UInt32) (cnp : Bool) (ipid : UInt16) : List UInt8 :=
  ackPacket c stale (ipv4Header ch.dip ch.sip 0 ipid) isNack (replyHeader ch expected cnp)

def cnHeader (cnp : Cnp) : CnHeader :=
  { fid := cnp.rxQp.dport, qIndex := cnp.rxQp.qIndex.toUInt8, qfb := UInt16.ofNat cnp.qfb,
    ecnBits := cnp.ecnBits, total := UInt16.ofNat cnp.total }

/-- The packet of `SendDcqcnPlusReceiverCnp`. -/
def cnpOf (stale : Nat → UInt8) (cnp : Cnp) (ipid : UInt16) : List UInt8 :=
  cnpPacket stale (ipv4Header cnp.rxQp.sip cnp.rxQp.dip 0 ipid) (cnHeader cnp)

/-- The queue pair that `ReceiveAck` works on. -/
def ackQp (m : UInt64 → Option Qp) (ch : CustomHeader) : Option Qp :=
  getQp m ch.sip ch.ack.dport ch.ack.pg

/-- The queue pair that `ReceiveCnp` works on: none for `qIndex` 1. -/
def cnpQp (m : UInt64 → Option Qp) (ch : CustomHeader) : Option Qp :=
  if ch.cnp.qIndex = 1 then none else getQp m ch.sip ch.cnp.fid ch.cnp.qIndex.toUInt16

/-- The receive queue pair that `GetRxQp` finds or makes for a data packet. -/
def rxQp (s : Net) (qp : Qp) : RxQp :=
  (getRxQp (s.receiver qp.dip).rxQpMap qp.dip qp.sip qp.dport qp.sport qp.pg).1

/-! ## Receivers -/

/-- What a receiver holds and has sent is for queue pairs of its own host. -/
structure Placed (host : UInt32) (r : Receiver) : Prop where
  rxQpMap : ∀ key q, r.rxQpMap key = some q → q.key = key ∧ q.sip = host
  table : ∀ key state, r.table key = some state → state.rxQp.sip = host
  sent : ∀ cnp ∈ r.sent, cnp.rxQp.sip = host

section Receivers

variable {c : CnpScheduler.Config} {host : UInt32} {r t : Receiver}

theorem Placed.congr (h : Placed host r) (hrx : t.rxQpMap = r.rxQpMap) (htable : t.table = r.table)
    (hsent : t.sent = r.sent) : Placed host t :=
  ⟨hrx ▸ h.rxQpMap, htable ▸ h.table, hsent ▸ h.sent⟩

/-- An entry of the table is written for a queue pair of the host. -/
theorem Placed.write {key : UInt64} (state : DcqcnPlusReceiverState) (h : Placed host r)
    (hstate : state.rxQp.sip = host) (hrx : t.rxQpMap = r.rxQpMap)
    (htable : t.table = update r.table key (some state)) (hsent : t.sent = r.sent) :
    Placed host t := by
  refine ⟨hrx ▸ h.rxQpMap, fun k state' hk => ?_, hsent ▸ h.sent⟩
  rw [htable] at hk
  rcases eq_or_ne k key with rfl | hne
  · rw [update_self] at hk
    cases hk
    exact hstate
  · rw [update_of_ne hne] at hk
    exact h.table k state' hk

theorem placed_track {q : RxQp} {ecnbits : UInt8} (h : Placed host r) (hq : q.sip = host) :
    Placed host (r.track c q ecnbits) := by
  have hmark : Placed host (r.mark c q ecnbits) := by
    unfold Receiver.mark
    split
    · exact Placed.write _ h hq rfl rfl rfl
    · exact Placed.write _ h hq rfl rfl rfl
  unfold Receiver.track
  split
  · exact h
  · dsimp only
    split
    · exact hmark
    · exact hmark.congr rfl rfl rfl

theorem getRxQp_placed {m : RxQpMap} {sip : UInt32} (dip : UInt32) (sport dport pg : UInt16)
    (h : ∀ key q, m key = some q → q.key = key ∧ q.sip = sip) :
    (getRxQp m sip dip sport dport pg).1.key = getRxQpKey dip pg dport ∧
      (getRxQp m sip dip sport dport pg).1.sip = sip := by
  unfold getRxQp
  dsimp only
  split
  · next q hq => exact h _ q hq
  · exact ⟨rfl, rfl⟩

theorem placed_receiveUdp {ch : DataHeader} (h : Placed host r) (hdip : ch.dip = host) :
    Placed host (r.receiveUdp c ch) := by
  subst hdip
  have hrx := getRxQp_placed ch.sip ch.dport ch.sport ch.pg h.rxQpMap
  rw [CnpScheduler.Receiver.receiveUdp_eq]
  refine placed_track ⟨fun key q hq => ?_, h.table, h.sent⟩ hrx.2
  dsimp only at hq
  rw [getRxQp_snd] at hq
  rcases eq_or_ne key (getRxQpKey ch.sip ch.pg ch.sport) with rfl | hne
  · rw [update_self] at hq
    cases hq
    exact hrx
  · rw [update_of_ne hne] at hq
    exact h.rxQpMap key q hq

theorem placed_remove (key : UInt64) (h : Placed host r) : Placed host (r.remove key) := by
  obtain ⟨hrx, hsent, -, htable⟩ := CnpScheduler.Receiver.remove_frame (s := r) key
  refine ⟨hrx ▸ h.rxQpMap, fun k state hk => ?_, hsent ▸ h.sent⟩
  rw [htable] at hk
  rcases eq_or_ne k key with rfl | hne
  · simp at hk
  · rw [update_of_ne hne] at hk
    exact h.table k state hk

theorem placed_deleteRxQp {dip : UInt32} {pg dport : UInt16} (h : Placed host r) :
    Placed host (r.deleteRxQp dip pg dport) := by
  have hremove := placed_remove (getRxQpKey dip pg dport) h
  refine ⟨fun key q hq => ?_, hremove.table, hremove.sent⟩
  unfold Receiver.deleteRxQp at hq
  dsimp only at hq
  rcases eq_or_ne key (getRxQpKey dip pg dport) with rfl | hne
  · simp at hq
  · rw [update_of_ne hne] at hq
    exact hremove.rxQpMap key q hq

theorem placed_visit (h : Placed host r) : Placed host (r.visit c) := by
  unfold Receiver.visit
  split
  · exact h
  · next key _ =>
    split
    · exact h.congr rfl rfl rfl
    · next state hstate =>
      have hsip : state.rxQp.sip = host := h.table key state hstate
      dsimp only
      split
      · have hsent : Placed host
            (r.sendCnp state (r.order.length * c.scanIntervalUs) r.order.length) := by
          refine ⟨h.rxQpMap, h.table, fun cnp hcnp => ?_⟩
          rcases List.mem_append.mp hcnp with hold | hnew
          · exact h.sent cnp hold
          · cases List.mem_singleton.mp hnew
            exact hsip
        exact Placed.write { state with ecnPending := false, ecnBits := 0, lastCnpTime := r.clock }
          hsent hsip rfl rfl rfl
      · split
        · exact placed_remove key h
        · exact h.congr rfl rfl rfl

theorem placed_runScheduler (h : Placed host r) : Placed host (r.runScheduler c) := by
  unfold Receiver.runScheduler
  dsimp only
  split
  · exact h.congr rfl rfl rfl
  · have hvisit : Placed host (Receiver.visit c
        { r with scanArmed := false, cursor := RoundRobin.wrap r.order r.cursor }) :=
      placed_visit (h.congr rfl rfl rfl)
    split
    · exact hvisit.congr rfl rfl rfl
    · exact hvisit.congr rfl rfl rfl

/-- A receiver only ever gets to know queue pairs of its own host. -/
theorem placed_step {e : CnpScheduler.Event} (h : Placed host r)
    (hdip : ∀ now ch, e = .receiveUdp now ch → ch.dip = host)
    (hstep : CnpScheduler.step c r e = some t) : Placed host t := by
  unfold CnpScheduler.step at hstep
  split at hstep
  · cases hstep
  · have hclock : Placed host { r with clock := e.time } := h.congr rfl rfl rfl
    cases e with
    | receiveUdp now ch =>
      cases hstep
      exact placed_receiveUdp hclock (hdip now ch rfl)
    | deleteRxQp now dip pg dport =>
      cases hstep
      exact placed_deleteRxQp hclock
    | scan now event =>
      dsimp only at hstep
      split at hstep
      · cases hstep
        exact placed_runScheduler (hclock.congr rfl rfl rfl)
      · cases hstep

end Receivers

/-! ## The network as a whole -/

section Keys

variable {qp qp' : Qp}

/-- At one host, two queue pairs with the same key belong to the same flow. -/
theorem sameFlow_of_key (hsip : qp.sip = qp'.sip) (hkey : qp.key = qp'.key) : qp.SameFlow qp' := by
  obtain ⟨hdip, hsport, hpg⟩ := getQpKey_inj.mp hkey
  exact ⟨hsip, hdip, hsport, hpg⟩

theorem sameFlow_of_rxKey (hdip : qp.dip = qp'.dip) (hkey : qp.rxKey = qp'.rxKey) :
    qp.SameFlow qp' := by
  obtain ⟨hsip, hpg, hsport⟩ := getRxQpKey_inj.mp hkey
  exact ⟨hsip, hdip, hsport, hpg⟩

end Keys

/-- `m_qpMap` finds the active queue pairs under their own keys, and no others. -/
structure Resolved (s : Net) : Prop where
  map : ∀ host key qp, s.qpMap host key = some qp ↔
    qp ∈ s.active ∧ qp.sip = host ∧ qp.key = key
  byte : ∀ qp ∈ s.active, qp.pg < 256
  distinct : ∀ qp ∈ s.active, ∀ qp' ∈ s.active, qp.SameFlow qp' → qp = qp'
  placed : ∀ host, Placed host (s.receiver host)

section Steps

variable {c : CnpScheduler.Config} {s t : Net}

theorem stepReceiver_frame {host : UInt32} {e : CnpScheduler.Event}
    (hstep : stepReceiver c s host e = some t) :
    ∃ r, CnpScheduler.step c (s.receiver host) e = some r ∧
      t = { s with receiver := update s.receiver host r } := by
  obtain ⟨r, hr, rfl⟩ := Option.map_eq_some_iff.mp hstep
  exact ⟨r, hr, rfl⟩

theorem resolved_stepReceiver {host : UInt32} {e : CnpScheduler.Event} (h : Resolved s)
    (hdip : ∀ now ch, e = .receiveUdp now ch → ch.dip = host)
    (hstep : stepReceiver c s host e = some t) : Resolved t := by
  obtain ⟨r, hr, rfl⟩ := stepReceiver_frame hstep
  refine ⟨h.map, h.byte, h.distinct, fun host' => ?_⟩
  dsimp only
  rcases eq_or_ne host' host with rfl | hne
  · rw [update_self]
    exact placed_step (h.placed host') hdip hr
  · rw [update_of_ne hne]
    exact h.placed host'

/-- The entry of a host and a key in `m_qpMap` after an assignment to one of them. -/
theorem update_entry {m : UInt32 → UInt64 → Option Qp} {host host' : UInt32} {key key' : UInt64}
    {v : Option Qp} : update m host (update (m host) key v) host' key' =
      if host' = host ∧ key' = key then v else m host' key' := by
  rcases eq_or_ne host' host with rfl | hhost
  · rw [update_self]
    rcases eq_or_ne key' key with rfl | hkey
    · rw [update_self, if_pos ⟨rfl, rfl⟩]
    · rw [update_of_ne hkey, if_neg fun h => hkey h.2]
  · rw [update_of_ne hhost, if_neg fun h => hhost h.1]

theorem resolved_addQueuePair {qp : Qp} (h : Resolved s)
    (hstep : step c s (.addQueuePair qp) = some t) : Resolved t := by
  simp only [step] at hstep
  split at hstep
  swap
  · cases hstep
  next hnew =>
  obtain ⟨hbyte, -, hflow⟩ := hnew
  cases hstep
  -- the new flow is none of those that are active
  have hother (qp' : Qp) (hmem : qp' ∈ s.active) : ¬qp.SameFlow qp' := hflow qp' hmem
  refine ⟨fun host key qp' => ?_, ?_, ?_, h.placed⟩
  · dsimp only
    rw [update_entry, List.mem_cons]
    split
    · next hentry =>
      obtain ⟨rfl, rfl⟩ := hentry
      constructor
      · intro heq
        cases heq
        exact ⟨.inl rfl, rfl, rfl⟩
      · rintro ⟨rfl | hmem, hsip, hkey⟩
        · rfl
        -- the key names the flow, so that the entry was free
        · exact absurd (sameFlow_of_key hsip.symm hkey.symm) (hother qp' hmem)
    · next hentry =>
      rw [h.map]
      constructor
      · rintro ⟨hmem, hrest⟩
        exact ⟨.inr hmem, hrest⟩
      · rintro ⟨rfl | hmem, hsip, hkey⟩
        · exact absurd ⟨hsip.symm, hkey.symm⟩ hentry
        · exact ⟨hmem, hsip, hkey⟩
  · intro qp' hmem
    rcases List.mem_cons.mp hmem with rfl | hmem
    · exact hbyte
    · exact h.byte qp' hmem
  · intro qp₁ h₁ qp₂ h₂ hsame
    rcases List.mem_cons.mp h₁ with rfl | hold₁
    · rcases List.mem_cons.mp h₂ with rfl | hold₂
      · rfl
      · exact absurd hsame (hother qp₂ hold₂)
    · rcases List.mem_cons.mp h₂ with rfl | hold₂
      · obtain ⟨hsip, hdip, hsport, hpg⟩ := hsame
        exact absurd ⟨hsip.symm, hdip.symm, hsport.symm, hpg.symm⟩ (hother qp₁ hold₁)
      · exact h.distinct qp₁ hold₁ qp₂ hold₂ hsame

theorem resolved_qpComplete {now : Int} {qp : Qp} (h : Resolved s)
    (hstep : step c s (.qpComplete now qp) = some t) : Resolved t := by
  simp only [step] at hstep
  split at hstep
  swap
  · cases hstep
  next hactive =>
  obtain ⟨u, hu, rfl⟩ := Option.map_eq_some_iff.mp hstep
  have hres : Resolved u := resolved_stepReceiver h (fun _ _ he => by cases he) hu
  obtain ⟨r, -, rfl⟩ := stepReceiver_frame hu
  have hmem (qp' : Qp) : qp' ∈ s.active.filter (· ≠ qp) ↔ qp' ∈ s.active ∧ qp' ≠ qp := by
    simp
  refine ⟨fun host key qp' => ?_, ?_, ?_, hres.placed⟩
  · dsimp only
    rw [update_entry, hmem]
    split
    · next hentry =>
      obtain ⟨rfl, rfl⟩ := hentry
      refine iff_of_false nofun ?_
      rintro ⟨⟨hqp', hne⟩, hsip, hkey⟩
      -- another queue pair with this key would be the same flow
      exact hne (h.distinct qp' hqp' qp hactive (sameFlow_of_key hsip hkey))
    · next hentry =>
      rw [h.map]
      constructor
      · rintro ⟨hqp', hsip, hkey⟩
        refine ⟨⟨hqp', ?_⟩, hsip, hkey⟩
        rintro rfl
        exact hentry ⟨hsip.symm, hkey.symm⟩
      · rintro ⟨⟨hqp', -⟩, hrest⟩
        exact ⟨hqp', hrest⟩
  · intro qp' hqp'
    exact h.byte qp' ((hmem qp').mp hqp').1
  · intro qp₁ h₁ qp₂ h₂
    exact h.distinct qp₁ ((hmem qp₁).mp h₁).1 qp₂ ((hmem qp₂).mp h₂).1

theorem resolved_step {e : Event} (h : Resolved s) (hstep : step c s e = some t) : Resolved t := by
  cases e with
  | addQueuePair qp => exact resolved_addQueuePair h hstep
  | data now qp ecnbits =>
    simp only [step] at hstep
    split at hstep
    · refine resolved_stepReceiver h ?_ hstep
      intro now' ch he
      cases he
      rfl
    · cases hstep
  | scan now host event => exact resolved_stepReceiver h (fun _ _ he => by cases he) hstep
  | qpComplete now qp => exact resolved_qpComplete h hstep

theorem resolved_start : Resolved start where
  map _ _ _ := iff_of_false nofun nofun
  byte _ hmem := nomatch hmem
  distinct _ hmem := nomatch hmem
  placed _ := ⟨nofun, nofun, nofun⟩

theorem resolved_of_reachable (h : Reachable (step c) start s) : Resolved s :=
  h.invariant resolved_start fun _ _ _ => resolved_step

theorem Resolved.getQp {qp : Qp} (h : Resolved s) (hqp : qp ∈ s.active) :
    getQp (s.qpMap qp.sip) qp.dip qp.sport qp.pg = some qp :=
  (h.map ..).mpr ⟨hqp, rfl, rfl⟩

end Steps

/-! ## Each packet finds its queue pair -/

section Packets

variable {c : CnpScheduler.Config} {ic : IntConfig} {s : Net} {qp : Qp}

/-- What the header of a data packet says about its flow. -/
structure OfFlow (qp : Qp) (ch : CustomHeader) : Prop where
  sip : ch.sip = qp.sip
  dip : ch.dip = qp.dip
  sport : ch.udp.sport = qp.sport
  dport : ch.udp.dport = qp.dport
  pg : ch.udp.pg = qp.pg

theorem ofFlow_dataPacket (hic : ic.Valid) (qp : Qp) (stale : Nat → UInt8) (ch₀ : CustomHeader)
    (tos : UInt8) (ipid : UInt16) (seq : UInt32) (ih : IntHeader) (payloadSize : Nat) :
    ∃ ch size, CustomHeader.deserialize ic ch₀
      (qp.dataPacket ic stale tos ipid seq ih payloadSize) = some (ch, size) ∧ OfFlow qp ch := by
  obtain ⟨ch, size, hparse, hrecovers, hsport, hdport, -, hpg, -⟩ :=
    deserialize_data hic stale ch₀ (ipv4Header qp.sip qp.dip tos ipid)
      { sourcePort := qp.sport, destinationPort := qp.dport } { seq, pg := qp.pg, ih } payloadSize
  exact ⟨ch, size, hparse, hrecovers.sip, hrecovers.dip, hsport, hdport, hpg⟩

/-- An ACK turns source and destination round, and the ports with them. -/
theorem reply_resolves (hic : ic.Valid) (h : Resolved s) (hqp : qp ∈ s.active)
    (stale : Nat → UInt8) (ch₀ : CustomHeader) {ch : CustomHeader} (hch : OfFlow qp ch)
    (isNack : Bool) (expected : UInt32) (cnp : Bool) (ipid : UInt16) :
    ∃ ch' size, CustomHeader.deserialize ic ch₀ (reply ic stale ch isNack expected cnp ipid) =
      some (ch', size) ∧ ch'.dip = qp.sip ∧ ackQp (s.qpMap ch'.dip) ch' = some qp := by
  obtain ⟨ch', size, hparse, hrecovers, -, hdport, -, hpg, -⟩ :=
    deserialize_ack hic stale ch₀ (ipv4Header ch.dip ch.sip 0 ipid) isNack
      (replyHeader ch expected cnp)
  have hdip : ch'.dip = qp.sip := hrecovers.dip.trans hch.sip
  refine ⟨ch', size, hparse, hdip, ?_⟩
  have hport : ch'.ack.dport = qp.sport := hdport.trans hch.sport
  have hgroup : ch'.ack.pg = qp.pg := hpg.trans hch.pg
  have hsource : ch'.sip = qp.dip := hrecovers.sip.trans hch.dip
  rw [ackQp, hsource, hport, hgroup, hdip]
  exact h.getQp hqp

/-- A priority group of a byte gets through `qIndex`. -/
theorem toUInt8_toUInt16 {pg : UInt16} (hpg : pg < 256) : pg.toUInt8.toUInt16 = pg := by
  refine UInt16.toNat_inj.mp ?_
  have hlt : pg.toNat < 256 := hpg
  simp [Nat.mod_eq_of_lt hlt]

/-- A CNP is addressed by the receive queue pair, which knows the flow from its end. -/
theorem cnp_resolves (h : Resolved s) (hqp : qp ∈ s.active) (hpg : qp.pg ≠ 1)
    {cnp : Cnp} (hcnp : cnp ∈ (s.receiver qp.dip).sent) (hkey : cnp.rxQp.key = qp.rxKey)
    (stale : Nat → UInt8) (ch₀ : CustomHeader) (ipid : UInt16) :
    ∃ ch size, CustomHeader.deserialize ic ch₀ (cnpOf stale cnp ipid) = some (ch, size) ∧
      ch.dip = qp.sip ∧ cnpQp (s.qpMap ch.dip) ch = some qp := by
  obtain ⟨hdip, hqIndex, hdport⟩ := getRxQpKey_inj.mp hkey
  have hsip : cnp.rxQp.sip = qp.dip := (h.placed qp.dip).sent cnp hcnp
  have hbyte : qp.pg.toUInt8.toUInt16 = qp.pg := toUInt8_toUInt16 (h.byte qp hqp)
  obtain ⟨ch, size, hparse, hrecovers, hfid, hch, -, -, -⟩ := deserialize_cnp (c := ic) stale ch₀
    (ipv4Header cnp.rxQp.sip cnp.rxQp.dip 0 ipid) (cnHeader cnp)
  have hchdip : ch.dip = qp.sip := hrecovers.dip.trans hdip
  refine ⟨ch, size, hparse, hchdip, ?_⟩
  have hch' : ch.cnp.qIndex = qp.pg.toUInt8 := hch.trans (congrArg UInt16.toUInt8 hqIndex)
  have hne : ¬ch.cnp.qIndex = 1 := by
    intro hone
    rw [hch'] at hone
    rw [hone] at hbyte
    exact hpg hbyte.symm
  have hport : ch.cnp.fid = qp.sport := hfid.trans hdport
  have hsource : ch.sip = qp.dip := hrecovers.sip.trans hsip
  rw [cnpQp, if_neg hne, hsource, hport, hch', hbyte, hchdip]
  exact h.getQp hqp

/-- The receive queue pair of a data packet is that of its flow. -/
theorem rxQp_flow (h : Resolved s) (qp : Qp) :
    (rxQp s qp).sip = qp.dip ∧ (rxQp s qp).key = qp.rxKey := by
  obtain ⟨hkey, hsip⟩ := getRxQp_placed qp.sip qp.dport qp.sport qp.pg (h.placed qp.dip).rxQpMap
  exact ⟨hsip, hkey⟩

theorem sameFlow_of_rxQp {t : Net} {qp' : Qp} (hs : Resolved s) (ht : Resolved t)
    (heq : rxQp s qp = rxQp t qp') : qp.SameFlow qp' := by
  obtain ⟨hsip, hkey⟩ := rxQp_flow hs qp
  obtain ⟨hsip', hkey'⟩ := rxQp_flow ht qp'
  rw [heq] at hsip hkey
  exact sameFlow_of_rxKey (hsip.symm.trans hsip') (hkey.symm.trans hkey')

/-- `DeleteRxQp` takes the entries of one key at one host. -/
theorem qpComplete_receiver {now : Int} {t : Net} (hstep : step c s (.qpComplete now qp) = some t)
    (host : UInt32) (key : UInt64) :
    (t.receiver host).rxQpMap key =
        (if host = qp.dip ∧ key = qp.rxKey then none else (s.receiver host).rxQpMap key) ∧
      (t.receiver host).table key =
        if host = qp.dip ∧ key = qp.rxKey then none else (s.receiver host).table key := by
  simp only [step] at hstep
  split at hstep
  swap
  · cases hstep
  obtain ⟨u, hu, rfl⟩ := Option.map_eq_some_iff.mp hstep
  obtain ⟨r, hr, rfl⟩ := stepReceiver_frame hu
  unfold CnpScheduler.step at hr
  split at hr
  · cases hr
  cases hr
  dsimp only
  -- only the receiver of the flow runs, and removes one key
  rcases eq_or_ne host qp.dip with rfl | hne
  · rw [update_self]
    obtain ⟨hrx, -, -, htable⟩ := CnpScheduler.Receiver.remove_frame
      (s := { s.receiver qp.dip with clock := now }) qp.rxKey
    have hdelete : (Receiver.deleteRxQp qp.sip qp.pg qp.sport
        { s.receiver qp.dip with clock := now }).rxQpMap =
          update (s.receiver qp.dip).rxQpMap qp.rxKey none :=
      congrArg (fun m : RxQpMap => update m qp.rxKey none) hrx
    have htable' : (Receiver.deleteRxQp qp.sip qp.pg qp.sport
        { s.receiver qp.dip with clock := now }).table =
          update (s.receiver qp.dip).table qp.rxKey none := htable
    constructor
    · rw [CnpScheduler.Event.time, hdelete, update_apply]
      simp
    · rw [CnpScheduler.Event.time, htable', update_apply]
      simp
  · rw [update_of_ne hne, if_neg fun h => hne h.1, if_neg fun h => hne h.1]
    exact ⟨rfl, rfl⟩

end Packets

/-- For every set of active flows that differ in source, destination, source port or
priority group: ACKs, NACKs and CNPs about a flow find its queue pair, data packets of
two flows never share a receive queue pair, and the end of a flow removes the receiver
state of this flow only. -/
theorem demultiplexing (c : CnpScheduler.Config) (ic : IntConfig) (hic : ic.Valid)
    (stale : Nat → UInt8) (s : Net) (hs : Reachable (step c) start s) :
    (∀ qp ∈ s.active, ∀ ch₀ tos ipid seq ih payloadSize, ∃ ch size,
      CustomHeader.deserialize ic ch₀ (qp.dataPacket ic stale tos ipid seq ih payloadSize) =
        some (ch, size) ∧
      ∀ isNack expected cnp ipid', ∃ ch' size',
        CustomHeader.deserialize ic ch₀ (reply ic stale ch isNack expected cnp ipid') =
          some (ch', size') ∧
        ch'.dip = qp.sip ∧ ackQp (s.qpMap ch'.dip) ch' = some qp) ∧
    (∀ qp ∈ s.active, qp.pg ≠ 1 → ∀ cnp ∈ (s.receiver qp.dip).sent, cnp.rxQp.key = qp.rxKey →
      ∀ ch₀ ipid, ∃ ch size,
        CustomHeader.deserialize ic ch₀ (cnpOf stale cnp ipid) = some (ch, size) ∧
        ch.dip = qp.sip ∧ cnpQp (s.qpMap ch.dip) ch = some qp) ∧
    (∀ s', Reachable (step c) start s' →
      ∀ qp qp' : Qp, ¬qp.SameFlow qp' → rxQp s qp ≠ rxQp s' qp') ∧
    (∀ now qp t, step c s (.qpComplete now qp) = some t →
      (t.receiver qp.dip).rxQpMap qp.rxKey = none ∧ (t.receiver qp.dip).table qp.rxKey = none ∧
      ∀ qp' : Qp, ¬qp'.SameFlow qp →
        (t.receiver qp'.dip).rxQpMap qp'.rxKey = (s.receiver qp'.dip).rxQpMap qp'.rxKey ∧
        (t.receiver qp'.dip).table qp'.rxKey = (s.receiver qp'.dip).table qp'.rxKey) := by
  have h : Resolved s := resolved_of_reachable hs
  refine ⟨?_, ?_, ?_, ?_⟩
  · intro qp hqp ch₀ tos ipid seq ih payloadSize
    obtain ⟨ch, size, hparse, hch⟩ := ofFlow_dataPacket hic qp stale ch₀ tos ipid seq ih
      payloadSize
    exact ⟨ch, size, hparse, reply_resolves hic h hqp stale ch₀ hch⟩
  · intro qp hqp hpg cnp hcnp hkey ch₀ ipid
    exact cnp_resolves h hqp hpg hcnp hkey stale ch₀ ipid
  · intro s' hs' qp qp' hflow heq
    exact hflow (sameFlow_of_rxQp h (resolved_of_reachable hs') heq)
  · intro now qp t hstep
    obtain ⟨hrx, htable⟩ := qpComplete_receiver hstep qp.dip qp.rxKey
    rw [if_pos ⟨rfl, rfl⟩] at hrx htable
    refine ⟨hrx, htable, fun qp' hflow => ?_⟩
    obtain ⟨hrx', htable'⟩ := qpComplete_receiver hstep qp'.dip qp'.rxKey
    -- another flow has another key, or another host
    have hother : ¬(qp'.dip = qp.dip ∧ qp'.rxKey = qp.rxKey) := fun hsame =>
      hflow (sameFlow_of_rxKey hsame.1 hsame.2)
    rw [if_neg hother] at hrx' htable'
    exact ⟨hrx', htable'⟩

/-! ## Two flows that differ in their priority group only -/

def flowA : Qp := { id := 0, sip := 1, dip := 2, sport := 10000, dport := 100, pg := 3 }
def flowB : Qp := { flowA with id := 1, pg := 4 }

def markedRun : List Event :=
  [.addQueuePair flowA, .addQueuePair flowB, .data 0 flowA 3, .data 10 flowB 0, .scan 1000 2 0]

/-- A CNP for one of them goes out, and completes the flow without the other noticing. -/
theorem demultiplexing_priority : ∃ s t,
    run (step CnpScheduler.dcqcnPlus) start markedRun = some s ∧
    step CnpScheduler.dcqcnPlus s (.qpComplete 2000 flowA) = some t ∧
    (∀ cnp ∈ (s.receiver 2).sent, cnp.rxQp.key = flowA.rxKey → ∃ ch size,
      CustomHeader.deserialize pintConfig .create (cnpOf (fun _ => 0) cnp 7) = some (ch, size) ∧
      cnpQp (s.qpMap ch.dip) ch = some flowA) ∧
    rxQp s flowA ≠ rxQp s flowB ∧
    (t.receiver 2).rxQpMap flowA.rxKey = none ∧
    (t.receiver 2).rxQpMap flowB.rxKey = (s.receiver 2).rxQpMap flowB.rxKey := by
  obtain ⟨t, ht⟩ := Option.isSome_iff_exists.mp (show (run (step CnpScheduler.dcqcnPlus) start
    (markedRun ++ [.qpComplete 2000 flowA])).isSome = true by decide +kernel)
  rw [run_append] at ht
  obtain ⟨s, hs, hstep⟩ := Option.bind_eq_some_iff.mp ht
  obtain ⟨u, hu, hnil⟩ := Option.bind_eq_some_iff.mp hstep
  cases hnil
  obtain ⟨-, hcnp, hshare, hdelete⟩ := demultiplexing CnpScheduler.dcqcnPlus pintConfig
    (fun _ => .inl rfl) (fun _ => 0) s ⟨markedRun, hs⟩
  have hdiffer : ¬flowB.SameFlow flowA := by
    rintro ⟨-, -, -, hpg⟩
    exact absurd hpg (by decide)
  have hactive : flowA ∈ s.active := by
    simp only [step] at hu
    split at hu
    · assumption
    · cases hu
  obtain ⟨hgone, -, hkept⟩ := hdelete 2000 flowA t hu
  refine ⟨s, t, hs, hu, fun cnp hmem hkey => ?_, fun heq => ?_, hgone, (hkept flowB hdiffer).1⟩
  · obtain ⟨ch, size, hparse, -, hqp⟩ := hcnp flowA hactive (by decide) cnp hmem hkey .create 7
    exact ⟨ch, size, hparse, hqp⟩
  · exact hshare s ⟨markedRun, hs⟩ flowB flowA hdiffer heq.symm

end Paraleon.Rdma.Demux
