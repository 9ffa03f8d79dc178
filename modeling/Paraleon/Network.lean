import Paraleon.Library.Runs
import Paraleon.Rdma.Nic
import Paraleon.Switch.Config
import Paraleon.Switch.Transmitter

/-!
# A network of switches and hosts

The nodes of a simulation and the links between their devices. A packet arrives
at the device that the channel connects to the one it left. `TakeDownLink` may
come at any time, with packets in flight, and installs any routing tables.

* `transmitters_safe`: a run keeps every transmitter in order if and only if no
  call of a switch comes back to a device that is waiting for its own call.
* `turnBackRun`: after a link failure a packet is sent out on the port it came in
  by, and the resume frame that its departure causes is started on that port
  before the packet.
-/

namespace Paraleon

open Runs Switch Rdma

inductive NodeConfig where
  | switch (c : SwitchConfig)
  | host (c : NicConfig)

inductive Node where
  | switch (c : SwitchConfig) (s : SwitchNode)
  | host (c : NicConfig) (h : Host)

namespace Node

def create (rtTable : UInt32 → List Port) : NodeConfig → Node
  | .switch c => .switch c (.create rtTable)
  | .host c => .host c .create

def deliver (d : Port) : Node → Option (Packet × Node)
  | .switch c s => (s.deliver d).map fun (p, s) => (p, .switch c s)
  | .host c h => (h.deliver d).map fun (p, h) => (p, .host c h)

def receive (d : Port) (p : Packet) (stale : UInt32) (now : Nat) : Node → Option Node
  | .switch c s => (s.receive c d p stale).map (.switch c)
  | .host c h => some (.host c (h.receive c now d p))

def transmitComplete (d : Port) (now : Nat) : Node → Option Node
  | .switch c s => (s.transmitComplete c d).map (.switch c)
  | .host c h => (h.transmitComplete c now d).map (.host c)

def takeDown (d : Port) : Node → Node
  | .switch c s => .switch c (s.takeDown d)
  | .host c h => .host c (h.takeDown d)

/-- The tables of a host are used by its `RdmaHw`. -/
def setRoutes (rtTable : UInt32 → List Port) : Node → Node
  | .switch c s => .switch c { s with rtTable }
  | .host c h => .host c h

/-- A step of the `RdmaHw` of a host. -/
def rdma (e : Host.Event) : Node → Option Node
  | .switch _ _ => none
  | .host c h =>
    match e with
    | .setQueues .. | .trigger .. | .nextSend .. | .updateNextAvail .. => (h.step c e).map (.host c)
    | .receive .. | .transmitComplete .. | .deliver .. | .takeDown .. => none

end Node

namespace Network

variable {ι : Type} [DecidableEq ι]

inductive Event (ι : Type) where
  /-- The oldest packet on the wire of device `d` of node `a` arrives. -/
  | deliver (a : ι) (d : Port) (stale : UInt32) (now : Nat)
  | transmitComplete (a : ι) (d : Port) (now : Nat)
  /-- `TakeDownLink`. The `RedistributeQp` at its end are `rdma` events. -/
  | takeDownLink (a : ι) (d : Port) (rtTables : ι → UInt32 → List Port)
  | rdma (a : ι) (e : Host.Event)

/-- The nodes at the start of a run. -/
def start (config : ι → NodeConfig) (rtTables : ι → UInt32 → List Port) (a : ι) : Node :=
  .create (rtTables a) (config a)

/-- `peer` gives the device at the other end of each link. -/
def step (peer : ι → Port → Option (ι × Port)) (s : ι → Node) : Event ι → Option (ι → Node)
  | .deliver a d stale now => do
    let (p, node) ← (s a).deliver d
    let s := Function.update s a node
    match peer a d with
    | none => some s
    | some (b, i) => do
      let node ← (s b).receive i p stale now
      some (Function.update s b node)
  | .transmitComplete a d now => do
    let node ← (s a).transmitComplete d now
    some (Function.update s a node)
  | .takeDownLink a d rtTables =>
    let s := Function.update s a ((s a).takeDown d)
    let s := match peer a d with
      | none => s
      | some (b, i) => Function.update s b ((s b).takeDown i)
    some fun n => (s n).setRoutes (rtTables n)
  | .rdma a e => do
    let node ← (s a).rdma e
    some (Function.update s a node)

/-! ## What has to hold -/

/-- Each device of the node has at most one packet in transmission, and no
assertion about a transmitter has failed. -/
def NodeOk : Node → Prop
  | .switch _ s => s.TransmittersOk
  | .host _ h => h.TransmittersOk

def TransmittersOk (s : ι → Node) : Prop := ∀ a, NodeOk (s a)

/-- No call of a switch comes back to a device that is waiting. -/
def NodeKeeps (e : SwitchNode.Event) : Node → Prop
  | .switch c s => s.KeepsTransmitters c e
  | .host _ _ => True

def KeepsTransmitters (peer : ι → Port → Option (ι × Port)) (s : ι → Node) : Event ι → Prop
  | .deliver a d stale _ => ∀ p node, (s a).deliver d = some (p, node) →
      ∀ b i, peer a d = some (b, i) → NodeKeeps (.receive i p stale) (Function.update s a node b)
  | .transmitComplete a d _ => NodeKeeps (.transmitComplete d) (s a)
  | .takeDownLink .. => True
  | .rdma .. => True

/-! ## One node -/

section OneNode

variable {n m : Node} {d : Port} {p : Packet}

theorem nodeOk_deliver (hok : NodeOk n) (h : n.deliver d = some (p, m)) : NodeOk m := by
  cases n with
  | switch c s =>
    obtain ⟨⟨q, t⟩, hdeliver, heq⟩ := Option.map_eq_some_iff.mp h
    cases heq
    have hstep : SwitchNode.step c s (.deliver d) = some t :=
      Option.map_eq_some_iff.mpr ⟨_, hdeliver, rfl⟩
    exact (SwitchNode.keepsTransmitters_iff hok hstep).mpr trivial
  | host c g =>
    obtain ⟨⟨q, t⟩, hdeliver, heq⟩ := Option.map_eq_some_iff.mp h
    cases heq
    have hstep : Host.step c g (.deliver d) = some t :=
      Option.map_eq_some_iff.mpr ⟨_, hdeliver, rfl⟩
    exact Host.ok_step hok hstep

theorem nodeOk_receive {stale : UInt32} {now : Nat} (hok : NodeOk n)
    (h : n.receive d p stale now = some m) : NodeOk m ↔ NodeKeeps (.receive d p stale) n := by
  cases n with
  | switch c s =>
    obtain ⟨t, hreceive, rfl⟩ := Option.map_eq_some_iff.mp h
    exact SwitchNode.ok_receive_iff hok hreceive
  | host c g =>
    cases h
    exact iff_of_true (Host.ok_receive hok) trivial

theorem nodeOk_transmitComplete {now : Nat} (hok : NodeOk n)
    (h : n.transmitComplete d now = some m) : NodeOk m ↔ NodeKeeps (.transmitComplete d) n := by
  cases n with
  | switch c s =>
    obtain ⟨t, hcomplete, rfl⟩ := Option.map_eq_some_iff.mp h
    have hstep : SwitchNode.step c s (.transmitComplete d) = some t := hcomplete
    exact SwitchNode.keepsTransmitters_iff hok hstep
  | host c g =>
    obtain ⟨t, hcomplete, rfl⟩ := Option.map_eq_some_iff.mp h
    exact iff_of_true (Host.ok_transmitComplete hok hcomplete) trivial

theorem nodeOk_takeDown (hok : NodeOk n) : NodeOk (n.takeDown d) := by
  cases n with
  | switch c s =>
    have hstep : SwitchNode.step c s (.takeDown d) = some (s.takeDown d) := rfl
    exact (SwitchNode.keepsTransmitters_iff hok hstep).mpr trivial
  | host c g =>
    have hstep : Host.step c g (.takeDown d) = some (g.takeDown d) := rfl
    exact Host.ok_step hok hstep

theorem nodeOk_setRoutes {rtTable : UInt32 → List Port} (hok : NodeOk n) :
    NodeOk (n.setRoutes rtTable) := by
  cases n with
  | switch c s => exact ⟨hok.settled, hok.asserted⟩
  | host c g => exact hok

theorem nodeOk_rdma {e : Host.Event} (hok : NodeOk n) (h : n.rdma e = some m) : NodeOk m := by
  cases n with
  | switch c s => cases h
  | host c g =>
    cases e with
    | setQueues | trigger | nextSend | updateNextAvail =>
      simp only [Node.rdma] at h
      obtain ⟨t, hstep, rfl⟩ := Option.map_eq_some_iff.mp h
      exact Host.ok_step hok hstep
    | receive | transmitComplete | deliver | takeDown => cases h

theorem nodeOk_create (rtTable : UInt32 → List Port) (config : NodeConfig) :
    NodeOk (.create rtTable config) := by
  cases config with
  | switch c => exact SwitchNode.transmittersOk_create rtTable
  | host c => exact Host.transmittersOk_create

end OneNode

/-! ## The network -/

variable {peer : ι → Port → Option (ι × Port)} {s t : ι → Node}

/-- When one node changes, all is in order exactly when that node is. -/
theorem ok_update_iff {a : ι} {node : Node} (hok : TransmittersOk s) :
    TransmittersOk (Function.update s a node) ↔ NodeOk node := by
  constructor
  · intro h
    simpa using h a
  · intro h b
    rcases eq_or_ne b a with rfl | hb
    · simpa using h
    · simpa [hb] using hok b

theorem keepsTransmitters_iff {e : Event ι} (hok : TransmittersOk s)
    (hstep : step peer s e = some t) : TransmittersOk t ↔ KeepsTransmitters peer s e := by
  cases e with
  | deliver a d stale now =>
    obtain ⟨⟨p, node⟩, hdeliver, hstep⟩ := Option.bind_eq_some_iff.mp hstep
    -- sending pops the link of one node; the receiving node decides
    have hpopped : TransmittersOk (Function.update s a node) :=
      (ok_update_iff hok).mpr (nodeOk_deliver (hok a) hdeliver)
    simp only [KeepsTransmitters, hdeliver, Option.some.injEq, Prod.mk.injEq]
    cases hpeer : peer a d with
    | none =>
      simp only [hpeer, Option.some.injEq] at hstep
      subst hstep
      exact iff_of_true hpopped nofun
    | some other =>
      obtain ⟨b, i⟩ := other
      simp only [hpeer] at hstep
      obtain ⟨received, hreceive, ht⟩ := Option.bind_eq_some_iff.mp hstep
      cases ht
      rw [ok_update_iff hpopped, nodeOk_receive (hpopped b) hreceive]
      constructor
      · rintro h _ _ ⟨rfl, rfl⟩ _ _ ⟨rfl, rfl⟩
        exact h
      · exact fun h => h p node ⟨rfl, rfl⟩ b i rfl
  | transmitComplete a d now =>
    obtain ⟨node, hcomplete, ht⟩ := Option.bind_eq_some_iff.mp hstep
    cases ht
    rw [ok_update_iff hok, nodeOk_transmitComplete (hok a) hcomplete]
    rfl
  | takeDownLink a d rtTables =>
    refine iff_of_true ?_ trivial
    cases hstep
    intro n
    refine nodeOk_setRoutes ?_
    -- both ends go down before the routes are set
    have hdown : TransmittersOk (Function.update s a ((s a).takeDown d)) :=
      (ok_update_iff hok).mpr (nodeOk_takeDown (hok a))
    split
    · exact hdown n
    · next b i _ => exact (ok_update_iff hdown).mpr (nodeOk_takeDown (hdown b)) n
  | rdma a e =>
    obtain ⟨node, hrdma, ht⟩ := Option.bind_eq_some_iff.mp hstep
    cases ht
    exact iff_of_true ((ok_update_iff hok).mpr (nodeOk_rdma (hok a) hrdma)) trivial

/-! ## Main result -/

/-- Every transmitter stays in order throughout a run exactly when no call of a
switch in it comes back to a device that is waiting. -/
theorem transmitters_safe (peer : ι → Port → Option (ι × Port)) (config : ι → NodeConfig)
    (rtTables : ι → UInt32 → List Port) (es : List (Event ι)) :
    Always (step peer) TransmittersOk (start config rtTables) es ↔
      Guarded (step peer) (KeepsTransmitters peer) (start config rtTables) es :=
  have hsteps : ∀ s e t, True → TransmittersOk s → step peer s e = some t →
      (TransmittersOk t ↔ KeepsTransmitters peer s e) :=
    fun _ _ _ _ hok hstep => keepsTransmitters_iff hok hstep
  always_iff_guarded (fun _ _ _ h _ => h) hsteps trivial
    (fun a => nodeOk_create (rtTables a) (config a)) es

/-! ## A packet that turns back -/

/-- Five links in a ring of four switches with a host on two of them: host 0,
switches 1 to 4, and host 5. -/
def ringLinks : List ((Fin 6 × Port) × (Fin 6 × Port)) :=
  [((0, 1), (1, 1)), ((1, 2), (2, 1)), ((1, 3), (4, 1)), ((2, 2), (3, 1)), ((4, 2), (3, 2)),
   ((3, 3), (5, 1))]

def ringPeer (a : Fin 6) (d : Port) : Option (Fin 6 × Port) :=
  ((ringLinks.find? fun l => l.1 = (a, d)).map (·.2)).or
    ((ringLinks.find? fun l => l.2 = (a, d)).map (·.1))

/-- The links of switch 2 have a delay of 348160 ns, the others of 1 us. -/
def ringSwitch (id : UInt32) (nPort : Port) (far : List Port) : NodeConfig :=
  .switch
    { mmu := configSwitch 8000000000 2 nPort fun d =>
        { rate := 8000000000, delay := if d ∈ far then 348160 else 1000 }
      ecmpSeed := id, ackHighPrio := true, pausetime := fun _ => 5, qbbEnabled := fun _ => true }

def ringHost : NodeConfig :=
  .host
    { hw := { mtu := 1000, chunk := 4000, ackInterval := 1, nackInterval := 500000
              backto0 := false, dcqcnPlusEnabled := false }
      intSize := 8, rateBound := true, tInterframeGap := 0, ackQIdx := 0, qbbEnabled := true
      calculateTxTime := fun rate bytes => bytes * 8 * 1000000000 / rate }

/-- The headrooms and reserves of switch 2 take up its 2 MiB. -/
def ringConfig : Fin 6 → NodeConfig
  | 1 => ringSwitch 1 3 [2]
  | 2 => ringSwitch 2 2 [1, 2]
  | 3 => ringSwitch 3 3 [1]
  | 4 => ringSwitch 4 2 []
  | _ => ringHost

/-- The shortest paths to host 5. -/
def ringRoutes : Fin 6 → UInt32 → List Port
  | 1, _ => [2, 3]
  | 2, _ => [2]
  | 3, _ => [3]
  | 4, _ => [2]
  | _, _ => []

/-- The shortest paths without the link between the switches 2 and 3. -/
def reroutes : Fin 6 → UInt32 → List Port
  | 1, _ => [3]
  | 2, _ => [1]
  | 3, _ => [3]
  | 4, _ => [2]
  | _, _ => []

/-- Host 0 sends one packet by switch 1 to switch 2; the link to switch 3 goes
down before it arrives there. -/
def turnBackRun : List (Event (Fin 6)) :=
  [.rdma 0 (.setQueues 1 []
     [{ transport := .create 1000 0 false 8000000000, pg := 3, sip := 0x0b000001
        dip := 0x0b000501, sport := 10001, dport := 100, nextAvail := 0 }]),
   .rdma 0 (.trigger 0 1), .deliver 0 1 0 0, .takeDownLink 2 2 reroutes, .deliver 1 2 0 0,
   .transmitComplete 2 1 0]

/-- The assertions that have failed on port 1 of switch 2, and what its
transmitter does. -/
def observe (s : Fin 6 → Node) : Option (List Incident × Nat × Option Nat) :=
  match s 2 with
  | .switch _ s => some (s.incidents, (s.devices 1).completes,
      (s.devices 1).currentPkt.map (·.size))
  | .host _ _ => none

/-- "Must be READY to transmit" fails: the packet replaces the resume frame, and
two `TransmitComplete` events are scheduled. -/
theorem turnBackRun_overwrites :
    (run (step ringPeer) (start ringConfig ringRoutes) turnBackRun).map observe =
      some (some ([.notReady 1], 2, some 1056)) := by
  decide +kernel

/-- The same run breaks the transmitter of switch 2. -/
theorem turnBackRun_breaks :
    ¬ Always (step ringPeer) TransmittersOk (start ringConfig ringRoutes) turnBackRun := by
  intro h
  obtain ⟨t, hrun, hobserve⟩ := Option.map_eq_some_iff.mp turnBackRun_overwrites
  have h' : Always (step ringPeer) TransmittersOk (start ringConfig ringRoutes)
      (turnBackRun ++ []) := by rwa [List.append_nil]
  have hok : NodeOk (t 2) := (h'.of_run hrun).head 2
  unfold observe at hobserve
  split at hobserve
  · next c s hnode =>
    rw [hnode] at hok
    have hincidents : s.incidents = [.notReady 1] := by
      simp only [Option.some.injEq, Prod.mk.injEq] at hobserve
      exact hobserve.1
    have hbroken : s.broken = [] := hok.asserted
    rw [SwitchNode.broken, hincidents] at hbroken
    cases hbroken
  · cases hobserve

end Network

end Paraleon
