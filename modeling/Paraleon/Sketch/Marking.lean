import Paraleon.Library.Numerals
import Paraleon.Sketch.ElasticSketch

/-!
# Which packets a sketch counts

The first sketch switch on the route of a packet counts it and sets its TTL to 150, which
later sketch switches take as the mark of a counted packet. A packet is left out by its
protocol number only when it is an ACK.

* `insertions_of_packet`: in any interleaving of packets, what is counted of one packet
  depends on its own route alone.
* `counted_once_iff`: data packets and ACKs are counted as they should be; NACKs and CNPs
  are counted like data.
-/

namespace Paraleon.Sketch

open Function ElasticSketch Numerals

/-! ## Packets -/

/-- What `SwitchReceiveFromDevice` reads of a packet. In a control packet, `dport` is what
the union of `CustomHeader` has in the place of `udp.dport`. -/
structure Packet where
  l3Prot : UInt8
  ttl : UInt8
  sip : UInt32
  dip : UInt32
  dport : UInt16

inductive Kind where
  | data
  | ack
  | nack
  | cnp
deriving DecidableEq, Repr

def Kind.l3Prot : Kind → UInt8
  | .data => 0x11
  | .ack => 0xFC
  | .nack => 0xFD
  | .cnp => 0xFF

/-- The packets of `GetNxtPacket`, `ReceiveUdp` and `SendDcqcnPlusReceiverCnp`. -/
def Packet.build (kind : Kind) (sip dip : UInt32) (dport : UInt16) : Packet :=
  { l3Prot := kind.l3Prot, ttl := 64, sip, dip, dport }

/-- `GetFlowId`: the number that `strtoul` reads is cut to 32 bits. -/
def getFlowId (p : Packet) : UInt32 :=
  let sipAddr := decimal ((p.sip >>> 8) &&& 0xff).toNat
  let dipAddr := decimal ((p.dip >>> 8) &&& 0xff).toNat
  let dport := decimal p.dport.toNat
  UInt32.ofNat (Nat.ofDigitChars 10 (sipAddr ++ dipAddr ++ dport) 0)

/-! ## One switch -/

def isSketchSwitch (id : Nat) : Bool := decide (64 ≤ id ∧ id ≤ 71)

/-- The test before the insertion. -/
def Packet.isCounted (p : Packet) (id : Nat) : Bool :=
  isSketchSwitch id && decide (p.ttl ≤ 64) && decide (p.l3Prot ≠ 0xFC)

variable {c : SketchConfig}

/-- The part of `SwitchReceiveFromDevice` that comes before `SendToDev`. -/
def switchReceiveFromDevice (id : Nat) (elastic : ElasticSketch c) (p : Packet) :
    ElasticSketch c × Packet :=
  if p.isCounted id then (elastic.insert (getFlowId p), { p with ttl := 150 }) else (elastic, p)

/-! ## The switches that count a packet on its route -/

/-- The switches of the route that insert the packet. -/
def Packet.countedOn (p : Packet) : List Nat → List Nat
  | [] => []
  | id :: route =>
    if p.isCounted id then id :: { p with ttl := 150 }.countedOn route else p.countedOn route

theorem countedOn_marked {p : Packet} (h : 64 < p.ttl) (route : List Nat) :
    p.countedOn route = [] := by
  induction route with
  | nil => rfl
  | cons id route ih =>
    have hnot : p.isCounted id = false := by simp [Packet.isCounted, h]
    simp [Packet.countedOn, hnot, ih]

theorem countedOn_ack {p : Packet} (h : p.l3Prot = 0xFC) (route : List Nat) :
    p.countedOn route = [] := by
  induction route with
  | nil => rfl
  | cons id route ih =>
    have hnot : p.isCounted id = false := by simp [Packet.isCounted, h]
    simp [Packet.countedOn, hnot, ih]

/-- Any other packet is counted by the first sketch switch. -/
theorem countedOn_fresh {p : Packet} (httl : p.ttl ≤ 64) (hprot : p.l3Prot ≠ 0xFC)
    (route : List Nat) : p.countedOn route = (route.find? isSketchSwitch).toList := by
  induction route with
  | nil => rfl
  | cons id route ih =>
    have hcount : p.isCounted id = isSketchSwitch id := by simp [Packet.isCounted, httl, hprot]
    rw [Packet.countedOn, hcount, List.find?_cons]
    cases isSketchSwitch id with
    | true =>
      have hmark : ({ p with ttl := 150 } : Packet).countedOn route = [] :=
        countedOn_marked (by simp) route
      simp [hmark]
    | false => simpa using ih

/-! ## The network -/

section Network

variable {ι : Type} [DecidableEq ι]

/-- The packets on their way, the sketches of the switches, and a record of the insertions:
which packet, and at which switch. -/
structure Network (c : SketchConfig) (ι : Type) where
  packets : ι → Packet
  elastic : Nat → ElasticSketch c
  insertions : List (ι × Nat)

namespace Network

/-- A packet arrives at a switch. -/
def receive (net : Network c ι) (hop : ι × Nat) : Network c ι :=
  let p := net.packets hop.1
  let (elastic, p') := switchReceiveFromDevice hop.2 (net.elastic hop.2) p
  { packets := update net.packets hop.1 p'
    elastic := update net.elastic hop.2 elastic
    insertions := if p.isCounted hop.2 then net.insertions ++ [hop] else net.insertions }

/-- Any number of packets travel, in any order of arrivals. -/
def run (net : Network c ι) (hops : List (ι × Nat)) : Network c ι := hops.foldl receive net

/-- The switches in the hops of packet `i`. -/
def route (hops : List (ι × Nat)) (i : ι) : List Nat :=
  (hops.filter fun hop => hop.1 = i).map Prod.snd

/-- Where packet `i` was counted. -/
def insertedAt (net : Network c ι) (i : ι) : List Nat := route net.insertions i

/-- The flows that the switch `id` counted, when packet `i` has the flow id `flow i`. -/
def insertedFlows (net : Network c ι) (flow : ι → UInt32) (id : Nat) : List UInt32 :=
  (net.insertions.filter fun hop => hop.2 = id).map fun hop => flow hop.1

variable {net : Network c ι} {hop : ι × Nat} {hops : List (ι × Nat)}

theorem receive_counted (h : (net.packets hop.1).isCounted hop.2 = true) :
    net.receive hop =
      { packets := update net.packets hop.1 { net.packets hop.1 with ttl := 150 }
        elastic := update net.elastic hop.2
          ((net.elastic hop.2).insert (getFlowId (net.packets hop.1)))
        insertions := net.insertions ++ [hop] } := by
  simp [receive, switchReceiveFromDevice, h]

theorem receive_passed (h : (net.packets hop.1).isCounted hop.2 = false) :
    net.receive hop = net := by
  simp [receive, switchReceiveFromDevice, h]

theorem route_cons (i : ι) :
    route (hop :: hops) i = if hop.1 = i then hop.2 :: route hops i else route hops i := by
  by_cases h : hop.1 = i <;> simp [route, h]

/-- What is counted of a packet depends on its own hops alone. -/
theorem insertions_of_packet (net : Network c ι) (hops : List (ι × Nat)) (i : ι) :
    (net.run hops).insertedAt i = net.insertedAt i ++ (net.packets i).countedOn (route hops i) := by
  induction hops generalizing net with
  | nil => simp [run, route, Packet.countedOn]
  | cons hop hops ih =>
    rw [run, List.foldl_cons, ← run, ih, route_cons]
    cases h : (net.packets hop.1).isCounted hop.2 with
    | false =>
      rw [receive_passed h]
      split
      · next hi =>
        subst hi
        simp [Packet.countedOn, h]
      · rfl
    | true =>
      rw [receive_counted h]
      rcases eq_or_ne hop.1 i with rfl | hi
      · simp [insertedAt, route, Packet.countedOn, h]
      · simp [insertedAt, route, hi, Ne.symm hi]

/-- A switch has counted the flows of the packets in the record, and nothing else. -/
theorem elastic_run (net : Network c ι) (flow : ι → UInt32)
    (hflow : ∀ i, getFlowId (net.packets i) = flow i) (s : Nat → ElasticSketch c)
    (hs : ∀ id, net.elastic id = (s id).insertAll (net.insertedFlows flow id))
    (hops : List (ι × Nat)) (id : Nat) :
    (net.run hops).elastic id = (s id).insertAll ((net.run hops).insertedFlows flow id) := by
  induction hops generalizing net with
  | nil => exact hs id
  | cons hop hops ih =>
    rw [run, List.foldl_cons, ← run]
    cases h : (net.packets hop.1).isCounted hop.2 with
    | false =>
      rw [receive_passed h]
      exact ih net hflow hs
    | true =>
      rw [receive_counted h]
      refine ih _ (fun i => ?_) fun id' => ?_
      · dsimp only
        rcases eq_or_ne i hop.1 with rfl | hi
        · rw [update_self]
          exact hflow hop.1
        · rw [update_of_ne hi]
          exact hflow i
      · rcases eq_or_ne id' hop.2 with rfl | hid
        · simp [insertedFlows, hs, insertAll, hflow]
        · simp [insertedFlows, hid, Ne.symm hid, hs]

/-- Packets of the kinds and headers that the program builds, and cleared sketches. -/
def start (kind : ι → Kind) (sip dip : ι → UInt32) (dport : ι → UInt16) : Network c ι :=
  { packets := fun i => .build (kind i) (sip i) (dip i) (dport i)
    elastic := fun _ => clear
    insertions := [] }

/-- The first sketch switch on the route of a data packet counts it, once; control packets
are not counted. -/
def CountedOnce (kind : Kind) (route insertedAt : List Nat) : Prop :=
  match kind with
  | .data => insertedAt = (route.find? isSketchSwitch).toList
  | .ack | .nack | .cnp => insertedAt = []

theorem insertedAt_start (kind : ι → Kind) (sip dip : ι → UInt32) (dport : ι → UInt16)
    (hops : List (ι × Nat)) (i : ι) :
    ((start kind sip dip dport : Network c ι).run hops).insertedAt i =
      if kind i = .ack then [] else ((route hops i).find? isSketchSwitch).toList := by
  rw [insertions_of_packet]
  change [] ++ _ = _
  rw [List.nil_append]
  split
  · next h => exact countedOn_ack (by simp [start, Packet.build, h, Kind.l3Prot]) _
  · next h =>
    refine countedOn_fresh (by simp [start, Packet.build]) ?_ _
    cases hk : kind i with
    | ack => exact absurd hk h
    | data | nack | cnp => simp [start, Packet.build, hk, Kind.l3Prot]

/-- Each sketch has the insertions of the record, and a packet is in it as it should be
exactly when it is not a NACK or a CNP that meets a sketch switch. -/
theorem counted_once_iff (kind : ι → Kind) (sip dip : ι → UInt32) (dport : ι → UInt16)
    (hops : List (ι × Nat)) :
    let net₀ : Network c ι := start kind sip dip dport
    let net := net₀.run hops
    (∀ id, net.elastic id =
        clear.insertAll (net.insertedFlows (fun i => getFlowId (net₀.packets i)) id)) ∧
      ∀ i, CountedOnce (kind i) (route hops i) (net.insertedAt i) ↔
        (kind i = .nack ∨ kind i = .cnp → ∀ id ∈ route hops i, isSketchSwitch id = false) := by
  refine ⟨elastic_run _ _ (fun _ => rfl) (fun _ => clear) (fun _ => rfl) hops, fun i => ?_⟩
  rw [insertedAt_start]
  cases kind i with
  | data => simp [CountedOnce]
  | ack => simp [CountedOnce]
  | nack => simp [CountedOnce, List.find?_eq_none]
  | cnp => simp [CountedOnce, List.find?_eq_none]

/-- A NACK from the second host to the first, by a sketch switch, is counted there. -/
theorem nack_counted :
    let net : Network (switchSketch 2) Unit :=
      (start (fun _ => .nack) (fun _ => 0x0b000101) (fun _ => 0x0b000001) fun _ => 10000).run
        [((), 64)]
    net.insertedAt () = [64] ∧
      ¬ CountedOnce .nack (route [((), 64)] ()) (net.insertedAt ()) := by
  intro net
  have hin : net.insertedAt () = [64] := insertedAt_start ..
  exact ⟨hin, fun honce => absurd (hin.symm.trans honce) (by decide)⟩

end Network

end Network

end Paraleon.Sketch
