import Paraleon.Library.Bytes

/-!
# Headers on the wire

What the headers of a packet write, and the packets that the program builds from them.
`ns3::Buffer` writes words with the least significant byte first, and those of the
network stack (`Hton`) with the most significant byte first.

`AddHeader` makes room for the serialized size of a header and has it written to the
front. One-byte PINT writes one byte less than that, and the byte stays what it was in
the buffer.
-/

namespace Paraleon.Wire

open Bytes

/-! ## The buffer -/

def writeU8 (x : UInt8) : List UInt8 := [x]
def writeU16 (x : UInt16) : List UInt8 := writeLE 2 x.toNat
def writeU32 (x : UInt32) : List UInt8 := writeLE 4 x.toNat
def writeU64 (x : UInt64) : List UInt8 := writeLE 8 x.toNat
def writeHtonU16 (x : UInt16) : List UInt8 := writeBE 2 x.toNat
def writeHtonU32 (x : UInt32) : List UInt8 := writeBE 4 x.toNat

def readU8 : List UInt8 → Option (UInt8 × List UInt8)
  | [] => none
  | b :: i => some (b, i)

def readU16 (i : List UInt8) : Option (UInt16 × List UInt8) :=
  (readLE 2 i).map (Prod.map UInt16.ofNat id)

def readU32 (i : List UInt8) : Option (UInt32 × List UInt8) :=
  (readLE 4 i).map (Prod.map UInt32.ofNat id)

def readU64 (i : List UInt8) : Option (UInt64 × List UInt8) :=
  (readLE 8 i).map (Prod.map UInt64.ofNat id)

def readNtohU16 (i : List UInt8) : Option (UInt16 × List UInt8) :=
  (readBE 2 i).map (Prod.map UInt16.ofNat id)

def readNtohU32 (i : List UInt8) : Option (UInt32 × List UInt8) :=
  (readBE 4 i).map (Prod.map UInt32.ofNat id)

section Buffer

variable (i : List UInt8)

@[simp] theorem length_writeU8 (x : UInt8) : (writeU8 x).length = 1 := rfl
@[simp] theorem length_writeU16 (x : UInt16) : (writeU16 x).length = 2 := length_writeLE ..
@[simp] theorem length_writeU32 (x : UInt32) : (writeU32 x).length = 4 := length_writeLE ..
@[simp] theorem length_writeU64 (x : UInt64) : (writeU64 x).length = 8 := length_writeLE ..
@[simp] theorem length_writeHtonU16 (x : UInt16) : (writeHtonU16 x).length = 2 := length_writeBE ..
@[simp] theorem length_writeHtonU32 (x : UInt32) : (writeHtonU32 x).length = 4 := length_writeBE ..

@[simp] theorem readU8_write (x : UInt8) : readU8 (writeU8 x ++ i) = some (x, i) := rfl

@[simp] theorem readU16_write (x : UInt16) : readU16 (writeU16 x ++ i) = some (x, i) := by
  rw [readU16, writeU16, readLE_writeLE x.toNat_lt, Option.map_some, Prod.map_apply,
    UInt16.ofNat_toNat, id]

@[simp] theorem readU32_write (x : UInt32) : readU32 (writeU32 x ++ i) = some (x, i) := by
  rw [readU32, writeU32, readLE_writeLE x.toNat_lt, Option.map_some, Prod.map_apply,
    UInt32.ofNat_toNat, id]

@[simp] theorem readU64_write (x : UInt64) : readU64 (writeU64 x ++ i) = some (x, i) := by
  rw [readU64, writeU64, readLE_writeLE x.toNat_lt, Option.map_some, Prod.map_apply,
    UInt64.ofNat_toNat, id]

@[simp] theorem readNtohU16_write (x : UInt16) :
    readNtohU16 (writeHtonU16 x ++ i) = some (x, i) := by
  rw [readNtohU16, writeHtonU16, readBE_writeBE x.toNat_lt, Option.map_some, Prod.map_apply,
    UInt16.ofNat_toNat, id]

@[simp] theorem readNtohU32_write (x : UInt32) :
    readNtohU32 (writeHtonU32 x ++ i) = some (x, i) := by
  rw [readNtohU32, writeHtonU32, readBE_writeBE x.toNat_lt, Option.map_some, Prod.map_apply,
    UInt32.ofNat_toNat, id]

theorem drop_writeHtonU16 (x : UInt16) : (writeHtonU16 x ++ i).drop 2 = i :=
  List.drop_left' (length_writeHtonU16 x)

theorem drop_writeU8 (x y z : UInt8) :
    (writeU8 x ++ (writeU8 y ++ (writeU8 z ++ i))).drop 3 = i := rfl

theorem drop_udpRest (x y : UInt16) : (writeHtonU16 x ++ (writeU16 y ++ i)).drop 4 = i := by
  rw [← List.append_assoc]
  exact List.drop_left' (by simp)

end Buffer

/-! ## INT -/

/-- `IntHeader::Mode`. -/
inductive Mode where
  | normal
  | ts
  | pint
  | none
deriving DecidableEq, Repr

/-- The static members of `IntHeader`. -/
structure IntConfig where
  mode : Mode
  pintBytes : Nat
deriving DecidableEq, Repr

/-- `IntHop::buf`. -/
structure IntHop where
  buf0 : UInt32
  buf1 : UInt32
deriving DecidableEq, Repr

abbrev maxHop : Nat := 5

/-- The members of the union. A mode uses only its own, and one-byte PINT only
`powerLo8`. -/
structure IntHeader where
  hop : Fin maxHop → IntHop
  nhop : UInt16
  ts : UInt64
  powerLo8 : UInt8
  powerHi8 : UInt8

namespace IntHeader

/-- `pint.power`. -/
def power (ih : IntHeader) : UInt16 := ih.powerHi8.toUInt16 <<< 8 ||| ih.powerLo8.toUInt16

def getStaticSize (c : IntConfig) : Nat :=
  match c.mode with
  | .normal => maxHop * 8 + 2
  | .ts => 8
  | .pint => 2
  | .none => 0

def serialize (c : IntConfig) (ih : IntHeader) : List UInt8 :=
  match c.mode with
  | .normal =>
    (List.ofFn ih.hop).flatMap (fun hop => writeU32 hop.buf0 ++ writeU32 hop.buf1)
      ++ writeU16 ih.nhop
  | .ts => writeU64 ih.ts
  | .pint =>
    if c.pintBytes = 1 then writeU8 ih.powerLo8
    else if c.pintBytes = 2 then writeU16 ih.power
    else []
  | .none => []

/-- The loop over the hops. -/
def readHops : Nat → List UInt8 → Option (List IntHop × List UInt8)
  | 0, i => some ([], i)
  | n + 1, i => do
    let (buf0, i) ← readU32 i
    let (buf1, i) ← readU32 i
    let (hops, i) ← readHops n i
    some ({ buf0, buf1 } :: hops, i)

/-- `Deserialize` into the header `ih`. -/
def deserialize (c : IntConfig) (ih : IntHeader) (i : List UInt8) : Option IntHeader :=
  match c.mode with
  | .normal => do
    let (hops, i) ← readHops maxHop i
    let (nhop, _) ← readU16 i
    some { ih with hop := fun j => hops.getD j (ih.hop j), nhop }
  | .ts => do
    let (ts, _) ← readU64 i
    some { ih with ts }
  | .pint =>
    if c.pintBytes = 1 then do
      let (powerLo8, _) ← readU8 i
      some { ih with powerLo8 }
    else if c.pintBytes = 2 then do
      let (power, _) ← readU16 i
      some { ih with powerLo8 := power.toUInt8, powerHi8 := (power >>> 8).toUInt8 }
    else some ih
  | .none => some ih

/-- Both headers have the same contents in the mode. -/
def SameInt (c : IntConfig) (ih ih' : IntHeader) : Prop :=
  match c.mode with
  | .normal => ih.hop = ih'.hop ∧ ih.nhop = ih'.nhop
  | .ts => ih.ts = ih'.ts
  | .pint => if c.pintBytes = 1 then ih.powerLo8 = ih'.powerLo8 else ih.power = ih'.power
  | .none => True

end IntHeader

/-! ## Headers -/

/-- What a header tells `AddHeader`: `GetSerializedSize`, and what `Serialize` writes. -/
structure Header where
  size : Nat
  bytes : List UInt8

/-- `Packet::AddHeader`. `stale` is what the buffer had where it makes room. -/
def addHeader (stale : Nat → UInt8) (h : Header) (p : List UInt8) : List UInt8 :=
  h.bytes ++ (List.range' h.bytes.length (h.size - h.bytes.length)).map stale ++ p

structure PppHeader where
  protocol : UInt16

def PppHeader.header (h : PppHeader) : Header :=
  { size := 14, bytes := writeHtonU16 h.protocol ++ writeU64 0 ++ writeU32 0 }

/-- `Ipv4Header`, with checksums disabled. -/
structure Ipv4Header where
  tos : UInt8
  payloadSize : UInt16
  identification : UInt16
  dontFragment : Bool
  moreFragments : Bool
  fragmentOffset : UInt16
  ttl : UInt8
  protocol : UInt8
  source : UInt32
  destination : UInt32
deriving DecidableEq, Repr

def Ipv4Header.header (h : Ipv4Header) : Header :=
  let verIhl : UInt8 := (4 : UInt8) <<< 4 ||| 5
  let fragmentOffset := h.fragmentOffset / 8
  let flagsFrag := (fragmentOffset >>> 8).toUInt8 &&& 0x1f
  let flagsFrag := if h.dontFragment then flagsFrag ||| (1 : UInt8) <<< 6 else flagsFrag
  let flagsFrag := if h.moreFragments then flagsFrag ||| (1 : UInt8) <<< 5 else flagsFrag
  { size := 20,
    bytes := writeU8 verIhl ++ writeU8 h.tos ++ writeHtonU16 (h.payloadSize + 5 * 4)
      ++ writeHtonU16 h.identification ++ writeU8 flagsFrag ++ writeU8 fragmentOffset.toUInt8
      ++ writeU8 h.ttl ++ writeU8 h.protocol ++ writeHtonU16 0
      ++ writeHtonU32 h.source ++ writeHtonU32 h.destination }

structure UdpHeader where
  sourcePort : UInt16
  destinationPort : UInt16
deriving DecidableEq, Repr

/-- `UdpHeader`, with checksums disabled, in front of `p`. -/
def UdpHeader.header (h : UdpHeader) (p : List UInt8) : Header :=
  { size := 8,
    bytes := writeHtonU16 h.sourcePort ++ writeHtonU16 h.destinationPort
      ++ writeHtonU16 (UInt16.ofNat (8 + p.length)) ++ writeU16 0 }

structure SeqTsHeader where
  seq : UInt32
  pg : UInt16
  ih : IntHeader

def SeqTsHeader.header (c : IntConfig) (h : SeqTsHeader) : Header :=
  { size := 6 + IntHeader.getStaticSize c,
    bytes := writeHtonU32 h.seq ++ writeHtonU16 h.pg ++ h.ih.serialize c }

/-- `qbbHeader`. -/
structure QbbHeader where
  sport : UInt16
  dport : UInt16
  flags : UInt16
  pg : UInt16
  seq : UInt32
  cnpTau : UInt32
  ih : IntHeader

def QbbHeader.header (c : IntConfig) (h : QbbHeader) : Header :=
  { size := 2 + 2 + 2 + 2 + 4 + 4 + IntHeader.getStaticSize c,
    bytes := writeU16 h.sport ++ writeU16 h.dport ++ writeU16 h.flags ++ writeU16 h.pg
      ++ writeU32 h.seq ++ writeU32 h.cnpTau ++ h.ih.serialize c }

structure CnHeader where
  fid : UInt16
  qIndex : UInt8
  qfb : UInt16
  ecnBits : UInt8
  total : UInt16
deriving DecidableEq, Repr

def CnHeader.header (h : CnHeader) : Header :=
  { size := 8,
    bytes := writeU8 h.qIndex ++ writeU16 h.fid ++ writeU8 h.ecnBits ++ writeU16 h.qfb
      ++ writeU16 h.total }

structure PauseHeader where
  time : UInt32
  qlen : UInt32
  qindex : UInt8
deriving DecidableEq, Repr

def PauseHeader.header (h : PauseHeader) : Header :=
  { size := 9, bytes := writeU32 h.time ++ writeU32 h.qlen ++ writeU8 h.qindex }

/-! ## Packets -/

/-- The IPv4 header for the payload `p`. -/
def Ipv4Header.carrying (ip : Ipv4Header) (protocol : UInt8) (p : List UInt8) : Ipv4Header :=
  { ip with protocol, payloadSize := UInt16.ofNat p.length }

/-- The IPv4 and PPP headers in front of `p`. -/
def encapsulate (stale : Nat → UInt8) (ip : Ipv4Header) (protocol : UInt8) (p : List UInt8) :
    List UInt8 :=
  addHeader stale (PppHeader.mk 0x0021).header
    (addHeader stale (ip.carrying protocol p).header p)

/-- The packet of `GetNxtPacket`. -/
def dataPacket (c : IntConfig) (stale : Nat → UInt8) (ip : Ipv4Header) (udp : UdpHeader)
    (seqTs : SeqTsHeader) (payloadSize : Nat) : List UInt8 :=
  let p := addHeader stale (seqTs.header c) (List.replicate payloadSize 0)
  encapsulate stale ip 0x11 (addHeader stale (udp.header p) p)

/-- The ACK or NACK of `ReceiveUdp`. -/
def ackPacket (c : IntConfig) (stale : Nat → UInt8) (ip : Ipv4Header) (isNack : Bool)
    (seqh : QbbHeader) : List UInt8 :=
  let payload := List.replicate (60 - 14 - 20 - (seqh.header c).size) 0
  encapsulate stale ip (if isNack then 0xFD else 0xFC) (addHeader stale (seqh.header c) payload)

/-- The CNP of `SendDcqcnPlusReceiverCnp`. -/
def cnpPacket (stale : Nat → UInt8) (ip : Ipv4Header) (cnh : CnHeader) : List UInt8 :=
  let payload := List.replicate (60 - 14 - 20 - cnh.header.size) 0
  encapsulate stale ip 0xFF (addHeader stale cnh.header payload)

/-- The frame of `SendPfc`. -/
def pfcFrame (stale : Nat → UInt8) (ip : Ipv4Header) (pauseh : PauseHeader) : List UInt8 :=
  encapsulate stale ip 0xFE (addHeader stale pauseh.header [])

end Paraleon.Wire
