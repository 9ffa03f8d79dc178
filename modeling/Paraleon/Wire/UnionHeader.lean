import Paraleon.Wire.IntMemory

/-!
# The codec of whole headers

`CustomHeader` can also write all three layers, and parse all their fields. Its last five
members are a union: they lie over each other in memory, as the ABI of the host lays them
out. A word is aligned to its size and an `IntHeader` to eight bytes, so that those of
`udp` and `ack` are both at address 16. `Serialize` relies on this: it writes the INT
header of an ACK through `udp.ih`.

`full_roundTrip`: in full mode every serialized field is read as it was written, in each of
the six protocols, but for the two bits by which `tcpFlags` is wider than its field.
-/

namespace Paraleon.Wire

open Bytes

/-! ## The union -/

/-- The first address from `n` on that is a multiple of eight. -/
def align8 (n : Nat) : Nat := (n + 7) / 8 * 8

/-- `udp.ih` stands behind `sport`, `dport`, `payload_size`, `pg` and `seq`. -/
def udpIh : Nat := align8 (2 + 2 + 2 + 2 + 4)

/-- `ack.ih` stands behind `sport`, `dport`, `flags`, `pg`, `seq` and `cnpTau`. -/
def ackIh : Nat := align8 (2 + 2 + 2 + 2 + 4 + 4)

def optionBuf : Nat := 18

structure TcpMember extends TcpFields where
  windowSize : UInt16
  urgentPointer : UInt16

structure UdpMember extends UdpFields where
  payloadSize : UInt16

/-- The fields of a full parse. -/
structure UnionHeader where
  brief : Bool
  headerType : UInt32
  getInt : Bool
  pppProto : UInt16
  payloadSize : UInt16
  ipid : UInt16
  tos : UInt8
  ttl : UInt8
  l3Prot : UInt8
  ipv4Flags : BitVec 3
  fragmentOffset : UInt16
  sip : UInt32
  dip : UInt32
  checksum : UInt16
  headerSize : UInt16
  /-- The union, from address 0 on. -/
  members : Memory

namespace UnionHeader

/-- The constructor that takes a header type. It leaves the union as it was in memory. -/
def init (headerType : UInt32) (members : Memory) : UnionHeader where
  brief := true
  headerType := headerType
  getInt := true
  pppProto := 0
  payloadSize := 0
  ipid := 0
  tos := 0
  ttl := 0
  l3Prot := 0
  ipv4Flags := 0
  fragmentOffset := 0
  sip := 0
  dip := 0
  checksum := 0
  headerSize := 5 * 4
  members := members

def l2Header : UInt32 := 1
def l3Header : UInt32 := 2
def l4Header : UInt32 := 4

def dontFragment : BitVec 3 := 1
def moreFragments : BitVec 3 := 2

def tcp (ch : UnionHeader) : TcpMember where
  sport := loadU16 ch.members 0
  dport := loadU16 ch.members 2
  seq := loadU32 ch.members 4
  ack := loadU32 ch.members 8
  length := ch.members 12
  tcpFlags := ch.members 13
  windowSize := loadU16 ch.members 14
  urgentPointer := loadU16 ch.members 16

def udp (ch : UnionHeader) : UdpMember where
  sport := loadU16 ch.members 0
  dport := loadU16 ch.members 2
  payloadSize := loadU16 ch.members 4
  pg := loadU16 ch.members 6
  seq := loadU32 ch.members 8
  ih := IntMemory.members ch.members udpIh

def cnp (ch : UnionHeader) : CnpFields where
  fid := loadU16 ch.members 0
  qIndex := ch.members 2
  qfb := loadU16 ch.members 4
  ecnBits := ch.members 6
  total := loadU16 ch.members 8

def ack (ch : UnionHeader) : AckFields where
  sport := loadU16 ch.members 0
  dport := loadU16 ch.members 2
  flags := loadU16 ch.members 4
  pg := loadU16 ch.members 6
  seq := loadU32 ch.members 8
  cnpTau := loadU32 ch.members 12
  ih := IntMemory.members ch.members ackIh

def pfc (ch : UnionHeader) : PfcFields where
  time := loadU32 ch.members 0
  qlen := loadU32 ch.members 4
  qIndex := ch.members 8

/-! ## Writing -/

def l4Size (c : IntConfig) (ch : UnionHeader) : Nat :=
  if ch.l3Prot = 0x6 then ch.tcp.length.toNat * 4
  else if ch.l3Prot = 0x11 then CustomHeader.getUdpHeaderSize c
  else if ch.l3Prot = 0xFC ∨ ch.l3Prot = 0xFD then CustomHeader.getAckSerializedSize c
  else if ch.l3Prot = 0xFF then 8
  else if ch.l3Prot = 0xFE then 9
  else 0

def getSerializedSize (c : IntConfig) (ch : UnionHeader) : Nat :=
  (if ch.headerType &&& l2Header ≠ 0 then 14 else 0) +
    ((if ch.headerType &&& l3Header ≠ 0 then 5 * 4 else 0) +
      (if ch.headerType &&& l4Header ≠ 0 then l4Size c ch else 0))

def serializeL2 (ch : UnionHeader) : List UInt8 :=
  writeHtonU16 ch.pppProto ++ (writeU64 0 ++ writeU32 0)

/-- The flags and the high bits of the fragment offset, which counts units of 8 bytes. -/
def flagsFrag (ch : UnionHeader) : UInt8 :=
  (((ch.fragmentOffset / 8) >>> 8) &&& 0x1f).toUInt8 |||
    ((if ch.ipv4Flags &&& dontFragment ≠ 0 then 0x40 else 0) |||
      (if ch.ipv4Flags &&& moreFragments ≠ 0 then 0x20 else 0))

def serializeL3 (ch : UnionHeader) : List UInt8 :=
  writeU8 0x45 ++ (writeU8 ch.tos ++ (writeHtonU16 (ch.payloadSize + 5 * 4) ++
    (writeHtonU16 ch.ipid ++ (writeU8 ch.flagsFrag ++
      (writeU8 (ch.fragmentOffset / 8 &&& 0xff).toUInt8 ++ (writeU8 ch.ttl ++
        (writeU8 ch.l3Prot ++ (writeHtonU16 0 ++ (writeHtonU32 ch.sip ++
          writeHtonU32 ch.dip)))))))))

/-- `(tcp.length - 5) * 4`, which wraps around for a length below 5. -/
def optionLen (length : UInt8) : UInt32 := (length.toUInt32 - 5) * 4

def serializeTcp (ch : UnionHeader) : List UInt8 :=
  writeHtonU16 ch.tcp.sport ++ (writeHtonU16 ch.tcp.dport ++ (writeHtonU32 ch.tcp.seq ++
    (writeHtonU32 ch.tcp.ack ++
      (writeHtonU16 (ch.tcp.length.toUInt16 <<< 12 ||| ch.tcp.tcpFlags.toUInt16) ++
        (writeHtonU16 ch.tcp.windowSize ++ (writeHtonU16 0 ++
          (writeHtonU16 ch.tcp.urgentPointer ++
            (if optionLen ch.tcp.length ≤ 32 then
              load ch.members optionBuf (optionLen ch.tcp.length).toNat else []))))))))

def serializeUdp (c : IntConfig) (ch : UnionHeader) : List UInt8 :=
  writeHtonU16 ch.udp.sport ++ (writeHtonU16 ch.udp.dport ++
    (writeHtonU16 ch.udp.payloadSize ++ (writeHtonU16 0 ++ (writeHtonU32 ch.udp.seq ++
      (writeHtonU16 ch.udp.pg ++ ch.udp.ih.serialize c)))))

def serializeCnp (ch : UnionHeader) : List UInt8 :=
  writeU8 ch.cnp.qIndex ++ (writeU16 ch.cnp.fid ++ (writeU8 ch.cnp.ecnBits ++
    (writeU16 ch.cnp.qfb ++ writeU16 ch.cnp.total)))

/-- The source writes the INT header of the other member. -/
def serializeAck (c : IntConfig) (ch : UnionHeader) : List UInt8 :=
  writeU16 ch.ack.sport ++ (writeU16 ch.ack.dport ++ (writeU16 ch.ack.flags ++
    (writeU16 ch.ack.pg ++ (writeU32 ch.ack.seq ++ (writeU32 ch.ack.cnpTau ++
      ch.udp.ih.serialize c)))))

def serializePfc (ch : UnionHeader) : List UInt8 :=
  writeU32 ch.pfc.time ++ (writeU32 ch.pfc.qlen ++ writeU8 ch.pfc.qIndex)

def serializeL4 (c : IntConfig) (ch : UnionHeader) : List UInt8 :=
  if ch.l3Prot = 0x6 then serializeTcp ch
  else if ch.l3Prot = 0x11 then serializeUdp c ch
  else if ch.l3Prot = 0xFF then serializeCnp ch
  else if ch.l3Prot = 0xFC ∨ ch.l3Prot = 0xFD then serializeAck c ch
  else if ch.l3Prot = 0xFE then serializePfc ch
  else []

/-- `CustomHeader::Serialize`. -/
def serialize (c : IntConfig) (ch : UnionHeader) : List UInt8 :=
  (if ch.headerType &&& l2Header ≠ 0 then ch.serializeL2 else []) ++
    ((if ch.headerType &&& l3Header ≠ 0 then ch.serializeL3 else []) ++
      (if ch.headerType &&& l4Header ≠ 0 then ch.serializeL4 c else []))

/-! ## Parsing -/

/-- Assignments to fields, one after the other. -/
def assign (m : Memory) (fields : List (Nat × List UInt8)) : Memory :=
  fields.foldl (fun m field => store m field.1 field.2) m

/-- The PPP layer, with the place behind it and its size. -/
def deserializeL2 (ch : UnionHeader) (start : List UInt8) :
    Option (UnionHeader × List UInt8 × Nat) :=
  if ch.headerType &&& l2Header ≠ 0 then do
    let (pppProto, i) ← readNtohU16 start
    some ({ ch with pppProto }, i.drop 12, 14)
  else some (ch, start, 0)

/-- The IPv4 layer, with the place behind its fields and the size that it announces. It is
`none` at the end for another version, of which nothing is assigned. -/
def deserializeIpv4 (ch : UnionHeader) (i : List UInt8) :
    Option (Option (UnionHeader × List UInt8 × Nat)) := do
  let (verIhl, i) ← readU8 i
  let headerSize := (verIhl &&& 0x0f).toUInt16 * 4
  if verIhl >>> 4 ≠ 4 then some none
  else if ch.brief then
    let (tos, i) ← readU8 i
    let (ipid, i) ← readNtohU16 (i.drop 2)
    let (l3Prot, i) ← readU8 (i.drop 3)
    let (sip, i) ← readNtohU32 (i.drop 2)
    let (dip, i) ← readNtohU32 i
    some (some ({ ch with tos, ipid, l3Prot, sip, dip }, i, headerSize.toNat))
  else
    let (tos, i) ← readU8 i
    let (size, i) ← readNtohU16 i
    let (ipid, i) ← readNtohU16 i
    let (flags, _) ← readU8 i
    let ipv4Flags := (if flags &&& 0x40 ≠ 0 then dontFragment else 0) |||
      (if flags &&& 0x20 ≠ 0 then moreFragments else 0)
    -- the iterator goes back by one: the byte of the flags has the high bits of the offset
    let (high, i) ← readU8 i
    let (low, i) ← readU8 i
    let fragmentOffset := ((high &&& 0x1f).toUInt16 <<< 8 ||| low.toUInt16) <<< 3
    let (ttl, i) ← readU8 i
    let (l3Prot, i) ← readU8 i
    let (checksum, i) ← readU16 i
    let (sip, i) ← readNtohU32 i
    let (dip, i) ← readNtohU32 i
    some (some ({ ch with tos, payloadSize := size - headerSize, ipid, ipv4Flags, fragmentOffset,
                          ttl, l3Prot, checksum, sip, dip, headerSize }, i, headerSize.toNat))

def deserializeL3 (ch : UnionHeader) (start i : List UInt8) (l2Size : Nat) :
    Option (Option (UnionHeader × List UInt8 × Nat)) :=
  if ch.headerType &&& l3Header ≠ 0 then deserializeIpv4 ch (start.drop l2Size)
  else some (some (ch, i, 0))

/-- TCP, `size` bytes behind the start. It returns 20 when the options do not fit. -/
def deserializeTcp (ch : UnionHeader) (i : List UInt8) (size : Nat) :
    Option (UnionHeader × Nat) := do
  let (sport, i) ← readNtohU16 i
  let (dport, i) ← readNtohU16 i
  let (seq, i) ← readNtohU32 i
  let (ack, i) ← readNtohU32 i
  let (field, i) ← readNtohU16 i
  let m := assign ch.members [(0, writeU16 sport), (2, writeU16 dport), (4, writeU32 seq),
    (8, writeU32 ack), (13, writeU8 (field &&& 0x3f).toUInt8)]
  if ch.brief then
    let ch := { ch with members := m }
    some (ch, size + ch.tcp.length.toNat * 4)
  else
    let length := (field >>> 12).toUInt8
    let (windowSize, i) ← readNtohU16 i
    let (urgentPointer, i) ← readNtohU16 (i.drop 2)
    let m := assign m [(12, writeU8 length), (14, writeU16 windowSize),
      (16, writeU16 urgentPointer)]
    if optionLen length > 32 then some ({ ch with members := m }, 20)
    else
      let (option, _) ← readBytes (optionLen length).toNat i
      some ({ ch with members := store m optionBuf option }, size + length.toNat * 4)

/-- `ih.Deserialize`, if it is asked for. -/
def deserializeInt (c : IntConfig) (ch : UnionHeader) (m : Memory) (ih : Nat) (i : List UInt8) :
    Option Memory :=
  if ch.getInt then IntMemory.deserialize c m ih i else some m

/-- `udp.payload_size` and the checksum behind it, which a brief parse skips. -/
def deserializePayloadSize (ch : UnionHeader) (i : List UInt8) : Option (Memory × List UInt8) :=
  if ch.brief then some (ch.members, i.drop 4)
  else do
    let (payloadSize, i) ← readNtohU16 i
    some (store ch.members 4 (writeU16 payloadSize), i.drop 2)

def deserializeUdp (c : IntConfig) (ch : UnionHeader) (i : List UInt8) (size : Nat) :
    Option (UnionHeader × Nat) := do
  let (sport, i) ← readNtohU16 i
  let (dport, i) ← readNtohU16 i
  let (m, i) ← deserializePayloadSize ch i
  let (seq, i) ← readNtohU32 i
  let (pg, i) ← readNtohU16 i
  let m := assign m [(0, writeU16 sport), (2, writeU16 dport), (8, writeU32 seq), (6, writeU16 pg)]
  let m ← deserializeInt c ch m udpIh i
  some ({ ch with members := m }, size + CustomHeader.getUdpHeaderSize c)

def deserializeCnp (ch : UnionHeader) (i : List UInt8) (size : Nat) :
    Option (UnionHeader × Nat) := do
  let (qIndex, i) ← readU8 i
  let (fid, i) ← readU16 i
  let (ecnBits, i) ← readU8 i
  let (qfb, i) ← readU16 i
  let (total, _) ← readU16 i
  let m := assign ch.members [(2, writeU8 qIndex), (0, writeU16 fid), (6, writeU8 ecnBits),
    (4, writeU16 qfb), (8, writeU16 total)]
  some ({ ch with members := m }, size + 8)

def deserializeAck (c : IntConfig) (ch : UnionHeader) (i : List UInt8) (size : Nat) :
    Option (UnionHeader × Nat) := do
  let (sport, i) ← readU16 i
  let (dport, i) ← readU16 i
  let (flags, i) ← readU16 i
  let (pg, i) ← readU16 i
  let (seq, i) ← readU32 i
  let (cnpTau, i) ← readU32 i
  let m := assign ch.members [(0, writeU16 sport), (2, writeU16 dport), (4, writeU16 flags),
    (6, writeU16 pg), (8, writeU32 seq), (12, writeU32 cnpTau)]
  let m ← deserializeInt c ch m ackIh i
  some ({ ch with members := m }, size + CustomHeader.getAckSerializedSize c)

def deserializePfc (ch : UnionHeader) (i : List UInt8) (size : Nat) :
    Option (UnionHeader × Nat) := do
  let (time, i) ← readU32 i
  let (qlen, i) ← readU32 i
  let (qIndex, _) ← readU8 i
  let m := assign ch.members [(0, writeU32 time), (4, writeU32 qlen), (8, writeU8 qIndex)]
  some ({ ch with members := m }, size + 9)

/-- The layer that `l3Prot` announces. `i` is the place behind the IPv4 fields, `size` the
size of the layers before; TCP and UDP start there, the others at `i`. -/
def deserializeL4 (c : IntConfig) (ch : UnionHeader) (start i : List UInt8) (size : Nat) :
    Option (UnionHeader × Nat) :=
  if ch.l3Prot = 0x6 then deserializeTcp ch (start.drop size) size
  else if ch.l3Prot = 0x11 then deserializeUdp c ch (start.drop size) size
  else if ch.l3Prot = 0xFF then deserializeCnp ch i size
  else if ch.l3Prot = 0xFC ∨ ch.l3Prot = 0xFD then deserializeAck c ch i size
  else if ch.l3Prot = 0xFE then deserializePfc ch i size
  else some (ch, size)

/-- `CustomHeader::Deserialize` into `ch`, with the number of bytes it returns: zero when the
packet is not IPv4. -/
def deserialize (c : IntConfig) (ch : UnionHeader) (start : List UInt8) :
    Option (UnionHeader × Nat) := do
  let (ch, i, l2Size) ← deserializeL2 ch start
  match ← deserializeL3 ch start i l2Size with
  | none => some (ch, 0)
  | some (ch, i, l3Size) =>
    if ch.headerType &&& l4Header ≠ 0 then deserializeL4 c ch start i (l2Size + l3Size)
    else some (ch, l2Size + l3Size)

/-! ## The first two layers -/

/-- All three layers with all their fields, and INT. -/
structure IsFull (ch : UnionHeader) : Prop where
  brief : ch.brief = false
  headerType : ch.headerType = l2Header ||| l3Header ||| l4Header
  getInt : ch.getInt = true

theorem IsFull.layers {ch : UnionHeader} (h : ch.IsFull) : ch.headerType &&& l2Header ≠ 0 ∧
    ch.headerType &&& l3Header ≠ 0 ∧ ch.headerType &&& l4Header ≠ 0 := by
  rw [h.headerType]
  decide

theorem or_and (x y z : UInt8) : (x ||| y) &&& z = x &&& z ||| y &&& z :=
  UInt8.toBitVec_inj.mp BitVec.and_or_distrib_right

/-- The high bits of the offset stand in the low bits of the byte. -/
theorem flagsFrag_offset (ch : UnionHeader) :
    ch.flagsFrag &&& (0x1f : UInt8) = ((ch.fragmentOffset / 8) >>> 8).toUInt8 &&& 0x1f := by
  have hflags : ((if ch.ipv4Flags &&& dontFragment ≠ 0 then (0x40 : UInt8) else 0) |||
      (if ch.ipv4Flags &&& moreFragments ≠ 0 then 0x20 else 0)) &&& 0x1f = 0 := by
    split_ifs <;> decide
  rw [flagsFrag, or_and, hflags, UInt8.or_zero, UInt16.toUInt8_and, UInt8.and_assoc]
  rfl

/-- The flags stand above them. -/
theorem flagsFrag_flag (ch : UnionHeader) {bit : UInt8} (h : 0x1f &&& bit = 0) :
    ch.flagsFrag &&& bit = ((if ch.ipv4Flags &&& dontFragment ≠ 0 then (0x40 : UInt8) else 0) |||
      (if ch.ipv4Flags &&& moreFragments ≠ 0 then 0x20 else 0)) &&& bit := by
  have hlow : (((ch.fragmentOffset / 8) >>> 8) &&& 0x1f).toUInt8 &&& bit = 0 := by
    rw [UInt16.toUInt8_and, UInt8.and_assoc]
    exact (congrArg _ h).trans UInt8.and_zero
  rw [flagsFrag, or_and, hlow, UInt8.zero_or]

/-- Of the three flags two are written. -/
theorem flagsFrag_flags (ch : UnionHeader) :
    (if ch.flagsFrag &&& 0x40 ≠ 0 then dontFragment else 0) |||
      (if ch.flagsFrag &&& 0x20 ≠ 0 then moreFragments else 0) =
        ch.ipv4Flags &&& (dontFragment ||| moreFragments) := by
  rw [flagsFrag_flag ch (show (0x1f : UInt8) &&& 0x40 = 0 from rfl),
    flagsFrag_flag ch (show (0x1f : UInt8) &&& 0x20 = 0 from rfl)]
  -- three bits: eight cases
  generalize ch.ipv4Flags = flags
  revert flags
  decide

/-- An offset in units of eight bytes is read as it was written. -/
theorem fragment_bytes (ch : UnionHeader) (h : ch.fragmentOffset % 8 = 0) :
    ((ch.flagsFrag &&& 0x1f).toUInt16 <<< 8 |||
      (ch.fragmentOffset / 8 &&& 0xff).toUInt8.toUInt16) <<< 3 = ch.fragmentOffset := by
  have hx : ch.fragmentOffset.toNat < 2 ^ 16 := ch.fragmentOffset.toNat_lt
  have hunits : (ch.fragmentOffset / 8).toNat = ch.fragmentOffset.toNat / 8 := rfl
  have hhigh : ((ch.fragmentOffset / 8) >>> 8).toUInt8 &&& (0x1f : UInt8) =
      ((ch.fragmentOffset / 8) >>> 8).toUInt8 := by
    refine UInt8.toNat_inj.mp ?_
    have hmask := Nat.and_two_pow_sub_one_eq_mod ((ch.fragmentOffset / 8) >>> 8).toUInt8.toNat 5
    rw [UInt8.toNat_and]
    refine hmask.trans (Nat.mod_eq_of_lt ?_)
    rw [UInt16.toNat_toUInt8, UInt16.toNat_shiftRight, hunits, Nat.shiftRight_eq_div_pow]
    have : ch.fragmentOffset.toNat / 8 / 2 ^ 8 < 2 ^ 5 := by omega
    exact Nat.lt_of_le_of_lt (Nat.mod_le _ _) this
  have hlow : (ch.fragmentOffset / 8 &&& 0xff).toUInt8 = (ch.fragmentOffset / 8).toUInt8 := by
    rw [UInt16.toUInt8_and]
    exact UInt8.and_neg_one
  rw [flagsFrag_offset, hhigh, hlow, power_bytes]
  refine UInt16.toNat_inj.mp ?_
  have hmul : ch.fragmentOffset.toNat % 8 = 0 := congrArg UInt16.toNat h
  rw [UInt16.toNat_shiftLeft, hunits]
  show (ch.fragmentOffset.toNat / 8) <<< 3 % 2 ^ 16 = ch.fragmentOffset.toNat
  rw [Nat.shiftLeft_eq]
  omega

/-- A parser takes one field and goes on with the rest. -/
theorem read_then {α β : Type} {o : Option α} {a : α} {f : α → Option β} {r : Option β}
    (h : o = some a) (hf : f a = r) : o >>= f = r := by
  rw [h]
  exact hf

section Layers

variable {c : IntConfig} {ch old : UnionHeader} {rest i : List UInt8}

/-- The fields of the first two layers are those of `ch`, as far as they are written. -/
def withIpv4 (old ch : UnionHeader) : UnionHeader :=
  { old with pppProto := ch.pppProto, tos := ch.tos, payloadSize := ch.payloadSize,
             ipid := ch.ipid, ipv4Flags := ch.ipv4Flags &&& (dontFragment ||| moreFragments),
             fragmentOffset := ch.fragmentOffset, ttl := ch.ttl, l3Prot := ch.l3Prot,
             checksum := 0, sip := ch.sip, dip := ch.dip, headerSize := 20 }

theorem serialize_full (hch : ch.IsFull) :
    ch.serialize c = ch.serializeL2 ++ (ch.serializeL3 ++ ch.serializeL4 c) := by
  obtain ⟨h2, h3, h4⟩ := hch.layers
  rw [serialize, if_pos h2, if_pos h3, if_pos h4]

theorem deserializeIpv4_serializeL3 (hbrief : old.brief = false)
    (hfragment : ch.fragmentOffset % 8 = 0) :
    deserializeIpv4 old (ch.serializeL3 ++ i) =
      some (some ({ old.withIpv4 ch with pppProto := old.pppProto }, i, 20)) := by
  have hversion : ¬((0x45 : UInt8) >>> 4 ≠ 4) := by decide
  have hbrief' : ¬old.brief = true := by rw [hbrief]; exact Bool.false_ne_true
  unfold serializeL3
  simp only [List.append_assoc]
  refine read_then (readU8_write ..) ?_
  refine (if_neg hversion).trans ?_
  refine (if_neg hbrief').trans ?_
  refine read_then (readU8_write ..) ?_
  refine read_then (readNtohU16_write ..) ?_
  refine read_then (readNtohU16_write ..) ?_
  -- the byte of the flags is read twice
  refine read_then (readU8_write ..) ?_
  refine read_then (readU8_write ..) ?_
  refine read_then (readU8_write ..) ?_
  refine read_then (readU8_write ..) ?_
  refine read_then (readU8_write ..) ?_
  -- the checksum is zero, in either order of its bytes
  refine read_then (readU16_write _ 0) ?_
  refine read_then (readNtohU32_write ..) ?_
  refine read_then (readNtohU32_write ..) ?_
  have hsize : ch.payloadSize + 5 * 4 - ((0x45 : UInt8) &&& 0x0f).toUInt16 * 4 = ch.payloadSize :=
    UInt16.add_sub_cancel _ _
  dsimp only
  rw [flagsFrag_flags, fragment_bytes ch hfragment, hsize]
  rfl

variable (c rest) in
/-- Behind the first two layers the parser is left with the bytes of the third. -/
theorem deserialize_ipv4 (hch : ch.IsFull) (hold : old.IsFull)
    (hfragment : ch.fragmentOffset % 8 = 0) :
    ∃ start, start.drop 34 = ch.serializeL4 c ++ rest ∧
      deserialize c old (ch.serialize c ++ rest) =
        deserializeL4 c (old.withIpv4 ch) start (ch.serializeL4 c ++ rest) 34 := by
  obtain ⟨h2, h3, h4⟩ := hold.layers
  refine ⟨ch.serialize c ++ rest, ?_, ?_⟩
  · rw [serialize_full hch, ← List.append_assoc ch.serializeL2, List.append_assoc]
    exact List.drop_left' rfl
  · have hppp : readNtohU16 (ch.serialize c ++ rest) = some (ch.pppProto,
        writeU64 0 ++ (writeU32 0 ++ (ch.serializeL3 ++ (ch.serializeL4 c ++ rest)))) := by
      rw [serialize_full hch]
      simp only [serializeL2, List.append_assoc, readNtohU16_write]
    have hdrop : (ch.serialize c ++ rest).drop 14 =
        ch.serializeL3 ++ (ch.serializeL4 c ++ rest) := by
      rw [serialize_full hch, List.append_assoc, List.append_assoc]
      exact List.drop_left' rfl
    have hl2 : deserializeL2 old (ch.serialize c ++ rest) =
        some ({ old with pppProto := ch.pppProto }, _, 14) :=
      (if_pos h2).trans (read_then hppp rfl)
    have hl3 (i : List UInt8) : deserializeL3 { old with pppProto := ch.pppProto }
        (ch.serialize c ++ rest) i 14 =
          some (some (old.withIpv4 ch, ch.serializeL4 c ++ rest, 20)) := by
      refine (if_pos h3).trans ?_
      rw [hdrop]
      exact deserializeIpv4_serializeL3 hold.brief hfragment
    refine read_then hl2 ?_
    refine read_then (hl3 _) ?_
    exact if_pos h4

end Layers

/-! ## The third layer -/

section Members

variable {c : IntConfig} {ch u : UnionHeader} (i : List UInt8) (size : Nat)

variable (ch u) in
theorem deserializePfc_serializePfc : ∃ m,
    deserializePfc u (serializePfc ch ++ i) size = some ({ u with members := m }, size + 9) ∧
      pfc { u with members := m } = ch.pfc := by
  refine ⟨assign u.members [(0, writeU32 ch.pfc.time), (4, writeU32 ch.pfc.qlen),
    (8, writeU8 ch.pfc.qIndex)], ?_, ?_⟩
  · unfold serializePfc
    simp only [List.append_assoc]
    refine read_then (readU32_write ..) ?_
    refine read_then (readU32_write ..) ?_
    exact read_then (readU8_write ..) rfl
  · show PfcFields.mk _ _ _ = _
    simp [assign, loadU32_store_of_disjoint]

variable (ch u) in
theorem deserializeCnp_serializeCnp : ∃ m,
    deserializeCnp u (serializeCnp ch ++ i) size = some ({ u with members := m }, size + 8) ∧
      cnp { u with members := m } = ch.cnp := by
  refine ⟨assign u.members [(2, writeU8 ch.cnp.qIndex), (0, writeU16 ch.cnp.fid),
    (6, writeU8 ch.cnp.ecnBits), (4, writeU16 ch.cnp.qfb), (8, writeU16 ch.cnp.total)], ?_, ?_⟩
  · unfold serializeCnp
    simp only [List.append_assoc]
    refine read_then (readU8_write ..) ?_
    refine read_then (readU16_write ..) ?_
    refine read_then (readU8_write ..) ?_
    refine read_then (readU16_write ..) ?_
    exact read_then (readU16_write ..) rfl
  · show CnpFields.mk _ _ _ _ _ = _
    simp [assign, loadU16_store_of_disjoint, store_of_disjoint]

/-- The INT header of either member is read into the other's place, which is the same. -/
theorem deserializeInt_serialize (hint : u.getInt = true) (m : Memory) :
    deserializeInt c u m ackIh (ch.udp.ih.serialize c ++ i) =
      some (store m udpIh (load ch.members udpIh (IntMemory.codecSize c))) :=
  (if_pos hint).trans (IntMemory.deserialize_serialize m ackIh i)

variable (c ch) in
theorem deserializeAck_serializeAck (hint : u.getInt = true) : ∃ m,
    deserializeAck c u (serializeAck c ch ++ i) size =
        some ({ u with members := m }, size + CustomHeader.getAckSerializedSize c) ∧
      { ack { u with members := m } with ih := ch.ack.ih } = ch.ack ∧
      load m ackIh (IntMemory.codecSize c) = load ch.members ackIh (IntMemory.codecSize c) := by
  refine ⟨store (assign u.members [(0, writeU16 ch.ack.sport), (2, writeU16 ch.ack.dport),
    (4, writeU16 ch.ack.flags), (6, writeU16 ch.ack.pg), (8, writeU32 ch.ack.seq),
    (12, writeU32 ch.ack.cnpTau)]) udpIh (load ch.members udpIh (IntMemory.codecSize c)),
    ?_, ?_, load_store length_load⟩
  · unfold serializeAck
    simp only [List.append_assoc]
    refine read_then (readU16_write ..) ?_
    refine read_then (readU16_write ..) ?_
    refine read_then (readU16_write ..) ?_
    refine read_then (readU16_write ..) ?_
    refine read_then (readU32_write ..) ?_
    refine read_then (readU32_write ..) ?_
    exact read_then (deserializeInt_serialize i hint _) rfl
  · show AckFields.mk (loadU16 _ 0) (loadU16 _ 2) (loadU16 _ 4) (loadU16 _ 6) (loadU32 _ 8)
      (loadU32 _ 12) _ = _
    simp [assign, loadU16_store_of_disjoint, loadU32_store_of_disjoint, udpIh, align8]

variable (c ch) in
theorem deserializeUdp_serializeUdp (hbrief : u.brief = false) (hint : u.getInt = true) : ∃ m,
    deserializeUdp c u (serializeUdp c ch ++ i) size =
        some ({ u with members := m }, size + CustomHeader.getUdpHeaderSize c) ∧
      { udp { u with members := m } with ih := ch.udp.ih } = ch.udp ∧
      load m udpIh (IntMemory.codecSize c) = load ch.members udpIh (IntMemory.codecSize c) := by
  have hbrief' : ¬u.brief = true := by rw [hbrief]; exact Bool.false_ne_true
  refine ⟨store (assign u.members [(4, writeU16 ch.udp.payloadSize), (0, writeU16 ch.udp.sport),
    (2, writeU16 ch.udp.dport), (8, writeU32 ch.udp.seq), (6, writeU16 ch.udp.pg)]) udpIh
    (load ch.members udpIh (IntMemory.codecSize c)), ?_, ?_, load_store length_load⟩
  · unfold serializeUdp
    simp only [List.append_assoc]
    refine read_then (readNtohU16_write ..) ?_
    refine read_then (readNtohU16_write ..) ?_
    refine read_then ((if_neg hbrief').trans (read_then (readNtohU16_write ..) rfl)) ?_
    refine read_then (readNtohU32_write ..) ?_
    refine read_then (readNtohU16_write ..) ?_
    exact read_then (deserializeInt_serialize i hint _) rfl
  · show UdpMember.mk (UdpFields.mk (loadU16 _ 0) (loadU16 _ 2) (loadU16 _ 6) (loadU32 _ 8) _)
      (loadU16 _ 4) = _
    simp [assign, loadU16_store_of_disjoint, loadU32_store_of_disjoint, udpIh, align8]

/-- The length stands in four bits, above a byte of flags. -/
theorem toNat_lengthFlags {length : UInt8} (flags : UInt8) (h : length ≤ 13) :
    (length.toUInt16 <<< 12 ||| flags.toUInt16).toNat = length.toNat * 2 ^ 12 + flags.toNat := by
  have hlength : length.toNat ≤ 13 := h
  have hflags : flags.toNat < 2 ^ 8 := flags.toNat_lt
  have hshift : length.toNat <<< 12 % 2 ^ 16 = length.toNat <<< 12 := by
    rw [Nat.shiftLeft_eq]
    exact Nat.mod_eq_of_lt (by omega)
  rw [UInt16.toNat_or, UInt16.toNat_shiftLeft, UInt8.toNat_toUInt16, UInt8.toNat_toUInt16]
  show length.toNat <<< 12 % 2 ^ 16 ||| flags.toNat = _
  rw [hshift, ← Nat.shiftLeft_add_eq_or_of_lt (by omega), Nat.shiftLeft_eq]

theorem lengthFlags_length {length : UInt8} (flags : UInt8) (h : length ≤ 13) :
    ((length.toUInt16 <<< 12 ||| flags.toUInt16) >>> 12).toUInt8 = length := by
  have hlength : length.toNat ≤ 13 := h
  have hflags : flags.toNat < 2 ^ 8 := flags.toNat_lt
  refine UInt8.toNat_inj.mp ?_
  rw [UInt16.toNat_toUInt8, UInt16.toNat_shiftRight, toNat_lengthFlags flags h]
  show (length.toNat * 2 ^ 12 + flags.toNat) >>> 12 % 2 ^ 8 = length.toNat
  rw [Nat.shiftRight_eq_div_pow]
  omega

theorem lengthFlags_flags {length : UInt8} (flags : UInt8) (h : length ≤ 13) :
    ((length.toUInt16 <<< 12 ||| flags.toUInt16) &&& 0x3f).toUInt8 = flags &&& 0x3f := by
  refine UInt8.toNat_inj.mp ?_
  rw [UInt16.toNat_toUInt8, UInt16.toNat_and, toNat_lengthFlags flags h, UInt8.toNat_and]
  show (length.toNat * 2 ^ 12 + flags.toNat &&& 2 ^ 6 - 1) % 2 ^ 8 = flags.toNat &&& 2 ^ 6 - 1
  rw [Nat.and_two_pow_sub_one_eq_mod, Nat.and_two_pow_sub_one_eq_mod]
  omega

theorem toNat_optionLen {length : UInt8} (hmin : 5 ≤ length) (hmax : length ≤ 13) :
    (optionLen length).toNat = (length.toNat - 5) * 4 := by
  have hmin' : 5 ≤ length.toNat := hmin
  have hmax' : length.toNat ≤ 13 := hmax
  have hsub : (length.toUInt32 - 5).toNat = length.toNat - 5 :=
    UInt32.toNat_sub_of_le _ _ (UInt32.le_iff_toNat_le.mpr hmin')
  rw [optionLen, UInt32.toNat_mul, hsub]
  show (length.toNat - 5) * 4 % 2 ^ 32 = _
  omega

theorem deserializeTcp_serializeTcp (hbrief : u.brief = false) (hmin : 5 ≤ ch.tcp.length)
    (hmax : ch.tcp.length ≤ 13) : ∃ m,
    deserializeTcp u (serializeTcp ch ++ i) size =
        some ({ u with members := m }, size + ch.tcp.length.toNat * 4) ∧
      tcp { u with members := m } = { ch.tcp with tcpFlags := ch.tcp.tcpFlags &&& 0x3f } ∧
      load m optionBuf (optionLen ch.tcp.length).toNat =
        load ch.members optionBuf (optionLen ch.tcp.length).toNat := by
  have hbrief' : ¬u.brief = true := by rw [hbrief]; exact Bool.false_ne_true
  -- at most 32 bytes of options, which both sides copy
  have hoption : optionLen ch.tcp.length ≤ 32 := by
    have hmax' : ch.tcp.length.toNat ≤ 13 := hmax
    rw [UInt32.le_iff_toNat_le, toNat_optionLen hmin hmax]
    show (ch.tcp.length.toNat - 5) * 4 ≤ 32
    omega
  refine ⟨store (assign (assign u.members [(0, writeU16 ch.tcp.sport), (2, writeU16 ch.tcp.dport),
    (4, writeU32 ch.tcp.seq), (8, writeU32 ch.tcp.ack), (13, writeU8 (ch.tcp.tcpFlags &&& 0x3f))])
    [(12, writeU8 ch.tcp.length), (14, writeU16 ch.tcp.windowSize),
      (16, writeU16 ch.tcp.urgentPointer)]) optionBuf
    (load ch.members optionBuf (optionLen ch.tcp.length).toNat), ?_, ?_, load_store length_load⟩
  · unfold serializeTcp
    rw [if_pos hoption]
    simp only [List.append_assoc]
    refine read_then (readNtohU16_write ..) ?_
    refine read_then (readNtohU16_write ..) ?_
    refine read_then (readNtohU32_write ..) ?_
    refine read_then (readNtohU32_write ..) ?_
    refine read_then (readNtohU16_write ..) ?_
    dsimp only
    rw [lengthFlags_length _ hmax, lengthFlags_flags _ hmax]
    refine (if_neg hbrief').trans ?_
    refine read_then (readNtohU16_write ..) ?_
    refine read_then (readNtohU16_write ..) ?_
    refine (if_neg (UInt32.not_lt.mpr hoption)).trans ?_
    exact read_then (readBytes_append length_load) rfl
  · show TcpMember.mk (TcpFields.mk (loadU16 _ 0) (loadU16 _ 2) (loadU32 _ 4) (loadU32 _ 8) _ _)
      (loadU16 _ 14) (loadU16 _ 16) = _
    simp [assign, loadU16_store_of_disjoint, loadU32_store_of_disjoint, store_of_disjoint,
      optionBuf]

end Members

/-! ## Whole headers -/

/-- The headers that the parser is meant for: the six protocols, a fragment offset in units
of eight bytes, and a TCP header with no more than 32 bytes of options. -/
structure Encodable (ch : UnionHeader) : Prop extends ch.IsFull where
  protocol : ch.l3Prot ∈ [0x6, 0x11, 0xFF, 0xFC, 0xFD, 0xFE]
  fragment : ch.fragmentOffset % 8 = 0
  length : ch.l3Prot = 0x6 → 5 ≤ ch.tcp.length ∧ ch.tcp.length ≤ 13

/-- `ch'` has the fields of the member that the protocol of `ch` selects. Of the TCP flags
six bits are written. -/
def SameMember (c : IntConfig) (ch ch' : UnionHeader) : Prop :=
  if ch.l3Prot = 0x6 then
    ch'.tcp = { ch.tcp with tcpFlags := ch.tcp.tcpFlags &&& 0x3f } ∧
      load ch'.members optionBuf (optionLen ch.tcp.length).toNat =
        load ch.members optionBuf (optionLen ch.tcp.length).toNat
  else if ch.l3Prot = 0x11 then
    { ch'.udp with ih := ch.udp.ih } = ch.udp ∧ (c.Valid → IntHeader.SameInt c ch'.udp.ih ch.udp.ih)
  else if ch.l3Prot = 0xFF then ch'.cnp = ch.cnp
  else if ch.l3Prot = 0xFC ∨ ch.l3Prot = 0xFD then
    { ch'.ack with ih := ch.ack.ih } = ch.ack ∧ (c.Valid → IntHeader.SameInt c ch'.ack.ih ch.ack.ih)
  else ch'.pfc = ch.pfc

/-- `ch'` has the fields of `ch`, as far as they are written. -/
structure SameFields (c : IntConfig) (ch ch' : UnionHeader) : Prop where
  pppProto : ch'.pppProto = ch.pppProto
  payloadSize : ch'.payloadSize = ch.payloadSize
  ipid : ch'.ipid = ch.ipid
  tos : ch'.tos = ch.tos
  ttl : ch'.ttl = ch.ttl
  l3Prot : ch'.l3Prot = ch.l3Prot
  ipv4Flags : ch'.ipv4Flags = ch.ipv4Flags &&& (dontFragment ||| moreFragments)
  fragmentOffset : ch'.fragmentOffset = ch.fragmentOffset
  sip : ch'.sip = ch.sip
  dip : ch'.dip = ch.dip
  member : SameMember c ch ch'

section Whole

variable (c : IntConfig) {ch old u : UnionHeader}

/-- The third layer is read as it was written, into a header with the same protocol. -/
theorem deserializeL4_serializeL4 (hch : ch.Encodable) (hu : u.IsFull)
    (hprot : u.l3Prot = ch.l3Prot) {start rest : List UInt8} {size : Nat}
    (hstart : start.drop size = ch.serializeL4 c ++ rest) :
    ∃ m, deserializeL4 c u start (ch.serializeL4 c ++ rest) size =
        some ({ u with members := m }, size + l4Size c ch) ∧
      SameMember c ch { u with members := m } := by
  have hprotocol := hch.protocol
  simp only [List.mem_cons, List.not_mem_nil, or_false] at hprotocol
  -- the protocol that was read selects the same branch as in `serializeL4`
  have hparse : deserializeL4 c u start (ch.serializeL4 c ++ rest) size =
      if ch.l3Prot = 0x6 then deserializeTcp u (ch.serializeL4 c ++ rest) size
      else if ch.l3Prot = 0x11 then deserializeUdp c u (ch.serializeL4 c ++ rest) size
      else if ch.l3Prot = 0xFF then deserializeCnp u (ch.serializeL4 c ++ rest) size
      else if ch.l3Prot = 0xFC ∨ ch.l3Prot = 0xFD then
        deserializeAck c u (ch.serializeL4 c ++ rest) size
      else if ch.l3Prot = 0xFE then deserializePfc u (ch.serializeL4 c ++ rest) size
      else some (u, size) := by
    rw [deserializeL4, hstart, hprot]
  rw [hparse]
  unfold serializeL4 l4Size SameMember
  have hacks := deserializeAck_serializeAck c ch rest size hu.getInt
  rcases hprotocol with h | h | h | h | h | h
  · -- TCP
    obtain ⟨hmin, hmax⟩ := hch.length h
    rw [h]
    exact deserializeTcp_serializeTcp rest size hu.brief hmin hmax
  · -- UDP
    obtain ⟨m, hread, hudp, hint⟩ :=
      deserializeUdp_serializeUdp c ch rest size hu.brief hu.getInt
    rw [h]
    exact ⟨m, hread, hudp, fun hc => IntMemory.sameInt_of_load hc hint⟩
  · -- CNP
    rw [h]
    exact deserializeCnp_serializeCnp ch u rest size
  · -- ACK
    obtain ⟨m, hread, hack, hint⟩ := hacks
    rw [h]
    exact ⟨m, hread, hack, fun hc => IntMemory.sameInt_of_load hc hint⟩
  · -- NACK, which is parsed the same way
    obtain ⟨m, hread, hack, hint⟩ := hacks
    rw [h]
    exact ⟨m, hread, hack, fun hc => IntMemory.sameInt_of_load hc hint⟩
  · -- PFC
    rw [h]
    exact deserializePfc_serializePfc ch u rest size

/-- A full header is read as it was written, whatever follows it, and the parser returns its
serialized size. -/
theorem full_roundTrip (hch : ch.Encodable) (hold : old.IsFull) (rest : List UInt8) :
    ∃ ch', deserialize c old (ch.serialize c ++ rest) = some (ch', ch.getSerializedSize c) ∧
      SameFields c ch ch' := by
  obtain ⟨h2, h3, h4⟩ := hch.layers
  obtain ⟨start, hstart, hread⟩ := deserialize_ipv4 c rest hch.toIsFull hold hch.fragment
  have hfull : (old.withIpv4 ch).IsFull := ⟨hold.brief, hold.headerType, hold.getInt⟩
  obtain ⟨m, hl4, hmember⟩ := deserializeL4_serializeL4 c hch hfull rfl hstart
  have hsize : ch.getSerializedSize c = 34 + l4Size c ch := by
    rw [getSerializedSize, if_pos h2, if_pos h3, if_pos h4, ← Nat.add_assoc]
  refine ⟨{ old.withIpv4 ch with members := m }, ?_,
    rfl, rfl, rfl, rfl, rfl, rfl, rfl, rfl, rfl, rfl, hmember⟩
  rw [hread, hl4, hsize]

end Whole

/-- A full header for a protocol, otherwise as the constructor leaves it. -/
def initFull (l3Prot : UInt8) (members : Memory) : UnionHeader :=
  { init (l2Header ||| l3Header ||| l4Header) members with brief := false, l3Prot }

theorem full_roundTrip_ack : ∃ ch',
    deserialize ⟨.normal, 0⟩ (initFull 0 fun _ => 0)
      ((initFull 0xFC UInt8.ofNat).serialize ⟨.normal, 0⟩ ++ [1, 2]) = some (ch', 92) ∧
    SameFields ⟨.normal, 0⟩ (initFull 0xFC UInt8.ofNat) ch' :=
  full_roundTrip ⟨.normal, 0⟩
    { brief := rfl, headerType := rfl, getInt := rfl, protocol := by decide, fragment := rfl,
      length := fun h => absurd h (by decide) }
    ⟨rfl, rfl, rfl⟩ [1, 2]

/-- A TCP header of 20 bytes. Its flags need seven bits. -/
def wideFlags : UnionHeader :=
  initFull 0x6 (assign (fun _ => 0) [(12, writeU8 5), (13, writeU8 0x40)])

/-- The seventh bit of the flags is lost. -/
theorem wideFlags_lost : wideFlags.Encodable ∧ wideFlags.tcp.tcpFlags = 0x40 ∧
    (deserialize ⟨.none, 0⟩ wideFlags (wideFlags.serialize ⟨.none, 0⟩)).map
      (fun read => read.1.tcp.tcpFlags) = some 0 := by
  refine ⟨?_, rfl, by decide⟩
  exact { brief := rfl, headerType := rfl, getInt := rfl, protocol := by decide, fragment := rfl,
          length := fun _ => by decide }

end UnionHeader

end Paraleon.Wire
