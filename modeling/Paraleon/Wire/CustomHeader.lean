import Paraleon.Wire.Headers

/-!
# The parser of packets

`CustomHeader` parses a whole packet at once, independently of the headers that wrote
it. The program only uses it for all three layers, brief and with INT.

`wire_agreement` says that it recovers what was written in each of the four kinds of
packets, and that the sizes agree.
-/

namespace Paraleon.Wire

open IntHeader

/-! ## The parser -/

structure TcpFields where
  sport : UInt16
  dport : UInt16
  seq : UInt32
  ack : UInt32
  /-- A brief parse leaves it as it was. -/
  length : UInt8
  tcpFlags : UInt8

structure UdpFields where
  sport : UInt16
  dport : UInt16
  pg : UInt16
  seq : UInt32
  ih : IntHeader

structure CnpFields where
  fid : UInt16
  qIndex : UInt8
  qfb : UInt16
  ecnBits : UInt8
  total : UInt16

structure AckFields where
  sport : UInt16
  dport : UInt16
  flags : UInt16
  pg : UInt16
  seq : UInt32
  cnpTau : UInt32
  ih : IntHeader

structure PfcFields where
  time : UInt32
  qlen : UInt32
  qIndex : UInt8

/-- The fields of a brief parse. The last five are a union, of which the protocol
selects the member in use. -/
structure CustomHeader where
  pppProto : UInt16
  ipid : UInt16
  tos : UInt8
  l3Prot : UInt8
  sip : UInt32
  dip : UInt32
  tcp : TcpFields
  udp : UdpFields
  cnp : CnpFields
  ack : AckFields
  pfc : PfcFields

namespace CustomHeader

def getIpv4EcnBits (ch : CustomHeader) : UInt8 := ch.tos &&& 0x3

def getAckSerializedSize (c : IntConfig) : Nat := 2 + 2 + 2 + 2 + 4 + 4 + getStaticSize c

def getUdpHeaderSize (c : IntConfig) : Nat := 8 + 2 + 4 + getStaticSize c

def l4Size (c : IntConfig) (ch : CustomHeader) : Nat :=
  if ch.l3Prot = 0x6 then ch.tcp.length.toNat * 4
  else if ch.l3Prot = 0x11 then getUdpHeaderSize c
  else if ch.l3Prot = 0xFC ∨ ch.l3Prot = 0xFD then getAckSerializedSize c
  else if ch.l3Prot = 0xFF then 8
  else if ch.l3Prot = 0xFE then 9
  else 0

def getSerializedSize (c : IntConfig) (ch : CustomHeader) : Nat := 14 + 5 * 4 + l4Size c ch

/-- The layer that `l3Prot` announces. `start` is where the headers begin, `i` is the
place behind the IPv4 fields. -/
def deserializeL4 (c : IntConfig) (ch : CustomHeader) (start i : List UInt8) (l3Size : Nat) :
    Option CustomHeader :=
  if ch.l3Prot = 0x6 then do
    let (sport, i) ← readNtohU16 (start.drop (14 + l3Size))
    let (dport, i) ← readNtohU16 i
    let (seq, i) ← readNtohU32 i
    let (ack, i) ← readNtohU32 i
    let (field, _) ← readNtohU16 i
    some { ch with tcp := { sport, dport, seq, ack, length := ch.tcp.length,
                            tcpFlags := (field &&& 0x3f).toUInt8 } }
  else if ch.l3Prot = 0x11 then do
    let (sport, i) ← readNtohU16 (start.drop (14 + l3Size))
    let (dport, i) ← readNtohU16 i
    let (seq, i) ← readNtohU32 (i.drop 4)
    let (pg, i) ← readNtohU16 i
    let ih ← deserialize c ch.udp.ih i
    some { ch with udp := { sport, dport, pg, seq, ih } }
  else if ch.l3Prot = 0xFF then do
    let (qIndex, i) ← readU8 i
    let (fid, i) ← readU16 i
    let (ecnBits, i) ← readU8 i
    let (qfb, i) ← readU16 i
    let (total, _) ← readU16 i
    some { ch with cnp := { fid, qIndex, qfb, ecnBits, total } }
  else if ch.l3Prot = 0xFC ∨ ch.l3Prot = 0xFD then do
    let (sport, i) ← readU16 i
    let (dport, i) ← readU16 i
    let (flags, i) ← readU16 i
    let (pg, i) ← readU16 i
    let (seq, i) ← readU32 i
    let (cnpTau, i) ← readU32 i
    let ih ← deserialize c ch.ack.ih i
    some { ch with ack := { sport, dport, flags, pg, seq, cnpTau, ih } }
  else if ch.l3Prot = 0xFE then do
    let (time, i) ← readU32 i
    let (qlen, i) ← readU32 i
    let (qIndex, _) ← readU8 i
    some { ch with pfc := { time, qlen, qIndex } }
  else some ch

/-- `CustomHeader::Deserialize` into `ch`, with the number of bytes it returns: zero
when the packet is not IPv4. -/
def deserialize (c : IntConfig) (ch : CustomHeader) (start : List UInt8) :
    Option (CustomHeader × Nat) := do
  let (pppProto, _) ← readNtohU16 start
  let ch := { ch with pppProto }
  let (verIhl, i) ← readU8 (start.drop 14)
  let l3Size := (verIhl &&& 0x0f).toNat * 4
  if verIhl >>> 4 ≠ 4 then some (ch, 0)
  else
    let (tos, i) ← readU8 i
    let (ipid, i) ← readNtohU16 (i.drop 2)
    let (l3Prot, i) ← readU8 (i.drop 3)
    let (sip, i) ← readNtohU32 (i.drop 2)
    let (dip, i) ← readNtohU32 i
    let ch ← deserializeL4 c { ch with tos, ipid, l3Prot, sip, dip } start i l3Size
    some (ch, 14 + l3Size + l4Size c ch)

end CustomHeader

/-! ## What the parser reads -/

section Int

variable {c : IntConfig} {ih old : IntHeader} {i : List UInt8}

/-- PINT has one byte or two. -/
def IntConfig.Valid (c : IntConfig) : Prop :=
  c.mode = .pint → c.pintBytes = 1 ∨ c.pintBytes = 2

/-- Two headers with the contents of a third. -/
theorem IntHeader.SameInt.of_common {ih' : IntHeader} (h : SameInt c old ih)
    (h' : SameInt c old ih') : SameInt c ih ih' := by
  unfold SameInt at h h' ⊢
  cases hmode : c.mode with
  | normal =>
    rw [hmode] at h h'
    exact ⟨h.1.symm.trans h'.1, h.2.symm.trans h'.2⟩
  | ts =>
    rw [hmode] at h h'
    exact h.symm.trans h'
  | pint =>
    rw [hmode] at h h'
    dsimp only at h h' ⊢
    split_ifs at h h' ⊢ with hone
    · exact h.symm.trans h'
    · exact h.symm.trans h'
  | none => trivial

theorem readHops_write (hops : List IntHop) : readHops hops.length
    (hops.flatMap (fun hop => writeU32 hop.buf0 ++ writeU32 hop.buf1) ++ i) = some (hops, i) := by
  induction hops with
  | nil => rfl
  | cons hop hops ih => simp [readHops, ih]

/-- A word is its two bytes. -/
theorem power_bytes (x : UInt16) :
    (x >>> 8).toUInt8.toUInt16 <<< 8 ||| x.toUInt8.toUInt16 = x := by
  refine UInt16.toNat_inj.mp ?_
  have hx : x.toNat < 2 ^ 16 := x.toNat_lt
  have hhi : x.toNat / 2 ^ 8 % 2 ^ 8 = x.toNat / 2 ^ 8 :=
    Nat.mod_eq_of_lt (Nat.div_lt_of_lt_mul hx)
  have hshift : (x.toNat / 2 ^ 8) <<< 8 % 2 ^ 16 = (x.toNat / 2 ^ 8) <<< 8 := by
    rw [Nat.shiftLeft_eq]
    exact Nat.mod_eq_of_lt (Nat.lt_of_le_of_lt (Nat.div_mul_le_self _ _) hx)
  calc ((x >>> 8).toUInt8.toUInt16 <<< 8 ||| x.toUInt8.toUInt16).toNat
      = (x.toNat / 2 ^ 8 % 2 ^ 8) <<< 8 % 2 ^ 16 ||| x.toNat % 2 ^ 8 := by
        simp [Nat.shiftRight_eq_div_pow]
    _ = (x.toNat / 2 ^ 8) <<< 8 + x.toNat % 2 ^ 8 := by
        rw [hhi, hshift, Nat.shiftLeft_add_eq_or_of_lt (Nat.mod_lt _ (by norm_num))]
    _ = x.toNat := by
        rw [Nat.shiftLeft_eq, Nat.div_add_mod']

variable (ih old) in
/-- The INT contents are read as they were written, in every mode. -/
theorem deserialize_serialize (hc : c.Valid) :
    ∃ ih', deserialize c old (ih.serialize c ++ i) = some ih' ∧ SameInt c ih' ih := by
  unfold deserialize serialize SameInt
  cases hmode : c.mode with
  | normal =>
    have hhops := readHops_write (i := writeU16 ih.nhop ++ i) (List.ofFn ih.hop)
    rw [List.length_ofFn] at hhops
    simp only [List.append_assoc, hhops, readU16_write, Option.bind_eq_bind, Option.bind_some]
    refine ⟨_, rfl, ?_, rfl⟩
    funext j
    have hget : (List.ofFn ih.hop)[j.val]? = some (ih.hop j) := by
      rw [List.getElem?_ofFn, dif_pos j.isLt]
    dsimp only
    rw [List.getD_eq_getElem?_getD, hget, Option.getD_some]
  | ts =>
    simp only [readU64_write, Option.bind_eq_bind, Option.bind_some]
    exact ⟨_, rfl, rfl⟩
  | pint =>
    rcases hc hmode with hone | htwo
    · simp only [hone, if_true, readU8_write, Option.bind_eq_bind, Option.bind_some]
      exact ⟨_, rfl, rfl⟩
    · simp only [htwo, OfNat.ofNat_ne_one, if_true, if_false, readU16_write, Option.bind_eq_bind,
        Option.bind_some]
      exact ⟨_, rfl, power_bytes ih.power⟩
  | none => exact ⟨old, rfl, trivial⟩

variable (c ih) in
theorem length_serialize_le : (ih.serialize c).length ≤ getStaticSize c := by
  unfold serialize getStaticSize
  cases c.mode with
  | normal => simp [List.ofFn_succ, maxHop]
  | ts => simp
  | pint =>
    dsimp only
    split_ifs <;> simp
  | none => simp

end Int

section Layers

variable {c : IntConfig} {ch : CustomHeader} {stale : Nat → UInt8} {ip : Ipv4Header}
  {protocol : UInt8} {h : Header} {p : List UInt8}

/-- A header takes its serialized size, whatever it writes. -/
theorem length_addHeader (hsize : h.bytes.length ≤ h.size) :
    (addHeader stale h p).length = h.size + p.length := by
  simp only [addHeader, List.length_append, List.length_map, List.length_range']
  omega

variable (stale h p) in
/-- What the buffer had stands between the bytes of a header and the rest. -/
theorem exists_room : ∃ room, addHeader stale h p = h.bytes ++ (room ++ p) :=
  ⟨_, List.append_assoc ..⟩

theorem addHeader_full (hsize : h.bytes.length = h.size) : addHeader stale h p = h.bytes ++ p := by
  rw [addHeader, hsize, Nat.sub_self]
  exact congrArg (· ++ p) (List.append_nil _)

theorem encapsulate_eq : encapsulate stale ip protocol p =
    (PppHeader.mk 0x0021).header.bytes ++ ((ip.carrying protocol p).header.bytes ++ p) := by
  rw [encapsulate, addHeader_full rfl, addHeader_full rfl]

theorem length_encapsulate : (encapsulate stale ip protocol p).length = 34 + p.length := by
  rw [encapsulate, length_addHeader (Nat.le_of_eq rfl), length_addHeader (Nat.le_of_eq rfl)]
  exact (Nat.add_assoc 14 20 _).symm

theorem drop_encapsulate : (encapsulate stale ip protocol p).drop 34 = p := by
  rw [encapsulate_eq, ← List.append_assoc, List.drop_left']
  rfl

/-- The header with the fields of the first two layers. -/
def CustomHeader.ipv4 (ch : CustomHeader) (ip : Ipv4Header) (protocol : UInt8) : CustomHeader :=
  { ch with pppProto := 0x0021, tos := ip.tos, ipid := ip.identification, l3Prot := protocol,
            sip := ip.source, dip := ip.destination }

theorem ipv4_l3Prot : (ch.ipv4 ip protocol).l3Prot = protocol := rfl
theorem ipv4_udp : (ch.ipv4 ip protocol).udp = ch.udp := rfl
theorem ipv4_ack : (ch.ipv4 ip protocol).ack = ch.ack := rfl

/-- The first two layers are parsed the same way for every packet. -/
theorem deserialize_encapsulate : CustomHeader.deserialize c ch (encapsulate stale ip protocol p) =
    (CustomHeader.deserializeL4 c (ch.ipv4 ip protocol) (encapsulate stale ip protocol p) p 20).map
      fun ch => (ch, 34 + CustomHeader.l4Size c ch) := by
  have hppp : readNtohU16 (encapsulate stale ip protocol p) = some (0x0021,
      writeU64 0 ++ (writeU32 0 ++ ((ip.carrying protocol p).header.bytes ++ p))) := by
    rw [encapsulate_eq]
    simp only [PppHeader.header, List.append_assoc, readNtohU16_write]
  have hdrop : (encapsulate stale ip protocol p).drop 14 =
      (ip.carrying protocol p).header.bytes ++ p := by
    rw [encapsulate_eq]
    exact List.drop_left' rfl
  unfold CustomHeader.deserialize
  rw [hppp, hdrop]
  simp only [Ipv4Header.header, List.append_assoc, Option.bind_eq_bind, Option.bind_some,
    readU8_write]
  rw [if_neg (by decide)]
  -- total length, fragment and time to live, and checksum are skipped
  simp only [drop_writeHtonU16, drop_writeU8, readNtohU16_write, readU8_write, readNtohU32_write,
    Option.bind_some]
  exact Option.map_eq_bind.symm

/-- The parser gives back the addresses, the protocol and the ECN bits of the packet `p`,
and both of its sizes are the number of bytes in front of the payload. -/
structure Recovers (c : IntConfig) (p : List UInt8) (ip : Ipv4Header) (protocol : UInt8)
    (payload size : Nat) (ch : CustomHeader) : Prop where
  sip : ch.sip = ip.source
  dip : ch.dip = ip.destination
  ipid : ch.ipid = ip.identification
  l3Prot : ch.l3Prot = protocol
  ecn : ch.getIpv4EcnBits = ip.tos &&& 0x3
  headers : size + payload = p.length
  serializedSize : ch.getSerializedSize c = size
  payload : p.length - ch.getSerializedSize c = payload

/-- A packet is recovered when its last layer is parsed, without touching the others, and
has the size that its protocol announces. -/
theorem recovers_of_l4 (payload : Nat) {tcp : TcpFields} {udp : UdpFields} {cnp : CnpFields}
    {ack : AckFields} {pfc : PfcFields}
    (hl4 : CustomHeader.deserializeL4 c (ch.ipv4 ip protocol) (encapsulate stale ip protocol p) p 20
      = some { ch.ipv4 ip protocol with tcp, udp, cnp, ack, pfc })
    (hlen : p.length =
      CustomHeader.l4Size c { ch.ipv4 ip protocol with tcp, udp, cnp, ack, pfc } + payload) :
    ∃ size, CustomHeader.deserialize c ch (encapsulate stale ip protocol p) =
        some ({ ch.ipv4 ip protocol with tcp, udp, cnp, ack, pfc }, size) ∧
      Recovers c (encapsulate stale ip protocol p) ip protocol payload size
        { ch.ipv4 ip protocol with tcp, udp, cnp, ack, pfc } := by
  have hsize : CustomHeader.getSerializedSize c { ch.ipv4 ip protocol with tcp, udp, cnp, ack, pfc }
      = 34 + CustomHeader.l4Size c { ch.ipv4 ip protocol with tcp, udp, cnp, ack, pfc } := rfl
  refine ⟨_, deserialize_encapsulate.trans (congrArg _ hl4), rfl, rfl, rfl, rfl, rfl, ?_, hsize, ?_⟩
  · rw [length_encapsulate, hlen, Nat.add_assoc]
  · rw [length_encapsulate, hlen, hsize, ← Nat.add_assoc, Nat.add_sub_cancel_left]

end Layers

/-! ## The four kinds of packets -/

section Packets

variable {c : IntConfig} (hc : c.Valid) (stale : Nat → UInt8) (ch : CustomHeader) (ip : Ipv4Header)

include hc in
theorem deserialize_data (udp : UdpHeader) (seqTs : SeqTsHeader) (payloadSize : Nat) :
    ∃ ch' size, CustomHeader.deserialize c ch (dataPacket c stale ip udp seqTs payloadSize) =
        some (ch', size) ∧
      Recovers c (dataPacket c stale ip udp seqTs payloadSize) ip 0x11 payloadSize size ch' ∧
      ch'.udp.sport = udp.sourcePort ∧ ch'.udp.dport = udp.destinationPort ∧
      ch'.udp.seq = seqTs.seq ∧ ch'.udp.pg = seqTs.pg ∧ SameInt c ch'.udp.ih seqTs.ih := by
  have hseqTs : (seqTs.header c).bytes.length ≤ (seqTs.header c).size := by
    have hint := length_serialize_le c seqTs.ih
    simp only [SeqTsHeader.header, List.length_append, length_writeHtonU32, length_writeHtonU16]
    omega
  have hudp (p : List UInt8) : (udp.header p).bytes.length = (udp.header p).size := rfl
  have hlen : (addHeader stale (udp.header (addHeader stale (seqTs.header c)
      (List.replicate payloadSize 0))) (addHeader stale (seqTs.header c)
        (List.replicate payloadSize 0))).length =
      CustomHeader.getUdpHeaderSize c + payloadSize := by
    rw [length_addHeader (Nat.le_of_eq (hudp _)), length_addHeader hseqTs, List.length_replicate]
    simp only [UdpHeader.header, SeqTsHeader.header, CustomHeader.getUdpHeaderSize]
    omega
  rw [dataPacket]
  obtain ⟨room, hroom⟩ := exists_room stale (seqTs.header c) (List.replicate payloadSize 0)
  rw [hroom] at hlen ⊢
  obtain ⟨ih', hih, hsame⟩ := deserialize_serialize seqTs.ih ch.udp.ih
    (i := room ++ List.replicate payloadSize 0) hc
  generalize (room ++ List.replicate payloadSize 0 : List UInt8) = rest at *
  have hl4 : CustomHeader.deserializeL4 c (ch.ipv4 ip 0x11)
      (encapsulate stale ip 0x11 (addHeader stale (udp.header ((seqTs.header c).bytes ++ rest))
        ((seqTs.header c).bytes ++ rest)))
      (addHeader stale (udp.header ((seqTs.header c).bytes ++ rest))
        ((seqTs.header c).bytes ++ rest)) 20 =
      some { ch.ipv4 ip 0x11 with
        udp := { sport := udp.sourcePort, dport := udp.destinationPort, pg := seqTs.pg,
                 seq := seqTs.seq, ih := ih' } } := by
    simp only [CustomHeader.deserializeL4, ipv4_l3Prot, ipv4_udp]
    rw [if_neg (by decide), if_pos trivial, drop_encapsulate, addHeader_full (hudp _)]
    simp only [UdpHeader.header, SeqTsHeader.header, List.append_assoc, readNtohU16_write,
      readNtohU32_write, drop_udpRest, Option.bind_eq_bind, Option.bind_some, hih]
  obtain ⟨size, hparse, hrecovers⟩ := recovers_of_l4 payloadSize hl4 hlen
  exact ⟨_, size, hparse, hrecovers, rfl, rfl, rfl, rfl, hsame⟩

include hc in
theorem deserialize_ack (isNack : Bool) (seqh : QbbHeader) :
    ∃ ch' size, CustomHeader.deserialize c ch (ackPacket c stale ip isNack seqh) =
        some (ch', size) ∧
      Recovers c (ackPacket c stale ip isNack seqh) ip (if isNack then 0xFD else 0xFC)
        (60 - 14 - 20 - (16 + getStaticSize c)) size ch' ∧
      ch'.ack.sport = seqh.sport ∧ ch'.ack.dport = seqh.dport ∧ ch'.ack.flags = seqh.flags ∧
      ch'.ack.pg = seqh.pg ∧ ch'.ack.seq = seqh.seq ∧ ch'.ack.cnpTau = seqh.cnpTau ∧
      SameInt c ch'.ack.ih seqh.ih := by
  have hseqh : (seqh.header c).bytes.length ≤ (seqh.header c).size := by
    have hint := length_serialize_le c seqh.ih
    simp only [QbbHeader.header, List.length_append, length_writeU32, length_writeU16]
    omega
  have hlen : (addHeader stale (seqh.header c)
      (List.replicate (60 - 14 - 20 - (seqh.header c).size) 0)).length =
      CustomHeader.getAckSerializedSize c + (60 - 14 - 20 - (16 + getStaticSize c)) := by
    rw [length_addHeader hseqh, List.length_replicate]
    rfl
  -- ACK and NACK differ in the protocol only
  have hprotocol : ∃ protocol : UInt8, protocol = (if isNack then 0xFD else 0xFC) ∧
      (protocol = 0xFC ∨ protocol = 0xFD) := by
    cases isNack with
    | false => exact ⟨_, rfl, .inl rfl⟩
    | true => exact ⟨_, rfl, .inr rfl⟩
  obtain ⟨protocol, hisNack, hprotocol⟩ := hprotocol
  have hl3Prot : (ch.ipv4 ip protocol).l3Prot = 0xFC ∨ (ch.ipv4 ip protocol).l3Prot = 0xFD :=
    hprotocol
  have htcp : ¬(ch.ipv4 ip protocol).l3Prot = 0x6 := by
    rcases hl3Prot with h | h <;> rw [h] <;> decide
  have hudp : ¬(ch.ipv4 ip protocol).l3Prot = 0x11 := by
    rcases hl3Prot with h | h <;> rw [h] <;> decide
  have hcnp : ¬(ch.ipv4 ip protocol).l3Prot = 0xFF := by
    rcases hl3Prot with h | h <;> rw [h] <;> decide
  rw [ackPacket, ← hisNack]
  obtain ⟨room, hroom⟩ := exists_room stale (seqh.header c)
    (List.replicate (60 - 14 - 20 - (seqh.header c).size) 0)
  rw [hroom] at hlen ⊢
  obtain ⟨ih', hih, hsame⟩ := deserialize_serialize seqh.ih ch.ack.ih
    (i := room ++ List.replicate (60 - 14 - 20 - (seqh.header c).size) 0) hc
  generalize (room ++ List.replicate (60 - 14 - 20 - (seqh.header c).size) 0 : List UInt8) = rest
    at *
  have hl4 : CustomHeader.deserializeL4 c (ch.ipv4 ip protocol)
      (encapsulate stale ip protocol ((seqh.header c).bytes ++ rest))
      ((seqh.header c).bytes ++ rest) 20 =
      some { ch.ipv4 ip protocol with
        ack := { sport := seqh.sport, dport := seqh.dport, flags := seqh.flags, pg := seqh.pg,
                 seq := seqh.seq, cnpTau := seqh.cnpTau, ih := ih' } } := by
    rw [CustomHeader.deserializeL4, if_neg htcp, if_neg hudp, if_neg hcnp, if_pos hl3Prot]
    simp only [QbbHeader.header, List.append_assoc, readU16_write, readU32_write, ipv4_ack,
      Option.bind_eq_bind, Option.bind_some, hih]
  have hl4Size : CustomHeader.l4Size c { ch.ipv4 ip protocol with
      ack := { sport := seqh.sport, dport := seqh.dport, flags := seqh.flags, pg := seqh.pg,
               seq := seqh.seq, cnpTau := seqh.cnpTau, ih := ih' } } =
      CustomHeader.getAckSerializedSize c := by
    rw [CustomHeader.l4Size, if_neg htcp, if_neg hudp, if_pos hl3Prot]
  obtain ⟨size, hparse, hrecovers⟩ := recovers_of_l4 _ hl4 (by rw [hl4Size]; exact hlen)
  exact ⟨_, size, hparse, hrecovers, rfl, rfl, rfl, rfl, rfl, rfl, hsame⟩

theorem deserialize_cnp (cnh : CnHeader) :
    ∃ ch' size, CustomHeader.deserialize c ch (cnpPacket stale ip cnh) = some (ch', size) ∧
      Recovers c (cnpPacket stale ip cnh) ip 0xFF 18 size ch' ∧
      ch'.cnp.fid = cnh.fid ∧ ch'.cnp.qIndex = cnh.qIndex ∧ ch'.cnp.ecnBits = cnh.ecnBits ∧
      ch'.cnp.qfb = cnh.qfb ∧ ch'.cnp.total = cnh.total := by
  have hl4 : CustomHeader.deserializeL4 c (ch.ipv4 ip 0xFF) (cnpPacket stale ip cnh)
      (addHeader stale cnh.header (List.replicate 18 0)) 20 =
      some { ch.ipv4 ip 0xFF with
        cnp := { fid := cnh.fid, qIndex := cnh.qIndex, qfb := cnh.qfb, ecnBits := cnh.ecnBits,
                 total := cnh.total } } := by
    simp only [CustomHeader.deserializeL4, ipv4_l3Prot]
    rw [if_neg (by decide), if_neg (by decide), if_pos trivial, addHeader_full rfl]
    simp only [CnHeader.header, List.append_assoc, readU8_write, readU16_write,
      Option.bind_eq_bind, Option.bind_some]
  obtain ⟨size, hparse, hrecovers⟩ := recovers_of_l4 18 hl4 rfl
  exact ⟨_, size, hparse, hrecovers, rfl, rfl, rfl, rfl, rfl⟩

theorem deserialize_pfc (pauseh : PauseHeader) :
    ∃ ch' size, CustomHeader.deserialize c ch (pfcFrame stale ip pauseh) = some (ch', size) ∧
      Recovers c (pfcFrame stale ip pauseh) ip 0xFE 0 size ch' ∧
      ch'.pfc.time = pauseh.time ∧ ch'.pfc.qlen = pauseh.qlen ∧
      ch'.pfc.qIndex = pauseh.qindex := by
  have hl4 : CustomHeader.deserializeL4 c (ch.ipv4 ip 0xFE) (pfcFrame stale ip pauseh)
      (addHeader stale pauseh.header []) 20 =
      some { ch.ipv4 ip 0xFE with
        pfc := { time := pauseh.time, qlen := pauseh.qlen, qIndex := pauseh.qindex } } := by
    simp only [CustomHeader.deserializeL4, ipv4_l3Prot]
    rw [if_neg (by decide), if_neg (by decide), if_neg (by decide), if_neg (by decide),
      if_pos trivial, addHeader_full rfl]
    simp only [PauseHeader.header, List.append_assoc, readU8_write, readU32_write,
      Option.bind_eq_bind, Option.bind_some]
  obtain ⟨size, hparse, hrecovers⟩ := recovers_of_l4 0 hl4 rfl
  exact ⟨_, size, hparse, hrecovers, rfl, rfl, rfl⟩

/-- Every packet that the program builds is parsed into what was written, in every INT
mode, and the sizes leave the payload that was put in. -/
theorem wire_agreement (c : IntConfig) (hc : c.Valid) (stale : Nat → UInt8) (ch : CustomHeader)
    (ip : Ipv4Header) :
    (∀ (udp : UdpHeader) (seqTs : SeqTsHeader) (payloadSize : Nat), ∃ ch' size,
      CustomHeader.deserialize c ch (dataPacket c stale ip udp seqTs payloadSize) =
        some (ch', size) ∧
      Recovers c (dataPacket c stale ip udp seqTs payloadSize) ip 0x11 payloadSize size ch' ∧
      ch'.udp.sport = udp.sourcePort ∧ ch'.udp.dport = udp.destinationPort ∧
      ch'.udp.seq = seqTs.seq ∧ ch'.udp.pg = seqTs.pg ∧ SameInt c ch'.udp.ih seqTs.ih) ∧
    (∀ (isNack : Bool) (seqh : QbbHeader), ∃ ch' size,
      CustomHeader.deserialize c ch (ackPacket c stale ip isNack seqh) = some (ch', size) ∧
      Recovers c (ackPacket c stale ip isNack seqh) ip (if isNack then 0xFD else 0xFC)
        (60 - 14 - 20 - (16 + getStaticSize c)) size ch' ∧
      ch'.ack.sport = seqh.sport ∧ ch'.ack.dport = seqh.dport ∧ ch'.ack.flags = seqh.flags ∧
      ch'.ack.pg = seqh.pg ∧ ch'.ack.seq = seqh.seq ∧ ch'.ack.cnpTau = seqh.cnpTau ∧
      SameInt c ch'.ack.ih seqh.ih) ∧
    (∀ cnh : CnHeader, ∃ ch' size,
      CustomHeader.deserialize c ch (cnpPacket stale ip cnh) = some (ch', size) ∧
      Recovers c (cnpPacket stale ip cnh) ip 0xFF 18 size ch' ∧
      ch'.cnp.fid = cnh.fid ∧ ch'.cnp.qIndex = cnh.qIndex ∧ ch'.cnp.ecnBits = cnh.ecnBits ∧
      ch'.cnp.qfb = cnh.qfb ∧ ch'.cnp.total = cnh.total) ∧
    (∀ pauseh : PauseHeader, ∃ ch' size,
      CustomHeader.deserialize c ch (pfcFrame stale ip pauseh) = some (ch', size) ∧
      Recovers c (pfcFrame stale ip pauseh) ip 0xFE 0 size ch' ∧
      ch'.pfc.time = pauseh.time ∧ ch'.pfc.qlen = pauseh.qlen ∧
      ch'.pfc.qIndex = pauseh.qindex) :=
  ⟨deserialize_data hc stale ch ip, deserialize_ack hc stale ch ip, deserialize_cnp stale ch ip,
    deserialize_pfc stale ch ip⟩

end Packets

/-! ## A NACK with one byte of PINT -/

def blankInt : IntHeader :=
  { hop := fun _ => { buf0 := 0, buf1 := 0 }, nhop := 0, ts := 0, powerLo8 := 0, powerHi8 := 0 }

/-- The fields of a new `CustomHeader`, with zeros where the constructor sets nothing. -/
def CustomHeader.create : CustomHeader :=
  { pppProto := 0, ipid := 0, tos := 0, l3Prot := 0, sip := 0, dip := 0,
    tcp := { sport := 0, dport := 0, seq := 0, ack := 0, length := 0, tcpFlags := 0 },
    udp := { sport := 0, dport := 0, pg := 0, seq := 0, ih := blankInt },
    cnp := { fid := 0, qIndex := 0, qfb := 0, ecnBits := 0, total := 0 },
    ack := { sport := 0, dport := 0, flags := 0, pg := 0, seq := 0, cnpTau := 0, ih := blankInt },
    pfc := { time := 0, qlen := 0, qIndex := 0 } }

def pintConfig : IntConfig := { mode := .pint, pintBytes := 1 }

def nackIp : Ipv4Header :=
  { tos := 0, payloadSize := 0, identification := 7, dontFragment := false, moreFragments := false,
    fragmentOffset := 0, ttl := 64, protocol := 0, source := 0x0b000101, destination := 0x0b000201 }

def nackHeader : QbbHeader :=
  { sport := 100, dport := 10000, flags := 1, pg := 3, seq := 70000, cnpTau := 0,
    ih := { blankInt with powerLo8 := 200 } }

/-- The byte that PINT leaves in the buffer does not get into the fields. -/
theorem wire_agreement_nack : ∃ ch' size,
    CustomHeader.deserialize pintConfig .create
      (ackPacket pintConfig (fun _ => 0xAB) nackIp true nackHeader) = some (ch', size) ∧
    ch'.sip = 0x0b000101 ∧ ch'.ack.seq = 70000 ∧ ch'.ack.ih.powerLo8 = 200 ∧ size = 52 := by
  obtain ⟨-, hack, -, -⟩ :=
    wire_agreement pintConfig (fun _ => .inl rfl) (fun _ => 0xAB) .create nackIp
  obtain ⟨ch', size, hparse, hrecovers, -, -, -, -, hseq, -, hsame⟩ := hack true nackHeader
  have hsize : size + 8 = 60 := hrecovers.headers
  exact ⟨ch', size, hparse, hrecovers.sip, hseq, hsame, by omega⟩

end Paraleon.Wire
