import Paraleon.Wire.IntMemory

/-!
# INT in the buffer of a packet

When a data packet leaves a switch, `SwitchNotifyDequeue` casts the bytes behind the PPP,
IPv4, UDP and SeqTs headers to an `IntHeader` and calls `PushHop` or `SetPower` on it.

`inPlace_iff`: this leaves the bytes that one gets with `Deserialize`, the same call and
`Serialize`, and no other byte changes, but for PINT of neither one byte nor two: the codec
then carries nothing, and `SetPower` writes two bytes.
-/

namespace Paraleon.Wire

open Bytes IntMemory

/-! ## The methods work on the object -/

namespace IntMemory

variable {c : IntConfig} {m m' : Memory} {a b : Nat}

theorem loadU16_within {k n : Nat} (hk : k + 2 ≤ n) (h : load m a n = load m' b n) :
    loadU16 m (a + k) = loadU16 m' (b + k) := by
  rw [loadU16, loadU16, load_within hk, load_within hk, h]

theorem loadHop_within {k n : Nat} (hk : k + 8 ≤ n) (h : load m a n = load m' b n) :
    loadHop m (a + k) = loadHop m' (b + k) := by
  rw [loadHop, loadHop, loadU32, loadU32, loadU32, loadU32, Nat.add_assoc, Nat.add_assoc,
    load_within (show k + 4 ≤ n by omega), load_within (show k + 4 ≤ n by omega),
    load_within (show k + 4 + 4 ≤ n by omega), load_within (show k + 4 + 4 ≤ n by omega), h]

theorem pushHop_worksOn (hmode : c.mode = .normal) (multi : UInt32) (time bytes : UInt64)
    (qlen : UInt32) (rate : UInt64) : WorksOn 42 (pushHop c multi time bytes qlen rate) := by
  intro m m' a b h
  have hnhop : loadU16 m (a + 40) = loadU16 m' (b + 40) := loadU16_within (by decide) h
  unfold pushHop
  rw [if_pos hmode, if_pos hmode, hnhop]
  dsimp only
  have hidx : (loadU16 m' (b + 40)).toNat % maxHop < 5 := Nat.mod_lt _ (by decide)
  generalize (loadU16 m' (b + 40)).toNat % maxHop = idx at hidx
  have hhop : loadHop m (a + 8 * idx) = loadHop m' (b + 8 * idx) :=
    loadHop_within (by omega) h
  rw [hhop, Option.map_map]
  refine Option.map_congr fun hop _ => ?_
  have hfits : 8 * idx + (writeHop hop).length ≤ 42 := by rw [length_writeHop]; omega
  have hfits' : 40 + (writeU16 (loadU16 m' (b + 40) + 1)).length ≤ 42 := by
    rw [length_writeU16]
  rw [store_store_within hfits hfits', Function.comp_apply, store_store_within hfits hfits',
    load_store, h]
  rw [length_splice, length_splice, length_load]
  · rwa [length_load]
  · rwa [length_splice (by rwa [length_load]), length_load]

theorem setPower_worksOn (hmode : c.mode = .pint) (hsized : c.pintBytes = 1 ∨ c.pintBytes = 2)
    (power : UInt16) :
    WorksOn (codecSize c) fun m ih => some (setPower c power m ih) := by
  have hstore (bs : List UInt8) : WorksOn bs.length fun m a => some (store m a bs) := by
    intro m m' a b _
    rw [Option.map_some, load_store rfl]
  unfold setPower codecSize
  rw [hmode]
  rcases hsized with hone | htwo
  · simp only [hone, if_true]
    exact hstore (writeU8 power.toUInt8)
  · simp only [htwo, OfNat.ofNat_ne_one, if_true, if_false]
    exact hstore (writeU16 power)

theorem getPower_within (hmode : c.mode = .pint)
    (hsized : c.pintBytes = 1 ∨ c.pintBytes = 2)
    (h : load m a (codecSize c) = load m' b (codecSize c)) :
    getPower c m a = getPower c m' b := by
  unfold codecSize at h
  unfold getPower
  rw [hmode] at h ⊢
  rcases hsized with hone | htwo
  · simp only [hone, if_true] at h ⊢
    exact congrArg UInt8.toUInt16 (load_eq_iff.mp h 0 (by decide))
  · simp only [htwo, OfNat.ofNat_ne_one, if_true, if_false] at h ⊢
    rw [loadU16, loadU16, h]

end IntMemory

/-! ## The update of a switch -/

/-- PPP, IPv4, UDP and SeqTs. -/
abbrev intOffset : Nat := 14 + 20 + 8 + 6

/-- The update of HPCC, and that of HPCC-PINT with the encoded utilisation. -/
inductive Update where
  | pushHop (time bytes : UInt64) (qlen : UInt32) (rate : UInt64)
  | setPower (power : UInt16)

def Update.apply (c : IntConfig) (multi : UInt32) : Update → Memory → Nat → Option Memory
  | .pushHop time bytes qlen rate => IntMemory.pushHop c multi time bytes qlen rate
  | .setPower power => fun m ih =>
    some (if getPower c m ih < power then IntMemory.setPower c power m ih else m)

/-- The INT part of `SwitchNotifyDequeue`. -/
def switchNotifyDequeue (c : IntConfig) (multi : UInt32) (u : Update) (buf : Memory) :
    Option Memory :=
  if buf (14 + 9) = 0x11 then u.apply c multi buf intOffset else some buf

/-- The update by way of the object `obj`, from the bytes `i` of the packet. -/
def codecUpdate (c : IntConfig) (multi : UInt32) (u : Update) (obj : Memory) (i : List UInt8) :
    Option (List UInt8) :=
  ((deserialize c obj 0 i).bind fun obj => u.apply c multi obj 0).map fun obj => serialize c obj 0

/-- The codec leaves out the power that the update sets. -/
def Unsized (c : IntConfig) (u : Update) (buf : Memory) : Prop :=
  c.mode = .pint ∧ ¬(c.pintBytes = 1 ∨ c.pintBytes = 2) ∧
    ∃ power, u = .setPower power ∧ loadU16 buf intOffset < power

section Update

variable {c : IntConfig} {multi : UInt32} {u : Update}

theorem apply_worksOn (h : c.mode = .pint → c.pintBytes = 1 ∨ c.pintBytes = 2) :
    WorksOn (codecSize c) (u.apply c multi) := by
  cases u with
  | pushHop time bytes qlen rate =>
    show WorksOn (codecSize c) (pushHop c multi time bytes qlen rate)
    by_cases hmode : c.mode = .normal
    · have hsize : codecSize c = 42 := by simp [codecSize, hmode, maxHop]
      rw [hsize]
      exact pushHop_worksOn hmode multi time bytes qlen rate
    · have hsame : pushHop c multi time bytes qlen rate = fun m _ => some m := by
        funext m a
        rw [pushHop, if_neg hmode]
      rw [hsame]
      exact worksOn_some _
  | setPower power =>
    show WorksOn (codecSize c) fun m ih =>
      some (if getPower c m ih < power then setPower c power m ih else m)
    by_cases hmode : c.mode = .pint
    · intro m m' a b hsame
      dsimp only
      rw [getPower_within hmode (h hmode) hsame]
      split
      · exact setPower_worksOn hmode (h hmode) power m m' a b hsame
      · exact worksOn_some _ m m' a b hsame
    · have hsame : (fun m ih => some (if getPower c m ih < power then setPower c power m ih
          else m)) = fun (m : Memory) (_ : Nat) => some m := by
        funext m a
        rw [setPower, if_neg hmode, ite_self]
      rw [hsame]
      exact worksOn_some _

/-- With a codec that carries all of the object, the update in the buffer is the update by
way of the codec. -/
theorem apply_eq_codecUpdate (h : c.mode = .pint → c.pintBytes = 1 ∨ c.pintBytes = 2)
    (obj buf : Memory) {ih : Nat} {i : List UInt8} (hlength : codecSize c ≤ i.length)
    (hi : load buf ih (codecSize c) = i.take (codecSize c)) :
    u.apply c multi buf ih = (codecUpdate c multi u obj i).map (store buf ih) := by
  unfold codecUpdate
  rw [(apply_worksOn h).on_copy buf obj ih 0, hi, deserialize_eq_store hlength, Option.bind_some]
  simp only [serialize_eq_load]

theorem length_codecUpdate {obj : Memory} {i bs : List UInt8}
    (h : codecUpdate c multi u obj i = some bs) : bs.length = codecSize c := by
  obtain ⟨obj', -, rfl⟩ := Option.map_eq_some_iff.mp h
  rw [serialize_eq_load, length_load]

/-- PINT of another size than one byte or two is not in the codec. -/
theorem codecUpdate_unsized (hmode : c.mode = .pint)
    (hsize : ¬(c.pintBytes = 1 ∨ c.pintBytes = 2)) (obj : Memory) (i : List UInt8) :
    codecUpdate c multi u obj i = some [] := by
  obtain ⟨hone, htwo⟩ := not_or.mp hsize
  have hzero : codecSize c = 0 := by simp [codecSize, hmode, hone, htwo]
  have happly : ∃ obj', u.apply c multi obj 0 = some obj' := by
    cases u with
    | pushHop => exact ⟨obj, if_neg (by simp [hmode])⟩
    | setPower => exact ⟨_, rfl⟩
  obtain ⟨obj', hobj'⟩ := happly
  rw [codecUpdate, deserialize_eq_store (by rw [hzero]; exact Nat.zero_le _), hzero,
    List.take_zero, store_nil, Option.bind_some, hobj', Option.map_some, serialize_eq_load, hzero]
  rfl

end Update

/-! ## Data packets -/

/-- For the packet `p` in the buffer, with `rest` behind it. -/
structure MatchesCodec (c : IntConfig) (multi : UInt32) (u : Update) (p : List UInt8)
    (rest : Memory) : Prop where
  bytes : ∀ obj, (switchNotifyDequeue c multi u (store rest 0 p)).map (load · 0 p.length) =
    (codecUpdate c multi u obj (p.drop intOffset)).map (splice p intOffset)
  others : ∀ m, switchNotifyDequeue c multi u (store rest 0 p) = some m →
    ∀ x, x < intOffset ∨ intOffset + codecSize c ≤ x → m x = store rest 0 p x

section Packets

variable {c : IntConfig} {multi : UInt32} {u : Update} {p : List UInt8} {rest : Memory}

theorem load_packet (h : intOffset + codecSize c ≤ p.length) :
    load (store rest 0 p) intOffset (codecSize c) = (p.drop intOffset).take (codecSize c) := by
  have hload := load_within (m := store rest 0 p) (a := 0) h
  rwa [load_store rfl, Nat.zero_add] at hload

theorem matches_of_sized (hudp : store rest 0 p (14 + 9) = 0x11)
    (hlength : intOffset + codecSize c ≤ p.length)
    (h : c.mode = .pint → c.pintBytes = 1 ∨ c.pintBytes = 2) : MatchesCodec c multi u p rest := by
  have hupdate (obj : Memory) : switchNotifyDequeue c multi u (store rest 0 p) =
      (codecUpdate c multi u obj (p.drop intOffset)).map (store (store rest 0 p) intOffset) := by
    rw [switchNotifyDequeue, if_pos hudp]
    exact apply_eq_codecUpdate h obj _ (by rw [List.length_drop]; omega) (load_packet hlength)
  constructor
  · intro obj
    rw [hupdate obj, Option.map_map]
    refine Option.map_congr fun bs hbs => ?_
    have hfits : intOffset + bs.length ≤ p.length := by rwa [length_codecUpdate hbs]
    have hload := load_store_within (m := store rest 0 p) (a := 0) hfits
    rwa [load_store rfl, Nat.zero_add] at hload
  · intro m hm x hx
    rw [switchNotifyDequeue, if_pos hudp] at hm
    exact (apply_worksOn h).outside hm hx

theorem matches_iff_of_unsized (hudp : store rest 0 p (14 + 9) = 0x11)
    (hlength : intOffset + 2 ≤ p.length) (hmode : c.mode = .pint)
    (hsize : ¬(c.pintBytes = 1 ∨ c.pintBytes = 2)) :
    MatchesCodec c multi u p rest ↔ ¬Unsized c u (store rest 0 p) := by
  have hcodec (obj : Memory) :
      (codecUpdate c multi u obj (p.drop intOffset)).map (splice p intOffset) = some p := by
    rw [codecUpdate_unsized hmode hsize, Option.map_some, splice_nil]
  have hkeeps (hsame : switchNotifyDequeue c multi u (store rest 0 p) = some (store rest 0 p)) :
      MatchesCodec c multi u p rest := by
    refine ⟨fun obj => ?_, fun m hm x _ => ?_⟩
    · rw [hcodec, hsame, Option.map_some, load_store rfl]
    · rw [hsame] at hm
      cases hm
      rfl
  cases u with
  | pushHop time bytes qlen rate =>
    refine iff_of_true (hkeeps ?_) ?_
    · rw [switchNotifyDequeue, if_pos hudp]
      exact if_neg (by simp [hmode])
    · rintro ⟨-, -, power, hpower, -⟩
      cases hpower
  | setPower power =>
    have hpower : getPower c (store rest 0 p) intOffset = loadU16 (store rest 0 p) intOffset := by
      rw [getPower, if_pos hmode, if_neg (not_or.mp hsize).1]
    have hunsized : Unsized c (.setPower power) (store rest 0 p) ↔
        loadU16 (store rest 0 p) intOffset < power :=
      ⟨fun ⟨_, _, _, heq, hlt⟩ => by cases heq; exact hlt, fun hlt => ⟨hmode, hsize, _, rfl, hlt⟩⟩
    have hstep : switchNotifyDequeue c multi (.setPower power) (store rest 0 p) =
        some (if loadU16 (store rest 0 p) intOffset < power then
          store (store rest 0 p) intOffset (writeU16 power) else store rest 0 p) := by
      rw [switchNotifyDequeue, if_pos hudp, ← hpower]
      show some (if _ then setPower c power (store rest 0 p) intOffset else _) = _
      rw [setPower, if_pos hmode, if_neg (not_or.mp hsize).1]
    rw [hunsized]
    by_cases hlt : loadU16 (store rest 0 p) intOffset < power
    · refine iff_of_false (fun hmatches => ?_) (not_not.mpr hlt)
      -- the two bytes of the new power would be those of the old one
      have hbytes := hmatches.bytes rest
      rw [hcodec, hstep, if_pos hlt, Option.map_some, Option.some.injEq] at hbytes
      have hold := load_within (m := store rest 0 p) (a := 0) hlength
      have hnew := load_within (m := store (store rest 0 p) intOffset (writeU16 power)) (a := 0)
        hlength
      rw [load_store rfl, Nat.zero_add, ← writeU16_load] at hold
      rw [hbytes, Nat.zero_add, load_store (length_writeU16 power), ← hold] at hnew
      rw [← writeU16_injective hnew] at hlt
      exact UInt16.lt_irrefl _ hlt
    · exact iff_of_true (hkeeps (by rw [hstep, if_neg hlt])) hlt

end Packets

section DataPacket

variable (c : IntConfig) (stale : Nat → UInt8) (ip : Ipv4Header) (udp : UdpHeader)
  (seqTs : SeqTsHeader) (payloadSize : Nat)

theorem length_dataPacket : (dataPacket c stale ip udp seqTs payloadSize).length =
    intOffset + IntHeader.getStaticSize c + payloadSize := by
  have hseqTs : (seqTs.header c).bytes.length ≤ (seqTs.header c).size := by
    have h := length_serialize_le c seqTs.ih
    simp only [SeqTsHeader.header, List.length_append, length_writeHtonU32, length_writeHtonU16]
    omega
  rw [dataPacket, length_encapsulate, length_addHeader (by simp [UdpHeader.header]),
    length_addHeader hseqTs, List.length_replicate]
  show 34 + (8 + (6 + IntHeader.getStaticSize c + payloadSize)) =
    14 + 20 + 8 + 6 + IntHeader.getStaticSize c + payloadSize
  omega

/-- The protocol, where the switch looks for it. -/
theorem dataPacket_udp (rest : Memory) :
    store rest 0 (dataPacket c stale ip udp seqTs payloadSize) (14 + 9) = 0x11 := by
  rw [show 14 + 9 = 0 + 23 from rfl, store_apply, dataPacket, encapsulate_eq]
  rfl

/-- For every data packet in a buffer and every update: it leaves the bytes of the codec and
changes no other byte, if and only if it does not set a power that the codec leaves out. -/
theorem inPlace_iff (multi : UInt32) (u : Update) (rest : Memory) :
    MatchesCodec c multi u (dataPacket c stale ip udp seqTs payloadSize) rest ↔
      ¬Unsized c u (store rest 0 (dataPacket c stale ip udp seqTs payloadSize)) := by
  have hudp := dataPacket_udp c stale ip udp seqTs payloadSize rest
  have hlength := length_dataPacket c stale ip udp seqTs payloadSize
  by_cases hsized : c.mode = .pint → c.pintBytes = 1 ∨ c.pintBytes = 2
  · have hfits := codecSize_le c
    exact iff_of_true (matches_of_sized hudp (by omega) hsized) fun h => h.2.1 (hsized h.1)
  · obtain ⟨hmode, hsize⟩ := Classical.not_imp.mp hsized
    have hstatic : IntHeader.getStaticSize c = 2 := by rw [IntHeader.getStaticSize, hmode]
    exact matches_iff_of_unsized hudp (by omega) hmode hsize

end DataPacket

/-- A packet of 1000 bytes from host 1 to host 2, whose INT field is zero. -/
def pintPacket (c : IntConfig) : List UInt8 :=
  dataPacket c (fun _ => 0)
    { tos := 0, payloadSize := 0, identification := 0, dontFragment := false,
      moreFragments := false, fragmentOffset := 0, ttl := 64, protocol := 0,
      source := 0x0b000101, destination := 0x0b000201 }
    { sourcePort := 10000, destinationPort := 100 }
    { seq := 0, pg := 3,
      ih := { hop := fun _ => ⟨0, 0⟩, nhop := 0, ts := 0, powerLo8 := 0, powerHi8 := 0 } } 1000

/-- PINT of three bytes, which a `PINT_LOG_BASE` of 1.0001 leads to. -/
theorem inPlace_three_bytes :
    ¬MatchesCodec ⟨.pint, 3⟩ 1 (.setPower 7) (pintPacket ⟨.pint, 3⟩) fun _ => 0 := by
  have hudp : store (fun _ => 0) 0 (pintPacket ⟨.pint, 3⟩) (14 + 9) = 0x11 :=
    dataPacket_udp ..
  have hlength : intOffset + 2 ≤ (pintPacket ⟨.pint, 3⟩).length := by
    rw [pintPacket, length_dataPacket]
    decide
  rw [matches_iff_of_unsized hudp hlength rfl (by decide), not_not]
  exact ⟨rfl, by decide, 7, rfl, by decide +kernel⟩

end Paraleon.Wire
