import Mathlib.Data.FinEnum
import Paraleon.Library.Mixing
import Paraleon.Switch.Node

/-!
# Which packets take the same path

`GetOutDev` hashes the addresses and the ports of a packet. The third word of its key is a
union that no branch fills in for a CNP.

* `ecmpHash_surjective`: the hash loses nothing of the third word, so what the stack holds
  there chooses any value of the hash.
* `pathStable_iff`: the interface is a function of the table and of what the hash is meant
  to cover, except for CNPs with a choice of next hops.
-/

namespace Paraleon.Switch

open Function Mixing

/-- What a host sends through switches: data, ACKs, NACKs and the CNPs of
`SendDcqcnPlusReceiverCnp`. -/
inductive PacketKind where
  | data
  | ack
  | nack
  | cnp
deriving DecidableEq, Repr

def PacketKind.l3Prot : PacketKind → UInt8
  | .data => 0x11
  | .ack => 0xFC
  | .nack => 0xFD
  | .cnp => 0xFF

/-- `p` as a packet of the given kind. -/
def PacketKind.packet (k : PacketKind) (p : Packet) : Packet := { p with l3Prot := k.l3Prot }

/-- The fields that the key of the hash is made of: the addresses, and the ports where the
header has some. -/
def PacketKind.hashedFields (k : PacketKind) (p : Packet) :
    UInt32 × UInt32 × Option (UInt16 × UInt16) :=
  (p.sip, p.dip, if k = .cnp then none else some (p.sport, p.dport))

namespace SwitchNode

/-! ## The hash -/

theorem shiftAdd_injective : Injective fun h : UInt32 => h + ((h <<< 2) + 0xe6546b64) := by
  have heq (h : UInt32) : h + ((h <<< 2) + 0xe6546b64) = h * 5 + 0xe6546b64 := by
    have hshift : h <<< 2 = h * 4 :=
      UInt32.toBitVec_inj.mp (BitVec.shiftLeft_eq_mul_twoPow h.toBitVec 2)
    rw [hshift]
    grind
  intro x y h
  have hmul : x * 5 = y * 5 := by
    simp only [heq] at h
    exact (UInt32.add_left_inj _).mp h
  exact mul_injective (d := 0xcccccccd) (by decide) hmul

theorem ecmpMix_injective (h : UInt32) : Injective (ecmpMix h) :=
  have hproduct : Injective fun k : UInt32 => k * 0xcc9e2d51 :=
    mul_injective (d := 0xdee13bb1) (by decide)
  have hrotate : Injective fun k : UInt32 => (k <<< 15) ||| (k >>> 17) :=
    rotate_injective rfl (by decide) (by decide)
  have hproduct' : Injective fun k : UInt32 => k * 0x1b873593 :=
    mul_injective (d := 0x56ed309b) (by decide)
  have hrotate' : Injective fun h : UInt32 => (h <<< 13) ||| (h >>> 19) :=
    rotate_injective rfl (by decide) (by decide)
  shiftAdd_injective.comp <| hrotate'.comp <| (xor_injective h).comp <| hproduct'.comp <|
    hrotate.comp hproduct

theorem ecmpHash_injective (sip dip seed : UInt32) :
    Injective fun word => ecmpHash [sip, dip, word] seed :=
  have hlen : Injective fun h : UInt32 => h ^^^ 12 := fun x y hxy => by simpa using hxy
  have hshift : Injective fun h : UInt32 => h ^^^ (h >>> 16) := xorShift_injective (by decide)
  have hproduct : Injective fun h : UInt32 => h * 0x85ebca6b :=
    mul_injective (d := 0xa5cb9243) (by decide)
  have hshift' : Injective fun h : UInt32 => h ^^^ (h >>> 13) := xorShift_injective (by decide)
  have hproduct' : Injective fun h : UInt32 => h * 0xc2b2ae35 :=
    mul_injective (d := 0x7ed1b41d) (by decide)
  hshift.comp <| hproduct'.comp <| hshift'.comp <| hproduct.comp <| hshift.comp <|
    hlen.comp (ecmpMix_injective _)

/-- The third word of the key makes the hash anything. -/
theorem ecmpHash_surjective (sip dip seed : UInt32) :
    Surjective fun word => ecmpHash [sip, dip, word] seed :=
  Finite.surjective_of_injective (ecmpHash_injective sip dip seed)

/-! ## The choice of a next hop -/

/-- Among switches with the same table, packets that agree in the hashed fields leave through
the same interface, whatever else the switches have seen and the stack holds. -/
def PathStable (c : SwitchConfig) (rtTable : UInt32 → List Port) (k : PacketKind) (p : Packet) :
    Prop :=
  ∀ s t : SwitchNode, s.rtTable = rtTable → t.rtTable = rtTable →
    ∀ (k' : PacketKind) (q : Packet) (stale stale' : UInt32),
      k'.hashedFields q = k.hashedFields p →
        t.getOutDev c (k'.packet q) stale' = s.getOutDev c (k.packet p) stale

/-- `m_rtTable[dip]` offers no choice. Positions from `2 ^ 32` on are out of the reach of a
32-bit index. -/
def OneNextHop (rtTable : UInt32 → List Port) (dip : UInt32) : Prop :=
  ∀ a ∈ (rtTable dip).take (2 ^ 32), ∀ b ∈ (rtTable dip).take (2 ^ 32), a = b

variable {c : SwitchConfig} {rtTable : UInt32 → List Port}

theorem getOutDev_of_ports (s : SwitchNode) {k : PacketKind} (hk : k ≠ .cnp) (p : Packet)
    (stale : UInt32) : s.getOutDev c (k.packet p) stale =
      (s.rtTable p.dip)[(ecmpHash [p.sip, p.dip, p.sport.toUInt32 ||| (p.dport.toUInt32 <<< 16)]
        c.ecmpSeed).toNat % (s.rtTable p.dip).length]? := by
  cases k with
  | data | ack | nack => rfl
  | cnp => exact absurd rfl hk

theorem getOutDev_cnp (s : SwitchNode) (p : Packet) (stale : UInt32) :
    s.getOutDev c (PacketKind.cnp.packet p) stale =
      (s.rtTable p.dip)[(ecmpHash [p.sip, p.dip, stale] c.ecmpSeed).toNat %
        (s.rtTable p.dip).length]? := rfl

/-- Some content of the stack leads a CNP to each next hop. -/
theorem exists_stale (s : SwitchNode) {p : Packet} {a : Port}
    (ha : a ∈ (s.rtTable p.dip).take (2 ^ 32)) :
    ∃ stale, s.getOutDev c (PacketKind.cnp.packet p) stale = some a := by
  obtain ⟨i, hi⟩ := List.mem_iff_getElem?.mp ha
  obtain ⟨hi', -⟩ := List.getElem?_eq_some_iff.mp hi
  have hlt : i < 2 ^ 32 := Nat.lt_of_lt_of_le hi' (List.length_take_le ..)
  have hget : (s.rtTable p.dip)[i]? = some a := by rwa [List.getElem?_take_of_lt hlt] at hi
  obtain ⟨stale, hstale⟩ := ecmpHash_surjective p.sip p.dip c.ecmpSeed (UInt32.ofNat i)
  obtain ⟨hlen, -⟩ := List.getElem?_eq_some_iff.mp hget
  refine ⟨stale, ?_⟩
  have hstale : ecmpHash [p.sip, p.dip, stale] c.ecmpSeed = UInt32.ofNat i := hstale
  rw [getOutDev_cnp, hstale, UInt32.toNat_ofNat_of_lt' hlt, Nat.mod_eq_of_lt hlen, hget]

/-- With next hops, a CNP leaves through one that a 32-bit index reaches. -/
theorem exists_getOutDev_cnp (s : SwitchNode) {p : Packet} (h : s.rtTable p.dip ≠ [])
    (stale : UInt32) : ∃ a ∈ (s.rtTable p.dip).take (2 ^ 32),
      s.getOutDev c (PacketKind.cnp.packet p) stale = some a := by
  have hpos := List.length_pos_iff.mpr h
  have hmod := Nat.mod_lt (ecmpHash [p.sip, p.dip, stale] c.ecmpSeed).toNat hpos
  have hle := Nat.mod_le (ecmpHash [p.sip, p.dip, stale] c.ecmpSeed).toNat (s.rtTable p.dip).length
  have hlt := (ecmpHash [p.sip, p.dip, stale] c.ecmpSeed).toNat_lt
  have hget := List.getElem?_eq_getElem hmod
  refine ⟨_, ?_, (getOutDev_cnp s p stale).trans hget⟩
  rw [← List.getElem?_take_of_lt (Nat.lt_of_le_of_lt hle hlt)] at hget
  exact List.mem_of_getElem? hget

/-- Data, ACKs and NACKs keep to their path. So do CNPs without a choice of next hops, and
no others. -/
theorem pathStable_iff (c : SwitchConfig) (rtTable : UInt32 → List Port) (k : PacketKind)
    (p : Packet) : PathStable c rtTable k p ↔ k ≠ .cnp ∨ OneNextHop rtTable p.dip := by
  constructor
  · intro hstable
    rcases eq_or_ne k .cnp with rfl | hk
    · refine .inr fun a ha b hb => ?_
      -- for two next hops there are two contents of the memory that choose them
      obtain ⟨stale, hstale⟩ := exists_stale (c := c) (create rtTable) ha
      obtain ⟨stale', hstale'⟩ := exists_stale (c := c) (create rtTable) hb
      have heq := hstable (create rtTable) (create rtTable) rfl rfl .cnp p stale stale' rfl
      rw [hstale, hstale'] at heq
      exact (Option.some.inj heq).symm
    · exact .inl hk
  · rintro h s t rfl ht k' q stale stale' hfields
    simp only [PacketKind.hashedFields, Prod.mk.injEq] at hfields
    obtain ⟨hsip, hdip, hports⟩ := hfields
    by_cases hk : k = .cnp
    -- only a CNP has no ports to hash
    · obtain rfl : k' = .cnp := by
        by_contra hk'
        simp [hk, hk'] at hports
      subst hk
      have hone := h.resolve_left (by simp)
      by_cases hempty : s.rtTable p.dip = []
      · rw [getOutDev_cnp, getOutDev_cnp, ht, hdip, hempty, List.getElem?_nil,
          List.getElem?_nil]
      · have hempty' : t.rtTable q.dip ≠ [] := by rwa [ht, hdip]
        obtain ⟨a, ha, hout⟩ := exists_getOutDev_cnp (c := c) s hempty stale
        obtain ⟨b, hb, hout'⟩ := exists_getOutDev_cnp (c := c) t hempty' stale'
        rw [ht, hdip] at hb
        rw [hout, hout', hone a ha b hb]
    · have hk' : k' ≠ .cnp := by
        rintro rfl
        simp [hk] at hports
      simp only [hk, hk', if_false, Option.some.injEq, Prod.mk.injEq] at hports
      rw [getOutDev_of_ports t hk', getOutDev_of_ports s hk, ht, hsip, hdip, hports.1, hports.2]

/-- Switch 64 with two ports towards every host. -/
def twoHopConfig : SwitchConfig :=
  { mmu := .create, ecmpSeed := 64, ackHighPrio := true, pausetime := fun _ => 5,
    qbbEnabled := fun _ => true }

def twoHops : UInt32 → List Port := fun _ => [1, 2]

/-- A CNP from host 1 to host 2 leaves through either port. -/
theorem cnp_takes_both_paths :
    let p : Packet := { size := 60, sip := 0x0b000101, dip := 0x0b000201 }
    (create twoHops).getOutDev twoHopConfig (PacketKind.cnp.packet p) 0 = some 1 ∧
      (create twoHops).getOutDev twoHopConfig (PacketKind.cnp.packet p) 3 = some 2 ∧
      ¬ PathStable twoHopConfig twoHops .cnp p := by
  intro p
  have hfirst : (create twoHops).getOutDev twoHopConfig (PacketKind.cnp.packet p) 0 = some 1 := by
    decide
  have hsecond : (create twoHops).getOutDev twoHopConfig (PacketKind.cnp.packet p) 3 = some 2 := by
    decide
  refine ⟨hfirst, hsecond, fun hstable => ?_⟩
  have heq := hstable (create twoHops) (create twoHops) rfl rfl .cnp p 0 3 rfl
  rw [hfirst, hsecond] at heq
  exact absurd heq (by decide)

end SwitchNode

end Paraleon.Switch
