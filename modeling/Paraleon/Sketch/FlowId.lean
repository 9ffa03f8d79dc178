import Mathlib.Tactic.IntervalCases
import Paraleon.Sketch.Marking

/-!
# The identifiers of flows

`GetFlowId` writes the host octets of the two addresses and the destination port one after
the other, without separators, and cuts the number that this text is to 32 bits. The
sketches count by it.

`getFlowId_unique_iff` says which flows are given one identifier: those whose digits are
the same once the borders between the fields are gone, and those whose numbers are a
multiple of 2^32 apart. No flow but that of zeros has the identifier 0 of an empty slot.
-/

namespace Paraleon.Sketch

open Numerals

/-- What `GetFlowId` reads of a packet. -/
structure FlowKey where
  src : UInt8
  dst : UInt8
  dport : UInt16
deriving DecidableEq, Repr

def Packet.flowKey (p : Packet) : FlowKey :=
  { src := (p.sip >>> 8).toUInt8, dst := (p.dip >>> 8).toUInt8, dport := p.dport }

namespace FlowKey

/-- `flowIdStr`. -/
def text (f : FlowKey) : Text :=
  decimal f.src.toNat ++ decimal f.dst.toNat ++ decimal f.dport.toNat

/-- The fields, each in its decimal places. -/
def joined (f : FlowKey) : Nat :=
  (f.src.toNat * 10 ^ (decimal f.dst.toNat).length + f.dst.toNat) *
    10 ^ (decimal f.dport.toNat).length + f.dport.toNat

variable {f g : FlowKey}

theorem number_text (f : FlowKey) : number f.text = f.joined := by
  rw [text, number_append, number_append, number_decimal, number_decimal, number_decimal, joined]

theorem isDigit_of_mem_text {d : Char} (h : d ∈ f.text) : d.isDigit = true := by
  rcases List.mem_append.mp h with h | h
  · rcases List.mem_append.mp h with h | h <;> exact isDigit_of_mem_decimal h
  · exact isDigit_of_mem_decimal h

/-! ## The numbers of flows -/

theorem dst_length (f : FlowKey) : (decimal f.dst.toNat).length ≤ 3 :=
  (Nat.length_toDigits_le_iff (by decide) (by decide)).mpr (f.dst.toNat_lt.trans (by decide))

theorem dport_length (f : FlowKey) : (decimal f.dport.toNat).length ≤ 5 :=
  (Nat.length_toDigits_le_iff (by decide) (by decide)).mpr (f.dport.toNat_lt.trans (by decide))

theorem joined_lt (f : FlowKey) : f.joined < 6 * 2 ^ 32 := by
  have hsrc := f.src.toNat_lt
  have hdst := f.dst.toNat_lt
  have hdport := f.dport.toNat_lt
  have hdst' : 10 ^ (decimal f.dst.toNat).length ≤ 10 ^ 3 :=
    Nat.pow_le_pow_right (by decide) f.dst_length
  have hdport' : 10 ^ (decimal f.dport.toNat).length ≤ 10 ^ 5 :=
    Nat.pow_le_pow_right (by decide) f.dport_length
  calc f.joined
      ≤ (255 * 10 ^ 3 + 255) * 10 ^ 5 + 65535 := by
        unfold joined
        gcongr <;> omega
    _ < 6 * 2 ^ 32 := by decide

/-- A field of three digits is at most 255, and one of five digits at most 65535. No
multiple of 2^32 below `joined_lt` is made of such fields. -/
theorem joined_ne_multiple {k : Nat} (hk : 0 < k) : f.joined ≠ k * 2 ^ 32 := by
  intro h
  have hlt := f.joined_lt
  have hk' : k < 6 := by omega
  have hsrc := f.src.toNat_lt
  have hdst := f.dst.toNat_lt
  have hdport := f.dport.toNat_lt
  have hdstLength := f.dst_length
  have hdportLength := f.dport_length
  unfold joined at h
  generalize (decimal f.dst.toNat).length = m at h hdstLength
  generalize (decimal f.dport.toNat).length = n at h hdportLength
  clear hlt
  interval_cases m <;> interval_cases n <;> interval_cases k <;> omega

theorem joined_eq_zero_iff : f.joined = 0 ↔ f = ⟨0, 0, 0⟩ := by
  constructor
  · intro h
    have hpow (n : Nat) : 10 ^ n ≠ 0 := (Nat.pow_pos (by decide)).ne'
    simp only [joined, Nat.add_eq_zero_iff, Nat.mul_eq_zero, hpow, or_false] at h
    obtain ⟨⟨hsrc, hdst⟩, hdport⟩ := h
    cases f
    simp_all [← UInt8.toNat_inj, ← UInt16.toNat_inj]
  · rintro rfl
    decide

/-! ## Flows with one identifier -/

/-- The digits of both flows are the same when zeros at the front do not count. -/
def SameDigits (f g : FlowKey) : Prop := dropZeros f.text = dropZeros g.text

/-- The number of `f` is that of `g` and some multiple of 2^32. -/
def Wraps (f g : FlowKey) : Prop := ∃ k, 0 < k ∧ k < 6 ∧ f.joined = g.joined + k * 2 ^ 32

def Clash (f g : FlowKey) : Prop := SameDigits f g ∨ Wraps f g ∨ Wraps g f

theorem joined_eq_iff : f.joined = g.joined ↔ SameDigits f g := by
  rw [← number_text, ← number_text]
  exact number_eq_iff (fun _ => isDigit_of_mem_text) fun _ => isDigit_of_mem_text

theorem wraps_iff : Wraps f g ↔ g.joined < f.joined ∧ f.joined % 2 ^ 32 = g.joined % 2 ^ 32 := by
  have hlt := f.joined_lt
  constructor
  · rintro ⟨k, hpos, -, heq⟩
    exact ⟨by omega, by omega⟩
  · rintro ⟨hgt, hmod⟩
    exact ⟨(f.joined - g.joined) / 2 ^ 32, by omega, by omega, by omega⟩

theorem clash_iff : Clash f g ↔ f.joined % 2 ^ 32 = g.joined % 2 ^ 32 := by
  rw [Clash, ← joined_eq_iff, wraps_iff, wraps_iff]
  constructor
  · rintro (heq | ⟨-, hmod⟩ | ⟨-, hmod⟩)
    · rw [heq]
    · exact hmod
    · exact hmod.symm
  · intro hmod
    rcases Nat.lt_trichotomy f.joined g.joined with hlt | heq | hgt
    · exact .inr (.inr ⟨hlt, hmod.symm⟩)
    · exact .inl heq
    · exact .inr (.inl ⟨hgt, hmod⟩)

end FlowKey

theorem octet_toNat (ip : UInt32) :
    ((ip >>> 8) &&& 0xff).toNat = (ip >>> 8).toUInt8.toNat := by
  rw [UInt32.toNat_and, UInt32.toNat_toUInt8]
  exact Nat.and_two_pow_sub_one_eq_mod _ 8

theorem getFlowId_eq (p : Packet) : getFlowId p = UInt32.ofNat p.flowKey.joined := by
  rw [← FlowKey.number_text, getFlowId, octet_toNat, octet_toNat]
  rfl

/-- For every two packets: their flows have different identifiers if and only if neither
their digits clash nor their numbers wrap to one another, and an identifier is 0 for the
flow of zeros only. -/
theorem getFlowId_unique_iff (p q : Packet) :
    (getFlowId p ≠ getFlowId q ↔ ¬FlowKey.Clash p.flowKey q.flowKey) ∧
      (getFlowId p ≠ 0 ↔ p.flowKey ≠ ⟨0, 0, 0⟩) := by
  have hzero (n : Nat) : UInt32.ofNat n = 0 ↔ n % 2 ^ 32 = 0 := UInt32.toNat_inj.symm.trans Iff.rfl
  constructor
  · rw [getFlowId_eq, getFlowId_eq, FlowKey.clash_iff, Ne, ← UInt32.toNat_inj]
    exact Iff.rfl
  · rw [getFlowId_eq, Ne, Ne, ← FlowKey.joined_eq_zero_iff, hzero]
    refine not_congr ⟨fun hmod => ?_, fun h => by rw [h, Nat.zero_mod]⟩
    by_contra hne
    obtain ⟨k, hk⟩ := Nat.dvd_of_mod_eq_zero hmod
    exact p.flowKey.joined_ne_multiple (k := k) (by omega) (by omega)

/-- From host 1 to host 12 and from host 11 to host 2, with the same port. -/
theorem getFlowId_collision :
    getFlowId (.build .data 0x0b000101 0x0b000c01 10000) =
        getFlowId (.build .data 0x0b000b01 0x0b000201 10000) ∧
      (Packet.build .data 0x0b000101 0x0b000c01 10000).flowKey ≠
        (Packet.build .data 0x0b000b01 0x0b000201 10000).flowKey := by
  decide

/-- Two flows whose numbers are 4410010000 and 115042704. -/
example : FlowKey.Wraps ⟨44, 100, 10000⟩ ⟨1, 150, 42704⟩ := ⟨1, by decide, by decide, by decide⟩

end Paraleon.Sketch
