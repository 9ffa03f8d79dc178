import Mathlib.Logic.Function.Basic

/-!
# Steps of mixing functions

The steps that non-cryptographic hashes apply to a word: the product with an odd number,
the exclusive or with another word, rotations and xor-shifts. Each of them loses nothing.
-/

namespace Mixing

open Function

/-- `d` is the inverse of `c` modulo `2 ^ 32`. -/
theorem mul_injective {c d : UInt32} (h : c * d = 1) : Injective fun x : UInt32 => x * c := by
  intro x y hxy
  have hxy : x * c = y * c := hxy
  calc x = x * c * d := by rw [UInt32.mul_assoc, h, UInt32.mul_one]
    _ = y * c * d := by rw [hxy]
    _ = y := by rw [UInt32.mul_assoc, h, UInt32.mul_one]

theorem xor_injective (a : UInt32) : Injective fun x : UInt32 => a ^^^ x := fun x y hxy => by
  simpa using hxy

theorem getLsbD_rotate (x : BitVec 32) {r i : Nat} (hr : r < 32) (hi : i < 32) :
    ((x <<< r) ||| (x >>> (32 - r))).getLsbD ((i + r) % 32) = x.getLsbD i := by
  rw [BitVec.getLsbD_or, BitVec.getLsbD_shiftLeft, BitVec.getLsbD_ushiftRight]
  rcases Nat.lt_or_ge (i + r) 32 with hlt | hge
  · rw [Nat.mod_eq_of_lt hlt]
    have hout : x.getLsbD (32 - r + (i + r)) = false := BitVec.getLsbD_of_ge _ _ (by omega)
    simp [hlt, hout]
  · have hmod : (i + r) % 32 = i + r - 32 := by omega
    rw [hmod]
    have hlow : i + r - 32 < r := by omega
    have hback : 32 - r + (i + r - 32) = i := by omega
    simp [hlow, hback]

theorem rotate_injective {r s : UInt32} (h : r.toNat + s.toNat = 32) (hr : 0 < r.toNat)
    (hs : 0 < s.toNat) : Injective fun x : UInt32 => (x <<< r) ||| (x >>> s) := by
  intro x y hxy
  have hr' : r.toNat % 32 = r.toNat := Nat.mod_eq_of_lt (by omega)
  have hs' : s.toNat % 32 = 32 - r.toNat := by omega
  have hbits : (x.toBitVec <<< r.toNat) ||| (x.toBitVec >>> (32 - r.toNat)) =
      (y.toBitVec <<< r.toNat) ||| (y.toBitVec >>> (32 - r.toNat)) := by
    simpa [BitVec.shiftLeft_eq', BitVec.ushiftRight_eq', hr', hs'] using
      congrArg UInt32.toBitVec hxy
  refine UInt32.toBitVec_inj.mp (BitVec.eq_of_getLsbD_eq fun i hi => ?_)
  rw [← getLsbD_rotate x.toBitVec (by omega : r.toNat < 32) hi,
    ← getLsbD_rotate y.toBitVec (by omega : r.toNat < 32) hi, hbits]

/-- The bits are equal from the top on: each one is determined by those above it. -/
theorem eq_of_xorShift {w s : Nat} (hs : 0 < s) {x y : BitVec w}
    (hxy : x ^^^ (x >>> s) = y ^^^ (y >>> s)) : x = y := by
  have hbit (i : Nat) :
      (x.getLsbD i ^^ x.getLsbD (s + i)) = (y.getLsbD i ^^ y.getLsbD (s + i)) := by
    have h := congrArg (·.getLsbD i) hxy
    simpa [BitVec.getLsbD_xor, BitVec.getLsbD_ushiftRight] using h
  suffices h : ∀ n i, w ≤ i + n → x.getLsbD i = y.getLsbD i from
    BitVec.eq_of_getLsbD_eq fun i _ => h w i (Nat.le_add_left w i)
  intro n
  induction n with
  | zero =>
    intro i hi
    rw [BitVec.getLsbD_of_ge x i hi, BitVec.getLsbD_of_ge y i hi]
  | succ n ih =>
    intro i hi
    have hhigh := ih (s + i) (by omega)
    have h := hbit i
    rw [hhigh] at h
    exact Bool.xor_left_inj.mp h

theorem xorShift_injective {s : UInt32} (hs : s.toNat % 32 ≠ 0) :
    Injective fun x : UInt32 => x ^^^ (x >>> s) := by
  intro x y hxy
  have hbits := congrArg UInt32.toBitVec hxy
  refine UInt32.toBitVec_inj.mp (eq_of_xorShift (Nat.pos_of_ne_zero hs) ?_)
  simpa [BitVec.ushiftRight_eq'] using hbits

end Mixing
