import Mathlib.Data.Nat.ModEq
import Mathlib.Tactic.NormNum

/-!
# Words as bytes

A word of `w` bytes is written with the least significant byte first, or in reverse
with the most significant byte first. A reader takes a word from the front of a buffer
and gives what is left of it; `none` means that the buffer is too short.

`readLE_writeLE` and `readBE_writeBE` say that a word is read as it was written.
-/

namespace Bytes

/-- The `w` bytes of `n`, the least significant first. -/
def writeLE : Nat → Nat → List UInt8
  | 0, _ => []
  | w + 1, n => UInt8.ofNat n :: writeLE w (n / 256)

/-- The `w` bytes of `n`, the most significant first. -/
def writeBE (w n : Nat) : List UInt8 := (writeLE w n).reverse

/-- The number with these bytes, the least significant first. -/
def ofBytes : List UInt8 → Nat
  | [] => 0
  | b :: bs => b.toNat + 256 * ofBytes bs

def readBytes (w : Nat) (bs : List UInt8) : Option (List UInt8 × List UInt8) :=
  if w ≤ bs.length then some (bs.take w, bs.drop w) else none

def readLE (w : Nat) (bs : List UInt8) : Option (Nat × List UInt8) :=
  (readBytes w bs).map (Prod.map ofBytes id)

def readBE (w : Nat) (bs : List UInt8) : Option (Nat × List UInt8) :=
  (readBytes w bs).map (Prod.map (fun word => ofBytes word.reverse) id)

variable {w n : Nat} {bs rest : List UInt8}

@[simp] theorem length_writeLE (w n : Nat) : (writeLE w n).length = w := by
  induction w generalizing n with
  | zero => rfl
  | succ w ih => rw [writeLE, List.length_cons, ih]

@[simp] theorem length_writeBE (w n : Nat) : (writeBE w n).length = w := by
  rw [writeBE, List.length_reverse, length_writeLE]

theorem ofBytes_writeLE (w n : Nat) : ofBytes (writeLE w n) = n % 256 ^ w := by
  induction w generalizing n with
  | zero => rw [writeLE, ofBytes, pow_zero, Nat.mod_one]
  | succ w ih =>
    have hsplit : n % 256 ^ (w + 1) = n % 256 + 256 * (n / 256 % 256 ^ w) := by
      rw [pow_succ', Nat.mod_mul]
    rw [writeLE, ofBytes, ih, UInt8.toNat_ofNat', hsplit]

/-- The bytes of the number that they are. -/
theorem writeLE_ofBytes (bs : List UInt8) : writeLE bs.length (ofBytes bs) = bs := by
  induction bs with
  | nil => rfl
  | cons b bs ih =>
    have hb : b.toNat < 256 := b.toNat_lt
    have hlow : (b.toNat + 256 * ofBytes bs) % 256 = b.toNat := by omega
    have hhigh : (b.toNat + 256 * ofBytes bs) / 256 = ofBytes bs := by omega
    have hbyte : UInt8.ofNat (b.toNat + 256 * ofBytes bs) = b := by
      rw [← UInt8.toNat_inj, UInt8.toNat_ofNat']
      exact hlow
    rw [List.length_cons, ofBytes, writeLE, hbyte, hhigh, ih]

theorem ofBytes_lt (bs : List UInt8) : ofBytes bs < 256 ^ bs.length := by
  have h := ofBytes_writeLE bs.length (ofBytes bs)
  rw [writeLE_ofBytes] at h
  rw [h]
  exact Nat.mod_lt _ (Nat.pow_pos (by decide))

theorem readBytes_append (h : bs.length = w) : readBytes w (bs ++ rest) = some (bs, rest) := by
  subst h
  rw [readBytes, if_pos (by simp), List.take_left, List.drop_left]

/-- A word that fits its width is read as it was written. -/
theorem readLE_writeLE (h : n < 256 ^ w) : readLE w (writeLE w n ++ rest) = some (n, rest) := by
  rw [readLE, readBytes_append (length_writeLE w n), Option.map_some, Prod.map_apply,
    ofBytes_writeLE, Nat.mod_eq_of_lt h, id]

theorem readBE_writeBE (h : n < 256 ^ w) : readBE w (writeBE w n ++ rest) = some (n, rest) := by
  rw [readBE, readBytes_append (length_writeBE w n), Option.map_some, Prod.map_apply, writeBE,
    List.reverse_reverse, ofBytes_writeLE, Nat.mod_eq_of_lt h, id]

end Bytes
