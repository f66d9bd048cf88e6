import Mathlib.Algebra.Order.Ring.Nat
import Mathlib.Tactic.Common

/-!
# Words from bytes

A word is read from bytes by pushing them in from the right, the most significant first.
-/

namespace Machine

def pushByte (v : UInt32) (byte : UInt8) : UInt32 := (v <<< 8) ||| byte.toUInt32

/-- The bytes of a word, the most significant first. -/
def bigEndian (w : UInt32) : List UInt8 :=
  [(w >>> 24).toUInt8, (w >>> 16).toUInt8, (w >>> 8).toUInt8, w.toUInt8]

theorem pushByte_toNat (v : UInt32) (byte : UInt8) :
    (pushByte v byte).toNat = v.toNat * 256 % 2 ^ 32 + byte.toNat := by
  have hshift : (v <<< 8).toNat = v.toNat % 2 ^ 24 * 256 := by
    rw [UInt32.toNat_shiftLeft, Nat.shiftLeft_eq]
    change v.toNat * 2 ^ 8 % 2 ^ 32 = _
    omega
  have hor : v.toNat % 2 ^ 24 * 256 ||| byte.toNat = v.toNat % 2 ^ 24 * 256 + byte.toNat := by
    rw [Nat.mul_comm]
    exact (Nat.two_pow_add_eq_or_of_lt (i := 8) byte.toNat_lt _).symm
  rw [pushByte, UInt32.toNat_or, hshift, UInt8.toNat_toUInt32, hor]
  omega

/-- The bytes of a word give the word back. -/
theorem foldl_bigEndian (w : UInt32) :
    (bigEndian w).foldl pushByte 0 = w := by
  have hw := w.toNat_lt
  rw [← UInt32.toNat_inj]
  simp only [bigEndian, List.foldl_cons, List.foldl_nil, pushByte_toNat,
    UInt32.toNat_toUInt8, UInt32.toNat_shiftRight, Nat.shiftRight_eq_div_pow]
  change (((0 * 256 % 2 ^ 32 + w.toNat / 2 ^ 24 % 2 ^ 8) * 256 % 2 ^ 32 +
    w.toNat / 2 ^ 16 % 2 ^ 8) * 256 % 2 ^ 32 + w.toNat / 2 ^ 8 % 2 ^ 8) * 256 % 2 ^ 32 +
      w.toNat % 2 ^ 8 = w.toNat
  omega

end Machine
