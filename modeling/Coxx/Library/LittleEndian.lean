import Mathlib.Algebra.Group.Nat.Defs
import Mathlib.Algebra.Ring.Int.Defs

/-! Fixed-width little-endian words. -/

set_option autoImplicit false

namespace Coxx.Library

/-- The low bytes of a number, the least significant first. -/
def encode : Nat → Nat → List UInt8
  | 0, _ => []
  | width + 1, value => UInt8.ofNat value :: encode width (value / 256)

def decode : List UInt8 → Nat
  | [] => 0
  | byte :: bytes => byte.toNat + 256 * decode bytes

@[simp] theorem length_encode (width value : Nat) : (encode width value).length = width := by
  induction width generalizing value with
  | zero => rfl
  | succ width ih => simp [encode, ih]

theorem decode_encode_mod (width value : Nat) : decode (encode width value) = value % 256 ^ width := by
  induction width generalizing value with
  | zero => simp [encode, decode, Nat.mod_one]
  | succ width ih =>
      rw [encode, decode, ih, UInt8.toNat_ofNat', show 256 ^ (width + 1) = 256 * 256 ^ width from Nat.pow_succ']
      exact Nat.mod_mul.symm

theorem decode_encode {width value : Nat} (fits : value < 256 ^ width) : decode (encode width value) = value := by
  rw [decode_encode_mod, Nat.mod_eq_of_lt fits]

theorem encode_mod (width value : Nat) : encode width (value % 256 ^ width) = encode width value := by
  induction width generalizing value with
  | zero => rfl
  | succ width ih =>
      have first : value % 256 ^ (width + 1) % 256 = value % 256 :=
        Nat.mod_mod_of_dvd value ⟨256 ^ width, Nat.pow_succ'⟩
      have rest : value % 256 ^ (width + 1) / 256 = value / 256 % 256 ^ width := by
        rw [Nat.pow_succ, Nat.mul_comm, Nat.mod_mul_right_div_self]
      rw [encode, encode, rest, ih]
      congr 1
      rw [← UInt8.toNat_inj, UInt8.toNat_ofNat', UInt8.toNat_ofNat']
      exact first

theorem encode_injective {width left right : Nat} (fitsL : left < 256 ^ width) (fitsR : right < 256 ^ width)
    (same : encode width left = encode width right) : left = right := by
  rw [← decode_encode fitsL, same, decode_encode fitsR]

theorem decode_lt (bytes : List UInt8) : decode bytes < 256 ^ bytes.length := by
  induction bytes with
  | nil => simp [decode]
  | cons byte bytes ih =>
      have low := byte.toNat_lt
      rw [decode, List.length_cons, Nat.pow_succ]
      omega

theorem encode_decode (bytes : List UInt8) : encode bytes.length (decode bytes) = bytes := by
  induction bytes with
  | nil => rfl
  | cons byte bytes ih =>
      have low := byte.toNat_lt
      have rest : (byte.toNat + 256 * decode bytes) / 256 = decode bytes := by omega
      rw [decode, List.length_cons, encode, rest, ih]
      congr 1
      rw [← UInt8.toNat_inj, UInt8.toNat_ofNat']
      omega

end Coxx.Library
