/-
# Values as bytes

A number of `w` bytes in memory, the least significant byte first: `toBytes w n` are
the bytes of `n`, and `ofBytes` is the number that bytes are.  A value of a fixed width
is a `BitVec` and goes through its number (`encode`, `decode`).
-/

import Mathlib.Tactic.Ring

namespace Lfi
namespace Data

/-- A byte. -/
abbrev Byte := BitVec 8

/-- Bytes in memory or on their way. -/
abbrev Bytes := List Byte

/-- The `w` low bytes of `n`. -/
def toBytes : ℕ → ℕ → Bytes
  | 0, _ => []
  | w + 1, n => BitVec.ofNat 8 n :: toBytes w (n / 256)

/-- The number of these bytes. -/
def ofBytes : Bytes → ℕ
  | [] => 0
  | b :: bs => b.toNat + 256 * ofBytes bs

@[simp] theorem length_toBytes (w n : ℕ) : (toBytes w n).length = w := by
  induction w generalizing n with
  | zero => rfl
  | succ w ih => rw [toBytes, List.length_cons, ih]

/-- Writing keeps what fits. -/
theorem ofBytes_toBytes (w n : ℕ) : ofBytes (toBytes w n) = n % 256 ^ w := by
  induction w generalizing n with
  | zero => rw [toBytes, ofBytes, pow_zero, Nat.mod_one]
  | succ w ih =>
      rw [toBytes, ofBytes, ih, BitVec.toNat_ofNat, pow_succ' 256 w]
      exact Nat.mod_mul.symm

/-- What `w` bytes do not hold is left out. -/
theorem toBytes_mod (w n : ℕ) : toBytes w (n % 256 ^ w) = toBytes w n := by
  induction w generalizing n with
  | zero => rfl
  | succ w ih =>
      have hlow : BitVec.ofNat 8 (n % 256 ^ (w + 1)) = BitVec.ofNat 8 n := by
        refine BitVec.eq_of_toNat_eq ?_
        rw [BitVec.toNat_ofNat, BitVec.toNat_ofNat, pow_succ, Nat.mod_mul_left_mod]
      rw [toBytes, toBytes, hlow, pow_succ', Nat.mod_mul_right_div_self, ih]

/-- A number of `w` bytes is what its bytes are. -/
theorem ofBytes_toBytes_of_lt {w n : ℕ} (h : n < 256 ^ w) : ofBytes (toBytes w n) = n := by
  rw [ofBytes_toBytes, Nat.mod_eq_of_lt h]

/-- The `w` bytes of a value of `8 * w` bits. -/
def encode (w : ℕ) (x : BitVec (8 * w)) : Bytes := toBytes w x.toNat

/-- The value of `8 * w` bits that these bytes are. -/
def decode (w : ℕ) (bs : Bytes) : BitVec (8 * w) := BitVec.ofNat (8 * w) (ofBytes bs)

@[simp] theorem length_encode (w : ℕ) (x : BitVec (8 * w)) : (encode w x).length = w :=
  length_toBytes w _

theorem two_pow_eight_mul (w : ℕ) : 2 ^ (8 * w) = 256 ^ w := by
  rw [pow_mul, show 2 ^ 8 = 256 from rfl]

@[simp] theorem decode_encode (w : ℕ) (x : BitVec (8 * w)) : decode w (encode w x) = x := by
  refine BitVec.eq_of_toNat_eq ?_
  rw [decode, encode, BitVec.toNat_ofNat, ofBytes_toBytes, two_pow_eight_mul, Nat.mod_mod,
    ← two_pow_eight_mul, Nat.mod_eq_of_lt x.isLt]

end Data
end Lfi
