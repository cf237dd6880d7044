import Mathlib.Algebra.Order.Group.Int
import Mathlib.Tactic.NormNum
import Mathlib.Tactic.Ring

/-!
# Big-endian integers of a fixed width

`toBytes w n` is the `w`-byte big-endian form of `n` modulo `256 ^ w`, `ofBytes` reads one back.
`encodeInt` and `decodeInt` are the two's complement forms for integers of either sign.
-/

namespace BigEndian

def toBytes : Nat → Nat → List UInt8
  | 0, _ => []
  | w + 1, n => UInt8.ofNat (n / 256 ^ w) :: toBytes w n

def ofBytes : List UInt8 → Nat
  | [] => 0
  | b :: bs => b.toNat * 256 ^ bs.length + ofBytes bs

/-- Two's complement, also the unsigned form when `0 ≤ n`. -/
def encodeInt (w : Nat) (n : Int) : List UInt8 := toBytes w (n % 256 ^ w).toNat

/-- The value of the bytes as a signed integer. -/
def decodeInt (bs : List UInt8) : Int := Int.bmod (ofBytes bs) (256 ^ bs.length)

@[simp] theorem length_toBytes (w n : Nat) : (toBytes w n).length = w := by
  induction w with
  | zero => rfl
  | succ w ih => simp only [toBytes, List.length_cons, ih]

@[simp] theorem length_encodeInt (w : Nat) (n : Int) : (encodeInt w n).length = w :=
  length_toBytes w _

theorem ofBytes_toBytes (w n : Nat) : ofBytes (toBytes w n) = n % 256 ^ w := by
  induction w with
  | zero => simp only [toBytes, ofBytes, pow_zero, Nat.mod_one]
  | succ w ih =>
    have hbyte : (UInt8.ofNat (n / 256 ^ w)).toNat = n / 256 ^ w % 256 := by simp
    simp only [toBytes, ofBytes, length_toBytes, ih, hbyte]
    rw [pow_succ, Nat.mod_mul, Nat.mul_comm, Nat.add_comm]

theorem ofBytes_lt (bs : List UInt8) : ofBytes bs < 256 ^ bs.length := by
  induction bs with
  | nil => exact Nat.one_pos
  | cons b bs ih =>
    have hbyte : b.toNat < 256 := b.toNat_lt
    have hmul : b.toNat * 256 ^ bs.length ≤ 255 * 256 ^ bs.length :=
      Nat.mul_le_mul_right _ (by omega)
    rw [ofBytes, List.length_cons, pow_succ]
    omega

private theorem toNat_lt_pow {w : Nat} {n : Int} (h0 : 0 ≤ n) (h : n < 256 ^ w) :
    n.toNat < 256 ^ w := by
  have hcast : (n.toNat : Int) < ((256 ^ w : Nat) : Int) := by
    rw [Int.toNat_of_nonneg h0]
    exact_mod_cast h
  exact_mod_cast hcast

/-- The bytes of `n`, read as an unsigned integer. -/
theorem ofBytes_encodeInt_emod (w : Nat) (n : Int) :
    (ofBytes (encodeInt w n) : Int) = n % 256 ^ w := by
  have hpos : (0 : Int) < 256 ^ w := by positivity
  have h0 : 0 ≤ n % 256 ^ w := Int.emod_nonneg n hpos.ne'
  have hlt : (n % 256 ^ w).toNat < 256 ^ w := toNat_lt_pow h0 (Int.emod_lt_of_pos n hpos)
  rw [encodeInt, ofBytes_toBytes, Nat.mod_eq_of_lt hlt, Int.toNat_of_nonneg h0]

theorem ofBytes_encodeInt {w : Nat} {n : Int} (h0 : 0 ≤ n) (h : n < 256 ^ w) :
    (ofBytes (encodeInt w n) : Int) = n := by
  rw [ofBytes_encodeInt_emod, Int.emod_eq_of_lt h0 h]

theorem decodeInt_encodeInt {w : Nat} {n : Int} (hl : -(256 ^ w) ≤ 2 * n)
    (hr : 2 * n < 256 ^ w) : decodeInt (encodeInt w n) = n := by
  have hmod : (n % 256 ^ w).bmod (256 ^ w) = n.bmod (256 ^ w) := by
    have := @Int.emod_bmod n (256 ^ w)
    simpa using this
  rw [decodeInt, ofBytes_encodeInt_emod, length_encodeInt, hmod]
  exact Int.bmod_eq_of_le_mul_two (by push_cast; omega) (by push_cast; omega)

end BigEndian
