import Mathlib.Algebra.Field.Rat
import Mathlib.Algebra.Order.Ring.Unbundled.Rat
import Mathlib.Data.Nat.Log
import Mathlib.Tactic.NormNum

/-!
# Binary interchange formats

A floating-point number is its exact value: a rational, an infinity or not a number. The two
zeros are one value. `encode` rounds to the nearest representable value, ties to even.
-/

namespace BinaryFloat

inductive Value where
  | finite (q : ℚ)
  | infinite (negative : Bool)
  | nan
  deriving DecidableEq

/-- The number of exponent bits and of stored significand bits. -/
structure Format where
  exponentBits : Nat
  significandBits : Nat

def single : Format := ⟨8, 23⟩
def double : Format := ⟨11, 52⟩

namespace Format

variable (f : Format)

def bias : Int := 2 ^ (f.exponentBits - 1) - 1

/-- The bits of positive infinity. -/
def infinityBits : Nat := (2 ^ f.exponentBits - 1) * 2 ^ f.significandBits

def signBit : Nat := 2 ^ (f.exponentBits + f.significandBits)

end Format

/-- `a / b` rounded to the nearest natural number, ties to even. -/
def roundHalfEven (a b : Nat) : Nat :=
  if 2 * (a % b) < b ∨ (2 * (a % b) = b ∧ a / b % 2 = 0) then a / b else a / b + 1

/-- The exponent `e` with `2 ^ e ≤ q < 2 ^ (e + 1)`, for positive `q`. -/
def binaryExponent (q : ℚ) : Int :=
  let e := (q.num.natAbs.log2 : Int) - q.den.log2
  if (2 : ℚ) ^ e ≤ q then e else e - 1

/-- The bits of a non-negative value; the sign bit is clear. -/
def encodeMagnitude (f : Format) (q : ℚ) : Nat :=
  if q = 0 then 0
  else
    let e := max (binaryExponent q) (1 - f.bias)
    let scaled := q / (2 : ℚ) ^ (e - f.significandBits)
    let significand := roundHalfEven scaled.num.toNat scaled.den
    -- the leading bit of a normal number adds one to the exponent field
    min ((e + f.bias - 1).toNat * 2 ^ f.significandBits + significand) f.infinityBits

def encode (f : Format) : Value → Nat
  | .finite q => if q < 0 then f.signBit + encodeMagnitude f (-q) else encodeMagnitude f q
  | .infinite negative => if negative then f.signBit + f.infinityBits else f.infinityBits
  | .nan => f.infinityBits + 2 ^ (f.significandBits - 1)

def decode (f : Format) (bits : Nat) : Value :=
  let significand := bits % 2 ^ f.significandBits
  let exponent := bits / 2 ^ f.significandBits % 2 ^ f.exponentBits
  let negative := bits / f.signBit % 2 = 1
  if exponent = 2 ^ f.exponentBits - 1 then
    if significand = 0 then .infinite negative else .nan
  else
    let magnitude : ℚ :=
      if exponent = 0 then significand * (2 : ℚ) ^ (1 - f.bias - f.significandBits)
      else (2 ^ f.significandBits + significand) *
        (2 : ℚ) ^ ((exponent : Int) - f.bias - f.significandBits)
    .finite (if negative then -magnitude else magnitude)

/-- A natural number rounded to `p` significant bits. -/
def roundNat (p n : Nat) : Nat :=
  let excess := n.log2 + 1 - p
  roundHalfEven n (2 ^ excess) * 2 ^ excess

/-- The conversion of an integer, for formats whose exponent range it does not exceed. -/
def ofInt (f : Format) (n : Int) : Value :=
  .finite (n.sign * roundNat (f.significandBits + 1) n.natAbs : Int)

theorem roundHalfEven_mul {b : Nat} (hb : 0 < b) (n : Nat) : roundHalfEven (n * b) b = n := by
  have hmod : n * b % b = 0 := Nat.mul_mod_left n b
  rw [roundHalfEven, if_pos (.inl (by omega)), Nat.mul_div_cancel n hb]

/-- A natural number of at most `p` bits, or the next power of two, is not rounded. -/
theorem roundNat_eq_self {p n : Nat} (hp : 0 < p) (h : n ≤ 2 ^ p) : roundNat p n = n := by
  obtain hlt | rfl := Nat.lt_or_eq_of_le h
  · have hexcess : n.log2 + 1 - p = 0 := by
      by_cases hn : n = 0
      · rw [hn, Nat.log2_zero]
        omega
      · have := (Nat.log2_lt hn).mpr hlt
        omega
    simpa [roundNat, hexcess] using roundHalfEven_mul Nat.one_pos n
  · obtain ⟨k, rfl⟩ : ∃ k, p = k + 1 := ⟨p - 1, by omega⟩
    have hexcess : (2 ^ (k + 1)).log2 + 1 - (k + 1) = 1 := by
      rw [Nat.log2_two_pow]
      omega
    rw [roundNat]
    simp only [hexcess, pow_one]
    rw [pow_succ, roundHalfEven_mul Nat.two_pos]

theorem ofInt_eq_self {f : Format} {n : Int} (h : n.natAbs ≤ 2 ^ (f.significandBits + 1)) :
    ofInt f n = .finite n := by
  rw [ofInt, roundNat_eq_self (Nat.succ_pos _) h, Int.sign_mul_natAbs]

end BinaryFloat
