import Luaw.Bytes
import Luaw.Foundations.BinaryFloat
import Mathlib.Data.Nat.Digits.Defs

/-!
# Lua numbers as text

A Lua number is a double. `numberToString` is Lua's conversion with the format `%.14g`,
`stringToNumber` its conversion back (`strtod` with optional blanks around the numeral).
-/

namespace Luaw.Lua

abbrev Number := BinaryFloat.Value

open BinaryFloat

/-- The decimal digits of a natural number. -/
def decimal (n : Nat) : Bytes := (Nat.toDigits 10 n).map fun c => c.toNat.toUInt8

theorem digit_range {n : Nat} {c : Char} (h : c ∈ Nat.toDigits 10 n) :
    48 ≤ c.toNat ∧ c.toNat ≤ 57 := by
  have hdigit := Nat.isDigit_of_mem_toDigits (by decide) (by decide) h
  rw [Char.isDigit, Bool.and_eq_true, decide_eq_true_eq, decide_eq_true_eq] at hdigit
  exact hdigit

theorem digit_of_mem_decimal {n : Nat} {b : UInt8} (h : b ∈ decimal n) : 48 ≤ b ∧ b ≤ 57 := by
  obtain ⟨c, hc, rfl⟩ := List.mem_map.mp h
  have hdigit := digit_range hc
  have hnat : c.toNat.toUInt8.toNat = c.toNat := Nat.mod_eq_of_lt (by omega)
  rw [UInt8.le_iff_toNat_le, UInt8.le_iff_toNat_le, hnat]
  exact hdigit

/-- The characters of the digits. -/
theorem map_decimal (n : Nat) :
    (decimal n).map (fun b => Char.ofNat b.toNat) = Nat.toDigits 10 n := by
  rw [decimal, List.map_map]
  refine (List.map_congr_left fun c hc => ?_).trans (List.map_id _)
  have hdigit := digit_range hc
  have hnat : c.toNat.toUInt8.toNat = c.toNat := Nat.mod_eq_of_lt (by omega)
  show Char.ofNat c.toNat.toUInt8.toNat = c
  rw [hnat, Char.ofNat_toNat]

theorem decimal_injective {n n' : Nat} (h : decimal n = decimal n') : n = n' := by
  have hdigits : Nat.toDigits 10 n = Nat.toDigits 10 n' := by
    rw [← map_decimal, h, map_decimal]
  rw [← Nat.ofDigitChars_ten_toDigits (n := n), hdigits, Nat.ofDigitChars_ten_toDigits]

theorem length_decimal_mono {n n' : Nat} (h : n ≤ n') :
    (decimal n).length ≤ (decimal n').length := by
  rw [decimal, decimal, List.length_map, List.length_map,
    Nat.length_toDigits_le_iff (by decide) Nat.length_toDigits_pos]
  exact Nat.lt_of_le_of_lt h
    ((Nat.length_toDigits_le_iff (by decide) Nat.length_toDigits_pos).mp (Nat.le_refl _))

/-- The exponent `e` with `10 ^ e ≤ q < 10 ^ (e + 1)`, for positive `q`. -/
def decimalExponent (q : ℚ) : Int :=
  let e := ((decimal q.num.natAbs).length : Int) - (decimal q.den).length
  if (10 : ℚ) ^ e ≤ q then e else e - 1

def stripTrailingZeros (digits : Bytes) : Bytes :=
  (digits.reverse.dropWhile (· = 48)).reverse

/-- A point and the digits after it, nothing when there are none left. -/
def fraction (digits : Bytes) : Bytes :=
  match stripTrailingZeros digits with
  | [] => []
  | ds => 46 :: ds

/-- `%.14g` of a positive number. -/
def formatPositive (q : ℚ) : Bytes :=
  let e₀ := decimalExponent q
  let scaled := q * (10 : ℚ) ^ (13 - e₀)
  let m₀ := roundHalfEven scaled.num.toNat scaled.den
  -- rounding up can add a digit
  let (m, e) := if m₀ = 10 ^ 14 then (10 ^ 13, e₀ + 1) else (m₀, e₀)
  let digits := decimal m
  if 0 ≤ e ∧ e < 14 then digits.take (e.toNat + 1) ++ fraction (digits.drop (e.toNat + 1))
  else if -4 ≤ e ∧ e < 0 then
    text "0." ++ List.replicate (-e - 1).toNat 48 ++ stripTrailingZeros digits
  else
    let exponent := decimal e.natAbs
    digits.take 1 ++ fraction (digits.drop 1) ++ text (if e < 0 then "e-" else "e+") ++
      List.replicate (2 - exponent.length) 48 ++ exponent

def numberToString : Number → Bytes
  | .finite q => if q = 0 then text "0" else if q < 0 then 45 :: formatPositive (-q)
    else formatPositive q
  | .infinite negative => text (if negative then "-inf" else "inf")
  | .nan => text "nan"

def isSpace (b : UInt8) : Bool := b = 32 || (9 ≤ b && b ≤ 13)

/-- The value of a digit, as far as it has one in the base. -/
def digitValue? (base : Nat) (b : UInt8) : Option Nat :=
  let v :=
    if 48 ≤ b ∧ b ≤ 57 then b.toNat - 48
    else if 97 ≤ b ∧ b ≤ 122 then b.toNat - 87
    else if 65 ≤ b ∧ b ≤ 90 then b.toNat - 55
    else base
  if v < base then some v else none

/-- The digits at the start of a string and what follows them. -/
def takeDigits (base : Nat) : Bytes → List Nat × Bytes
  | [] => ([], [])
  | b :: bs =>
    match digitValue? base b with
    | none => ([], b :: bs)
    | some d => let (ds, rest) := takeDigits base bs; (d :: ds, rest)

def takeSign : Bytes → Bool × Bytes
  | 45 :: bs => (true, bs)
  | 43 :: bs => (false, bs)
  | bs => (false, bs)

/-- The exponent part after one of the given letters; without digits it is no exponent. -/
def takeExponent (letters : List UInt8) : Bytes → Int × Bytes
  | [] => (0, [])
  | b :: bs =>
    if b ∈ letters then
      let (negative, rest) := takeSign bs
      match takeDigits 10 rest with
      | ([], _) => (0, b :: bs)
      | (ds, rest) =>
        let n : Int := Nat.ofDigits 10 ds.reverse
        (if negative then -n else n, rest)
    else (0, b :: bs)

/-- An unsigned numeral at the start of a string. -/
def takeNumeral (base : Nat) (exponentBase : ℚ) (letters : List UInt8) (s : Bytes) :
    Option (ℚ × Bytes) :=
  let (whole, rest) := takeDigits base s
  let (decimals, rest) := match rest with
    | 46 :: rest => takeDigits base rest
    | rest => ([], rest)
  if whole = [] ∧ decimals = [] then none
  else
    let (e, rest) := takeExponent letters rest
    let mantissa : ℚ := Nat.ofDigits base (whole ++ decimals).reverse
    some (mantissa / (base : ℚ) ^ decimals.length * exponentBase ^ e, rest)

def stringToNumber (s : Bytes) : Option Number :=
  let (negative, s) := takeSign (s.dropWhile isSpace)
  let numeral := match s with
    | 48 :: 120 :: hex | 48 :: 88 :: hex => takeNumeral 16 2 [112, 80] hex
    | s => takeNumeral 10 10 [101, 69] s
  match numeral with
  | some (q, rest) =>
    if rest.all isSpace then
      some (decode double (encode double (.finite (if negative then -q else q))))
    else none
  | none => none

end Luaw.Lua
