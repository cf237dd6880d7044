import Luaw.Foundations.BinaryFloat
import Mathlib.Tactic.Ring
import Mathlib.Algebra.Order.Field.Power
import Mathlib.Data.Rat.Cast.Order

/-!
# Integers that a binary format represents exactly

An integer with a significand of `p` bits, times a power of two, keeps its value in a format with
`p` significand bits as long as its exponent is in range. No value of the format has more bits.
-/

namespace BinaryFloat

/-- The number is a power of two times one of at most `p` bits. -/
def HasSignificand (p n : Nat) : Prop := ∃ m k, m < 2 ^ p ∧ n = m * 2 ^ k

namespace HasSignificand

variable {p n : Nat}

theorem of_lt (h : n < 2 ^ p) : HasSignificand p n := ⟨n, 0, h, by rw [pow_zero, Nat.mul_one]⟩

theorem excess_dvd (h : HasSignificand p n) : 2 ^ (n.log2 + 1 - p) ∣ n := by
  obtain ⟨m, k, hm, rfl⟩ := h
  by_cases hzero : m * 2 ^ k = 0
  · rw [hzero]
    exact dvd_zero _
  · have hlt : m * 2 ^ k < 2 ^ (p + k) := by
      rw [pow_add]
      exact Nat.mul_lt_mul_of_pos_right hm (Nat.two_pow_pos k)
    have hlog := (Nat.log2_lt hzero).mpr hlt
    have hle : (m * 2 ^ k).log2 + 1 - p ≤ k := by omega
    exact (pow_dvd_pow 2 hle).trans (dvd_mul_left _ _)

theorem roundNat_eq (h : HasSignificand p n) : roundNat p n = n := by
  have hdvd := h.excess_dvd
  rw [roundNat]
  generalize n.log2 + 1 - p = excess at hdvd ⊢
  obtain ⟨c, rfl⟩ := hdvd
  show roundHalfEven (2 ^ excess * c) (2 ^ excess) * 2 ^ excess = 2 ^ excess * c
  rw [Nat.mul_comm (2 ^ excess) c, roundHalfEven_mul (Nat.two_pow_pos excess)]

end HasSignificand

theorem ofInt_eq_of_hasSignificand {f : Format} {n : Int}
    (h : HasSignificand (f.significandBits + 1) n.natAbs) : ofInt f n = .finite n := by
  rw [ofInt, h.roundNat_eq, Int.sign_mul_natAbs]

section Encode

variable {n : Nat}

theorem binaryExponent_nat (hn : n ≠ 0) : binaryExponent (n : ℚ) = n.log2 := by
  have hle : ((2 : ℚ) ^ (n.log2 : Int)) ≤ n := by
    rw [zpow_natCast]
    exact_mod_cast Nat.log2_self_le hn
  have hone : Nat.log2 1 = 0 := by decide
  simp only [binaryExponent, Rat.num_natCast, Rat.den_natCast, Int.natAbs_natCast, hone,
    Nat.cast_zero, sub_zero, if_pos hle]

/-- The significand with its leading bit at the place of the format. -/
theorem exists_scaled {p : Nat} (hn : n ≠ 0) (h : HasSignificand (p + 1) n) :
    ∃ s : Nat, 2 ^ p ≤ s ∧ s < 2 ^ (p + 1) ∧
      (n : ℚ) / (2 : ℚ) ^ ((n.log2 : Int) - p) = s := by
  have hlow := Nat.log2_self_le hn
  have hhigh := Nat.lt_log2_self (n := n)
  by_cases hle : n.log2 ≤ p
  · obtain ⟨d, rfl⟩ := Nat.exists_eq_add_of_le hle
    refine ⟨n * 2 ^ d, ?_, ?_, ?_⟩
    · rw [pow_add]
      exact Nat.mul_le_mul_right _ hlow
    · rw [Nat.add_right_comm, pow_add]
      exact Nat.mul_lt_mul_of_pos_right hhigh (Nat.two_pow_pos d)
    · push_cast
      rw [sub_add_cancel_left, zpow_neg, zpow_natCast, div_inv_eq_mul]
  · obtain ⟨d, hd⟩ := Nat.exists_eq_add_of_le (Nat.le_of_not_le hle)
    have hdvd := h.excess_dvd
    have hexcess : n.log2 + 1 - (p + 1) = d := by omega
    rw [hexcess] at hdvd
    obtain ⟨s, hs⟩ := hdvd
    have hpos := Nat.two_pow_pos d
    rw [hd, hs] at hlow hhigh
    refine ⟨s, ?_, ?_, ?_⟩
    · rw [pow_add, Nat.mul_comm] at hlow
      exact Nat.le_of_mul_le_mul_left hlow hpos
    · rw [Nat.add_right_comm, pow_add, Nat.mul_comm (2 ^ (p + 1))] at hhigh
      exact Nat.lt_of_mul_lt_mul_left hhigh
    · have hexponent : (n.log2 : Int) - p = d := by omega
      rw [hexponent, zpow_natCast, hs]
      push_cast
      exact mul_div_cancel_left₀ _ (by positivity)

/-- The exponent field of a normal number is not the one of the infinities. -/
theorem exponentField_lt {f : Format} {e : Nat} (hbias : 1 ≤ f.bias) (hbound : (e : Int) ≤ f.bias) :
    0 < ((e : Int) + f.bias).toNat ∧ ((e : Int) + f.bias).toNat < 2 ^ f.exponentBits - 1 := by
  have hbits : f.exponentBits ≠ 0 := by
    intro hzero
    rw [Format.bias, hzero] at hbias
    norm_num at hbias
  obtain ⟨k, hk⟩ := Nat.exists_eq_succ_of_ne_zero hbits
  have hdef : f.bias = (2 ^ k : Nat) - 1 := by
    rw [Format.bias, hk]
    push_cast
    rfl
  rw [hk, Nat.pow_succ]
  omega

/-- The fields of the bits of a normal number. -/
theorem encodeMagnitude_nat {f : Format} (hn : n ≠ 0) (hbias : 1 ≤ f.bias)
    (hbound : (n.log2 : Int) ≤ f.bias) (h : HasSignificand (f.significandBits + 1) n) :
    ∃ r, r < 2 ^ f.significandBits ∧
      encodeMagnitude f n = ((n.log2 : Int) + f.bias).toNat * 2 ^ f.significandBits + r ∧
      (n : ℚ) = (2 ^ f.significandBits + r : Nat) *
        (2 : ℚ) ^ ((n.log2 : Int) - f.significandBits) := by
  obtain ⟨s, hlow, hhigh, hscaled⟩ := exists_scaled hn h
  have hne : (n : ℚ) ≠ 0 := Nat.cast_ne_zero.mpr hn
  have hmax : max (binaryExponent (n : ℚ)) (1 - f.bias) = n.log2 := by
    rw [binaryExponent_nat hn]
    omega
  obtain ⟨r, rfl⟩ := Nat.exists_eq_add_of_le hlow
  rw [pow_succ] at hhigh
  refine ⟨r, by omega, ?_, ?_⟩
  · rw [encodeMagnitude, if_neg hne]
    simp only [hmax, hscaled, Rat.num_natCast, Rat.den_natCast, Int.toNat_natCast]
    have hround : roundHalfEven (2 ^ f.significandBits + r) 1 = 2 ^ f.significandBits + r := by
      have := roundHalfEven_mul Nat.one_pos (2 ^ f.significandBits + r)
      rwa [Nat.mul_one] at this
    obtain ⟨hpos, hlt⟩ := exponentField_lt hbias hbound
    -- the leading bit of the significand is the one that the field was short of
    have hcarry : ((n.log2 : Int) + f.bias - 1).toNat + 1 = ((n.log2 : Int) + f.bias).toNat := by
      omega
    have hfinite : (((n.log2 : Int) + f.bias - 1).toNat + 2) * 2 ^ f.significandBits ≤
        f.infinityBits := Nat.mul_le_mul_right _ (by omega)
    rw [Nat.add_mul] at hfinite
    rw [hround, ← hcarry, Nat.succ_mul, Nat.add_assoc]
    exact Nat.min_eq_left (by omega)
  · rw [← hscaled, div_mul_cancel₀]
    exact zpow_ne_zero _ two_ne_zero

end Encode

section Decode

variable {f : Format}

/-- A number is decoded from its fields. -/
theorem decode_fields (negative : Bool) {e r : Nat} (he : 0 < e)
    (hlt : e < 2 ^ f.exponentBits - 1) (hr : r < 2 ^ f.significandBits) :
    decode f ((if negative then f.signBit else 0) + (e * 2 ^ f.significandBits + r)) =
      .finite ((if negative then -1 else 1) * ((2 ^ f.significandBits + r : Nat) *
        (2 : ℚ) ^ ((e : Int) - f.bias - f.significandBits))) := by
  have hP : 0 < 2 ^ f.significandBits := Nat.two_pow_pos _
  have hE : 0 < 2 ^ f.exponentBits := Nat.two_pow_pos _
  have hsign : f.signBit = 2 ^ f.significandBits * 2 ^ f.exponentBits := by
    rw [Format.signBit, Nat.add_comm, pow_add]
  have hbits : (if negative then f.signBit else 0) + (e * 2 ^ f.significandBits + r) =
      (e + (if negative then 1 else 0) * 2 ^ f.exponentBits) * 2 ^ f.significandBits + r := by
    cases negative with
    | false => simp
    | true =>
      rw [hsign, if_pos rfl, if_pos rfl, Nat.one_mul, Nat.add_mul, Nat.mul_comm (2 ^ _) (2 ^ _)]
      omega
  have hhigh : ((e + (if negative then 1 else 0) * 2 ^ f.exponentBits) *
      2 ^ f.significandBits + r) / 2 ^ f.significandBits =
        e + (if negative then 1 else 0) * 2 ^ f.exponentBits := by
    rw [Nat.add_comm, Nat.add_mul_div_right _ _ hP, Nat.div_eq_of_lt hr, Nat.zero_add]
  have hexponent : (e + (if negative then 1 else 0) * 2 ^ f.exponentBits) % 2 ^ f.exponentBits =
      e := by
    rw [Nat.add_mul_mod_self_right, Nat.mod_eq_of_lt (by omega)]
  have hnegative : (e + (if negative then 1 else 0) * 2 ^ f.exponentBits) / 2 ^ f.exponentBits %
      2 = if negative then 1 else 0 := by
    rw [Nat.add_mul_div_right _ _ hE, Nat.div_eq_of_lt (by omega), Nat.zero_add]
    cases negative <;> rfl
  have hnormal : e ≠ 2 ^ f.exponentBits - 1 := Nat.ne_of_lt hlt
  have hnonzero : e ≠ 0 := Nat.ne_of_gt he
  rw [hbits, decode, hsign, ← Nat.div_div_eq_div_mul]
  simp only [hhigh, hexponent, hnegative, Nat.mul_add_mod_of_lt hr, if_neg hnormal,
    if_neg hnonzero]
  cases negative with
  | false => simp
  | true => simp

theorem hasSignificand_of_cast {p n a : Nat} {z : Int} (ha : a < 2 ^ p)
    (h : (n : ℚ) = a * (2 : ℚ) ^ z) : HasSignificand p n := by
  cases z with
  | ofNat k =>
    refine ⟨a, k, ha, ?_⟩
    have hcast : (n : ℚ) = (a * 2 ^ k : Nat) := by
      rw [h]
      push_cast
      rfl
    exact_mod_cast hcast
  | negSucc k =>
    -- the number has fewer bits than its significand
    have hcast : ((n * 2 ^ (k + 1) : Nat) : ℚ) = a := by
      push_cast
      rw [h, zpow_negSucc, mul_assoc, inv_mul_cancel₀ (by positivity), mul_one]
    have heq : n * 2 ^ (k + 1) = a := by exact_mod_cast hcast
    exact .of_lt (Nat.lt_of_le_of_lt (Nat.le_mul_of_pos_right n (Nat.two_pow_pos _)) (heq ▸ ha))

/-- The magnitude of a decoded number has no more bits than the format. -/
theorem decode_magnitude {bits : Nat} {q : ℚ} (h : decode f bits = .finite q) :
    ∃ a : Nat, a < 2 ^ (f.significandBits + 1) ∧ ∃ z : Int, q = a * (2 : ℚ) ^ z ∨
      -q = a * (2 : ℚ) ^ z := by
  have hlow := Nat.mod_lt bits (Nat.two_pow_pos f.significandBits)
  have hpow : 2 ^ (f.significandBits + 1) = 2 ^ f.significandBits + 2 ^ f.significandBits := by
    rw [pow_succ]
    omega
  rw [decode] at h
  simp only at h
  split at h
  · split at h <;> cases h
  · have hsigned : ∀ {m : ℚ} {p : Prop} [Decidable p], (if p then -m else m) = q →
        q = m ∨ -q = m := by
      intro m p _ hm
      split at hm
      · exact .inr (by rw [← hm, neg_neg])
      · exact .inl hm.symm
    have hvalue := hsigned (Value.finite.inj h)
    split at hvalue
    · exact ⟨_, by omega, _, hvalue⟩
    · refine ⟨2 ^ f.significandBits + bits % 2 ^ f.significandBits, by omega,
        (bits / 2 ^ f.significandBits % 2 ^ f.exponentBits : Nat) - f.bias - f.significandBits, ?_⟩
      rw [Nat.cast_add, Nat.cast_pow, Nat.cast_ofNat]
      exact hvalue

theorem hasSignificand_of_decode {bits : Nat} {n : Int} (h : decode f bits = .finite n) :
    HasSignificand (f.significandBits + 1) n.natAbs := by
  obtain ⟨a, ha, z, hvalue⟩ := decode_magnitude h
  have hnonneg : (0 : ℚ) ≤ a * (2 : ℚ) ^ z := by positivity
  apply hasSignificand_of_cast (z := z) ha
  rw [Nat.cast_natAbs, Int.cast_abs]
  obtain hvalue | hvalue := hvalue
  · rw [hvalue, abs_of_nonneg hnonneg]
  · rw [← abs_neg, hvalue, abs_of_nonneg hnonneg]

end Decode

/-- An integer that has a significand of the format's size is read back as it was. -/
theorem decode_encode {f : Format} {n : Int} (hbias : 1 ≤ f.bias)
    (hbound : (n.natAbs.log2 : Int) ≤ f.bias)
    (h : HasSignificand (f.significandBits + 1) n.natAbs) :
    decode f (encode f (.finite n)) = .finite n := by
  by_cases hzero : n = 0
  · subst hzero
    have hfield := (exponentField_lt hbias hbound).2
    have hnormal : ¬0 = 2 ^ f.exponentBits - 1 := by omega
    have hzero : encode f (.finite (0 : Int)) = 0 := by
      rw [Int.cast_zero, encode, if_neg (lt_irrefl 0), encodeMagnitude, if_pos rfl]
    rw [hzero, decode]
    simp [hnormal]
  · have hne : n.natAbs ≠ 0 := Int.natAbs_ne_zero.mpr hzero
    obtain ⟨r, hr, hbits, hvalue⟩ := encodeMagnitude_nat hne hbias hbound h
    obtain ⟨hpos, hlt⟩ := exponentField_lt hbias hbound
    have hfield : (((n.natAbs.log2 : Int) + f.bias).toNat : Int) - f.bias - f.significandBits =
        (n.natAbs.log2 : Int) - f.significandBits := by
      omega
    by_cases hneg : n < 0
    · have hcast : -(n : ℚ) = (n.natAbs : ℚ) := by
        rw [Nat.cast_natAbs, Int.cast_abs, abs_of_neg (by exact_mod_cast hneg)]
      have hdecode := decode_fields true hpos hlt hr
      rw [hfield, ← hvalue, if_pos rfl, if_pos rfl] at hdecode
      rw [encode, if_pos (by exact_mod_cast hneg), hcast, hbits, hdecode, ← hcast, neg_one_mul,
        neg_neg]
    · have hcast : (n : ℚ) = (n.natAbs : ℚ) := by
        rw [Nat.cast_natAbs, Int.cast_abs, abs_of_nonneg (by exact_mod_cast not_lt.mp hneg)]
      have hdecode := decode_fields false hpos hlt hr
      rw [hfield, ← hvalue] at hdecode
      simp only [Bool.false_eq_true, if_false, Nat.zero_add, one_mul] at hdecode
      rw [encode, if_neg (by exact_mod_cast hneg), hcast, hbits, hdecode]

/-- The bits of a number fit the width of the format. -/
theorem encode_lt (f : Format) (q : ℚ) : encode f (.finite q) < 2 * f.signBit := by
  have hmagnitude : ∀ q, encodeMagnitude f q ≤ f.infinityBits := by
    intro q
    rw [encodeMagnitude]
    split
    · exact Nat.zero_le _
    · exact Nat.min_le_right _ _
  have hinfinity : f.infinityBits < f.signBit := by
    rw [Format.infinityBits, Format.signBit, pow_add]
    have hE := Nat.two_pow_pos f.exponentBits
    exact Nat.mul_lt_mul_of_pos_right (by omega) (Nat.two_pow_pos _)
  rw [encode]
  split
  · have := hmagnitude (-q)
    omega
  · have := hmagnitude q
    omega

end BinaryFloat
