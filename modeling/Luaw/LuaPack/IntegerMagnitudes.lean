import Luaw.Foundations.ExactFloats
import Luaw.LuaPack.RoundTrip

/-!
# Integers of every magnitude

Beyond the integer markers an integer is written as a `float` or a `double`. The `float` keeps
24 bits of it, and the upper end of `INT_64` is a double that no `int64_t` can hold.
-/

namespace Luaw.LuaPack

open Lua BigEndian BinaryFloat Program

/-- The condition on an integer to survive the marker that is chosen for it. -/
def SurvivesWidth (n : Int) : Prop :=
  n ≠ 2 ^ 63 ∧
    (n.natAbs ≤ 2 ^ 63 ∨ HasSignificand 24 n.natAbs ∨ Marker.maxFloat < (n.natAbs : ℚ))

/-- The integer is written, and read back from whatever was written. -/
def Survives (n : Int) : Prop :=
  (∃ s, Written (.num (.finite n)) s) ∧
    ∀ s, Written (.num (.finite n)) s → RoundTrips (.num (.finite n)) s

section Scalars

variable {x : Number} {m : Marker}

theorem numberBytes_length (m : Marker) (x : Number) : (Token.numberBytes m x).length ≤ 8 := by
  cases m <;>
    simp [Token.numberBytes, Native.payload?, length_encodeInt, length_toBytes]

/-- The bytes of a number, and whether they are read as that number. -/
theorem survives_number_iff (h : numberMarker x = .ok m) :
    (∃ s, Written (.num x) s) ∧ ∀ s, Written (.num x) s →
      (RoundTrips (.num x) s ↔ Token.decoded m x = x) := by
  have htokens := tokens_num h
  have hlen : (bytesOf [.number m x h]).length ≤ 9 := by
    rw [bytesOf_number, List.length_cons]
    exact Nat.succ_le_succ (numberBytes_length m x)
  have hsize : queueSize [.number m x h] = 1 + m.size := by
    simp [queueSize, Token.size, Token.payload]
  refine ⟨⟨_, written_of_tokens htokens (List.cons_ne_nil _ _) ?_⟩, fun s hs => ?_⟩
  · have hmarker : m.size ≤ 8 := by
      cases m <;> decide
    exact ⟨by omega, by omega⟩
  · obtain ⟨ts, hts, rfl⟩ := hs.tokens
    cases htokens.symm.trans hts
    have hread : deserializeTokens 1 (.enter .none none) [.number m x h] =
        some (.ok (.num (Token.decoded m x)), []) := deserializeTokens_scalar rfl 0 _ []
    rw [roundTrips_of_reads hread (by rw [bytesOf_cons]; exact List.cons_ne_nil _ _) (by omega)]
    simp [LuaValue.structEq, eq_comm]

end Scalars

section Wide

variable {n : Int} {m : Marker}

theorem isIntegral_int (n : Int) : isIntegral (.finite n) = true := by
  simp [isIntegral]

theorem covers_symmetric {M : ℚ} (hm : m.range = (-M, M)) :
    m.covers (.finite n) = true ↔ (n.natAbs : ℚ) ≤ M := by
  rw [Marker.covers, hm, Bool.and_eq_true, decide_eq_true_eq, decide_eq_true_eq, Nat.cast_natAbs,
    Int.cast_abs, abs_le]

/-- No integer marker goes further than `INT_64`. -/
theorem covers_integers (hmem : m ∈ Marker.integers) (h : m.covers (.finite n) = true) :
    n.natAbs ≤ 2 ^ 63 := by
  simp only [Marker.integers, List.mem_cons, List.not_mem_nil, or_false] at hmem
  obtain rfl | rfl | rfl | rfl | rfl | rfl | rfl := hmem
  · rw [@covers_int _ 0 (2 ^ 8 - 1) n (by norm_num [Marker.range])] at h
    omega
  · rw [@covers_int _ 0 (2 ^ 16 - 1) n (by norm_num [Marker.range])] at h
    omega
  · rw [@covers_int _ 0 (2 ^ 32 - 1) n (by norm_num [Marker.range])] at h
    omega
  · rw [@covers_int _ (-2 ^ 7) (2 ^ 7 - 1) n (by norm_num [Marker.range])] at h
    omega
  · rw [@covers_int _ (-2 ^ 15) (2 ^ 15 - 1) n (by norm_num [Marker.range])] at h
    omega
  · rw [@covers_int _ (-2 ^ 31) (2 ^ 31 - 1) n (by norm_num [Marker.range])] at h
    omega
  · rw [@covers_int _ (-2 ^ 63) (2 ^ 63) n (by norm_num [Marker.range])] at h
    omega

/-- An integer that no integer marker covers is a `float` if it is in range, else a `double`. -/
theorem numberMarker_wide (hwide : 2 ^ 63 < n.natAbs)
    (hm : findMinRange (.finite n) Marker.intRanges = .ok m) :
    m = .float ∧ (n.natAbs : ℚ) ≤ Marker.maxFloat ∨
      m = .double ∧ Marker.maxFloat < (n.natAbs : ℚ) ∧ (n.natAbs : ℚ) ≤ Marker.maxDouble := by
  have hnone : Marker.integers.find? (fun range => range.covers (.finite n)) = none := by
    apply List.find?_eq_none.mpr
    intro range hmem hcovers
    have := covers_integers hmem hcovers
    omega
  have hsplit : Marker.intRanges = Marker.integers ++ [.float, .double] := rfl
  have hfloat : Marker.covers .float (.finite n) = true ↔ (n.natAbs : ℚ) ≤ Marker.maxFloat :=
    covers_symmetric rfl
  have hdouble : Marker.covers .double (.finite n) = true ↔ (n.natAbs : ℚ) ≤ Marker.maxDouble :=
    covers_symmetric rfl
  rw [findMinRange, hsplit, List.find?_append, hnone, Option.none_or] at hm
  by_cases hle : (n.natAbs : ℚ) ≤ Marker.maxFloat
  · simp only [List.find?_cons, hfloat.mpr hle] at hm
    cases hm
    exact .inl ⟨rfl, hle⟩
  · have hnot := mt hfloat.mp hle
    by_cases hle' : (n.natAbs : ℚ) ≤ Marker.maxDouble
    · simp only [List.find?_cons, hnot, hdouble.mpr hle'] at hm
      cases hm
      exact .inr ⟨rfl, not_le.mp hle, hle'⟩
    · have hnot' := mt hdouble.mp hle'
      simp only [List.find?_cons, hnot, hnot', List.find?_nil] at hm
      cases hm

/-- The exponent of an integer below the largest number of a format. -/
theorem log2_le {p k : Nat} (hne : n.natAbs ≠ 0)
    (h : (n.natAbs : ℚ) ≤ (2 ^ p - 1) * 2 ^ k) : n.natAbs.log2 < p + k := by
  have hbound : ((2 : ℚ) ^ p - 1) * 2 ^ k < 2 ^ p * 2 ^ k :=
    mul_lt_mul_of_pos_right (sub_one_lt _) (by positivity)
  have hlt : (n.natAbs : ℚ) < ((2 ^ (p + k) : Nat) : ℚ) := by
    push_cast
    rw [pow_add]
    exact lt_of_le_of_lt h hbound
  exact (Nat.log2_lt hne).mpr (Nat.cast_lt.mp hlt)

/-- The number that is read for a marker of a floating-point format. -/
theorem decoded_real {format : BinaryFloat.Format} {w : Nat} {expected : String}
    (hp : Native.payload? m = some (.real format w expected))
    (hf : m.numberFormat? = some (.float format w)) (hw : 256 ^ w = 2 * format.signBit) (q : ℚ) :
    Token.decoded m (.finite q) =
      BinaryFloat.decode format (BinaryFloat.encode format (.finite q)) := by
  have hbytes : Token.numberBytes m (.finite q) =
      toBytes w (BinaryFloat.encode format (.finite q)) := by
    rw [Token.numberBytes, hp]
  rw [Token.decoded, hf, Option.map_some, Option.getD_some, hbytes, NumberFormat.decode,
    ofBytes_toBytes, hw, Nat.mod_eq_of_lt (encode_lt format q)]

/-- A `float` keeps an integer that has 24 bits, and no other. -/
theorem decoded_float_iff (hne : n.natAbs ≠ 0) (h : (n.natAbs : ℚ) ≤ Marker.maxFloat) :
    Token.decoded .float (.finite n) = .finite n ↔ HasSignificand 24 n.natAbs := by
  have hlog : (n.natAbs.log2 : Int) ≤ single.bias := by
    have hlt : n.natAbs.log2 < 24 + 104 := log2_le hne h
    have hbias : single.bias = 127 := by norm_num [Format.bias, single]
    omega
  have hbias : 1 ≤ single.bias := by norm_num [Format.bias, single]
  have hw : 256 ^ 4 = 2 * single.signBit := by norm_num [Format.signBit, single]
  rw [decoded_real rfl rfl hw]
  exact ⟨hasSignificand_of_decode, decode_encode hbias hlog⟩

theorem decoded_double (hne : n.natAbs ≠ 0) (h : (n.natAbs : ℚ) ≤ Marker.maxDouble)
    (hsig : HasSignificand 53 n.natAbs) :
    Token.decoded .double (.finite n) = .finite n := by
  have hlog : (n.natAbs.log2 : Int) ≤ double.bias := by
    have hlt : n.natAbs.log2 < 53 + 971 := log2_le hne h
    have hbias : double.bias = 1023 := by norm_num [Format.bias, double]
    omega
  have hbias : 1 ≤ double.bias := by norm_num [Format.bias, double]
  have hw : 256 ^ 8 = 2 * double.signBit := by norm_num [Format.signBit, double]
  rw [decoded_real rfl rfl hw]
  exact decode_encode hbias hlog hsig

theorem numberMarker_end : numberMarker (.finite (2 ^ 63 : Int)) = .ok .int64 := by
  decide +kernel

/-- The cast of the upper end of `INT_64` overflows. -/
theorem decoded_end :
    Token.decoded .int64 (.finite (2 ^ 63 : Int)) = .finite (-2 ^ 63 : Int) := by
  decide +kernel

theorem not_decoded_end (hm : numberMarker (.finite (2 ^ 63 : Int)) = .ok m) :
    Token.decoded m (.finite (2 ^ 63 : Int)) ≠ .finite (2 ^ 63 : Int) := by
  cases numberMarker_end.symm.trans hm
  rw [decoded_end]
  decide +kernel

/-- Within the range of `INT_64` only its upper end is lost. -/
theorem decoded_narrow_iff (hsig : HasSignificand 53 n.natAbs) (hsmall : n.natAbs ≤ 2 ^ 63)
    (hm : numberMarker (.finite n) = .ok m) :
    Token.decoded m (.finite n) = .finite n ↔ n ≠ 2 ^ 63 := by
  by_cases hend : n = 2 ^ 63
  · subst hend
    exact iff_of_false (not_decoded_end hm) (fun h => h rfl)
  · obtain ⟨m', hmem, hm', hcovers⟩ := numberMarker_int hsmall
    cases hm'.symm.trans hm
    have hdouble := ofInt_eq_of_hasSignificand (f := double) hsig
    exact iff_of_true (decoded_covers (by omega) (by omega) hdouble hmem hcovers) hend

theorem decoded_iff (hsig : HasSignificand 53 n.natAbs)
    (hm : findMinRange (.finite n) Marker.intRanges = .ok m) :
    Token.decoded m (.finite n) = .finite n ↔ SurvivesWidth n := by
  by_cases hsmall : n.natAbs ≤ 2 ^ 63
  · have hmarker : numberMarker (.finite n) = .ok m := by
      rw [numberMarker, isIntegral_int, if_pos rfl, hm]
    rw [decoded_narrow_iff hsig hsmall hmarker, SurvivesWidth]
    exact (and_iff_left (.inl hsmall)).symm
  · have hne : n.natAbs ≠ 0 := by omega
    have hend : n ≠ 2 ^ 63 := by omega
    obtain ⟨rfl, hle⟩ | ⟨rfl, hlt, hle⟩ := numberMarker_wide (Nat.lt_of_not_le hsmall) hm
    · rw [decoded_float_iff hne hle]
      refine ⟨fun hbits => ⟨hend, .inr (.inl hbits)⟩, fun hcases => ?_⟩
      obtain hle' | hbits | hlt := hcases.2
      · exact absurd hle' hsmall
      · exact hbits
      · exact absurd hle (not_le.mpr hlt)
    · exact iff_of_true (decoded_double hne hle hsig) ⟨hend, .inr (.inr hlt)⟩

end Wide

/-- An integral double that `findMinRange` accepts is written and read back as it was, exactly
when it is not the upper end of `INT_64` and its `float` does not lose bits of it. -/
theorem survives_iff {n : Int} {m : Marker} (hn : HasSignificand 53 n.natAbs)
    (hm : findMinRange (.finite n) Marker.intRanges = .ok m) :
    Survives n ↔ SurvivesWidth n := by
  have hmarker : numberMarker (.finite n) = .ok m := by
    rw [numberMarker, isIntegral_int, if_pos rfl, hm]
  obtain ⟨hwritten, hread⟩ := survives_number_iff hmarker
  rw [← decoded_iff hn hm]
  constructor
  · rintro ⟨⟨s, hs⟩, hall⟩
    exact (hread s hs).mp (hall s hs)
  · intro hdecoded
    exact ⟨hwritten, fun s hs => (hread s hs).mpr hdecoded⟩

theorem survives_thousand : Survives 1000 ↔ SurvivesWidth 1000 :=
  survives_iff (m := .uint16) (.of_lt (by decide)) (by decide +kernel)

/-- The upper end of the range of `INT_64` is read as its lower end. -/
theorem not_survives_end :
    ¬∀ (n : Int) (m : Marker), HasSignificand 53 n.natAbs →
      findMinRange (.finite n) Marker.intRanges = .ok m → Survives n := by
  intro h
  have hsig : HasSignificand 53 (2 ^ 63 : Int).natAbs := ⟨1, 63, by decide, by decide⟩
  obtain ⟨⟨s, hs⟩, hall⟩ := h (2 ^ 63) .int64 hsig (by decide +kernel)
  have hdecoded := ((survives_number_iff numberMarker_end).2 s hs).mp (hall s hs)
  exact not_decoded_end numberMarker_end hdecoded

end Luaw.LuaPack
