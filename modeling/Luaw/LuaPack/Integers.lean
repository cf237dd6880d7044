import Luaw.LuaPack.TokenReader

/-!
# Integers on the wire

An integer of magnitude at most `2 ^ 53` gets one of the integer markers, and its bytes are read
back as the same number.
-/

namespace Luaw.LuaPack

open Lua BigEndian

theorem toInt64_int {n : Int} (hl : -2 ^ 63 ≤ n) (hr : n < 2 ^ 63) :
    Native.toInt64 (.finite n) = n := by
  have hcond : -2 ^ 63 ≤ n ∧ n < 2 ^ 63 := ⟨hl, hr⟩
  simp only [Native.toInt64, Rat.num_intCast, Rat.den_intCast, Nat.cast_one, Int.tdiv_one,
    if_pos hcond]

/-- The detour through a C `int` does not change the low bytes. -/
theorem encodeInt_bmod {w : Nat} (hw : w ≤ 4) (n : Int) :
    encodeInt w (n.bmod (2 ^ 32)) = encodeInt w n := by
  have hdvd : (256 ^ w : Int) ∣ (2 ^ 32 : Nat) := by
    have hpow : ((2 ^ 32 : Nat) : Int) = 256 ^ 4 := by norm_num
    rw [hpow]
    exact pow_dvd_pow 256 hw
  have hmod : n.bmod (2 ^ 32) % 256 ^ w = n % 256 ^ w := by
    rw [← Int.emod_emod_of_dvd (n.bmod (2 ^ 32)) hdvd, Int.bmod_emod, Int.emod_emod_of_dvd n hdvd]
  rw [encodeInt, encodeInt, hmod]

theorem numberBytes_integer {m : Marker} {w : Nat} {checked : Bool} {expected : String}
    (hm : Native.payload? m = some (.integer w checked expected)) (hw : w ≤ 4) {n : Int}
    (hl : -2 ^ 63 ≤ n) (hr : n < 2 ^ 63) :
    Token.numberBytes m (.finite n) = encodeInt w n := by
  simp only [Token.numberBytes, hm, toInt64_int hl hr, encodeInt_bmod hw]

theorem ofInt_double {n : Int} (h : n.natAbs ≤ 2 ^ 53) :
    BinaryFloat.ofInt BinaryFloat.double n = .finite n :=
  BinaryFloat.ofInt_eq_self h

theorem decode_encode_unsigned {w : Nat} {n : Int} (h0 : 0 ≤ n) (h : n < 256 ^ w)
    (hdouble : BinaryFloat.ofInt BinaryFloat.double n = .finite n) :
    (NumberFormat.unsigned w).decode (encodeInt w n) = .finite n := by
  rw [NumberFormat.decode, ofBytes_encodeInt h0 h, hdouble]

theorem decode_encode_signed {w : Nat} {n : Int} (hl : -(256 ^ w) ≤ 2 * n) (hr : 2 * n < 256 ^ w)
    (hdouble : BinaryFloat.ofInt BinaryFloat.double n = .finite n) :
    (NumberFormat.signed w).decode (encodeInt w n) = .finite n := by
  rw [NumberFormat.decode, decodeInt_encodeInt hl hr, hdouble]

theorem covers_int {m : Marker} {lo hi n : Int} (hm : m.range = ((lo : ℚ), (hi : ℚ))) :
    m.covers (.finite n) = true ↔ lo ≤ n ∧ n ≤ hi := by
  rw [Marker.covers, hm, Bool.and_eq_true, decide_eq_true_eq, decide_eq_true_eq, Int.cast_le,
    Int.cast_le]

/-- The integer markers, without the two float markers at the end of `INT_RANGES`. -/
def Marker.integers : List Marker := [.uint8, .uint16, .uint32, .int8, .int16, .int32, .int64]

/-- An integer in the range of `INT_64` is covered before the float markers are tried. -/
theorem numberMarker_int {n : Int} (h : n.natAbs ≤ 2 ^ 63) :
    ∃ m ∈ Marker.integers, numberMarker (.finite n) = .ok m ∧ m.covers (.finite n) = true := by
  have hint64 : Marker.covers .int64 (.finite n) = true := by
    have hrange : Marker.range .int64 = (((-2 ^ 63 : Int) : ℚ), ((2 ^ 63 : Int) : ℚ)) := by
      norm_num [Marker.range]
    rw [covers_int hrange]
    omega
  have hsplit : Marker.intRanges = Marker.integers ++ [.float, .double] := rfl
  rcases hfind : Marker.integers.find? (fun range => range.covers (.finite n)) with - | m
  · have hnone := List.find?_eq_none.mp hfind .int64 (by decide)
    exact absurd hint64 hnone
  · have hcovers := List.find?_some hfind
    refine ⟨m, List.mem_of_find?_eq_some hfind, ?_, hcovers⟩
    have hintegral : isIntegral (.finite n) = true := by simp [isIntegral]
    rw [numberMarker, hintegral, if_pos rfl, findMinRange, hsplit, List.find?_append, hfind]
    rfl

theorem decoded_unsigned {m : Marker} {w : Nat} {checked : Bool} {expected : String}
    (hp : Native.payload? m = some (.integer w checked expected))
    (hf : m.numberFormat? = some (.unsigned w)) (hw : w ≤ 4) {n : Int} (h0 : 0 ≤ n)
    (hlt : n < 256 ^ w) (hr : n < 2 ^ 63)
    (hdouble : BinaryFloat.ofInt BinaryFloat.double n = .finite n) :
    Token.decoded m (.finite n) = .finite n := by
  rw [Token.decoded, hf, Option.map_some, Option.getD_some,
    numberBytes_integer hp hw (by omega) hr]
  exact decode_encode_unsigned h0 hlt hdouble

theorem decoded_signed {m : Marker} {w : Nat} {checked : Bool} {expected : String}
    (hp : Native.payload? m = some (.integer w checked expected))
    (hf : m.numberFormat? = some (.signed w)) (hw : w ≤ 4) {n : Int} (hl : -(256 ^ w) ≤ 2 * n)
    (hr : 2 * n < 256 ^ w) (hbound : -2 ^ 63 ≤ n ∧ n < 2 ^ 63)
    (hdouble : BinaryFloat.ofInt BinaryFloat.double n = .finite n) :
    Token.decoded m (.finite n) = .finite n := by
  rw [Token.decoded, hf, Option.map_some, Option.getD_some,
    numberBytes_integer hp hw hbound.1 hbound.2]
  exact decode_encode_signed hl hr hdouble

/-- The number that is read for an integer that is a double and fits an `int64_t`. -/
theorem decoded_covers {n : Int} (hl : -2 ^ 63 ≤ n) (hr : n < 2 ^ 63)
    (hdouble : BinaryFloat.ofInt BinaryFloat.double n = .finite n) {m : Marker}
    (hmem : m ∈ Marker.integers) (hcovers : m.covers (.finite n) = true) :
    Token.decoded m (.finite n) = .finite n := by
  simp only [Marker.integers, List.mem_cons, List.not_mem_nil, or_false] at hmem
  obtain rfl | rfl | rfl | rfl | rfl | rfl | rfl := hmem
  · rw [@covers_int _ 0 (2 ^ 8 - 1) n (by norm_num [Marker.range])] at hcovers
    exact decoded_unsigned rfl rfl (by decide) hcovers.1 (by omega) hr hdouble
  · rw [@covers_int _ 0 (2 ^ 16 - 1) n (by norm_num [Marker.range])] at hcovers
    exact decoded_unsigned rfl rfl (by decide) hcovers.1 (by omega) hr hdouble
  · rw [@covers_int _ 0 (2 ^ 32 - 1) n (by norm_num [Marker.range])] at hcovers
    exact decoded_unsigned rfl rfl (by decide) hcovers.1 (by omega) hr hdouble
  · rw [@covers_int _ (-2 ^ 7) (2 ^ 7 - 1) n (by norm_num [Marker.range])] at hcovers
    exact decoded_signed rfl rfl (by decide) (by omega) (by omega) ⟨hl, hr⟩ hdouble
  · rw [@covers_int _ (-2 ^ 15) (2 ^ 15 - 1) n (by norm_num [Marker.range])] at hcovers
    exact decoded_signed rfl rfl (by decide) (by omega) (by omega) ⟨hl, hr⟩ hdouble
  · rw [@covers_int _ (-2 ^ 31) (2 ^ 31 - 1) n (by norm_num [Marker.range])] at hcovers
    exact decoded_signed rfl rfl (by decide) (by omega) (by omega) ⟨hl, hr⟩ hdouble
  · -- the only marker whose number does not go through a C `int`
    have hbytes : Token.numberBytes .int64 (.finite n) = encodeInt 8 n := by
      simp only [Token.numberBytes, Native.payload?, toInt64_int hl hr]
    show (NumberFormat.signed 8).decode (Token.numberBytes .int64 (.finite n)) = _
    rw [hbytes]
    exact decode_encode_signed (by omega) (by omega) hdouble

/-- The number that is read for a small integer is that integer. -/
theorem decoded_int {n : Int} (h : n.natAbs ≤ 2 ^ 53) {m : Marker}
    (hm : numberMarker (.finite n) = .ok m) : Token.decoded m (.finite n) = .finite n := by
  obtain ⟨m', hmem, hm', hcovers⟩ := numberMarker_int (h.trans (by norm_num))
  obtain rfl : m' = m := by
    rw [hm] at hm'
    exact (Except.ok.inj hm').symm
  exact decoded_covers (by omega) (by omega) (ofInt_double h) hmem hcovers

end Luaw.LuaPack
