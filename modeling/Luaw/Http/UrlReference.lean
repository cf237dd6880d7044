import Luaw.Http.UrlText

/-!
# The URL decoder and its specification

What URL decoding should be, when the decoder does that, and when it leaves its input as it was.
-/

namespace Luaw.Http

open Lua ChunkedCoding

/-- Every `%` with two hexadecimal digits behind it is that byte, any other character is itself. -/
def percentDecode : Bytes → Bytes
  | 37 :: a :: b :: str =>
    match digitValue? a, digitValue? b with
    | some x, some y => (16 * x + y).toUInt8 :: percentDecode str
    | _, _ => 37 :: percentDecode (a :: b :: str)
  | ch :: str => ch :: percentDecode str
  | [] => []

/-- A field split at its first equals sign, if it has a value. -/
def splitField (field : Bytes) : Option (Bytes × Bytes) :=
  match field.dropWhile (· ≠ 61) with
  | _ :: ch :: value => some (field.takeWhile (· ≠ 61), ch :: value)
  | _ => none

def formFields (data : Bytes) : List (Bytes × Bytes) := (data.splitOn 38).filterMap splitField

def referencePair : Bytes × Bytes → Bytes × Bytes
  | (name, value) => (percentDecode (plusToSpace name), percentDecode (plusToSpace value))

/-- The names and values that `data` stands for. -/
def referenceDecoding (data : Bytes) : List (Bytes × Bytes) := (formFields data).map referencePair

/-- No `%` of the text has two characters behind it that are not both hexadecimal digits. The
exception is `%%3` before a decimal digit, after a character that was converted to `%`: then
nothing is converted, the `%` is stored once more, and the digit is what `%3` and the digit make. -/
def wellEscaped (hexCh : UInt8) : Bytes → Bool
  | 37 :: a :: b :: str =>
    match digitValue? a, digitValue? b with
    | some x, some y => wellEscaped (16 * x + y).toUInt8 str
    | _, _ => hexCh = 37 && a = 37 && b = 51 && str.head?.any (fun ch => 48 ≤ ch && ch ≤ 57) &&
      wellEscaped 37 str
  | _ :: str => wellEscaped hexCh str
  | [] => true

section Digits

theorem ne_percent_of_digit {ch : UInt8} {x : Nat} (h : digitValue? ch = some x) : ch ≠ 37 := by
  rintro rfl
  cases h

theorem digitValue?_lt : ∀ {ch : UInt8} {x : Nat}, digitValue? ch = some x → x < 16 := by
  intro ch x hx
  have hall : ∀ ch : UInt8, ∀ x ∈ digitValue? ch, x < 16 := forall_byte (by decide +kernel)
  exact hall ch x hx

theorem digitValue?_three : ∀ {ch : UInt8}, digitValue? ch = some 3 → ch = 51 := by
  intro ch
  exact forall_byte (p := fun ch => digitValue? ch = some 3 → ch = 51) (by decide +kernel) ch

/-- A byte whose second digit is the byte itself. -/
theorem digit_of_self {ch : UInt8} {x y : Nat} (hx : x < 16) (hy : digitValue? ch = some y)
    (h : (16 * x + y).toUInt8 = ch) : x = 3 ∧ (48 ≤ ch && ch ≤ 57) = true := by
  have hall : ∀ ch : UInt8, ∀ x : Fin 16, ∀ y ∈ digitValue? ch, (16 * x.val + y).toUInt8 = ch →
      x.val = 3 ∧ (48 ≤ ch && ch ≤ 57) = true := forall_byte (by decide +kernel)
  exact hall ch ⟨x, hx⟩ y hy h

/-- A decimal digit, with `%3` in front of it. -/
theorem digitValue?_decimal {ch : UInt8} (h : (48 ≤ ch && ch ≤ 57) = true) :
    ∃ y, digitValue? ch = some y ∧ (16 * 3 + y).toUInt8 = ch := by
  have hall : ∀ ch : UInt8, (48 ≤ ch && ch ≤ 57) = true →
      digitValue? ch = some (ch.toNat - 48) ∧ (16 * 3 + (ch.toNat - 48)).toUInt8 = ch :=
    forall_byte (by decide +kernel)
  exact ⟨_, hall ch h⟩

end Digits

section Percent

theorem percentDecode_escape {a b : UInt8} {x y : Nat} (ha : digitValue? a = some x)
    (hb : digitValue? b = some y) (str : Bytes) :
    percentDecode (37 :: a :: b :: str) = (16 * x + y).toUInt8 :: percentDecode str := by
  simp only [percentDecode, ha, hb]

theorem percentDecode_char {ch : UInt8} (h : ch ≠ 37) (str : Bytes) :
    percentDecode (ch :: str) = ch :: percentDecode str := by
  rw [percentDecode]
  rintro a b str' rfl
  exact absurd rfl h

theorem percentDecode_malformed {a b : UInt8} (h : digitValue? a = none ∨ digitValue? b = none)
    (str : Bytes) : percentDecode (37 :: a :: b :: str) = 37 :: percentDecode (a :: b :: str) := by
  rw [percentDecode]
  split
  · next x y ha hb => rcases h with h | h <;> simp [h] at ha hb
  · rfl

theorem wellEscaped_malformed {a b : UInt8} (h : digitValue? a = none ∨ digitValue? b = none)
    (hexCh : UInt8) (str : Bytes) : wellEscaped hexCh (37 :: a :: b :: str) =
      (hexCh = 37 && a = 37 && b = 51 && str.head?.any (fun ch => 48 ≤ ch && ch ≤ 57) &&
        wellEscaped 37 str) := by
  rw [wellEscaped]
  split
  · next x y ha hb => rcases h with h | h <;> simp [h] at ha hb
  · rfl

/-- A character is the start of an escape, or stays. -/
theorem percentDecode_cons (ch : UInt8) (str : Bytes) :
    (∃ a b str' x y, ch = 37 ∧ str = a :: b :: str' ∧ digitValue? a = some x ∧
      digitValue? b = some y) ∨ percentDecode (ch :: str) = ch :: percentDecode str := by
  by_cases hch : ch = 37
  · subst hch
    match str with
    | [] | [_] => exact .inr (by simp [percentDecode])
    | a :: b :: str =>
      cases ha : digitValue? a with
      | none => exact .inr (percentDecode_malformed (.inl ha) str)
      | some x =>
        cases hb : digitValue? b with
        | none => exact .inr (percentDecode_malformed (.inr hb) str)
        | some y => exact .inl ⟨a, b, str, x, y, rfl, rfl, ha, hb⟩
  · exact .inr (percentDecode_char hch str)

theorem length_percentDecode_le_succ (ch : UInt8) (str : Bytes) :
    (percentDecode str).length ≤ (percentDecode (ch :: str)).length + 1 := by
  obtain ⟨a, b, str', x, y, rfl, rfl, ha, hb⟩ | hcons := percentDecode_cons ch str
  · rw [percentDecode_escape ha hb, percentDecode_char (ne_percent_of_digit ha),
      percentDecode_char (ne_percent_of_digit hb)]
    exact Nat.le_refl _
  · rw [hcons, List.length_cons]
    omega

/-- Two more characters in front do not make the text shorter. -/
theorem length_percentDecode_le (a b : UInt8) (str : Bytes) :
    (percentDecode str).length ≤ (percentDecode (a :: b :: str)).length := by
  obtain ⟨b', c, str', x, y, rfl, heq, hb, hc⟩ | hcons := percentDecode_cons a (b :: str)
  · cases heq
    rw [percentDecode_escape hb hc, percentDecode_char (ne_percent_of_digit hc)]
    exact Nat.le_refl _
  · rw [hcons, List.length_cons]
    exact length_percentDecode_le_succ b str

/-- An escape becomes one character, whether or not it is one. -/
theorem length_decodeHex_le_percentDecode (hexCh : UInt8) (str : Bytes) :
    (decodeHex hexCh str).length ≤ (percentDecode str).length := by
  fun_induction decodeHex hexCh str with
  | case1 hexCh a b str ch ih =>
    obtain ⟨a', b', str', x, y, -, heq, ha, hb⟩ | hcons := percentDecode_cons 37 (a :: b :: str)
    · cases heq
      rw [percentDecode_escape ha hb]
      exact Nat.succ_le_succ ih
    · rw [hcons]
      exact Nat.succ_le_succ (ih.trans (length_percentDecode_le a b str))
  | case2 hexCh ch str hplain ih =>
    obtain ⟨a, b, str', x, y, rfl, rfl, -, -⟩ | hcons := percentDecode_cons ch str
    · exact absurd rfl (hplain a b str' rfl)
    · rw [hcons]
      exact Nat.succ_le_succ ih
  | case3 hexCh => exact Nat.le_refl 0

/-- `%3` and a decimal digit stand for that digit. -/
theorem percentDecode_three {ch : UInt8} (h : (48 ≤ ch && ch ≤ 57) = true) (str : Bytes) :
    percentDecode (37 :: 51 :: ch :: str) = percentDecode (ch :: str) := by
  obtain ⟨y, hy, hself⟩ := digitValue?_decimal h
  have hthree : ChunkedCoding.digitValue? 51 = some 3 := rfl
  rw [percentDecode_escape hthree hy, hself, percentDecode_char (ne_percent_of_digit hy)]

/-- What is no escape is read as one: the result is right only in the case `%%3`. -/
theorem decodeHex_misread {hexCh a b : UInt8} {str : Bytes}
    (hch : (scanHex (a :: b :: str)).getD hexCh = 37)
    (htail : decodeHex 37 str = percentDecode (a :: b :: str)) :
    hexCh = 37 ∧ a = 37 ∧ b = 51 ∧ ∃ c str', str = c :: str' ∧ (48 ≤ c && c ≤ 57) = true := by
  have hlen := length_decodeHex_le_percentDecode 37 str
  obtain ⟨b', c, str', x, y, rfl, heq, hb, hc⟩ | hcons := percentDecode_cons a (b :: str)
  · -- `%%bc` with an escape inside
    cases heq
    rw [percentDecode_escape hb hc, decodeHex_cons (.inl (ne_percent_of_digit hc))] at htail
    obtain ⟨rfl, hrange⟩ := digit_of_self (digitValue?_lt hb) hc (List.cons.inj htail).1.symm
    exact ⟨hch, rfl, digitValue?_three hb, c, str', rfl, hrange⟩
  · rw [htail, hcons, List.length_cons] at hlen
    obtain ⟨c, d, str', x, y, rfl, rfl, hc, hd⟩ | hcons' := percentDecode_cons b str
    · -- `%a%cd`: the first digit is converted alone
      rw [hcons, percentDecode_escape hc hd, decodeHex_cons (.inl (ne_percent_of_digit hc)),
        decodeHex_cons (.inl (ne_percent_of_digit hd))] at htail
      obtain ⟨rfl, hrest⟩ := List.cons.inj htail
      obtain ⟨rfl, -⟩ := digit_of_self (digitValue?_lt hc) hd (List.cons.inj hrest).1.symm
      cases digitValue?_three hc
      cases hch
    · rw [hcons', List.length_cons] at hlen
      omega

/-- `decode_hex_str` does what it should exactly on texts without malformed escapes. -/
theorem decodeHex_eq_iff (hexCh : UInt8) (str : Bytes) :
    decodeHex hexCh str = percentDecode str ↔ wellEscaped hexCh str = true := by
  fun_induction decodeHex hexCh str with
  | case1 hexCh a b str ch ih =>
    obtain ⟨x, y, ha, hb⟩ | hmalformed : (∃ x y, digitValue? a = some x ∧ digitValue? b = some y) ∨
        (digitValue? a = none ∨ digitValue? b = none) := by
      cases digitValue? a <;> cases digitValue? b <;> simp
    · have hch : ch = (16 * x + y).toUInt8 := by simp [ch, scanHex_digits ha hb]
      rw [percentDecode_escape ha hb, hch, List.cons_inj_right, wellEscaped]
      simp only [ha, hb]
      exact hch ▸ ih
    -- the reference keeps the percent sign, which the decoder does only for `%%3`
    · rw [percentDecode_malformed hmalformed, wellEscaped_malformed hmalformed]
      constructor
      · intro heq
        obtain ⟨hch, htail⟩ := List.cons.inj heq
        rw [hch] at htail ih
        obtain ⟨rfl, rfl, rfl, c, str', rfl, hrange⟩ := decodeHex_misread hch htail
        rw [percentDecode_three hrange] at htail
        simp only [decide_true, Bool.true_and, List.head?_cons, Option.any_some, hrange]
        exact ih.mp htail
      · intro hwell
        simp only [Bool.and_eq_true, decide_eq_true_eq] at hwell
        obtain ⟨⟨⟨⟨rfl, rfl⟩, rfl⟩, hrange⟩, hwell⟩ := hwell
        have hch : ch = 37 := rfl
        rw [hch] at ih ⊢
        cases str with
        | nil => cases hrange
        | cons c str =>
          rw [List.head?_cons, Option.any_some] at hrange
          rw [percentDecode_three hrange, ih.mpr hwell]
  | case2 hexCh ch str hplain ih =>
    have hcons : percentDecode (ch :: str) = ch :: percentDecode str := by
      rw [percentDecode]
      exact hplain
    rw [hcons, wellEscaped, List.cons_inj_right, ih]
    exact hplain
  | case3 hexCh => exact iff_of_true rfl rfl

end Percent

section Fields

theorem NoSeparator.noEquals {str : Bytes} (h : NoSeparator str) :
    ∀ ch ∈ str, decide (ch ≠ 61) = true := fun ch hch => decide_eq_true (h ch hch).2

theorem splitField_pair {name value : Bytes} (hname : NoSeparator name) (hvalue : value ≠ []) :
    splitField (name ++ 61 :: value) = some (name, value) := by
  obtain ⟨ch, value, rfl⟩ := List.exists_cons_of_ne_nil hvalue
  rw [splitField, List.dropWhile_append_of_pos hname.noEquals,
    List.takeWhile_append_of_pos hname.noEquals]
  simp

theorem splitField_last {last : LastField} (h : last.WellFormed) :
    (splitField last.text).toList = last.pairs := by
  cases last with
  | start => rfl
  | inName name =>
    have hdrop : name.dropWhile (fun ch => decide (ch ≠ 61)) = [] :=
      List.dropWhile_eq_nil_iff.mpr h.plain.noEquals
    rw [LastField.text, splitField, hdrop]
    rfl
  | assigned name =>
    rw [LastField.text, splitField, List.dropWhile_append_of_pos h.plain.noEquals]
    rfl
  | inValue name value =>
    rw [LastField.text, splitField_pair h.1.plain h.2.nonempty]
    rfl

theorem LastField.noAmpersand {last : LastField} (h : last.WellFormed) :
    ∀ ch ∈ last.text, (ch == 38) = false := by
  intro ch hch
  have hpart : ∀ {str : Bytes}, FieldPart str → ch ∈ str → (ch == 38) = false := fun h hch =>
    beq_eq_false_iff_ne.mpr (h.plain ch hch).1
  cases last with
  | start => cases hch
  | inName name => exact hpart h hch
  | assigned name =>
    obtain hch | hch := List.mem_append.mp hch
    · exact hpart h hch
    · rw [List.mem_singleton.mp hch]
      rfl
  | inValue name value =>
    obtain hch | hch := List.mem_append.mp hch
    · exact hpart h.1 hch
    · cases hch with
      | head => rfl
      | tail _ hch => exact hpart h.2 hch

/-- When the scan goes on to the end, the fields of the data are those that it passes on. -/
theorem UrlText.formFields_eq (t : UrlText) (h : t.rest = []) : formFields t.text = t.pairs := by
  obtain ⟨fields, last, rest, hfields, hwf, hstops⟩ := t
  obtain rfl : rest = [] := h
  rw [UrlText.text, UrlText.pairs, if_pos rfl, List.append_nil]
  induction fields with
  | nil =>
    rw [formFields, List.splitOn, fieldsText, List.flatMap_nil, List.nil_append,
      List.splitOnP_eq_singleton (LastField.noAmpersand hwf), List.nil_append, ← splitField_last hwf]
    cases hsplit : splitField last.text <;> simp [hsplit]
  | cons pair fields ih =>
    obtain ⟨name, value⟩ := pair
    obtain ⟨hname, hvalue⟩ := hfields (name, value) List.mem_cons_self
    have hwf' : (LastField.inValue name value).WellFormed := ⟨hname, hvalue⟩
    have hplain : ∀ ch ∈ name ++ 61 :: value, (ch == 38) = false := LastField.noAmpersand hwf'
    have htext : fieldsText ((name, value) :: fields) ++ last.text =
        name ++ 61 :: value ++ 38 :: (fieldsText fields ++ last.text) := by
      simp [fieldsText]
    have hrest := ih (fun p hp => hfields p (List.mem_cons_of_mem _ hp))
    rw [formFields, List.splitOn] at hrest
    rw [formFields, List.splitOn, htext,
      List.splitOnP_append_cons_of_forall_mem hplain 38 rfl, List.filterMap_cons,
      splitField_pair hname.plain hvalue.nonempty]
    exact congrArg _ hrest

end Fields

/-- The pairs that are passed on are the right ones exactly when no escape is malformed. -/
theorem decodedPairs_eq_iff (garbage : Nat → Bool → UInt8) (k : Nat) (pairs : List (Bytes × Bytes)) :
    decodedPairs garbage k pairs = pairs.map referencePair ↔
      ∀ i name value, pairs[i]? = some (name, value) →
        wellEscaped (garbage (k + i) false) (plusToSpace name) = true ∧
          wellEscaped (garbage (k + i) true) (plusToSpace value) = true := by
  induction pairs generalizing k with
  | nil => simp [decodedPairs]
  | cons pair pairs ih =>
    obtain ⟨name, value⟩ := pair
    rw [decodedPairs, List.map_cons, List.cons.injEq, ih, decodedPair, referencePair, Prod.mk.injEq,
      decodeHex_eq_iff, decodeHex_eq_iff]
    constructor
    · rintro ⟨hfirst, hrest⟩ i name' value' hget
      cases i with
      | zero =>
        cases hget
        exact hfirst
      | succ i =>
        rw [← Nat.add_assoc, Nat.add_right_comm]
        exact hrest i name' value' hget
    · intro hall
      refine ⟨hall 0 name value rfl, fun i name' value' hget => ?_⟩
      rw [Nat.add_right_comm, Nat.add_assoc]
      exact hall (i + 1) name' value' hget

/-- Where decoding succeeds, the parameters are those of the reference exactly when no name and no
value that is passed on has a malformed escape. -/
theorem calls_eq_reference_iff (garbage : Nat → Bool → UInt8) {data : Bytes} {d : UrlDecoder}
    (h : luawUrlDecode garbage data = .ok d) :
    d.calls = referenceDecoding data ↔
      ∀ k name value, (formFields data)[k]? = some (name, value) →
        wellEscaped (garbage k false) (plusToSpace name) = true ∧
          wellEscaped (garbage k true) (plusToSpace value) = true := by
  obtain ⟨t, rfl⟩ := UrlText.exists_text data
  have houtcome := outcome_luawUrlDecode garbage t
  rw [h, UrlDecoder.outcome, Prod.mk.injEq, Prod.mk.injEq] at houtcome
  obtain ⟨herror, hcalls, -⟩ := houtcome
  have hrest : t.rest = [] := by
    rw [UrlText.error?] at herror
    by_contra hne
    rw [if_neg hne] at herror
    cases herror
  rw [hcalls, referenceDecoding, t.formFields_eq hrest, decodedPairs_eq_iff]
  simp only [Nat.zero_add]

theorem calls_eq_reference_escaped :
    [(text "a", text "1 A")] = referenceDecoding (text "a=1+%41&b=") ↔
      ∀ (k : Nat) name value, (formFields (text "a=1+%41&b="))[k]? = some (name, value) →
        wellEscaped 0 (plusToSpace name) = true ∧ wellEscaped 0 (plusToSpace value) = true :=
  calls_eq_reference_iff (fun _ _ => 0)
    (rfl : luawUrlDecode _ (text "a=1+%41&b=") = .ok ⟨text "a=1 A41&b=", 10, some 8, some 2,
      false, false, 1, 0, .startingValue, [(text "a", text "1 A")]⟩)

/-- An escape with one digit is decoded, and the character behind the digit is lost. -/
theorem malformed_escape_decoded : ¬∀ (garbage : Nat → Bool → UInt8) (data : Bytes) (d : UrlDecoder),
    luawUrlDecode garbage data = .ok d → d.calls = referenceDecoding data := by
  intro h
  have hcalls := h (fun _ _ => 0) (text "a=%4z") _ rfl
  exact absurd hcalls (by decide)

/-- Every character that is stored while `str` is decoded is there already, and so is what stands
for the plus signs in the rest. `there` is the text from where the decoder writes. -/
def storesSame (hexCh : UInt8) (there : Bytes) : Bytes → Bool
  | 37 :: a :: b :: str =>
    let ch := (scanHex (a :: b :: str)).getD hexCh
    there.head? = some ch && storesSame ch there.tail str
  | ch :: str => there.head? = some ch && storesSame hexCh there.tail str
  | [] => 43 ∉ there

/-- So it is for a name and its value, the `k`-th ones. -/
def pairUnchanged (garbage : Nat → Bool → UInt8) (k : Nat) : Bytes × Bytes → Bool
  | (name, value) => storesSame (garbage k false) name (plusToSpace name) &&
      storesSame (garbage k true) value (plusToSpace value)

section Intact

theorem plusToSpace_eq_self_iff {str : Bytes} : plusToSpace str = str ↔ 43 ∉ str := by
  induction str with
  | nil => simp [plusToSpace]
  | cons ch str ih =>
    rw [plusToSpace, List.map_cons, List.cons.injEq, List.mem_cons, not_or]
    refine and_congr ?_ ih
    by_cases hplus : ch = 43
    · simp [hplus]
    · simp [hplus, eq_comm]

theorem overwrite_eq_iff {hexCh : UInt8} {there str : Bytes} (hlen : str.length ≤ there.length) :
    overwrite (decodeHex hexCh str) (plusToSpace there) = there ↔
      storesSame hexCh there str = true := by
  induction hexCh, str using decodeHex.induct generalizing there with
  | case1 hexCh a b str ch =>
    rename_i ih
    obtain ⟨c, there, rfl⟩ := List.exists_cons_of_length_pos (Nat.lt_of_lt_of_le (by simp) hlen)
    have hrest := @ih there (by simp only [List.length_cons] at hlen; omega)
    show ch :: overwrite (decodeHex ch str) (plusToSpace there) = c :: there ↔ _
    simp only [storesSame, Bool.and_eq_true, decide_eq_true_eq, List.head?_cons, List.tail_cons,
      Option.some.injEq, List.cons.injEq, hrest]
    exact and_congr_left fun _ => eq_comm
  | case2 hexCh ch str hplain ih =>
    obtain ⟨c, there, rfl⟩ := List.exists_cons_of_length_pos (Nat.lt_of_lt_of_le (by simp) hlen)
    have hrest := @ih there (by simp only [List.length_cons] at hlen; omega)
    rw [storesSame, decodeHex]
    · show ch :: overwrite (decodeHex hexCh str) (plusToSpace there) = c :: there ↔ _
      simp only [Bool.and_eq_true, decide_eq_true_eq, List.head?_cons, List.tail_cons,
        Option.some.injEq, List.cons.injEq, hrest]
      exact and_congr_left fun _ => eq_comm
    · exact hplain
    · exact hplain
  | case3 hexCh =>
    rw [decodeHex, overwrite_nil, plusToSpace_eq_self_iff, storesSame, decide_eq_true_eq]

theorem decodedInPlace_eq_iff (hexCh : UInt8) (str : Bytes) :
    decodedInPlace hexCh str = str ↔ storesSame hexCh str (plusToSpace str) = true :=
  overwrite_eq_iff (length_plusToSpace str).le

theorem pairInPlace_eq_iff (garbage : Nat → Bool → UInt8) (k : Nat) (name value : Bytes) :
    pairInPlace garbage k (name, value) = name ++ 61 :: value ↔
      pairUnchanged garbage k (name, value) = true := by
  rw [pairInPlace, pairUnchanged, Bool.and_eq_true, ← decodedInPlace_eq_iff,
    ← decodedInPlace_eq_iff]
  constructor
  · intro heq
    obtain ⟨hname, hvalue⟩ := List.append_inj heq (length_decodedInPlace _ name)
    exact ⟨hname, (List.cons.inj hvalue).2⟩
  · rintro ⟨hname, hvalue⟩
    rw [hname, hvalue]

end Intact

namespace UrlText

/-- The field where the scan stops, unless it is passed on. -/
def unfinished (t : UrlText) : Bytes := if t.rest = [] ∧ t.last.pairs ≠ [] then [] else t.last.text

/-- Nothing changes when the names and values that are passed on are decoded in place, and no plus
sign is in a field that is not passed on. -/
def Unchanged (garbage : Nat → Bool → UInt8) (t : UrlText) : Prop :=
  (∀ k pair, t.pairs[k]? = some pair → pairUnchanged garbage k pair = true) ∧ 43 ∉ t.unfinished

theorem fieldsInPlace_eq_iff (garbage : Nat → Bool → UInt8) (k : Nat)
    (fields : List (Bytes × Bytes)) : fieldsInPlace garbage k fields = fieldsText fields ↔
      ∀ i pair, fields[i]? = some pair → pairUnchanged garbage (k + i) pair = true := by
  induction fields generalizing k with
  | nil => simp [fieldsInPlace, fieldsText]
  | cons pair fields ih =>
    obtain ⟨name, value⟩ := pair
    have hlen : (pairInPlace garbage k (name, value)).length = (name ++ 61 :: value).length := by
      simp [pairInPlace, length_decodedInPlace]
    have htext : fieldsText ((name, value) :: fields) =
        name ++ 61 :: value ++ 38 :: fieldsText fields := by
      simp [fieldsText]
    rw [fieldsInPlace, htext]
    constructor
    · intro heq i pair' hget
      obtain ⟨hfirst, hrest⟩ := List.append_inj heq hlen
      cases i with
      | zero =>
        cases hget
        exact (pairInPlace_eq_iff garbage k name value).mp hfirst
      | succ i =>
        rw [← Nat.add_assoc, Nat.add_right_comm]
        exact (ih (k + 1)).mp (List.cons.inj hrest).2 i pair' hget
    · intro hall
      rw [(pairInPlace_eq_iff garbage k name value).mpr (hall 0 _ rfl), (ih (k + 1)).mpr]
      intro i pair' hget
      rw [Nat.add_right_comm, Nat.add_assoc]
      exact hall (i + 1) pair' hget

theorem forall_getElem?_append {α : Type} {p : Nat → α → Prop} (l l' : List α) :
    (∀ k x, (l ++ l')[k]? = some x → p k x) ↔
      (∀ k x, l[k]? = some x → p k x) ∧ ∀ k x, l'[k]? = some x → p (l.length + k) x := by
  constructor
  · intro hall
    refine ⟨fun k x hget => hall k x ?_, fun k x hget => hall (l.length + k) x ?_⟩
    · rw [List.getElem?_append_left (List.getElem?_eq_some_iff.mp hget).1, hget]
    · rw [List.getElem?_append_right (Nat.le_add_right _ _), Nat.add_sub_cancel_left, hget]
  · rintro ⟨hleft, hright⟩ k x hget
    obtain hk | hk := Nat.lt_or_ge k l.length
    · exact hleft k x (List.getElem?_append_left hk ▸ hget)
    · obtain ⟨i, rfl⟩ := Nat.exists_eq_add_of_le hk
      rw [List.getElem?_append_right hk, Nat.add_sub_cancel_left] at hget
      exact hright i x hget

theorem lastInPlace_eq_iff (garbage : Nat → Bool → UInt8) (k : Nat) (last : LastField) :
    last.inPlace garbage k = last.text ↔
      (∀ i pair, last.pairs[i]? = some pair → pairUnchanged garbage (k + i) pair = true) ∧
        43 ∉ if last.pairs ≠ [] then [] else last.text := by
  cases last with
  | inValue name value =>
    refine (pairInPlace_eq_iff garbage k name value).trans ⟨fun hpair => ⟨?_, List.not_mem_nil⟩,
      fun h => h.1 0 _ rfl⟩
    intro i pair hget
    cases i with
    | zero =>
      cases hget
      exact hpair
    | succ i => cases hget
  | start | inName name | assigned name =>
    refine plusToSpace_eq_self_iff.trans ⟨fun hplus => ⟨nofun, hplus⟩, fun h => h.2⟩

/-- The data is left as it was exactly when all that is stored was there already. -/
theorem left_eq_iff (garbage : Nat → Bool → UInt8) (t : UrlText) :
    t.left garbage = t.text ↔ t.Unchanged garbage := by
  have hsplit : t.left garbage = t.text ↔
      fieldsInPlace garbage 0 t.fields = fieldsText t.fields ∧
        (if t.rest = [] then t.last.inPlace garbage t.fields.length
          else plusToSpace t.last.text ++ t.rest) = t.last.text ++ t.rest := by
    rw [left, text]
    refine ⟨fun heq => List.append_inj heq (length_fieldsInPlace garbage 0 t.fields), ?_⟩
    rintro ⟨hfields, hlast⟩
    rw [hfields, hlast]
  rw [hsplit, fieldsInPlace_eq_iff, Unchanged, pairs, forall_getElem?_append, unfinished, and_assoc]
  simp only [Nat.zero_add]
  refine and_congr_right fun _ => ?_
  by_cases hrest : t.rest = []
  · simp only [hrest, if_true, true_and, List.append_nil]
    exact lastInPlace_eq_iff garbage t.fields.length t.last
  · simp [hrest, plusToSpace_eq_self_iff]

end UrlText

/-- The decoder leaves its input as it was exactly when every character that it stores there is
there already. -/
theorem url_data_intact_iff (garbage : Nat → Bool → UInt8) (data : Bytes) :
    (UrlDecoder.outcome (luawUrlDecode garbage data)).2.2 = data ↔
      ∃ t : UrlText, t.text = data ∧ t.Unchanged garbage := by
  constructor
  · intro hleft
    obtain ⟨t, rfl⟩ := UrlText.exists_text data
    rw [outcome_luawUrlDecode] at hleft
    exact ⟨t, rfl, (t.left_eq_iff garbage).mp hleft⟩
  · rintro ⟨t, rfl, hunchanged⟩
    rw [outcome_luawUrlDecode]
    exact (t.left_eq_iff garbage).mpr hunchanged

/-- A plus sign in a value. -/
theorem plus_overwritten : ¬∀ (garbage : Nat → Bool → UInt8) (data : Bytes),
    (UrlDecoder.outcome (luawUrlDecode garbage data)).2.2 = data := by
  intro h
  exact absurd (h (fun _ _ => 0) (text "a=b+c")) (by decide)

end Luaw.Http
