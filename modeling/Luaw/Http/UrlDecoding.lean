import Luaw.Http.Params

/-!
# The steps of the URL decoder

What `decode_hex_str` does in place, as a function of the text, and what the scan does for a name,
for a value and for a field with its ampersand.
-/

namespace Luaw.Http

open Lua

/-- The decoder stores a space for each plus sign that it passes. -/
def plusToSpace (str : Bytes) : Bytes := str.map fun ch => if ch = 43 then 32 else ch

/-- `decode_hex_str`, as a function of the text alone. -/
def decodeHex (hexCh : UInt8) : Bytes → Bytes
  | 37 :: a :: b :: str =>
    let ch := (scanHex (a :: b :: str)).getD hexCh
    ch :: decodeHex ch str
  | ch :: str => ch :: decodeHex hexCh str
  | [] => []

/-- A text that is written over the start of another one. -/
def overwrite (new old : Bytes) : Bytes := new ++ old.drop new.length

/-- The text is at its end, or at a separator. -/
def AtSeparator (rest : Bytes) : Prop := ∀ ch ∈ rest.head?, ch = 38 ∨ ch = 61

def NoSeparator (str : Bytes) : Prop := ∀ ch ∈ str, ch ≠ 38 ∧ ch ≠ 61

section Text

theorem plusToSpace_append (s t : Bytes) :
    plusToSpace (s ++ t) = plusToSpace s ++ plusToSpace t := List.map_append

@[simp] theorem length_plusToSpace (str : Bytes) : (plusToSpace str).length = str.length :=
  List.length_map _

theorem plusToSpace_eq_nil {str : Bytes} : plusToSpace str = [] ↔ str = [] := List.map_eq_nil_iff

theorem mem_plusToSpace_percent {str : Bytes} : 37 ∈ plusToSpace str ↔ 37 ∈ str := by
  rw [plusToSpace, List.mem_map]
  constructor
  · rintro ⟨ch, hmem, heq⟩
    split at heq
    · cases heq
    · exact heq ▸ hmem
  · intro hmem
    exact ⟨37, hmem, rfl⟩

@[simp] theorem overwrite_nil (old : Bytes) : overwrite [] old = old := rfl

@[simp] theorem overwrite_self (str : Bytes) : overwrite str str = str := by
  rw [overwrite, List.drop_length, List.append_nil]

theorem overwrite_cons (c ch : UInt8) (new old : Bytes) :
    overwrite (c :: new) (ch :: old) = c :: overwrite new old := rfl

theorem length_overwrite {new old : Bytes} (h : new.length ≤ old.length) :
    (overwrite new old).length = old.length := by
  rw [overwrite, List.length_append, List.length_drop]
  omega

/-- The decoded text is in front. -/
theorem take_overwrite (new old rest : Bytes) :
    (overwrite new old ++ rest).take new.length = new := by
  rw [overwrite, List.append_assoc, List.take_left]

theorem atSeparator_nil : AtSeparator [] := nofun

theorem atSeparator_amp (rest : Bytes) : AtSeparator (38 :: rest) := by simp [AtSeparator]

theorem atSeparator_eq (rest : Bytes) : AtSeparator (61 :: rest) := by simp [AtSeparator]

theorem NoSeparator.tail {ch : UInt8} {str : Bytes} (h : NoSeparator (ch :: str)) :
    NoSeparator str := fun c hc => h c (List.mem_cons_of_mem ch hc)

end Text

section Hex

/-- A property of every byte, to be evaluated. -/
theorem forall_byte {p : UInt8 → Prop} (h : ∀ n : Fin 256, p n.val.toUInt8) (ch : UInt8) : p ch := by
  have hch := h ⟨ch.toNat, ch.toNat_lt⟩
  rwa [Nat.toUInt8, UInt8.ofNat_toNat] at hch

theorem scanHex_cons_congr {str str' : Bytes} (hscan : scanHex str = scanHex str')
    (hhead : str.head? = str'.head?) (ch : UInt8) : scanHex (ch :: str) = scanHex (ch :: str') := by
  rw [scanHex, scanHex, hscan, hhead]

/-- The conversion does not look past a separator. -/
theorem scanHex_append {rest : Bytes} (hrest : AtSeparator rest) (str : Bytes) :
    scanHex (str ++ rest) = scanHex str := by
  have hdigit : rest.head?.bind ChunkedCoding.digitValue? = none := by
    cases rest with
    | nil => rfl
    | cons ch rest => obtain rfl | rfl := hrest ch rfl <;> rfl
  induction str with
  | nil =>
    cases rest with
    | nil => rfl
    | cons ch rest => obtain rfl | rfl := hrest ch rfl <;> rfl
  | cons ch str ih =>
    cases str with
    | cons ch' str => exact scanHex_cons_congr ih rfl ch
    | nil =>
      have hprefix : ¬(rest.head? = some 120 ∨ rest.head? = some 88) := by
        rintro (h | h) <;> rcases hrest _ h with h | h <;> cases h
      rw [List.singleton_append, scanHex, scanHex]
      have hscan : scanHex rest = none := ih
      simp only [hscan, hdigit, hprefix, and_false, if_false]
      simp [scanHex]

/-- Two hexadecimal digits. -/
theorem scanHex_digits {a b : UInt8} {x y : Nat} (ha : ChunkedCoding.digitValue? a = some x)
    (hb : ChunkedCoding.digitValue? b = some y) (str : Bytes) :
    scanHex (a :: b :: str) = some (16 * x + y).toUInt8 := by
  have hbyte : ∀ ch : UInt8, ∀ z ∈ ChunkedCoding.digitValue? ch,
      isSpace ch = false ∧ ch ≠ 43 ∧ ch ≠ 45 ∧ ch ≠ 120 ∧ ch ≠ 88 :=
    forall_byte (by decide +kernel)
  obtain ⟨hspace, hplus, hminus, -, -⟩ := hbyte a x ha
  obtain ⟨-, -, -, hx, hX⟩ := hbyte b y hb
  simp [scanHex, hspace, hplus, hminus, hx, hX, ha, hb]

theorem decodeHex_cons {ch : UInt8} {str : Bytes} (h : ch ≠ 37 ∨ str.length < 2) (hexCh : UInt8) :
    decodeHex hexCh (ch :: str) = ch :: decodeHex hexCh str := by
  rw [decodeHex]
  rintro a b str' rfl rfl
  obtain h | h := h
  · exact h rfl
  · simp only [List.length_cons] at h
    omega

theorem decodeHex_eq_nil {hexCh : UInt8} {str : Bytes} : decodeHex hexCh str = [] ↔ str = [] := by
  fun_cases decodeHex hexCh str <;> simp

theorem length_decodeHex_le (hexCh : UInt8) (str : Bytes) :
    (decodeHex hexCh str).length ≤ str.length := by
  fun_induction decodeHex hexCh str with
  | case1 hexCh a b str ch ih =>
    simp only [List.length_cons]
    omega
  | case2 hexCh ch str _ ih =>
    simp only [List.length_cons]
    omega
  | case3 hexCh => exact Nat.le_refl 0

theorem decodeHex_plain {str : Bytes} (h : 37 ∉ str) (hexCh : UInt8) :
    decodeHex hexCh str = str := by
  induction str with
  | nil => rfl
  | cons ch str ih =>
    rw [decodeHex_cons (.inl (List.ne_of_not_mem_cons h).symm),
      ih (List.not_mem_of_not_mem_cons h)]

section Loop

variable {hexCh : UInt8} {data : Bytes} {readPtr writePtr : Nat}

theorem decodeHexLoop_char {len : Nat} (h : data.getD readPtr 0 ≠ 37 ∨ len < 2) :
    decodeHexLoop hexCh data readPtr writePtr (len + 1) =
      decodeHexLoop hexCh (data.set writePtr (data.getD readPtr 0)) (readPtr + 1) (writePtr + 1)
        len := by
  match len with
  | 0 => rfl
  | 1 => rfl
  | len + 2 =>
    have hne : data.getD readPtr 0 ≠ 37 := h.resolve_right (by omega)
    rw [decodeHexLoop, if_neg hne]

theorem decodeHexLoop_escape {len : Nat} (h : data.getD readPtr 0 = 37) :
    decodeHexLoop hexCh data readPtr writePtr (len + 3) =
      decodeHexLoop ((scanHex (data.drop (readPtr + 1))).getD hexCh)
        (data.set writePtr ((scanHex (data.drop (readPtr + 1))).getD hexCh)) (readPtr + 3)
        (writePtr + 1) len := by
  rw [decodeHexLoop, if_pos h]

end Loop

theorem set_middle (pre tail : Bytes) (x ch : UInt8) :
    (pre ++ x :: tail).set pre.length ch = pre ++ ch :: tail := by
  rw [List.set_append_right _ _ (Nat.le_refl _), Nat.sub_self, List.set_cons_zero]

theorem getD_length (pre tail : Bytes) : (pre ++ tail).getD pre.length 0 = tail.headD 0 := by
  rw [List.getD_eq_getElem?_getD, List.getElem?_append_right (Nat.le_refl _), Nat.sub_self]
  cases tail <;> rfl

theorem getD_middle (pre tail : Bytes) (x : UInt8) : (pre ++ x :: tail).getD pre.length 0 = x :=
  getD_length pre (x :: tail)

/-- The loop has written `pre` and has still to read `str`; `gap` has been read, and not been
overwritten. -/
theorem decodeHexLoop_eq {rest : Bytes} (hrest : AtSeparator rest) (hexCh : UInt8)
    (pre gap str : Bytes) :
    decodeHexLoop hexCh (pre ++ (gap ++ (str ++ rest))) (pre.length + gap.length) pre.length
      str.length = (pre ++ (overwrite (decodeHex hexCh str) (gap ++ str) ++ rest),
        pre.length + (decodeHex hexCh str).length) := by
  have hread : ∀ (pre gap tail : Bytes) (ch : UInt8),
      (pre ++ (gap ++ ch :: tail)).getD (pre.length + gap.length) 0 = ch := by
    intro pre gap tail ch
    rw [← List.append_assoc, ← List.length_append]
    exact getD_middle _ tail ch
  fun_induction decodeHex hexCh str generalizing pre gap with
  | case1 hexCh a b str ch ih =>
    -- an escape: three characters more are in the gap, whose first is overwritten
    obtain ⟨x, gap', hgap⟩ := List.exists_cons_of_ne_nil
      (List.append_ne_nil_of_right_ne_nil gap (List.cons_ne_nil (37 : UInt8) [a, b]))
    have hlen : gap.length + 3 = gap'.length + 1 := by
      simpa using congrArg List.length hgap
    have hgap : ∀ tail, gap ++ 37 :: a :: b :: tail = x :: (gap' ++ tail) := by
      intro tail
      rw [← List.cons_append, ← hgap]
      simp
    have hscan : scanHex ((pre ++ (gap ++ (37 :: a :: b :: str ++ rest))).drop
        (pre.length + gap.length + 1)) = scanHex (a :: b :: str) := by
      rw [← List.append_assoc, ← List.length_append, ← List.drop_drop, List.drop_left]
      exact scanHex_append hrest (a :: b :: str)
    simp only [List.cons_append] at hscan ⊢
    rw [List.length_cons, List.length_cons, List.length_cons,
      decodeHexLoop_escape (hread pre gap _ 37), hscan]
    have hih := ih (pre ++ [ch]) gap'
    simp only [List.length_append, List.length_singleton, List.append_assoc,
      List.singleton_append] at hih
    have hptr : pre.length + gap.length + 3 = pre.length + 1 + gap'.length := by omega
    rw [hgap, hgap, set_middle, hptr]
    refine hih.trans ?_
    simp only [overwrite_cons, List.length_cons, List.cons_append, Nat.add_assoc,
      Nat.add_comm 1]
  | case2 hexCh ch str hplain ih =>
    -- a character that stands for itself takes the place of the first one of the gap
    obtain ⟨x, gap', hgap⟩ := List.exists_cons_of_ne_nil
      (List.append_ne_nil_of_right_ne_nil gap (List.cons_ne_nil ch []))
    have hlen : gap.length + 1 = gap'.length + 1 := by
      simpa using congrArg List.length hgap
    have hgap : ∀ tail, gap ++ ch :: tail = x :: (gap' ++ tail) := by
      intro tail
      rw [← List.cons_append, ← hgap]
      simp
    have hchar : (pre ++ (gap ++ (ch :: str ++ rest))).getD (pre.length + gap.length) 0 ≠ 37 ∨
        str.length < 2 := by
      rw [List.cons_append, hread]
      by_cases hch : ch = 37
      · refine .inr (Nat.lt_of_not_le fun hlong => ?_)
        match str, hlong with
        | a :: b :: str', _ => exact hplain a b str' hch rfl
      · exact .inl hch
    rw [List.length_cons, decodeHexLoop_char hchar]
    have hih := ih (pre ++ [ch]) gap'
    simp only [List.length_append, List.length_singleton, List.append_assoc,
      List.singleton_append] at hih
    have hptr : pre.length + gap.length + 1 = pre.length + 1 + gap'.length := by omega
    simp only [List.cons_append]
    rw [hread, hgap, hgap, set_middle, hptr]
    refine hih.trans ?_
    simp only [overwrite_cons, List.length_cons, List.cons_append, Nat.add_assoc,
      Nat.add_comm 1]
  | case3 hexCh =>
    rw [List.length_nil, decodeHexLoop, overwrite_nil]
    simp

theorem decodeHexStr_eq {rest : Bytes} (hrest : AtSeparator rest) (hexCh : UInt8)
    (pre str : Bytes) :
    decodeHexStr hexCh (pre ++ (str ++ rest)) pre.length str.length =
      (pre ++ (overwrite (decodeHex hexCh str) str ++ rest), (decodeHex hexCh str).length) := by
  have hloop := decodeHexLoop_eq hrest hexCh pre [] str
  rw [List.nil_append, List.length_nil, Nat.add_zero] at hloop
  simp only [decodeHexStr, hloop, Nat.add_sub_cancel_left, List.nil_append]

end Hex

/-- What is passed on for a name and its value, the `k`-th ones. -/
def decodedPair (garbage : Nat → Bool → UInt8) (k : Nat) : Bytes × Bytes → Bytes × Bytes
  | (name, value) => (decodeHex (garbage k false) (plusToSpace name),
      decodeHex (garbage k true) (plusToSpace value))

/-- What is left of a text that has been decoded in place. -/
def decodedInPlace (hexCh : UInt8) (str : Bytes) : Bytes :=
  overwrite (decodeHex hexCh (plusToSpace str)) (plusToSpace str)

def pairInPlace (garbage : Nat → Bool → UInt8) (k : Nat) : Bytes × Bytes → Bytes
  | (name, value) =>
    decodedInPlace (garbage k false) name ++ 61 :: decodedInPlace (garbage k true) value

theorem length_decodedInPlace (hexCh : UInt8) (str : Bytes) :
    (decodedInPlace hexCh str).length = str.length := by
  rw [decodedInPlace, length_overwrite (length_decodeHex_le _ _), length_plusToSpace]

namespace UrlDecoder

/-- What a caller of `luaw_url_decode` sees: the error, the parameters and the data. -/
def outcome : Except (LuaError × UrlDecoder) UrlDecoder →
    Option LuaError × List (Bytes × Bytes) × Bytes
  | .ok d => (none, d.calls, d.data)
  | .error (mesg, d) => (some mesg, d.calls, d.data)

/-- The decoder has passed `before`, and `rest` is to come. -/
def place (d : UrlDecoder) (before rest : Bytes) : UrlDecoder :=
  { d with data := before ++ rest, readPtr := before.length }

/-- No name and no value is pending. -/
structure Settled (d : UrlDecoder) : Prop where
  ds : d.ds = .startingName
  nameLen : d.nameLen = 0
  hexName : d.hexName = false
  valueLen : d.valueLen = 0
  hexValue : d.hexValue = false

section Steps

variable {garbage : Nat → Bool → UInt8} {d d' : UrlDecoder} {before rest : Bytes} {ch : UInt8}

/-- A character is passed. -/
theorem step_place (h : (d.place before (ch :: rest)).scan garbage ch =
      .ok (d'.place before (ch :: rest))) :
    (d.place before (ch :: rest)).step garbage = .ok (d'.place (before ++ plusToSpace [ch]) rest) := by
  have hch : (d.place before (ch :: rest)).data.getD (d.place before (ch :: rest)).readPtr 0 = ch :=
    getD_middle before rest ch
  rw [step, hch, h]
  show Except.ok (advance _ ch) = _
  rw [advance, place, place]
  by_cases hplus : ch = 43
  · simp [hplus, plusToSpace]
  · simp [hplus, plusToSpace]

theorem step_place_error {e : LuaError × UrlDecoder}
    (h : (d.place before (ch :: rest)).scan garbage ch = .error e) :
    (d.place before (ch :: rest)).step garbage = .error e := by
  have hch : (d.place before (ch :: rest)).data.getD (d.place before (ch :: rest)).readPtr 0 = ch :=
    getD_middle before rest ch
  rw [step, hch, h]
  rfl

theorem run_step (h : d.step garbage = .ok d') (len : Nat) :
    d.run garbage (len + 1) = d'.run garbage len := by
  rw [run, h]
  rfl

theorem run_step_error {e : LuaError × UrlDecoder} (h : d.step garbage = .error e) (len : Nat) :
    d.run garbage (len + 1) = .error e := by
  rw [run, h]
  rfl

theorem scan_inName (hds : d.ds = .inName) (hamp : ch ≠ 38) (heq : ch ≠ 61) :
    d.scan garbage ch =
      .ok { d with nameLen := d.nameLen + 1, hexName := d.hexName || ch = 37 } := by
  rw [scan, hds]
  simp only [if_neg hamp, if_neg heq]

theorem scan_inValue (hds : d.ds = .inValue) (hamp : ch ≠ 38) (heq : ch ≠ 61) :
    d.scan garbage ch =
      .ok { d with valueLen := d.valueLen + 1, hexValue := d.hexValue || ch = 37 } := by
  rw [scan, hds]
  simp only [if_neg hamp, if_neg heq]

/-- A decoder that counts the characters of a name or a value, and looks for percent signs. -/
def Counts (garbage : Nat → Bool → UInt8) (counted : Nat → Bool → UrlDecoder) : Prop :=
  ∀ ⦃n hex ch before rest⦄, ch ≠ 38 → ch ≠ 61 →
    ((counted n hex).place before (ch :: rest)).scan garbage ch =
      .ok ((counted (n + 1) (hex || ch = 37)).place before (ch :: rest))

/-- The rest of a name or a value, up to where it ends. -/
theorem Counts.run {counted : Nat → Bool → UrlDecoder} (h : Counts garbage counted)
    {chars : Bytes} (hchars : NoSeparator chars) (n : Nat) (hex : Bool) (before rest : Bytes)
    (len : Nat) :
    ((counted n hex).place before (chars ++ rest)).run garbage (chars.length + len) =
      ((counted (n + chars.length) (hex || 37 ∈ chars)).place
        (before ++ plusToSpace chars) rest).run garbage len := by
  induction chars generalizing n hex before with
  | nil => simp [plusToSpace]
  | cons ch chars ih =>
    obtain ⟨hamp, heq⟩ := hchars ch List.mem_cons_self
    have hscan := @h n hex ch before (chars ++ rest) hamp heq
    rw [List.cons_append, List.length_cons, Nat.add_right_comm, run_step (step_place hscan),
      ih hchars.tail, List.append_assoc, ← plusToSpace_append]
    simp only [List.singleton_append, List.mem_cons, eq_comm, Bool.decide_or, Bool.or_assoc,
      Nat.add_assoc, Nat.add_comm 1]

/-- A whole name or value, whose first character is scanned in another state. -/
theorem Counts.run_from {counted : Nat → Bool → UrlDecoder} (h : Counts garbage counted)
    {before : Bytes}
    (hfirst : ∀ ch rest, ch ≠ 38 → ch ≠ 61 → (d.place before (ch :: rest)).scan garbage ch =
      .ok ((counted 1 (ch = 37)).place before (ch :: rest)))
    {chars : Bytes} (hne : chars ≠ []) (hchars : NoSeparator chars) (rest : Bytes) (len : Nat) :
    (d.place before (chars ++ rest)).run garbage (chars.length + len) =
      ((counted chars.length (37 ∈ chars)).place
        (before ++ plusToSpace chars) rest).run garbage len := by
  obtain ⟨ch, chars, rfl⟩ := List.exists_cons_of_ne_nil hne
  obtain ⟨hamp, heq⟩ := hchars ch List.mem_cons_self
  have hscan := hfirst ch (chars ++ rest) hamp heq
  rw [List.cons_append, List.length_cons, Nat.add_right_comm, run_step (step_place hscan),
    h.run hchars.tail, List.append_assoc, ← plusToSpace_append]
  simp only [List.singleton_append, List.mem_cons, eq_comm, Bool.decide_or, Nat.add_comm 1]

variable (garbage) in
theorem Settled.handle (h : d.Settled) : d.handleNameValuePair garbage = .ok d := by
  have hname : d.name.filter (fun _ => decide (0 < d.nameLen)) = none := by
    simp [h.nameLen]
  rw [handleNameValuePair, hname]
  simp [h.valueLen]

theorem Settled.settle_eq (h : d.Settled) : d.settle = d := by
  obtain ⟨data, readPtr, name, value, hexName, hexValue, nameLen, valueLen, ds, calls⟩ := d
  obtain ⟨rfl, rfl, rfl, rfl, rfl⟩ := h
  rfl

theorem settled_settle (hds : d.ds = .startingName) : d.settle.Settled :=
  ⟨hds, rfl, rfl, rfl, rfl⟩

theorem Settled.place (h : d.Settled) (before rest : Bytes) : (d.place before rest).Settled :=
  ⟨h.ds, h.nameLen, h.hexName, h.valueLen, h.hexValue⟩

/-- At the start of a name the pair that is pending is handled first, whether or not a name
follows. -/
theorem outcome_settle (hds : d.ds = .startingName) (h : d.handleNameValuePair garbage = .ok d')
    (hds' : d'.ds = .startingName)
    (hch : d'.data.getD d'.readPtr 0 = d.data.getD d.readPtr 0) (len : Nat) :
    outcome (d.run garbage len) = outcome (d'.settle.run garbage len) := by
  have hsettled := (settled_settle hds').handle garbage
  cases len with
  | zero =>
    rw [run, run, h, hsettled]
    rfl
  | succ len =>
    have hscan : ∀ ch, d.scan garbage ch = d'.settle.scan garbage ch := by
      intro ch
      rw [scan, scan, hds, (settled_settle hds').ds]
      simp only [h, hsettled]
      rfl
    have hstep : d.step garbage = d'.settle.step garbage := by
      rw [step, step, hscan]
      exact hch ▸ rfl
    rw [run, run, hstep]

theorem Settled.scan (h : d.Settled) (hamp : ch ≠ 38) (heq : ch ≠ 61) :
    d.scan garbage ch = .ok { d with
      ds := .inName, name := some d.readPtr, nameLen := 1, hexName := ch = 37 } := by
  have hhandle := h.handle garbage
  obtain ⟨data, readPtr, name, value, hexName, hexValue, nameLen, valueLen, ds, calls⟩ := d
  obtain ⟨rfl, rfl, rfl, rfl, rfl⟩ := h
  rw [UrlDecoder.scan]
  simp only [hhandle, hamp, heq, or_self, if_false]
  rfl

/-- A name, up to where it ends. -/
theorem Settled.run_name (h : d.Settled) {chars : Bytes} (hne : chars ≠ [])
    (hchars : NoSeparator chars) (before rest : Bytes) (len : Nat) :
    (d.place before (chars ++ rest)).run garbage (chars.length + len) =
      ({ d with
        ds := .inName
        name := some before.length
        nameLen := chars.length
        hexName := 37 ∈ chars }.place (before ++ plusToSpace chars) rest).run garbage len := by
  have hcounts : Counts garbage fun n hex => { d with
      ds := .inName, name := some before.length, nameLen := n, hexName := hex } :=
    fun _ _ _ _ _ hamp heq => scan_inName rfl hamp heq
  exact hcounts.run_from (fun ch rest hamp heq => (h.place before (ch :: rest)).scan hamp heq)
    hne hchars rest len

theorem run_value (hds : d.ds = .startingValue) (hhex : d.hexValue = false) {chars : Bytes}
    (hne : chars ≠ []) (hchars : NoSeparator chars) (before rest : Bytes) (len : Nat) :
    (d.place before (chars ++ rest)).run garbage (chars.length + len) =
      ({ d with
        ds := .inValue
        value := some before.length
        valueLen := chars.length
        hexValue := 37 ∈ chars }.place (before ++ plusToSpace chars) rest).run garbage len := by
  have hcounts : Counts garbage fun n hex => { d with
      ds := .inValue, value := some before.length, valueLen := n, hexValue := hex } :=
    fun _ _ _ _ _ hamp heq => scan_inValue rfl hamp heq
  refine hcounts.run_from (fun ch rest hamp heq => ?_) hne hchars rest len
  have hds' : (d.place before (ch :: rest)).ds = .startingValue := hds
  have hhex' : (d.place before (ch :: rest)).hexValue = false := hhex
  rw [scan, hds']
  simp only [hamp, heq, or_self, if_false, hhex', Bool.false_or]
  rfl

/-- A text that is decoded where it stands, if it has a percent sign. -/
theorem decode_if {rest : Bytes} (hrest : AtSeparator rest) (hexCh : UInt8) (pre str : Bytes) :
    (if 37 ∈ str then decodeHexStr hexCh (pre ++ (plusToSpace str ++ rest)) pre.length str.length
      else (pre ++ (plusToSpace str ++ rest), str.length)) =
      (pre ++ (decodedInPlace hexCh str ++ rest), (decodeHex hexCh (plusToSpace str)).length) := by
  by_cases hhex : 37 ∈ str
  · rw [if_pos hhex, ← length_plusToSpace str, decodeHexStr_eq hrest]
    rfl
  · have hplain := decodeHex_plain (mem_plusToSpace_percent.not.mpr hhex) hexCh
    rw [if_neg hhex, decodedInPlace, hplain, overwrite_self, length_plusToSpace]

theorem slice_decodedInPlace (hexCh : UInt8) (pre str rest : Bytes) :
    slice (pre ++ (decodedInPlace hexCh str ++ rest)) pre.length
      (decodeHex hexCh (plusToSpace str)).length = decodeHex hexCh (plusToSpace str) := by
  rw [slice, List.drop_left, decodedInPlace, take_overwrite]

/-- The pair that is pending is decoded in place and passed on. -/
theorem handle_pair {name value : Bytes} {tail : Bytes} (hname : name ≠ []) (hvalue : value ≠ [])
    (htail : AtSeparator tail)
    (hdata : d.data = before ++ (plusToSpace name ++ 61 :: (plusToSpace value ++ tail)))
    (hnamePtr : d.name = some before.length) (hnameLen : d.nameLen = name.length)
    (hhexName : d.hexName = decide (37 ∈ name))
    (hvaluePtr : d.value = some (before.length + name.length + 1))
    (hvalueLen : d.valueLen = value.length) (hhexValue : d.hexValue = decide (37 ∈ value)) :
    d.handleNameValuePair garbage = .ok { d with
      data := before ++ (pairInPlace garbage d.calls.length (name, value) ++ tail)
      calls := d.calls ++ [decodedPair garbage d.calls.length (name, value)] } := by
  have hnamePos : 0 < name.length := List.length_pos_iff.mpr hname
  have hvaluePos : 0 < value.length := List.length_pos_iff.mpr hvalue
  rw [handleNameValuePair, hnamePtr, hvaluePtr, hnameLen, hvalueLen]
  simp only [Option.filter_some, decide_eq_true_eq, hnamePos, hvaluePos, if_true]
  rw [storePair, hhexName, hhexValue, hdata, hnameLen, hvalueLen]
  simp only [decide_eq_true_eq]
  have hname := decode_if (atSeparator_eq (plusToSpace value ++ tail))
    (garbage d.calls.length false) before name
  have hvalue := decode_if htail (garbage d.calls.length true)
    (before ++ (decodedInPlace (garbage d.calls.length false) name ++ [61])) value
  have hptr : (before ++ (decodedInPlace (garbage d.calls.length false) name ++ [61])).length =
      before.length + name.length + 1 := by
    simp [length_decodedInPlace, Nat.add_assoc]
  simp only [hptr, List.append_assoc, List.singleton_append] at hvalue
  rw [hname]
  simp only [hvalue]
  have hnameText := slice_decodedInPlace (garbage d.calls.length false) before name
    (61 :: (decodedInPlace (garbage d.calls.length true) value ++ tail))
  have hvalueText := slice_decodedInPlace (garbage d.calls.length true)
    (before ++ (decodedInPlace (garbage d.calls.length false) name ++ [61])) value tail
  simp only [hptr, List.append_assoc, List.singleton_append] at hvalueText
  rw [hnameText, hvalueText, hnamePtr, hvaluePtr, pairInPlace, decodedPair, List.append_assoc]
  rfl

/-- So it is when the ampersand has been passed. -/
theorem handle_passed {name value passed left : Bytes} (hname : name ≠ []) (hvalue : value ≠ [])
    (hpassed : passed ++ rest =
      before ++ (plusToSpace name ++ 61 :: (plusToSpace value ++ 38 :: rest)))
    (hleft : before ++ (pairInPlace garbage d.calls.length (name, value) ++ 38 :: rest) =
      left ++ rest)
    (hlen : passed.length = left.length)
    (hnamePtr : d.name = some before.length) (hnameLen : d.nameLen = name.length)
    (hhexName : d.hexName = decide (37 ∈ name))
    (hvaluePtr : d.value = some (before.length + name.length + 1))
    (hvalueLen : d.valueLen = value.length) (hhexValue : d.hexValue = decide (37 ∈ value)) :
    (d.place passed rest).handleNameValuePair garbage = .ok ({ d with
      calls := d.calls ++ [decodedPair garbage d.calls.length (name, value)] }.place left rest) := by
  rw [handle_pair (d := d.place passed rest) hname hvalue (atSeparator_amp rest) hpassed hnamePtr
    hnameLen hhexName hvaluePtr hvalueLen hhexValue]
  show Except.ok { d with
    data := before ++ (pairInPlace garbage d.calls.length (name, value) ++ 38 :: rest)
    readPtr := passed.length
    calls := d.calls ++ [decodedPair garbage d.calls.length (name, value)] } = _
  rw [hleft, hlen]
  rfl

theorem step_equals (hds : d.ds = .inName) :
    (d.place before (61 :: rest)).step garbage =
      .ok ({ d with ds := .startingValue }.place (before ++ [61]) rest) := by
  have hds' : (d.place before (61 :: rest)).ds = .inName := hds
  have hscan : (d.place before (61 :: rest)).scan garbage 61 =
      .ok ({ d with ds := .startingValue }.place before (61 :: rest)) := by
    rw [scan, hds']
    rfl
  exact step_place hscan

theorem step_ampersand (hds : d.ds = .inValue) :
    (d.place before (38 :: rest)).step garbage =
      .ok ({ d with ds := .startingName }.place (before ++ [38]) rest) := by
  have hds' : (d.place before (38 :: rest)).ds = .inValue := hds
  have hscan : (d.place before (38 :: rest)).scan garbage 38 =
      .ok ({ d with ds := .startingName }.place before (38 :: rest)) := by
    rw [scan, hds']
    rfl
  exact step_place hscan

/-- The variables behind a name and its value, the first character of the name being at `ptr`. -/
def withPair (d : UrlDecoder) (ptr : Nat) (name value : Bytes) : UrlDecoder :=
  { d with
    ds := .inValue
    name := some ptr
    nameLen := name.length
    hexName := 37 ∈ name
    value := some (ptr + name.length + 1)
    valueLen := value.length
    hexValue := 37 ∈ value }

@[simp] theorem withPair_calls (d : UrlDecoder) (ptr : Nat) (name value : Bytes) :
    (d.withPair ptr name value).calls = d.calls := rfl

theorem Settled.run_assigned (h : d.Settled) {name : Bytes} (hne : name ≠ [])
    (hname : NoSeparator name) (before rest : Bytes) (len : Nat) :
    (d.place before (name ++ 61 :: rest)).run garbage (name.length + (1 + len)) =
      ({ d with
        ds := .startingValue
        name := some before.length
        nameLen := name.length
        hexName := 37 ∈ name }.place (before ++ plusToSpace name ++ [61]) rest).run garbage len := by
  rw [h.run_name hne hname, Nat.add_comm 1 len]
  exact run_step (step_equals rfl) len

theorem Settled.run_pair (h : d.Settled) {name value : Bytes} (hne : name ≠ [])
    (hname : NoSeparator name) (hne' : value ≠ []) (hvalue : NoSeparator value)
    (before rest : Bytes) (len : Nat) :
    (d.place before (name ++ 61 :: (value ++ rest))).run garbage
      (name.length + (1 + (value.length + len))) =
      ((d.withPair before.length name value).place
        (before ++ plusToSpace name ++ [61] ++ plusToSpace value) rest).run garbage len := by
  rw [h.run_assigned hne hname]
  refine (run_value (d := { d with
    ds := .startingValue
    name := some before.length
    nameLen := name.length
    hexName := 37 ∈ name }) rfl h.hexValue hne' hvalue _ rest len).trans ?_
  have hptr : (before ++ plusToSpace name ++ [61]).length = before.length + name.length + 1 := by
    simp [Nat.add_assoc]
  rw [hptr]
  rfl

variable (garbage) in
/-- A name and its value, with the ampersand that ends it. -/
theorem Settled.run_field (h : d.Settled) {name value : Bytes} (hne : name ≠ [])
    (hname : NoSeparator name) (hne' : value ≠ []) (hvalue : NoSeparator value)
    (before rest : Bytes) (len : Nat) :
    ∃ d' : UrlDecoder, d'.Settled ∧
      d'.calls = d.calls ++ [decodedPair garbage d.calls.length (name, value)] ∧
      outcome ((d.place before (name ++ 61 :: (value ++ 38 :: rest))).run garbage
        (name.length + (1 + (value.length + (1 + len))))) =
      outcome ((d'.place (before ++ pairInPlace garbage d.calls.length (name, value) ++ [38])
        rest).run garbage len) := by
  have hpassed : before ++ plusToSpace name ++ [61] ++ plusToSpace value ++ [38] ++ rest =
      before ++ (plusToSpace name ++ 61 :: (plusToSpace value ++ 38 :: rest)) := by simp
  have hleft : before ++ (pairInPlace garbage d.calls.length (name, value) ++ 38 :: rest) =
      before ++ pairInPlace garbage d.calls.length (name, value) ++ [38] ++ rest := by simp
  have hlen : (before ++ plusToSpace name ++ [61] ++ plusToSpace value ++ [38]).length =
      (before ++ pairInPlace garbage d.calls.length (name, value) ++ [38]).length := by
    simp [pairInPlace, length_decodedInPlace]
  rw [h.run_pair hne hname hne' hvalue, Nat.add_comm 1 len, run_step (step_ampersand rfl)]
  have hpair := handle_passed (d := { d.withPair before.length name value with
    ds := .startingName }) hne hne' hpassed hleft hlen rfl rfl rfl rfl rfl rfl
  refine ⟨settle { d.withPair before.length name value with
    ds := .startingName
    calls := d.calls ++ [decodedPair garbage d.calls.length (name, value)] },
    settled_settle rfl, rfl, outcome_settle rfl hpair rfl ?_ len⟩
  -- the characters behind the pair are as they were
  show (before ++ pairInPlace garbage d.calls.length (name, value) ++ [38] ++ rest).getD
    (before ++ pairInPlace garbage d.calls.length (name, value) ++ [38]).length 0 =
    (before ++ plusToSpace name ++ [61] ++ plusToSpace value ++ [38] ++ rest).getD
      (before ++ plusToSpace name ++ [61] ++ plusToSpace value ++ [38]).length 0
  rw [getD_length, getD_length]

end Steps

end UrlDecoder

end Luaw.Http
