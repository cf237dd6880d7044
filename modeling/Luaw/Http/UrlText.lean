import Mathlib.Data.List.TakeWhile
import Luaw.Http.UrlDecoding

/-!
# What the URL decoder makes of its input

The input is a row of fields, up to where the scan stops. A field with a value is decoded in place,
and its name and its value are passed on.
-/

namespace Luaw.Http

open Lua

/-- How far the field goes at which the scan stops. -/
inductive LastField where
  | start
  | inName (name : Bytes)
  | assigned (name : Bytes)
  | inValue (name value : Bytes)

/-- A name or a value. -/
structure FieldPart (str : Bytes) : Prop where
  nonempty : str ≠ []
  plain : NoSeparator str

namespace LastField

def text : LastField → Bytes
  | .start => []
  | .inName name => name
  | .assigned name => name ++ [61]
  | .inValue name value => name ++ 61 :: value

def WellFormed : LastField → Prop
  | .start => True
  | .inName name | .assigned name => FieldPart name
  | .inValue name value => FieldPart name ∧ FieldPart value

/-- The scan stops at the end, or at a separator that cannot be there. -/
def Stops : LastField → Bytes → Prop
  | .start, rest | .assigned _, rest => AtSeparator rest
  | .inName _, rest => ∀ ch ∈ rest.head?, ch = 38
  | .inValue _ _, rest => ∀ ch ∈ rest.head?, ch = 61

def pairs : LastField → List (Bytes × Bytes)
  | .inValue name value => [(name, value)]
  | _ => []

/-- What the decoder expects at the separator that stops it. -/
def expecting : LastField → String
  | .start => "expecting start of param name"
  | .inName _ => "parsing param name"
  | .assigned _ => "expecting start of param value"
  | .inValue _ _ => "parsing param value"

/-- The error at the separator in front of `rest`. -/
def mesg (last : LastField) (rest : Bytes) : LuaError :=
  Luaw.text "400 Bad URL encoding: Error while " ++ Luaw.text last.expecting ++
    Luaw.text " at: " ++ rest.takeWhile (· ≠ 0) ++ Luaw.text "\n"

/-- What is left of the field at the end of the data. -/
def inPlace (garbage : Nat → Bool → UInt8) (k : Nat) : LastField → Bytes
  | .inValue name value => pairInPlace garbage k (name, value)
  | last => plusToSpace last.text

end LastField

/-- The data as the decoder sees it: fields that are complete, one that need not be, and what comes
after the scan has stopped. -/
structure UrlText where
  fields : List (Bytes × Bytes)
  last : LastField
  rest : Bytes
  fields_parts : ∀ p ∈ fields, FieldPart p.1 ∧ FieldPart p.2
  last_wf : last.WellFormed
  stops : last.Stops rest

/-- Fields that an ampersand ends. -/
def fieldsText (fields : List (Bytes × Bytes)) : Bytes :=
  fields.flatMap fun (name, value) => name ++ 61 :: (value ++ [38])

/-- What is passed on for the fields from the `k`-th one on. -/
def decodedPairs (garbage : Nat → Bool → UInt8) (k : Nat) : List (Bytes × Bytes) →
    List (Bytes × Bytes)
  | [] => []
  | pair :: pairs => decodedPair garbage k pair :: decodedPairs garbage (k + 1) pairs

def fieldsInPlace (garbage : Nat → Bool → UInt8) (k : Nat) : List (Bytes × Bytes) → Bytes
  | [] => []
  | pair :: pairs => pairInPlace garbage k pair ++ 38 :: fieldsInPlace garbage (k + 1) pairs

theorem length_fieldsInPlace (garbage : Nat → Bool → UInt8) (k : Nat)
    (fields : List (Bytes × Bytes)) :
    (fieldsInPlace garbage k fields).length = (fieldsText fields).length := by
  induction fields generalizing k with
  | nil => rfl
  | cons pair fields ih =>
    obtain ⟨name, value⟩ := pair
    simp [fieldsInPlace, ih, fieldsText, pairInPlace, length_decodedInPlace]

namespace UrlText

def text (t : UrlText) : Bytes := fieldsText t.fields ++ (t.last.text ++ t.rest)

/-- The pairs that are passed on: the last one only at the end of the data. -/
def pairs (t : UrlText) : List (Bytes × Bytes) :=
  t.fields ++ if t.rest = [] then t.last.pairs else []

def error? (t : UrlText) : Option LuaError := if t.rest = [] then none else some (t.last.mesg t.rest)

/-- The data when the decoder is done. -/
def left (garbage : Nat → Bool → UInt8) (t : UrlText) : Bytes :=
  fieldsInPlace garbage 0 t.fields ++
    if t.rest = [] then t.last.inPlace garbage t.fields.length
    else plusToSpace t.last.text ++ t.rest

/-- Every input can be read in this way. -/
theorem exists_text (data : Bytes) : ∃ t : UrlText, t.text = data := by
  induction hlen : data.length using Nat.strong_induction_on generalizing data with
  | _ len ih =>
  have hspan : ∀ str : Bytes, ∃ part rest, str = part ++ rest ∧ NoSeparator part ∧
      AtSeparator rest := by
    intro str
    refine ⟨str.takeWhile fun ch => ch ≠ 38 ∧ ch ≠ 61, str.dropWhile fun ch => ch ≠ 38 ∧ ch ≠ 61,
      List.takeWhile_append_dropWhile.symm, fun ch hch => ?_, fun ch hch => ?_⟩
    · simpa using List.mem_takeWhile_imp hch
    · have hstop := List.head?_dropWhile_not (fun ch : UInt8 => decide (ch ≠ 38 ∧ ch ≠ 61)) str
      rw [Option.mem_def.mp hch] at hstop
      simpa [or_iff_not_imp_left] using hstop
  obtain ⟨name, rest, rfl, hname, hrest⟩ := hspan data
  by_cases hne : name = []
  · exact ⟨⟨[], .start, rest, nofun, .intro, hrest⟩, by simp [text, fieldsText, LastField.text, hne]⟩
  obtain - | ⟨ch, rest⟩ := rest
  · exact ⟨⟨[], .inName name, [], nofun, ⟨hne, hname⟩, nofun⟩, rfl⟩
  obtain rfl | rfl := hrest ch rfl
  · exact ⟨⟨[], .inName name, 38 :: rest, nofun, ⟨hne, hname⟩, by simp [LastField.Stops]⟩, rfl⟩
  · obtain ⟨value, rest, rfl, hvalue, hrest⟩ := hspan rest
    by_cases hne' : value = []
    · exact ⟨⟨[], .assigned name, rest, nofun, ⟨hne, hname⟩, hrest⟩,
        by simp [text, fieldsText, LastField.text, hne']⟩
    obtain - | ⟨ch, rest⟩ := rest
    · exact ⟨⟨[], .inValue name value, [], nofun, ⟨⟨hne, hname⟩, ⟨hne', hvalue⟩⟩, nofun⟩,
        by simp [text, fieldsText, LastField.text]⟩
    rcases (hrest ch rfl).symm with rfl | rfl
    · exact ⟨⟨[], .inValue name value, 61 :: rest, nofun, ⟨⟨hne, hname⟩, ⟨hne', hvalue⟩⟩,
        by simp [LastField.Stops]⟩, by simp [text, fieldsText, LastField.text]⟩
    · -- the field is complete, and the next one follows
      obtain ⟨t, rfl⟩ := ih rest.length (by simp at hlen; omega) rest rfl
      refine ⟨⟨(name, value) :: t.fields, t.last, t.rest, ?_, t.last_wf, t.stops⟩,
        by simp [text, fieldsText]⟩
      intro p hp
      cases hp with
      | head => exact ⟨⟨hne, hname⟩, ⟨hne', hvalue⟩⟩
      | tail _ hp => exact t.fields_parts p hp

end UrlText

namespace UrlDecoder

section Outcome

variable (garbage : Nat → Bool → UInt8) {d : UrlDecoder} {before rest : Bytes}

theorem outcome_malformed (d : UrlDecoder) (before rest : Bytes) (last : LastField) :
    outcome (.error ((d.place before rest).malformed last.expecting)) =
      (some (last.mesg rest), d.calls, before ++ rest) := by
  simp [outcome, malformed, LastField.mesg, cString, place]

/-- The scan stops at a separator. -/
theorem outcome_stop {ch : UInt8} (last : LastField)
    (h : (d.place before (ch :: rest)).scan garbage ch =
      .error ((d.place before (ch :: rest)).malformed last.expecting)) (len : Nat) :
    outcome ((d.place before (ch :: rest)).run garbage (len + 1)) =
      (some (last.mesg (ch :: rest)), d.calls, before ++ ch :: rest) := by
  rw [run_step_error (step_place_error h)]
  exact outcome_malformed d before (ch :: rest) last

/-- Without a value nothing is passed on. -/
theorem handle_valueless (hvalue : d.valueLen = 0) :
    d.handleNameValuePair garbage = .ok d := by
  have hfilter : d.value.filter (fun _ => decide (0 < d.valueLen)) = none := by simp [hvalue]
  rw [handleNameValuePair, hfilter]
  simp [hvalue]

theorem outcome_end (h : d.handleNameValuePair garbage = .ok d) :
    outcome (d.run garbage 0) = (none, d.calls, d.data) := by
  rw [run, h]
  rfl

theorem Settled.outcome_start (h : d.Settled) (hrest : AtSeparator rest) (before : Bytes) :
    outcome ((d.place before rest).run garbage rest.length) =
      (if rest = [] then none else some (LastField.start.mesg rest), d.calls, before ++ rest) := by
  have hplace := h.place before rest
  cases rest with
  | nil => exact outcome_end garbage (hplace.handle garbage)
  | cons ch rest =>
    refine outcome_stop garbage .start ?_ rest.length
    rw [UrlDecoder.scan, hplace.ds]
    simp only [hplace.handle garbage, hrest ch rfl, if_true]
    show Except.error (malformed (settle _) _) = _
    rw [hplace.settle_eq]
    rfl

theorem outcome_inName (hds : d.ds = .inName) (hvalue : d.valueLen = 0) {name : Bytes}
    (hrest : (LastField.inName name).Stops rest) (before : Bytes) :
    outcome ((d.place before rest).run garbage rest.length) =
      (if rest = [] then none else some ((LastField.inName name).mesg rest), d.calls,
        before ++ rest) := by
  cases rest with
  | nil => exact outcome_end garbage (handle_valueless garbage hvalue)
  | cons ch rest =>
    refine outcome_stop garbage (.inName name) ?_ rest.length
    have hds' : (d.place before (ch :: rest)).ds = .inName := hds
    rw [scan, hds']
    exact if_pos (hrest ch rfl)

theorem outcome_startingValue (hds : d.ds = .startingValue) (hvalue : d.valueLen = 0)
    {name : Bytes} (hrest : (LastField.assigned name).Stops rest) (before : Bytes) :
    outcome ((d.place before rest).run garbage rest.length) =
      (if rest = [] then none else some ((LastField.assigned name).mesg rest), d.calls,
        before ++ rest) := by
  cases rest with
  | nil => exact outcome_end garbage (handle_valueless garbage hvalue)
  | cons ch rest =>
    refine outcome_stop garbage (.assigned name) ?_ rest.length
    have hds' : (d.place before (ch :: rest)).ds = .startingValue := hds
    rw [scan, hds']
    exact if_pos (hrest ch rfl)

theorem outcome_inValue (d : UrlDecoder) {name value : Bytes} (hname : FieldPart name)
    (hvalue : FieldPart value) (hrest : (LastField.inValue name value).Stops rest)
    (before : Bytes) :
    outcome (((d.withPair before.length name value).place
      (before ++ plusToSpace name ++ [61] ++ plusToSpace value) rest).run garbage rest.length) =
      (if rest = [] then none else some ((LastField.inValue name value).mesg rest),
        d.calls ++ decodedPairs garbage d.calls.length (if rest = [] then [(name, value)] else []),
        before ++ if rest = [] then pairInPlace garbage d.calls.length (name, value)
          else plusToSpace name ++ 61 :: plusToSpace value ++ rest) := by
  cases rest with
  | nil =>
    have hdata : ((d.withPair before.length name value).place
        (before ++ plusToSpace name ++ [61] ++ plusToSpace value) []).data =
        before ++ (plusToSpace name ++ 61 :: (plusToSpace value ++ [])) := by
      simp [place]
    rw [List.length_nil, run, handle_pair hname.nonempty hvalue.nonempty atSeparator_nil hdata rfl
      rfl rfl rfl rfl rfl]
    simp only [outcome, decodedPairs, if_true, List.append_nil]
    rfl
  | cons ch rest =>
    obtain rfl : ch = 61 := hrest ch rfl
    have hscan : ((d.withPair before.length name value).place
        (before ++ plusToSpace name ++ [61] ++ plusToSpace value) (61 :: rest)).scan garbage 61 =
        .error (((d.withPair before.length name value).place
          (before ++ plusToSpace name ++ [61] ++ plusToSpace value) (61 :: rest)).malformed
            (LastField.inValue name value).expecting) := rfl
    have hstop := outcome_stop garbage (.inValue name value) hscan rest.length
    simpa [decodedPairs] using hstop

/-- The field at which the scan stops. -/
theorem Settled.outcome_last (h : d.Settled) {last : LastField} (hwf : last.WellFormed)
    (hstops : last.Stops rest) (before : Bytes) :
    outcome ((d.place before (last.text ++ rest)).run garbage (last.text.length + rest.length)) =
      (if rest = [] then none else some (last.mesg rest),
        d.calls ++ decodedPairs garbage d.calls.length (if rest = [] then last.pairs else []),
        before ++ if rest = [] then last.inPlace garbage d.calls.length
          else plusToSpace last.text ++ rest) := by
  cases last with
  | start =>
    have hrun := h.outcome_start garbage hstops before
    cases rest <;> simpa [LastField.text, LastField.pairs, LastField.inPlace, plusToSpace,
      decodedPairs] using hrun
  | inName name =>
    have hrun := outcome_inName garbage (d := { d with
      ds := .inName
      name := some before.length
      nameLen := name.length
      hexName := 37 ∈ name }) rfl h.valueLen hstops
      (before ++ plusToSpace name)
    rw [LastField.text, h.run_name hwf.nonempty hwf.plain, hrun]
    cases rest <;> simp [LastField.text, LastField.pairs, LastField.inPlace, decodedPairs]
  | assigned name =>
    have hrun := outcome_startingValue garbage (d := { d with
      ds := .startingValue
      name := some before.length
      nameLen := name.length
      hexName := 37 ∈ name }) rfl h.valueLen hstops (before ++ plusToSpace name ++ [61])
    rw [LastField.text, List.length_append, List.append_assoc, Nat.add_assoc]
    refine (congrArg outcome (h.run_assigned hwf.nonempty hwf.plain before rest rest.length)).trans
      (hrun.trans ?_)
    cases rest <;> simp [LastField.text, LastField.pairs, LastField.inPlace, decodedPairs,
      plusToSpace]
  | inValue name value =>
    obtain ⟨hname, hvalue⟩ := hwf
    rw [LastField.text, List.length_append, List.length_cons, List.append_assoc, List.cons_append,
      Nat.add_assoc, Nat.add_right_comm value.length, Nat.add_comm _ 1,
      h.run_pair hname.nonempty hname.plain hvalue.nonempty hvalue.plain,
      outcome_inValue garbage d hname hvalue hstops]
    simp [LastField.pairs, LastField.inPlace, plusToSpace]

/-- The whole scan, from a field on. -/
theorem Settled.outcome_fields (h : d.Settled) {fields : List (Bytes × Bytes)} {last : LastField}
    (hfields : ∀ p ∈ fields, FieldPart p.1 ∧ FieldPart p.2) (hwf : last.WellFormed)
    (hstops : last.Stops rest) (before : Bytes) :
    outcome ((d.place before (fieldsText fields ++ (last.text ++ rest))).run garbage
      (fieldsText fields ++ (last.text ++ rest)).length) =
      (if rest = [] then none else some (last.mesg rest),
        d.calls ++ decodedPairs garbage d.calls.length
          (fields ++ if rest = [] then last.pairs else []),
        before ++ fieldsInPlace garbage d.calls.length fields ++
          if rest = [] then last.inPlace garbage (d.calls.length + fields.length)
            else plusToSpace last.text ++ rest) := by
  induction fields generalizing d before with
  | nil =>
    have hlast := h.outcome_last garbage hwf hstops before
    simpa [fieldsText, fieldsInPlace] using hlast
  | cons pair fields ih =>
    obtain ⟨name, value⟩ := pair
    obtain ⟨hname, hvalue⟩ := hfields (name, value) List.mem_cons_self
    obtain ⟨d', hsettled, hcalls, hrun⟩ := h.run_field garbage hname.nonempty
      hname.plain hvalue.nonempty hvalue.plain before (fieldsText fields ++ (last.text ++ rest))
      (fieldsText fields ++ (last.text ++ rest)).length
    have hrest := ih hsettled (fun p hp => hfields p (List.mem_cons_of_mem _ hp))
      (before ++ pairInPlace garbage d.calls.length (name, value) ++ [38])
    have htext : fieldsText ((name, value) :: fields) ++ (last.text ++ rest) =
        name ++ 61 :: (value ++ 38 :: (fieldsText fields ++ (last.text ++ rest))) := by
      simp [fieldsText]
    have hlen : (name ++ 61 :: (value ++ 38 :: (fieldsText fields ++ (last.text ++ rest)))).length =
        name.length + (1 + (value.length +
          (1 + (fieldsText fields ++ (last.text ++ rest)).length))) := by
      simp only [List.length_append, List.length_cons]
      omega
    rw [htext, hlen, hrun, hrest, hcalls]
    simp [decodedPairs, fieldsInPlace, Nat.add_assoc, Nat.add_comm 1]

end Outcome

end UrlDecoder

theorem settled_start (data : Bytes) : (UrlDecoder.start data).Settled := ⟨rfl, rfl, rfl, rfl, rfl⟩

/-- What `luaw_url_decode` makes of any input. -/
theorem outcome_luawUrlDecode (garbage : Nat → Bool → UInt8) (t : UrlText) :
    UrlDecoder.outcome (luawUrlDecode garbage t.text) =
      (t.error?, decodedPairs garbage 0 t.pairs, t.left garbage) := by
  have hfields := (settled_start t.text).outcome_fields garbage t.fields_parts t.last_wf
    t.stops []
  simpa [UrlText.error?, UrlText.pairs, UrlText.left, UrlText.text, UrlDecoder.start,
    UrlDecoder.place, luawUrlDecode] using hfields

def storeHttpParams (params : Params) (pairs : List (Bytes × Bytes)) : Params :=
  pairs.foldl (fun params (name, value) => storeHttpParam params name value) params

/-- Decoding succeeds if the scan goes on to the end. -/
theorem urlDecode_text (hexCh : Nat → Bool → UInt8) (t : UrlText) (params : Params) :
    urlDecode hexCh t.text params =
      match t.error? with
      | none => .ok (storeHttpParams params (decodedPairs hexCh 0 t.pairs), t.left hexCh)
      | some mesg => .error mesg := by
  have houtcome := outcome_luawUrlDecode hexCh t
  rw [urlDecode]
  cases hrun : luawUrlDecode hexCh t.text with
  | ok d =>
    rw [hrun, UrlDecoder.outcome] at houtcome
    obtain ⟨herror, hcalls, hdata⟩ := Prod.ext_iff.mp houtcome |>.imp_right Prod.ext_iff.mp
    simp only at herror hcalls hdata
    rw [← herror, ← hcalls, ← hdata]
    rfl
  | error e =>
    rw [hrun, UrlDecoder.outcome] at houtcome
    have herror := (Prod.ext_iff.mp houtcome).1
    simp only at herror
    rw [← herror]

end Luaw.Http
