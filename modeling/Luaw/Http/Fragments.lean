import Luaw.Http.ParserReports
import Luaw.Http.ScriptParser

/-!
# Messages in pieces

The callbacks make one object of a message, however its data is cut. It says what was sent, under
each name the values of that name in their order, unless the decoder overwrites a string with the
text of one of them.
-/

namespace Luaw.Http

open Lua

/-- The values of the fields with a name. -/
def valuesUnder (name : Bytes) (fields : List (Bytes × Bytes)) : List Bytes :=
  (fields.filter fun field => field.1 = name).map Prod.snd

/-- A single value stands for itself, several ones in a list. -/
def HeaderValue.ofValues : List Bytes → Option HeaderValue
  | [] => none
  | [value] => some (.single value)
  | values => some (.list values)

namespace Headers

theorem get?_add (hName hValue name : Bytes) (headers : Headers) :
    (headers.add hName hValue).get? name =
      if hName = name then
        some ((headers.get? name).elim (.single hValue) fun currValues => currValues.add hValue)
      else headers.get? name := by
  induction headers with
  | nil => rfl
  | cons header headers ih =>
    obtain ⟨name', currValues⟩ := header
    by_cases hname' : name' = hName
    · subst hname'
      by_cases hname : name' = name
      · simp [add, get?, hname]
      · simp [add, get?, hname]
    · by_cases hname : name' = name
      · subst hname
        simp [add, get?, hname', Ne.symm hname']
      · simp [add, get?, hname', hname, ih]

theorem get?_assign (hName hValue name : Bytes) (headers : Headers) :
    (headers.assign hName hValue).get? name =
      if hName = name then some (.single hValue) else headers.get? name := by
  induction headers with
  | nil => rfl
  | cons header headers ih =>
    obtain ⟨name', currValues⟩ := header
    by_cases hname' : name' = hName
    · subst hname'
      by_cases hname : name' = name
      · simp [assign, get?, hname]
      · simp [assign, get?, hname]
    · by_cases hname : name' = name
      · subst hname
        simp [assign, get?, hname', Ne.symm hname']
      · simp [assign, get?, hname', hname, ih]

end Headers

theorem HeaderValue.ofValues_add (values : List Bytes) (hValue : Bytes) :
    some ((ofValues values).elim (.single hValue) fun currValues => currValues.add hValue) =
      ofValues (values ++ [hValue]) := by
  match values with
  | [] => rfl
  | [_] => rfl
  | _ :: _ :: _ => rfl

/-- Fields are added to the values that are there under their names. -/
theorem get?_addFields (name : Bytes) (fields : List (Bytes × Bytes)) {headers : Headers}
    {values : List Bytes} (h : headers.get? name = HeaderValue.ofValues values) :
    (addFields fields headers).get? name =
      HeaderValue.ofValues (values ++ valuesUnder name fields) := by
  induction fields generalizing headers values with
  | nil => simpa [addFields, valuesUnder] using h
  | cons field fields ih =>
    obtain ⟨hName, hValue⟩ := field
    show (addFields fields (headers.add hName hValue)).get? name = _
    have hadd := Headers.get?_add hName hValue name headers
    by_cases hname : hName = name
    · rw [if_pos hname, h, HeaderValue.ofValues_add] at hadd
      rw [ih hadd]
      simp [valuesUnder, hname]
    · rw [if_neg hname] at hadd
      rw [ih (hadd.trans h)]
      simp [valuesUnder, hname]

/-- The Connection header is overwritten when the connection is not to be kept alive. -/
theorem get?_closing {name : Bytes} {keepAlive : Bool}
    (h : keepAlive = true ∨ name ≠ text "Connection") (headers : Headers) :
    (closing keepAlive headers).get? name = headers.get? name := by
  cases keepAlive with
  | true => rfl
  | false =>
    have hname : text "Connection" ≠ name := (h.resolve_left Bool.false_ne_true).symm
    rw [closing, if_neg Bool.false_ne_true, Headers.get?_assign, if_neg hname]

theorem get?_fields (name : Bytes) (fields : List (Bytes × Bytes)) :
    (addFields fields []).get? name = HeaderValue.ofValues (valuesUnder name fields) := by
  have hnone : Headers.get? name [] = HeaderValue.ofValues [] := rfl
  exact get?_addFields name fields hnone

theorem valuesUnder_append (name : Bytes) (fields fields' : List (Bytes × Bytes)) :
    valuesUnder name (fields ++ fields') = valuesUnder name fields ++ valuesUnder name fields' := by
  rw [valuesUnder, List.filter_append, List.map_append]
  rfl

theorem mem_valuesUnder {name value : Bytes} {fields : List (Bytes × Bytes)} :
    value ∈ valuesUnder name fields ↔ (name, value) ∈ fields := by
  rw [valuesUnder, List.mem_map]
  constructor
  · rintro ⟨⟨name', value'⟩, hmem, rfl⟩
    obtain ⟨hfield, hname⟩ := List.mem_filter.mp hmem
    rwa [← of_decide_eq_true hname]
  · exact fun h => ⟨(name, value), List.mem_filter.mpr ⟨h, decide_eq_true rfl⟩, rfl⟩

theorem HeaderValue.values_ofValues {values : List Bytes} {found : HeaderValue}
    (h : ofValues values = some found) : found.values = values := by
  match values with
  | [] => cases h
  | [_] => cases h; rfl
  | _ :: _ :: _ => cases h; rfl

theorem HeaderValue.ofValues_isSome {values : List Bytes} {value : Bytes} (h : value ∈ values) :
    ∃ found, ofValues values = some found := by
  match values with
  | [_] => exact ⟨_, rfl⟩
  | _ :: _ :: _ => exact ⟨_, rfl⟩

section Told

/-- A name whose entry is not overwritten when the connection is to be closed. -/
def Unforced (keepAlive : Bool) (name : Bytes) : Prop :=
  keepAlive = true ∨ name ≠ text "Connection"

instance (keepAlive : Bool) (name : Bytes) : Decidable (Unforced keepAlive name) :=
  inferInstanceAs (Decidable (_ ∨ _))

/-- The headers have the fields, each name its values in their order. -/
def Headers.Have (headers : Headers) (keepAlive : Bool) (fields : List (Bytes × Bytes)) : Prop :=
  ∀ name, Unforced keepAlive name →
    headers.get? name = HeaderValue.ofValues (valuesUnder name fields)

/-- The names and the values of the fields that are kept. -/
def fieldStrings (keepAlive : Bool) (fields : List (Bytes × Bytes)) : List Bytes :=
  (fields.filter fun field => Unforced keepAlive field.1).flatMap fun (name, value) => [name, value]

theorem mem_fieldStrings {keepAlive : Bool} {fields : List (Bytes × Bytes)} {s : Bytes} :
    s ∈ fieldStrings keepAlive fields ↔
      ∃ name value, (name, value) ∈ fields ∧ Unforced keepAlive name ∧ (s = name ∨ s = value) := by
  rw [fieldStrings, List.mem_flatMap]
  constructor
  · rintro ⟨⟨name, value⟩, hfield, hs⟩
    obtain ⟨hmem, hname⟩ := List.mem_filter.mp hfield
    exact ⟨name, value, hmem, of_decide_eq_true hname, by simpa using hs⟩
  · rintro ⟨name, value, hmem, hname, hs⟩
    exact ⟨(name, value), List.mem_filter.mpr ⟨hmem, decide_eq_true hname⟩, by simpa using hs⟩

theorem get?_isSome {headers : Headers} {header : Bytes × HeaderValue} (h : header ∈ headers) :
    (headers.get? header.1).isSome = true := by
  induction headers with
  | nil => cases h
  | cons first headers ih =>
    rw [Headers.get?]
    split
    · rfl
    · next hname =>
      obtain rfl | hmem := List.mem_cons.mp h
      · exact absurd rfl hname
      · exact ih hmem

/-- Overwriting leaves the fields as they are exactly when it is none of their strings. -/
theorem Headers.Have.after_iff {headers : Headers} {keepAlive : Bool}
    {fields : List (Bytes × Bytes)} (h : headers.Have keepAlive fields) {x : Option Overwriting}
    (hproper : ∀ y ∈ x, y.Proper) :
    (Headers.after x headers).Have keepAlive fields ↔
      ∀ y ∈ x, y.data ∉ fieldStrings keepAlive fields := by
  constructor
  · rintro hafter y rfl hmem
    obtain ⟨name, value, hfield, hname, hdata⟩ := mem_fieldStrings.mp hmem
    have hget := hafter name hname
    obtain ⟨found, hfound⟩ := HeaderValue.ofValues_isSome (mem_valuesUnder.mpr hfield)
    rw [hfound] at hget
    obtain rfl | rfl := hdata
    · rw [Headers.get?_after_data (hproper y rfl).changed] at hget
      cases hget
    · refine Headers.values_after_data (hproper y rfl).changed hget ?_
      rw [HeaderValue.values_ofValues hfound]
      exact mem_valuesUnder.mpr hfield
  · intro hstrings name hname
    have hkept : ∀ s ∈ fieldStrings keepAlive fields, textAfter x s = s := fun s hs =>
      textAfter_of_ne fun y hy heq => hstrings y hy (heq ▸ hs)
    rw [Headers.get?_after_of_ne, h name hname]
    · intro header hmem
      by_cases hforced : Unforced keepAlive header.1
      · -- the name of a field that was sent
        obtain ⟨found, hfound⟩ := Option.isSome_iff_exists.mp (get?_isSome hmem)
        rw [h header.1 hforced] at hfound
        obtain ⟨value, hvalue⟩ : ∃ value, value ∈ valuesUnder header.1 fields := by
          cases hvalues : valuesUnder header.1 fields with
          | nil =>
            rw [hvalues] at hfound
            cases hfound
          | cons value _ => exact ⟨value, List.mem_cons_self⟩
        rw [hkept header.1 (mem_fieldStrings.mpr
          ⟨header.1, value, mem_valuesUnder.mp hvalue, hforced, .inl rfl⟩)]
      · have hconnection : header.1 = text "Connection" := by
          by_contra hne
          exact hforced (.inr hne)
        rw [hconnection, (untouched_connection hproper).textAfter_eq]
    · intro found hfound value hvalue
      have hof := (h name hname).symm.trans (Option.mem_def.mp hfound)
      rw [HeaderValue.values_ofValues hof] at hvalue
      exact hkept value (mem_fieldStrings.mpr
        ⟨name, value, mem_valuesUnder.mp hvalue, hname, .inr rfl⟩)

theorem Headers.Have.trailers {headers : Headers} {keepAlive : Bool}
    {fields : List (Bytes × Bytes)} (h : headers.Have keepAlive fields)
    (trailers : List (Bytes × Bytes)) (keepAliveEnd : Bool) :
    (closing keepAliveEnd (addFields trailers headers)).Have (keepAlive && keepAliveEnd)
      (fields ++ trailers) := by
  intro name hname
  have hfirst : Unforced keepAlive name := hname.imp_left fun hboth => by simp_all
  have hlast : Unforced keepAliveEnd name := hname.imp_left fun hboth => by simp_all
  rw [get?_closing hlast, get?_addFields name trailers (h name hfirst), valuesUnder_append]

theorem have_fields (keepAlive : Bool) (fields : List (Bytes × Bytes)) :
    (closing keepAlive (addFields fields [])).Have keepAlive fields := fun name hname => by
  rw [get?_closing hname, get?_fields]

end Told

/-- The events up to the end of the headers. -/
def headEvents : List Event → List Event
  | [] => []
  | e :: evs => if e.isHeadersComplete then [e] else e :: headEvents evs

theorem headEvents_append {before after : List Event} {e : Event}
    (hbefore : ∀ e ∈ before, e.isPlain) (he : e.isHeadersComplete = true) :
    headEvents (before ++ e :: after) = before ++ [e] := by
  induction before with
  | nil => simp [headEvents, he]
  | cons e' before ih =>
    have hplain := (hbefore e' List.mem_cons_self).1
    rw [List.cons_append, headEvents, hplain, if_neg Bool.false_ne_true,
      ih fun e he => hbefore e (List.mem_cons_of_mem _ he), List.cons_append]

/-- The same parser where `hex_ch` holds something else. -/
def HttpParser.withHexCh {σ : Type} (P : HttpParser σ) (hexCh : Bytes → Nat → Bool → UInt8) :
    HttpParser σ :=
  { P with hexCh }

namespace WireMessage

section Object

variable {σ : Type} (P : HttpParser σ)

theorem callbacks_headEvents {m : WireMessage} {evs : List Event} (h : m.Tells evs)
    (req : Request) :
    callbacks P (headEvents evs) req = callback P m.headersComplete (m.head req) := by
  obtain ⟨told, hopen, rfl⟩ := h
  obtain ⟨before, after, rfl, hbefore, -, hhead, -⟩ := hopen.split P
  rw [List.append_assoc, List.cons_append, headEvents_append hbefore rfl, callbacks_append, hhead]
  show (callback P m.headersComplete (m.head req)).bind (callbacks P []) = _
  cases callback P m.headersComplete (m.head req) <;> rfl

/-- The values under `Content-Type` at the end of the message. -/
def contentTypesEnd (m : WireMessage) : List Bytes :=
  (valuesUnder (text "Content-Type") m.fields).map (textAfter (m.queryOverwriting P)) ++
    valuesUnder (text "Content-Type") m.trailers

theorem ofValues_after (x : Option Overwriting) (values : List Bytes) :
    (HeaderValue.ofValues values).map (HeaderValue.after x) =
      HeaderValue.ofValues (values.map (textAfter x)) := by
  match values with
  | [] => rfl
  | [_] => rfl
  | _ :: _ :: _ => rfl

theorem headHeaders_contentType (m : WireMessage) :
    (m.headHeaders P).get? (text "Content-Type") = HeaderValue.ofValues
      ((valuesUnder (text "Content-Type") m.fields).map (textAfter (m.queryOverwriting P))) := by
  rw [headHeaders, Headers.get?_after (untouched_contentType (m.queryOverwriting_proper P)),
    get?_closing (.inr (by decide)), get?_fields, ofValues_after]

theorem lastHeaders_contentType (m : WireMessage) :
    (m.lastHeaders P).get? (text "Content-Type") =
      HeaderValue.ofValues (m.contentTypesEnd P) := by
  rw [lastHeaders, get?_closing (.inr (by decide)),
    get?_addFields _ _ (m.headHeaders_contentType P), contentTypesEnd]

/-- Whether the values under `Content-Type` tell a form; several values raise. -/
def tellsForm : List Bytes → Option Bool
  | [] => some false
  | [contentType] => some (lowerCase contentType = text "application/x-www-form-urlencoded")
  | _ => none

theorem tellsForm_after {x : Option Overwriting} (hproper : ∀ y ∈ x, y.Proper)
    (values values' : List Bytes) :
    tellsForm (values.map (textAfter x) ++ values') = tellsForm (values ++ values') := by
  match values, values' with
  | [], _ => rfl
  | [contentType], [] =>
    have hform := @lowerCase_textAfter x hproper contentType
      (text "application/x-www-form-urlencoded") (by decide)
    exact congrArg some (decide_eq_decide.mpr hform)
  | [_], _ :: _ => rfl
  | _ :: _ :: _, _ => rfl

/-- Whether a form can be decoded does not depend on the parameters that it is added to. -/
theorem urlDecode_map_ok_iff {hexCh : Nat → Bool → UInt8} {body : Bytes} {params : Params} :
    (∃ formed, (urlDecode hexCh body params).map (fun (params, body) => (some params, body)) =
      .ok formed) ↔ ∃ decoded, urlDecode hexCh body [] = .ok decoded := by
  cases hnone : urlDecode hexCh body [] with
  | error e =>
    rw [urlDecode_error hnone]
    constructor <;> rintro ⟨_, h⟩ <;> cases h
  | ok decoded =>
    obtain ⟨-, pairs, -, -, hall⟩ := urlDecode_ok hnone
    rw [hall]
    exact ⟨fun _ => ⟨_, rfl⟩, fun _ => ⟨_, rfl⟩⟩

theorem formParams_ok_iff {headers : Headers} {values : List Bytes}
    (h : headers.get? (text "Content-Type") = HeaderValue.ofValues values) (body : Bytes)
    (params : Option Params) :
    (∃ formed, formParams P headers body params = .ok formed) ↔ tellsForm values = some false ∨
      tellsForm values = some true ∧ ∃ decoded, urlDecode (P.hexCh body) body [] = .ok decoded := by
  rw [formParams, h]
  obtain _ | ⟨contentType, _ | ⟨_, _⟩⟩ := values
  · exact ⟨fun _ => .inl rfl, fun _ => ⟨_, rfl⟩⟩
  · show (∃ formed, (if lowerCase contentType = text "application/x-www-form-urlencoded" then _
      else _) = _) ↔ _
    by_cases hform : lowerCase contentType = text "application/x-www-form-urlencoded"
    · rw [if_pos hform, urlDecode_map_ok_iff]
      simp [tellsForm, hform]
    · rw [if_neg hform]
      simp [tellsForm, hform]
  · refine iff_of_false ?_ ?_
    · rintro ⟨_, h⟩
      cases h
    · rintro (h | ⟨h, _⟩) <;> cases h

/-- The object says what was sent: its first line, and the fields under their names. -/
structure AsSent (m : WireMessage) (keepAlive : Bool) (fields : List (Bytes × Bytes))
    (req : Request) : Prop where
  url : req.url = m.url
  statusMesg : req.statusMesg = m.statusMesg
  headers : req.headers.Have keepAlive fields

/-- The strings of a message that the object has. -/
def strings (m : WireMessage) (keepAlive : Bool) (fields : List (Bytes × Bytes)) : List Bytes :=
  m.url.toList ++ m.statusMesg.toList ++ fieldStrings keepAlive fields

theorem map_textAfter_eq_iff {x : Option Overwriting} (hproper : ∀ y ∈ x, y.Proper)
    (s : Option Bytes) : s.map (textAfter x) = s ↔ ∀ y ∈ x, y.data ∉ s.toList := by
  cases s with
  | none => simp
  | some s =>
    cases x with
    | none => simp
    | some y =>
      simp only [Option.map_some, Option.some.injEq, Option.mem_def, forall_eq',
        Option.toList_some, List.mem_singleton]
      refine ⟨fun heq hdata => textAfter_ne (hproper y rfl).changed s (heq.trans hdata.symm),
        fun hdata => ?_⟩
      exact textAfter_of_ne fun y' hy' heq => hdata (by rw [heq, Option.some.inj hy'])

/-- What was sent is still there exactly when the string that is overwritten is none of it. -/
theorem asSent_after_iff {m : WireMessage} {keepAlive : Bool} {fields : List (Bytes × Bytes)}
    {headers : Headers} (hhave : headers.Have keepAlive fields) {x : Option Overwriting}
    (hproper : ∀ y ∈ x, y.Proper) {req : Request}
    (hurl : req.url = m.url.map (textAfter x))
    (hmesg : req.statusMesg = m.statusMesg.map (textAfter x))
    (hheaders : req.headers = Headers.after x headers) :
    m.AsSent keepAlive fields req ↔ ∀ y ∈ x, y.data ∉ m.strings keepAlive fields := by
  have hstrings : (∀ y ∈ x, y.data ∉ m.strings keepAlive fields) ↔
      (∀ y ∈ x, y.data ∉ m.url.toList) ∧ (∀ y ∈ x, y.data ∉ m.statusMesg.toList) ∧
        ∀ y ∈ x, y.data ∉ fieldStrings keepAlive fields := by
    simp only [strings, List.mem_append, not_or]
    exact ⟨fun h => ⟨fun y hy => (h y hy).1.1, fun y hy => (h y hy).1.2, fun y hy => (h y hy).2⟩,
      fun h y hy => ⟨⟨h.1 y hy, h.2.1 y hy⟩, h.2.2 y hy⟩⟩
  rw [hstrings, ← map_textAfter_eq_iff hproper, ← map_textAfter_eq_iff hproper, ← hurl, ← hmesg,
    ← hhave.after_iff hproper, ← hheaders]
  exact ⟨fun h => ⟨h.url, h.statusMesg, h.headers⟩, fun h => ⟨h.1, h.2.1, h.2.2⟩⟩

/-- What is left of the body. -/
def bodyLeft (m : WireMessage) : Bytes :=
  match formParams P (m.lastHeaders P) m.body none with
  | .error _ => m.body
  | .ok (_, left) => left

/-- No string of the message is overwritten, whatever `hex_ch` holds, and a form in the body
becomes the same text. -/
structure Unaltered (m : WireMessage) : Prop where
  query : ∀ hexCh, ∀ x ∈ m.queryOverwriting (P.withHexCh hexCh),
    x.data ∉ m.strings m.keepAlive m.fields
  form : ∀ hexCh, ∀ x ∈ m.formOverwriting (P.withHexCh hexCh),
    x.data ∉ m.strings (m.keepAlive && m.keepAliveEnd) (m.fields ++ m.trailers)
  body : ∀ hexCh hexCh', m.bodyLeft (P.withHexCh hexCh) = m.bodyLeft (P.withHexCh hexCh')

/-- However the message is cut and whatever `hex_ch` holds, the object says what was sent when the
headers are complete and when the message is, and its body is the same. -/
def FragmentsAlike (m : WireMessage) (req : Request) : Prop :=
  ∃ body, ∀ hexCh evs head last, m.Tells evs →
    callbacks (P.withHexCh hexCh) (headEvents evs) req = .ok head →
    callbacks (P.withHexCh hexCh) evs req = .ok last →
      m.AsSent m.keepAlive m.fields head ∧
      m.AsSent (m.keepAlive && m.keepAliveEnd) (m.fields ++ m.trailers) last ∧
      last.body = some body ∧ last.HasBody (P.withHexCh hexCh) m.body

section HexCh

variable {P} {m : WireMessage} (hexCh : Bytes → Nat → Bool → UInt8)

theorem queryParams_withHexCh {parsedURL : ParsedURL} {found : Params × Option Bytes}
    (h : queryParams P parsedURL = .ok found) :
    ∃ found', queryParams (P.withHexCh hexCh) parsedURL = .ok found' := by
  rw [queryParams] at h ⊢
  cases hquery : parsedURL.queryString with
  | none => exact ⟨_, rfl⟩
  | some queryString =>
    rw [hquery] at h
    dsimp only at h ⊢
    cases hdecode : urlDecode ((P.withHexCh hexCh).hexCh queryString) queryString [] with
    | ok decoded => exact ⟨_, rfl⟩
    | error e =>
      rw [urlDecode_error hdecode (P.hexCh queryString) []] at h
      cases h

/-- Whether a form is refused does not depend on what `hex_ch` holds. -/
theorem formParams_withHexCh {params params' : Option Params} {formed : Option Params × Bytes}
    (h : formParams P (m.lastHeaders P) m.body params = .ok formed) :
    ∃ formed', formParams (P.withHexCh hexCh) (m.lastHeaders (P.withHexCh hexCh)) m.body params' =
      .ok formed' := by
  have hvalues : ∀ P : HttpParser σ, tellsForm (m.contentTypesEnd P) =
      tellsForm (valuesUnder (text "Content-Type") m.fields ++
        valuesUnder (text "Content-Type") m.trailers) := fun P =>
    tellsForm_after (m.queryOverwriting_proper P) _ _
  have hdecode : (∃ decoded, urlDecode (P.hexCh m.body) m.body [] = .ok decoded) →
      ∃ decoded, urlDecode ((P.withHexCh hexCh).hexCh m.body) m.body [] = .ok decoded := by
    rintro ⟨decoded, hok⟩
    cases hother : urlDecode ((P.withHexCh hexCh).hexCh m.body) m.body [] with
    | ok decoded' => exact ⟨decoded', rfl⟩
    | error e => cases (urlDecode_error hother (P.hexCh m.body) []).symm.trans hok
  refine (formParams_ok_iff _ (m.lastHeaders_contentType _) m.body params').mpr ?_
  have hok := (formParams_ok_iff P (m.lastHeaders_contentType P) m.body params).mp ⟨formed, h⟩
  rw [hvalues] at hok ⊢
  exact hok.imp_right (And.imp_right hdecode)

/-- Whether the callbacks raise does not depend on what `hex_ch` holds. -/
theorem object_withHexCh {req last : Request} (h : m.object P req = .ok last) :
    ∃ last', m.object (P.withHexCh hexCh) req = .ok last' := by
  obtain ⟨parsedURL, params, left, params', left', hparse, hquery, hform, -⟩ := (object_ok P h).form
  obtain ⟨⟨params₁, left₁⟩, hquery₁⟩ := queryParams_withHexCh hexCh hquery
  obtain ⟨formed, hform₁⟩ := @formParams_withHexCh σ P m hexCh _ (some params₁) _ hform
  exact object_of (P.withHexCh hexCh) hparse hquery₁ hform₁ req

end HexCh

section Objects

variable {P} {m : WireMessage} {req head last : Request}

theorem ObjectOf.body_left (h : m.ObjectOf P req last) : last.body = some (m.bodyLeft P) := by
  obtain ⟨-, params, -, params', left, -, -, hform, -, hbody⟩ := h.form
  obtain ⟨params₀, hnone⟩ := formParams_left P hform none
  rw [hbody, bodyLeft, hnone]

theorem HeadOf.asSent_iff (h : m.HeadOf P req head) : m.AsSent m.keepAlive m.fields head ↔
    ∀ x ∈ m.queryOverwriting P, x.data ∉ m.strings m.keepAlive m.fields :=
  asSent_after_iff (have_fields m.keepAlive m.fields) (m.queryOverwriting_proper P) h.url
    h.statusMesg h.headers

/-- After headers that are as they were sent, only a form in the body counts. -/
theorem ObjectOf.asSent_iff (h : m.ObjectOf P req last) (hhead : m.HeadOf P req head)
    (hsent : m.AsSent m.keepAlive m.fields head) :
    m.AsSent (m.keepAlive && m.keepAliveEnd) (m.fields ++ m.trailers) last ↔
      ∀ x ∈ m.formOverwriting P,
        x.data ∉ m.strings (m.keepAlive && m.keepAliveEnd) (m.fields ++ m.trailers) := by
  have hurl := h.url
  have hmesg := h.statusMesg
  rw [map_textEnd, ← hhead.url, hsent.url] at hurl
  rw [map_textEnd, ← hhead.statusMesg, hsent.statusMesg] at hmesg
  have hhave := hsent.headers
  rw [hhead.headers] at hhave
  exact asSent_after_iff (hhave.trailers m.trailers m.keepAliveEnd) (m.formOverwriting_proper P)
    hurl hmesg h.headers

end Objects

/-- The object does not depend on how the data of the message is cut, nor on `hex_ch`, and says
what was sent, exactly when no string of the message is overwritten by the decoder. -/
theorem fragments_alike_iff {m : WireMessage} {evs : List Event} (h : m.Tells evs)
    {req last : Request} (hrun : callbacks P evs req = .ok last) :
    m.FragmentsAlike P req ↔ m.Unaltered P := by
  rw [callbacks_tells P h] at hrun
  have hall : ∀ hexCh, ∃ head last,
      callback (P.withHexCh hexCh) m.headersComplete (m.head req) = .ok head ∧
        m.object (P.withHexCh hexCh) req = .ok last := fun hexCh => by
    obtain ⟨last', hlast⟩ := object_withHexCh hexCh hrun
    obtain ⟨head, hhead, -⟩ := Program.except_bind_ok hlast
    exact ⟨head, last', hhead, hlast⟩
  constructor
  · rintro ⟨body, halike⟩
    have hfacts : ∀ hexCh, (∀ x ∈ m.queryOverwriting (P.withHexCh hexCh),
          x.data ∉ m.strings m.keepAlive m.fields) ∧
        (∀ x ∈ m.formOverwriting (P.withHexCh hexCh),
          x.data ∉ m.strings (m.keepAlive && m.keepAliveEnd) (m.fields ++ m.trailers)) ∧
        m.bodyLeft (P.withHexCh hexCh) = body := fun hexCh => by
      obtain ⟨head, last, hhead, hlast⟩ := hall hexCh
      obtain ⟨hsent, hsent', hbody, -⟩ := halike hexCh evs head last h
        ((callbacks_headEvents _ h req).trans hhead) ((callbacks_tells _ h req).trans hlast)
      have hheadOf := headersComplete_head _ hhead
      have hobject := object_ok _ hlast
      exact ⟨hheadOf.asSent_iff.mp hsent, (hobject.asSent_iff hheadOf hsent).mp hsent',
        Option.some.inj (hobject.body_left.symm.trans hbody)⟩
    exact ⟨fun hexCh => (hfacts hexCh).1, fun hexCh => (hfacts hexCh).2.1,
      fun hexCh hexCh' => (hfacts hexCh).2.2.trans (hfacts hexCh').2.2.symm⟩
  · intro hunaltered
    refine ⟨m.bodyLeft P, fun hexCh evs' head last' h' hhead hlast => ?_⟩
    rw [callbacks_headEvents _ h'] at hhead
    rw [callbacks_tells _ h'] at hlast
    have hheadOf := headersComplete_head _ hhead
    have hobject := object_ok _ hlast
    have hsent := hheadOf.asSent_iff.mpr (hunaltered.query hexCh)
    exact ⟨hsent, (hobject.asSent_iff hheadOf hsent).mpr (hunaltered.form hexCh),
      hobject.body_left.trans (congrArg some (hunaltered.body hexCh P.hexCh)), hobject.body⟩

end Object

section Examples

/-- A request whose query string is also the value of a header. -/
def taggedMessage : WireMessage where
  start := .url (text "/?k=a+b")
  fields := [(text "X-Tag", text "k=a+b"), (text "Via", text "a"), (text "Via", [])]
  keepAlive := true
  httpMajor := 1
  httpMinor := 1
  method := some (text "GET")
  status := none
  body := []
  trailers := []
  keepAliveEnd := true

def taggedEvents : List Event :=
  [.messageBegin, .url (text "/?k"), .url (text "=a+b"), .headerField (text "X-T"),
    .headerField (text "ag"), .headerValue (text "k=a+b"), .headerField (text "Via"),
    .headerValue (text "a"), .headerField (text "Via"), .headerValue [],
    .headersComplete true 1 1 (some (text "GET")) none, .messageComplete true]

theorem taggedEvents_tells : taggedMessage.Tells taggedEvents :=
  ⟨_, ⟨_, _, [], _, .cons (text "/?k") (.last (text "=a+b")),
    .cons (.cons (text "X-T") (.last (text "ag"))) (.last (text "k=a+b"))
      (.cons (.last (text "Via")) (.last (text "a"))
        (.cons (.last (text "Via")) (.last []) .nil)), rfl, .nil, rfl⟩, rfl⟩

/-- The URL is cut at its question mark. -/
def queryParser : HttpParser Script :=
  Script.parser [] fun url _ => some ⟨some (url.takeWhile (· ≠ 63)),
    some ((url.dropWhile (· ≠ 63)).drop 1)⟩

theorem fragments_alike_tagged :
    taggedMessage.FragmentsAlike queryParser newServerHttpRequest ↔
      taggedMessage.Unaltered queryParser :=
  fragments_alike_iff queryParser taggedEvents_tells
    (rfl : callbacks _ taggedEvents newServerHttpRequest = .ok _)

/-- The header becomes what is left of the query string. -/
theorem tagged_overwritten :
    (callbacks queryParser taggedEvents newServerHttpRequest).map
        (fun last => last.headers.get? (text "X-Tag")) = .ok (some (.single (text "k=a b"))) ∧
      ¬taggedMessage.FragmentsAlike queryParser newServerHttpRequest := by
  refine ⟨rfl, fun ⟨body, halike⟩ => ?_⟩
  obtain ⟨-, hsent, -⟩ := halike queryParser.hexCh taggedEvents _ _ taggedEvents_tells rfl rfl
  have hget : some (HeaderValue.single (text "k=a b")) = some (.single (text "k=a+b")) :=
    hsent.headers (text "X-Tag") (.inl rfl)
  exact absurd (HeaderValue.single.inj (Option.some.inj hget)) (by decide)

end Examples

end WireMessage

end Luaw.Http
