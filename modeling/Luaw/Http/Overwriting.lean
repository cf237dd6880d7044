import Luaw.Http.Request
import Luaw.Http.UrlText

/-!
# Strings that are overwritten

The decoder stores into the string that it is given, and the VM may keep one object for all the
strings with that text. What it overwrites has a plus or a percent sign, and what it leaves has a
space or an equals sign, so the names and the values that the code looks for stay as they are.
-/

namespace Luaw.Http

open Lua

section Left

theorem plusToSpace_plain {str : Bytes} (hplus : 43 ∉ str) : plusToSpace str = str := by
  refine (List.map_congr_left fun ch hch => ?_).trans (List.map_id _)
  have hne : ch ≠ 43 := by
    rintro rfl
    exact hplus hch
  rw [if_neg hne, id_eq]

theorem mem_plusToSpace {str : Bytes} (h : plusToSpace str ≠ str) : 32 ∈ plusToSpace str := by
  have hplus : 43 ∈ str := by_contra fun hplus => h (plusToSpace_plain hplus)
  exact List.mem_map.mpr ⟨43, hplus, rfl⟩

theorem decodedInPlace_plain {str : Bytes} (hplus : 43 ∉ str) (hhex : 37 ∉ str) (hexCh : UInt8) :
    decodedInPlace hexCh str = str := by
  rw [decodedInPlace, plusToSpace_plain hplus, decodeHex_plain hhex, overwrite_self]

variable (garbage : Nat → Bool → UInt8)

theorem pairInPlace_plain {k : Nat} {name value : Bytes} (hplus : 43 ∉ name ++ 61 :: value)
    (hhex : 37 ∉ name ++ 61 :: value) : pairInPlace garbage k (name, value) = name ++ 61 :: value := by
  simp only [List.mem_append, List.mem_cons, not_or] at hplus hhex
  rw [pairInPlace, decodedInPlace_plain hplus.1 hhex.1, decodedInPlace_plain hplus.2.2 hhex.2.2]

theorem length_pairInPlace (k : Nat) (name value : Bytes) :
    (pairInPlace garbage k (name, value)).length = (name ++ 61 :: value).length := by
  simp [pairInPlace, length_decodedInPlace]

theorem fieldsInPlace_plain (k : Nat) {fields : List (Bytes × Bytes)}
    (hplus : 43 ∉ fieldsText fields) (hhex : 37 ∉ fieldsText fields) :
    fieldsInPlace garbage k fields = fieldsText fields := by
  induction fields generalizing k with
  | nil => rfl
  | cons pair fields ih =>
    obtain ⟨name, value⟩ := pair
    have htext : fieldsText ((name, value) :: fields) =
        (name ++ 61 :: value) ++ 38 :: fieldsText fields := by simp [fieldsText]
    rw [htext, List.mem_append, List.mem_cons] at hplus hhex
    obtain ⟨hpair, hrest⟩ := not_or.mp hplus
    obtain ⟨hpair', hrest'⟩ := not_or.mp hhex
    rw [htext, fieldsInPlace, pairInPlace_plain garbage hpair hpair',
      ih (k + 1) (not_or.mp hrest).2 (not_or.mp hrest').2]

namespace LastField

theorem inPlace_plain (k : Nat) {last : LastField} (hplus : 43 ∉ last.text)
    (hhex : 37 ∉ last.text) : last.inPlace garbage k = last.text := by
  cases last with
  | inValue name value => exact pairInPlace_plain garbage hplus hhex
  | start | inName | assigned => exact plusToSpace_plain hplus

theorem length_inPlace (k : Nat) (last : LastField) :
    (last.inPlace garbage k).length = last.text.length := by
  cases last with
  | inValue name value => exact length_pairInPlace garbage k name value
  | start | inName | assigned => exact length_plusToSpace _

theorem mem_inPlace {k : Nat} {last : LastField} (h : last.inPlace garbage k ≠ last.text) :
    32 ∈ last.inPlace garbage k ∨ 61 ∈ last.inPlace garbage k := by
  cases last with
  | inValue name value => exact .inr (by simp [inPlace, pairInPlace])
  | start | inName | assigned => exact .inl (mem_plusToSpace h)

end LastField

namespace UrlText

variable (t : UrlText)

theorem length_left : (t.left garbage).length = t.text.length := by
  rw [left, text, List.length_append, List.length_append, length_fieldsInPlace]
  split
  · next hrest => rw [LastField.length_inPlace, hrest, List.append_nil]
  · rw [List.length_append, List.length_append, length_plusToSpace]

theorem left_plain (hplus : 43 ∉ t.text) (hhex : 37 ∉ t.text) : t.left garbage = t.text := by
  simp only [text, List.mem_append, not_or] at hplus hhex
  rw [left, text, fieldsInPlace_plain garbage 0 hplus.1 hhex.1]
  split
  · next hrest =>
    rw [LastField.inPlace_plain garbage _ hplus.2.1 hhex.2.1, hrest, List.append_nil]
  · rw [plusToSpace_plain hplus.2.1]

theorem mem_left {garbage : Nat → Bool → UInt8} {t : UrlText} (h : t.left garbage ≠ t.text) :
    32 ∈ t.left garbage ∨ 61 ∈ t.left garbage := by
  rw [left, text] at h
  rw [left]
  cases hfields : t.fields with
  | cons pair fields =>
    obtain ⟨name, value⟩ := pair
    exact .inr (by simp [fieldsInPlace, pairInPlace])
  | nil =>
    rw [hfields, fieldsInPlace, fieldsText, List.flatMap_nil, List.nil_append, List.nil_append] at h
    rw [fieldsInPlace, List.nil_append]
    split
    · next hrest =>
      rw [if_pos hrest, hrest, List.append_nil] at h
      exact LastField.mem_inPlace garbage h
    · next hrest =>
      rw [if_neg hrest, ne_eq, List.append_cancel_right_eq] at h
      exact .inl (List.mem_append_left _ (mem_plusToSpace h))

/-- A name and its value are shorter than the text that they come from. -/
theorem pairs_short {name value : Bytes} (h : (name, value) ∈ t.pairs) :
    name.length + value.length < t.text.length := by
  rw [text, List.length_append, List.length_append]
  obtain hmem | hmem := List.mem_append.mp h
  · obtain ⟨before, after, hfields⟩ := List.append_of_mem hmem
    rw [hfields]
    simp [fieldsText]
    omega
  · split at hmem
    · cases hlast : t.last with
      | inValue name' value' =>
        rw [hlast] at hmem
        cases List.mem_singleton.mp hmem
        simp [LastField.text]
        omega
      | start | inName | assigned =>
        rw [hlast] at hmem
        cases hmem
    · cases hmem

end UrlText

theorem decodedPairs_short {k n : Nat} {pairs : List (Bytes × Bytes)}
    (h : ∀ p ∈ pairs, p.1.length + p.2.length < n) :
    ∀ p ∈ decodedPairs garbage k pairs, p.1.length < n ∧ p.2.length < n := by
  induction pairs generalizing k with
  | nil => exact nofun
  | cons pair pairs ih =>
    obtain ⟨name, value⟩ := pair
    intro p hp
    cases hp with
    | head =>
      have hpair : name.length + value.length < n := h (name, value) List.mem_cons_self
      have hname := length_decodeHex_le (garbage k false) (plusToSpace name)
      have hvalue := length_decodeHex_le (garbage k true) (plusToSpace value)
      rw [length_plusToSpace] at hname hvalue
      exact ⟨hname.trans_lt (by omega), hvalue.trans_lt (by omega)⟩
    | tail _ hp => exact ih (fun p hp => h p (List.mem_cons_of_mem _ hp)) p hp

end Left

/-- What decoding a string in place may make of it. -/
structure Overwriting.Proper (x : Overwriting) : Prop where
  changed : x.left ≠ x.data
  length : x.left.length = x.data.length
  data : 43 ∈ x.data ∨ 37 ∈ x.data
  left : 32 ∈ x.left ∨ 61 ∈ x.left

/-- Neither of the two marks of the coding, nor a character that decoding puts in their place. -/
def Plain (s : Bytes) : Prop :=
  ∀ ch ∈ s, ch ≠ 43 ∧ ch ≠ 37 ∧ ch ≠ 32 ∧ ch ≠ 61

instance : DecidablePred Plain := fun s => List.decidableBAll _ s

namespace Overwriting.Proper

variable {x : Overwriting} {s : Bytes}

theorem data_ne (h : x.Proper) (hs : Plain s) : x.data ≠ s := by
  rintro rfl
  exact h.data.elim (fun hplus => (hs 43 hplus).1 rfl) fun hhex => (hs 37 hhex).2.1 rfl

theorem left_ne (h : x.Proper) (hs : Plain s) : x.left ≠ s := by
  rintro rfl
  exact h.left.elim (fun hspace => (hs 32 hspace).2.2.1 rfl)
    fun hequals => (hs 61 hequals).2.2.2 rfl

end Overwriting.Proper

/-- Decoding in place, told by its result: the parameters that it adds are shorter than the data. -/
theorem urlDecode_ok {hexCh : Nat → Bool → UInt8} {data left : Bytes} {params params' : Params}
    (h : urlDecode hexCh data params = .ok (params', left)) :
    (left ≠ data → Overwriting.Proper ⟨data, left⟩) ∧
      ∃ pairs : List (Bytes × Bytes), params' = storeHttpParams params pairs ∧
        (∀ p ∈ pairs, p.1.length < data.length ∧ p.2.length < data.length) ∧
        ∀ params, urlDecode hexCh data params = .ok (storeHttpParams params pairs, left) := by
  obtain ⟨t, rfl⟩ := UrlText.exists_text data
  cases herror : t.error? with
  | some mesg =>
    rw [urlDecode_text, herror] at h
    cases h
  | none =>
    have hdecode : ∀ params, urlDecode hexCh t.text params =
        .ok (storeHttpParams params (decodedPairs hexCh 0 t.pairs), t.left hexCh) := fun params => by
      rw [urlDecode_text, herror]
    cases (hdecode params).symm.trans h
    refine ⟨fun hne => ⟨hne, t.length_left hexCh, ?_, UrlText.mem_left hne⟩, _, rfl,
      decodedPairs_short hexCh fun p hp => t.pairs_short hp, hdecode⟩
    by_contra hplain
    obtain ⟨hplus, hhex⟩ := not_or.mp hplain
    exact hne (t.left_plain hexCh hplus hhex)

/-- Whether a string can be decoded does not depend on what `hex_ch` holds. -/
theorem urlDecode_error {hexCh : Nat → Bool → UInt8} {data : Bytes} {params : Params}
    {e : LuaError} (h : urlDecode hexCh data params = .error e) (hexCh' : Nat → Bool → UInt8)
    (params' : Params) : urlDecode hexCh' data params' = .error e := by
  obtain ⟨t, rfl⟩ := UrlText.exists_text data
  rw [urlDecode_text] at h ⊢
  cases herror : t.error? with
  | none =>
    rw [herror] at h
    cases h
  | some mesg =>
    rw [herror] at h
    exact h

section After

variable {x : Option Overwriting} {s name value : Bytes}

@[simp] theorem textAfter_none (s : Bytes) : textAfter none s = s := rfl

theorem textAfter_of_ne (h : ∀ y ∈ x, s ≠ y.data) : textAfter x s = s := by
  cases x with
  | none => rfl
  | some y => exact if_neg (h y rfl)

theorem textAfter_ne {y : Overwriting} (hy : y.left ≠ y.data) (s : Bytes) :
    textAfter (some y) s ≠ y.data := by
  rw [textAfter]
  split
  · exact hy
  · next hs => exact hs

/-- The text is left as it is, and does not come from another one. -/
def Untouched (x : Option Overwriting) (s : Bytes) : Prop := ∀ t, textAfter x t = s ↔ t = s

theorem Untouched.textAfter_eq (h : Untouched x s) : textAfter x s = s := (h s).mpr rfl

theorem untouched_of_ne (h : ∀ y ∈ x, s ≠ y.data ∧ s ≠ y.left) : Untouched x s := by
  intro t
  cases x with
  | none => rfl
  | some y =>
    obtain ⟨hdata, hleft⟩ := h y rfl
    rw [textAfter]
    by_cases ht : t = y.data
    · rw [if_pos ht]
      exact iff_of_false (Ne.symm hleft) fun heq => hdata (heq.symm.trans ht)
    · rw [if_neg ht]

theorem untouched_short (hx : ∀ y ∈ x, y.Proper) (h : ∀ y ∈ x, s.length < y.data.length) :
    Untouched x s := by
  refine untouched_of_ne fun y hy => ⟨?_, ?_⟩
  · rintro rfl
    exact (h y hy).false
  · rintro rfl
    exact ((h y hy).trans_eq (hx y hy).length.symm).false

theorem untouched_plain (hx : ∀ y ∈ x, y.Proper)
    (hs : Plain s) : Untouched x s :=
  untouched_of_ne fun y hy => ⟨((hx y hy).data_ne hs).symm, ((hx y hy).left_ne hs).symm⟩

/-- `Content-Type` and `Connection` are found under the keys that came as such. -/
theorem untouched_contentType (hx : ∀ y ∈ x, y.Proper) : Untouched x (text "Content-Type") :=
  untouched_plain hx (by decide)

theorem untouched_connection (hx : ∀ y ∈ x, y.Proper) : Untouched x (text "Connection") :=
  untouched_plain hx (by decide)

theorem untouched_close (hx : ∀ y ∈ x, y.Proper) : Untouched x (text "close") :=
  untouched_plain hx (by decide)

namespace Headers

@[simp] theorem after_none (headers : Headers) : Headers.after none headers = headers := by
  refine (List.map_congr_left fun header _ => ?_).trans (List.map_id _)
  obtain ⟨hName, value | values⟩ := header
  · rfl
  · have hvalues : values.map (textAfter none) = values :=
      (List.map_congr_left fun _ _ => rfl).trans (List.map_id _)
    simp [HeaderValue.after, hvalues]

theorem get?_after (h : Untouched x name) (headers : Headers) :
    (Headers.after x headers).get? name = (headers.get? name).map (HeaderValue.after x) := by
  induction headers with
  | nil => rfl
  | cons header headers ih =>
    obtain ⟨name', value⟩ := header
    show Headers.get? name ((textAfter x name', value.after x) :: Headers.after x headers) = _
    rw [get?, get?, if_congr (h name') rfl rfl]
    split
    · rfl
    · exact ih

/-- A string that has been overwritten is nowhere to be found. -/
theorem get?_after_data {y : Overwriting} (hy : y.left ≠ y.data) (headers : Headers) :
    (Headers.after (some y) headers).get? y.data = none := by
  induction headers with
  | nil => rfl
  | cons header headers ih =>
    obtain ⟨name', value⟩ := header
    show Headers.get? y.data ((textAfter (some y) name', _) :: Headers.after (some y) headers) = _
    rw [get?, if_neg (textAfter_ne hy name'), ih]

theorem values_after_data {y : Overwriting} (hy : y.left ≠ y.data) {headers : Headers}
    {found : HeaderValue} (h : (Headers.after (some y) headers).get? name = some found) :
    y.data ∉ found.values := by
  induction headers with
  | nil => cases h
  | cons header headers ih =>
    obtain ⟨name', value⟩ := header
    change Headers.get? name ((textAfter (some y) name', value.after (some y)) ::
      Headers.after (some y) headers) = some found at h
    rw [get?] at h
    split at h
    · cases h
      cases value with
      | single value =>
        intro hmem
        exact textAfter_ne hy value (List.mem_singleton.mp hmem).symm
      | list values =>
        intro hmem
        obtain ⟨value, -, heq⟩ := List.mem_map.mp hmem
        exact textAfter_ne hy value heq
    · exact ih h

/-- What is under a name stays as it is if neither the keys nor these values are overwritten. -/
theorem get?_after_of_ne {headers : Headers}
    (hkeys : ∀ header ∈ headers, textAfter x header.1 = name ↔ header.1 = name)
    (hvalues : ∀ found ∈ headers.get? name, ∀ value ∈ found.values, textAfter x value = value) :
    (Headers.after x headers).get? name = headers.get? name := by
  induction headers with
  | nil => rfl
  | cons header headers ih =>
    obtain ⟨name', currValues⟩ := header
    have hkey := hkeys _ List.mem_cons_self
    show Headers.get? name ((textAfter x name', currValues.after x) :: Headers.after x headers) = _
    rw [get?] at hvalues
    rw [get?, get?, if_congr hkey rfl rfl]
    split
    · next hname =>
      rw [if_pos hname] at hvalues
      have hsame : ∀ value ∈ currValues.values, textAfter x value = value := hvalues _ rfl
      cases currValues with
      | single value => rw [HeaderValue.after, hsame value List.mem_cons_self]
      | list values =>
        have hmap : values.map (textAfter x) = values :=
          (List.map_congr_left hsame).trans (List.map_id _)
        rw [HeaderValue.after, hmap]
    · next hname =>
      rw [if_neg hname] at hvalues
      exact ih (fun header hmem => hkeys header (List.mem_cons_of_mem _ hmem)) hvalues

theorem add_after (hname : Untouched x name) (hvalue : textAfter x value = value)
    (headers : Headers) :
    (Headers.after x headers).add name value = Headers.after x (headers.add name value) := by
  induction headers with
  | nil =>
    show [(name, HeaderValue.single value)] =
      [(textAfter x name, HeaderValue.single (textAfter x value))]
    rw [hname.textAfter_eq, hvalue]
  | cons header headers ih =>
    obtain ⟨name', currValues⟩ := header
    show Headers.add name value ((textAfter x name', currValues.after x) :: _) = _
    rw [add, add, if_congr (hname name') rfl rfl]
    split
    · show _ :: _ = (textAfter x name', (currValues.add value).after x) :: _
      cases currValues <;> simp [HeaderValue.after, HeaderValue.add, hvalue]
    · exact congrArg _ ih

end Headers

theorem storeHttpParams_after {pairs : List (Bytes × Bytes)}
    (h : ∀ p ∈ pairs, Untouched x p.1 ∧ textAfter x p.2 = p.2) (params : Params) :
    storeHttpParams (Headers.after x params) pairs =
      Headers.after x (storeHttpParams params pairs) := by
  induction pairs generalizing params with
  | nil => rfl
  | cons pair pairs ih =>
    obtain ⟨name, value⟩ := pair
    obtain ⟨hname, hvalue⟩ := h (name, value) List.mem_cons_self
    rw [storeHttpParams, storeHttpParams, List.foldl_cons, List.foldl_cons]
    show storeHttpParams (Headers.add name value (Headers.after x params)) pairs = _
    rw [Headers.add_after hname hvalue]
    exact ih (fun p hp => h p (List.mem_cons_of_mem _ hp)) _

end After

section Form

variable {σ : Type} (P : HttpParser σ)

theorem overwriting_some {data left : Bytes} {x : Overwriting}
    (h : P.overwriting data left = some x) :
    P.interned data = true ∧ left ≠ data ∧ x = ⟨data, left⟩ := by
  rw [Platform.overwriting] at h
  split at h
  · next hboth =>
    cases h
    exact ⟨hboth.1, hboth.2, rfl⟩
  · cases h

@[simp] theorem overwriting_self (data : Bytes) : P.overwriting data data = none :=
  if_neg fun h => h.2 rfl

theorem overwriting_proper {data left : Bytes} (h : left ≠ data → Overwriting.Proper ⟨data, left⟩) :
    ∀ x ∈ P.overwriting data left, x.Proper := by
  intro x hx
  obtain ⟨-, hne, rfl⟩ := overwriting_some P hx
  exact h hne

/-- What is looked for in any case is found where it came. -/
theorem lowerCase_textAfter {x : Option Overwriting} (hx : ∀ y ∈ x, y.Proper) {s name : Bytes}
    (hname : Plain name) : lowerCase (textAfter x s) = name ↔ lowerCase s = name := by
  have hkept : ∀ {str : Bytes} {ch : UInt8}, lowerCase str = name → ch ∈ str →
      ch = 43 ∨ ch = 37 ∨ ch = 32 ∨ ch = 61 → False := by
    rintro str ch rfl hch hmark
    have hlower : ch ∈ lowerCase str :=
      List.mem_map.mpr ⟨ch, hch, by obtain rfl | rfl | rfl | rfl := hmark <;> rfl⟩
    obtain ⟨hplus, hhex, hspace, hequals⟩ := hname ch hlower
    exact hmark.elim hplus (Or.rec hhex (Or.rec hspace hequals))
  cases x with
  | none => rfl
  | some y =>
    rw [textAfter]
    by_cases hs : s = y.data
    · rw [if_pos hs, hs]
      refine iff_of_false (fun h => ?_) fun h => ?_
      · exact (hx y rfl).left.elim (fun hch => hkept h hch (by decide))
          fun hch => hkept h hch (by decide)
      · exact (hx y rfl).data.elim (fun hch => hkept h hch (by decide))
          fun hch => hkept h hch (by decide)
    · rw [if_neg hs]

/-- The body of a form is decoded and what it says is added to the parameters; every other body
stays as it is. -/
theorem formParams_cases {headers : Headers} {body left : Bytes} {params params' : Option Params}
    (h : formParams P headers body params = .ok (params', left)) :
    (params' = params ∧ left = body) ∨ ∃ decoded,
      urlDecode (P.hexCh body) body (params.getD []) = .ok (decoded, left) ∧
        params' = some decoded := by
  rw [formParams] at h
  split at h
  · cases h
    exact .inl ⟨rfl, rfl⟩
  · cases h
  · split at h
    · cases hdecode : urlDecode (P.hexCh body) body (params.getD []) with
      | error e =>
        rw [hdecode] at h
        cases h
      | ok result =>
        rw [hdecode] at h
        cases h
        exact .inr ⟨result.1, rfl, rfl⟩
    · cases h
      exact .inl ⟨rfl, rfl⟩

/-- What is left of the body does not depend on the parameters that were there. -/
theorem formParams_left {headers : Headers} {body left : Bytes} {params params' : Option Params}
    (h : formParams P headers body params = .ok (params', left)) (params₁ : Option Params) :
    ∃ params₁', formParams P headers body params₁ = .ok (params₁', left) := by
  rw [formParams] at h ⊢
  split at h
  · cases h
    exact ⟨params₁, rfl⟩
  · cases h
  · next contentType _ =>
    by_cases hform : lowerCase contentType = text "application/x-www-form-urlencoded"
    · simp only [hform, if_true] at h ⊢
      cases hdecode : urlDecode (P.hexCh body) body (params.getD []) with
      | error e =>
        rw [hdecode] at h
        cases h
      | ok result =>
        rw [hdecode] at h
        cases h
        obtain ⟨-, pairs, -, -, hdecode'⟩ := urlDecode_ok hdecode
        exact ⟨_, by rw [hdecode']; rfl⟩
    · simp only [hform, if_false] at h ⊢
      cases h
      exact ⟨params₁, rfl⟩

theorem formParams_proper {headers : Headers} {body left : Bytes} {params params' : Option Params}
    (h : formParams P headers body params = .ok (params', left)) :
    ∀ x ∈ P.overwriting body left, x.Proper := by
  refine overwriting_proper P fun hne => ?_
  obtain ⟨-, rfl⟩ | ⟨decoded, hdecode, -⟩ := formParams_cases P h
  · exact absurd rfl hne
  · exact (urlDecode_ok hdecode).1 hne

/-- What is overwritten is longer than the parameters that decoding it adds, which stay. -/
theorem urlDecode_after {body left : Bytes} {params decoded : Params}
    (hdecode : urlDecode (P.hexCh body) body params = .ok (decoded, left)) :
    urlDecode (P.hexCh body) body (Headers.after (P.overwriting body left) params) =
      .ok (Headers.after (P.overwriting body left) decoded, left) := by
  obtain ⟨hproper, pairs, rfl, hshort, hdecode'⟩ := urlDecode_ok hdecode
  have hx := overwriting_proper P hproper
  have hbody : ∀ y ∈ P.overwriting body left, y.data = body := fun y hy => by
    rw [(overwriting_some P hy).2.2]
  have hpairs : ∀ p ∈ pairs, Untouched (P.overwriting body left) p.1 ∧
      textAfter (P.overwriting body left) p.2 = p.2 := fun p hp =>
    ⟨untouched_short hx fun y hy => hbody y hy ▸ (hshort p hp).1,
      (untouched_short hx fun y hy => hbody y hy ▸ (hshort p hp).2).textAfter_eq⟩
  rw [hdecode', storeHttpParams_after hpairs]

/-- The parameters are told as well once the body has been decoded in place. -/
theorem formParams_after {headers : Headers} {body left : Bytes} {params params' : Option Params}
    (h : formParams P headers body params = .ok (params', left)) :
    formParams P (Headers.after (P.overwriting body left) headers) body
        (params.map (Headers.after (P.overwriting body left))) =
      .ok (params'.map (Headers.after (P.overwriting body left)), left) := by
  have hx := formParams_proper P h
  rw [formParams] at h ⊢
  rw [Headers.get?_after (untouched_contentType hx)]
  cases hget : headers.get? (text "Content-Type") with
  | none =>
    rw [hget] at h
    cases h
    rfl
  | some value =>
    rw [hget] at h
    cases value with
    | list values => cases h
    | single contentType =>
      show (if lowerCase (textAfter _ contentType) = _ then _ else _) = _
      rw [if_congr (lowerCase_textAfter hx (by decide)) rfl rfl]
      by_cases hform : lowerCase contentType = text "application/x-www-form-urlencoded"
      · simp only [hform, if_true] at h ⊢
        cases hdecode : urlDecode (P.hexCh body) body (params.getD []) with
        | error e =>
          rw [hdecode] at h
          cases h
        | ok result =>
          obtain ⟨decoded, left'⟩ := result
          rw [hdecode] at h
          obtain ⟨hparams', hleft⟩ := Prod.mk.inj (Except.ok.inj h)
          subst hleft hparams'
          have hparams : (params.map (Headers.after (P.overwriting body left'))).getD [] =
              Headers.after (P.overwriting body left') (params.getD []) := by
            cases params <;> rfl
          rw [hparams, urlDecode_after P hdecode]
          rfl
      · simp only [hform, if_false] at h ⊢
        cases h
        rfl

/-- What becomes of a query string that is not refused. -/
theorem queryParams_proper {parsedURL : ParsedURL} {params : Params} {left : Option Bytes}
    (h : queryParams P parsedURL = .ok (params, left)) :
    ∀ x ∈ queryOverwriting P parsedURL left, x.Proper := by
  rw [queryParams] at h
  cases hquery : parsedURL.queryString with
  | none =>
    simp only [queryOverwriting, hquery]
    exact nofun
  | some queryString =>
    rw [hquery] at h
    dsimp only at h
    cases hdecode : urlDecode (P.hexCh queryString) queryString [] with
    | error e =>
      rw [hdecode] at h
      cases h
    | ok result =>
      rw [hdecode] at h
      cases h
      simp only [queryOverwriting, hquery]
      exact overwriting_proper P (urlDecode_ok hdecode).1

end Form

namespace Request

variable (x : Option Overwriting) (req : Request)

@[simp] theorem after_bodyParts : (req.after x).bodyParts = req.bodyParts := rfl
@[simp] theorem after_body : (req.after x).body = req.body := rfl
@[simp] theorem after_status : (req.after x).status = req.status := rfl
@[simp] theorem after_headersDone : (req.after x).headersDone = req.headersDone := rfl
@[simp] theorem after_mesgDone : (req.after x).mesgDone = req.mesgDone := rfl
@[simp] theorem after_EOF : (req.after x).EOF = req.EOF := rfl
@[simp] theorem after_headers : (req.after x).headers = Headers.after x req.headers := rfl
@[simp] theorem after_url : (req.after x).url = req.url.map (textAfter x) := rfl

end Request

end Luaw.Http
