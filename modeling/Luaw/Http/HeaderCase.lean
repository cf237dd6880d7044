import Luaw.Http.Fragments
import Luaw.Http.FullBody
import Mathlib.Data.List.TakeWhile

/-!
# The case of header names

Header names are the keys of a table as they came, and the code looks up `Content-Type` and
overwrites `Connection` under exactly these names. Two requests that differ in the case of header
names are treated alike if the values under these two names lead to the same decisions, and the
strings that are overwritten leave them the same values.
-/

namespace Luaw.Http

open Lua Program

section Spelling

/-- The same event, a header name possibly in another case. -/
def Event.SameButCase : Event → Event → Prop
  | .headerField chunk, .headerField chunk' => lowerCase chunk = lowerCase chunk'
  | e, e' => e = e'

def FieldSameButCase (field field' : Bytes × Bytes) : Prop :=
  lowerCase field.1 = lowerCase field'.1 ∧ field.2 = field'.2

structure Content.SameButCase (c c' : Content) : Prop where
  fields : List.Forall₂ FieldSameButCase c.fields c'.fields
  trailers : List.Forall₂ FieldSameButCase c.trailers c'.trailers
  other : c' = { c with fields := c'.fields, trailers := c'.trailers }

theorem forall₂_append_inv {α β : Type} {R : α → β → Prop} (as : List α) {as' : List α}
    {bs : List β}
    (h : List.Forall₂ R (as ++ as') bs) :
    ∃ bs₁ bs₂, bs = bs₁ ++ bs₂ ∧ List.Forall₂ R as bs₁ ∧ List.Forall₂ R as' bs₂ := by
  induction as generalizing bs with
  | nil => exact ⟨[], bs, rfl, .nil, h⟩
  | cons a as ih =>
    cases h with
    | cons hab hrest =>
      obtain ⟨bs₁, bs₂, rfl, h₁, h₂⟩ := ih hrest
      exact ⟨_ :: bs₁, bs₂, rfl, .cons hab h₁, h₂⟩

theorem Event.SameButCase.eq {e e' : Event} (h : e.SameButCase e')
    (he : ∀ chunk, e ≠ .headerField chunk) : e' = e := by
  cases e with
  | headerField chunk => exact absurd rfl (he chunk)
  | _ => exact Eq.symm h

theorem sameButCase_eq {evs evs' : List Event} (h : List.Forall₂ Event.SameButCase evs evs')
    (hevs : ∀ e ∈ evs, ∀ chunk, e ≠ .headerField chunk) : evs' = evs := by
  induction h with
  | nil => rfl
  | cons hsame _ ih =>
    rw [hsame.eq (hevs _ List.mem_cons_self), ih fun e he => hevs e (List.mem_cons_of_mem _ he)]

theorem lowerCase_append (s t : Bytes) : lowerCase (s ++ t) = lowerCase s ++ lowerCase t :=
  List.map_append

theorem Pieces.names_case {name : Bytes} {evs evs' : List Event}
    (h : Pieces .headerField name evs) (hsame : List.Forall₂ Event.SameButCase evs evs') :
    ∃ name', lowerCase name = lowerCase name' ∧ Pieces .headerField name' evs' := by
  induction h generalizing evs' with
  | last b =>
    cases hsame with
    | @cons _ e' _ _ he hrest =>
      cases hrest
      cases e' with
      | headerField b' => exact ⟨b', he, .last b'⟩
      | _ => nomatch he
  | cons a _ ih =>
    cases hsame with
    | @cons _ e' _ _ he hrest =>
      obtain ⟨name', hname, hpieces⟩ := ih hrest
      cases e' with
      | headerField a' =>
        refine ⟨a' ++ name', ?_, .cons a' hpieces⟩
        have ha : lowerCase a = lowerCase a' := he
        rw [lowerCase_append, lowerCase_append, ha, hname]
      | _ => nomatch he

theorem Pieces.not_name {mk : Bytes → Event} (hmk : ∀ b chunk, mk b ≠ .headerField chunk)
    {b : Bytes} {evs : List Event} (h : Pieces mk b evs) :
    ∀ e ∈ evs, ∀ chunk, e ≠ .headerField chunk := by
  induction h with
  | last b =>
    intro e he
    rw [List.mem_singleton.mp he]
    exact hmk b
  | cons a _ ih =>
    intro e he
    obtain rfl | he := List.mem_cons.mp he
    · exact hmk a
    · exact ih e he

theorem FieldPieces.case {fields : List (Bytes × Bytes)} {evs evs' : List Event}
    (h : FieldPieces fields evs) (hsame : List.Forall₂ Event.SameButCase evs evs') :
    ∃ fields', List.Forall₂ FieldSameButCase fields fields' ∧ FieldPieces fields' evs' := by
  induction h generalizing evs' with
  | nil =>
    cases hsame
    exact ⟨[], .nil, .nil⟩
  | cons hname hvalue _ ih =>
    obtain ⟨both, rest, rfl, hboth, hrest⟩ := forall₂_append_inv _ hsame
    obtain ⟨names, values, rfl, hnames, hvalues⟩ := forall₂_append_inv _ hboth
    obtain ⟨name', hcase, hname'⟩ := hname.names_case hnames
    obtain rfl := sameButCase_eq hvalues (hvalue.not_name (by simp))
    obtain ⟨fields', hfields, hpieces⟩ := ih hrest
    exact ⟨(name', _) :: fields', .cons ⟨hcase, rfl⟩ hfields, .cons hname' hvalue hpieces⟩

/-- Events that differ in the case of header names tell a request that does. -/
theorem Content.Reports.case {c : Content} {evs evs' : List Event} (h : c.Reports evs)
    (hsame : List.Forall₂ Event.SameButCase evs evs') :
    ∃ c', c'.Reports evs' ∧ c.SameButCase c' := by
  obtain ⟨head, tail, ⟨urls, heads, hurls, hheads, rfl⟩, ⟨chunks, tails, hbody, htails, rfl⟩, rfl⟩ := h
  obtain ⟨head', rest, rfl, hhead, hrest⟩ := forall₂_append_inv _ hsame
  obtain ⟨begin', after, rfl, hbegin, hafter⟩ :=
    forall₂_append_inv [Event.messageBegin] hhead
  obtain ⟨urls', heads', rfl, hurls', hheads'⟩ := forall₂_append_inv _ hafter
  obtain ⟨complete', tail', rfl, hcomplete, htail⟩ :=
    forall₂_append_inv [c.headersComplete] hrest
  obtain ⟨body', last', rfl, hbody', hlast⟩ := forall₂_append_inv _ htail
  obtain ⟨chunks', tails', rfl, hchunks, htails'⟩ := forall₂_append_inv _ hbody'
  obtain rfl := sameButCase_eq hbegin (by simp)
  obtain rfl := sameButCase_eq hurls' (hurls.not_name (by simp))
  obtain rfl := sameButCase_eq hcomplete (by simp [Content.headersComplete])
  obtain rfl := sameButCase_eq hchunks (by simp)
  obtain rfl := sameButCase_eq hlast (by simp)
  obtain ⟨fields', hfields, hpieces⟩ := hheads.case hheads'
  obtain ⟨trailers', htrailers, hpieces'⟩ := htails.case htails'
  exact ⟨{ c with fields := fields', trailers := trailers' },
    ⟨_, _, ⟨_, _, hurls, hpieces, rfl⟩, ⟨chunks, _, hbody, hpieces', rfl⟩, rfl⟩,
    ⟨hfields, htrailers, rfl⟩⟩

end Spelling

/-! ### What the fields make of a request -/

section Requests

variable {σ : Type} (P : HttpParser σ)

/-- The parameters of the URL, unless it cannot be parsed or its query cannot be decoded. -/
def headParams (c : Content) : Except LuaError Params :=
  (parseRequestURL P (some c.method) (some c.url) >>= queryParams P).map Prod.fst

/-- The callback for the headers refuses a request as its URL is refused. -/
theorem headRequest_cases (c : Content) :
    (∃ e, headParams P c = .error e ∧ callback P c.headersComplete c.headRequest = .error e) ∨
      ∃ params req, headParams P c = .ok params ∧
        callback P c.headersComplete c.headRequest = .ok req := by
  have hurl : (c.headRequest.handleAccHttpHeader.handleKeepAlive c.keepAlive).url = some c.url := by
    have hhead : c.headRequest.url = some c.url := c.message.head_url newServerHttpRequest
    simpa using hhead
  have hrefused : ∀ e, (parseRequestURL P (some c.method) (some c.url) >>= queryParams P) =
      .error e → callback P c.headersComplete c.headRequest = .error e := by
    intro e he
    show (parseRequestURL P (some c.method)
      (c.headRequest.handleAccHttpHeader.handleKeepAlive c.keepAlive).url >>= _) = _
    rw [hurl]
    cases hparse : parseRequestURL P (some c.method) (some c.url) with
    | error e' =>
      rw [hparse] at he
      cases he
      rfl
    | ok parsedURL =>
      rw [hparse] at he
      change queryParams P parsedURL = .error e at he
      show (queryParams P parsedURL >>= _) = _
      rw [he]
      rfl
  cases hquery : parseRequestURL P (some c.method) (some c.url) >>= queryParams P with
  | error e => exact .inl ⟨e, by rw [headParams, hquery]; rfl, hrefused e hquery⟩
  | ok found =>
    obtain ⟨parsedURL, hparse, hfound⟩ := Program.except_bind_ok hquery
    obtain ⟨req, hcall, -⟩ :=
      @WireMessage.headersComplete_of σ P c.message parsedURL found.1 found.2 hparse hfound
        newServerHttpRequest
    exact .inr ⟨found.1, req, by rw [headParams, hquery]; rfl, hcall⟩

theorem Content.callbacks_headEvents {c : Content} {evs : List Event} (h : c.Reports evs) :
    callbacks P (headEvents evs) newServerHttpRequest =
      callback P c.headersComplete c.headRequest :=
  WireMessage.callbacks_headEvents P h.tells newServerHttpRequest

end Requests

section Classes

deriving instance DecidableEq for HeaderValue

/-- The boundary in a Content-Type. -/
def multipartBoundary (contentType : Bytes) : Option Bytes :=
  match consumeTill 59 contentType with
  | some (kind, rest) =>
    if kind = text "multipart/form-data" then
      match consumeTill 61 rest with
      | some (boundary, rest) =>
        if text "boundary" <:+: boundary then some (text "--" ++ rest) else none
      | none => none
    else none
  | none => none

/-- What the values under `Content-Type` tell `readFull`. -/
inductive ReadingClass where
  | several
  | multipart (boundary : Bytes)
  | luaPack
  | other

def ReadingClass.of : List Bytes → ReadingClass
  | [] => other
  | [contentType] =>
    match multipartBoundary contentType with
    | some boundary => multipart boundary
    | none => if contentType = text "application/luapack" then luaPack else other
  | _ => several

/-- What they tell at the end of the message: several values raise as a form that cannot be decoded
does, and a form counts as one if it changes the parameters. -/
inductive EndingClass where
  | raises
  | multipart (boundary : Bytes)
  | form
  | other
  deriving DecidableEq

/-- The parameters after those of a form, in which decoding the form may overwrite strings. -/
def formed {σ : Type} (P : HttpParser σ) (body : Bytes) (params : Params) :
    Except LuaError Params :=
  (urlDecode (P.hexCh body) body params).map fun (params', left) =>
    Headers.after (P.overwriting body left) params'

def EndingClass.of {σ : Type} (P : HttpParser σ) (body : Bytes) (params : Params) :
    List Bytes → EndingClass
  | [] => other
  | [contentType] =>
    match multipartBoundary contentType with
    | some boundary => multipart boundary
    | none =>
      if lowerCase contentType = text "application/x-www-form-urlencoded" then
        match formed P body params with
        | .error _ => raises
        | .ok params' => if params' = params then other else form
      else other
  | _ => raises

/-- The decision of `readFull` to leave the body to its reader. -/
def streaming (headers : Headers) : Except LuaError (Option Bytes) × Bool :=
  (getMultipartBoundary headers, isLuaPackMesg headers)

def ReadingClass.streaming : ReadingClass → Except LuaError (Option Bytes) × Bool
  | several => (.error (text "bad argument #1 to 'find' (string expected, got table)"), false)
  | multipart boundary => (.ok (some boundary), false)
  | luaPack => (.ok none, true)
  | other => (.ok none, false)

theorem getMultipartBoundary_single {headers : Headers} {contentType : Bytes}
    (h : headers.get? (text "Content-Type") = some (.single contentType)) :
    getMultipartBoundary headers = .ok (multipartBoundary contentType) := by
  rw [getMultipartBoundary, h, multipartBoundary]
  dsimp only
  cases consumeTill 59 contentType with
  | none => rfl
  | some till =>
    obtain ⟨kind, rest⟩ := till
    by_cases hkind : kind = text "multipart/form-data"
    · simp only [hkind, if_true]
      cases consumeTill 61 rest with
      | none => rfl
      | some till =>
        obtain ⟨boundary, rest⟩ := till
        by_cases hboundary : text "boundary" <:+: boundary
        · simp only [hboundary, if_true]
        · simp only [hboundary, if_false]
    · simp only [hkind, if_false]

/-- Without a semicolon there is no boundary. -/
theorem multipartBoundary_none {contentType : Bytes} (h : 59 ∉ contentType) :
    multipartBoundary contentType = none := by
  have hdrop : contentType.dropWhile (· ≠ 59) = [] := by
    refine List.dropWhile_eq_nil_iff.mpr fun b hb => decide_eq_true ?_
    exact fun hsemicolon => h (hsemicolon ▸ hb)
  rw [multipartBoundary, consumeTill, hdrop]

theorem not_mem_of_form {contentType : Bytes}
    (h : lowerCase contentType = text "application/x-www-form-urlencoded") :
    59 ∉ contentType := by
  intro hmem
  have hlower : (59 : UInt8) ∈ lowerCase contentType := List.mem_map.mpr ⟨59, hmem, by decide⟩
  rw [h] at hlower
  exact absurd hlower (by decide)

theorem streaming_eq {headers : Headers} {values : List Bytes}
    (h : headers.get? (text "Content-Type") = HeaderValue.ofValues values) :
    streaming headers = (ReadingClass.of values).streaming := by
  match values with
  | [] =>
    have hnone : headers.get? (text "Content-Type") = none := h
    rw [streaming, getMultipartBoundary, isLuaPackMesg, hnone]
    rfl
  | [contentType] =>
    have hsingle : headers.get? (text "Content-Type") = some (.single contentType) := h
    rw [streaming, getMultipartBoundary_single hsingle, isLuaPackMesg, hsingle, ReadingClass.of]
    by_cases hluapack : contentType = text "application/luapack"
    · have hnone : multipartBoundary contentType = none :=
        multipartBoundary_none (by rw [hluapack]; decide)
      rw [hnone]
      simp only [hluapack, if_true, decide_true]
      rfl
    · cases multipartBoundary contentType with
      | none =>
        simp only [hluapack, if_false, decide_false]
        rfl
      | some boundary =>
        simp only [hluapack, decide_false]
        rfl
  | value :: value' :: values =>
    have hlist : headers.get? (text "Content-Type") = some (.list (value :: value' :: values)) := h
    rw [streaming, getMultipartBoundary, isLuaPackMesg, hlist]
    rfl

theorem ReadingClass.streaming_injective {x y : ReadingClass} :
    x.streaming = y.streaming ↔ x = y := by
  constructor
  · intro h
    cases x <;> cases y <;> cases h <;> rfl
  · rintro rfl
    rfl

section Ending

variable {σ : Type} {P : HttpParser σ}

/-- What is left of a message that has ended: the parameters, and the boundary. -/
def EndingClass.outcome (P : HttpParser σ) (body : Bytes) (params : Params) :
    EndingClass → Option (Option Params × Except LuaError (Option Bytes))
  | raises => none
  | multipart boundary => some (some params, .ok (some boundary))
  | form => some ((formed P body params).toOption, .ok none)
  | other => some (some params, .ok none)

/-- The end of the message, told by the values under `Content-Type`. -/
theorem formParams_eq (body : Bytes) (params : Params) {headers : Headers} {values : List Bytes}
    (h : headers.get? (text "Content-Type") = HeaderValue.ofValues values) :
    (formParams P headers body (some params)).toOption.map (fun (params', left) =>
        (params'.map (Headers.after (P.overwriting body left)),
          getMultipartBoundary (Headers.after (P.overwriting body left) headers))) =
      (EndingClass.of P body params values).outcome P body params := by
  match values with
  | [] =>
    have hnone : headers.get? (text "Content-Type") = none := h
    rw [formParams, hnone]
    simp only [Except.toOption, Option.map_some, overwriting_self, Headers.after_none,
      getMultipartBoundary, hnone]
    rfl
  | [contentType] =>
    have hsingle : headers.get? (text "Content-Type") = some (.single contentType) := h
    rw [formParams, hsingle, EndingClass.of]
    by_cases hform : lowerCase contentType = text "application/x-www-form-urlencoded"
    · rw [multipartBoundary_none (not_mem_of_form hform)]
      simp only [hform, if_true, Option.getD_some]
      cases hdecode : urlDecode (P.hexCh body) body params with
      | error e =>
        rw [formed, hdecode]
        rfl
      | ok result =>
        obtain ⟨params', left⟩ := result
        have hproper := overwriting_proper P (urlDecode_ok hdecode).1
        have hformed : formed P body params =
            .ok (Headers.after (P.overwriting body left) params') := by
          rw [formed, hdecode]
          rfl
        -- the content type of a form is not overwritten
        have hboundary : getMultipartBoundary (Headers.after (P.overwriting body left) headers) =
            .ok none := by
          have hget := Headers.get?_after (untouched_contentType hproper) headers
          rw [hsingle] at hget
          rw [getMultipartBoundary_single hget, multipartBoundary_none]
          exact not_mem_of_form ((lowerCase_textAfter hproper (by decide)).mpr hform)
        simp only [hformed, Except.map, Except.toOption, Option.map_some, hboundary]
        by_cases hsame : Headers.after (P.overwriting body left) params' = params
        · simp only [hsame, if_true, EndingClass.outcome]
        · simp only [hsame, if_false, EndingClass.outcome, hformed, Except.toOption]
    · simp only [hform, if_false, Except.toOption, Option.map_some, overwriting_self,
        Headers.after_none, getMultipartBoundary_single hsingle]
      cases multipartBoundary contentType <;> rfl
  | value :: value' :: values =>
    have hlist : headers.get? (text "Content-Type") = some (.list (value :: value' :: values)) := h
    rw [formParams, hlist]
    rfl

/-- The class of a form means that its parameters differ. -/
theorem EndingClass.form_changes {body : Bytes} {params : Params} {values : List Bytes}
    (h : EndingClass.of P body params values = form) :
    (formed P body params).toOption ≠ some params := by
  match values with
  | [] => cases h
  | [contentType] =>
    rw [EndingClass.of] at h
    cases hboundary : multipartBoundary contentType with
    | some boundary =>
      rw [hboundary] at h
      cases h
    | none =>
      rw [hboundary] at h
      by_cases hform : lowerCase contentType = text "application/x-www-form-urlencoded"
      · simp only [hform, if_true] at h
        cases hdecode : formed P body params with
        | error e => exact nofun
        | ok params' =>
          simp only [hdecode] at h
          by_cases hsame : params' = params
          · simp only [hsame, if_true] at h
            cases h
          · exact fun heq => hsame (Option.some.inj heq)
      · simp only [hform, if_false] at h
        cases h
  | _ :: _ :: _ => cases h

theorem EndingClass.outcome_other {body : Bytes} {params : Params} {values : List Bytes}
    (h : (EndingClass.of P body params values).outcome P body params = other.outcome P body params) :
    EndingClass.of P body params values = other := by
  cases hclass : EndingClass.of P body params values with
  | raises =>
    rw [hclass] at h
    cases h
  | multipart boundary =>
    rw [hclass] at h
    cases h
  | form =>
    rw [hclass] at h
    exact absurd (congrArg Prod.fst (Option.some.inj h)) (EndingClass.form_changes hclass)
  | other => rfl

/-- Different classes have different outcomes. -/
theorem EndingClass.outcome_injective {body : Bytes} {params : Params}
    {values values' : List Bytes}
    (h : (EndingClass.of P body params values).outcome P body params =
      (EndingClass.of P body params values').outcome P body params) :
    EndingClass.of P body params values = EndingClass.of P body params values' := by
  cases hclass : EndingClass.of P body params values with
  | other =>
    rw [hclass] at h
    exact (EndingClass.outcome_other h.symm).symm
  | raises =>
    rw [hclass] at h
    cases hclass' : EndingClass.of P body params values' with
    | raises => rfl
    | _ =>
      rw [hclass'] at h
      cases h
  | multipart boundary =>
    rw [hclass] at h
    cases hclass' : EndingClass.of P body params values' with
    | multipart boundary' =>
      rw [hclass'] at h
      cases h
      rfl
    | form =>
      rw [hclass'] at h
      exact nomatch congrArg Prod.snd (Option.some.inj h)
    | _ =>
      rw [hclass'] at h
      cases h
  | form =>
    rw [hclass] at h
    cases hclass' : EndingClass.of P body params values' with
    | raises =>
      rw [hclass'] at h
      cases h
    | multipart boundary =>
      rw [hclass'] at h
      exact nomatch congrArg Prod.snd (Option.some.inj h)
    | form => rfl
    | other =>
      rw [hclass'] at h
      exact absurd (congrArg Prod.fst (Option.some.inj h)) (EndingClass.form_changes hclass)

end Ending

end Classes

section Values

def fieldsLike (name : Bytes) (fields : List (Bytes × Bytes)) : List Bytes :=
  (fields.filter fun field => lowerCase field.1 = lowerCase name).map Prod.snd

/-- Under every name, whatever its case, the same values the same number of times. -/
def SameFields (fields fields' : List (Bytes × Bytes)) : Prop :=
  ∀ name, (fieldsLike name fields).Perm (fieldsLike name fields')

def SameValues (headers headers' : Headers) : Prop := SameFields headers.entries headers'.entries

theorem fieldsLike_case (name : Bytes) {fields fields' : List (Bytes × Bytes)}
    (h : List.Forall₂ FieldSameButCase fields fields') :
    fieldsLike name fields = fieldsLike name fields' := by
  induction h with
  | nil => rfl
  | @cons field field' _ _ hsame _ ih =>
    obtain ⟨hname, hvalue⟩ := hsame
    rw [fieldsLike, fieldsLike] at ih ⊢
    by_cases hlike : lowerCase field.1 = lowerCase name
    · rw [List.filter_cons_of_pos (by simpa using hlike),
        List.filter_cons_of_pos (by simpa using hname ▸ hlike), List.map_cons, List.map_cons, ih,
        hvalue]
    · rw [List.filter_cons_of_neg (by simpa using hlike),
        List.filter_cons_of_neg (by simpa using hname ▸ hlike), ih]

theorem fieldsLike_append (name : Bytes) (fields fields' : List (Bytes × Bytes)) :
    fieldsLike name (fields ++ fields') = fieldsLike name fields ++ fieldsLike name fields' := by
  rw [fieldsLike, List.filter_append, List.map_append]
  rfl

theorem fieldsLike_perm {fields fields' : List (Bytes × Bytes)} (h : fields.Perm fields')
    (name : Bytes) : (fieldsLike name fields).Perm (fieldsLike name fields') :=
  (h.filter _).map Prod.snd

/-- The values of fields that all have the same name. -/
theorem fieldsLike_named (name hName : Bytes) (values : List Bytes) :
    fieldsLike name (values.map fun v => (hName, v)) =
      if lowerCase hName = lowerCase name then values else [] := by
  induction values with
  | nil => rw [ite_self]; rfl
  | cons v values ih =>
    by_cases hname : lowerCase hName = lowerCase name
    · rw [if_pos hname] at ih ⊢
      rw [fieldsLike, List.map_cons, List.filter_cons_of_pos (by simpa using hname), List.map_cons]
      exact congrArg (v :: ·) ih
    · rw [if_neg hname] at ih ⊢
      rw [fieldsLike, List.map_cons, List.filter_cons_of_neg (by simpa using hname)]
      exact ih

theorem entries_addFields (fields : List (Bytes × Bytes)) (headers : Headers) :
    (Headers.entries (addFields fields headers)).Perm (headers.entries ++ fields) := by
  induction fields generalizing headers with
  | nil => rw [List.append_nil, addFields, List.foldl_nil]
  | cons field fields ih =>
    have hadd := Headers.entries_add field.1 field.2 headers
    exact (ih _).trans ((hadd.append_right fields).trans List.perm_middle.symm)

/-- What is assigned takes the place of the entry under that very name. -/
theorem entries_assign (hName hValue : Bytes) (headers : Headers) :
    (Headers.entries (headers.assign hName hValue) ++
        (((headers.get? hName).elim [] HeaderValue.values).map fun v => (hName, v))).Perm
      ((hName, hValue) :: headers.entries) := by
  induction headers with
  | nil => exact .refl _
  | cons entry headers ih =>
    obtain ⟨name, currValues⟩ := entry
    by_cases hname : name = hName
    · subst hname
      rw [Headers.assign, if_pos rfl, Headers.get?, if_pos rfl, Headers.entries_cons,
        Headers.entries_cons]
      exact List.perm_append_comm.cons _
    · rw [Headers.assign, if_neg hname, Headers.get?, if_neg hname, Headers.entries_cons,
        Headers.entries_cons, List.append_assoc]
      exact (ih.append_left _).trans List.perm_middle

theorem ofValues_values (values : List Bytes) :
    (HeaderValue.ofValues values).elim [] HeaderValue.values = values := by
  match values with
  | [] => rfl
  | [_] => rfl
  | _ :: _ :: _ => rfl

end Values

section Kept

/-- The fields that `handleKeepAlive` leaves as they are. -/
def kept (keepAlive : Bool) (fields : List (Bytes × Bytes)) : List (Bytes × Bytes) :=
  fields.filter fun field => Unforced keepAlive field.1

/-- The field that it puts in the place of the others. -/
def forced (keepAlive : Bool) : List (Bytes × Bytes) :=
  if keepAlive then [] else [(text "Connection", text "close")]

def fieldAfter (x : Option Overwriting) (field : Bytes × Bytes) : Bytes × Bytes :=
  (textAfter x field.1, textAfter x field.2)

theorem kept_append (keepAlive : Bool) (fields fields' : List (Bytes × Bytes)) :
    kept keepAlive (fields ++ fields') = kept keepAlive fields ++ kept keepAlive fields' :=
  List.filter_append _ _

theorem kept_connection (fields : List (Bytes × Bytes)) :
    fields.Perm (kept false fields ++
      (valuesUnder (text "Connection") fields).map fun v => (text "Connection", v)) := by
  have hnamed : (valuesUnder (text "Connection") fields).map (fun v => (text "Connection", v)) =
      fields.filter fun field => !decide (Unforced false field.1) := by
    rw [valuesUnder, List.map_map]
    induction fields with
    | nil => rfl
    | cons field fields ih =>
      by_cases hname : field.1 = text "Connection"
      · rw [List.filter_cons_of_pos (by simpa using hname),
          List.filter_cons_of_pos (by simpa [Unforced] using hname), List.map_cons, ih]
        exact congrArg (· :: _) (Prod.ext hname.symm rfl)
      · rw [List.filter_cons_of_neg (by simpa using hname),
          List.filter_cons_of_neg (by simpa [Unforced] using hname), ih]
  rw [hnamed]
  exact (List.filter_append_perm (fun field => decide (Unforced false field.1)) fields).symm

/-- Fields that differ in the case of their names keep the same values when the values under
exactly `Connection` are the same. -/
theorem sameFields_kept_iff {fields fields' : List (Bytes × Bytes)}
    (h : List.Forall₂ FieldSameButCase fields fields') (keepAlive : Bool) :
    SameFields (kept keepAlive fields) (kept keepAlive fields') ↔ (keepAlive = false →
      (valuesUnder (text "Connection") fields).Perm (valuesUnder (text "Connection") fields')) := by
  cases keepAlive with
  | true =>
    refine iff_of_true (fun name => ?_) nofun
    have hall : ∀ fields, kept true fields = fields := fun fields =>
      List.filter_eq_self.mpr fun field _ => decide_eq_true (.inl rfl)
    rw [hall, hall, fieldsLike_case name h]
  | false =>
    have hboth : ∀ name, (fieldsLike name (kept false fields) ++
          if lowerCase (text "Connection") = lowerCase name then
            valuesUnder (text "Connection") fields else []).Perm
        (fieldsLike name (kept false fields') ++
          if lowerCase (text "Connection") = lowerCase name then
            valuesUnder (text "Connection") fields' else []) := by
      intro name
      rw [← fieldsLike_named, ← fieldsLike_named, ← fieldsLike_append, ← fieldsLike_append]
      refine (fieldsLike_perm (kept_connection fields).symm name).trans ?_
      rw [fieldsLike_case name h]
      exact fieldsLike_perm (kept_connection fields') name
    constructor
    · intro hkept _
      have hname := hboth (text "Connection")
      rw [if_pos rfl, if_pos rfl] at hname
      exact (List.perm_append_left_iff _).mp (((hkept _).symm.append_right _).trans hname)
    · intro hvalues name
      have hname := hboth name
      by_cases hlike : lowerCase (text "Connection") = lowerCase name
      · rw [if_pos hlike, if_pos hlike] at hname
        exact (List.perm_append_right_iff _).mp (hname.trans ((hvalues rfl).symm.append_left _))
      · rw [if_neg hlike, if_neg hlike, List.append_nil, List.append_nil] at hname
        exact hname

/-- The headers have the fields as their entries. -/
structure Holds (headers : Headers) (fields : List (Bytes × Bytes)) : Prop where
  entries : headers.entries.Perm fields
  connection : headers.get? (text "Connection") =
    HeaderValue.ofValues (valuesUnder (text "Connection") fields)

variable {headers headers' : Headers} {fields fields' : List (Bytes × Bytes)}

theorem Holds.add (h : Holds headers fields) (more : List (Bytes × Bytes)) :
    Holds (addFields more headers) (fields ++ more) where
  entries := (entries_addFields more headers).trans (h.entries.append_right more)
  connection := by rw [get?_addFields _ more h.connection, valuesUnder_append]

theorem Holds.closing (h : Holds headers fields) (keepAlive : Bool) :
    Holds (closing keepAlive headers) (forced keepAlive ++ kept keepAlive fields) := by
  cases keepAlive with
  | true =>
    have hkept : kept true fields = fields :=
      List.filter_eq_self.mpr fun field _ => decide_eq_true (.inl rfl)
    show Holds headers ([] ++ kept true fields)
    rw [hkept]
    exact h
  | false =>
    constructor
    · have hassign := entries_assign (text "Connection") (text "close") headers
      rw [h.connection, ofValues_values] at hassign
      have hfields := (h.entries.trans (kept_connection fields)).cons
        (text "Connection", text "close")
      exact (List.perm_append_right_iff _).mp (hassign.trans hfields)
    · have hnone : valuesUnder (text "Connection") (kept false fields) = [] := by
        rw [valuesUnder, kept, List.filter_filter, List.filter_eq_nil_iff.mpr, List.map_nil]
        intro field _ hboth
        simp [Unforced] at hboth
      have hassign := Headers.get?_assign (text "Connection") (text "close") (text "Connection")
        headers
      rw [if_pos rfl] at hassign
      rw [valuesUnder_append, hnone]
      exact hassign

theorem Holds.after {x : Option Overwriting} (hx : ∀ y ∈ x, y.Proper) (h : Holds headers fields) :
    Holds (Headers.after x headers) (fields.map (fieldAfter x)) := by
  constructor
  · have hentries : (Headers.after x headers).entries = headers.entries.map (fieldAfter x) := by
      rw [Headers.entries, Headers.entries, Headers.after, List.flatMap_map, List.map_flatMap]
      refine List.flatMap_congr fun header _ => ?_
      obtain ⟨name, value | values⟩ := header <;>
        simp [HeaderValue.after, HeaderValue.values, fieldAfter]
    rw [hentries]
    exact h.entries.map _
  · have hvalues : valuesUnder (text "Connection") (fields.map (fieldAfter x)) =
        (valuesUnder (text "Connection") fields).map (textAfter x) := by
      rw [valuesUnder, valuesUnder, List.filter_map, List.map_map, List.map_map]
      have hname : ∀ field : Bytes × Bytes, (fieldAfter x field).1 = text "Connection" ↔
          field.1 = text "Connection" := fun field => untouched_connection hx field.1
      refine congrArg (List.map _) (List.filter_congr fun field _ => ?_)
      exact decide_eq_decide.mpr (hname field)
    rw [Headers.get?_after (untouched_connection hx), h.connection, WireMessage.ofValues_after,
      hvalues]

theorem Holds.sameValues_iff {first : List (Bytes × Bytes)} (h : Holds headers (first ++ fields))
    (h' : Holds headers' (first ++ fields')) :
    SameValues headers headers' ↔ SameFields fields fields' := by
  have hlike : ∀ name, (fieldsLike name headers.entries).Perm (fieldsLike name headers'.entries) ↔
      (fieldsLike name fields).Perm (fieldsLike name fields') := by
    intro name
    have hperm := fieldsLike_perm h.entries name
    have hperm' := fieldsLike_perm h'.entries name
    rw [fieldsLike_append] at hperm hperm'
    refine Iff.trans ?_ (List.perm_append_left_iff (fieldsLike name first))
    exact ⟨fun hsame => hperm.symm.trans (hsame.trans hperm'),
      fun hsame => hperm.trans (hsame.trans hperm'.symm)⟩
  exact forall_congr' hlike

end Kept

section Alike

/-- The server treats the two event sequences alike: `readFull` takes the same decision with the
same boundary, after the end of the message the parameters and the boundary are the same, and the
headers have the same values at both times. -/
structure TreatedAlike {σ : Type} (P : HttpParser σ) (evs evs' : List Event) : Prop where
  reading : (callbacks P (headEvents evs) newServerHttpRequest).map
      (fun req => streaming req.headers) =
    (callbacks P (headEvents evs') newServerHttpRequest).map fun req => streaming req.headers
  ending : (callbacks P evs newServerHttpRequest).toOption.map
      (fun req => (req.params, getMultipartBoundary req.headers)) =
    (callbacks P evs' newServerHttpRequest).toOption.map
      fun req => (req.params, getMultipartBoundary req.headers)
  headValues : ∀ req req', callbacks P (headEvents evs) newServerHttpRequest = .ok req →
    callbacks P (headEvents evs') newServerHttpRequest = .ok req' →
    SameValues req.headers req'.headers
  values : ∀ req req', callbacks P evs newServerHttpRequest = .ok req →
    callbacks P evs' newServerHttpRequest = .ok req' → SameValues req.headers req'.headers

namespace Content

variable {σ : Type} (P : HttpParser σ)

/-- The values under exactly `Content-Type` when the headers are complete, as decoding the query
string leaves them. -/
def contentTypes (c : Content) : List Bytes :=
  (valuesUnder (text "Content-Type") c.fields).map (textAfter (c.message.queryOverwriting P))

/-- The fields that are kept when the headers are complete and when the message is, as decoding the
query string and a form leaves them. -/
def headFields (c : Content) : List (Bytes × Bytes) :=
  (kept c.keepAlive c.fields).map (fieldAfter (c.message.queryOverwriting P))

def endFields (c : Content) : List (Bytes × Bytes) :=
  (kept c.keepAliveEnd (c.headFields P ++ c.trailers)).map
    (fieldAfter (c.message.formOverwriting P))

/-- The fields under exactly `Content-Type` put both requests into the same classes, and the fields
that are kept have the same values under each name without case. -/
structure TellsAlike (c c' : Content) (params : Params) : Prop where
  reading : ReadingClass.of (c.contentTypes P) = ReadingClass.of (c'.contentTypes P)
  ending : EndingClass.of P c.body params (c.message.contentTypesEnd P) =
    EndingClass.of P c.body params (c'.message.contentTypesEnd P)
  headValues : SameFields (c.headFields P) (c'.headFields P)
  values : EndingClass.of P c.body params (c.message.contentTypesEnd P) ≠ .raises →
    SameFields (c.endFields P) (c'.endFields P)

end Content

theorem holds_none : Holds [] [] := ⟨.refl _, rfl⟩

theorem forced_after {x : Option Overwriting} (hx : ∀ y ∈ x, y.Proper) (keepAlive : Bool) :
    (forced keepAlive).map (fieldAfter x) = forced keepAlive := by
  cases keepAlive with
  | true => rfl
  | false =>
    show [(textAfter x (text "Connection"), textAfter x (text "close"))] = _
    rw [(untouched_connection hx).textAfter_eq, (untouched_close hx).textAfter_eq]
    rfl

section Fields

variable {σ : Type} (P : HttpParser σ) (c : Content)

theorem holds_head : Holds (c.message.headHeaders P) (forced c.keepAlive ++ c.headFields P) := by
  have hx := c.message.queryOverwriting_proper P
  have h := Holds.after hx ((holds_none.add c.fields).closing c.keepAlive)
  rwa [List.nil_append, List.map_append, forced_after hx] at h

/-- When the connection was to be closed already after the headers, that is told twice. -/
theorem holds_end : Holds (c.message.endHeaders P)
    (forced c.keepAliveEnd ++ kept c.keepAliveEnd (forced c.keepAlive) ++ c.endFields P) := by
  have hy := c.message.formOverwriting_proper P
  have h := Holds.after hy (((holds_head P c).add c.trailers).closing c.keepAliveEnd)
  have hforced : (kept c.keepAliveEnd (forced c.keepAlive)).map
      (fieldAfter (c.message.formOverwriting P)) = kept c.keepAliveEnd (forced c.keepAlive) := by
    refine (List.map_congr_left fun field hfield => ?_).trans (List.map_id _)
    have hall := forced_after hy c.keepAlive
    have hmem := (List.mem_filter.mp hfield).1
    cases hkeep : c.keepAlive with
    | true =>
      rw [hkeep] at hmem
      cases hmem
    | false =>
      rw [hkeep] at hall hmem
      rw [List.mem_singleton.mp hmem]
      exact (List.cons.inj hall).1
  rw [List.append_assoc (forced c.keepAlive), kept_append, List.map_append, List.map_append,
    forced_after hy, hforced, ← List.append_assoc] at h
  exact h

/-- When the query string overwrites nothing, only the fields under exactly `Connection` count, and
only where the connection is to be closed. -/
theorem headFields_same_iff {c c' : Content} (h : c.SameButCase c')
    (hx : c.message.queryOverwriting P = none) :
    SameFields (c.headFields P) (c'.headFields P) ↔ (c.keepAlive = false →
      (valuesUnder (text "Connection") c.fields).Perm
        (valuesUnder (text "Connection") c'.fields)) := by
  have hkeep : c'.keepAlive = c.keepAlive := by rw [h.other]
  have hx' : c'.message.queryOverwriting P = none := by
    rw [← hx, h.other]
    rfl
  have hsame : ∀ fields : List (Bytes × Bytes), fields.map (fieldAfter none) = fields := fun fields =>
    List.map_id _
  rw [Content.headFields, Content.headFields, hx, hx', hkeep, hsame, hsame]
  exact sameFields_kept_iff h.fields c.keepAlive

end Fields

section Requests

variable {σ : Type} {P : HttpParser σ} {c c' : Content} {params : Params} {req : Request}

theorem params_of_call (h : headParams P c = .ok params)
    (hcall : callback P c.headersComplete c.headRequest = .ok req) :
    ∃ parsedURL left, parseRequestURL P (some c.method) (some c.url) = .ok parsedURL ∧
      queryParams P parsedURL = .ok (params, left) := by
  obtain ⟨parsedURL, params', left, hparse, hquery, -, -⟩ := (Content.head_of_call P hcall).query
  have hboth : (parseRequestURL P (some c.method) (some c.url) >>= queryParams P) =
      .ok (params', left) := by
    rw [show parseRequestURL P (some c.method) (some c.url) = .ok parsedURL from hparse]
    exact hquery
  rw [headParams, hboth] at h
  cases h
  exact ⟨parsedURL, left, hparse, hquery⟩

/-- What is left of the message after its end. -/
theorem request_outcome (h : headParams P c = .ok params)
    (hcall : callback P c.headersComplete c.headRequest = .ok req) :
    (c.request P).toOption.map (fun req => (req.params, getMultipartBoundary req.headers)) =
        (EndingClass.of P c.body params (c.message.contentTypesEnd P)).outcome P c.body params ∧
      ((∃ last, c.request P = .ok last) ↔
        EndingClass.of P c.body params (c.message.contentTypesEnd P) ≠ .raises) := by
  obtain ⟨parsedURL, left, hparse, hquery⟩ := params_of_call h hcall
  have hform := @formParams_eq σ P c.body params _ _ (c.message.lastHeaders_contentType P)
  cases hresult : formParams P (c.message.lastHeaders P) c.body (some params) with
  | error e =>
    rw [hresult] at hform
    change none = _ at hform
    have hraises : EndingClass.of P c.body params (c.message.contentTypesEnd P) = .raises := by
      cases hclass : EndingClass.of P c.body params (c.message.contentTypesEnd P) with
      | raises => rfl
      | _ =>
        rw [hclass] at hform
        cases hform
    cases hrequest : c.request P with
    | ok last =>
      obtain ⟨parsedURL', params', left', _, _, hparse', hquery', hform', -⟩ :=
        (Content.object_of_request P hrequest).form
      cases hparse.symm.trans hparse'
      cases hquery.symm.trans hquery'
      rw [show c.message.body = c.body from rfl, hresult] at hform'
      cases hform'
    | error e' =>
      refine ⟨?_, iff_of_false ?_ fun hclass => hclass hraises⟩
      · show none = _
        exact hform
      · rintro ⟨last, hlast⟩
        cases hlast
  | ok result =>
    obtain ⟨last, hlast⟩ := @WireMessage.object_of σ P c.message parsedURL params left result
      hparse hquery hresult newServerHttpRequest
    have hrequest : c.request P = .ok last := hlast
    have hobject := Content.object_of_request P hrequest
    obtain ⟨parsedURL', params', left', formed, bodyLeft, hparse', hquery', hform', hparams, -⟩ :=
      hobject.form
    cases hparse.symm.trans hparse'
    cases hquery.symm.trans hquery'
    rw [show c.message.body = c.body from rfl] at hform'
    obtain rfl := Except.ok.inj (hresult.symm.trans hform')
    rw [hresult] at hform
    have hy := c.message.formOverwriting_eq P hform'
    refine ⟨?_, iff_of_true ⟨last, hrequest⟩ fun hraises => ?_⟩
    · rw [hrequest, ← hform]
      show some (last.params, getMultipartBoundary last.headers) = _
      rw [hparams, hobject.headers, WireMessage.endHeaders, hy]
      rfl
    · rw [hraises] at hform
      cases hform

/-- The headers under every name are the same when these fields of the messages are. -/
theorem sameValues_head_iff {req' : Request} (hsame : c.SameButCase c')
    (hcall : callback P c.headersComplete c.headRequest = .ok req)
    (hcall' : callback P c'.headersComplete c'.headRequest = .ok req') :
    SameValues req.headers req'.headers ↔ SameFields (c.headFields P) (c'.headFields P) := by
  have hkeep : c'.keepAlive = c.keepAlive := by rw [hsame.other]
  have hholds := holds_head P c'
  rw [hkeep] at hholds
  rw [(Content.head_of_call P hcall).headers, (Content.head_of_call P hcall').headers]
  exact (holds_head P c).sameValues_iff hholds

theorem sameValues_end_iff {last last' : Request} (hsame : c.SameButCase c')
    (hlast : c.request P = .ok last) (hlast' : c'.request P = .ok last') :
    SameValues last.headers last'.headers ↔ SameFields (c.endFields P) (c'.endFields P) := by
  have hkeep : c'.keepAlive = c.keepAlive := by rw [hsame.other]
  have hkeepEnd : c'.keepAliveEnd = c.keepAliveEnd := by rw [hsame.other]
  have hholds := holds_end P c'
  rw [hkeep, hkeepEnd] at hholds
  rw [(Content.object_of_request P hlast).headers, (Content.object_of_request P hlast').headers]
  exact (holds_end P c).sameValues_iff hholds

/-- The theorem below for a URL that is not refused. -/
theorem treatedAlike_iff {evs evs' : List Event} (hevs : c.Reports evs) (hevs' : c'.Reports evs')
    (hsame : c.SameButCase c') {req' : Request} (hok : headParams P c = .ok params)
    (hok' : headParams P c' = .ok params)
    (hcall : callback P c.headersComplete c.headRequest = .ok req)
    (hcall' : callback P c'.headersComplete c'.headRequest = .ok req') :
    TreatedAlike P evs evs' ↔ c.TellsAlike P c' params := by
  have hbody : c'.body = c.body := by rw [hsame.other]
  have hhead := (Content.callbacks_headEvents P hevs).trans hcall
  have hhead' := (Content.callbacks_headEvents P hevs').trans hcall'
  have hall := callbacks_reports P hevs
  have hall' := callbacks_reports P hevs'
  obtain ⟨houtcome, hcompleted⟩ := request_outcome hok hcall
  obtain ⟨houtcome', hcompleted'⟩ := request_outcome hok' hcall'
  rw [hbody] at houtcome' hcompleted'
  have hstreaming : streaming req.headers = (ReadingClass.of (c.contentTypes P)).streaming :=
    streaming_eq ((Content.head_of_call P hcall).headers ▸ c.message.headHeaders_contentType P)
  have hstreaming' : streaming req'.headers = (ReadingClass.of (c'.contentTypes P)).streaming :=
    streaming_eq ((Content.head_of_call P hcall').headers ▸ c'.message.headHeaders_contentType P)
  have hheadValues := sameValues_head_iff hsame hcall hcall'
  constructor
  · intro h
    have hending : EndingClass.of P c.body params (c.message.contentTypesEnd P) =
        EndingClass.of P c.body params (c'.message.contentTypesEnd P) := by
      have hend := h.ending
      rw [hall, hall', houtcome, houtcome'] at hend
      exact EndingClass.outcome_injective hend
    refine ⟨?_, hending, hheadValues.mp (h.headValues req req' hhead hhead'), fun hclass => ?_⟩
    · have hreading := h.reading
      rw [hhead, hhead'] at hreading
      have hdecision : streaming req.headers = streaming req'.headers := Except.ok.inj hreading
      rw [hstreaming, hstreaming'] at hdecision
      exact ReadingClass.streaming_injective.mp hdecision
    · obtain ⟨last, hlast⟩ := hcompleted.mpr hclass
      obtain ⟨last', hlast'⟩ := hcompleted'.mpr (hending ▸ hclass)
      exact (sameValues_end_iff hsame hlast hlast').mp
        (h.values last last' (hall.trans hlast) (hall'.trans hlast'))
  · intro h
    refine ⟨?_, ?_, ?_, ?_⟩
    · rw [hhead, hhead']
      show Except.ok (streaming req.headers) = Except.ok (streaming req'.headers)
      rw [hstreaming, hstreaming', h.reading]
    · rw [hall, hall', houtcome, houtcome', h.ending]
    · intro head head' hrun hrun'
      cases hhead.symm.trans hrun
      cases hhead'.symm.trans hrun'
      exact hheadValues.mpr h.headValues
    · intro last last' hrun hrun'
      have hlast := hall.symm.trans hrun
      exact (sameValues_end_iff hsame hlast (hall'.symm.trans hrun')).mpr
        (h.values (hcompleted.mp ⟨last, hlast⟩))

end Requests

variable {σ : Type} (P : HttpParser σ)

/-- Two event sequences of a request that differ in the case of header names are treated alike
exactly when the URL is refused, or the values under exactly the names that the code looks at tell
it the same and the fields that are kept have the same values. -/
theorem header_case_iff {c : Content} {evs evs' : List Event} (hevs : c.Reports evs)
    (hcase : List.Forall₂ Event.SameButCase evs evs') :
    ∃ c', c'.Reports evs' ∧ c.SameButCase c' ∧ (TreatedAlike P evs evs' ↔
      ∀ params, headParams P c = .ok params → c.TellsAlike P c' params) := by
  obtain ⟨c', hevs', hsame⟩ := hevs.case hcase
  refine ⟨c', hevs', hsame, ?_⟩
  have hparams' : headParams P c' = headParams P c := by rw [hsame.other]; rfl
  have hhead := Content.callbacks_headEvents P hevs
  have hhead' := Content.callbacks_headEvents P hevs'
  have hall := callbacks_reports P hevs
  have hall' := callbacks_reports P hevs'
  obtain ⟨e, he, hcall⟩ | ⟨params, req, hok, hcall⟩ := headRequest_cases P c <;>
    obtain ⟨e', he', hcall'⟩ | ⟨params', req', hok', hcall'⟩ := headRequest_cases P c'
  · -- the URL is refused, for both
    obtain rfl : e = e' := Except.error.inj (he.symm.trans (hparams'.symm.trans he'))
    have hrequest : c.request P = .error e := by rw [Content.request, hcall]; rfl
    have hrequest' : c'.request P = .error e := by rw [Content.request, hcall']; rfl
    refine iff_of_true ⟨?_, ?_, ?_, ?_⟩ fun params hok => ?_
    · rw [hhead, hhead', hcall, hcall']
    · rw [hall, hall', hrequest, hrequest']
    · intro req req' hrun
      rw [hhead, hcall] at hrun
      cases hrun
    · intro req req' hrun
      rw [hall, hrequest] at hrun
      cases hrun
    · cases he.symm.trans hok
  · cases he.symm.trans (hparams'.symm.trans hok')
  · cases hok.symm.trans (hparams'.symm.trans he')
  · obtain rfl : params = params' := Except.ok.inj (hok.symm.trans (hparams'.symm.trans hok'))
    rw [treatedAlike_iff hevs hevs' hsame hok hok' hcall hcall']
    exact ⟨fun h params' hok' => Except.ok.inj (hok.symm.trans hok') ▸ h, fun h => h params hok⟩

end Alike

section LuaPackUpload

/-- A LuaPack message, its content type under the given name. -/
def luaPackContent (name : Bytes) : Content where
  method := text "POST"
  url := text "/"
  httpMajor := 1
  httpMinor := 1
  fields := [(name, text "application/luapack")]
  body := text "a"
  trailers := []
  keepAlive := true
  keepAliveEnd := true

def luaPackEvents (name : Bytes) : List Event :=
  [.messageBegin, .url (text "/"), .headerField name, .headerValue (text "application/luapack"),
    (luaPackContent name).headersComplete, .body (text "a"), .messageComplete true]

theorem luaPackEvents_reports (name : Bytes) :
    (luaPackContent name).Reports (luaPackEvents name) :=
  ⟨_, _, ⟨_, _, .last (text "/"), .cons (.last name) (.last (text "application/luapack")) .nil, rfl⟩,
    ⟨[text "a"], [], rfl, .nil, rfl⟩, rfl⟩

theorem luaPackEvents_case {name name' : Bytes} (h : lowerCase name = lowerCase name') :
    List.Forall₂ Event.SameButCase (luaPackEvents name) (luaPackEvents name') :=
  .cons rfl (.cons rfl (.cons h (.cons rfl (.cons rfl (.cons rfl (.cons rfl .nil))))))

def pathParser : HttpParser Script := Script.parser [] fun url _ => some ⟨some url, none⟩

theorem luaPack_case_iff :
    ∃ c', c'.Reports (luaPackEvents (text "content-type")) ∧
      (luaPackContent (text "Content-Type")).SameButCase c' ∧
      (TreatedAlike pathParser (luaPackEvents (text "Content-Type"))
          (luaPackEvents (text "content-type")) ↔
        ∀ params, headParams pathParser (luaPackContent (text "Content-Type")) = .ok params →
          (luaPackContent (text "Content-Type")).TellsAlike pathParser c' params) :=
  header_case_iff pathParser (luaPackEvents_reports _) (luaPackEvents_case (by decide))

/-- Under `content-type` the message is not taken for LuaPack, and is read to its end. -/
theorem luaPack_lower_case :
    List.Forall₂ Event.SameButCase (luaPackEvents (text "Content-Type"))
        (luaPackEvents (text "content-type")) ∧
      ¬TreatedAlike pathParser (luaPackEvents (text "Content-Type"))
        (luaPackEvents (text "content-type")) := by
  refine ⟨luaPackEvents_case (by decide), fun h => ?_⟩
  have hreading := congrArg (fun result => result.toOption.map Prod.snd) h.reading
  exact absurd hreading (by decide +kernel)

end LuaPackUpload

end Luaw.Http
