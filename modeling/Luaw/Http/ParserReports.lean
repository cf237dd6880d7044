import Luaw.Http.Overwriting
import Luaw.Http.Sending

/-!
# What the parser reports

`Reports c evs` says that the events tell a complete message with the content `c`, its data
items in any number of pieces. The callbacks make the same request of it, however the items
were cut.
-/

namespace Luaw.Http

open Lua

/-- What a complete request says. The trailers of a chunked body may change whether the
connection is to be kept alive. -/
structure Content where
  method : Bytes
  url : Bytes
  httpMajor : Nat
  httpMinor : Nat
  fields : List (Bytes × Bytes)
  body : Bytes
  trailers : List (Bytes × Bytes)
  keepAlive : Bool
  keepAliveEnd : Bool

/-- A data item reported in one or more pieces. -/
inductive Pieces (mk : Bytes → Event) : Bytes → List Event → Prop where
  | last (b : Bytes) : Pieces mk b [mk b]
  | cons (a : Bytes) {b : Bytes} {evs : List Event} :
      Pieces mk b evs → Pieces mk (a ++ b) (mk a :: evs)

inductive FieldPieces : List (Bytes × Bytes) → List Event → Prop where
  | nil : FieldPieces [] []
  | cons {name value : Bytes} {names values evs : List Event} {fields : List (Bytes × Bytes)} :
      Pieces .headerField name names → Pieces .headerValue value values →
      FieldPieces fields evs → FieldPieces ((name, value) :: fields) (names ++ values ++ evs)

namespace Content

def headersComplete (c : Content) : Event :=
  .headersComplete c.keepAlive c.httpMajor c.httpMinor (some c.method) none

/-- The events before the headers are complete. -/
def ReportsHead (c : Content) (evs : List Event) : Prop :=
  ∃ urls heads, Pieces .url c.url urls ∧ FieldPieces c.fields heads ∧
    evs = .messageBegin :: (urls ++ heads)

/-- The events between the headers and the end of the message. -/
def ReportsTail (c : Content) (evs : List Event) : Prop :=
  ∃ (chunks : List Bytes) (tails : List Event),
    chunks.flatten = c.body ∧ FieldPieces c.trailers tails ∧
    evs = chunks.map .body ++ tails

def Reports (c : Content) (evs : List Event) : Prop :=
  ∃ head tail, c.ReportsHead head ∧ c.ReportsTail tail ∧
    evs = head ++ c.headersComplete :: (tail ++ [.messageComplete c.keepAliveEnd])

end Content

def Event.isHeadersComplete : Event → Bool
  | headersComplete _ _ _ _ _ => true
  | _ => false

def Event.isMessageComplete : Event → Bool
  | messageComplete _ => true
  | _ => false

/-- Neither the headers nor the message are complete at the event. -/
def Event.isPlain (e : Event) : Prop := e.isHeadersComplete = false ∧ e.isMessageComplete = false

theorem Pieces.plain {mk : Bytes → Event} (hmk : ∀ b, (mk b).isPlain) {b : Bytes}
    {evs : List Event} (h : Pieces mk b evs) : ∀ e ∈ evs, e.isPlain := by
  induction h with
  | last b =>
    intro e he
    rw [List.mem_singleton.mp he]
    exact hmk b
  | cons a _ ih =>
    intro e he
    obtain rfl | he := List.mem_cons.mp he
    · exact hmk a
    · exact ih e he

theorem FieldPieces.plain {fields : List (Bytes × Bytes)} {evs : List Event}
    (h : FieldPieces fields evs) : ∀ e ∈ evs, e.isPlain := by
  induction h with
  | nil => exact nofun
  | cons hname hvalue _ ih =>
    intro e he
    obtain he | he := List.mem_append.mp he
    · obtain he | he := List.mem_append.mp he
      · exact hname.plain (fun _ => ⟨rfl, rfl⟩) e he
      · exact hvalue.plain (fun _ => ⟨rfl, rfl⟩) e he
    · exact ih e he

theorem Content.ReportsHead.plain {c : Content} {evs : List Event} (h : c.ReportsHead evs) :
    ∀ e ∈ evs, e.isPlain := by
  obtain ⟨urls, heads, hurls, hheads, rfl⟩ := h
  intro e he
  obtain rfl | he := List.mem_cons.mp he
  · exact ⟨rfl, rfl⟩
  · obtain he | he := List.mem_append.mp he
    · exact hurls.plain (fun _ => ⟨rfl, rfl⟩) e he
    · exact hheads.plain e he

theorem Content.ReportsTail.plain {c : Content} {evs : List Event} (h : c.ReportsTail evs) :
    ∀ e ∈ evs, e.isPlain := by
  obtain ⟨chunks, tails, -, htails, rfl⟩ := h
  intro e he
  obtain he | he := List.mem_append.mp he
  · obtain ⟨chunk, -, rfl⟩ := List.mem_map.mp he
    exact ⟨rfl, rfl⟩
  · exact htails.plain e he

/-- The first line of a message, as far as it is reported: the URL of a request, or the text that
goes with the status of a response, if there is one. -/
inductive StartLine where
  | url (url : Bytes)
  | status (mesg : Bytes)
  | statusOnly

namespace StartLine

def Tells : StartLine → List Event → Prop
  | .url data => Pieces .url data
  | .status data => Pieces .status data
  | .statusOnly => fun evs => evs = []

def heard (req : Request) : StartLine → Request
  | .url data => { req with url := some data }
  | .status data => { req with statusMesg := some data }
  | .statusOnly => req

end StartLine

/-- A complete message, a request or a response. -/
structure WireMessage where
  start : StartLine
  fields : List (Bytes × Bytes)
  keepAlive : Bool
  httpMajor : Nat
  httpMinor : Nat
  method : Option Bytes
  status : Option Nat
  body : Bytes
  trailers : List (Bytes × Bytes)
  keepAliveEnd : Bool

namespace WireMessage

def headersComplete (m : WireMessage) : Event :=
  .headersComplete m.keepAlive m.httpMajor m.httpMinor m.method m.status

/-- The events tell the message, but not that it is complete. -/
def TellsOpen (m : WireMessage) (evs : List Event) : Prop :=
  ∃ (starts heads : List Event) (chunks : List Bytes) (tails : List Event),
    m.start.Tells starts ∧ FieldPieces m.fields heads ∧
    chunks.flatten = m.body ∧ FieldPieces m.trailers tails ∧
    evs = .messageBegin :: (starts ++ heads ++ m.headersComplete :: (chunks.map .body ++ tails))

def Tells (m : WireMessage) (evs : List Event) : Prop :=
  ∃ told, m.TellsOpen told ∧ evs = told ++ [.messageComplete m.keepAliveEnd]

end WireMessage

namespace Content

def message (c : Content) : WireMessage where
  start := .url c.url
  fields := c.fields
  keepAlive := c.keepAlive
  httpMajor := c.httpMajor
  httpMinor := c.httpMinor
  method := some c.method
  status := none
  body := c.body
  trailers := c.trailers
  keepAliveEnd := c.keepAliveEnd

theorem Reports.tells {c : Content} {evs : List Event} (h : c.Reports evs) :
    c.message.Tells evs := by
  obtain ⟨head, tail, ⟨urls, heads, hurls, hheads, rfl⟩, ⟨chunks, tails, hchunks, htails, rfl⟩,
    rfl⟩ := h
  refine ⟨_, ⟨urls, heads, chunks, tails, hurls, hheads, hchunks, htails, rfl⟩, ?_⟩
  simp [message, headersComplete, WireMessage.headersComplete]

end Content

section Callbacks

variable {σ : Type} (P : HttpParser σ)

/-- The callbacks for a list of events, one after the other. -/
def callbacks : List Event → Request → Except LuaError Request
  | [], req => .ok req
  | e :: evs, req => (callback P e req).bind (callbacks evs)

theorem callbacks_append (evs evs' : List Event) (req : Request) :
    callbacks P (evs ++ evs') req = (callbacks P evs req).bind (callbacks P evs') := by
  induction evs generalizing req with
  | nil => rfl
  | cons e evs ih =>
    rw [List.cons_append, callbacks, callbacks]
    cases callback P e req with
    | ok req' => exact ih req'
    | error e => rfl

theorem handleAcc_idem (req : Request) :
    req.handleAccHttpHeader.handleAccHttpHeader = req.handleAccHttpHeader := by
  obtain ⟨headers, name, value, _⟩ := req
  cases name <;> cases value <;> rfl

/-- A header name and its value are kept, or neither. -/
def Request.Paired (req : Request) : Prop :=
  req.accHeaderName.isSome = req.accHeaderValue.isSome

theorem Request.Paired.handled {req : Request} (h : req.Paired) :
    req.handleAccHttpHeader.accHeaderName = none ∧
      req.handleAccHttpHeader.accHeaderValue = none := by
  obtain ⟨headers, name, value, _⟩ := req
  cases name <;> cases value
  · exact ⟨rfl, rfl⟩
  · cases h
  · cases h
  · exact ⟨rfl, rfl⟩

/-- What a complete header field does to the request. -/
def Request.hearField (req : Request) (field : Bytes × Bytes) : Request :=
  { req.handleAccHttpHeader with
    accHeaderName := some field.1, accHeaderValue := some field.2 }

theorem callbacks_urls {url : Bytes} {evs : List Event} (h : Pieces .url url evs)
    (req : Request) :
    callbacks P evs req = .ok { req with url := some (req.url.getD [] ++ url) } := by
  induction h generalizing req with
  | last b => rfl
  | cons a _ ih =>
    rw [callbacks, callback, Except.bind, ih]
    simp [Request.accumulateChunkedValue]

theorem callbacks_statuses {mesg : Bytes} {evs : List Event} (h : Pieces .status mesg evs)
    (req : Request) :
    callbacks P evs req = .ok { req with statusMesg := some (req.statusMesg.getD [] ++ mesg) } := by
  induction h generalizing req with
  | last b => rfl
  | cons a _ ih =>
    rw [callbacks, callback, Except.bind, ih]
    simp [Request.accumulateChunkedValue]

theorem callbacks_start {start : StartLine} {evs : List Event} (h : start.Tells evs)
    {req : Request} (hurl : req.url = none) (hmesg : req.statusMesg = none) :
    callbacks P evs req = .ok (start.heard req) := by
  cases start with
  | url url =>
    rw [callbacks_urls P h, hurl]
    rfl
  | status mesg =>
    rw [callbacks_statuses P h, hmesg]
    rfl
  | statusOnly =>
    obtain rfl : evs = [] := h
    rfl

theorem callbacks_names {name : Bytes} {evs : List Event} (h : Pieces .headerField name evs)
    {req : Request} (hvalue : req.accHeaderValue = none) :
    callbacks P evs req =
      .ok { req with accHeaderName := some (req.accHeaderName.getD [] ++ name) } := by
  have hhandle : ∀ req : Request, req.accHeaderValue = none → req.handleAccHttpHeader = req := by
    intro req hvalue
    rw [Request.handleAccHttpHeader, hvalue]
    split
    · next heq => cases heq
    · rfl
  induction h generalizing req with
  | last b => rw [callbacks, callback, hhandle req hvalue]; rfl
  | cons a _ ih =>
    have hmore := @ih { req with
      accHeaderName := Request.accumulateChunkedValue req.accHeaderName a } hvalue
    rw [callbacks, callback, hhandle req hvalue, Except.bind, hmore]
    simp [Request.accumulateChunkedValue]

theorem callbacks_values {value : Bytes} {evs : List Event} (h : Pieces .headerValue value evs)
    (req : Request) :
    callbacks P evs req =
      .ok { req with accHeaderValue := some (req.accHeaderValue.getD [] ++ value) } := by
  induction h generalizing req with
  | last b => rfl
  | cons a _ ih =>
    rw [callbacks, callback, Except.bind, ih]
    simp [Request.accumulateChunkedValue]

/-- The first piece of a name adds the field before it. -/
theorem callbacks_names_handled {name : Bytes} {evs : List Event}
    (h : Pieces .headerField name evs) (req : Request) :
    callbacks P evs req = callbacks P evs req.handleAccHttpHeader := by
  cases h with
  | last b => simp only [callbacks, callback, handleAcc_idem]
  | cons a _ => simp only [callbacks, callback, handleAcc_idem]

theorem foldl_hearField_paired (fields : List (Bytes × Bytes)) {req : Request}
    (h : req.Paired) : (fields.foldl Request.hearField req).Paired := by
  induction fields generalizing req with
  | nil => exact h
  | cons field fields ih => exact @ih (req.hearField field) rfl

theorem callbacks_fields {fields : List (Bytes × Bytes)} {evs : List Event}
    (h : FieldPieces fields evs) {req : Request} (hreq : req.Paired) :
    callbacks P evs req = .ok (fields.foldl Request.hearField req) := by
  induction h generalizing req with
  | nil => rfl
  | @cons name value names values evs fields hname hvalue _ ih =>
    obtain ⟨hname₀, hvalue₀⟩ := hreq.handled
    have hfield : callbacks P (names ++ values) req = .ok (req.hearField (name, value)) := by
      rw [callbacks_append, callbacks_names_handled P hname, callbacks_names P hname hvalue₀,
        Except.bind, callbacks_values P hvalue]
      simp [Request.hearField, hname₀, hvalue₀]
    have hrun := @ih (req.hearField (name, value)) rfl
    rw [callbacks_append, hfield, Except.bind, hrun, List.foldl_cons]

/-- The request when everything up to the headers has been reported. -/
def Content.headRequest (c : Content) : Request :=
  c.fields.foldl Request.hearField { newServerHttpRequest with url := some c.url }

theorem callbacks_head {c : Content} {evs : List Event} (h : c.ReportsHead evs) :
    callbacks P evs newServerHttpRequest = .ok c.headRequest := by
  obtain ⟨urls, heads, hurls, hheads, rfl⟩ := h
  have hrun := @callbacks_fields σ P _ _ hheads { newServerHttpRequest with url := some c.url } rfl
  have hreset : newServerHttpRequest.reset = newServerHttpRequest := rfl
  rw [callbacks, callback, Except.bind, hreset, callbacks_append, callbacks_urls P hurls,
    Except.bind]
  exact hrun

/-- What the callback for complete headers changes, when it does not raise. -/
theorem onHeadersComplete_ok {keepAlive : Bool} {major minor : Nat} {method : Option Bytes}
    {status : Option Nat} {req req' : Request}
    (h : onHeadersComplete P keepAlive major minor method status req = .ok req') :
    ∃ parsedURL params left, parseRequestURL P method req.url = .ok parsedURL ∧
      queryParams P parsedURL = .ok (params, left) ∧
      req' = { Request.after (queryOverwriting P parsedURL left)
          { req.handleAccHttpHeader.handleKeepAlive keepAlive with method := method } with
        majorVersion := some major
        minorVersion := some minor
        status := status
        parsedURL := some
          ⟨parsedURL.path.map (textAfter (queryOverwriting P parsedURL left)), left⟩
        params := some params
        headersDone := true } := by
  obtain ⟨parsedURL, hparse, h⟩ := Program.except_bind_ok h
  obtain ⟨⟨params, left⟩, hquery, h⟩ := Program.except_bind_ok h
  cases h
  have hurl : (req.handleAccHttpHeader.handleKeepAlive keepAlive).url = req.url := by simp
  exact ⟨parsedURL, params, left, hurl ▸ hparse, hquery, rfl⟩

theorem onMesgComplete_ok {keepAlive : Bool} {req req' : Request}
    (h : onMesgComplete P keepAlive req = .ok req') :
    ∃ parts params left, req.bodyParts.concat = .ok parts ∧
      formParams P (req.handleAccHttpHeader.handleKeepAlive keepAlive).headers parts req.params =
        .ok (params, left) ∧
      req' = { Request.after (P.overwriting parts left)
          { req.handleAccHttpHeader.handleKeepAlive keepAlive with params := params } with
        body := some left
        bodyParts := newBuffer
        mesgDone := true } := by
  obtain ⟨parts, hparts, h⟩ := Program.except_bind_ok h
  obtain ⟨⟨params, left⟩, hform, h⟩ := Program.except_bind_ok h
  cases h
  have hparts' : (req.handleAccHttpHeader.handleKeepAlive keepAlive).bodyParts = req.bodyParts := by
    simp
  have hparams : (req.handleAccHttpHeader.handleKeepAlive keepAlive).params = req.params := by simp
  exact ⟨parts, params, left, hparts' ▸ hparts, hparams ▸ hform, rfl⟩

/-- The object has the body of its message, in which a form has been decoded in place. -/
def Request.HasBody (req : Request) (body : Bytes) : Prop :=
  ∃ params left, formParams P req.headers body params = .ok (req.params, left) ∧
    req.body = some left

theorem onMesgComplete_hasBody {keepAlive : Bool} {req req' : Request} {body : Bytes}
    (h : onMesgComplete P keepAlive req = .ok req') (hbody : req.bodyParts.concat = .ok body) :
    req'.HasBody P body := by
  obtain ⟨parts, params, left, hparts, hform, rfl⟩ := onMesgComplete_ok P h
  obtain rfl : parts = body := Except.ok.inj (hparts.symm.trans hbody)
  exact ⟨_, left, formParams_after P hform, rfl⟩

/-- The callback for the end of a message stores the body, unless it is a form that cannot be
decoded. -/
theorem onMesgComplete_body (keepAlive : Bool) {req : Request} {body : Bytes}
    {params : Option Params} (hbody : req.bodyParts.concat = .ok body) (hreq : req.params = params) :
    onMesgComplete P keepAlive req =
      (formParams P (req.handleAccHttpHeader.handleKeepAlive keepAlive).headers body params).map
        fun (params, left) => { Request.after (P.overwriting body left)
            { req.handleAccHttpHeader.handleKeepAlive keepAlive with params := params } with
          body := some left, bodyParts := newBuffer, mesgDone := true } := by
  have hparts : (req.handleAccHttpHeader.handleKeepAlive keepAlive).bodyParts = req.bodyParts := by
    simp
  have hparams : (req.handleAccHttpHeader.handleKeepAlive keepAlive).params = params := by
    simp [hreq]
  show ((req.handleAccHttpHeader.handleKeepAlive keepAlive).bodyParts.concat >>= _) = _
  rw [hparts, hbody, ← hparams]
  show (formParams P _ body _ >>= _) = _
  cases formParams P (req.handleAccHttpHeader.handleKeepAlive keepAlive).headers body
    (req.handleAccHttpHeader.handleKeepAlive keepAlive).params <;> rfl

/-- Only the body as a whole counts at the end. -/
theorem onMesgComplete_bodyParts (keepAlive : Bool) (req : Request) {b b' : Buffer}
    (h : b.concat = b'.concat) :
    onMesgComplete P keepAlive { req with bodyParts := b } =
      onMesgComplete P keepAlive { req with bodyParts := b' } := by
  obtain ⟨headers, name, value, _⟩ := req
  cases name <;> cases value <;> cases keepAlive
  all_goals
    show (b.concat >>= _) = (b'.concat >>= _)
    rw [h]
    rfl

theorem foldl_hearField_bodyParts (fields : List (Bytes × Bytes)) (req : Request) (b : Buffer) :
    fields.foldl Request.hearField { req with bodyParts := b } =
      { fields.foldl Request.hearField req with bodyParts := b } := by
  induction fields generalizing req with
  | nil => rfl
  | cons field fields ih =>
    have hstep : Request.hearField { req with bodyParts := b } field =
        { req.hearField field with bodyParts := b } := by
      obtain ⟨headers, name, value, _⟩ := req
      cases name <;> cases value <;> rfl
    rw [List.foldl_cons, hstep, ih, List.foldl_cons]

theorem callbacks_bodies (chunks : List Bytes) {strs : List Bytes} {req : Request}
    (h : req.bodyParts.Holds strs) :
    ∃ b, callbacks P (chunks.map .body) req = .ok { req with bodyParts := b } ∧
      b.Holds (strs ++ chunks) := by
  induction chunks generalizing strs req with
  | nil => exact ⟨req.bodyParts, rfl, by simpa using h⟩
  | cons chunk chunks ih =>
    obtain ⟨b, hrun, hholds⟩ := @ih (strs ++ [chunk])
      { req with bodyParts := req.bodyParts.append (.str chunk) } (h.append chunk)
    refine ⟨b, ?_, by simpa using hholds⟩
    rw [List.map_cons, callbacks, callback, Except.bind, hrun]

/-- The request that a message leads to, if the callbacks do not raise. -/
def Content.request (c : Content) : Except LuaError Request :=
  (callback P c.headersComplete c.headRequest).bind fun req =>
    onMesgComplete P c.keepAliveEnd
      { c.trailers.foldl Request.hearField req with bodyParts := ⟨[.str c.body], c.body.length⟩ }

theorem foldl_hearField_parts (fields : List (Bytes × Bytes)) (req : Request) :
    (fields.foldl Request.hearField req).bodyParts = req.bodyParts := by
  induction fields generalizing req with
  | nil => rfl
  | cons field fields ih =>
    rw [List.foldl_cons, ih]
    simp [Request.hearField]

/-- The object when everything up to the headers has been reported. -/
def WireMessage.head (m : WireMessage) (req : Request) : Request :=
  m.fields.foldl Request.hearField (m.start.heard req.reset)

theorem WireMessage.head_paired (m : WireMessage) (req : Request) : (m.head req).Paired := by
  refine foldl_hearField_paired m.fields ?_
  cases m.start <;> rfl

theorem WireMessage.head_parts (m : WireMessage) (req : Request) :
    (m.head req).bodyParts = newBuffer := by
  rw [head, foldl_hearField_parts]
  cases m.start <;> rfl

/-- The object that a message leads to, if the callbacks do not raise. -/
def WireMessage.object (m : WireMessage) (req : Request) : Except LuaError Request :=
  (callback P m.headersComplete (m.head req)).bind fun req =>
    onMesgComplete P m.keepAliveEnd
      { m.trailers.foldl Request.hearField req with bodyParts := ⟨[.str m.body], m.body.length⟩ }

/-- The headers with the given fields added in order. -/
def addFields (fields : List (Bytes × Bytes)) (headers : Headers) : Headers :=
  fields.foldl (fun headers field => headers.add field.1 field.2) headers

theorem foldl_hearField_headers (fields : List (Bytes × Bytes)) (req : Request) :
    (fields.foldl Request.hearField req).handleAccHttpHeader.headers =
      addFields fields req.handleAccHttpHeader.headers := by
  induction fields generalizing req with
  | nil => rfl
  | cons field fields ih =>
    rw [List.foldl_cons, ih]
    rfl

/-- The fields that header fields leave alone. -/
theorem foldl_hearField_same (fields : List (Bytes × Bytes)) (req : Request) :
    (fields.foldl Request.hearField req).url = req.url ∧
      (fields.foldl Request.hearField req).method = req.method ∧
      (fields.foldl Request.hearField req).EOF = req.EOF ∧
      (fields.foldl Request.hearField req).headersDone = req.headersDone ∧
      (fields.foldl Request.hearField req).mesgDone = req.mesgDone := by
  induction fields generalizing req with
  | nil => exact ⟨rfl, rfl, rfl, rfl, rfl⟩
  | cons field fields ih =>
    have h := ih (req.hearField field)
    simpa [Request.hearField] using h

theorem foldl_hearField_parsedURL (fields : List (Bytes × Bytes)) (req : Request) :
    (fields.foldl Request.hearField req).parsedURL = req.parsedURL := by
  induction fields generalizing req with
  | nil => rfl
  | cons field fields ih =>
    have h := ih (req.hearField field)
    simpa [Request.hearField] using h

theorem foldl_hearField_kept (fields : List (Bytes × Bytes)) (req : Request) :
    (fields.foldl Request.hearField req).body = req.body ∧
      (fields.foldl Request.hearField req).params = req.params ∧
      (fields.foldl Request.hearField req).statusMesg = req.statusMesg ∧
      (fields.foldl Request.hearField req).overwritten = req.overwritten := by
  induction fields generalizing req with
  | nil => exact ⟨rfl, rfl, rfl, rfl⟩
  | cons field fields ih =>
    have h := ih (req.hearField field)
    simpa [Request.hearField] using h

/-- The headers after `handleKeepAlive`. -/
def closing (keepAlive : Bool) (headers : Headers) : Headers :=
  if keepAlive then headers else headers.assign (text "Connection") (text "close")

theorem handleKeepAlive_headers (keepAlive : Bool) (req : Request) :
    (req.handleKeepAlive keepAlive).headers = closing keepAlive req.headers := by
  cases keepAlive <;> rfl

namespace WireMessage

variable (m : WireMessage)

def url : Option Bytes :=
  match m.start with
  | .url url => some url
  | _ => none

def statusMesg : Option Bytes :=
  match m.start with
  | .status mesg => some mesg
  | _ => none

/-- What the decoding of the query string overwrites. -/
def queryOverwriting : Option Overwriting :=
  match parseRequestURL P m.method m.url with
  | .error _ => none
  | .ok parsedURL =>
    match queryParams P parsedURL with
    | .error _ => none
    | .ok (_, left) => Luaw.Http.queryOverwriting P parsedURL left

/-- The headers when they are complete, and when the message is. -/
def headHeaders : Headers :=
  Headers.after (m.queryOverwriting P) (closing m.keepAlive (addFields m.fields []))

def lastHeaders : Headers := closing m.keepAliveEnd (addFields m.trailers (m.headHeaders P))

/-- What the decoding of a form in the body overwrites. -/
def formOverwriting : Option Overwriting :=
  match formParams P (m.lastHeaders P) m.body none with
  | .error _ => none
  | .ok (_, left) => P.overwriting m.body left

/-- What has become of a string at the end of the message. -/
def textEnd (s : Bytes) : Bytes :=
  textAfter (m.formOverwriting P) (textAfter (m.queryOverwriting P) s)

theorem map_textEnd (s : Option Bytes) : s.map (m.textEnd P) =
    (s.map (textAfter (m.queryOverwriting P))).map (textAfter (m.formOverwriting P)) := by
  cases s <;> rfl

theorem queryOverwriting_proper : ∀ x ∈ m.queryOverwriting P, x.Proper := by
  rw [queryOverwriting]
  split
  · exact nofun
  · split
    · exact nofun
    · next hquery => exact queryParams_proper P hquery

theorem formOverwriting_proper : ∀ x ∈ m.formOverwriting P, x.Proper := by
  rw [formOverwriting]
  split
  · exact nofun
  · next hform => exact formParams_proper P hform

theorem head_headers (req : Request) : (m.head req).handleAccHttpHeader.headers =
    addFields m.fields [] := by
  rw [head, foldl_hearField_headers]
  cases m.start <;> rfl

theorem head_url (req : Request) : (m.head req).url = m.url := by
  obtain ⟨hurl, -⟩ := foldl_hearField_same m.fields (m.start.heard req.reset)
  rw [head, hurl, url]
  cases m.start <;> rfl

/-- The object when the headers are complete, from an object `req` that was there before. -/
structure HeadOf (req req' : Request) : Prop where
  url : req'.url = m.url.map (textAfter (m.queryOverwriting P))
  method : req'.method = m.method.map (textAfter (m.queryOverwriting P))
  statusMesg : req'.statusMesg = m.statusMesg.map (textAfter (m.queryOverwriting P))
  headers : req'.headers = m.headHeaders P
  query : ∃ parsedURL params left, parseRequestURL P m.method m.url = .ok parsedURL ∧
    queryParams P parsedURL = .ok (params, left) ∧ req'.params = some params ∧
    req'.parsedURL = some ⟨parsedURL.path.map (textAfter (m.queryOverwriting P)), left⟩
  settled : req'.accHeaderName = none ∧ req'.accHeaderValue = none
  unread : req'.bodyParts = newBuffer ∧ req'.body = none
  headersDone : req'.headersDone = true
  mesgDone : req'.mesgDone = false
  EOF : req'.EOF = (req.EOF || !m.keepAlive)
  overwritten : req'.overwritten = req.overwritten ++ (m.queryOverwriting P).toList

variable {m} {req req' : Request}

theorem headersComplete_head (h : callback P m.headersComplete (m.head req) = .ok req') :
    m.HeadOf P req req' := by
  obtain ⟨parsedURL, params, left, hparse, hquery, rfl⟩ := onHeadersComplete_ok P h
  obtain ⟨-, -, hEOF, -, hdone⟩ := foldl_hearField_same m.fields (m.start.heard req.reset)
  obtain ⟨hbody, -, hmesg, hover⟩ := foldl_hearField_kept m.fields (m.start.heard req.reset)
  obtain ⟨hname, hvalue⟩ := (m.head_paired req).handled
  have hurl' := m.head_url req
  have hmesg' : (m.head req).statusMesg = m.statusMesg := by
    rw [head, hmesg, statusMesg]
    cases m.start <;> rfl
  have hx : m.queryOverwriting P = Luaw.Http.queryOverwriting P parsedURL left := by
    rw [hurl'] at hparse
    rw [queryOverwriting, hparse]
    dsimp only
    rw [hquery]
  refine ⟨?_, ?_, ?_, ?_, ⟨parsedURL, params, left, hurl' ▸ hparse, hquery, rfl, ?_⟩, ⟨?_, ?_⟩,
    ⟨?_, ?_⟩, rfl, ?_, ?_, ?_⟩
  · simp [Request.after, hurl', hx]
  · simp [Request.after, hx]
  · simp [Request.after, hmesg', hx]
  · rw [headHeaders, ← m.head_headers req, ← handleKeepAlive_headers, hx]
    rfl
  · rw [hx]
  · simp [Request.after, hname]
  · simp [Request.after, hvalue]
  · simp [m.head_parts req]
  · simp only [Request.after_body, Request.handleKeepAlive_body, Request.handleAcc_body]
    rw [head, hbody]
    cases m.start <;> rfl
  · simp only [Request.after_mesgDone, Request.handleKeepAlive_mesgDone, Request.handleAcc_mesgDone]
    rw [head, hdone]
    cases m.start <;> rfl
  · simp only [Request.after_EOF, Request.handleKeepAlive_EOF, Request.handleAcc_EOF]
    rw [head, hEOF]
    cases m.start <;> rfl
  · simp only [Request.after, Request.handleKeepAlive_overwritten, Request.handleAcc_overwritten]
    rw [head, hover, hx]
    cases m.start <;> rfl

end WireMessage

/-- No header is pending and no body has come when the headers are complete. -/
theorem WireMessage.headersComplete_settled {m : WireMessage} {req req' : Request}
    (h : callback P m.headersComplete (m.head req) = .ok req') :
    req'.accHeaderName = none ∧ req'.accHeaderValue = none ∧ req'.bodyParts = newBuffer := by
  have hhead := WireMessage.headersComplete_head P h
  exact ⟨hhead.settled.1, hhead.settled.2, hhead.unread.1⟩

theorem StartLine.Tells.plain {start : StartLine} {evs : List Event} (h : start.Tells evs) :
    ∀ e ∈ evs, e.isPlain := by
  cases start with
  | url url => exact Pieces.plain (fun _ => ⟨rfl, rfl⟩) h
  | status mesg => exact Pieces.plain (fun _ => ⟨rfl, rfl⟩) h
  | statusOnly =>
    obtain rfl : evs = [] := h
    exact nofun

/-- What the callbacks make of the events before the headers are complete, and after that. -/
theorem WireMessage.TellsOpen.split {m : WireMessage} {evs : List Event} (h : m.TellsOpen evs) :
    ∃ before after, evs = before ++ m.headersComplete :: after ∧
      (∀ e ∈ before, e.isPlain) ∧ (∀ e ∈ after, e.isPlain) ∧
      (∀ req, callbacks P before req = .ok (m.head req)) ∧
      ∀ {req req'}, callback P m.headersComplete (m.head req) = .ok req' →
        ∃ b strs, Buffer.Holds b strs ∧ strs.flatten = m.body ∧ callbacks P after req' =
          .ok { m.trailers.foldl Request.hearField req' with bodyParts := b } := by
  obtain ⟨starts, heads, chunks, tails, hstarts, hheads, hchunks, htails, rfl⟩ := h
  refine ⟨.messageBegin :: (starts ++ heads), chunks.map .body ++ tails, by simp, ?_, ?_,
    fun req => ?_, fun {req req'} hcall => ?_⟩
  · intro e he
    obtain rfl | he := List.mem_cons.mp he
    · exact ⟨rfl, rfl⟩
    · obtain he | he := List.mem_append.mp he
      · exact hstarts.plain e he
      · exact hheads.plain e he
  · intro e he
    obtain he | he := List.mem_append.mp he
    · obtain ⟨chunk, -, rfl⟩ := List.mem_map.mp he
      exact ⟨rfl, rfl⟩
    · exact htails.plain e he
  · have hstart := callbacks_start P hstarts (rfl : req.reset.url = none) rfl
    have hpaired : (m.start.heard req.reset).Paired := by cases m.start <;> rfl
    rw [callbacks, callback, Except.bind, callbacks_append, hstart, Except.bind,
      callbacks_fields P hheads hpaired]
    rfl
  · obtain ⟨hname, hvalue, hparts⟩ := m.headersComplete_settled P hcall
    obtain ⟨b, hbodies, hb⟩ := callbacks_bodies P chunks (hparts ▸ Buffer.holds_new)
    have hpaired : Request.Paired { req' with bodyParts := b } := by
      simp [Request.Paired, hname, hvalue]
    refine ⟨b, _, hb, by rw [List.nil_append, hchunks], ?_⟩
    rw [callbacks_append, hbodies, Except.bind, callbacks_fields P htails hpaired,
      foldl_hearField_bodyParts]

/-- The callbacks up to the end of the message raise when the one for the headers does, and
otherwise leave the whole body in the buffer. -/
theorem callbacks_tellsOpen {m : WireMessage} {evs : List Event} (h : m.TellsOpen evs)
    (req : Request) :
    (∃ e, callback P m.headersComplete (m.head req) = .error e ∧ callbacks P evs req = .error e) ∨
    ∃ req' b strs, callback P m.headersComplete (m.head req) = .ok req' ∧
      Buffer.Holds b strs ∧ strs.flatten = m.body ∧
      callbacks P evs req =
        .ok { m.trailers.foldl Request.hearField req' with bodyParts := b } := by
  obtain ⟨before, after, rfl, -, -, hbefore, hafter⟩ := h.split P
  rw [callbacks_append, hbefore, Except.bind, callbacks]
  cases hcall : callback P m.headersComplete (m.head req) with
  | error e => exact .inl ⟨e, rfl, rfl⟩
  | ok req' =>
    obtain ⟨b, strs, hb, hbody, hrun⟩ := hafter hcall
    exact .inr ⟨req', b, strs, rfl, hb, hbody, hrun⟩

/-- The callbacks make the same of a message, in whatever pieces it was told. -/
theorem callbacks_tells {m : WireMessage} {evs : List Event} (h : m.Tells evs) (req : Request) :
    callbacks P evs req = m.object P req := by
  obtain ⟨told, htold, rfl⟩ := h
  rw [callbacks_append, WireMessage.object]
  obtain ⟨e, hcall, hrun⟩ | ⟨req', b, strs, hcall, hb, hbody, hrun⟩ :=
    callbacks_tellsOpen P htold req
  · rw [hrun, hcall]
    rfl
  · have hconcat : b.concat = Buffer.concat ⟨[.str m.body], m.body.length⟩ := by
      have hone : Buffer.Holds ⟨[.str m.body], m.body.length⟩ [m.body] := ⟨rfl, by simp⟩
      rw [hb.concat, hone.concat, hbody, List.flatten_singleton]
    rw [hrun, hcall, Except.bind, Except.bind, callbacks, callback,
      onMesgComplete_bodyParts P m.keepAliveEnd _ hconcat]
    cases onMesgComplete P m.keepAliveEnd _ <;> rfl

/-- The callbacks make the same of a request, in whatever pieces it was reported. -/
theorem callbacks_reports {c : Content} {evs : List Event} (h : c.Reports evs) :
    callbacks P evs newServerHttpRequest = c.request P :=
  callbacks_tells P h.tells newServerHttpRequest

namespace WireMessage

variable (m : WireMessage)

/-- The headers at the end of the message. -/
def endHeaders : Headers := Headers.after (m.formOverwriting P) (m.lastHeaders P)

/-- The object of the message, from an object `req` that was there before. -/
structure ObjectOf (req req' : Request) : Prop where
  url : req'.url = m.url.map (m.textEnd P)
  method : req'.method = m.method.map (m.textEnd P)
  statusMesg : req'.statusMesg = m.statusMesg.map (m.textEnd P)
  headers : req'.headers = m.endHeaders P
  body : req'.HasBody P m.body
  path : ∃ parsedURL queryString, parseRequestURL P m.method m.url = .ok parsedURL ∧
    req'.parsedURL = some ⟨parsedURL.path.map (m.textEnd P), queryString⟩
  form : ∃ parsedURL params left params' left', parseRequestURL P m.method m.url = .ok parsedURL ∧
    queryParams P parsedURL = .ok (params, left) ∧
    formParams P (m.lastHeaders P) m.body (some params) = .ok (params', left') ∧
    req'.params = params'.map (Headers.after (m.formOverwriting P)) ∧ req'.body = some left'
  mesgDone : req'.mesgDone = true
  EOF : req'.EOF = (req.EOF || !(m.keepAlive && m.keepAliveEnd))
  overwritten : req'.overwritten =
    req.overwritten ++ ((m.queryOverwriting P).toList ++ (m.formOverwriting P).toList)

/-- What a form leaves of the body does not depend on the parameters that were there. -/
theorem formOverwriting_eq {params params' : Option Params} {left : Bytes}
    (h : formParams P (m.lastHeaders P) m.body params = .ok (params', left)) :
    m.formOverwriting P = P.overwriting m.body left := by
  obtain ⟨params₀, hform⟩ := formParams_left P h none
  rw [formOverwriting, hform]

variable {m} {req req' : Request}

/-- The object when the trailers have come. -/
theorem HeadOf.trailers (h : m.HeadOf P req req') (b : Buffer) :
    (({ m.trailers.foldl Request.hearField req' with bodyParts := b } :
      Request).handleAccHttpHeader.handleKeepAlive m.keepAliveEnd).headers = m.lastHeaders P := by
  have hsettled : req'.handleAccHttpHeader = req' := by
    rw [Request.handleAccHttpHeader, h.settled.1, h.settled.2]
  have htrailers := foldl_hearField_headers m.trailers req'
  rw [hsettled, h.headers] at htrailers
  rw [handleKeepAlive_headers, lastHeaders, ← htrailers]
  obtain ⟨_, _ | _, _ | _, _⟩ := m.trailers.foldl Request.hearField req' <;> rfl

theorem object_ok (h : m.object P req = .ok req') : m.ObjectOf P req req' := by
  obtain ⟨req₁, hcall, h⟩ := Program.except_bind_ok h
  have hhead := headersComplete_head P hcall
  obtain ⟨parsedURL, params, left, hparse, hquery, hparams, hpath⟩ := hhead.query
  obtain ⟨hurl', hmethod', hEOF', -, -⟩ := foldl_hearField_same m.trailers req₁
  obtain ⟨-, hparams', hmesg', hover'⟩ := foldl_hearField_kept m.trailers req₁
  have hpath' := foldl_hearField_parsedURL m.trailers req₁
  have hone : Buffer.Holds ⟨[.str m.body], m.body.length⟩ [m.body] := ⟨rfl, by simp⟩
  have hconcat : Buffer.concat ⟨[.str m.body], m.body.length⟩ = .ok m.body :=
    hone.concat.trans (congrArg Except.ok List.flatten_singleton)
  have hbody := onMesgComplete_hasBody P h hconcat
  obtain ⟨parts, formed, left', hparts, hform, rfl⟩ := onMesgComplete_ok P h
  obtain rfl : parts = m.body := Except.ok.inj (hparts.symm.trans hconcat)
  have hform' : formParams P (m.lastHeaders P) m.body (some params) = .ok (formed, left') := by
    rw [← hhead.trailers P ⟨[.str m.body], m.body.length⟩, ← hparams, ← hparams']
    exact hform
  have hy := m.formOverwriting_eq P hform'
  refine ⟨?_, ?_, ?_, ?_, hbody, ⟨parsedURL, left.map (textAfter (m.formOverwriting P)), hparse, ?_⟩,
    ⟨parsedURL, params, left, formed, left', hparse, hquery, hform', ?_, rfl⟩, rfl, ?_, ?_⟩
  · simp [Request.after, hurl', hhead.url, hy, map_textEnd]
  · simp [Request.after, hmethod', hhead.method, hy, map_textEnd]
  · simp [Request.after, hmesg', hhead.statusMesg, hy, map_textEnd]
  · rw [endHeaders, ← hhead.trailers P ⟨[.str m.body], m.body.length⟩, hy]
    rfl
  · simp [Request.after, hpath', hpath, hy, map_textEnd, ParsedURL.after]
  · rw [hy]
    rfl
  · simp [Request.after, hEOF', hhead.EOF, Bool.or_assoc]
  · simp [Request.after, hover', hhead.overwritten, hy]

theorem headersComplete_of {parsedURL : ParsedURL} {params : Params} {left : Option Bytes}
    (hparse : parseRequestURL P m.method m.url = .ok parsedURL)
    (hquery : queryParams P parsedURL = .ok (params, left)) (req : Request) :
    ∃ req', callback P m.headersComplete (m.head req) = .ok req' ∧ req'.params = some params := by
  have hurl : ((m.head req).handleAccHttpHeader.handleKeepAlive m.keepAlive).url = m.url := by
    simp [m.head_url req]
  cases hcall : callback P m.headersComplete (m.head req) with
  | ok req' =>
    obtain ⟨parsedURL', params', left', hparse', hquery', hparams, -⟩ :=
      (headersComplete_head P hcall).query
    cases hparse.symm.trans hparse'
    cases hquery.symm.trans hquery'
    exact ⟨req', rfl, hparams⟩
  | error e =>
    change (parseRequestURL P m.method
      ((m.head req).handleAccHttpHeader.handleKeepAlive m.keepAlive).url >>= _) = _ at hcall
    rw [hurl, hparse] at hcall
    change (queryParams P parsedURL >>= _) = _ at hcall
    rw [hquery] at hcall
    cases hcall

/-- A message whose URL, query string and form are not refused makes an object. -/
theorem object_of {parsedURL : ParsedURL} {params : Params} {left : Option Bytes}
    {formed : Option Params × Bytes} (hparse : parseRequestURL P m.method m.url = .ok parsedURL)
    (hquery : queryParams P parsedURL = .ok (params, left))
    (hform : formParams P (m.lastHeaders P) m.body (some params) = .ok formed) (req : Request) :
    ∃ last, m.object P req = .ok last := by
  obtain ⟨req', hcall, hparams⟩ := headersComplete_of P hparse hquery req
  obtain ⟨-, hparams', -⟩ := foldl_hearField_kept m.trailers req'
  have hone : Buffer.Holds ⟨[.str m.body], m.body.length⟩ [m.body] := ⟨rfl, by simp⟩
  have hend := @onMesgComplete_body σ P m.keepAliveEnd
    { m.trailers.foldl Request.hearField req' with bodyParts := ⟨[.str m.body], m.body.length⟩ }
    m.body (some params) (hone.concat.trans (congrArg Except.ok List.flatten_singleton))
    (hparams'.trans hparams)
  rw [(headersComplete_head P hcall).trailers, hform] at hend
  have hobject : m.object P req = onMesgComplete P m.keepAliveEnd
      { m.trailers.foldl Request.hearField req' with
        bodyParts := ⟨[.str m.body], m.body.length⟩ } := by
    rw [object, hcall]
    rfl
  exact ⟨_, hobject.trans hend⟩

end WireMessage

namespace Content

variable {c : Content} {req : Request}

theorem head_of_call (h : callback P c.headersComplete c.headRequest = .ok req) :
    c.message.HeadOf P newServerHttpRequest req :=
  @WireMessage.headersComplete_head σ P c.message newServerHttpRequest req h

theorem object_of_request (h : c.request P = .ok req) :
    c.message.ObjectOf P newServerHttpRequest req :=
  @WireMessage.object_ok σ P c.message newServerHttpRequest req h

end Content

end Callbacks

end Luaw.Http
