import Luaw.Http.Fragments
import Luaw.Http.FullBody
import Luaw.Http.Hearing
import Luaw.Http.ScriptParser

/-!
# The response that a client gets

`execute` sends a request and reads the response to it in full. Where the body ends with the
connection, its end is not reported, and what has been put together of it stays where it is.
-/

namespace Luaw.Http

open Lua Program

def newClientHttpResponse : Request where
  headers := []
  accHeaderName := none
  accHeaderValue := none
  bodyParts := newBuffer
  body := none
  url := none
  method := none
  status := none
  statusMesg := none
  majorVersion := none
  minorVersion := none
  parsedURL := none
  params := none
  headersDone := false
  mesgDone := false
  EOF := false
  overwritten := []

def getBody (resp : Request) : Option Bytes := resp.body

def shouldCloseConnection (req : Request) : Bool := req.EOF

/-- `close`, for the connection of a message. -/
def closeMessage : MessageM Unit := modify fun m => m.withConn m.conn.close

/-- `connected` is what `luaw_tcp_lib.connect` returns. -/
def connectReq (connected : Except LuaError Conn) : MessageM Request := do
  let conn ← ofExcept connected
  modify fun req => req.withConn conn
  pure newClientHttpResponse

section Execute

variable {σ : Type} (P : HttpParser σ)

/-- The response object, with the parser that it is made with. -/
def clientSession (resp : Request) (conn : Conn) : Session σ := ⟨conn, resp, P.init, none, []⟩

/-- `resp:readFull()`, on the connection that the request was sent on. -/
def readResponse (fuel : Nat) (resp : Request) : MessageM Request := do
  let req ← get
  let (result, s) := exec (readFull P fuel) (clientSession P resp req.conn)
  set (req.withConn s.conn)
  match result with
  | .ok _ => pure s.req
  | .error stop => throw stop

def execute (rt : Runtime) (fuel : Nat) (connected : Except LuaError Conn) : MessageM Request := do
  let resp ← connectReq connected
  flush rt
  let resp ← readResponse P fuel resp
  if shouldCloseConnection resp then closeMessage else pure ()
  pure resp

end Execute

/-- What tells where the body of a response ends. -/
inductive Framing where
  | contentLength
  | chunked
  | untilClose

section Delivery

variable {σ : Type} (P : HttpParser σ)

namespace Session

/-- Nothing is left to parse, and the peer has closed the connection. -/
structure AtEnd (s : Session σ) : Prop where
  pending : s.pending = []
  incoming : s.conn.incoming = []
  opened : s.conn.closed = false

end Session

/-- The connection brings the response `m`: the parser tells it in full, or up to the end of the
connection. -/
def Delivered (conn : Conn) (m : WireMessage) : Framing → Prop
  | .contentLength | .chunked =>
    ∃ events s, Hears P (clientSession P newClientHttpResponse conn) events s ∧ m.Tells (told events)
  | .untilClose =>
    ∃ events s, Hears P (clientSession P newClientHttpResponse conn) events s ∧
      m.TellsOpen (told events) ∧ s.AtEnd

/-- Reading the response in full returns, and then the body is there. -/
def ReadsBody (conn : Conn) (body : Bytes) : Prop :=
  ∃ N, ∀ fuel, ∃ s, exec (readFull P (fuel + N)) (clientSession P newClientHttpResponse conn) =
    (.ok (), s) ∧ getBody s.req = some body

/-- So does executing the request. -/
def ExecutesBody (rt : Runtime) (conn : Conn) (req : Message) (body : Bytes) : Prop :=
  ∃ N, ∀ fuel, ∃ resp req', exec (execute P rt (fuel + N) (.ok conn)) req = (.ok resp, req') ∧
    getBody resp = some body

end Delivery

namespace WireMessage

/-- The response is neither a multipart nor a LuaPack message, whose body is left to be read
piece by piece. -/
structure ReadWhole (m : WireMessage) : Prop where
  boundary : getMultipartBoundary (addFields m.fields []) = .ok none
  luaPack : isLuaPackMesg (addFields m.fields []) = false

/-- The body is not taken for a form, or it is one that decoding in place leaves as it is. -/
def Decodes {σ : Type} (P : HttpParser σ) (m : WireMessage) : Prop :=
  ∃ params, formParams P (addFields (m.fields ++ m.trailers) []) m.body (some []) =
    .ok (params, m.body)

end WireMessage

section Headers

variable {headers headers' : Headers} (h : headers.get? (text "Content-Type") =
  headers'.get? (text "Content-Type"))

include h

theorem getMultipartBoundary_congr : getMultipartBoundary headers = getMultipartBoundary headers' := by
  rw [getMultipartBoundary, getMultipartBoundary, h]

theorem isLuaPackMesg_congr : isLuaPackMesg headers = isLuaPackMesg headers' := by
  rw [isLuaPackMesg, isLuaPackMesg, h]

theorem formParams_congr {σ : Type} (P : HttpParser σ) (body : Bytes) (params : Option Params) :
    formParams P headers body params = formParams P headers' body params := by
  rw [formParams, formParams, h]

end Headers

namespace WireMessage

variable {σ : Type} (P : HttpParser σ)

/-- A response has no query string. -/
theorem response_queryOverwriting {m : WireMessage} (hresponse : m.url = none) :
    m.queryOverwriting P = none := by
  rw [queryOverwriting, hresponse]
  rfl

/-- The headers of a response are complete without an error, and nothing of its body is there. -/
theorem headersComplete_response {m : WireMessage} (hresponse : m.url = none) (req : Request) :
    ∃ req', callback P m.headersComplete (m.head req) = .ok req' ∧ req'.params = some [] ∧
      m.HeadOf P req req' := by
  have hparse : parseRequestURL P m.method m.url = .ok ⟨none, none⟩ := by
    rw [hresponse]
    rfl
  obtain ⟨req', hcall, hparams⟩ :=
    headersComplete_of P hparse (rfl : queryParams P ⟨none, none⟩ = .ok ([], none)) req
  exact ⟨req', hcall, hparams, headersComplete_head P hcall⟩

theorem response_contentType {m : WireMessage} (hresponse : m.url = none) :
    (m.headHeaders P).get? (text "Content-Type") =
      (addFields m.fields []).get? (text "Content-Type") := by
  rw [headHeaders, m.response_queryOverwriting P hresponse, Headers.after_none,
    get?_closing (.inr (by decide))]

/-- The Content-Type of the message, when its trailers have been added to its headers. -/
theorem response_lastContentType {m : WireMessage} (hresponse : m.url = none) :
    (m.lastHeaders P).get? (text "Content-Type") =
      (addFields (m.fields ++ m.trailers) []).get? (text "Content-Type") := by
  have hfirst := m.response_contentType P hresponse
  rw [get?_fields] at hfirst
  rw [lastHeaders, get?_closing (.inr (by decide)), get?_addFields _ m.trailers hfirst, get?_fields,
    valuesUnder_append]

end WireMessage

section Reading

variable {σ : Type} {P : HttpParser σ} {conn : Conn} {m : WireMessage}

theorem readsBody_of {N : Nat} {body : Bytes} {s : Session σ}
    (hrun : ∀ fuel, exec (readFull P (fuel + N)) (clientSession P newClientHttpResponse conn) =
      (.ok (), s)) :
    ReadsBody P conn body ↔ s.req.body = some body := by
  refine ⟨fun ⟨N', hread⟩ => ?_, fun h => ⟨N, fun fuel => ⟨s, hrun fuel, h⟩⟩⟩
  obtain ⟨s', hrun', hbody⟩ := hread N
  cases (hrun N').symm.trans ((Nat.add_comm N' N) ▸ hrun')
  exact hbody

theorem not_readsBody_of {N : Nat} {body : Bytes} {stop : Stop LuaError} {s : Session σ}
    (hrun : ∀ fuel, exec (readFull P (fuel + N)) (clientSession P newClientHttpResponse conn) =
      (.error stop, s)) :
    ¬ReadsBody P conn body := by
  rintro ⟨N', hread⟩
  obtain ⟨s', hrun', -⟩ := hread N
  cases (hrun N').symm.trans ((Nat.add_comm N' N) ▸ hrun')

/-- The response when its headers are complete: `tail` is told of it up to its end, and makes
`last` of it. -/
structure AtBody (P : HttpParser σ) (m : WireMessage) (req : Request) (tail : List Event)
    (last : Request) : Prop where
  body : req.body = none
  mesgDone : req.mesgDone = false
  plain : ∀ e ∈ tail, e.isPlain
  hear : callbacks P tail req = .ok last
  lastBody : last.body = none
  decoded : ∀ {params left}, formParams P (addFields (m.fields ++ m.trailers) []) m.body (some []) =
    .ok (params, left) → ∃ resp, callback P (.messageComplete m.keepAliveEnd) last = .ok resp ∧
      resp.body = some left
  undecoded : ∀ {e}, formParams P (addFields (m.fields ++ m.trailers) []) m.body (some []) =
    .error e → callback P (.messageComplete m.keepAliveEnd) last = .error e

theorem atBody (hresponse : m.url = none) {req : Request} {after : List Event} {b : Buffer}
    (hhead : m.HeadOf P newClientHttpResponse req) (hparams : req.params = some [])
    (hplain : ∀ e ∈ after, e.isPlain) (hb : b.concat = .ok m.body)
    (hafter : callbacks P after req =
      .ok { m.trailers.foldl Request.hearField req with bodyParts := b }) :
    AtBody P m req after { m.trailers.foldl Request.hearField req with bodyParts := b } := by
  obtain ⟨hbody', hparams', -⟩ := foldl_hearField_kept m.trailers req
  have hend := @onMesgComplete_body σ P m.keepAliveEnd
    { m.trailers.foldl Request.hearField req with bodyParts := b } m.body _ hb
    (hparams'.trans hparams)
  rw [hhead.trailers, formParams_congr (m.response_lastContentType P hresponse) P m.body] at hend
  refine ⟨hhead.unread.2, hhead.mesgDone, hplain, hafter, hbody'.trans hhead.unread.2,
    fun {params left} hform => ?_, fun {e} hform => ?_⟩
  · rw [hform] at hend
    exact ⟨_, hend, rfl⟩
  · rw [hform] at hend
    exact hend

/-- Reading goes on behind the headers. -/
theorem readFull_headers (hresponse : m.url = none) {events : List (Option Event)}
    {evs more : List Event} {s : Session σ} (hopen : m.TellsOpen evs)
    (hears : Hears P (clientSession P newClientHttpResponse conn) events s)
    (htold : told events = evs ++ more) :
    ∃ (N : Nat) (mid : Session σ) (req : Request) (after : List (Option Event))
      (tail : List Event) (last : Request), Hears P mid after s ∧ told after = tail ++ more ∧
      AtBody P m req tail last ∧ ∀ fuel,
        exec (readFull P (fuel + N)) (clientSession P newClientHttpResponse conn) =
          exec (ofExcept (getMultipartBoundary (addFields m.fields [])) >>= fun boundary =>
            if boundary.isSome || isLuaPackMesg (addFields m.fields []) then pure ()
            else readUntil P Request.mesgDone (fuel + N)) (mid.withReq req) := by
  obtain ⟨before, tail, rfl, hbefore, htail, hhead, hafter⟩ := hopen.split P
  obtain ⟨req, hcall, hparams, hheadOf⟩ :=
    WireMessage.headersComplete_response P hresponse newClientHttpResponse
  obtain ⟨b, strs, hb, hflat, hrun⟩ := hafter hcall
  have hconcat : b.concat = .ok m.body := by rw [hb.concat, hflat]
  rw [List.append_assoc, List.cons_append] at htold
  obtain ⟨first, after, rfl, hfirst, hafter⟩ := told_append htold
  rw [List.append_cons] at hears
  obtain ⟨mid, hears₁, hears₂⟩ := hears.append_inv
  have hplain : ∀ e ∈ told first, e.isHeadersComplete = false := by
    rw [hfirst]
    exact fun e he => (hbefore e he).1
  have hloop : ∀ fuel, exec (readUntil P Request.headersDone (fuel + (first.length + 2)))
      (clientSession P newClientHttpResponse conn) = (.ok (), mid.withReq req) :=
    hears₁.readUntil_stop (headersDone_tells P) hplain rfl
      (rfl : newClientHttpResponse.headersDone = false) (hfirst ▸ hhead newClientHttpResponse) hcall
  refine ⟨first.length + 2, mid, req, after, tail, _, hears₂, hafter,
    atBody hresponse hheadOf hparams htail hconcat hrun, fun fuel => ?_⟩
  have hheaders : req.headers.get? (text "Content-Type") =
      (addFields m.fields []).get? (text "Content-Type") := by
    rw [hheadOf.headers, m.response_contentType P hresponse]
  have hboundary := getMultipartBoundary_congr hheaders
  have hluaPack := isLuaPackMesg_congr hheaders
  rw [readFull, exec_bind_ok (hloop fuel), exec_bind_ok (exec_get _), Session.withReq_req, hboundary,
    hluaPack]

/-- The body is read as far as the end of the response is told. -/
theorem AtBody.complete {req last : Request} {tail : List Event} (h : AtBody P m req tail last)
    {mid s : Session σ} {after : List (Option Event)} (hears : Hears P mid after s)
    (htold : told after = tail ++ [.messageComplete m.keepAliveEnd]) :
    ∃ N, (∃ s', (∀ fuel, exec (readUntil P Request.mesgDone (fuel + N))
        (mid.withReq req) = (.ok (), s')) ∧ (s'.req.body = some m.body ↔ m.Decodes P)) ∨
      (¬m.Decodes P ∧ ∃ e s', ∀ fuel, exec (readUntil P Request.mesgDone (fuel + N))
        (mid.withReq req) = (.error (.raised e), s')) := by
  obtain ⟨first, silent, rfl, hfirst, -⟩ := told_append htold
  rw [List.append_cons] at hears
  obtain ⟨mid', hears', -⟩ := hears.append_inv
  have hplain : ∀ e ∈ told first, e.isMessageComplete = false := by
    rw [hfirst]
    exact fun e he => (h.plain e he).2
  cases hform : formParams P (addFields (m.fields ++ m.trailers) []) m.body (some []) with
  | ok decoded =>
    obtain ⟨params, left⟩ := decoded
    obtain ⟨resp, hcall, hbody⟩ := h.decoded hform
    refine ⟨first.length + 2, .inl ⟨mid'.withReq resp, ?_, ?_⟩⟩
    · exact hears'.readUntil_stop (mesgDone_tells P) hplain rfl h.mesgDone (hfirst ▸ h.hear) hcall
    · rw [Session.withReq_req, hbody, WireMessage.Decodes, hform]
      simp
  | error e =>
    obtain ⟨failed, hrun⟩ := hears'.readUntil_raised (mesgDone_tells P) hplain h.mesgDone
      (hfirst ▸ h.hear) (h.undecoded hform)
    refine ⟨first.length + 1, .inr ⟨?_, e, failed, hrun⟩⟩
    rintro ⟨params, hok⟩
    cases hok.symm.trans hform

theorem readAndParse_atEnd {s : Session σ} (h : s.AtEnd) (req : Request) :
    ∃ s', exec (readAndParse P) (s.withReq req) = (.ok (), s') ∧ s'.req.mesgDone = true ∧
      s'.req.body = req.body := by
  have hread : s.conn.read = (.error (text "EOF"), s.conn.close) := by
    rw [Conn.read, if_neg (by rw [h.opened]; exact Bool.false_ne_true), h.incoming]
  have hspent : (s.withReq req).Spent := Session.spent_iff.mpr h.pending
  refine ⟨{ s.withReq req with conn := s.conn.close }.atEOF, ?_, rfl, rfl⟩
  rw [readAndParse, exec_bind_ok (hspent.readContent_EOF hread)]
  rfl

/-- At the end of the connection nothing has been stored. -/
theorem AtBody.atEnd {req last : Request} {tail : List Event} (h : AtBody P m req tail last)
    {mid s : Session σ} {after : List (Option Event)} (hears : Hears P mid after s)
    (htold : told after = tail) (hend : s.AtEnd) :
    ∃ N s', (∀ fuel, exec (readUntil P Request.mesgDone (fuel + N)) (mid.withReq req) =
      (.ok (), s')) ∧ s'.req.body = none := by
  have hplain : ∀ e ∈ told after, e.isMessageComplete = false := by
    rw [htold]
    exact fun e he => (h.plain e he).2
  obtain ⟨hdone, hrun⟩ := hears.readUntil (mesgDone_tells P) hplain h.mesgDone (htold ▸ h.hear)
  obtain ⟨s', hround, hdone', hbody⟩ := readAndParse_atEnd (P := P) hend last
  refine ⟨2 + after.length, s', fun fuel => ?_, hbody.trans h.lastBody⟩
  rw [← Nat.add_assoc, hrun, exec_readUntil_step hdone, exec_bind_ok hround]
  exact exec_readUntil_done hdone' fuel

/-- What the body loop makes of the response is what reading it in full makes of it, unless its
body is left to be read piece by piece. -/
theorem readsBody_iff_loop {N : Nat} {mid : Session σ} {req : Request} {body : Bytes}
    (hbody : req.body = none)
    (hrun : ∀ fuel, exec (readFull P (fuel + N)) (clientSession P newClientHttpResponse conn) =
      exec (ofExcept (getMultipartBoundary (addFields m.fields [])) >>= fun boundary =>
        if boundary.isSome || isLuaPackMesg (addFields m.fields []) then pure ()
        else readUntil P Request.mesgDone (fuel + N)) (mid.withReq req)) :
    ReadsBody P conn body ↔ m.ReadWhole ∧ ∃ N, ∀ fuel, ∃ s,
      exec (readUntil P Request.mesgDone (fuel + N)) (mid.withReq req) = (.ok (), s) ∧
      s.req.body = some body := by
  cases hboundary : getMultipartBoundary (addFields m.fields []) with
  | error e =>
    have hraised : ∀ fuel, exec (readFull P (fuel + N))
        (clientSession P newClientHttpResponse conn) =
          (.error (.raised e), mid.withReq req) := fun fuel => by
      rw [hrun, hboundary]
      rfl
    refine ⟨fun h => absurd h (not_readsBody_of hraised), fun ⟨⟨hnone, _⟩, _⟩ => ?_⟩
    cases hboundary.symm.trans hnone
  | ok boundary =>
    simp only [hboundary, exec_bind_ok (exec_ofExcept_ok _ _), exec_ite] at hrun
    by_cases hstreamed : (boundary.isSome || isLuaPackMesg (addFields m.fields [])) = true
    -- a multipart or LuaPack response is left as it is when its headers are complete
    · have hstops : ∀ fuel, exec (readFull P (fuel + N))
          (clientSession P newClientHttpResponse conn) = (.ok (), mid.withReq req) := fun fuel => by
        rw [hrun, if_pos hstreamed]
        rfl
      rw [readsBody_of hstops, Session.withReq_req, hbody]
      refine ⟨nofun, fun ⟨⟨hnone, hluaPack⟩, _⟩ => ?_⟩
      cases hboundary.symm.trans hnone
      rw [hluaPack] at hstreamed
      cases hstreamed
    · simp only [if_neg hstreamed] at hrun
      rw [Bool.or_eq_true, not_or, Bool.not_eq_true, Bool.not_eq_true,
        Option.isSome_eq_false_iff, Option.isNone_iff_eq_none] at hstreamed
      obtain ⟨rfl, hluaPack⟩ := hstreamed
      have hsplit : ∀ fuel N', fuel + (N + N') = (fuel + N') + N := by omega
      refine ⟨fun ⟨N', hread⟩ => ⟨⟨hboundary, hluaPack⟩, N' + N, fun fuel => ?_⟩,
        fun ⟨_, N', hloop⟩ => ⟨N + N', fun fuel => ?_⟩⟩
      · have hread' := hread (fuel + N)
        rwa [Nat.add_right_comm, hrun, Nat.add_assoc] at hread'
      · rw [hsplit, hrun, Nat.add_right_comm]
        exact hloop (fuel + N)

/-- A response that is told in full is read in full, unless its body is left to be read piece by
piece, or is not the form that it is said to be, or is changed by decoding the form. -/
theorem readsBody_complete_iff (hresponse : m.url = none) {events : List (Option Event)}
    {s : Session σ} (hears : Hears P (clientSession P newClientHttpResponse conn) events s)
    (htells : m.Tells (told events)) :
    ReadsBody P conn m.body ↔ m.ReadWhole ∧ m.Decodes P := by
  obtain ⟨evs, hopen, htold⟩ := htells
  obtain ⟨N, mid, req, after, tail, last, hears', htold', hbody, hrun⟩ :=
    readFull_headers hresponse hopen hears htold
  rw [readsBody_iff_loop hbody.body hrun]
  refine and_congr_right fun _ => ?_
  obtain ⟨N', ⟨s', hloop, hs'⟩ | ⟨hundecoded, e, s', hloop⟩⟩ := hbody.complete hears' htold'
  · refine ⟨fun ⟨N'', hread⟩ => ?_, fun h => ⟨N', fun fuel => ⟨s', hloop fuel, hs'.mpr h⟩⟩⟩
    obtain ⟨s'', hloop', hbody'⟩ := hread N'
    cases hloop'.symm.trans ((Nat.add_comm N'' N') ▸ hloop N'')
    exact hs'.mp hbody'
  · refine ⟨fun ⟨N'', hread⟩ => ?_, fun h => absurd h hundecoded⟩
    obtain ⟨s'', hloop', -⟩ := hread N'
    cases hloop'.symm.trans ((Nat.add_comm N'' N') ▸ hloop N'')

/-- A response that ends with the connection is never read in full. -/
theorem not_readsBody_atEnd (hresponse : m.url = none) {events : List (Option Event)}
    {s : Session σ} (hears : Hears P (clientSession P newClientHttpResponse conn) events s)
    (htells : m.TellsOpen (told events)) (hend : s.AtEnd) (body : Bytes) :
    ¬ReadsBody P conn body := by
  obtain ⟨N, mid, req, after, tail, last, hears', htold', hbody, hrun⟩ :=
    readFull_headers hresponse htells hears (List.append_nil _).symm
  rw [List.append_nil] at htold'
  rw [readsBody_iff_loop hbody.body hrun]
  rintro ⟨-, N', hread⟩
  obtain ⟨N'', s'', hloop', hs''⟩ := hbody.atEnd hears' htold' hend
  obtain ⟨s', hloop, hs'⟩ := hread N''
  cases hloop.symm.trans ((Nat.add_comm N' N'') ▸ hloop' N')
  rw [hs''] at hs'
  cases hs'

theorem readsBody_iff (hresponse : m.url = none) {framing : Framing}
    (h : Delivered P conn m framing) :
    ReadsBody P conn m.body ↔ framing ≠ .untilClose ∧ m.ReadWhole ∧ m.Decodes P := by
  cases framing with
  | contentLength | chunked =>
    obtain ⟨events, s, hears, htells⟩ := h
    rw [readsBody_complete_iff hresponse hears htells]
    exact ⟨fun hread => ⟨nofun, hread⟩, fun hread => hread.2⟩
  | untilClose =>
    obtain ⟨events, s, hears, htells, hend⟩ := h
    exact ⟨fun hread => absurd hread (not_readsBody_atEnd hresponse hears htells hend _),
      fun hread => absurd rfl hread.1⟩

end Reading

section Executing

variable {σ : Type} {P : HttpParser σ} {rt : Runtime} {conn : Conn} {req req' : Message}

theorem exec_readResponse (fuel : Nat) (resp : Request) (req : Message) :
    exec (readResponse P fuel resp) req =
      match exec (readFull P fuel) (clientSession P resp req.conn) with
      | (.ok _, s) => (.ok s.req, req.withConn s.conn)
      | (.error stop, s) => (.error stop, req.withConn s.conn) := by
  rw [readResponse, exec_bind_ok (exec_get _)]
  obtain ⟨result, s⟩ := exec (readFull P fuel) (clientSession P resp req.conn)
  cases result <;> rfl

/-- Once the request has been sent, the response is what reading it in full makes of it. -/
theorem exec_execute (hflush : exec (flush rt) (req.withConn conn) = (.ok (), req')) (fuel : Nat) :
    exec (execute P rt fuel (.ok conn)) req =
      match exec (readFull P fuel) (clientSession P newClientHttpResponse req'.conn) with
      | (.ok _, s) => (.ok s.req, req'.withConn
          (if shouldCloseConnection s.req then s.conn.close else s.conn))
      | (.error stop, s) => (.error stop, req'.withConn s.conn) := by
  have hconnect : exec (connectReq (.ok conn)) req =
      (.ok newClientHttpResponse, req.withConn conn) := rfl
  rw [execute, exec_bind_ok hconnect, exec_bind_ok hflush, exec_bind, exec_readResponse]
  obtain ⟨result, s⟩ := exec (readFull P fuel) (clientSession P newClientHttpResponse req'.conn)
  cases result with
  | error stop => rfl
  | ok _ => cases hclose : shouldCloseConnection s.req <;> simp only [hclose] <;> rfl

theorem executesBody_iff (hflush : exec (flush rt) (req.withConn conn) = (.ok (), req'))
    (body : Bytes) : ExecutesBody P rt conn req body ↔ ReadsBody P req'.conn body := by
  refine ⟨fun ⟨N, hrun⟩ => ⟨N, fun fuel => ?_⟩, fun ⟨N, hrun⟩ => ⟨N, fun fuel => ?_⟩⟩
  · obtain ⟨resp, msg, hexec, hbody⟩ := hrun fuel
    rw [exec_execute hflush] at hexec
    rcases hread : exec (readFull P (fuel + N)) (clientSession P newClientHttpResponse req'.conn) with
      ⟨result, s⟩
    rw [hread] at hexec
    cases result with
    | error stop => cases hexec
    | ok _ =>
      cases hexec
      exact ⟨s, rfl, hbody⟩
  · obtain ⟨s, hread, hbody⟩ := hrun fuel
    rw [exec_execute hflush, hread]
    exact ⟨s.req, _, rfl, hbody⟩

/-- However the response comes in, reading it in full and executing the request have its whole body
when its end is told, unless the body is left to be read piece by piece, or is not the form that it
is said to be, or is changed by decoding the form. -/
theorem body_complete_iff (hflush : exec (flush rt) (req.withConn conn) = (.ok (), req'))
    {m : WireMessage} (hresponse : m.url = none) {framing : Framing}
    (h : Delivered P req'.conn m framing) :
    (ReadsBody P req'.conn m.body ↔ framing ≠ .untilClose ∧ m.ReadWhole ∧ m.Decodes P) ∧
      (ExecutesBody P rt conn req m.body ↔ framing ≠ .untilClose ∧ m.ReadWhole ∧ m.Decodes P) :=
  ⟨readsBody_iff hresponse h, (executesBody_iff hflush m.body).trans (readsBody_iff hresponse h)⟩

end Executing

/-- A request for the root of a site. -/
def getRoot : Message := { newClientHttpRequest ⟨true, [], [], []⟩ with url := some (text "/") }

/-- The request after it has been sent on a connection. -/
def getRootSent (conn : Conn) : Message := (exec (flush Runtime.default) (getRoot.withConn conn)).2

/-- A response without a length, in two reads, and the script by which it is parsed. -/
def closingResponse : WireMessage where
  start := .status (text "OK")
  fields := []
  keepAlive := false
  httpMajor := 1
  httpMinor := 1
  method := none
  status := some 200
  body := text "ab"
  trailers := []
  keepAliveEnd := false

def closingConn : Conn := ⟨false, [.ok (text "HTTP/1.1 200 OK\r\n\r\na"), .ok (text "b")], [], []⟩

def closingScript : Script :=
  [(1, .messageBegin), (14, .status (text "OK")), (4, closingResponse.headersComplete),
    (1, .body (text "a")), (1, .body (text "b"))]

/-- What is heard of a connection up to the end of a script. -/
def heardOf (script : Script) (conn : Conn) : Option (List (Option Event) × Session Script) :=
  hear (script.parser fun _ _ => none) script.length
    (clientSession (script.parser fun _ _ => none) newClientHttpResponse conn)

theorem closing_delivered :
    Delivered (closingScript.parser fun _ _ => none) (getRootSent closingConn).conn closingResponse
      .untilClose := by
  have hhear : heardOf closingScript (getRootSent closingConn).conn = some
    (closingScript.events.map some, ((heardOf closingScript (getRootSent closingConn).conn).get
      (by rfl)).2) := by rfl
  refine ⟨_, _, hears_of_hear hhear, ?_, ⟨by rfl, by rfl, by rfl⟩⟩
  exact ⟨[.status (text "OK")], [], [text "a", text "b"], [], .last _, .nil, rfl, .nil, rfl⟩

theorem getRoot_sent (conn : Conn) (h : conn.Accepts) :
    exec (flush Runtime.default) (getRoot.withConn conn) = (.ok (), getRootSent conn) := by
  obtain ⟨closed, incoming, written, faults⟩ := conn
  obtain ⟨rfl, rfl⟩ := h
  rfl

/-- Both bytes of the body have come, and the response that is returned has no body. -/
theorem until_close_body_lost :
    Delivered (closingScript.parser fun _ _ => none) (getRootSent closingConn).conn closingResponse
        .untilClose ∧ closingResponse.url = none ∧
      (exec (execute (closingScript.parser fun _ _ => none) Runtime.default 9 (.ok closingConn))
        getRoot).1.toOption.map getBody = some none ∧
      ¬ReadsBody (closingScript.parser fun _ _ => none) (getRootSent closingConn).conn
        closingResponse.body ∧
      ¬ExecutesBody (closingScript.parser fun _ _ => none) Runtime.default closingConn getRoot
        closingResponse.body := by
  have hread : ¬ReadsBody (closingScript.parser fun _ _ => none) (getRootSent closingConn).conn
      closingResponse.body := fun h => ((readsBody_iff rfl closing_delivered).mp h).1 rfl
  refine ⟨closing_delivered, rfl, by decide +kernel, hread, fun h => ?_⟩
  exact hread ((executesBody_iff (getRoot_sent closingConn ⟨rfl, rfl⟩) _).mp h)

/-- The same response with a length. -/
def countedResponse : WireMessage :=
  { closingResponse with
    fields := [(text "Content-Length", text "2")], keepAlive := true, keepAliveEnd := true }

def countedConn : Conn :=
  ⟨false, [.ok (text "HTTP/1.1 200 OK\r\nContent-Length: 2\r\n\r\na"), .ok (text "b")], [], []⟩

def countedScript : Script :=
  [(1, .messageBegin), (14, .status (text "OK")), (16, .headerField (text "Content-Length")),
    (3, .headerValue (text "2")), (4, countedResponse.headersComplete), (1, .body (text "a")),
    (0, .body (text "b")), (1, .messageComplete true)]

theorem counted_delivered :
    Delivered (countedScript.parser fun _ _ => none) (getRootSent countedConn).conn countedResponse
      .contentLength := by
  have hhear : heardOf countedScript (getRootSent countedConn).conn = some
    (countedScript.events.map some, ((heardOf countedScript (getRootSent countedConn).conn).get
      (by rfl)).2) := by rfl
  refine ⟨_, _, hears_of_hear hhear, countedScript.events.dropLast, ?_, rfl⟩
  exact ⟨[.status (text "OK")], [.headerField (text "Content-Length"), .headerValue (text "2")],
    [text "a", text "b"], [], .last _, .cons (.last _) (.last _) .nil, rfl, .nil, rfl⟩

theorem body_complete_counted :
    (ReadsBody (countedScript.parser fun _ _ => none) (getRootSent countedConn).conn
        countedResponse.body ↔
      Framing.contentLength ≠ .untilClose ∧ countedResponse.ReadWhole ∧
        countedResponse.Decodes (countedScript.parser fun _ _ => none)) ∧
    (ExecutesBody (countedScript.parser fun _ _ => none) Runtime.default countedConn getRoot
        countedResponse.body ↔
      Framing.contentLength ≠ .untilClose ∧ countedResponse.ReadWhole ∧
        countedResponse.Decodes (countedScript.parser fun _ _ => none)) :=
  body_complete_iff (getRoot_sent countedConn ⟨rfl, rfl⟩) rfl counted_delivered

end Luaw.Http
