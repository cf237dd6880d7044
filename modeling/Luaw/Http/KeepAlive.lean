import Luaw.Http.ScriptParser
import Luaw.Http.Uniform

/-!
# Requests after which the connection is to be closed

The field `EOF` of a request says that the connection is to be closed, and `serviceHTTP` takes
it for the end of the stream: such a request is dropped, unless `readFull` returns before it has
heard of it.
-/

namespace Luaw.Http

open Lua Program

section Closing

variable {σ : Type} (env : Env σ)

/-- The body is left to the handler: the request is a multipart or a LuaPack message. -/
def Content.LeftToHandler (P : HttpParser σ) (c : Content) : Prop :=
  ∃ boundary, getMultipartBoundary (c.message.headHeaders P) = .ok boundary ∧
    (boundary.isSome || isLuaPackMesg (c.message.headHeaders P)) = true

/-- The request on the connection is dispatched to its handler before anything else, and its
response is written. -/
def Answered (conn : Conn) (c : Content) : Prop :=
  ∃ N, ∀ fuel, N ≤ fuel → ∃ req consumed rest, c.fullRequest env.parser = .ok req ∧
    (serviceHTTP env fuel conn).dispatched = ⟨req, consumed⟩ :: rest ∧ Sendable env req

/-- The connection is closed, no handler has been called and nothing has been written. -/
structure Dropped (conn : Conn) (served : Served) : Prop where
  dispatched : served.dispatched = []
  written : served.conn.written = conn.written
  closed : served.conn.closed = true
  returned : ∃ mesg, served.outcome = .ok mesg

variable {env} {r : Bytes} {c : Content} {req : Request}

theorem Content.LeftToHandler.full (h : c.LeftToHandler env.parser)
    (hcall : callback env.parser c.headersComplete c.headRequest = .ok req) :
    c.fullRequest env.parser = .ok req := by
  obtain ⟨boundary, hboundary, hstreamed⟩ := h
  rw [← (Content.head_of_call _ hcall).headers] at hboundary hstreamed
  rw [Content.fullRequest, hcall]
  show (getMultipartBoundary req.headers >>= _) = _
  rw [hboundary]
  exact if_pos hstreamed

/-- Whether `readFull` hears that the connection is to be closed. -/
theorem fullRequest_EOF (hclosing : (c.keepAlive && c.keepAliveEnd) = false)
    (h : c.fullRequest env.parser = .ok req) :
    req.EOF = false ↔ c.keepAlive = true ∧ c.LeftToHandler env.parser := by
  obtain ⟨head, hcall, hrest⟩ := Program.except_bind_ok h
  obtain ⟨boundary, hboundary, hrest⟩ := Program.except_bind_ok hrest
  have hhead := Content.head_of_call _ hcall
  have hheadEOF : head.EOF = !c.keepAlive := hhead.EOF.trans (Bool.false_or _)
  by_cases hstreamed : (boundary.isSome || isLuaPackMesg head.headers) = true
  · rw [if_pos hstreamed] at hrest
    cases hrest
    have hleft : c.LeftToHandler env.parser :=
      ⟨boundary, hhead.headers ▸ hboundary, hhead.headers ▸ hstreamed⟩
    simp [hheadEOF, hleft]
  · rw [if_neg hstreamed] at hrest
    have hEOF : req.EOF = !(c.keepAlive && c.keepAliveEnd) :=
      (Content.object_of_request _ hrest).EOF.trans (Bool.false_or _)
    rw [hclosing] at hEOF
    refine iff_of_false (by simp [hEOF]) ?_
    rintro ⟨-, boundary', hboundary', hstreamed'⟩
    rw [← hhead.headers] at hboundary' hstreamed'
    cases hboundary.symm.trans hboundary'
    exact hstreamed hstreamed'

/-- A request of which `readFull` hears that the connection is to be closed is dropped. -/
theorem closing_request_dropped (parse : Parse env.parser r c)
    (hclosing : (c.keepAlive && c.keepAliveEnd) = false)
    (hheard : ¬(c.keepAlive = true ∧ c.LeftToHandler env.parser)) {conn : Conn}
    {block : List Bytes} {more : List (Except LuaError Bytes)} {extra : Bytes}
    (hsupply : conn.Supply block more (r ++ extra)) :
    ∃ (N : Nat) (served : Served), (∀ fuel, serviceHTTP env (fuel + N) conn = served) ∧
      Dropped conn served := by
  obtain ⟨N, s, block', -, hconn, hread⟩ := readFull_stops parse hsupply
  have hwritten : s.conn.written = conn.written := by
    rw [hconn]
    rfl
  cases hfull : c.fullRequest env.parser with
  | error e =>
    rw [hfull] at hread
    obtain ⟨err, hrun⟩ := hread
    exact ⟨N + 1, _, fun fuel => serviceHTTP_raised env (hrun fuel), rfl, hwritten, rfl, _, rfl⟩
  | ok req =>
    rw [hfull] at hread
    obtain ⟨hrun, rfl, -⟩ := hread
    have hEOF : s.req.EOF = true := by
      rw [← Bool.not_eq_false, fullRequest_EOF hclosing hfull]
      exact hheard
    exact ⟨N + 1, _, fun fuel => serviceHTTP_EOF env (hrun fuel) hEOF, rfl, hwritten, rfl, _, rfl⟩

/-- A response that can be sent is one of a handler. -/
theorem Sendable.registered (h : Sendable env req) {method : Bytes} {parsedURL : ParsedURL}
    (hmethod : req.method = some method) (hurl : req.parsedURL = some parsedURL) :
    ∃ action, actionOf env req = .ok (some action) := by
  rw [Sendable, dispatchAction] at h
  rcases haction : actionOf env req with e | found
  · rw [haction] at h
    cases h
  · obtain - | action := found
    · -- without an action the dispatch has raised
      unfold actionOf at haction
      rw [hmethod, hurl] at haction
      obtain ⟨found, -, hfound⟩ := Program.except_bind_ok haction
      cases found <;> cases hfound
    · exact ⟨action, rfl⟩

end Closing

section Hello

/-- The callbacks for `GET / HTTP/1.x` without header fields. -/
def getScript (httpMinor : Nat) (keepAlive : Bool) : Script :=
  [(1, .messageBegin), (5, .url (text "/")),
    (11, .headersComplete keepAlive 1 httpMinor (some (text "GET")) none),
    (1, .messageComplete keepAlive)]

def getContent (httpMinor : Nat) (keepAlive : Bool) : Content where
  method := text "GET"
  url := text "/"
  httpMajor := 1
  httpMinor := httpMinor
  fields := []
  body := []
  trailers := []
  keepAlive := keepAlive
  keepAliveEnd := keepAlive

theorem getScript_reports (httpMinor : Nat) (keepAlive : Bool) :
    (getContent httpMinor keepAlive).Reports (getScript httpMinor keepAlive).events :=
  ⟨[.messageBegin, .url (text "/")], [], ⟨[.url (text "/")], [], .last _, .nil, rfl⟩,
    ⟨[], [], rfl, .nil, rfl⟩, rfl⟩

def getRequest (version : Bytes) : Bytes := text "GET / " ++ version ++ CRLF ++ CRLF

def getParser (httpMinor : Nat) (keepAlive : Bool) : HttpParser Script :=
  (getScript httpMinor keepAlive).parser fun url _ => some ⟨some url, none⟩

def getParse (httpMinor : Nat) (keepAlive : Bool) {version : Bytes} (h : version.length = 8) :
    Parse (getParser httpMinor keepAlive) (getRequest version) (getContent httpMinor keepAlive) :=
  Script.parse _ (by
    simp only [getRequest, List.length_append, h]
    rfl) (getScript_reports httpMinor keepAlive) (by
    intro item hitem
    cases hitem
    exact Nat.one_pos)

def helloAction : Action where
  handler _ := pure (.status 200 (some (text "hello")))
  handler_uniform _ := Uniform.pure _
  compiledViews _ := none
  views_uniform := noViews_uniform

def helloEnv (httpMinor : Nat) (keepAlive : Bool) : Env Script where
  rt := Runtime.default
  parser := getParser httpMinor keepAlive
  findAction _ method path :=
    .ok (if method = text "GET" ∧ path = some (text "/") then some helloAction else none)
  overwritten := []

def connOf (chunks : List Bytes) : Conn := ⟨false, chunks.map .ok, [], []⟩

/-- A LuaPack message in chunks, after which a trailer asks for the connection to be closed. -/
def packedRequest : Bytes :=
  text "POST / HTTP/1.1" ++ CRLF ++ text "Content-Type: application/luapack" ++ CRLF ++
    text "Transfer-Encoding: chunked" ++ CRLF ++ CRLF ++ text "1" ++ CRLF ++ text "a" ++ CRLF ++
    text "0" ++ CRLF ++ text "Connection: close" ++ CRLF ++ CRLF

def packedContent : Content where
  method := text "POST"
  url := text "/"
  httpMajor := 1
  httpMinor := 1
  fields := [(text "Content-Type", text "application/luapack"),
    (text "Transfer-Encoding", text "chunked")]
  body := text "a"
  trailers := [(text "Connection", text "close")]
  keepAlive := true
  keepAliveEnd := false

def packedScript : Script :=
  [(1, .messageBegin), (5, .url (text "/")), (23, .headerField (text "Content-Type")),
    (21, .headerValue (text "application/luapack")), (19, .headerField (text "Transfer-Encoding")),
    (9, .headerValue (text "chunked")), (4, packedContent.headersComplete), (4, .body (text "a")),
    (15, .headerField (text "Connection")), (7, .headerValue (text "close")),
    (4, .messageComplete false)]

theorem packedScript_reports : packedContent.Reports packedScript.events :=
  ⟨_, _, ⟨[.url (text "/")], _, .last _, .cons (.last _) (.last _) (.cons (.last _) (.last _) .nil),
    rfl⟩, ⟨[text "a"], _, rfl, .cons (.last _) (.last _) .nil, rfl⟩, rfl⟩

def packedEnv : Env Script where
  rt := Runtime.default
  parser := packedScript.parser fun url _ => some ⟨some url, none⟩
  findAction _ method path :=
    .ok (if method = text "POST" ∧ path = some (text "/") then some helloAction else none)
  overwritten := []

def packedParse : Parse packedEnv.parser packedRequest packedContent :=
  Script.parse _ (by rfl) packedScript_reports (by
    intro item hitem
    cases hitem
    exact Nat.succ_pos 3)

end Hello

end Luaw.Http
