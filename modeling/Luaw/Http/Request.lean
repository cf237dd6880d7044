import Mathlib.Data.List.Infix
import Luaw.Http.Params

/-!
# Reading a request

The request object, the callbacks that fill it, and `readFull`. The vendored `http_parser` is a
parameter: `execute` parses up to the next callback, which pauses it.
-/

namespace Luaw.Http

open Lua Program

/-- What a callback of `http_parser` is told. -/
inductive Event where
  | messageBegin
  | status (mesg : Bytes)
  | url (chunk : Bytes)
  | headerField (chunk : Bytes)
  | headerValue (chunk : Bytes)
  | headersComplete (keepAlive : Bool) (httpMajor httpMinor : Nat) (method : Option Bytes)
      (status : Option Nat)
  | body (chunk : Bytes)
  | messageComplete (keepAlive : Bool)

/-- `http_errno` after a call. -/
inductive Errno where
  | ok
  | paused
  | failed (code : Nat)
  deriving DecidableEq

structure Execution (σ : Type) where
  state : σ
  nparsed : Nat
  errno : Errno
  event : Option Event

/-- The parts of a URL that the code looks at. -/
structure ParsedURL where
  path : Option Bytes
  queryString : Option Bytes

/-- What the source leaves open: `hexCh` is what the variable `hex_ch` of `decode_hex_str`, which is
not initialised, holds when a string is decoded, and `interned` says of which strings the VM keeps
one object only, however often they are made. -/
structure Platform where
  hexCh : Bytes → Nat → Bool → UInt8
  interned : Bytes → Bool

/-- The vendored parser, on a platform. -/
structure HttpParser (σ : Type) extends Platform where
  init : σ
  execute : σ → Bytes → Execution σ
  nparsed_le : ∀ s buf, (execute s buf).nparsed ≤ buf.length
  parseURL : Bytes → Bool → Option ParsedURL

/-- A string that `luaw_url_decode` has overwritten in place, which changes it wherever it is
kept: what it was, and what is left of it. -/
structure Overwriting where
  data : Bytes
  left : Bytes
  deriving DecidableEq

/-- What the decoder does to other holders of the string: nothing if they have objects of their own,
or if every character that it stores was there already. -/
def Platform.overwriting (P : Platform) (data left : Bytes) : Option Overwriting :=
  if P.interned data ∧ left ≠ data then some ⟨data, left⟩ else none

def textAfter (x : Option Overwriting) (s : Bytes) : Bytes :=
  match x with
  | none => s
  | some x => if s = x.data then x.left else s

def HeaderValue.after (x : Option Overwriting) : HeaderValue → HeaderValue
  | single value => single (textAfter x value)
  | list values => list (values.map (textAfter x))

/-- A table of headers or parameters; its keys are strings as well. -/
def Headers.after (x : Option Overwriting) (headers : Headers) : Headers :=
  headers.map fun (hName, hValue) => (textAfter x hName, hValue.after x)

def ParsedURL.after (x : Option Overwriting) (parsedURL : ParsedURL) : ParsedURL where
  path := parsedURL.path.map (textAfter x)
  queryString := parsedURL.queryString.map (textAfter x)

/-- A request object. No code reads `overwritten`, the strings that have been overwritten in place
while it was read. -/
structure Request where
  headers : Headers
  accHeaderName : Option Bytes
  accHeaderValue : Option Bytes
  bodyParts : Buffer
  body : Option Bytes
  url : Option Bytes
  method : Option Bytes
  status : Option Nat
  statusMesg : Option Bytes
  majorVersion : Option Nat
  minorVersion : Option Nat
  parsedURL : Option ParsedURL
  params : Option Params
  headersDone : Bool
  mesgDone : Bool
  EOF : Bool
  overwritten : List Overwriting

def newServerHttpRequest : Request where
  headers := []
  accHeaderName := none
  accHeaderValue := none
  bodyParts := newBuffer
  body := none
  url := none
  method := none
  status := none
  statusMesg := none
  majorVersion := none
  minorVersion := none
  parsedURL := none
  params := none
  headersDone := false
  mesgDone := false
  EOF := false
  overwritten := []

namespace Request

def reset (req : Request) : Request :=
  { req with
    headers := []
    accHeaderName := none
    accHeaderValue := none
    url := none
    bodyParts := req.bodyParts.reset
    body := none
    mesgDone := false
    headersDone := false
    params := none
    parsedURL := none
    status := none
    statusMesg := none }

def accumulateChunkedValue (accValue : Option Bytes) (chunk : Bytes) : Option Bytes :=
  some (accValue.getD [] ++ chunk)

def handleAccHttpHeader (req : Request) : Request :=
  match req.accHeaderName, req.accHeaderValue with
  | some hName, some hValue =>
    { req with
      headers := req.headers.add hName hValue
      accHeaderName := none
      accHeaderValue := none }
  | _, _ => req

def handleKeepAlive (keepAlive : Bool) (req : Request) : Request :=
  if keepAlive then req
  else { req with headers := req.headers.assign (text "Connection") (text "close"), EOF := true }

/-- The request once a string has been overwritten. Its buffer is left out: when a string is
overwritten it is empty, or about to be reset. -/
def after (x : Option Overwriting) (req : Request) : Request :=
  { req with
    headers := Headers.after x req.headers
    accHeaderName := req.accHeaderName.map (textAfter x)
    accHeaderValue := req.accHeaderValue.map (textAfter x)
    url := req.url.map (textAfter x)
    method := req.method.map (textAfter x)
    statusMesg := req.statusMesg.map (textAfter x)
    parsedURL := req.parsedURL.map (ParsedURL.after x)
    params := req.params.map (Headers.after x)
    overwritten := req.overwritten ++ x.toList }

section Fields

variable (keepAlive : Bool) (req : Request)

@[simp] theorem handleAcc_bodyParts : req.handleAccHttpHeader.bodyParts = req.bodyParts := by
  obtain ⟨_, _ | _, _ | _, _⟩ := req <;> rfl

@[simp] theorem handleAcc_url : req.handleAccHttpHeader.url = req.url := by
  obtain ⟨_, _ | _, _ | _, _⟩ := req <;> rfl

@[simp] theorem handleAcc_method : req.handleAccHttpHeader.method = req.method := by
  obtain ⟨_, _ | _, _ | _, _⟩ := req <;> rfl

@[simp] theorem handleAcc_statusMesg : req.handleAccHttpHeader.statusMesg = req.statusMesg := by
  obtain ⟨_, _ | _, _ | _, _⟩ := req <;> rfl

@[simp] theorem handleAcc_headersDone : req.handleAccHttpHeader.headersDone = req.headersDone := by
  obtain ⟨_, _ | _, _ | _, _⟩ := req <;> rfl

@[simp] theorem handleAcc_mesgDone : req.handleAccHttpHeader.mesgDone = req.mesgDone := by
  obtain ⟨_, _ | _, _ | _, _⟩ := req <;> rfl

@[simp] theorem handleAcc_EOF : req.handleAccHttpHeader.EOF = req.EOF := by
  obtain ⟨_, _ | _, _ | _, _⟩ := req <;> rfl

@[simp] theorem handleAcc_body : req.handleAccHttpHeader.body = req.body := by
  obtain ⟨_, _ | _, _ | _, _⟩ := req <;> rfl

@[simp] theorem handleAcc_params : req.handleAccHttpHeader.params = req.params := by
  obtain ⟨_, _ | _, _ | _, _⟩ := req <;> rfl

@[simp] theorem handleAcc_parsedURL : req.handleAccHttpHeader.parsedURL = req.parsedURL := by
  obtain ⟨_, _ | _, _ | _, _⟩ := req <;> rfl

@[simp] theorem handleAcc_overwritten :
    req.handleAccHttpHeader.overwritten = req.overwritten := by
  obtain ⟨_, _ | _, _ | _, _⟩ := req <;> rfl

@[simp] theorem handleKeepAlive_true : req.handleKeepAlive true = req := rfl

@[simp] theorem handleKeepAlive_EOF :
    (req.handleKeepAlive keepAlive).EOF = (req.EOF || !keepAlive) := by
  cases keepAlive <;> simp [handleKeepAlive]

@[simp] theorem handleKeepAlive_accHeaderName :
    (req.handleKeepAlive keepAlive).accHeaderName = req.accHeaderName := by
  cases keepAlive <;> rfl

@[simp] theorem handleKeepAlive_accHeaderValue :
    (req.handleKeepAlive keepAlive).accHeaderValue = req.accHeaderValue := by
  cases keepAlive <;> rfl

@[simp] theorem handleKeepAlive_bodyParts :
    (req.handleKeepAlive keepAlive).bodyParts = req.bodyParts := by
  cases keepAlive <;> rfl

@[simp] theorem handleKeepAlive_body : (req.handleKeepAlive keepAlive).body = req.body := by
  cases keepAlive <;> rfl

@[simp] theorem handleKeepAlive_params : (req.handleKeepAlive keepAlive).params = req.params := by
  cases keepAlive <;> rfl

@[simp] theorem handleKeepAlive_url : (req.handleKeepAlive keepAlive).url = req.url := by
  cases keepAlive <;> rfl

@[simp] theorem handleKeepAlive_method : (req.handleKeepAlive keepAlive).method = req.method := by
  cases keepAlive <;> rfl

@[simp] theorem handleKeepAlive_statusMesg :
    (req.handleKeepAlive keepAlive).statusMesg = req.statusMesg := by
  cases keepAlive <;> rfl

@[simp] theorem handleKeepAlive_parsedURL :
    (req.handleKeepAlive keepAlive).parsedURL = req.parsedURL := by
  cases keepAlive <;> rfl

@[simp] theorem handleKeepAlive_overwritten :
    (req.handleKeepAlive keepAlive).overwritten = req.overwritten := by
  cases keepAlive <;> rfl

@[simp] theorem handleKeepAlive_headersDone :
    (req.handleKeepAlive keepAlive).headersDone = req.headersDone := by
  cases keepAlive <;> rfl

@[simp] theorem handleKeepAlive_mesgDone :
    (req.handleKeepAlive keepAlive).mesgDone = req.mesgDone := by
  cases keepAlive <;> rfl

end Fields

end Request

section Callbacks

variable {σ : Type} (P : HttpParser σ)

def parseRequestURL (method url : Option Bytes) : Except LuaError ParsedURL :=
  match url with
  | none => .ok ⟨none, none⟩
  | some url =>
    match P.parseURL url (method.any fun m => upperCase m = text "CONNECT") with
    | some parsedURL => .ok parsedURL
    | none => .error (text "attempt to index local 'parsedURL' (a nil value)")

/-- The parameters of the query string, and what is left of it. -/
def queryParams (parsedURL : ParsedURL) : Except LuaError (Params × Option Bytes) :=
  match parsedURL.queryString with
  | none => .ok ([], none)
  | some queryString =>
    (urlDecode (P.hexCh queryString) queryString []).map fun (params, left) => (params, some left)

/-- What the decoding of the query string changes. -/
def queryOverwriting (parsedURL : ParsedURL) (left : Option Bytes) : Option Overwriting :=
  match parsedURL.queryString, left with
  | some queryString, some left => P.overwriting queryString left
  | _, _ => none

def onHeadersComplete (keepAlive : Bool) (httpMajor httpMinor : Nat) (method : Option Bytes)
    (status : Option Nat) (req : Request) : Except LuaError Request := do
  let req := req.handleAccHttpHeader.handleKeepAlive keepAlive
  let parsedURL ← parseRequestURL P method req.url
  let (params, left) ← queryParams P parsedURL
  let x := queryOverwriting P parsedURL left
  let req := Request.after x { req with method := method }
  pure { req with
    majorVersion := some httpMajor
    minorVersion := some httpMinor
    status := status
    parsedURL := some { path := parsedURL.path.map (textAfter x), queryString := left }
    params := some params
    headersDone := true }

/-- The parameters after those of a form in the body have been added, and the body, in which the
form is decoded in place. -/
def formParams (headers : Headers) (body : Bytes) (params : Option Params) :
    Except LuaError (Option Params × Bytes) :=
  match headers.get? (text "Content-Type") with
  | none => .ok (params, body)
  | some (.list _) => .error (text "attempt to call method 'lower' (a nil value)")
  | some (.single contentType) =>
    if lowerCase contentType = text "application/x-www-form-urlencoded" then
      (urlDecode (P.hexCh body) body (params.getD [])).map fun (params, body) => (some params, body)
    else .ok (params, body)

def onMesgComplete (keepAlive : Bool) (req : Request) : Except LuaError Request := do
  let req := req.handleAccHttpHeader.handleKeepAlive keepAlive
  let body ← req.bodyParts.concat
  let (params, left) ← formParams P req.headers body req.params
  let req := Request.after (P.overwriting body left) { req with params := params }
  pure { req with
    body := some left
    bodyParts := req.bodyParts.reset
    mesgDone := true }

/-- The table `http_callbacks_lua`. -/
def callback : Event → Request → Except LuaError Request
  | .messageBegin, req => .ok req.reset
  | .status mesg, req =>
    .ok { req with statusMesg := Request.accumulateChunkedValue req.statusMesg mesg }
  | .url chunk, req => .ok { req with url := Request.accumulateChunkedValue req.url chunk }
  | .headerField chunk, req =>
    let req := req.handleAccHttpHeader
    .ok { req with accHeaderName := Request.accumulateChunkedValue req.accHeaderName chunk }
  | .headerValue chunk, req =>
    .ok { req with accHeaderValue := Request.accumulateChunkedValue req.accHeaderValue chunk }
  | .headersComplete keepAlive httpMajor httpMinor method status, req =>
    onHeadersComplete P keepAlive httpMajor httpMinor method status req
  | .body chunk, req => .ok { req with bodyParts := req.bodyParts.append (.str chunk) }
  | .messageComplete keepAlive, req => onMesgComplete P keepAlive req

end Callbacks

/-- A request that is being read, with its connection, its parser and its unread content: the
fields `luaw_conn`, `luaw_parser`, `luaw_read_content` and `luaw_read_offset`. No code reads
`consumed`, the content that the parser has consumed so far. -/
structure Session (σ : Type) where
  conn : Conn
  req : Request
  parser : σ
  unread : Option (Bytes × Nat)
  consumed : Bytes

abbrev SessionM (σ : Type) := Program LuaError (Session σ)

section Reading

variable {σ : Type} (P : HttpParser σ)

def newSession (conn : Conn) : Session σ := ⟨conn, newServerHttpRequest, P.init, none, []⟩

def closeConn : SessionM σ Unit := modify fun s => { s with conn := s.conn.close }

def hasContent (content : Bytes) (offset : Nat) : Bool := offset < content.length

/-- `parse_http` and the callback that it asks for; the new offset. -/
def parseHttpFragment (content : Bytes) (offset : Nat) : SessionM σ Nat := do
  let s ← get
  if content.length < offset then
    closeConn
    raise (text "Wrong offset into HTTP string: len=" ++ decimal content.length ++
      text ", offset=" ++ decimal offset ++ text ", content=" ++ content ++ text "\n")
  else
    let x := P.execute s.parser (content.drop offset)
    if offset + x.nparsed < content.length ∧ x.errno ≠ .paused then
      closeConn
      raise (text "Error parsing HTTP fragment: errorCode=" ++
        decimal (match x.errno with | .failed code => code | _ => 0) ++ text ", total=" ++
        decimal content.length ++ text ", parsed=" ++ decimal x.nparsed ++ text ", content=" ++
        content ++ text "\n")
    else
      let req ← ofExcept (match x.event with | none => .ok s.req | some e => callback P e s.req)
      -- the parser of a complete message starts anew
      let parser := match x.event with | some (.messageComplete _) => P.init | _ => x.state
      set { s with
        req := req
        parser := parser
        consumed := s.consumed ++ (content.drop offset).take x.nparsed }
      pure (offset + x.nparsed)

def readContent : SessionM σ (Option (Bytes × Nat)) := do
  let s ← get
  match s.unread.filter fun (content, offset) => hasContent content offset with
  | some unread => pure (some unread)
  | none =>
    let (result, conn) := s.conn.read
    set { s with conn }
    match result with
    | .ok content => pure (some (content, 0))
    | .error mesg =>
      if mesg = text "EOF" then
        modify fun s => { s with
          req := { s.req with
            headers := s.req.headers.add (text "Connection") (text "close")
            headersDone := true
            mesgDone := true
            EOF := true }
          unread := none }
        pure none
      else raise mesg

/-- Nothing is left of what has been read. -/
def Session.Spent (s : Session σ) : Prop :=
  ∀ content offset, s.unread = some (content, offset) → hasContent content offset = false

/-- The end of the input closes the message, whatever it still lacks. -/
def Session.atEOF (s : Session σ) : Session σ :=
  { s with
    req := { s.req with
      headers := s.req.headers.add (text "Connection") (text "close")
      headersDone := true
      mesgDone := true
      EOF := true }
    unread := none }

theorem readContent_unread {s : Session σ} {content : Bytes} {offset : Nat}
    (hunread : s.unread = some (content, offset)) (hcontent : hasContent content offset = true) :
    exec readContent s = (.ok (some (content, offset)), s) := by
  rw [readContent, exec_bind_ok (exec_get _), hunread, Option.filter_some, if_pos hcontent]
  rfl

namespace Session.Spent

variable {s : Session σ} {conn : Conn}

theorem filter (h : s.Spent) :
    s.unread.filter (fun (content, offset) => hasContent content offset) = none := by
  rw [Option.filter_eq_none_iff]
  rintro ⟨content, offset⟩ hunread
  simpa using h content offset hunread

theorem readContent_ok (h : s.Spent) {content : Bytes} (hread : s.conn.read = (.ok content, conn)) :
    exec readContent s = (.ok (some (content, 0)), { s with conn }) := by
  rw [readContent, exec_bind_ok (exec_get _), h.filter, hread]
  rfl

theorem readContent_EOF (h : s.Spent) (hread : s.conn.read = (.error (text "EOF"), conn)) :
    exec readContent s = (.ok none, { s with conn }.atEOF) := by
  rw [readContent, exec_bind_ok (exec_get _), h.filter, hread]
  rfl

theorem readContent_error (h : s.Spent) {mesg : LuaError}
    (hread : s.conn.read = (.error mesg, conn)) (hne : mesg ≠ text "EOF") :
    exec readContent s = (.error (.raised mesg), { s with conn }) := by
  rw [readContent, exec_bind_ok (exec_get _), h.filter, hread]
  change exec (if mesg = text "EOF" then _ else raise mesg) _ = _
  rw [exec_ite, if_neg hne]
  rfl

end Session.Spent

theorem Session.spent_or (s : Session σ) :
    s.Spent ∨ ∃ content offset, s.unread = some (content, offset) ∧
      hasContent content offset = true := by
  by_cases h : s.Spent
  · exact .inl h
  · exact .inr (by simpa [Session.Spent] using h)

/-- What `readContent` hands out was left, or has come from the connection. -/
theorem readContent_cases {s s' : Session σ} {unread : Option (Bytes × Nat)}
    (h : exec readContent s = (.ok unread, s')) :
    (∃ content offset, s.unread = some (content, offset) ∧ hasContent content offset = true ∧
      unread = some (content, offset) ∧ s' = s) ∨
    (s.Spent ∧ ∃ content conn, s.conn.read = (.ok content, conn) ∧ unread = some (content, 0) ∧
      s' = { s with conn }) ∨
    (s.Spent ∧ ∃ conn, s.conn.read = (.error (text "EOF"), conn) ∧ unread = none ∧
      s' = { s with conn }.atEOF) := by
  obtain hspent | ⟨content, offset, hunread, hcontent⟩ := s.spent_or
  · rcases hread : s.conn.read with ⟨mesg | content, conn⟩
    · by_cases hEOF : mesg = text "EOF"
      · subst hEOF
        cases (hspent.readContent_EOF hread).symm.trans h
        exact .inr (.inr ⟨hspent, conn, rfl, rfl, rfl⟩)
      · cases (hspent.readContent_error hread hEOF).symm.trans h
    · cases (hspent.readContent_ok hread).symm.trans h
      exact .inr (.inl ⟨hspent, content, conn, rfl, rfl, rfl⟩)
  · cases (readContent_unread hunread hcontent).symm.trans h
    exact .inl ⟨content, offset, hunread, hcontent, rfl, rfl⟩

def readAndParse : SessionM σ Unit := do
  match ← readContent with
  | none => pure ()
  | some (content, offset) =>
    let offset ← parseHttpFragment P content offset
    modify fun s => { s with
      unread := if hasContent content offset then some (content, offset) else none }

/-- The text before the first occurrence of a character, and what comes after it. -/
def consumeTill (search : UInt8) (input : Bytes) : Option (Bytes × Bytes) :=
  match input.dropWhile (· ≠ search) with
  | [] => none
  | _ :: rest => some (input.takeWhile (· ≠ search), rest)

def getMultipartBoundary (headers : Headers) : Except LuaError (Option Bytes) :=
  match headers.get? (text "Content-Type") with
  | none => .ok none
  | some (.list _) =>
    .error (text "bad argument #1 to 'find' (string expected, got table)")
  | some (.single header) =>
    match consumeTill 59 header with
    | none => .ok none
    | some (contentType, rest) =>
      if contentType = text "multipart/form-data" then
        match consumeTill 61 rest with
        | none => .ok none
        | some (boundary, rest) =>
          if text "boundary" <:+: boundary then .ok (some (text "--" ++ rest)) else .ok none
      else .ok none

def isLuaPackMesg (headers : Headers) : Bool :=
  match headers.get? (text "Content-Type") with
  | some (.single contentType) => contentType = text "application/luapack"
  | _ => false

/-- A loop of `readFull`. -/
def readUntil (done : Request → Bool) : Nat → SessionM σ Unit
  | 0 => outOfFuel
  | fuel + 1 => do
    let s ← get
    if done s.req then pure ()
    else
      readAndParse P
      readUntil done fuel

def readFull (fuel : Nat) : SessionM σ Unit := do
  readUntil P Request.headersDone fuel
  let s ← get
  let boundary ← ofExcept (getMultipartBoundary s.req.headers)
  if boundary.isSome || isLuaPackMesg s.req.headers then pure ()
  else readUntil P Request.mesgDone fuel

end Reading

end Luaw.Http
