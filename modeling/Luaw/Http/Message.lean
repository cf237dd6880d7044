import Luaw.Foundations.ChunkedCoding
import Luaw.Foundations.Program
import Luaw.Http.Connection

/-!
# HTTP messages

Responses of a server and requests of a client, the side of `luaw_http.lua` that writes: the
buffers, the headers, the start line, and sending a body in one piece or in chunks.
-/

namespace Luaw.Http

open Lua Program

/-- What the code depends on outside itself: the configured buffer size and the order in which
`pairs` visits the entries of a table. -/
structure Runtime where
  connBufferSize : Nat
  connBufferSize_pos : 0 < connBufferSize
  pairs : {α : Type} → List α → List α
  pairs_perm : ∀ {α : Type} (entries : List α), (pairs entries).Perm entries

/-- The default configuration, with the entries visited as they were added. -/
def Runtime.default : Runtime := ⟨4096, by decide, id, fun _ => .refl _⟩

/-- An element of a list that is joined by `table.concat`. A number stands as its digits. -/
inductive Element where
  | nil
  | str (s : Bytes)
  | list (strs : List Bytes)

namespace Element

/-- `#str`. -/
def length : Element → Nat
  | nil => 0
  | str s => s.length
  | list strs => strs.length

def typeName : Element → Bytes
  | nil => text "nil"
  | str _ => text "string"
  | list _ => text "table"

def ofOption : Option Bytes → Element
  | none => nil
  | some s => str s

end Element

def concatFrom : Nat → List Element → Except LuaError Bytes
  | _, [] => .ok []
  | i, .str s :: elements => (concatFrom (i + 1) elements).map fun rest => s ++ rest
  | i, element :: _ => .error (text "invalid value (" ++ element.typeName ++ text ") at index " ++
      decimal i ++ text " in table for 'concat'")

def tableConcat (elements : List Element) : Except LuaError Bytes := concatFrom 1 elements

structure Buffer where
  parts : List Element
  len : Nat

def newBuffer : Buffer := ⟨[], 0⟩

namespace Buffer

def reset (_ : Buffer) : Buffer := ⟨[], 0⟩

def concat (buffer : Buffer) : Except LuaError Bytes := tableConcat buffer.parts

def append (buffer : Buffer) (str : Element) : Buffer :=
  ⟨buffer.parts ++ [str], buffer.len + str.length⟩

end Buffer

/-- One value, or the list of the values added under the same name, as `tostring` gives them. -/
inductive HeaderValue where
  | single (value : Bytes)
  | list (values : List Bytes)

namespace HeaderValue

def add : HeaderValue → Bytes → HeaderValue
  | single v, hValue => list [v, hValue]
  | list vs, hValue => list (vs ++ [hValue])

def values : HeaderValue → List Bytes
  | single v => [v]
  | list vs => vs

end HeaderValue

abbrev Headers := List (Bytes × HeaderValue)

namespace Headers

def add (hName hValue : Bytes) : Headers → Headers
  | [] => [(hName, .single hValue)]
  | (name, currValues) :: headers =>
    if name = hName then (name, currValues.add hValue) :: headers
    else (name, currValues) :: add hName hValue headers

/-- `headers[name] = value`. -/
def assign (hName hValue : Bytes) : Headers → Headers
  | [] => [(hName, .single hValue)]
  | (name, currValues) :: headers =>
    if name = hName then (name, .single hValue) :: headers
    else (name, currValues) :: assign hName hValue headers

def get? (hName : Bytes) : Headers → Option HeaderValue
  | [] => none
  | (name, currValues) :: headers => if name = hName then some currValues else get? hName headers

end Headers

/-- `luaw_mesg_type` of the messages that are written. -/
inductive MesgType where
  | sresp
  | creq
  deriving DecidableEq

structure Message where
  mesgType : MesgType
  conn : Conn
  isChunked : Bool
  majorVersion : Nat
  minorVersion : Nat
  method : Option Bytes
  url : Option Bytes
  params : Option (List (Bytes × Bytes))
  status : Option Nat
  statusMesg : Option Bytes
  headers : Headers
  bodyParts : Buffer

def newServerHttpResponse (conn : Conn) : Message where
  mesgType := .sresp
  conn := conn
  isChunked := false
  majorVersion := 1
  minorVersion := 1
  method := none
  url := none
  params := none
  status := none
  statusMesg := none
  headers := []
  bodyParts := newBuffer

/-- The request, with the connection that `connectReq` gives it. -/
def newClientHttpRequest (conn : Conn) : Message where
  mesgType := .creq
  conn := conn
  isChunked := false
  majorVersion := 1
  minorVersion := 1
  method := some (text "GET")
  url := none
  params := none
  status := none
  statusMesg := none
  headers := []
  bodyParts := newBuffer

def httpStatusCodes : List (Nat × String) :=
  [(100, "Continue"), (101, "Switching Protocols"), (200, "OK"), (201, "Created"),
    (202, "Accepted"), (203, "Non-Authoritative Information"), (204, "No Content"),
    (205, "Reset Content"), (206, "Partial Content"), (300, "Multiple Choices"),
    (301, "Moved Permanently"), (302, "Found"), (303, "See Other"), (304, "Not Modified"),
    (305, "Use Proxy"), (307, "Temporary Redirect"), (400, "Bad Request"), (401, "Unauthorized"),
    (402, "Payment Required"), (403, "Forbidden"), (404, "Not Found"),
    (405, "Method Not Allowed"), (406, "Not Acceptable"), (407, "Proxy Authentication Required"),
    (408, "Request Timeout"), (409, "Conflict"), (410, "Gone"), (411, "Length Required"),
    (412, "Precondition Failed"), (413, "Request Entity Too Large"),
    (414, "Request-URI Too Long"), (416, "Requested Range Not Satisfiable"),
    (417, "Expectation Failed"), (500, "Internal Server Error"), (501, "Not Implemented"),
    (502, "Bad Gateway"), (503, "Service Unavailable"), (504, "Gateway Timeout"),
    (505, "HTTP Version Not Supported")]

def statusMesgOf (status : Nat) : Bytes :=
  text ((httpStatusCodes.lookup status).getD "User Defined Status")

/-- `toURLSafeChar`, and what the pattern of `urlEncode` leaves alone. -/
def toURLSafeChar (ch : UInt8) : Bytes :=
  if ch = 32 then [43]
  else [37, hexDigit (ch.toNat / 16), hexDigit (ch.toNat % 16)]
where
  hexDigit (d : Nat) : UInt8 := if d < 10 then (48 + d).toUInt8 else (55 + d).toUInt8

def isURLSafe (ch : UInt8) : Bool :=
  (97 ≤ ch && ch ≤ 122) || (65 ≤ ch && ch ≤ 90) || (48 ≤ ch && ch ≤ 57) || ch = 46 || ch = 42 ||
    ch = 45 || ch = 95

def urlEncode (str : Bytes) : Bytes :=
  str.flatMap fun ch => if isURLSafe ch then [ch] else toURLSafeChar ch

/-- The list of the encoded pieces without the last `&`, and their total length. -/
def urlEncodeParams (rt : Runtime) (params : Option (List (Bytes × Bytes))) :
    Option (List Bytes × Nat) :=
  match params with
  | none => none
  | some params =>
    let encodedParams := (rt.pairs params).flatMap fun (key, val) =>
      [urlEncode key, text "=", urlEncode val, text "&"]
    let contentLength := (encodedParams.map List.length).sum
    if 0 < encodedParams.length then some (encodedParams.dropLast, contentLength - 1) else none

def buildURL (rt : Runtime) (req : Message) : Except LuaError (Option Bytes) :=
  if req.method = some (text "GET") then
    match urlEncodeParams rt req.params with
    | some (encodedParams, _) =>
      (tableConcat (.ofOption req.url :: .str (text "?") :: encodedParams.map .str)).map some
    | none => .ok req.url
  else .ok req.url

def firstResponseLine (resp : Message) : Except LuaError Bytes :=
  tableConcat [.str (text "HTTP/"), .str (decimal resp.majorVersion), .str (text "."),
    .str (decimal resp.minorVersion), .str (text " "), .ofOption (resp.status.map decimal),
    .str (text " "), .ofOption resp.statusMesg, .str CRLF]

def firstRequestLine (rt : Runtime) (req : Message) : Except LuaError Bytes := do
  let url ← buildURL rt req
  tableConcat [.ofOption req.method, .str (text " "), .ofOption url, .str (text " HTTP/"),
    .str (decimal req.majorVersion), .str (text "."), .str (decimal req.minorVersion), .str CRLF]

namespace Message

def firstLine (rt : Runtime) (m : Message) : Except LuaError Bytes :=
  match m.mesgType with
  | .sresp => firstResponseLine m
  | .creq => firstRequestLine rt m

def addHeader (m : Message) (hName hValue : Bytes) : Message :=
  { m with headers := m.headers.add hName hValue }

def setStatus (resp : Message) (status : Nat) : Message :=
  { resp with status := some status, statusMesg := some (statusMesgOf status) }

def setBodyParts (m : Message) (bodyParts : Buffer) : Message := { m with bodyParts }

end Message

abbrev MessageM := Program LuaError Message

def write (str : Bytes) : MessageM Unit := do
  let m ← get
  let (result, conn) := m.conn.write str
  set { m with conn }
  ofExcept result

/-- `store` puts the reset buffer back into the message, if it came from there. -/
def sendBuffer (buffer : Buffer) (store : Message → Buffer → Message) (isChunked : Bool) :
    MessageM Unit := do
  let chunk ← ofExcept buffer.concat
  modify fun m => store m buffer.reset
  write (if isChunked then ChunkedCoding.hex chunk.length ++ CRLF ++ chunk ++ CRLF else chunk)

def bufferHeader (buffer : Buffer) (name value : Bytes) : Buffer :=
  (((buffer.append (.str name)).append (.str (text ": "))).append (.str value)).append (.str CRLF)

/-- The loops of `bufferHeaders`; the caller removes the headers from the message. -/
def bufferHeaders (rt : Runtime) (headers : Headers) (buffer : Buffer) : Buffer :=
  ((rt.pairs headers).foldl (fun buffer (name, value) =>
    value.values.foldl (fun buffer v => bufferHeader buffer name v) buffer) buffer).append (.str CRLF)

/-- The start line and the headers, from a buffer of their own. -/
def sendHeaders (rt : Runtime) : MessageM Unit := do
  let m ← get
  let line ← ofExcept (m.firstLine rt)
  let headersBuffer := bufferHeaders rt m.headers (newBuffer.append (.str line))
  modify fun m => { m with headers := [] }
  sendBuffer headersBuffer (fun m _ => m) false

def startStreaming (rt : Runtime) : MessageM Unit := do
  modify fun resp => { resp with isChunked := true }.addHeader (text "Transfer-Encoding")
    (text "chunked")
  sendHeaders rt

def appendBody (rt : Runtime) : Option Bytes → MessageM Unit
  | none => pure ()
  | some bodyPart => do
    modify fun resp => resp.setBodyParts (resp.bodyParts.append (.str bodyPart))
    let resp ← get
    if resp.isChunked = true ∧ rt.connBufferSize ≤ resp.bodyParts.len then
      sendBuffer resp.bodyParts Message.setBodyParts true
    else pure ()

/-- What `writeFullBody` does about the parameters of a POST. -/
def addParams (rt : Runtime) (m : Message) : Message :=
  if m.method = some (text "POST") then
    match urlEncodeParams rt m.params with
    | some (encodedParams, _) =>
      let m := m.addHeader (text "Content-Type") (text "application/x-www-form-urlencoded")
      m.setBodyParts (m.bodyParts.append (.list encodedParams))
    | none => m
  else m

def writeFullBody (rt : Runtime) : MessageM Unit := do
  modify (addParams rt)
  modify fun resp => resp.addHeader (text "Content-Length") (decimal resp.bodyParts.len)
  sendHeaders rt
  let resp ← get
  sendBuffer resp.bodyParts Message.setBodyParts false

def endStreaming : MessageM Unit := do
  let resp ← get
  sendBuffer resp.bodyParts Message.setBodyParts true
  write (text "0\r\n\r\n")

def flush (rt : Runtime) : MessageM Unit := do
  let resp ← get
  if resp.isChunked then endStreaming else writeFullBody rt

end Luaw.Http
