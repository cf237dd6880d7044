import Luaw.Concurrent.Strings
import Luaw.Http.FullBody

/-!
# Sending in a coroutine

The functions of `luaw_http.lua` that write, with their suspensions. A coroutine owns its
connections, so what they bring is part of its own state. The string `+` of `toURLSafeChar` is
given as it is now: of the strings in the code of the library only this one can be changed by
decoding.
-/

namespace Luaw.Concurrent

open Lua Http Routine

/-- A message that is written, and to whom. `attached` says whether its `luaw_conn` is there:
`close` takes it away. -/
structure Outgoing where
  peer : Peer
  mesg : Message
  attached : Bool

namespace Outgoing

def withMesg (m : Message) (o : Outgoing) : Outgoing := { o with mesg := m }

theorem withMesg_mesg (o : Outgoing) : withMesg o.mesg o = o := rfl

end Outgoing

instance : Retains Bytes Outgoing := .fields Outgoing.mesg Outgoing.withMesg Outgoing.withMesg_mesg

/-- The error of a method call on a connection that is not there. -/
def noConn : LuaError := text "attempt to index local 'conn' (a nil value)"

section Encoding

/-- A space is encoded as the string `plus`. -/
def urlEncode (plus str : Bytes) : Bytes :=
  str.flatMap fun ch =>
    if isURLSafe ch then [ch] else if ch = 32 then plus else toURLSafeChar ch

def urlEncodeParams (rt : Runtime) (plus : Bytes) (params : Option (List (Bytes × Bytes))) :
    Option (List Bytes) :=
  match params with
  | none => none
  | some params =>
    let encodedParams := (rt.pairs params).flatMap fun (key, val) =>
      [urlEncode plus key, text "=", urlEncode plus val, text "&"]
    if 0 < encodedParams.length then some encodedParams.dropLast else none

def buildURL (rt : Runtime) (plus : Bytes) (req : Message) : Except LuaError (Option Bytes) :=
  if req.method = some (text "GET") then
    match urlEncodeParams rt plus req.params with
    | some encodedParams =>
      (tableConcat (.ofOption req.url :: .str (text "?") :: encodedParams.map .str)).map some
    | none => .ok req.url
  else .ok req.url

def firstRequestLine (rt : Runtime) (plus : Bytes) (req : Message) : Except LuaError Bytes := do
  let url ← buildURL rt plus req
  tableConcat [.ofOption req.method, .str (text " "), .ofOption url, .str (text " HTTP/"),
    .str (decimal req.majorVersion), .str (text "."), .str (decimal req.minorVersion), .str CRLF]

def firstLine (rt : Runtime) (plus : Bytes) (m : Message) : Except LuaError Bytes :=
  match m.mesgType with
  | .sresp => firstResponseLine m
  | .creq => firstRequestLine rt plus m

/-- What `writeFullBody` does about the parameters of a POST. -/
def addParams (rt : Runtime) (plus : Bytes) (m : Message) : Message :=
  if m.method = some (text "POST") then
    match urlEncodeParams rt plus m.params with
    | some encodedParams =>
      let m := m.addHeader (text "Content-Type") (text "application/x-www-form-urlencoded")
      m.setBodyParts (m.bodyParts.append (.list encodedParams))
    | none => m
  else m

end Encoding

section Writing

def modifyMesg (f : Message → Message) : LuaM Outgoing Unit :=
  modify fun o => { o with mesg := f o.mesg }

/-- A string has been handed over, unless that fails. -/
def noteSent (peer : Peer) (str : Bytes) : Except LuaError Unit → LuaM Outgoing Unit
  | .ok _ => emit (.sent peer str)
  | .error _ => pure ()

/-- `conn:write`. There is nothing to wait for when the connection is closed already, or the
string empty. -/
def write (str : Bytes) : LuaM Outgoing Unit := do
  let o ← get
  if o.attached then
    let written := o.mesg.conn.write str
    set { o with mesg := { o.mesg with conn := written.2 } }
    if o.mesg.conn.closed ∨ str = [] then ofExcept written.1
    else
      noteSent o.peer str written.1
      suspend
      ofExcept written.1
  else raise noConn

def sendBuffer (buffer : Buffer) (store : Message → Buffer → Message) (isChunked : Bool) :
    LuaM Outgoing Unit := do
  let chunk ← ofExcept buffer.concat
  modifyMesg fun m => store m buffer.reset
  write (if isChunked then ChunkedCoding.hex chunk.length ++ CRLF ++ chunk ++ CRLF else chunk)

def sendHeaders (rt : Runtime) (plus : Bytes) : LuaM Outgoing Unit := do
  let o ← get
  let line ← ofExcept (firstLine rt plus o.mesg)
  let headersBuffer := bufferHeaders rt o.mesg.headers (newBuffer.append (.str line))
  modifyMesg fun m => { m with headers := [] }
  sendBuffer headersBuffer (fun m _ => m) false

def startStreaming (rt : Runtime) (plus : Bytes) : LuaM Outgoing Unit := do
  modifyMesg fun resp => { resp with isChunked := true }.addHeader (text "Transfer-Encoding")
    (text "chunked")
  sendHeaders rt plus

def appendBody (rt : Runtime) : Option Bytes → LuaM Outgoing Unit
  | none => pure ()
  | some bodyPart => do
    modifyMesg fun resp => resp.setBodyParts (resp.bodyParts.append (.str bodyPart))
    let o ← get
    if o.mesg.isChunked = true ∧ rt.connBufferSize ≤ o.mesg.bodyParts.len then
      sendBuffer o.mesg.bodyParts Message.setBodyParts true
    else pure ()

def writeFullBody (rt : Runtime) (plus : Bytes) : LuaM Outgoing Unit := do
  modifyMesg (addParams rt plus)
  modifyMesg fun resp => resp.addHeader (text "Content-Length") (decimal resp.bodyParts.len)
  sendHeaders rt plus
  let o ← get
  sendBuffer o.mesg.bodyParts Message.setBodyParts false

def endStreaming : LuaM Outgoing Unit := do
  let o ← get
  sendBuffer o.mesg.bodyParts Message.setBodyParts true
  write (text "0\r\n\r\n")

def flush (rt : Runtime) (plus : Bytes) : LuaM Outgoing Unit := do
  let o ← get
  if o.mesg.isChunked then endStreaming else writeFullBody rt plus

end Writing

section Owning

variable (rt : Runtime) (plus : Bytes)

theorem noteSent_owns (peer : Peer) (str : Bytes) (result : Except LuaError Unit) :
    Owns ∅ (noteSent peer str result) ∅ := by
  cases result with
  | ok _ => exact .emit _
  | error _ => exact .pure _

theorem write_owns (str : Bytes) : Owns ∅ (write str) ∅ := by
  apply Owns.bind .get
  intro o
  apply Owns.ite _ (.raise _)
  apply Owns.bind (.set _)
  intro _
  apply Owns.ite (.ofExcept _)
  apply Owns.bind (noteSent_owns _ _ _)
  intro _
  apply Owns.bind .suspend
  intro _
  exact .ofExcept _

theorem sendBuffer_owns (buffer : Buffer) (store : Message → Buffer → Message)
    (isChunked : Bool) : Owns ∅ (sendBuffer buffer store isChunked) ∅ :=
  .bind (.ofExcept _) fun _ => .bind (.modify _) fun _ => write_owns _

theorem sendHeaders_owns : Owns ∅ (sendHeaders rt plus) ∅ :=
  .bind .get fun _ => .bind (.ofExcept _) fun _ => .bind (.modify _) fun _ => sendBuffer_owns _ _ _

theorem startStreaming_owns : Owns ∅ (startStreaming rt plus) ∅ :=
  .bind (.modify _) fun _ => sendHeaders_owns rt plus

theorem appendBody_owns (bodyPart : Option Bytes) : Owns ∅ (appendBody rt bodyPart) ∅ := by
  cases bodyPart with
  | none => exact .pure _
  | some bodyPart =>
    exact .bind (.modify _) fun _ => .bind .get fun _ => .ite (sendBuffer_owns _ _ _) (.pure _)

theorem writeFullBody_owns : Owns ∅ (writeFullBody rt plus) ∅ := by
  apply Owns.bind (.modify _)
  intro _
  apply Owns.bind (.modify _)
  intro _
  apply Owns.bind (sendHeaders_owns rt plus)
  intro _
  exact .bind .get fun _ => sendBuffer_owns _ _ _

theorem endStreaming_owns : Owns ∅ endStreaming ∅ :=
  .bind .get fun _ => .bind (sendBuffer_owns _ _ _) fun _ => write_owns _

theorem flush_owns : Owns ∅ (flush rt plus) ∅ :=
  .bind .get fun _ => .ite endStreaming_owns (writeFullBody_owns rt plus)

end Owning

end Luaw.Concurrent
