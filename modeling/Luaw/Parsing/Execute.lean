import Luaw.Parsing.State

/-!
# `http_parser_execute` and `parse_http`

One function for each state of the `switch`, the loop over the data, and the Lua method around
them. Each callback of `luaw_http_parser.c` pauses the parser, so that a call of
`http_parser_execute` returns from the first one.
-/

namespace Luaw.Parsing

open Http

/-- The data callbacks. -/
inductive Field where
  | status
  | url
  | headerField
  | headerValue
  | body
  deriving DecidableEq

/-- The other callbacks. -/
inductive Notice where
  | messageBegin
  | headersComplete
  | messageComplete
  deriving DecidableEq

/-- How the code for a byte leaves the `switch`. -/
inductive Action where
  /-- `break` -/
  | next (p : Parser)
  /-- `MARK(f)`, then `break` -/
  | mark (f : Field) (p : Parser)
  /-- `CALLBACK_DATA(f)`, then `break` -/
  | data (f : Field) (p : Parser)
  /-- `MARK(f)` and `CALLBACK_DATA(f)`, then `break` -/
  | markData (f : Field) (p : Parser)
  /-- `CALLBACK_DATA_NOADVANCE(f)`, then what reexecuting the byte leads to -/
  | dataStay (f : Field) (p : Parser) (reexecuted : Action)
  /-- `CALLBACK_NOTIFY` -/
  | notify (n : Notice) (p : Parser)
  /-- the callback for complete headers, which does not consume the byte -/
  | notifyStay (n : Notice) (p : Parser)
  /-- `MARK(body)` and `p += toRead - 1`, then `break` -/
  | take (toRead : Nat) (p : Parser)
  /-- `MARK(body)` and `p += toRead - 1`, then the callback with the last byte included but not
  consumed -/
  | takeLast (toRead : Nat) (p : Parser)
  /-- `goto error` -/
  | error (e : Hpe) (p : Parser)
  /-- a failed assertion, or a read past the end of a string -/
  | abort

section States

variable (p : Parser) (ch : UInt8)

def dead : Action := if ch = CR ∨ ch = LF then .next p else .error .closedConnection p

/-- What a state does that looks at a message anew. -/
def Parser.clear : Parser := { p with flags := .zero, contentLength := ullongMax }

/-- `STRICT_CHECK(ch != c)`. -/
def expect (c : UInt8) (s : State) : Action :=
  if ch ≠ c then .error .strict p else .next { p with state := s }

/-- The first digit of a version number, from `low` on. -/
def firstVersionDigit (low : UInt8) (q : Parser) : Action :=
  if ch < low ∨ 57 < ch then .error .invalidVersion p else .next q

/-- A further digit of a version number, with which the number is `n`. -/
def versionDigit (n : Nat) (q : Parser) : Action :=
  if !isNum ch then .error .invalidVersion p
  else if 999 < n then .error .invalidVersion q
  else .next q

def resOrRespH : Action :=
  if ch = 84 then .next { p with type := .response, state := .resHT }
  else if ch ≠ 69 then .error .invalidConstant p
  else .next { p with type := .request, method := .head, index := 2, state := .reqMethod }

def startRes : Action :=
  if ch = 72 then .notify .messageBegin { p.clear with state := .resH }
  else if ch = CR ∨ ch = LF then .notify .messageBegin p.clear
  else .error .invalidConstant p.clear

def resH : Action := expect p ch 84 .resHT

def resHT : Action := expect p ch 84 .resHTT

def resHTT : Action := expect p ch 80 .resHTTP

def resHTTP : Action := expect p ch 47 .resFirstHttpMajor

def resFirstHttpMajor : Action :=
  firstVersionDigit p ch 48 { p with httpMajor := digit ch, state := .resHttpMajor }

def resHttpMajor : Action :=
  if ch = 46 then .next { p with state := .resFirstHttpMinor }
  else
    let n := p.httpMajor * 10 + digit ch
    versionDigit p ch n { p with httpMajor := n }

def resFirstHttpMinor : Action :=
  firstVersionDigit p ch 48 { p with httpMinor := digit ch, state := .resHttpMinor }

def resHttpMinor : Action :=
  if ch = 32 then .next { p with state := .resFirstStatusCode }
  else
    let n := p.httpMinor * 10 + digit ch
    versionDigit p ch n { p with httpMinor := n }

def resFirstStatusCode : Action :=
  if !isNum ch then if ch = 32 then .next p else .error .invalidStatus p
  else .next { p with statusCode := digit ch, state := .resStatusCode }

def resStatusCode : Action :=
  if !isNum ch then
    if ch = 32 then .next { p with state := .resStatusStart }
    else if ch = CR then .next { p with state := .resLineAlmostDone }
    else if ch = LF then .next { p with state := .headerFieldStart }
    else .error .invalidStatus p
  else
    let n := p.statusCode * 10 + digit ch
    if 999 < n then .error .invalidStatus { p with statusCode := n }
    else .next { p with statusCode := n }

def resStatusStart : Action :=
  if ch = CR then .next { p with state := .resLineAlmostDone }
  else if ch = LF then .next { p with state := .headerFieldStart }
  else .mark .status { p with state := .resStatus, index := 0 }

def resStatus : Action :=
  if ch = CR then .data .status { p with state := .resLineAlmostDone }
  else if ch = LF then .data .status { p with state := .headerFieldStart }
  else .next p

def resLineAlmostDone : Action := expect p ch LF .headerFieldStart

/-- The method that a first letter is taken for. -/
def Method.ofFirst (ch : UInt8) : Option Method :=
  if ch = 67 then some .connect
  else if ch = 68 then some .delete
  else if ch = 71 then some .get
  else if ch = 72 then some .head
  else if ch = 76 then some .lock
  else if ch = 77 then some .mkcol
  else if ch = 78 then some .notify
  else if ch = 79 then some .options
  else if ch = 80 then some .post
  else if ch = 82 then some .report
  else if ch = 83 then some .subscribe
  else if ch = 84 then some .trace
  else if ch = 85 then some .unlock
  else none

def startReq : Action :=
  if ch = CR ∨ ch = LF then .next p
  else if !isAlpha ch then .error .invalidMethod p.clear
  else
    match Method.ofFirst ch with
    | none => .error .invalidMethod { p.clear with method := .delete, index := 1 }
    | some m => .notify .messageBegin { p.clear with method := m, index := 1, state := .reqMethod }

def startReqOrRes : Action :=
  if ch = CR ∨ ch = LF then .next p
  else if ch = 72 then .notify .messageBegin { p.clear with state := .resOrRespH }
  else startReq { p.clear with type := .request, state := .startReq } ch

/-- The method that a letter turns the one assumed so far into, when it is not the next letter of
that one. -/
def Method.switch (m : Method) (index : Nat) (ch : UInt8) : Option Method :=
  match m with
  | .connect =>
    if index = 1 ∧ ch = 72 then some .checkout
    else if index = 2 ∧ ch = 80 then some .copy
    else none
  | .mkcol =>
    if index = 1 ∧ ch = 79 then some .move
    else if index = 1 ∧ ch = 69 then some .merge
    else if index = 1 ∧ ch = 45 then some .msearch
    else if index = 2 ∧ ch = 65 then some .mkactivity
    else none
  | .subscribe => if index = 1 ∧ ch = 69 then some .search else none
  | .post =>
    if index = 1 ∧ ch = 82 then some .propfind
    else if index = 1 ∧ ch = 85 then some .put
    else if index = 1 ∧ ch = 65 then some .patch
    else none
  | .put => if index = 2 ∧ ch = 82 then some .purge else none
  | .unlock => if index = 2 ∧ ch = 83 then some .unsubscribe else none
  | .propfind => if index = 4 ∧ ch = 80 then some .proppatch else none
  | _ => none

/-- A character of a C string, with the zero at its end. -/
def charAt (s : Bytes) (index : Nat) : Option UInt8 := (s ++ [0])[index]?

def reqMethod : Action :=
  if ch = 0 then .error .invalidMethod p
  else
    match charAt p.method.str p.index with
    | none => .abort
    | some c =>
      if ch = 32 ∧ c = 0 then
        .next { p with state := .reqSpacesBeforeUrl, index := p.index + 1 }
      else if ch = c then .next { p with index := p.index + 1 }
      else
        match p.method.switch p.index ch with
        | some m => .next { p with method := m, index := p.index + 1 }
        | none => .error .invalidMethod p

def reqSpacesBeforeUrl : Action :=
  if ch = 32 then .next p
  else
    let s := if p.method = .connect then .reqServerStart else .reqSpacesBeforeUrl
    let p := { p with state := parseUrlChar s ch }
    if p.state = .dead then .error .invalidUrl p else .mark .url p

/-- A character inside a URL. -/
def urlChar : Action :=
  let p := { p with state := parseUrlChar p.state ch }
  if p.state = .dead then .error .invalidUrl p else .next p

/-- `s_req_schema`, `s_req_schema_slash`, `s_req_schema_slash_slash`, `s_req_server_start`. -/
def reqSchema : Action :=
  if ch = 32 ∨ ch = CR ∨ ch = LF then .error .invalidUrl p else urlChar p ch

/-- The states of a URL in which it may end. -/
def reqServer : Action :=
  if ch = 32 then .data .url { p with state := .reqHttpStart }
  else if ch = CR ∨ ch = LF then
    .data .url { p with
      httpMajor := 0
      httpMinor := 9
      state := if ch = CR then .reqLineAlmostDone else .headerFieldStart }
  else urlChar p ch

def reqHttpStart : Action :=
  if ch = 72 then .next { p with state := .reqHttpH }
  else if ch = 32 then .next p
  else .error .invalidConstant p

def reqHttpH : Action := expect p ch 84 .reqHttpHT

def reqHttpHT : Action := expect p ch 84 .reqHttpHTT

def reqHttpHTT : Action := expect p ch 80 .reqHttpHTTP

def reqHttpHTTP : Action := expect p ch 47 .reqFirstHttpMajor

def reqFirstHttpMajor : Action :=
  firstVersionDigit p ch 49 { p with httpMajor := digit ch, state := .reqHttpMajor }

def reqHttpMajor : Action :=
  if ch = 46 then .next { p with state := .reqFirstHttpMinor }
  else
    let n := p.httpMajor * 10 + digit ch
    versionDigit p ch n { p with httpMajor := n }

def reqFirstHttpMinor : Action :=
  firstVersionDigit p ch 48 { p with httpMinor := digit ch, state := .reqHttpMinor }

def reqHttpMinor : Action :=
  if ch = CR then .next { p with state := .reqLineAlmostDone }
  else if ch = LF then .next { p with state := .headerFieldStart }
  else
    let n := p.httpMinor * 10 + digit ch
    versionDigit p ch n { p with httpMinor := n }

def reqLineAlmostDone : Action :=
  if ch ≠ LF then .error .lfExpected p else .next { p with state := .headerFieldStart }

def headersAlmostDone : Action :=
  if ch ≠ LF then .error .strict p
  else if p.flags.trailing then .notify .messageComplete { p with state := p.newMessage }
  else .notifyStay .headersComplete { p with
    state := .headersDone
    upgrade := p.flags.upgrade || p.method = .connect }

/-- The word that a header name starting with the letter `c` is compared with. -/
def HeaderState.ofFirst (c : UInt8) : HeaderState :=
  if c = 99 then .C
  else if c = 112 then .matchingProxyConnection
  else if c = 116 then .matchingTransferEncoding
  else if c = 117 then .matchingUpgrade
  else .general

def headerFieldStart : Action :=
  if ch = CR then .next { p with state := .headersAlmostDone }
  else if ch = LF then headersAlmostDone { p with state := .headersAlmostDone } ch
  else if token ch = 0 then .error .invalidHeaderToken p
  else .mark .headerField { p with
    index := 0, state := .headerField, headerState := .ofFirst (token ch) }

/-- The next letter of a word that the header is compared with. -/
def Parser.matchWord (word : Bytes) (matched : HeaderState) (c : UInt8) : Parser :=
  let p := { p with index := p.index + 1 }
  if word.length < p.index ∨ charAt word p.index ≠ some c then { p with headerState := .general }
  else if p.index + 1 = word.length then { p with headerState := matched }
  else p

/-- A letter of a header name. -/
def nameLetter : Action :=
  let c := token ch
  match p.headerState with
  | .general => .next p
  | .C => .next { p with index := p.index + 1, headerState := if c = 111 then .CO else .general }
  | .CO => .next { p with index := p.index + 1, headerState := if c = 110 then .CON else .general }
  | .CON => .next { p with
      index := p.index + 1
      headerState :=
        if c = 110 then .matchingConnection
        else if c = 116 then .matchingContentLength
        else .general }
  | .matchingConnection => .next (p.matchWord (text "connection") .connection c)
  | .matchingProxyConnection => .next (p.matchWord (text "proxy-connection") .connection c)
  | .matchingContentLength => .next (p.matchWord (text "content-length") .contentLength c)
  | .matchingTransferEncoding => .next (p.matchWord (text "transfer-encoding") .transferEncoding c)
  | .matchingUpgrade => .next (p.matchWord (text "upgrade") .upgrade c)
  | .connection | .contentLength | .transferEncoding | .upgrade =>
    .next (if ch ≠ 32 then { p with headerState := .general } else p)
  | _ => .abort

def headerField : Action :=
  if token ch ≠ 0 then nameLetter p ch
  else if ch = 58 then .data .headerField { p with state := .headerValueStart }
  else if ch = CR then .data .headerField { p with state := .headerAlmostDone }
  else if ch = LF then .data .headerField { p with state := .headerFieldStart }
  else .error .invalidHeaderToken p

/-- The first letter of a header value. -/
def firstValueLetter : Action :=
  let c := lower ch
  match p.headerState with
  | .upgrade =>
    .mark .headerValue { p with flags.upgrade := true, headerState := .general }
  | .transferEncoding =>
    .mark .headerValue { p with
      headerState := if c = 99 then .matchingTransferEncodingChunked else .general }
  | .contentLength =>
    if !isNum ch then .error .invalidContentLength p
    else .mark .headerValue { p with contentLength := digit ch }
  | .connection =>
    .mark .headerValue { p with
      headerState :=
        if c = 107 then .matchingConnectionKeepAlive
        else if c = 99 then .matchingConnectionClose
        else .general }
  | _ => .mark .headerValue { p with headerState := .general }

def headerValueStart : Action :=
  if ch = 32 ∨ ch = 9 then .next p
  else
    let p := { p with state := .headerValue, index := 0 }
    if ch = CR then
      .markData .headerValue { p with headerState := .general, state := .headerAlmostDone }
    else if ch = LF then .markData .headerValue { p with state := .headerFieldStart }
    else firstValueLetter p ch

def headerAlmostDone : Action :=
  if ch ≠ LF then .error .strict p
  else
    let p := { p with state := .headerValueLws }
    match p.headerState with
    | .connectionKeepAlive => .next { p with flags.connectionKeepAlive := true }
    | .connectionClose => .next { p with flags.connectionClose := true }
    | .transferEncodingChunked => .next { p with flags.chunked := true }
    | _ => .next p

/-- A further letter of a header value. -/
def valueLetter : Action :=
  let c := lower ch
  match p.headerState with
  | .general => .next p
  | .connection | .transferEncoding => .abort
  | .contentLength =>
    if ch = 32 then .next p
    else if !isNum ch then .error .invalidContentLength p
    else if (ullongMax - 10) / 10 < p.contentLength then .error .invalidContentLength p
    else .next { p with contentLength := p.contentLength * 10 + digit ch }
  | .matchingTransferEncodingChunked =>
    .next (p.matchWord (text "chunked") .transferEncodingChunked c)
  | .matchingConnectionKeepAlive => .next (p.matchWord (text "keep-alive") .connectionKeepAlive c)
  | .matchingConnectionClose => .next (p.matchWord (text "close") .connectionClose c)
  | .transferEncodingChunked | .connectionKeepAlive | .connectionClose =>
    .next (if ch ≠ 32 then { p with headerState := .general } else p)
  | _ => .next { p with state := .headerValue, headerState := .general }

def headerValue : Action :=
  if ch = CR then .data .headerValue { p with state := .headerAlmostDone }
  else if ch = LF then
    let p := { p with state := .headerAlmostDone }
    .dataStay .headerValue p (headerAlmostDone p ch)
  else valueLetter p ch

def headerValueLws : Action :=
  if ch = 32 ∨ ch = 9 then .next { p with state := .headerValueStart }
  else headerFieldStart { p with state := .headerFieldStart } ch

def headersDone : Action :=
  if ch ≠ LF then .error .strict p
  else
    let p := { p with nread := 0 }
    let complete := Action.notify .messageComplete { p with state := p.newMessage }
    if p.upgrade then complete
    else if p.flags.skipBody then complete
    else if p.flags.chunked then .next { p with state := .chunkSizeStart }
    else if p.contentLength = 0 then complete
    else if p.contentLength ≠ ullongMax then .next { p with state := .bodyIdentity }
    else if p.type = .request ∨ !p.httpMessageNeedsEof then complete
    else .next { p with state := .bodyIdentityEof }

def bodyIdentity (remaining : Nat) : Action :=
  let toRead := min p.contentLength remaining
  if p.contentLength = 0 ∨ p.contentLength = ullongMax then .abort
  else
    let p := { p with contentLength := p.contentLength - toRead }
    if p.contentLength = 0 then .takeLast toRead { p with state := .messageDone }
    else .take toRead p

def messageDone : Action := .notify .messageComplete { p with state := p.newMessage }

def chunkSizeStart : Action :=
  if p.nread ≠ 1 ∨ !p.flags.chunked then .abort
  else
    match unhex ch with
    | none => .error .invalidChunkSize p
    | some v => .next { p with contentLength := v, state := .chunkSize }

def chunkSize : Action :=
  if !p.flags.chunked then .abort
  else if ch = CR then .next { p with state := .chunkSizeAlmostDone }
  else
    match unhex ch with
    | none =>
      if ch = 59 ∨ ch = 32 then .next { p with state := .chunkParameters }
      else .error .invalidChunkSize p
    | some v =>
      if (ullongMax - 16) / 16 < p.contentLength then .error .invalidContentLength p
      else .next { p with contentLength := p.contentLength * 16 + v }

def chunkParameters : Action :=
  if !p.flags.chunked then .abort
  else if ch = CR then .next { p with state := .chunkSizeAlmostDone }
  else .next p

def chunkSizeAlmostDone : Action :=
  if !p.flags.chunked then .abort
  else if ch ≠ LF then .error .strict p
  else
    let p := { p with nread := 0 }
    if p.contentLength = 0 then
      .next { p with flags.trailing := true, state := .headerFieldStart }
    else .next { p with state := .chunkData }

def chunkData (remaining : Nat) : Action :=
  let toRead := min p.contentLength remaining
  if !p.flags.chunked ∨ p.contentLength = 0 ∨ p.contentLength = ullongMax then .abort
  else
    let p := { p with contentLength := p.contentLength - toRead }
    if p.contentLength = 0 then .take toRead { p with state := .chunkDataAlmostDone }
    else .take toRead p

def chunkDataAlmostDone : Action :=
  if !p.flags.chunked ∨ p.contentLength ≠ 0 then .abort
  else if ch ≠ CR then .error .strict p
  else .data .body { p with state := .chunkDataDone }

def chunkDataDone : Action :=
  if !p.flags.chunked then .abort
  else if ch ≠ LF then .error .strict p
  else .next { p with nread := 0, state := .chunkSizeStart }

/-- The `switch`, for a byte with which `remaining` bytes are left of the data. -/
def byte (remaining : Nat) : Action :=
  match p.state with
  | .dead => dead p ch
  | .startReqOrRes => startReqOrRes p ch
  | .resOrRespH => resOrRespH p ch
  | .startRes => startRes p ch
  | .resH => resH p ch
  | .resHT => resHT p ch
  | .resHTT => resHTT p ch
  | .resHTTP => resHTTP p ch
  | .resFirstHttpMajor => resFirstHttpMajor p ch
  | .resHttpMajor => resHttpMajor p ch
  | .resFirstHttpMinor => resFirstHttpMinor p ch
  | .resHttpMinor => resHttpMinor p ch
  | .resFirstStatusCode => resFirstStatusCode p ch
  | .resStatusCode => resStatusCode p ch
  | .resStatusStart => resStatusStart p ch
  | .resStatus => resStatus p ch
  | .resLineAlmostDone => resLineAlmostDone p ch
  | .startReq => startReq p ch
  | .reqMethod => reqMethod p ch
  | .reqSpacesBeforeUrl => reqSpacesBeforeUrl p ch
  | .reqSchema | .reqSchemaSlash | .reqSchemaSlashSlash | .reqServerStart => reqSchema p ch
  | .reqServer | .reqServerWithAt | .reqPath | .reqQueryStringStart | .reqQueryString
  | .reqFragmentStart | .reqFragment => reqServer p ch
  | .reqHttpStart => reqHttpStart p ch
  | .reqHttpH => reqHttpH p ch
  | .reqHttpHT => reqHttpHT p ch
  | .reqHttpHTT => reqHttpHTT p ch
  | .reqHttpHTTP => reqHttpHTTP p ch
  | .reqFirstHttpMajor => reqFirstHttpMajor p ch
  | .reqHttpMajor => reqHttpMajor p ch
  | .reqFirstHttpMinor => reqFirstHttpMinor p ch
  | .reqHttpMinor => reqHttpMinor p ch
  | .reqLineAlmostDone => reqLineAlmostDone p ch
  | .headerFieldStart => headerFieldStart p ch
  | .headerField => headerField p ch
  | .headerValueStart => headerValueStart p ch
  | .headerValue => headerValue p ch
  | .headerValueLws => headerValueLws p ch
  | .headerAlmostDone => headerAlmostDone p ch
  | .chunkSizeStart => chunkSizeStart p ch
  | .chunkSize => chunkSize p ch
  | .chunkParameters => chunkParameters p ch
  | .chunkSizeAlmostDone => chunkSizeAlmostDone p ch
  | .headersAlmostDone => headersAlmostDone p ch
  | .headersDone => headersDone p ch
  | .chunkData => chunkData p remaining
  | .chunkDataAlmostDone => chunkDataAlmostDone p ch
  | .chunkDataDone => chunkDataDone p ch
  | .bodyIdentity => bodyIdentity p remaining
  | .bodyIdentityEof => .take remaining p
  | .messageDone => messageDone p

end States

/-- The callback that has been called: `http_cb`, `start` and `len` of `luaw_http_parser_t`. -/
inductive Callback where
  | notice (n : Notice)
  | data (f : Field) (chunk : Bytes)
  deriving DecidableEq

/-- The parser after a call of `http_parser_execute`, and what the call returns. -/
structure Returned where
  parser : Parser
  nparsed : Nat
  called : Option Callback
  deriving DecidableEq

/-- `header_field_mark`, `header_value_mark`, `url_mark`, `body_mark` and `status_mark`. -/
abbrev Marks := Field → Option Nat

/-- `MARK`. -/
def Marks.mark (marks : Marks) (f : Field) (pos : Nat) : Marks :=
  fun g => if g = f then (marks f).or (some pos) else marks g

/-- How the loop goes on after a byte. -/
inductive Turn where
  | on (p : Parser) (marks : Marks) (skip : Nat)
  | back (r : Returned)
  | abort

/-- A callback, `handle_http_callback`. It has paused the parser, so that the call returns. -/
def call (p : Parser) (cb : Callback) (nparsed : Nat) : Turn :=
  if p.errno = .ok then
    match p.httpParserPause true with
    | some p => .back ⟨p, nparsed, some cb⟩
    | none => .abort
  else .abort

/-- The bytes from `start` up to `stop`. -/
def slice (data : Bytes) (start stop : Nat) : Bytes := (data.drop start).take (stop - start)

/-- `CALLBACK_DATA_`, which goes on when the mark is not set. -/
def callData (data : Bytes) (marks : Marks) (f : Field) (p : Parser) (stop nparsed : Nat)
    (unmarked : Turn) : Turn :=
  match marks f with
  | some start => call p (.data f (slice data start stop)) nparsed
  | none => if p.errno = .ok then unmarked else .abort

/-- What comes of the byte at `pos`. -/
def perform (data : Bytes) (marks : Marks) (pos : Nat) : Action → Turn
  | .next p => .on p marks 0
  | .mark f p => .on p (marks.mark f pos) 0
  | .data f p => callData data marks f p pos (pos + 1) (.on p marks 0)
  | .markData f p => callData data (marks.mark f pos) f p pos (pos + 1) (.on p marks 0)
  | .dataStay f p reexecuted => callData data marks f p pos pos (perform data marks pos reexecuted)
  | .notify n p => call p (.notice n) (pos + 1)
  | .notifyStay n p => call p (.notice n) pos
  | .take toRead p => .on p (marks.mark .body pos) (toRead - 1)
  | .takeLast toRead p =>
    callData data (marks.mark .body pos) .body p (pos + toRead) (pos + toRead - 1) .abort
  | .error e p => .back ⟨{ p with errno := .failed e.code }, pos, none⟩
  | .abort => .abort

/-- `++parser->nread`. -/
def Parser.countByte (p : Parser) : Parser :=
  if p.state.parsingHeader then { p with nread := p.nread + 1 } else p

/-- The byte is one too many for a header. -/
def Parser.Overflows (p : Parser) : Prop :=
  p.state.parsingHeader ∧ httpMaxHeaderSize < p.countByte.nread

instance (p : Parser) : Decidable p.Overflows := inferInstanceAs (Decidable (_ ∧ _))

/-- The callbacks for the marks that are left when the data is at its end, in their order. -/
def leftover (data : Bytes) (p : Parser) (marks : Marks) : Turn :=
  let set := [Field.headerField, .headerValue, .url, .body, .status].filter fun f =>
    (marks f).isSome
  if 1 < set.length then .abort
  else
    match set with
    | f :: _ => callData data marks f p data.length data.length .abort
    | [] => if p.errno = .ok then .back ⟨p, data.length, none⟩ else .abort

def Turn.returned : Turn → Option Returned
  | .back r => some r
  | .on _ _ _ | .abort => none

/-- The loop over the data, at `pos` with the next `skip` bytes to be passed over. -/
def loop (data : Bytes) (p : Parser) (marks : Marks) (pos skip : Nat) :
    Bytes → Option Returned
  | [] => (leftover data p marks).returned
  | ch :: rest =>
    match skip with
    | skip + 1 => loop data p marks (pos + 1) skip rest
    | 0 =>
      if p.Overflows then
        some ⟨{ p.countByte with errno := .failed Hpe.headerOverflow.code }, pos, none⟩
      else
        match perform data marks pos (byte p.countByte ch (rest.length + 1)) with
        | .on p marks skip => loop data p marks (pos + 1) skip rest
        | .back r => some r
        | .abort => none

/-- The field that the parser is in the middle of, in a state in which a call may start. -/
def State.field : State → Option Field
  | .headerField => some .headerField
  | .headerValue => some .headerValue
  | .reqPath | .reqSchema | .reqSchemaSlash | .reqSchemaSlashSlash | .reqServerStart | .reqServer
  | .reqServerWithAt | .reqQueryStringStart | .reqQueryString | .reqFragmentStart
  | .reqFragment => some .url
  | .resStatus => some .status
  | _ => none

/-- The marks, when the field that the state is in the middle of starts at `pos`. -/
def State.marks (s : State) (pos : Nat) : Marks := fun f => if s.field = some f then some pos else none

/-- A call without data, which stands for the end of the connection. -/
def executeEof (p : Parser) : Option Returned :=
  match p.state with
  | .bodyIdentityEof => (call p (.notice .messageComplete) 0).returned
  | .dead | .startReqOrRes | .startRes | .startReq => some ⟨p, 0, none⟩
  | _ => some ⟨{ p with errno := .failed Hpe.invalidEofState.code }, 1, none⟩

/-- `http_parser_execute`; nothing when an assertion fails. -/
def httpParserExecute (p : Parser) (data : Bytes) : Option Returned :=
  if p.errno ≠ .ok then some ⟨p, 0, none⟩
  else if data = [] then executeEof p
  else loop data p (p.state.marks 0) 0 0 data

def Field.event : Field → Bytes → Event
  | .status => .status
  | .url => .url
  | .headerField => .headerField
  | .headerValue => .headerValue
  | .body => .body

/-- What `parse_http` returns for a callback. -/
def Parser.event (p : Parser) : Callback → Event
  | .notice .messageBegin => .messageBegin
  | .notice .headersComplete =>
    .headersComplete p.httpShouldKeepAlive p.httpMajor p.httpMinor
      (if p.type = .request then some p.method.str else none)
      (if p.type = .response then some p.statusCode else none)
  | .notice .messageComplete => .messageComplete p.httpShouldKeepAlive
  | .data f chunk => f.event chunk

/-- `parse_http` on the content from the offset on. The parser is not un-paused when an error is
reported. -/
def parseHttp (p : Parser) (buf : Bytes) : Option (Execution Parser) :=
  (httpParserExecute p buf).bind fun r =>
    if r.nparsed < buf.length ∧ r.parser.errno ≠ .paused then
      some ⟨r.parser, r.nparsed, r.parser.errno, none⟩
    else
      (r.parser.httpParserPause false).map fun p =>
        ⟨p, r.nparsed, r.parser.errno, r.called.map r.parser.event⟩

end Luaw.Parsing
