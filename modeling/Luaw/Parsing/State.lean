import Luaw.Http.Request

/-!
# The state of `http_parser`

The vendored parser of `http_parser.c`, in strict mode: its states, its character classes and the
questions that the rest of the code asks it. The counters are natural numbers here; what bounds
them below the widths of the fields of `struct http_parser` is proved of every run.
-/

namespace Luaw.Parsing

open Http

/-- `enum state`, in its order. -/
inductive State where
  | dead
  | startReqOrRes
  | resOrRespH
  | startRes
  | resH
  | resHT
  | resHTT
  | resHTTP
  | resFirstHttpMajor
  | resHttpMajor
  | resFirstHttpMinor
  | resHttpMinor
  | resFirstStatusCode
  | resStatusCode
  | resStatusStart
  | resStatus
  | resLineAlmostDone
  | startReq
  | reqMethod
  | reqSpacesBeforeUrl
  | reqSchema
  | reqSchemaSlash
  | reqSchemaSlashSlash
  | reqServerStart
  | reqServer
  | reqServerWithAt
  | reqPath
  | reqQueryStringStart
  | reqQueryString
  | reqFragmentStart
  | reqFragment
  | reqHttpStart
  | reqHttpH
  | reqHttpHT
  | reqHttpHTT
  | reqHttpHTTP
  | reqFirstHttpMajor
  | reqHttpMajor
  | reqFirstHttpMinor
  | reqHttpMinor
  | reqLineAlmostDone
  | headerFieldStart
  | headerField
  | headerValueStart
  | headerValue
  | headerValueLws
  | headerAlmostDone
  | chunkSizeStart
  | chunkSize
  | chunkParameters
  | chunkSizeAlmostDone
  | headersAlmostDone
  | headersDone
  | chunkData
  | chunkDataAlmostDone
  | chunkDataDone
  | bodyIdentity
  | bodyIdentityEof
  | messageDone
  deriving DecidableEq

/-- `PARSING_HEADER`: all states up to `s_headers_done`. -/
def State.parsingHeader : State → Bool
  | .chunkData | .chunkDataAlmostDone | .chunkDataDone | .bodyIdentity | .bodyIdentityEof
  | .messageDone => false
  | _ => true

inductive HeaderState where
  | general
  | C
  | CO
  | CON
  | matchingConnection
  | matchingProxyConnection
  | matchingContentLength
  | matchingTransferEncoding
  | matchingUpgrade
  | connection
  | contentLength
  | transferEncoding
  | upgrade
  | matchingTransferEncodingChunked
  | matchingConnectionKeepAlive
  | matchingConnectionClose
  | transferEncodingChunked
  | connectionKeepAlive
  | connectionClose
  deriving DecidableEq

/-- `enum http_method`. -/
inductive Method where
  | delete
  | get
  | head
  | post
  | put
  | connect
  | options
  | trace
  | copy
  | lock
  | mkcol
  | move
  | propfind
  | proppatch
  | search
  | unlock
  | report
  | mkactivity
  | checkout
  | merge
  | msearch
  | notify
  | subscribe
  | unsubscribe
  | patch
  | purge
  deriving DecidableEq

/-- `method_strings`, and `http_methods` of `luaw_http_parser.h`. -/
def Method.str : Method → Bytes
  | delete => text "DELETE"
  | get => text "GET"
  | head => text "HEAD"
  | post => text "POST"
  | put => text "PUT"
  | connect => text "CONNECT"
  | options => text "OPTIONS"
  | trace => text "TRACE"
  | copy => text "COPY"
  | lock => text "LOCK"
  | mkcol => text "MKCOL"
  | move => text "MOVE"
  | propfind => text "PROPFIND"
  | proppatch => text "PROPPATCH"
  | search => text "SEARCH"
  | unlock => text "UNLOCK"
  | report => text "REPORT"
  | mkactivity => text "MKACTIVITY"
  | checkout => text "CHECKOUT"
  | merge => text "MERGE"
  | msearch => text "M-SEARCH"
  | notify => text "NOTIFY"
  | subscribe => text "SUBSCRIBE"
  | unsubscribe => text "UNSUBSCRIBE"
  | patch => text "PATCH"
  | purge => text "PURGE"

/-- `enum http_parser_type`. -/
inductive ParserType where
  | request
  | response
  | both
  deriving DecidableEq

/-- `enum flags`. -/
structure Flags where
  chunked : Bool
  connectionKeepAlive : Bool
  connectionClose : Bool
  trailing : Bool
  upgrade : Bool
  skipBody : Bool
  deriving DecidableEq

def Flags.zero : Flags := ⟨false, false, false, false, false, false⟩

/-- `struct http_parser`. -/
structure Parser where
  type : ParserType
  flags : Flags
  state : State
  headerState : HeaderState
  index : Nat
  nread : Nat
  contentLength : Nat
  httpMajor : Nat
  httpMinor : Nat
  statusCode : Nat
  method : Method
  upgrade : Bool
  errno : Errno
  deriving DecidableEq

/-- The members of `enum http_errno` that the parser sets for itself. -/
inductive Hpe where
  | invalidEofState
  | headerOverflow
  | closedConnection
  | invalidVersion
  | invalidStatus
  | invalidMethod
  | invalidUrl
  | lfExpected
  | invalidHeaderToken
  | invalidContentLength
  | invalidChunkSize
  | invalidConstant
  | strict

def Hpe.code : Hpe → Nat
  | invalidEofState => 9
  | headerOverflow => 10
  | closedConnection => 11
  | invalidVersion => 12
  | invalidStatus => 13
  | invalidMethod => 14
  | invalidUrl => 15
  | lfExpected => 21
  | invalidHeaderToken => 22
  | invalidContentLength => 23
  | invalidChunkSize => 24
  | invalidConstant => 25
  | strict => 27

/-- `HTTP_MAX_HEADER_SIZE`. -/
def httpMaxHeaderSize : Nat := 80 * 1024

/-- `ULLONG_MAX`, which stands for a missing Content-Length. -/
def ullongMax : Nat := 2 ^ 64 - 1

section Characters

abbrev CR : UInt8 := 13

abbrev LF : UInt8 := 10

def lower (c : UInt8) : UInt8 := c ||| 32

def isAlpha (c : UInt8) : Bool := 97 ≤ lower c && lower c ≤ 122

def isNum (c : UInt8) : Bool := 48 ≤ c && c ≤ 57

def isAlphanum (c : UInt8) : Bool := isAlpha c || isNum c

def isHex (c : UInt8) : Bool := isNum c || (97 ≤ lower c && lower c ≤ 102)

def isMark (c : UInt8) : Bool := c ∈ text "-_.!~*'()"

def isUserinfoChar (c : UInt8) : Bool := isAlphanum c || isMark c || c ∈ text "%;:&=+$,"

def isHostChar (c : UInt8) : Bool := isAlphanum c || c = 46 || c = 45

/-- `TOKEN`: the lower case of a character of a token, and zero for any other. -/
def token (c : UInt8) : UInt8 :=
  if 65 ≤ c ∧ c ≤ 90 then c + 32
  else if 97 ≤ c ∧ c ≤ 122 ∨ isNum c ∨ c ∈ text "!#$%&'*+-.^_`|~" then c
  else 0

/-- `IS_URL_CHAR`: the visible characters other than `#` and `?`. -/
def isUrlChar (c : UInt8) : Bool := 33 ≤ c && c ≤ 126 && c ≠ 35 && c ≠ 63

/-- The table `unhex`. It has 256 entries but 128 initialisers, so that it is zero from 128 on. -/
def unhex (c : UInt8) : Option Nat :=
  if 128 ≤ c then some 0
  else if isNum c then some (c.toNat - 48)
  else if 65 ≤ c ∧ c ≤ 70 then some (c.toNat - 55)
  else if 97 ≤ c ∧ c ≤ 102 then some (c.toNat - 87)
  else none

/-- `ch - '0'`. -/
def digit (ch : UInt8) : Nat := ch.toNat - 48

end Characters

/-- One step of the automaton that validates URLs. -/
def parseUrlChar (s : State) (ch : UInt8) : State :=
  if ch = 32 ∨ ch = CR ∨ ch = LF then .dead
  else if ch = 9 ∨ ch = 12 then .dead
  else
    match s with
    | .reqSpacesBeforeUrl =>
      if ch = 47 ∨ ch = 42 then .reqPath
      else if isAlpha ch then .reqSchema
      else .dead
    | .reqSchema =>
      if isAlpha ch then s
      else if ch = 58 then .reqSchemaSlash
      else .dead
    | .reqSchemaSlash => if ch = 47 then .reqSchemaSlashSlash else .dead
    | .reqSchemaSlashSlash => if ch = 47 then .reqServerStart else .dead
    | .reqServerStart | .reqServer | .reqServerWithAt =>
      if s = .reqServerWithAt ∧ ch = 64 then .dead
      else if ch = 47 then .reqPath
      else if ch = 63 then .reqQueryStringStart
      else if ch = 64 then .reqServerWithAt
      else if isUserinfoChar ch ∨ ch = 91 ∨ ch = 93 then .reqServer
      else .dead
    | .reqPath =>
      if isUrlChar ch then s
      else if ch = 63 then .reqQueryStringStart
      else if ch = 35 then .reqFragmentStart
      else .dead
    | .reqQueryStringStart | .reqQueryString =>
      if isUrlChar ch then .reqQueryString
      else if ch = 63 then .reqQueryString
      else if ch = 35 then .reqFragmentStart
      else .dead
    | .reqFragmentStart =>
      if isUrlChar ch then .reqFragment
      else if ch = 63 then .reqFragment
      else if ch = 35 then s
      else .dead
    | .reqFragment => if isUrlChar ch ∨ ch = 63 ∨ ch = 35 then s else .dead
    | _ => .dead

namespace Parser

variable (p : Parser)

def httpMessageNeedsEof : Bool :=
  if p.type = .request then false
  else if p.statusCode / 100 = 1 ∨ p.statusCode = 204 ∨ p.statusCode = 304 ∨ p.flags.skipBody then
    false
  else if p.flags.chunked ∨ p.contentLength ≠ ullongMax then false
  else true

def httpShouldKeepAlive : Bool :=
  if 0 < p.httpMajor ∧ 0 < p.httpMinor then
    if p.flags.connectionClose then false else !p.httpMessageNeedsEof
  else if !p.flags.connectionKeepAlive then false
  else !p.httpMessageNeedsEof

/-- `start_state`. -/
def startState : State := if p.type = .request then .startReq else .startRes

/-- `NEW_MESSAGE`. -/
def newMessage : State := if p.httpShouldKeepAlive then p.startState else .dead

/-- `http_parser_pause`; nothing when its assertion fails. -/
def httpParserPause (paused : Bool) : Option Parser :=
  match p.errno with
  | .ok | .paused => some { p with errno := if paused then .paused else .ok }
  | .failed _ => none

end Parser

def httpParserInit (t : ParserType) : Parser where
  type := t
  flags := .zero
  state := match t with
    | .request => .startReq
    | .response => .startRes
    | .both => .startReqOrRes
  headerState := .general
  index := 0
  nread := 0
  contentLength := 0
  httpMajor := 0
  httpMinor := 0
  statusCode := 0
  method := .delete
  upgrade := false
  errno := .ok

end Luaw.Parsing
