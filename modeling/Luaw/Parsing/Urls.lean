import Luaw.Http.Request
import Luaw.Parsing.State
import Mathlib.Logic.Function.Basic

/-!
# `http_parser_parse_url`

The URL is gone through with the automaton that has validated it, and what belongs to one part of it
is counted as a field. The offsets and the lengths of the fields are 16-bit numbers.
-/

namespace Luaw.Parsing

open Http Lua

/-- `enum http_parser_url_fields`. -/
inductive UrlField where
  | schema
  | host
  | port
  | path
  | query
  | fragment
  | userinfo
  deriving DecidableEq

def UrlField.all : List UrlField := [.schema, .host, .port, .path, .query, .fragment, .userinfo]

/-- `field_data`. -/
structure UrlSlice where
  off : UInt16
  len : UInt16
  deriving DecidableEq

/-- `struct http_parser_url`; the data of a field that is not in `field_set` is not initialised. -/
structure HttpParserUrl where
  field : UrlField → Option UrlSlice
  port : Nat

namespace HttpParserUrl

def empty : HttpParserUrl := ⟨fun _ => none, 0⟩

def set (u : HttpParserUrl) (f : UrlField) (d : UrlSlice) : HttpParserUrl :=
  { u with field := Function.update u.field f (some d) }

/-- A field that starts at `i`. -/
def enter (u : HttpParserUrl) (f : UrlField) (i : Nat) : HttpParserUrl := u.set f ⟨i.toUInt16, 1⟩

/-- `field_data[f].len++`. -/
def extend (u : HttpParserUrl) (f : UrlField) : HttpParserUrl :=
  match u.field f with
  | none => u
  | some d => u.set f { d with len := d.len + 1 }

end HttpParserUrl

/-- What the switch over the states of the automaton makes of a state. -/
inductive UrlPart where
  | dead
  | delimiter
  | field (f : UrlField)
  deriving DecidableEq

def State.urlPart : State → UrlPart
  | .reqSchemaSlash | .reqSchemaSlashSlash | .reqServerStart | .reqQueryStringStart
  | .reqFragmentStart => .delimiter
  | .reqSchema => .field .schema
  | .reqServerWithAt | .reqServer => .field .host
  | .reqPath => .field .path
  | .reqQueryString => .field .query
  | .reqFragment => .field .fragment
  | _ => .dead

/-- The variables of the loop over a URL. -/
structure Splitting where
  s : State
  oldUf : Option UrlField
  foundAt : Bool
  url : HttpParserUrl

/-- The byte at `i`, unless the URL is refused. -/
def urlByte (i : Nat) (x : Splitting) (ch : UInt8) : Option Splitting :=
  let s := parseUrlChar x.s ch
  match s.urlPart with
  | .dead => none
  | .delimiter => some { x with s }
  | .field uf =>
    some {
      s
      oldUf := some uf
      foundAt := x.foundAt || s = .reqServerWithAt
      url := if x.oldUf = some uf then x.url.extend uf else x.url.enter uf i }

def urlLoop (i : Nat) (x : Splitting) : Bytes → Option Splitting
  | [] => some x
  | ch :: rest => (urlByte i x ch).bind fun x => urlLoop (i + 1) x rest

/-- `enum http_host_state`. -/
inductive HostState where
  | dead
  | userinfoStart
  | userinfo
  | hostStart
  | hostV6Start
  | host
  | hostV6
  | hostV6End
  | hostPortStart
  | hostPort
  deriving DecidableEq

def httpParseHostChar (s : HostState) (ch : UInt8) : HostState :=
  match s with
  | .userinfo | .userinfoStart =>
    if ch = 64 then .hostStart
    else if isUserinfoChar ch then .userinfo
    else .dead
  | .hostStart =>
    if ch = 91 then .hostV6Start
    else if isHostChar ch then .host
    else .dead
  | .host => if isHostChar ch then .host else if ch = 58 then .hostPortStart else .dead
  | .hostV6End => if ch = 58 then .hostPortStart else .dead
  | .hostV6 =>
    if ch = 93 then .hostV6End
    else if isHex ch ∨ ch = 58 ∨ ch = 46 then .hostV6
    else .dead
  | .hostV6Start => if isHex ch ∨ ch = 58 ∨ ch = 46 then .hostV6 else .dead
  | .hostPort | .hostPortStart => if isNum ch then .hostPort else .dead
  | .dead => .dead

/-- The variables of the loop over a host. -/
structure HostSplitting where
  s : HostState
  url : HttpParserUrl

/-- The length of the host is counted from zero, and it starts where its state is entered. -/
def HttpParserUrl.extendHost (u : HttpParserUrl) (i : Nat) (entered : Bool) : HttpParserUrl :=
  match u.field .host with
  | none => u
  | some d => u.set .host ⟨if entered then i.toUInt16 else d.off, d.len + 1⟩

def hostByte (i : Nat) (x : HostSplitting) (ch : UInt8) : Option HostSplitting :=
  let s := httpParseHostChar x.s ch
  match s with
  | .dead => none
  | .host | .hostV6 => some ⟨s, x.url.extendHost i (x.s ≠ s)⟩
  | .hostPort => some ⟨s, if x.s = s then x.url.extend .port else x.url.enter .port i⟩
  | .userinfo => some ⟨s, if x.s = s then x.url.extend .userinfo else x.url.enter .userinfo i⟩
  | _ => some ⟨s, x.url⟩

def hostLoop (i : Nat) (x : HostSplitting) : Bytes → Option HostSplitting
  | [] => some x
  | ch :: rest => (hostByte i x ch).bind fun x => hostLoop (i + 1) x rest

/-- The host may end in this state. -/
def HostState.ends : HostState → Bool
  | .host | .hostV6End | .hostPort => true
  | _ => false

inductive UrlResult where
  | parsed (u : HttpParserUrl)
  | failed
  /-- The data of the host is read, which nothing has been stored in. -/
  | uninitialised

def UrlSlice.of (d : UrlSlice) (buf : Bytes) : Bytes := (buf.drop d.off.toNat).take d.len.toNat

def httpParseHost (buf : Bytes) (u : HttpParserUrl) (foundAt : Bool) : UrlResult :=
  match u.field .host with
  | none => .uninitialised
  | some d =>
    let start := if foundAt then HostState.userinfoStart else .hostStart
    match hostLoop d.off.toNat ⟨start, u.set .host { d with len := 0 }⟩ (d.of buf) with
    | none => .failed
    | some x => if x.s.ends then .parsed x.url else .failed

/-- `strtoul`, at the digits of a port. -/
def strtoul (digits : Bytes) : Nat := (digits.takeWhile isNum).foldl (fun n ch => 10 * n + digit ch) 0

/-- The fields are a host and a port, and no others. -/
def HttpParserUrl.hostPort (u : HttpParserUrl) : Bool :=
  UrlField.all.all fun f => (u.field f).isSome = (f = .host || f = .port)

/-- What is done with the fields of a URL: a CONNECT has a host and a port only, and the number of
the port has to fit. -/
def HttpParserUrl.check (u : HttpParserUrl) (buf : Bytes) (isConnect : Bool) : UrlResult :=
  if isConnect && !u.hostPort then .failed
  else
    match u.field .port with
    | none => .parsed u
    | some d =>
      let v := strtoul (buf.drop d.off.toNat)
      if 65535 < v then .failed else .parsed { u with port := v }

def urlStart (isConnect : Bool) : Splitting :=
  ⟨if isConnect then .reqServerStart else .reqSpacesBeforeUrl, none, false, .empty⟩

def httpParserParseUrl (buf : Bytes) (isConnect : Bool) : UrlResult :=
  match urlLoop 0 (urlStart isConnect) buf with
  | none => .failed
  | some x =>
    if (x.url.field .schema).isSome || (x.url.field .host).isSome then
      match httpParseHost buf x.url x.foundAt with
      | .parsed u => u.check buf isConnect
      | r => r
    else x.url.check buf isConnect

/-- `push_url_part`. -/
def HttpParserUrl.part (u : HttpParserUrl) (buf : Bytes) (f : UrlField) : Option Bytes :=
  (u.field f).map fun d => d.of buf

/-- The table of the parts. `unknown` is what comes of the data that is not initialised. -/
def luawParseUrl (unknown : Bytes → Bool → Option ParsedURL) (buf : Bytes) (isConnect : Bool) :
    Option ParsedURL :=
  match httpParserParseUrl buf isConnect with
  | .parsed u => some ⟨u.part buf .path, u.part buf .query⟩
  | .failed => none
  | .uninitialised => unknown buf isConnect

end Luaw.Parsing
