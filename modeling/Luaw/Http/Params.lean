import Luaw.Http.Message

/-!
# Decoding URL-encoded parameters

`luaw_url_decode` of `luaw_http_parser.c`, for the query string and the body of a form.
-/

namespace Luaw.Http

open Lua

/-- `string.lower` and `string.upper` on ASCII. -/
def lowerCase (s : Bytes) : Bytes := s.map fun c => if 65 ≤ c ∧ c ≤ 90 then c + 32 else c

def upperCase (s : Bytes) : Bytes := s.map fun c => if 97 ≤ c ∧ c ≤ 122 then c - 32 else c

/-- `isspace`. -/
def isSpace (ch : UInt8) : Bool := (9 ≤ ch && ch ≤ 13) || ch = 32

/-- `sscanf(str, "%2x", ..)`, converted to a `char`, if anything is converted. Leading white space
is skipped; a sign is one of the two characters, and so is what could start a `0x`. -/
def scanHex : Bytes → Option UInt8
  | [] => none
  | ch :: str =>
    if isSpace ch then scanHex str
    else if ch = 43 then (str.head?.bind ChunkedCoding.digitValue?).map Nat.toUInt8
    else if ch = 45 then
      (str.head?.bind ChunkedCoding.digitValue?).map fun digit => (256 - digit).toUInt8
    else if ch = 48 ∧ (str.head? = some 120 ∨ str.head? = some 88) then none
    else (ChunkedCoding.digitValue? ch).map fun digit =>
      match str.head?.bind ChunkedCoding.digitValue? with
      | some digit' => (16 * digit + digit').toUInt8
      | none => digit.toUInt8

/-- The loop of `decode_hex_str`, which reads at `readPtr` and writes at `writePtr`: the data that
it leaves, and where it stops writing. `hexCh` stays as it is when nothing is converted. -/
def decodeHexLoop (hexCh : UInt8) (data : Bytes) (readPtr writePtr : Nat) : Nat → Bytes × Nat
  | 0 => (data, writePtr)
  | len + 3 =>
    if data.getD readPtr 0 = 37 then
      let hexCh := (scanHex (data.drop (readPtr + 1))).getD hexCh
      decodeHexLoop hexCh (data.set writePtr hexCh) (readPtr + 3) (writePtr + 1) len
    else
      decodeHexLoop hexCh (data.set writePtr (data.getD readPtr 0)) (readPtr + 1) (writePtr + 1)
        (len + 2)
  | len + 1 =>
    decodeHexLoop hexCh (data.set writePtr (data.getD readPtr 0)) (readPtr + 1) (writePtr + 1) len

/-- `hexCh` is what the variable `hex_ch`, which is not initialised, holds at first. -/
def decodeHexStr (hexCh : UInt8) (data : Bytes) (str len : Nat) : Bytes × Nat :=
  let (data, writePtr) := decodeHexLoop hexCh data str str len
  (data, writePtr - str)

/-- A value, or the list of the values of a repeated name. -/
abbrev Params := List (Bytes × HeaderValue)

/-- `storeHttpParam` treats a repeated name as `addHeader` does. -/
def storeHttpParam (params : Params) (name value : Bytes) : Params := Headers.add name value params

inductive DecoderState where
  | startingName
  | inName
  | startingValue
  | inValue

/-- The variables of `luaw_url_decode`. `name` and `value` point into `data`, the string that is
decoded; `calls` are the calls of `storeHttpParam` so far. -/
structure UrlDecoder where
  data : Bytes
  readPtr : Nat
  name : Option Nat
  value : Option Nat
  hexName : Bool
  hexValue : Bool
  nameLen : Nat
  valueLen : Nat
  ds : DecoderState
  calls : List (Bytes × Bytes)

namespace UrlDecoder

def start (data : Bytes) : UrlDecoder := ⟨data, 0, none, none, false, false, 0, 0, .startingName, []⟩

/-- `len` characters at `ptr`. -/
def slice (data : Bytes) (ptr len : Nat) : Bytes := (data.drop ptr).take len

/-- What the conversion `%s` makes of a pointer into the data. -/
def cString (data : Bytes) (ptr : Nat) : Bytes := (data.drop ptr).takeWhile (· ≠ 0)

section Steps

-- What `hex_ch` holds at first when the name, or the value, is decoded for a call of
-- `storeHttpParam`, which is known by its number.
variable (garbage : Nat → Bool → UInt8) (d : UrlDecoder)

def storePair (name value : Nat) : UrlDecoder :=
  let (data, nameLen) :=
    if d.hexName then decodeHexStr (garbage d.calls.length false) d.data name d.nameLen
    else (d.data, d.nameLen)
  let (data, valueLen) :=
    if d.hexValue then decodeHexStr (garbage d.calls.length true) data value d.valueLen
    else (data, d.valueLen)
  { d with data := data, calls := d.calls ++ [(slice data name nameLen, slice data value valueLen)] }

/-- An error comes with the variables at that point. -/
def handleNameValuePair : Except (LuaError × UrlDecoder) UrlDecoder :=
  match d.name.filter fun _ => 0 < d.nameLen, d.value.filter fun _ => 0 < d.valueLen with
  | some name, some value => .ok (d.storePair garbage name value)
  | _, _ =>
    if d.nameLen = 0 ∧ 0 < d.valueLen then
      .error (text "400 Bad URL encoding: empty parameter name, non empty parameter value: " ++
        (d.value.map (cString d.data)).getD (text "(null)") ++ text " ", d)
    else .ok d

def malformed (expected : String) : LuaError × UrlDecoder :=
  (text "400 Bad URL encoding: Error while " ++ text expected ++ text " at: " ++
    cString d.data d.readPtr ++ text "\n", d)

/-- The pair that has been handled is forgotten. -/
def settle : UrlDecoder := { d with nameLen := 0, hexName := false, valueLen := 0, hexValue := false }

/-- The statement `switch (ds)`. -/
def scan (ch : UInt8) : Except (LuaError × UrlDecoder) UrlDecoder :=
  match d.ds with
  | .startingName => do
    let d ← d.handleNameValuePair garbage
    let d := d.settle
    if ch = 38 ∨ ch = 61 then .error (d.malformed "expecting start of param name")
    else pure { d with ds := .inName, name := some d.readPtr, nameLen := 1, hexName := ch = 37 }
  | .inName =>
    if ch = 38 then .error (d.malformed "parsing param name")
    else if ch = 61 then .ok { d with ds := .startingValue }
    else .ok { d with nameLen := d.nameLen + 1, hexName := d.hexName || ch = 37 }
  | .startingValue =>
    if ch = 38 ∨ ch = 61 then .error (d.malformed "expecting start of param value")
    else .ok { d with
      ds := .inValue, value := some d.readPtr, valueLen := 1, hexValue := d.hexValue || ch = 37 }
  | .inValue =>
    if ch = 38 then .ok { d with ds := .startingName }
    else if ch = 61 then .error (d.malformed "parsing param value")
    else .ok { d with valueLen := d.valueLen + 1, hexValue := d.hexValue || ch = 37 }

/-- A plus sign is overwritten with a space. -/
def advance (ch : UInt8) : UrlDecoder :=
  { d with
    data := if ch = 43 then d.data.set d.readPtr 32 else d.data
    readPtr := d.readPtr + 1 }

def step : Except (LuaError × UrlDecoder) UrlDecoder :=
  (d.scan garbage (d.data.getD d.readPtr 0)).map (advance · (d.data.getD d.readPtr 0))

/-- The loop `while (length--)`, and the pair that is left at its end. -/
def run (d : UrlDecoder) : Nat → Except (LuaError × UrlDecoder) UrlDecoder
  | 0 => d.handleNameValuePair garbage
  | length + 1 => do
    let d ← d.step garbage
    d.run length

end Steps

end UrlDecoder

/-- `luaw_url_decode`: the variables when it returns, with the error if it reports one. -/
def luawUrlDecode (garbage : Nat → Bool → UInt8) (data : Bytes) :
    Except (LuaError × UrlDecoder) UrlDecoder :=
  (UrlDecoder.start data).run garbage data.length

/-- The parameters of `data`, added to those already there, and what is left of `data`, which is
decoded in place. The callers raise the error. -/
def urlDecode (hexCh : Nat → Bool → UInt8) (data : Bytes) (params : Params) :
    Except LuaError (Params × Bytes) :=
  match luawUrlDecode hexCh data with
  | .ok d => .ok (d.calls.foldl (fun params (name, value) => storeHttpParam params name value)
      params, d.data)
  | .error (mesg, _) => .error mesg

example (hexCh : Nat → Bool → UInt8) : urlDecode hexCh (text "a=1%32&b=x+y") [] =
    .ok ([(text "a", .single (text "12")), (text "b", .single (text "x y"))],
      text "a=1232&b=x y") := by rfl

end Luaw.Http
