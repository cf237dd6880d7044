import Luaw.Foundations.Delimiter
import Luaw.Http.Request
import Mathlib.Data.List.Infix

/-!
# The parts of a multipart request

`multiPartIterator` of `luaw_http.lua`. A request that is not read in full is read while its
parts are asked for; each call of `readAndParse` brings one body event, and after the last one
the end of the message.
-/

namespace Luaw.Http.Multipart

open Lua Program

inductive Token where
  | MULTIPART_BEGIN
  | PART_BEGIN
  | PART_DATA
  | PART_END
  | MULTIPART_END
  deriving DecidableEq

/-- What the iterator returns: a token, and what comes with it. -/
inductive Yield where
  | partBegin (fieldName : Bytes) (fileName contentType : Option Bytes)
  | partData (content : Bytes)
  | partEnd
  | multipartEnd
  deriving DecidableEq

def Yield.token : Yield → Token
  | partBegin .. => .PART_BEGIN
  | partData _ => .PART_DATA
  | partEnd => .PART_END
  | multipartEnd => .MULTIPART_END

/-- A request whose body is being read: the body events to come, and the content that has been
read and not consumed, with the one-based offset in it. -/
structure Upload where
  req : Request
  events : List Bytes
  content : Option (Bytes × Nat)

/-- `consumeTill` for a search string; the offsets are one-based. -/
def consumeTill (input search : Bytes) (offset : Nat) : Option (Nat × Bytes) :=
  (Delimiter.find search (input.drop (offset - 1))).map fun start =>
    (offset + start + search.length, (input.drop (offset - 1)).take start)

def consumeBodyChunkParsed (req : Request) : Except LuaError (Option Bytes × Request) :=
  match req.body with
  | some bodyChunk => .ok (some bodyChunk, { req with body := none })
  | none =>
    if 0 < req.bodyParts.len then do
      let bodyChunk ← req.bodyParts.concat
      pure (some bodyChunk, { req with bodyParts := req.bodyParts.reset })
    else .ok (none, req)

/-- The match in the content, and the content that remains after it. -/
def matched (search : Bytes) : Option (Bytes × Nat) → Option (Bytes × Option (Bytes × Nat))
  | none => none
  | some (content, offset) =>
    if offset < content.length then
      (consumeTill content search offset).map fun (matchPos, matchStr) =>
        (matchStr, if matchPos < content.length then some (content, matchPos) else none)
    else none

/-- The content from the offset on, where there was something to search. -/
def trim : Option (Bytes × Nat) → Option (Bytes × Nat)
  | none => none
  | some (content, offset) =>
    if offset < content.length ∧ 1 < offset then some (content.drop (offset - 1), 1)
    else some (content, offset)

def extend (content : Option (Bytes × Nat)) (readStr : Option Bytes) : Option (Bytes × Nat) :=
  match readStr, content with
  | none, content => content
  | some readStr, some (content, offset) => some (content ++ readStr, offset)
  | some readStr, none => some (readStr, 1)

def bufferedConsume (search : Bytes) (req : Request) (events : List Bytes)
    (content : Option (Bytes × Nat)) : Except LuaError (Bytes × Upload) :=
  match matched search content with
  | some (matchStr, content) => .ok (matchStr, ⟨req, events, content⟩)
  | none =>
    match events with
    | [] => .error (text "premature HTTP message end")
    | chunk :: events => do
      let (readStr, req) ←
        consumeBodyChunkParsed { req with bodyParts := req.bodyParts.append (.str chunk) }
      bufferedConsume search req events (extend (trim content) readStr)

def Upload.consume (search : Bytes) (u : Upload) : Except LuaError (Bytes × Upload) :=
  bufferedConsume search u.req u.events u.content

def assert (condition : Prop) [Decidable condition] (mesg : String) : Except LuaError Unit :=
  if condition then .ok () else .error (text mesg)

/-- `string.sub(matchedStr, filenamePos+1, #matchedStr-1)`. -/
def fileNameOf (matchedStr : Bytes) : Option Bytes :=
  (Delimiter.find (text "filename=\"") matchedStr).map fun start =>
    (matchedStr.take (matchedStr.length - 1)).drop (start + (text "filename=\"").length)

def readContentType (fileName : Option Bytes) (u : Upload) :
    Except LuaError (Option Bytes × Upload) :=
  match fileName with
  | none => .ok (none, u)
  | some _ => do
    let (matchedStr, u) ← u.consume (text ": ")
    assert (matchedStr = text "Content-Type") "Missing 'Content-Type' header"
    -- the length is a number, and so the assertion on it never fails
    let (contentType, u) ← u.consume CRLF
    pure (some contentType, u)

/-- `fetchNextPart` in the state `PART_END`. -/
def readPartHeaders (u : Upload) : Except LuaError (Yield × Upload) := do
  let (matchedStr, u) ← u.consume (text ": ")
  assert (matchedStr = text "Content-Disposition") "Missing 'Content-Disposition' header"
  let (matchedStr, u) ← u.consume (text "; ")
  assert ((Delimiter.find (text "form-data") matchedStr).isSome) "Wrong Content-Disposition"
  let (matchedStr, u) ← u.consume (text "\"")
  assert ((Delimiter.find (text "name") matchedStr).isSome) "form field name missing"
  let (fieldName, u) ← u.consume (text "\"")
  assert (0 < fieldName.length) "form field name missing"
  let (matchedStr, u) ← u.consume CRLF
  let fileName := fileNameOf matchedStr
  let (contentType, u) ← readContentType fileName u
  let (matchedStr, u) ← u.consume CRLF
  assert (matchedStr.length = 0) "Missing line separating content headers and actual content"
  pure (.partBegin fieldName fileName contentType, u)

/-- In the states `PART_BEGIN` and `PART_DATA`. -/
def readPartData (boundary lastBoundary : Bytes) (u : Upload) :
    Except LuaError (Yield × Upload) := do
  let (matchedStr, u) ← u.consume CRLF
  if matchedStr = boundary then pure (.partEnd, u)
  else if matchedStr = lastBoundary then pure (.multipartEnd, u)
  else pure (.partData matchedStr, u)

def fetchNextPart (boundary lastBoundary : Bytes) (state : Token) (u : Upload) :
    Except LuaError (Option (Yield × Upload)) :=
  match state with
  | .MULTIPART_BEGIN => do
    let (matchedStr, u) ← u.consume CRLF
    assert (matchedStr = boundary) "Missing multi-part boundary at the beginning of the part"
    some <$> readPartHeaders u
  | .PART_END => some <$> readPartHeaders u
  | .PART_BEGIN | .PART_DATA => some <$> readPartData boundary lastBoundary u
  | .MULTIPART_END => .ok none

/-- The loop `for .. in req:multiPartIterator()` from a state on: what it gets until it stops. -/
def iterate (boundary lastBoundary : Bytes) :
    Nat → Token → Upload → Except (Stop LuaError) (List Yield)
  | 0, _, _ => .error .outOfFuel
  | fuel + 1, state, u =>
    match fetchNextPart boundary lastBoundary state u with
    | .error e => .error (.raised e)
    | .ok none => .ok []
    | .ok (some (y, u)) => (iterate boundary lastBoundary fuel y.token u).map (y :: ·)

/-- The loop over the parts of a request; there is none if it is not a multipart request. -/
def multiPartIterator (fuel : Nat) (u : Upload) : Except (Stop LuaError) (Option (List Yield)) :=
  match getMultipartBoundary u.req.headers with
  | .error e => .error (.raised e)
  | .ok none => .ok none
  | .ok (some boundary) =>
    (iterate boundary (boundary ++ text "--") fuel .MULTIPART_BEGIN u).map some

end Luaw.Http.Multipart
