import Luaw.Concurrent.Sending

/-!
# Reading in a coroutine

The functions of `luaw_http.lua` that read a message, and its parts when it is a multipart
message. They assign the globals `oldValue` and `matchedStr`, and suspend in `conn:read`.
-/

namespace Luaw.Concurrent

open Lua Http Routine

/-- A message that is read, with the fields `luaw_multipart_content`, `luaw_multipart_offset`,
`luaw_multipart_boundary` and `luaw_multipart_end`. -/
structure Incoming (τ : Type) where
  session : Session τ
  attached : Bool
  content : Option (Bytes × Nat)
  boundary : Option Bytes
  ending : Option Bytes

instance {τ : Type} : Retains Bytes (Incoming τ) :=
  .fields (fun s => (s.session, s.content, s.boundary, s.ending))
    (fun (session, content, boundary, ending) s =>
      { s with session, content, boundary, ending })
    fun _ => rfl

section Decoding

variable {σ : Type} [Retains Bytes σ] (P : Platform)

/-- A table that is stored under the name already is the one that `oldValue` refers to, so that
inserting into the one changes the other. -/
def storeHttpParam (params : Params) (name value : Bytes) : LuaM σ Params := do
  assign Global.oldValue (Headers.get? name params)
  let oldValue : Option HeaderValue ← readGlobal .oldValue
  match oldValue with
  | some _ => do
    let oldValue : Option HeaderValue ← readGlobal .oldValue
    match oldValue with
    | some (.list oldValues) => pure (setParam name (.list (oldValues ++ [value])) params)
    | some (.single oldValue) => pure (setParam name (.list [oldValue, value]) params)
    | none => pure params
  | none => pure (setParam name (.single value) params)
where
  /-- `params[name] = value`. -/
  setParam (name : Bytes) (value : HeaderValue) : Params → Params
    | [] => [(name, value)]
    | (other, old) :: params =>
      if other = name then (other, value) :: params else (other, old) :: setParam name value params

def storeHttpParams (params : Params) : List (Bytes × Bytes) → LuaM σ Params
  | [] => pure params
  | (name, value) :: calls => do
    let params ← storeHttpParam params name value
    storeHttpParams params calls

/-- What is left of a string is in its place everywhere. -/
def overwrite (data left : Bytes) : LuaM σ Unit :=
  match P.overwriting data left with
  | some x => announce x
  | none => pure ()

/-- `luaw_url_decode` calls `storeHttpParam` before it returns, and has written into its argument,
also if it returns an error. -/
def urlDecode (data : Bytes) (params : Params) : LuaM σ (Params × Bytes) := do
  let decoded : Except (LuaError × UrlDecoder) UrlDecoder ← ask data
  match decoded with
  | .ok d => do
    let params ← storeHttpParams params d.calls
    let (params, _) ← keep params (overwrite P data d.data)
    pure (params, d.data)
  | .error (mesg, d) => do
    let _ ← storeHttpParams params d.calls
    overwrite P data d.data
    raise mesg

end Decoding

section Callbacks

variable {σ τ : Type} [Retains Bytes σ] (P : HttpParser τ)

def queryParams (parsedURL : ParsedURL) : LuaM σ (Params × Option Bytes) :=
  match parsedURL.queryString with
  | none => pure ([], none)
  | some queryString => do
    let (params, left) ← urlDecode P.toPlatform queryString []
    pure (params, some left)

def onHeadersComplete (keepAlive : Bool) (httpMajor httpMinor : Nat) (method : Option Bytes)
    (status : Option Nat) (req : Request) : LuaM σ Request := do
  let req := { req.handleAccHttpHeader.handleKeepAlive keepAlive with method := method }
  let parsedURL ← ofExcept (parseRequestURL P method req.url)
  let ((req, path), params, left) ← keep (req, parsedURL.path) (queryParams P parsedURL)
  pure { req with
    majorVersion := some httpMajor
    minorVersion := some httpMinor
    status := status
    parsedURL := some { path := path, queryString := left }
    params := some params
    headersDone := true }

def formParams (headers : Headers) (body : Bytes) (params : Option Params) :
    LuaM σ (Option Params × Bytes) :=
  match headers.get? (text "Content-Type") with
  | none => pure (params, body)
  | some (.list _) => raise (text "attempt to call method 'lower' (a nil value)")
  | some (.single contentType) =>
    if lowerCase contentType = text "application/x-www-form-urlencoded" then do
      let (params, left) ← urlDecode P.toPlatform body (params.getD [])
      pure (some params, left)
    else pure (params, body)

def onMesgComplete (keepAlive : Bool) (req : Request) : LuaM σ Request := do
  let req := req.handleAccHttpHeader.handleKeepAlive keepAlive
  let body ← ofExcept req.bodyParts.concat
  let (req, params, left) ← keep req (formParams P req.headers body req.params)
  pure { req with
    body := some left
    bodyParts := req.bodyParts.reset
    params := params
    mesgDone := true }

/-- The other callbacks only change the request object. -/
def callback : Event → Request → LuaM σ Request
  | .headersComplete keepAlive httpMajor httpMinor method status, req =>
    onHeadersComplete P keepAlive httpMajor httpMinor method status req
  | .messageComplete keepAlive, req => onMesgComplete P keepAlive req
  | e, req => ofExcept (Http.callback P e req)

end Callbacks

section Reading

variable {τ : Type} (P : HttpParser τ)

def modifySession (f : Session τ → Session τ) : LuaM (Incoming τ) Unit :=
  modify fun s => { s with session := f s.session }

def closeConn : LuaM (Incoming τ) Unit := modifySession fun s => { s with conn := s.conn.close }

def heard (event : Option Event) (req : Request) : LuaM (Incoming τ) Request :=
  match event with
  | none => pure req
  | some e => callback P e req

def parseHttpFragment (content : Bytes) (offset : Nat) : LuaM (Incoming τ) Nat := do
  let s ← get
  if content.length < offset then
    closeConn
    raise (text "Wrong offset into HTTP string: len=" ++ decimal content.length ++
      text ", offset=" ++ decimal offset ++ text ", content=" ++ content ++ text "\n")
  else
    let x := P.execute s.session.parser (content.drop offset)
    if offset + x.nparsed < content.length ∧ x.errno ≠ .paused then
      closeConn
      raise (text "Error parsing HTTP fragment: errorCode=" ++
        decimal (match x.errno with | .failed code => code | _ => 0) ++ text ", total=" ++
        decimal content.length ++ text ", parsed=" ++ decimal x.nparsed ++ text ", content=" ++
        content ++ text "\n")
    else
      let req ← heard P x.event s.session.req
      let parser := match x.event with | some (.messageComplete _) => P.init | _ => x.state
      modifySession fun session => { session with
        req := req
        parser := parser
        consumed := session.consumed ++ (content.drop offset).take x.nparsed }
      pure (offset + x.nparsed)

/-- `conn:read`. With content in the buffer of the connection there is nothing to wait for; the
coroutine is then resumed at once. -/
def read : LuaM (Incoming τ) (Except LuaError Bytes) := do
  let s ← get
  if s.attached then
    let result := s.session.conn.read
    modifySession fun session => { session with conn := result.2 }
    if s.session.conn.closed then pure result.1
    else
      suspend
      pure result.1
  else raise noConn

def readContent : LuaM (Incoming τ) (Option (Bytes × Nat)) := do
  let s ← get
  match s.session.unread.filter fun (content, offset) => hasContent content offset with
  | some unread => pure (some unread)
  | none =>
    match ← read with
    | .ok content => pure (some (content, 0))
    | .error mesg =>
      if mesg = text "EOF" then
        modifySession fun session => { session with
          req := { session.req with
            headers := session.req.headers.add (text "Connection") (text "close")
            headersDone := true
            mesgDone := true
            EOF := true }
          unread := none }
        pure none
      else raise mesg

def readAndParse : LuaM (Incoming τ) Unit := do
  match ← readContent with
  | none => pure ()
  | some (content, offset) =>
    let (content, offset) ← keep content (parseHttpFragment P content offset)
    modifySession fun session => { session with
      unread := if hasContent content offset then some (content, offset) else none }

def readUntil (done : Request → Bool) : Nat → LuaM (Incoming τ) Unit
  | 0 => outOfFuel
  | fuel + 1 => do
    let s ← get
    if done s.session.req then pure ()
    else
      readAndParse P
      readUntil done fuel

def isMultipart : LuaM (Incoming τ) Bool := do
  let s ← get
  if s.boundary.isSome then pure true
  else
    let boundary ← ofExcept (getMultipartBoundary s.session.req.headers)
    modify fun s => { s with boundary, ending := boundary.map (· ++ text "--") }
    pure boundary.isSome

def readFull (fuel : Nat) : LuaM (Incoming τ) Unit := do
  readUntil P Request.headersDone fuel
  let multipart ← isMultipart
  let s ← get
  if multipart || isLuaPackMesg s.session.req.headers then pure ()
  else readUntil P Request.mesgDone fuel

end Reading

section Parts

variable {τ : Type} (P : HttpParser τ)

def bufferedConsume (search : Bytes) :
    Nat → Option (Bytes × Nat) → LuaM (Incoming τ) (Bytes × Option (Bytes × Nat))
  | 0, _ => outOfFuel
  | fuel + 1, content =>
    match Multipart.matched search content with
    | some found => pure found
    | none => do
      let (content, _) ← keep (Multipart.trim content) (readAndParse P)
      let s ← get
      if s.session.req.mesgDone then raise (text "premature HTTP message end")
      else
        let (readStr, req) ← ofExcept (Multipart.consumeBodyChunkParsed s.session.req)
        modifySession fun session => { session with req }
        bufferedConsume search fuel (Multipart.extend content readStr)

/-- `matchedStr, content, offset = bufferedConsume(req, search, content, offset)`. -/
def consumeMatched (search : Bytes) (fuel : Nat) (content : Option (Bytes × Nat)) :
    LuaM (Incoming τ) (Option (Bytes × Nat)) := do
  let (matchStr, content) ← bufferedConsume P search fuel content
  assign Global.matchedStr (some matchStr)
  pure content

/-- The global `matchedStr` as an argument of a string function. -/
def matchedStr : LuaM (Incoming τ) Bytes := do
  let str : Option Bytes ← readGlobal .matchedStr
  match str with
  | some str => pure str
  | none => raise (text "string expected, got nil")

def assert (condition : Prop) [Decidable condition] (mesg : String) : LuaM (Incoming τ) Unit :=
  ofExcept (Multipart.assert condition mesg)

def saveState (content : Option (Bytes × Nat)) : LuaM (Incoming τ) Unit :=
  modify fun s => { s with content }

def readContentType (fuel : Nat) (fileName : Option Bytes) (content : Option (Bytes × Nat)) :
    LuaM (Incoming τ) (Option Bytes × Option (Bytes × Nat)) :=
  match fileName with
  | none => pure (none, content)
  | some _ => do
    let content ← consumeMatched P (text ": ") fuel content
    let str ← matchedStr
    assert (str = text "Content-Type") "Missing 'Content-Type' header"
    let (contentType, content) ← bufferedConsume P CRLF fuel content
    pure (some contentType, content)

/-- `fetchNextPart` in the state `PART_END`. -/
def readPartHeaders (fuel : Nat) (content : Option (Bytes × Nat)) :
    LuaM (Incoming τ) Multipart.Yield := do
  let content ← consumeMatched P (text ": ") fuel content
  let str ← matchedStr
  assert (str = text "Content-Disposition") "Missing 'Content-Disposition' header"
  let content ← consumeMatched P (text "; ") fuel content
  let str ← matchedStr
  assert ((Delimiter.find (text "form-data") str).isSome) "Wrong Content-Disposition"
  let content ← consumeMatched P (text "\"") fuel content
  let str ← matchedStr
  assert ((Delimiter.find (text "name") str).isSome) "form field name missing"
  let (fieldName, content) ← bufferedConsume P (text "\"") fuel content
  assert (0 < fieldName.length) "form field name missing"
  let (fieldName, content) ← keep fieldName (consumeMatched P CRLF fuel content)
  let str ← matchedStr
  let fileName := Multipart.fileNameOf str
  let ((fieldName, fileName), contentType, content) ←
    keep (fieldName, fileName) (readContentType P fuel fileName content)
  let ((fieldName, fileName, contentType), content) ←
    keep (fieldName, fileName, contentType) (consumeMatched P CRLF fuel content)
  let str ← matchedStr
  assert (str.length = 0) "Missing line separating content headers and actual content"
  saveState content
  pure (.partBegin fieldName fileName contentType)

/-- In the states `PART_BEGIN` and `PART_DATA`, where `matchedStr` is a local variable. -/
def readPartData (fuel : Nat) (boundary : Option Bytes) (content : Option (Bytes × Nat)) :
    LuaM (Incoming τ) Multipart.Yield := do
  let (boundary, matchedStr, content) ← keep boundary (bufferedConsume P CRLF fuel content)
  let s ← get
  saveState content
  if some matchedStr = boundary then pure .partEnd
  else if some matchedStr = s.ending then pure .multipartEnd
  else pure (.partData matchedStr)

/-- The iterator; nil stands for its end. -/
def fetchNextPart (fuel : Nat) (state : Multipart.Token) :
    LuaM (Incoming τ) (Option Multipart.Yield) := do
  let s ← get
  match state with
  | .MULTIPART_BEGIN => do
    let (boundary, content) ← keep s.boundary (consumeMatched P CRLF fuel s.content)
    let str : Option Bytes ← readGlobal .matchedStr
    assert (str = boundary) "Missing multi-part boundary at the beginning of the part"
    let part ← readPartHeaders P fuel content
    pure (some part)
  | .PART_END => do
    let part ← readPartHeaders P fuel s.content
    pure (some part)
  | .PART_BEGIN | .PART_DATA => do
    let part ← readPartData P fuel s.boundary s.content
    pure (some part)
  | .MULTIPART_END => pure none

end Parts

section Owning

variable {σ τ : Type}

theorem storeHttpParam_owns (params : Params) (name value : Bytes) :
    Owns ∅ (storeHttpParam params name value : LuaM σ Params) ∅ := by
  have hread : Owns (insert Global.oldValue ∅ : Set Global) (readGlobal .oldValue : LuaM σ _)
      (insert Global.oldValue ∅ : Set Global) := readGlobal_owns (Set.mem_insert _ _)
  apply Owns.weaken (U := (insert Global.oldValue ∅ : Set Global)) _ (Set.empty_subset _)
  apply Owns.bind (.assign _ _)
  intro _
  apply Owns.bind hread
  intro oldValue
  cases oldValue with
  | none => exact .pure _
  | some _ =>
    apply Owns.bind hread
    intro oldValue
    obtain _ | _ | _ := oldValue <;> exact .pure _

theorem storeHttpParams_owns (params : Params) (calls : List (Bytes × Bytes)) :
    Owns ∅ (storeHttpParams params calls : LuaM σ Params) ∅ := by
  induction calls generalizing params with
  | nil => exact .pure _
  | cons call calls ih => exact .bind (storeHttpParam_owns params call.1 call.2) ih

section Decoding

variable [Retains Bytes σ]

theorem overwrite_owns (P : Platform) (data left : Bytes) :
    Owns ∅ (overwrite P data left : LuaM σ Unit) ∅ := by
  rw [overwrite]
  split
  · exact .announce _
  · exact .pure _

theorem urlDecode_owns (P : Platform) (data : Bytes) (params : Params) :
    Owns ∅ (urlDecode P data params : LuaM σ (Params × Bytes)) ∅ := by
  apply Owns.bind (.ask _)
  intro decoded
  cases decoded with
  | ok d =>
    apply Owns.bind (storeHttpParams_owns _ _)
    intro params
    exact .bind (.keep (overwrite_owns P _ _)) fun _ => .pure _
  | error e =>
    apply Owns.bind (storeHttpParams_owns _ _)
    intro _
    exact .bind (overwrite_owns P _ _) fun _ => .raise _

variable (P : HttpParser τ)

theorem onHeadersComplete_owns (keepAlive : Bool) (httpMajor httpMinor : Nat)
    (method : Option Bytes) (status : Option Nat) (req : Request) :
    Owns ∅ (onHeadersComplete P keepAlive httpMajor httpMinor method status req : LuaM σ Request)
      ∅ := by
  apply Owns.bind (.ofExcept _)
  intro parsedURL
  have hparams : Owns ∅ (queryParams P parsedURL : LuaM σ (Params × Option Bytes)) ∅ := by
    rw [queryParams]
    split
    · exact .pure _
    · exact .bind (urlDecode_owns _ _ _) fun _ => .pure _
  exact .bind (.keep hparams) fun _ => .pure _

theorem onMesgComplete_owns (keepAlive : Bool) (req : Request) :
    Owns ∅ (onMesgComplete P keepAlive req : LuaM σ Request) ∅ := by
  apply Owns.bind (.ofExcept _)
  intro body
  have hparams (headers : Headers) (params : Option Params) :
      Owns ∅ (formParams P headers body params : LuaM σ (Option Params × Bytes)) ∅ := by
    rw [formParams]
    split
    · exact .pure _
    · exact .raise _
    · exact .ite (.bind (urlDecode_owns _ _ _) fun _ => .pure _) (.pure _)
  exact .bind (.keep (hparams _ _)) fun _ => .pure _

theorem callback_owns (e : Event) (req : Request) :
    Owns ∅ (callback P e req : LuaM σ Request) ∅ := by
  rw [callback.eq_def]
  split
  · exact onHeadersComplete_owns P _ _ _ _ _ _
  · exact onMesgComplete_owns P _ _
  · exact .ofExcept _

end Decoding

variable (P : HttpParser τ)

theorem parseHttpFragment_owns (content : Bytes) (offset : Nat) :
    Owns ∅ (parseHttpFragment P content offset) ∅ := by
  have hfail (mesg : LuaError) :
      Owns ∅ (closeConn >>= fun _ => raise mesg : LuaM (Incoming τ) Nat) ∅ :=
    .bind (.modify _) fun _ => .raise _
  have hheard (event : Option Event) (req : Request) : Owns ∅ (heard P event req) ∅ := by
    cases event with
    | none => exact .pure _
    | some e => exact callback_owns P e req
  apply Owns.bind .get
  intro s
  apply Owns.ite (hfail _)
  apply Owns.ite (hfail _)
  exact .bind (hheard _ _) fun _ => .bind (.modify _) fun _ => .pure _

theorem read_owns : Owns ∅ (read : LuaM (Incoming τ) (Except LuaError Bytes)) ∅ := by
  apply Owns.bind .get
  intro s
  apply Owns.ite _ (.raise _)
  apply Owns.bind (.modify _)
  intro _
  exact .ite (.pure _) (.bind .suspend fun _ => .pure _)

theorem readContent_owns : Owns ∅ (readContent : LuaM (Incoming τ) (Option (Bytes × Nat))) ∅ := by
  apply Owns.bind .get
  intro s
  split
  · exact .pure _
  · apply Owns.bind read_owns
    intro result
    cases result with
    | ok content => exact .pure _
    | error mesg => exact .ite (.bind (.modify _) fun _ => .pure _) (.raise _)

theorem readAndParse_owns : Owns ∅ (readAndParse P) ∅ := by
  apply Owns.bind readContent_owns
  intro unread
  cases unread with
  | none => exact .pure _
  | some unread => exact .bind (.keep (parseHttpFragment_owns P _ _)) fun _ => .modify _

theorem readUntil_owns (done : Request → Bool) (fuel : Nat) : Owns ∅ (readUntil P done fuel) ∅ := by
  induction fuel with
  | zero => exact .outOfFuel
  | succ fuel ih => exact .bind .get fun _ => .ite (.pure _) (.bind (readAndParse_owns P) fun _ => ih)

theorem isMultipart_owns : Owns ∅ (isMultipart : LuaM (Incoming τ) Bool) ∅ :=
  .bind .get fun _ => .ite (.pure _) (.bind (.ofExcept _) fun _ => .bind (.modify _) fun _ => .pure _)

theorem readFull_owns (fuel : Nat) : Owns ∅ (readFull P fuel) ∅ := by
  apply Owns.bind (readUntil_owns P _ fuel)
  intro _
  apply Owns.bind isMultipart_owns
  intro _
  exact .bind .get fun _ => .ite (.pure _) (readUntil_owns P _ fuel)

variable {W : Set Global}

theorem bufferedConsume_owns (search : Bytes) (fuel : Nat) (content : Option (Bytes × Nat)) :
    Owns W (bufferedConsume P search fuel content) ∅ := by
  apply Owns.conseq (W := ∅) _ (Set.empty_subset W)
  induction fuel generalizing content with
  | zero => exact .outOfFuel
  | succ fuel ih =>
    rw [bufferedConsume]
    split
    · exact .pure _
    · apply Owns.bind (.keep (readAndParse_owns P))
      intro kept
      apply Owns.bind .get
      intro s
      apply Owns.ite (.raise _)
      apply Owns.bind (.ofExcept _)
      intro consumed
      exact .bind (.modify _) fun _ => ih _

theorem consumeMatched_owns (search : Bytes) (fuel : Nat) (content : Option (Bytes × Nat)) :
    Owns W (consumeMatched P search fuel content) ({Global.matchedStr} : Set Global) := by
  apply Owns.bind (bufferedConsume_owns P search fuel content)
  intro found
  apply Owns.bind (.assign _ _)
  intro _
  rw [LawfulSingleton.insert_empty_eq]
  exact .pure _

theorem matchedStr_owns :
    Owns ({Global.matchedStr} : Set Global) (matchedStr : LuaM (Incoming τ) Bytes)
      ({Global.matchedStr} : Set Global) := by
  apply Owns.bind (readGlobal_owns (Set.mem_singleton _))
  intro str
  cases str with
  | none => exact .raise _
  | some str => exact .pure _

/-- The pattern of `fetchNextPart`: nothing suspends between the assignment and the reads. -/
theorem matchedStr_bind_owns {α : Type} {U : Set Global} {f : Bytes → LuaM (Incoming τ) α}
    (hf : ∀ str, Owns ∅ (f str) U) :
    Owns ({Global.matchedStr} : Set Global) (matchedStr >>= f) U :=
  .bind matchedStr_owns fun str => (hf str).conseq (Set.empty_subset _)

theorem assert_bind_owns {α : Type} {U : Set Global} {condition : Prop} [Decidable condition]
    {mesg : String} {f : Unit → LuaM (Incoming τ) α} (hf : Owns W (f ()) U) :
    Owns W (assert condition mesg >>= f) U :=
  .bind (.ofExcept _) fun _ => hf

theorem readContentType_owns (fuel : Nat) (fileName : Option Bytes)
    (content : Option (Bytes × Nat)) : Owns ∅ (readContentType P fuel fileName content) ∅ := by
  cases fileName with
  | none => exact .pure _
  | some fileName =>
    apply Owns.bind (consumeMatched_owns P _ _ _)
    intro content
    apply matchedStr_bind_owns
    intro str
    apply assert_bind_owns
    exact .bind (bufferedConsume_owns P _ _ _) fun _ => .pure _

theorem readPartHeaders_owns (fuel : Nat) (content : Option (Bytes × Nat)) :
    Owns W (readPartHeaders P fuel content) ∅ := by
  apply Owns.bind (consumeMatched_owns P _ _ _)
  intro content
  apply matchedStr_bind_owns
  intro str
  apply assert_bind_owns
  apply Owns.bind (consumeMatched_owns P _ _ _)
  intro content
  apply matchedStr_bind_owns
  intro str
  apply assert_bind_owns
  apply Owns.bind (consumeMatched_owns P _ _ _)
  intro content
  apply matchedStr_bind_owns
  intro str
  apply assert_bind_owns
  apply Owns.bind (bufferedConsume_owns P _ _ _)
  intro fieldName
  apply assert_bind_owns
  apply Owns.bind (.keep (consumeMatched_owns P _ _ _))
  intro kept
  apply matchedStr_bind_owns
  intro str
  apply Owns.bind (.keep (readContentType_owns P fuel _ _))
  intro kept
  apply Owns.bind (.keep (consumeMatched_owns P _ _ _))
  intro kept
  apply matchedStr_bind_owns
  intro str
  apply assert_bind_owns
  exact .bind (.modify _) fun _ => .pure _

theorem readPartData_owns (fuel : Nat) (boundary : Option Bytes) (content : Option (Bytes × Nat)) :
    Owns ∅ (readPartData P fuel boundary content) ∅ := by
  apply Owns.bind (.keep (bufferedConsume_owns P _ _ _))
  intro found
  apply Owns.bind .get
  intro s
  apply Owns.bind (.modify _)
  intro _
  exact .ite (.pure _) (.ite (.pure _) (.pure _))

theorem fetchNextPart_owns (fuel : Nat) (state : Multipart.Token) :
    Owns ∅ (fetchNextPart P fuel state) ∅ := by
  apply Owns.bind .get
  intro s
  cases state with
  | MULTIPART_BEGIN =>
    apply Owns.bind (.keep (consumeMatched_owns P _ _ _))
    intro content
    apply Owns.bind (readGlobal_owns (Set.mem_singleton _))
    intro str
    apply Owns.bind (.ofExcept _)
    intro _
    exact .bind (readPartHeaders_owns P fuel _) fun _ => .pure _
  | PART_END => exact .bind (readPartHeaders_owns P fuel _) fun _ => .pure _
  | PART_BEGIN | PART_DATA => exact .bind (readPartData_owns P fuel _ _) fun _ => .pure _
  | MULTIPART_END => exact .pure _

end Owning

end Luaw.Concurrent
