import Luaw.Http.KeepAlive
import Luaw.Http.Streaming
import Luaw.Http.Uniform

/-!
# What a handler decides

A handler sets the status and appends to the body, and `dispatchAction` acts on the values that it
returns. A response goes out as the handler decided it if the handler and the dispatcher do not
name its status differently.
-/

namespace Luaw.Http

open Lua Program

inductive HandlerCall where
  | setStatus (status : Nat)
  | appendBody (bodyPart : Bytes)

/-- Content with its text. The last kind has neither strings nor `false`; as the first value that
a handler returns it is no number either. -/
inductive HandlerContent where
  | false
  | str (s : Bytes)
  | other (value : LuaValue) (tostring : Bytes)

inductive HandlerValue where
  | nil
  | number (n : Nat)
  | content (c : HandlerContent)

def HandlerContent.tostring : HandlerContent → Bytes
  | false => text "false"
  | str s => s
  | other _ tostring => tostring

namespace HandlerValue

def isFalsy : HandlerValue → Bool
  | nil | content .false => true
  | _ => false

def tostring : HandlerValue → Bytes
  | nil => text "nil"
  | number n => decimal n
  | content c => c.tostring

def toLua : HandlerValue → LuaValue
  | nil => .nil
  | number n => .int n
  | content .false => .bool false
  | content (.str s) => .str s
  | content (.other value _) => value

end HandlerValue

/-- The branch of `dispatchAction` that the returned `v1, v2` take. -/
def Returned.of (v1 v2 : HandlerValue) : Returned :=
  match v1 with
  | .nil | .content .false => .nothing
  | .number n => .status n (if v2.isFalsy then none else some v2.tostring)
  | .content (.str s) => if v2.isFalsy then .body s else .view s v2.toLua
  | .content (.other _ tostring) => .body tostring

def HandlerCall.run (rt : Runtime) : HandlerCall → MessageM Unit
  | setStatus status => modify fun resp => resp.setStatus status
  | appendBody bodyPart => Http.appendBody rt (some bodyPart)

def runCalls (rt : Runtime) : List HandlerCall → MessageM Unit
  | [] => pure ()
  | call :: calls => do
    call.run rt
    runCalls rt calls

/-- The body of a handler. -/
def runHandler (rt : Runtime) (calls : List HandlerCall) (v1 v2 : HandlerValue) :
    MessageM Returned := do
  runCalls rt calls
  pure (Returned.of v1 v2)

/-- What a handler returns: `rendered` are the strings that the view appends to the response. -/
inductive Decision where
  | nothing
  | number (code : Nat) (body : HandlerValue)
  | value (c : HandlerContent)
  | view (path : Bytes) (model : { v : HandlerValue // v.isFalsy = false })
      (rendered : List Bytes)

namespace Decision

def values : Decision → HandlerValue × HandlerValue
  | nothing => (.nil, .nil)
  | number code body => (.number code, body)
  | value c => (.content c, .nil)
  | view path model _ => (.content (.str path), model.val)

/-- The web application has the view, which appends these strings. -/
def Renders (rt : Runtime) (action : Action) (req : Request) : Decision → Prop
  | view path model rendered => ∃ compiledView, action.compiledViews path = some compiledView ∧
      compiledView req model.val.toLua = appendEach rt rendered
  | _ => True

/-- The status that the handler has set last. -/
def lastStatus : List HandlerCall → Option Nat → Option Nat
  | [], status => status
  | .setStatus status :: calls, _ => lastStatus calls (some status)
  | .appendBody _ :: calls, status => lastStatus calls status

def appended : List HandlerCall → List Bytes
  | [] => []
  | .setStatus _ :: calls => appended calls
  | .appendBody bodyPart :: calls => bodyPart :: appended calls

/-- The status decided by the handler. -/
def status (calls : List HandlerCall) : Decision → Nat
  | number code _ => code
  | _ => (lastStatus calls none).getD 200

/-- The body decided by the handler. -/
def body (calls : List HandlerCall) (d : Decision) : Bytes :=
  (appended calls).flatten ++
    match d with
    | nothing | number _ .nil => []
    | number _ body => body.tostring
    | value c => c.tostring
    | view _ _ rendered => rendered.flatten

/-- A view is streamed to a client that knows how to read chunks. -/
def streamed (minorVersion : Nat) : Decision → Bool
  | view _ _ _ => 1 ≤ minorVersion
  | _ => false

end Decision

def statusLine (status : Nat) : Bytes :=
  text "HTTP/1.1 " ++ decimal status ++ text " " ++ statusMesgOf status ++ CRLF

/-- The bytes are the start line, the given fields with the Transfer-Encoding in some order, and
one chunked body. -/
def FramesStreamed (bytes line : Bytes) (fields : List (Bytes × Bytes)) (body : Bytes) : Prop :=
  ∃ (block : List (Bytes × Bytes)) (chunks : Bytes),
    bytes = line ++ block.flatMap headerLine ++ CRLF ++ chunks ∧
    block.Perm ((text "Transfer-Encoding", text "chunked") :: fields) ∧ FramesChunked chunks body

/-- The bytes are one complete response. -/
def IsResponse (bytes : Bytes) (connection : Bytes) (streamed : Bool) (status : Nat)
    (body : Bytes) : Prop :=
  if streamed then FramesStreamed bytes (statusLine status) [(text "Connection", connection)] body
  else FramesFull bytes (statusLine status) [(text "Connection", connection)] body

/-- The dispatcher writes exactly the response that the handler decided. -/
def SendsDecision {σ : Type} (env : Env σ) (req : Request) (minorVersion : Nat) (conn : Conn)
    (calls : List HandlerCall) (d : Decision) : Prop :=
  ∃ resp bytes,
    exec (dispatchAction env req) (newServerHttpResponse conn) = (.ok (), resp) ∧
    resp.conn.written = conn.written ++ bytes ∧
    IsResponse bytes (connectionHeader req) (d.streamed minorVersion) (d.status calls)
      (d.body calls)

/-- A status other than 200 is returned, not set, if there is content to be returned; without
any content it is set. `false` is not returned. A streamed view leaves something in the buffer. -/
def Decision.Sent (rt : Runtime) (minorVersion : Nat) (calls : List HandlerCall) : Decision → Prop
  | nothing => lastStatus calls none ≠ none
  | number _ body => body ≠ .content .false
  | value c => c ≠ .false ∧ (lastStatus calls none).getD 200 = 200
  | view _ _ rendered => (lastStatus calls none).getD 200 = 200 ∧
      (1 ≤ minorVersion → 0 < leftover rt (appended calls).flatten.length rendered)

section Calls

variable (rt : Runtime)

/-- A response that has not been started: its status and its Connection header, and the strings in
its buffer. -/
structure Pending (m : Message) (conn : Conn) (decided : Option Nat) (connection : Bytes)
    (parts : List Bytes) : Prop where
  composed : Composed m [(text "Connection", connection)] parts
  conn : m.conn = conn
  mesgType : m.mesgType = .sresp
  method : m.method = none
  version : m.majorVersion = 1 ∧ m.minorVersion = 1
  status : m.status = decided
  statusMesg : m.statusMesg = decided.map statusMesgOf

variable {m : Message} {conn : Conn} {status : Option Nat} {connection : Bytes}
  {parts : List Bytes}

theorem Pending.setStatus (h : Pending m conn status connection parts) (code : Nat) :
    Pending (m.setStatus code) conn (some code) connection parts :=
  ⟨⟨h.composed.plain, h.composed.fields, h.composed.body⟩, h.conn, h.mesgType, h.method, h.version,
    rfl, rfl⟩

theorem Pending.appendBody (h : Pending m conn status connection parts) (part : Bytes) :
    Pending (m.setBodyParts (m.bodyParts.append (.str part))) conn status connection
      (parts ++ [part]) :=
  ⟨h.composed.appendBody part, h.conn, h.mesgType, h.method, h.version, h.status, h.statusMesg⟩

theorem Pending.exec_appendBody (h : Pending m conn status connection parts) (part : Bytes) :
    ∃ m', exec (Http.appendBody rt (some part)) m = (.ok (), m') ∧
      Pending m' conn status connection (parts ++ [part]) :=
  ⟨_, exec_appendBody_plain rt h.composed.plain part, h.appendBody part⟩

theorem Pending.exec_appendEach (h : Pending m conn status connection parts)
    (rendered : List Bytes) : ∃ m', exec (appendEach rt rendered) m = (.ok (), m') ∧
      Pending m' conn status connection (parts ++ rendered) := by
  induction rendered generalizing m parts with
  | nil => exact ⟨m, rfl, by rwa [List.append_nil]⟩
  | cons part rendered ih =>
    obtain ⟨m₁, hrun, h₁⟩ := h.exec_appendBody rt part
    obtain ⟨m₂, hrun', h₂⟩ := ih h₁
    refine ⟨m₂, (exec_bind_ok hrun).trans hrun', ?_⟩
    rwa [List.append_assoc, List.singleton_append] at h₂

/-- The calls set the last status and append their strings. -/
theorem Pending.exec_runCalls (h : Pending m conn status connection parts)
    (calls : List HandlerCall) : ∃ m', exec (runCalls rt calls) m = (.ok (), m') ∧
      Pending m' conn (Decision.lastStatus calls status) connection
        (parts ++ Decision.appended calls) := by
  induction calls generalizing m status parts with
  | nil => exact ⟨m, rfl, by rwa [Decision.appended, List.append_nil]⟩
  | cons call calls ih =>
    cases call with
    | setStatus code =>
      obtain ⟨m', hrun, h'⟩ := ih (h.setStatus code)
      exact ⟨m', hrun, h'⟩
    | appendBody part =>
      obtain ⟨m₁, hrun, h₁⟩ := h.exec_appendBody rt part
      obtain ⟨m₂, hrun', h₂⟩ := ih h₁
      refine ⟨m₂, (exec_bind_ok hrun).trans hrun', ?_⟩
      rwa [List.append_assoc, List.singleton_append] at h₂

theorem Pending.firstLine {code : Nat} (h : Pending m conn (some code) connection parts) :
    m.firstLine rt = .ok (statusLine code) := by
  have hstrs : firstResponseLine m = tableConcat ([text "HTTP/", decimal 1, text ".", decimal 1,
      text " ", decimal code, text " ", statusMesgOf code, CRLF].map .str) := by
    rw [firstResponseLine, h.version.1, h.version.2, h.status, h.statusMesg]
    rfl
  rw [Message.firstLine, h.mesgType]
  show firstResponseLine m = _
  have hversion : text "HTTP/1.1 " =
      text "HTTP/" ++ decimal 1 ++ text "." ++ decimal 1 ++ text " " := by decide
  rw [hstrs, tableConcat, concatFrom_strs, statusLine, hversion]
  simp

theorem Pending.no_firstLine (h : Pending m conn none connection parts) :
    ∃ e, m.firstLine rt = .error e := by
  cases hline : m.firstLine rt with
  | error e => exact ⟨e, rfl⟩
  | ok line =>
    have hset := (startLine_iff rt m).mp ⟨line, hline⟩
    rw [StartLineSet, h.mesgType] at hset
    exact absurd h.status hset.1

theorem Pending.no_params (h : Pending m conn status connection parts) : postParams rt m = none := by
  rw [postParams, h.method, if_neg (by rintro ⟨⟩)]

/-- Without a status the flush raises. -/
theorem Pending.flush_none (h : Pending m conn none connection parts) :
    ∃ e m', exec (flush rt) m = (.error (.raised e), m') := by
  obtain ⟨e, hline⟩ := h.no_firstLine rt
  exact ⟨e, _, flush_no_line h.composed.plain hline⟩

/-- The flush of a response that is not streamed. -/
theorem Pending.flush_some {code : Nat} (h : Pending m conn (some code) connection parts)
    (hacc : conn.Accepts) : ∃ m' bytes, exec (flush rt) m = (.ok (), m') ∧
      m'.conn.written = conn.written ++ bytes ∧
      FramesFull bytes (statusLine code) [(text "Connection", connection)] parts.flatten := by
  obtain ⟨m', block, hrun, -, hperm, hwritten⟩ | ⟨e, m', -, hno, -⟩ :=
    flush_ready h.composed (h.no_params rt) (h.firstLine rt)
  · refine ⟨m', _, hrun, h.conn ▸ hwritten, framesFull (fun field hfield => ?_) hperm⟩
    rw [List.mem_singleton.mp hfield]
    rfl
  · exact absurd (h.conn ▸ hacc) hno

/-- The header block of a streamed response. -/
theorem Pending.startStreaming {code : Nat} (h : Pending m conn (some code) connection parts)
    (hacc : conn.Accepts) : ∃ (m' : Message) (block : List (Bytes × Bytes)),
      exec (Http.startStreaming rt) m = (.ok (), m') ∧
      m'.conn.Accepts ∧ Streaming m'.conn.written [] parts m' ∧
      m'.conn.written = conn.written ++ (statusLine code ++ block.flatMap headerLine ++ CRLF) ∧
      block.Perm [(text "Transfer-Encoding", text "chunked"), (text "Connection", connection)] := by
  have hrun : exec (Http.startStreaming rt) m = exec (sendHeaders rt)
      ({ m with isChunked := true }.addHeader (text "Transfer-Encoding") (text "chunked")) :=
    exec_bind_ok (exec_modify _ m)
  have hline : ({ m with isChunked := true }.addHeader (text "Transfer-Encoding")
      (text "chunked")).firstLine rt = .ok (statusLine code) := h.firstLine rt
  rw [sendHeaders_ok hline] at hrun
  have hperm := (Headers.fields_perm rt _).trans
    ((Headers.entries_add (text "Transfer-Encoding") (text "chunked") m.headers).trans
      (h.composed.fields.cons _))
  obtain ⟨conn', hok, hwritten, hacc'⟩ | ⟨e, conn', -, -, -, hno⟩ := write_cases
    (headerBlock rt (statusLine code) (m.headers.add (text "Transfer-Encoding") (text "chunked")))
    { m with isChunked := true, headers := [] }
  · refine ⟨_, _, hrun.trans hok, hacc' (h.conn ▸ hacc), ⟨rfl, ?_, h.composed.body, nofun⟩, ?_,
      hperm⟩
    · exact (List.append_nil _).symm
    · exact hwritten.trans (congrArg (fun c : Conn => c.written ++ _) h.conn)
  · exact absurd (h.conn ▸ hacc) hno

end Calls

namespace Decision

/-- The status of the response that the dispatcher tries to send. -/
def sentStatus (calls : List HandlerCall) : Decision → Option Nat
  | nothing | value .false => lastStatus calls none
  | number code _ => some code
  | value _ | view _ _ _ => some 200

/-- The body of that response. -/
def sentBody (calls : List HandlerCall) (d : Decision) : Bytes :=
  (appended calls).flatten ++
    match d with
    | nothing | value .false => []
    | number _ body => if body.isFalsy then [] else body.tostring
    | value c => c.tostring
    | view _ _ rendered => rendered.flatten

end Decision

section Dispatch

variable {σ : Type} {env : Env σ} {req : Request} {action : Action} {calls : List HandlerCall}
  {d : Decision} {minorVersion : Nat}

/-- The response when the handler has returned. -/
theorem exec_dispatch (hfind : actionOf env req = .ok (some action))
    (hhandler : action.handler req = runHandler env.rt calls d.values.1 d.values.2) (conn : Conn) :
    ∃ m, exec (dispatchAction env req) (newServerHttpResponse conn) = exec (do
        handleReturned env action req (Returned.of d.values.1 d.values.2)
        flush env.rt) m ∧
      Pending m conn (Decision.lastStatus calls none) (connectionHeader req)
        (Decision.appended calls) := by
  have hnew : Pending { newServerHttpResponse conn with
        headers := Headers.assign (text "Connection") (connectionHeader req) [] } conn none
      (connectionHeader req) [] :=
    ⟨⟨rfl, .refl _, Buffer.holds_new⟩, rfl, rfl, rfl, ⟨rfl, rfl⟩, rfl, rfl⟩
  obtain ⟨m, hrun, hm⟩ := hnew.exec_runCalls env.rt calls
  refine ⟨m, ?_, hm⟩
  rw [dispatchAction, hfind, exec_bind_ok (exec_ofExcept_ok _ _)]
  show exec (modify _ >>= _) (newServerHttpResponse conn) = _
  rw [exec_bind_ok (exec_modify _ _), hhandler]
  refine exec_bind_ok ?_
  exact (exec_bind_ok hrun).trans rfl

section Returned

variable {m : Message} {conn : Conn} {status : Option Nat} {connection : Bytes}
  {parts : List Bytes}

theorem Pending.returned_status (env : Env σ) (action : Action) (req : Request)
    (h : Pending m conn status connection parts)
    (code : Nat) (body : Option Bytes) : ∃ m₁,
      exec (handleReturned env action req (.status code body)) m = (.ok (), m₁) ∧
      Pending m₁ conn (some code) connection (parts ++ body.toList) := by
  cases body with
  | none => exact ⟨_, rfl, by simpa using h.setStatus code⟩
  | some content =>
    obtain ⟨m₁, hrun, h₁⟩ := (h.setStatus code).exec_appendBody env.rt content
    exact ⟨m₁, (exec_bind_ok (exec_modify _ m)).trans hrun, h₁⟩

theorem Pending.returned_body (env : Env σ) (action : Action) (req : Request)
    (h : Pending m conn status connection parts) (content : Bytes) :
    ∃ m₁, exec (handleReturned env action req (.body content)) m = (.ok (), m₁) ∧
      Pending m₁ conn (some 200) connection (parts ++ [content]) := by
  obtain ⟨m₁, hrun, h₁⟩ := (h.setStatus 200).exec_appendBody env.rt content
  exact ⟨m₁, (exec_bind_ok (exec_modify _ m)).trans hrun, h₁⟩

/-- A view is rendered after the status has been set, and after the headers if it is streamed. -/
theorem exec_returned_view {path : Bytes} {model : LuaValue}
    {view : Request → LuaValue → MessageM Unit} {rendered : List Bytes}
    (hview : action.compiledViews path = some view)
    (hrendered : view req model = appendEach env.rt rendered) (hmajor : req.majorVersion = some 1)
    (hminor : req.minorVersion = some minorVersion) :
    exec (handleReturned env action req (.view path model)) m =
      exec (do
        if 1 ≤ minorVersion then startStreaming env.rt else pure ()
        appendEach env.rt rendered) (m.setStatus 200) := by
  rw [handleReturned, exec_bind_ok (exec_modify _ m), hview]
  show exec (renderView env req model view) _ = _
  rw [renderView, hmajor, hminor, hrendered]
  by_cases hversion : 1 ≤ minorVersion
  · rw [if_pos ⟨le_rfl, hversion⟩, if_pos hversion]
  · rw [if_neg fun h => hversion h.2, if_neg hversion]

end Returned

theorem returned_view (path : Bytes) (model : { v : HandlerValue // v.isFalsy = false }) :
    Returned.of (.content (.str path)) model.val = .view path model.val.toLua := by
  rw [Returned.of, model.property, if_neg Bool.false_ne_true]

/-- Before the flush a response that is not streamed has its status, if any, and its body. -/
theorem exec_returned_plain {m : Message} {conn : Conn} {connection : Bytes}
    (hm : Pending m conn (Decision.lastStatus calls none) connection (Decision.appended calls))
    (hplain : d.streamed minorVersion = false) (hrenders : d.Renders env.rt action req)
    (hmajor : req.majorVersion = some 1) (hminor : req.minorVersion = some minorVersion) :
    ∃ m₁ parts, exec (handleReturned env action req (Returned.of d.values.1 d.values.2)) m =
        (.ok (), m₁) ∧
      Pending m₁ conn (d.sentStatus calls) connection parts ∧
      parts.flatten = d.sentBody calls := by
  cases d with
  | nothing => exact ⟨m, _, rfl, hm, (List.append_nil _).symm⟩
  | number code body =>
    obtain ⟨m₁, hrun, h₁⟩ := hm.returned_status env action req code
      (if body.isFalsy then none else some body.tostring)
    refine ⟨m₁, _, hrun, h₁, ?_⟩
    rw [List.flatten_append, Decision.sentBody]
    cases body.isFalsy <;> simp
  | value c =>
    cases c with
    | «false» => exact ⟨m, _, rfl, hm, (List.append_nil _).symm⟩
    | str s =>
      obtain ⟨m₁, hrun, h₁⟩ := hm.returned_body env action req s
      exact ⟨m₁, _, hrun, h₁, by simp [Decision.sentBody, HandlerContent.tostring]⟩
    | other value tostring =>
      obtain ⟨m₁, hrun, h₁⟩ := hm.returned_body env action req tostring
      exact ⟨m₁, _, hrun, h₁, by simp [Decision.sentBody, HandlerContent.tostring]⟩
  | view path model rendered =>
    obtain ⟨view, hview, hrendered⟩ := hrenders
    have hversion : ¬1 ≤ minorVersion := of_decide_eq_false hplain
    obtain ⟨m₁, hrun, h₁⟩ := (hm.setStatus 200).exec_appendEach env.rt rendered
    refine ⟨m₁, _, ?_, h₁, List.flatten_append⟩
    show exec (handleReturned env action req (Returned.of (.content (.str path)) model.val)) m = _
    rw [returned_view, exec_returned_view hview hrendered hmajor hminor, if_neg hversion]
    exact hrun

/-- The dispatch of a response that is not streamed. -/
theorem dispatch_plain (hfind : actionOf env req = .ok (some action))
    (hhandler : action.handler req = runHandler env.rt calls d.values.1 d.values.2)
    (hplain : d.streamed minorVersion = false) (hrenders : d.Renders env.rt action req)
    (hmajor : req.majorVersion = some 1) (hminor : req.minorVersion = some minorVersion)
    {conn : Conn} (hacc : conn.Accepts) :
    (d.sentStatus calls = none ∧ ∃ e resp,
      exec (dispatchAction env req) (newServerHttpResponse conn) = (.error (.raised e), resp)) ∨
    ∃ code resp bytes, d.sentStatus calls = some code ∧
      exec (dispatchAction env req) (newServerHttpResponse conn) = (.ok (), resp) ∧
      resp.conn.written = conn.written ++ bytes ∧
      FramesFull bytes (statusLine code) [(text "Connection", connectionHeader req)]
        (d.sentBody calls) := by
  obtain ⟨m, hdispatch, hm⟩ := exec_dispatch hfind hhandler conn
  obtain ⟨m₁, parts, hrun, h₁, hparts⟩ := exec_returned_plain hm hplain hrenders hmajor hminor
  rw [exec_bind_ok hrun] at hdispatch
  cases hstatus : d.sentStatus calls with
  | none =>
    rw [hstatus] at h₁
    obtain ⟨e, resp, hflush⟩ := h₁.flush_none env.rt
    exact .inl ⟨rfl, e, resp, hdispatch.trans hflush⟩
  | some code =>
    rw [hstatus] at h₁
    obtain ⟨resp, bytes, hflush, hwritten, hframes⟩ := h₁.flush_some env.rt hacc
    exact .inr ⟨code, resp, bytes, rfl, hdispatch.trans hflush, hwritten, hparts ▸ hframes⟩

/-- The dispatch of a streamed response. -/
theorem dispatch_streamed {path : Bytes} {model : { v : HandlerValue // v.isFalsy = false }}
    {rendered : List Bytes} (hfind : actionOf env req = .ok (some action))
    (hhandler : action.handler req = runHandler env.rt calls (.content (.str path)) model.val)
    (hrenders : (Decision.view path model rendered).Renders env.rt action req)
    (hversion : 1 ≤ minorVersion)
    (hmajor : req.majorVersion = some 1) (hminor : req.minorVersion = some minorVersion)
    {conn : Conn} (hacc : conn.Accepts) :
    ∃ (resp : Message) (block : List (Bytes × Bytes)) (chunks : Bytes),
      exec (dispatchAction env req) (newServerHttpResponse conn) = (.ok (), resp) ∧
      resp.conn.written = conn.written ++
        (statusLine 200 ++ block.flatMap headerLine ++ CRLF ++ chunks) ∧
      block.Perm [(text "Transfer-Encoding", text "chunked"),
        (text "Connection", connectionHeader req)] ∧
      (FramesChunked chunks ((Decision.appended calls).flatten ++ rendered.flatten) ↔
        0 < leftover env.rt (Decision.appended calls).flatten.length rendered) := by
  obtain ⟨m, hdispatch, hm⟩ := exec_dispatch (d := .view path model rendered) hfind hhandler conn
  obtain ⟨view, hview, hrendered⟩ := hrenders
  obtain ⟨m₁, block, hstart, hacc₁, hstreaming, hwritten, hblock⟩ :=
    (hm.setStatus 200).startStreaming env.rt hacc
  obtain ⟨hends, hbody⟩ := hstreaming.streamBody env.rt rendered
  obtain ⟨m₂, hrun⟩ := hends hacc₁
  obtain ⟨chunks, hchunks, hframes⟩ := hbody m₂ hrun
  refine ⟨m₂, block, chunks, ?_, ?_, hblock, hframes⟩
  · have hreturned := exec_returned_view (m := m) hview hrendered hmajor hminor
    rw [if_pos hversion] at hreturned
    rw [hdispatch]
    show exec (handleReturned env action req (Returned.of (.content (.str path)) model.val) >>= _) m = _
    rw [returned_view, exec_bind, hreturned, ← exec_bind, bind_assoc, exec_bind_ok hstart]
    exact hrun
  · rw [hchunks, hwritten, List.append_assoc]

end Dispatch

section Responses

theorem statusLine_injective {status status' : Nat} {rest rest' : Bytes}
    (h : statusLine status ++ rest = statusLine status' ++ rest') : status = status' := by
  have htake : ∀ (n : Nat) (after : Bytes),
      (decimal n ++ 32 :: after).takeWhile (· ≠ 32) = decimal n := by
    intro n after
    have hdigits : ∀ b ∈ decimal n, decide (b ≠ 32) = true := by
      rintro b hb
      refine decide_eq_true fun hblank => ?_
      exact absurd (hblank ▸ (digit_of_mem_decimal hb).1) (by decide)
    rw [List.takeWhile_append_of_pos hdigits]
    exact List.append_nil _
  simp only [statusLine, List.append_assoc] at h
  have h' : decimal status ++ 32 :: (statusMesgOf status ++ (CRLF ++ rest)) =
      decimal status' ++ 32 :: (statusMesgOf status' ++ (CRLF ++ rest')) :=
    List.append_cancel_left h
  have hdecimal := congrArg (List.takeWhile (· ≠ 32)) h'
  rw [htake, htake] at hdecimal
  exact decimal_injective hdecimal

theorem length_block {block fields : List (Bytes × Bytes)} (h : block.Perm fields) :
    (block.flatMap headerLine).length = (fields.flatMap headerLine).length :=
  (h.flatMap_right _).length_eq

/-- The bytes tell the status and the body of a response. -/
theorem framesFull_unique {bytes connection body body' : Bytes} {status status' : Nat}
    (h : FramesFull bytes (statusLine status) [(text "Connection", connection)] body)
    (h' : FramesFull bytes (statusLine status') [(text "Connection", connection)] body') :
    status = status' ∧ body = body' := by
  obtain ⟨block, hbytes, hperm, -⟩ := h
  obtain ⟨block', hbytes', hperm', -⟩ := h'
  have heq : statusLine status ++ (block.flatMap headerLine ++ CRLF ++ body) =
      statusLine status' ++ (block'.flatMap headerLine ++ CRLF ++ body') := by
    rw [hbytes] at hbytes'
    simpa only [List.append_assoc] using hbytes'
  have hstatus := statusLine_injective heq
  subst hstatus
  have hrest := List.append_cancel_left heq
  have hlen := congrArg List.length hrest
  have hblock := length_block hperm
  have hblock' := length_block hperm'
  simp only [List.length_append, List.flatMap_cons, List.flatMap_nil, headerLine, contentLength,
    List.length_nil] at hlen hblock hblock'
  -- a longer body has no shorter length field
  have hbody : body.length = body'.length := by
    obtain hle | hle := Nat.le_total body.length body'.length <;>
      have hmono := length_decimal_mono hle <;> omega
  exact ⟨rfl, (List.append_inj' hrest hbody).2⟩

/-- The header block has the same length in whatever order its fields are sent. -/
theorem framesStreamed_iff {block : List (Bytes × Bytes)} {fields : List (Bytes × Bytes)}
    {chunks body : Bytes} {status status' : Nat}
    (hblock : block.Perm ((text "Transfer-Encoding", text "chunked") :: fields)) :
    FramesStreamed (statusLine status ++ block.flatMap headerLine ++ CRLF ++ chunks)
      (statusLine status') fields body ↔ status = status' ∧ FramesChunked chunks body := by
  constructor
  · rintro ⟨block', chunks', hbytes, hperm, hframes⟩
    simp only [List.append_assoc] at hbytes
    have hstatus := statusLine_injective hbytes
    subst hstatus
    have hrest := List.append_cancel_left hbytes
    have hlen := (length_block hblock).trans (length_block hperm).symm
    have hchunks := List.append_cancel_left (List.append_inj hrest hlen).2
    exact ⟨rfl, hchunks ▸ hframes⟩
  · rintro ⟨rfl, hframes⟩
    exact ⟨block, chunks, rfl, hblock, hframes⟩

/-- A response that is not streamed is sent with its own status and body. -/
theorem Decision.sent_plain {rt : Runtime} {minorVersion : Nat} {calls : List HandlerCall}
    {d : Decision} (hplain : d.streamed minorVersion = false) :
    d.Sent rt minorVersion calls ↔
      d.sentStatus calls = some (d.status calls) ∧ d.sentBody calls = d.body calls := by
  have hfalse : (appended calls).flatten ++ [] ≠
      (appended calls).flatten ++ HandlerContent.false.tostring :=
    fun h => absurd (List.append_cancel_left h) (by decide)
  cases d with
  | nothing =>
    show lastStatus calls none ≠ none ↔ lastStatus calls none = _ ∧ _
    cases hstatus : lastStatus calls none <;> simp [status, hstatus, sentBody, body]
  | number code content =>
    cases content with
    | nil => exact ⟨fun _ => ⟨rfl, rfl⟩, fun _ => nofun⟩
    | number n => exact ⟨fun _ => ⟨rfl, rfl⟩, fun _ => nofun⟩
    | content c =>
      cases c with
      | «false» => exact ⟨fun h => absurd rfl h, fun h => absurd h.2 hfalse⟩
      | str s => exact ⟨fun _ => ⟨rfl, rfl⟩, fun _ => nofun⟩
      | other value tostring => exact ⟨fun _ => ⟨rfl, rfl⟩, fun _ => nofun⟩
  | value c =>
    cases c with
    | «false» => exact ⟨fun h => absurd rfl h.1, fun h => absurd h.2 hfalse⟩
    | str s => exact ⟨fun h => ⟨congrArg some h.2.symm, rfl⟩,
        fun h => ⟨nofun, (Option.some.inj h.1).symm⟩⟩
    | other value tostring => exact ⟨fun h => ⟨congrArg some h.2.symm, rfl⟩,
        fun h => ⟨nofun, (Option.some.inj h.1).symm⟩⟩
  | view path model rendered =>
    have hversion : ¬1 ≤ minorVersion := of_decide_eq_false hplain
    exact ⟨fun h => ⟨congrArg some h.1.symm, rfl⟩,
      fun h => ⟨(Option.some.inj h.1).symm, fun hle => absurd hle hversion⟩⟩

end Responses

section Decided

variable {σ : Type} {env : Env σ} {req : Request} {action : Action} {calls : List HandlerCall}
  {d : Decision} {minorVersion : Nat}

theorem sendsDecision_iff {conn : Conn} {resp : Message} {bytes : Bytes}
    (hrun : exec (dispatchAction env req) (newServerHttpResponse conn) = (.ok (), resp))
    (hwritten : resp.conn.written = conn.written ++ bytes) :
    SendsDecision env req minorVersion conn calls d ↔
      IsResponse bytes (connectionHeader req) (d.streamed minorVersion) (d.status calls)
        (d.body calls) := by
  constructor
  · rintro ⟨resp', bytes', hrun', hwritten', hresponse⟩
    have hresp : resp = resp' := congrArg Prod.snd (hrun.symm.trans hrun')
    have hbytes : bytes = bytes' :=
      List.append_cancel_left (hwritten.symm.trans (hresp ▸ hwritten'))
    exact hbytes ▸ hresponse
  · exact fun hresponse => ⟨resp, bytes, hrun, hwritten, hresponse⟩

/-- Which decisions are sent as they were made. -/
theorem dispatchAction_sends_iff (hfind : actionOf env req = .ok (some action))
    (hhandler : action.handler req = runHandler env.rt calls d.values.1 d.values.2)
    (hrenders : d.Renders env.rt action req) (hmajor : req.majorVersion = some 1)
    (hminor : req.minorVersion = some minorVersion) {conn : Conn} (hacc : conn.Accepts) :
    SendsDecision env req minorVersion conn calls d ↔ d.Sent env.rt minorVersion calls := by
  cases hstreamed : d.streamed minorVersion with
  | false =>
    rw [Decision.sent_plain hstreamed]
    obtain ⟨hnone, e, resp, hrun⟩ | ⟨code, resp, bytes, hcode, hrun, hwritten, hframes⟩ :=
      dispatch_plain hfind hhandler hstreamed hrenders hmajor hminor hacc
    · constructor
      · rintro ⟨resp', bytes, hrun', -⟩
        exact nomatch hrun.symm.trans hrun'
      · rintro ⟨hstatus, -⟩
        exact nomatch hnone.symm.trans hstatus
    · rw [sendsDecision_iff hrun hwritten, IsResponse, hstreamed, if_neg Bool.false_ne_true, hcode]
      constructor
      · intro hresponse
        obtain ⟨hstatus, hbody⟩ := framesFull_unique hframes hresponse
        exact ⟨congrArg some hstatus, hbody⟩
      · rintro ⟨hstatus, hbody⟩
        rw [← hbody, ← Option.some.inj hstatus]
        exact hframes
  | true =>
    cases d with
    | nothing => nomatch hstreamed
    | number code body => nomatch hstreamed
    | value c => nomatch hstreamed
    | view path model rendered =>
      have hversion : 1 ≤ minorVersion := of_decide_eq_true hstreamed
      obtain ⟨resp, block, chunks, hrun, hwritten, hblock, hchunks⟩ :=
        dispatch_streamed hfind hhandler hrenders hversion hmajor hminor hacc
      rw [sendsDecision_iff hrun hwritten, IsResponse, hstreamed, if_pos rfl,
        framesStreamed_iff hblock]
      constructor
      · exact fun hresponse => ⟨hresponse.1.symm, fun _ => hchunks.mp hresponse.2⟩
      · exact fun ⟨hstatus, hleft⟩ => ⟨hstatus.symm, hchunks.mpr (hleft hversion)⟩

end Decided

section Missing

theorem uniform_runHandler (rt : Runtime) (calls : List HandlerCall) (v1 v2 : HandlerValue) :
    Uniform (runHandler rt calls v1 v2) := by
  refine Uniform.bind ?_ fun _ => Uniform.pure _
  induction calls with
  | nil => exact Uniform.pure _
  | cons call calls ih =>
    refine Uniform.bind ?_ fun _ => ih
    cases call with
    | setStatus status => exact Uniform.modify fun _ _ => rfl
    | appendBody bodyPart => exact Uniform.appendBody rt (some bodyPart)

/-- A page that is not there: the handler sets the status and returns the text. -/
def missingCalls : List HandlerCall := [.setStatus 404]

def missingPage : Decision := .value (.str (text "no such page"))

def missingAction : Action where
  handler _ := runHandler Runtime.default missingCalls missingPage.values.1 missingPage.values.2
  handler_uniform _ := uniform_runHandler _ _ _ _
  compiledViews _ := none
  views_uniform := noViews_uniform

def missingEnv : Env Script where
  rt := Runtime.default
  parser := getParser 1 true
  findAction _ _ _ := .ok (some missingAction)
  overwritten := []

def missingRequest : Request :=
  { newServerHttpRequest with
    method := some (text "GET"), parsedURL := some ⟨some (text "/missing"), none⟩,
    majorVersion := some 1, minorVersion := some 1 }

theorem missing_registered : actionOf missingEnv missingRequest = .ok (some missingAction) := rfl

theorem missing_handler : missingAction.handler missingRequest =
    runHandler missingEnv.rt missingCalls missingPage.values.1 missingPage.values.2 := rfl

theorem missing_sends_iff :
    SendsDecision missingEnv missingRequest 1 (connOf []) missingCalls missingPage ↔
      missingPage.Sent Runtime.default 1 missingCalls :=
  dispatchAction_sends_iff missing_registered missing_handler trivial rfl rfl
    (⟨rfl, rfl⟩ : (connOf []).Accepts)

/-- The page is sent with the status 200. -/
theorem missing_page_found :
    ¬SendsDecision missingEnv missingRequest 1 (connOf []) missingCalls missingPage := by
  obtain ⟨hnone, -⟩ | ⟨code, resp, bytes, hcode, hrun, hwritten, hframes⟩ :=
    dispatch_plain missing_registered missing_handler rfl trivial rfl rfl
      (⟨rfl, rfl⟩ : (connOf []).Accepts)
  · cases hnone
  · cases hcode
    rw [sendsDecision_iff hrun hwritten]
    intro hresponse
    exact absurd (framesFull_unique hframes hresponse).1 (by decide)

end Missing

end Luaw.Http
