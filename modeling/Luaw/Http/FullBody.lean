import Luaw.Http.Params
import Luaw.Http.Sending

/-!
# Sending a body in one piece

A message that is not streamed is sent as a header block with a Content-Length and the body. A
response whose flush raises gets a second try with status 500. The length is right, and there
is one only, exactly when the start line can be built at the first try and no parameters of a
POST have to be sent.
-/

namespace Luaw.Http

open Lua Program

theorem HeaderValue.values_add (value : HeaderValue) (v : Bytes) :
    (value.add v).values = value.values ++ [v] := by
  cases value <;> rfl

theorem Headers.entries_cons (name : Bytes) (value : HeaderValue) (headers : Headers) :
    Headers.entries ((name, value) :: headers) =
      value.values.map (fun v => (name, v)) ++ Headers.entries headers := rfl

/-- Adding a header adds one field. -/
theorem Headers.entries_add (hName hValue : Bytes) (headers : Headers) :
    (Headers.entries (headers.add hName hValue)).Perm ((hName, hValue) :: headers.entries) := by
  induction headers with
  | nil => exact .refl _
  | cons entry headers ih =>
    obtain ⟨name, currValues⟩ := entry
    rw [Headers.add]
    split
    · next heq =>
      subst heq
      rw [Headers.entries_cons, Headers.entries_cons, HeaderValue.values_add, List.map_append,
        List.append_assoc]
      exact List.perm_middle
    · rw [Headers.entries_cons, Headers.entries_cons]
      exact (ih.append_left _).trans List.perm_middle

theorem Headers.fields_perm (rt : Runtime) (headers : Headers) :
    (headers.fields rt).Perm headers.entries :=
  (rt.pairs_perm headers).flatMap_right _

/-- The message is not streamed, its headers are the given fields in some order, and its buffer
has the given strings. -/
structure Composed (m : Message) (fields : List (Bytes × Bytes)) (parts : List Bytes) : Prop where
  plain : m.isChunked = false
  fields : m.headers.entries.Perm fields
  body : m.bodyParts.Holds parts

theorem Composed.addHeader {m : Message} {fields : List (Bytes × Bytes)} {parts : List Bytes}
    (h : Composed m fields parts) (hName hValue : Bytes) :
    Composed (m.addHeader hName hValue) ((hName, hValue) :: fields) parts :=
  ⟨h.plain, (Headers.entries_add hName hValue m.headers).trans (h.fields.cons _), h.body⟩

theorem exec_appendBody_plain (rt : Runtime) {m : Message} (h : m.isChunked = false)
    (part : Bytes) :
    exec (appendBody rt (some part)) m =
      (.ok (), m.setBodyParts (m.bodyParts.append (.str part))) := by
  rw [appendBody, exec_bind_ok (exec_modify _ m), exec_bind_ok (exec_get _)]
  simp [Message.setBodyParts, h]

theorem Composed.appendBody {m : Message} {fields : List (Bytes × Bytes)} {parts : List Bytes}
    (h : Composed m fields parts) (part : Bytes) :
    Composed (m.setBodyParts (m.bodyParts.append (.str part))) fields (parts ++ [part]) :=
  ⟨h.plain, h.fields, h.body.append part⟩

/-- The parameters that `writeFullBody` has to send in the body. -/
def postParams (rt : Runtime) (m : Message) : Option (List Bytes) :=
  if m.method = some (text "POST") then (urlEncodeParams rt m.params).map Prod.fst else none

/-- A POST with a non-empty table of parameters. -/
def PostsParams (m : Message) : Prop :=
  m.method = some (text "POST") ∧ ∃ param params, m.params = some (param :: params)

theorem postParams_eq_none_iff (rt : Runtime) (m : Message) :
    postParams rt m = none ↔ ¬PostsParams m := by
  rw [postParams, PostsParams]
  by_cases hmethod : m.method = some (text "POST")
  · rw [if_pos hmethod, Option.map_eq_none_iff]
    rcases hparams : m.params with - | params
    · simp [urlEncodeParams]
    · cases params with
      | nil =>
        have hnil : rt.pairs ([] : List (Bytes × Bytes)) = [] :=
          List.perm_nil.mp (rt.pairs_perm _)
        simp [urlEncodeParams, hnil]
      | cons param params =>
        have hpos : rt.pairs (param :: params) ≠ [] := fun hnil =>
          List.cons_ne_nil param params (List.nil_perm.mp (hnil ▸ rt.pairs_perm _))
        obtain ⟨entry, entries, hpairs⟩ := List.exists_cons_of_ne_nil hpos
        simp [urlEncodeParams, hpairs, hmethod]
  · simp [hmethod]

theorem addParams_none {rt : Runtime} {m : Message} (h : postParams rt m = none) :
    addParams rt m = m := by
  rw [addParams]
  split
  · next hmethod =>
    rw [postParams, if_pos hmethod, Option.map_eq_none_iff] at h
    rw [h]
  · rfl

theorem addParams_some {rt : Runtime} {m : Message} {encoded : List Bytes}
    (h : postParams rt m = some encoded) :
    addParams rt m = (m.addHeader (text "Content-Type")
      (text "application/x-www-form-urlencoded")).setBodyParts
        (m.bodyParts.append (.list encoded)) := by
  rw [postParams] at h
  split at h
  · next hmethod =>
    obtain ⟨⟨encodedParams, len⟩, hparams, rfl⟩ := Option.map_eq_some_iff.mp h
    rw [addParams, if_pos hmethod, hparams]
    rfl
  · cases h

/-- What the start line is made of has been set. -/
def StartLineSet (m : Message) : Prop :=
  match m.mesgType with
  | .sresp => m.status ≠ none ∧ m.statusMesg ≠ none
  | .creq => m.method ≠ none ∧ m.url ≠ none

theorem startLine_iff (rt : Runtime) (m : Message) :
    (∃ line, m.firstLine rt = .ok line) ↔ StartLineSet m := by
  rw [Message.firstLine, StartLineSet]
  cases m.mesgType with
  | sresp =>
    simp only [firstResponseLine]
    obtain - | status := m.status
    · exact iff_of_false (fun ⟨line, h⟩ => nomatch h) fun h => h.1 rfl
    · obtain - | statusMesg := m.statusMesg
      · exact iff_of_false (fun ⟨line, h⟩ => nomatch h) fun h => h.2 rfl
      · exact iff_of_true ⟨_, rfl⟩ ⟨nofun, nofun⟩
  | creq =>
    -- with a URL its parameters can always be appended
    have hurl : (m.url ≠ none ∧ ∃ url, buildURL rt m = .ok (some url)) ∨
        (m.url = none ∧ ((∃ e, buildURL rt m = .error e) ∨ buildURL rt m = .ok none)) := by
      rw [buildURL]
      obtain - | url := m.url
      · right
        refine ⟨rfl, ?_⟩
        split
        · split
          · exact .inl ⟨_, rfl⟩
          · exact .inr rfl
        · exact .inr rfl
      · refine .inl ⟨nofun, ?_⟩
        split
        · split
          · next encodedParams _ _ =>
            exact ⟨_, congrArg (Except.map some)
              (concatFrom_strs 1 (url :: text "?" :: encodedParams))⟩
          · exact ⟨url, rfl⟩
        · exact ⟨url, rfl⟩
    simp only [firstRequestLine]
    obtain ⟨hsome, url, hurl⟩ | ⟨hnone, ⟨e, hurl⟩ | hurl⟩ := hurl
    · rw [hurl]
      obtain - | method := m.method
      · exact iff_of_false (fun ⟨line, h⟩ => nomatch h) fun h => h.1 rfl
      · exact iff_of_true ⟨_, rfl⟩ ⟨nofun, hsome⟩
    · rw [hurl]
      exact iff_of_false (fun ⟨line, h⟩ => nomatch h) fun h => h.2 hnone
    · rw [hurl]
      obtain - | method := m.method
      · exact iff_of_false (fun ⟨line, h⟩ => nomatch h) fun h => h.1 rfl
      · exact iff_of_false (fun ⟨line, h⟩ => nomatch h) fun h => h.2 hnone

def isContentLength (field : Bytes × Bytes) : Bool := lowerCase field.1 = text "content-length"

/-- The headers that say where a body ends. -/
def isFraming (field : Bytes × Bytes) : Bool :=
  isContentLength field || lowerCase field.1 = text "transfer-encoding"

def contentLength (body : Bytes) : Bytes × Bytes :=
  (text "Content-Length", decimal body.length)

/-- The bytes are the start line, the given fields with one Content-Length in some order, and
the body, whose length is the value of the only Content-Length. -/
def FramesFull (bytes line : Bytes) (fields : List (Bytes × Bytes)) (body : Bytes) : Prop :=
  ∃ block : List (Bytes × Bytes),
    bytes = line ++ block.flatMap headerLine ++ CRLF ++ body ∧
    block.Perm (contentLength body :: fields) ∧
    (block.filter isContentLength).map Prod.snd = [decimal body.length]

theorem framesFull {line body : Bytes} {fields block : List (Bytes × Bytes)}
    (hown : ∀ field ∈ fields, isFraming field = false)
    (h : block.Perm (contentLength body :: fields)) :
    FramesFull (line ++ block.flatMap headerLine ++ CRLF ++ body) line fields body := by
  refine ⟨block, rfl, h, ?_⟩
  have hnone : fields.filter isContentLength = [] := by
    rw [List.filter_eq_nil_iff]
    intro field hfield
    have := hown field hfield
    rw [isFraming, Bool.or_eq_false_iff] at this
    simp [this.1]
  have hfilter := h.filter isContentLength
  rw [List.filter_cons_of_pos rfl, hnone] at hfilter
  rw [List.perm_singleton.mp hfilter]
  rfl

/-- A header block with one more field does not have the right length. -/
theorem not_framesFull {line body : Bytes} {fields block : List (Bytes × Bytes)}
    {extra : Bytes × Bytes} (h : block.Perm (extra :: contentLength body :: fields)) :
    ¬FramesFull (line ++ block.flatMap headerLine ++ CRLF ++ body) line fields body := by
  rintro ⟨block', heq, hperm, -⟩
  have hsize := congrArg List.length heq
  have hlen := (h.flatMap_right headerLine).length_eq
  have hlen' := (hperm.flatMap_right headerLine).length_eq
  have hextra : 0 < (headerLine extra).length := by
    simp only [headerLine, List.length_append, CRLF, List.length_cons]
    omega
  simp only [List.flatMap_cons, List.length_append] at hsize hlen hlen'
  omega

/-- The error path of `serviceHTTP`; its last result is not looked at there. -/
def sendError (rt : Runtime) (errMesg : LuaError) : MessageM (Except LuaError Unit) := do
  modify fun resp => (resp.setStatus 500).addHeader (text "Connection") (text "close")
  let _ ← pcall (appendBody rt (some errMesg))
  pcall (flush rt)

/-- A flush, and the error path after it when a response could not be flushed. The result says
with which error the first flush failed, if the second succeeded. -/
def deliver (rt : Runtime) : MessageM (Except LuaError (Option LuaError)) := do
  let resp ← get
  let result ← pcall (flush rt)
  match result, resp.mesgType with
  | .ok _, _ => pure (.ok none)
  | .error errMesg, .creq => pure (.error errMesg)
  | .error errMesg, .sresp => do
    let result ← sendError rt errMesg
    pure (result.map fun _ => some errMesg)

/-- The fields that the message should be sent with, apart from its Content-Length. -/
def expectedFields (rt : Runtime) (m : Message) (fields : List (Bytes × Bytes)) :
    Option LuaError → List (Bytes × Bytes)
  | none => match postParams rt m with
    | none => fields
    | some _ => (text "Content-Type", text "application/x-www-form-urlencoded") :: fields
  | some _ => (text "Connection", text "close") :: fields

/-- The body that the message should be sent with. -/
def expectedBody (rt : Runtime) (m : Message) (parts : List Bytes) : Option LuaError → Bytes
  | none => parts.flatten ++ ((postParams rt m).getD []).flatten
  | some errMesg => parts.flatten ++ errMesg

def Message.withConn (m : Message) (conn : Conn) : Message := { m with conn }

/-- On every connection, the flush that succeeds has written exactly one correctly framed
message; and one does succeed when the connection accepts everything. -/
def Delivers (rt : Runtime) (m : Message) (fields : List (Bytes × Bytes)) (parts : List Bytes) :
    Prop :=
  ∀ conn : Conn,
    (∀ failure m', exec (deliver rt) (m.withConn conn) = (.ok (.ok failure), m') →
      ∃ line bytes, m'.firstLine rt = .ok line ∧ m'.conn.written = conn.written ++ bytes ∧
        FramesFull bytes line (expectedFields rt m fields failure)
          (expectedBody rt m parts failure)) ∧
    (conn.Accepts → ∃ failure m', exec (deliver rt) (m.withConn conn) = (.ok (.ok failure), m'))

/-- The Content-Length that `writeFullBody` adds. -/
def withLength (m : Message) : Message :=
  m.addHeader (text "Content-Length") (decimal m.bodyParts.len)

theorem exec_flush_plain (rt : Runtime) {m : Message} (h : m.isChunked = false) :
    exec (flush rt) m = exec (do
      sendHeaders rt
      let resp ← get
      sendBuffer resp.bodyParts Message.setBodyParts false) (withLength (addParams rt m)) := by
  rw [flush, exec_bind_ok (exec_get m), h, if_neg Bool.false_ne_true, writeFullBody,
    exec_bind_ok (exec_modify _ m), exec_bind_ok (exec_modify _ _)]
  rfl

theorem firstLine_addParams (rt : Runtime) (m : Message) :
    (addParams rt m).firstLine rt = m.firstLine rt := by
  rw [addParams]
  split
  · split <;> rfl
  · rfl

/-- Without a start line the flush raises after it has added the Content-Length. -/
theorem flush_no_line {rt : Runtime} {m : Message} (h : m.isChunked = false) {e : LuaError}
    (hline : m.firstLine rt = .error e) :
    exec (flush rt) m = (.error (.raised e), withLength (addParams rt m)) := by
  have hline' : (withLength (addParams rt m)).firstLine rt = .error e :=
    (firstLine_addParams rt m).trans hline
  rw [exec_flush_plain rt h, exec_bind_error (sendHeaders_error hline')]

/-- The flush of a message that has its start line and no parameters to post. -/
theorem flush_ready {rt : Runtime} {m : Message} {fields : List (Bytes × Bytes)}
    {parts : List Bytes} (h : Composed m fields parts) (hparams : postParams rt m = none)
    {line : Bytes} (hline : m.firstLine rt = .ok line) :
    (∃ m', ∃ block : List (Bytes × Bytes), exec (flush rt) m = (.ok (), m') ∧
      m'.firstLine rt = .ok line ∧ block.Perm (contentLength parts.flatten :: fields) ∧
      m'.conn.written = m.conn.written ++
        (line ++ block.flatMap headerLine ++ CRLF ++ parts.flatten)) ∨
    (∃ e m', exec (flush rt) m = (.error (.raised e), m') ∧ ¬m.conn.Accepts ∧
      m'.conn.closed = true ∧ m'.isChunked = false) := by
  have hlen : withLength m = m.addHeader (text "Content-Length") (decimal parts.flatten.length) := by
    rw [withLength, h.body.len]
  have hcomposed : Composed (withLength m) (contentLength parts.flatten :: fields) parts := by
    rw [hlen]
    exact h.addHeader _ _
  have hline' : (withLength m).firstLine rt = .ok line := hline
  have hblock : ((withLength m).headers.fields rt).Perm (contentLength parts.flatten :: fields) :=
    (Headers.fields_perm rt _).trans hcomposed.fields
  rw [exec_flush_plain rt h.plain, addParams_none hparams]
  have hsend := sendHeaders_ok hline'
  obtain ⟨conn, hok, hwritten, hacc⟩ | ⟨e, conn, herror, hclosed, -, hacc⟩ :=
    write_cases (headerBlock rt line (withLength m).headers) { withLength m with headers := [] }
  · rw [exec_bind_ok (hsend.trans hok), exec_bind_ok (exec_get _),
      exec_sendBuffer hcomposed.body]
    rcases write_cases parts.flatten
        (({ withLength m with headers := [], conn }).setBodyParts (withLength m).bodyParts.reset) with
      ⟨conn', hok', hwritten', -⟩ | ⟨e, conn', herror, hclosed, -, hacc'⟩
    · refine .inl ⟨_, (withLength m).headers.fields rt, hok', hline, hblock, ?_⟩
      rw [hwritten']
      show conn.written ++ parts.flatten = _
      rw [hwritten, headerBlock, List.append_assoc, List.append_assoc]
      rfl
    · exact .inr ⟨e, _, herror, fun hyes => hacc' (hacc hyes), hclosed, h.plain⟩
  · exact .inr ⟨e, _, exec_bind_error (hsend.trans herror), hacc, hclosed, h.plain⟩

theorem addParams_conn (rt : Runtime) (m : Message) : (addParams rt m).conn = m.conn := by
  rw [addParams]
  split
  · split <;> rfl
  · rfl

/-- On a closed connection no flush succeeds. -/
theorem flush_closed {rt : Runtime} {m : Message} (h : m.isChunked = false)
    (hclosed : m.conn.closed = true) : ∃ e m', exec (flush rt) m = (.error (.raised e), m') := by
  rw [exec_flush_plain rt h]
  rcases hline : (withLength (addParams rt m)).firstLine rt with e | line
  · exact ⟨e, _, exec_bind_error (sendHeaders_error hline)⟩
  · have hconn : (withLength (addParams rt m)).conn.closed = true :=
      (congrArg Conn.closed (addParams_conn rt m)).trans hclosed
    have hwrite := @write_closed { withLength (addParams rt m) with headers := [] } hconn
    exact ⟨_, _, exec_bind_error ((sendHeaders_ok hline).trans (hwrite _))⟩

/-- A second try sends two Content-Lengths: `fields` has the first one already. -/
theorem sendError_cases {rt : Runtime} {m : Message} {fields : List (Bytes × Bytes)}
    {parts : List Bytes} (h : Composed m fields parts) (hsresp : m.mesgType = .sresp)
    (hparams : postParams rt m = none) (errMesg : LuaError) :
    (∃ m' line, ∃ block : List (Bytes × Bytes),
      exec (sendError rt errMesg) m = (.ok (.ok ()), m') ∧ m'.firstLine rt = .ok line ∧
      block.Perm (contentLength (parts.flatten ++ errMesg) ::
        (text "Connection", text "close") :: fields) ∧
      m'.conn.written = m.conn.written ++
        (line ++ block.flatMap headerLine ++ CRLF ++ (parts.flatten ++ errMesg))) ∨
    (∃ e m', exec (sendError rt errMesg) m = (.ok (.error e), m') ∧ ¬m.conn.Accepts) := by
  have hstatus : Composed (m.setStatus 500) fields parts := ⟨h.plain, h.fields, h.body⟩
  have hclose := (hstatus.addHeader (text "Connection") (text "close")).appendBody errMesg
  have hparams' : postParams rt _ = none := hparams
  obtain ⟨line, hline⟩ := (startLine_iff rt (((m.setStatus 500).addHeader (text "Connection")
    (text "close")).setBodyParts (m.bodyParts.append (.str errMesg)))).mpr (by
      rw [StartLineSet]
      show match m.mesgType with | .sresp => _ | .creq => _
      rw [hsresp]
      exact ⟨nofun, nofun⟩)
  have hbody : (parts ++ [errMesg]).flatten = parts.flatten ++ errMesg := by simp
  have hrun : exec (sendError rt errMesg) m = exec (pcall (flush rt))
      (((m.setStatus 500).addHeader (text "Connection") (text "close")).setBodyParts
        (m.bodyParts.append (.str errMesg))) := by
    have hplain : ((m.setStatus 500).addHeader (text "Connection")
        (text "close")).isChunked = false := h.plain
    rw [sendError, exec_bind_ok (exec_modify _ m),
      exec_bind_ok (exec_pcall_ok (exec_appendBody_plain rt hplain errMesg))]
    rfl
  rw [hrun]
  obtain ⟨m', block, hok, hline', hblock, hwritten⟩ | ⟨e, m', herror, hacc, -⟩ :=
    flush_ready hclose hparams' hline
  · rw [hbody] at hblock hwritten
    exact .inl ⟨m', line, block, exec_pcall_ok hok, hline', hblock, hwritten⟩
  · exact .inr ⟨e, m', exec_pcall_raised herror, hacc⟩

theorem sendError_closed (rt : Runtime) {m : Message} (h : m.isChunked = false)
    (hclosed : m.conn.closed = true) (errMesg : LuaError) :
    ∃ e m', exec (sendError rt errMesg) m = (.ok (.error e), m') := by
  have hplain : ((m.setStatus 500).addHeader (text "Connection")
      (text "close")).isChunked = false := h
  obtain ⟨e, m', hflush⟩ := @flush_closed rt (((m.setStatus 500).addHeader (text "Connection")
    (text "close")).setBodyParts (m.bodyParts.append (.str errMesg))) h hclosed
  refine ⟨e, m', ?_⟩
  rw [sendError, exec_bind_ok (exec_modify _ m),
    exec_bind_ok (exec_pcall_ok (exec_appendBody_plain rt hplain errMesg))]
  exact exec_pcall_raised hflush

theorem concatFrom_list (i : Nat) (strs encoded : List Bytes) :
    ∃ e, concatFrom i (strs.map .str ++ [.list encoded]) = .error e := by
  induction strs generalizing i with
  | nil => exact ⟨_, rfl⟩
  | cons s strs ih =>
    obtain ⟨e, he⟩ := ih (i + 1)
    exact ⟨e, by rw [List.map_cons, List.cons_append, concatFrom, he, Except.map]⟩

/-- The flush of a POST with parameters raises, since the buffer has a table in it. -/
theorem flush_posts {rt : Runtime} {m : Message} {fields : List (Bytes × Bytes)}
    {parts encoded : List Bytes} (h : Composed m fields parts)
    (hparams : postParams rt m = some encoded) :
    ∃ e m', exec (flush rt) m = (.error (.raised e), m') := by
  have hbuffer : (withLength (addParams rt m)).bodyParts = m.bodyParts.append (.list encoded) := by
    rw [addParams_some hparams]
    rfl
  obtain ⟨e, hconcat⟩ : ∃ e, (m.bodyParts.append (.list encoded)).concat = .error e := by
    rw [Buffer.concat, Buffer.append, h.body.parts]
    exact concatFrom_list 1 parts encoded
  rw [exec_flush_plain rt h.plain]
  rcases hsend : exec (sendHeaders rt) (withLength (addParams rt m)) with ⟨result, m'⟩
  obtain stop | _ := result
  · rcases hline : (withLength (addParams rt m)).firstLine rt with e | line
    · exact ⟨e, _, exec_bind_error (sendHeaders_error hline)⟩
    · have hrun := sendHeaders_ok hline
      rcases write_cases (headerBlock rt line (withLength (addParams rt m)).headers)
          { withLength (addParams rt m) with headers := [] } with
        ⟨conn, hok, -⟩ | ⟨e, conn, herror, -⟩
      · cases hsend.symm.trans (hrun.trans hok)
      · exact ⟨e, _, exec_bind_error (hrun.trans herror)⟩
  · obtain ⟨conn, rfl⟩ := sendHeaders_returns hsend
    rw [exec_bind_ok hsend, exec_bind_ok (exec_get _), sendBuffer, hbuffer, hconcat]
    exact ⟨e, _, rfl⟩

theorem deliver_flushed {rt : Runtime} {m m' : Message} (h : exec (flush rt) m = (.ok (), m')) :
    exec (deliver rt) m = (.ok (.ok none), m') := by
  rw [deliver, exec_bind_ok (exec_get m), exec_bind_ok (exec_pcall_ok h)]
  rfl

theorem deliver_creq {rt : Runtime} {m m' : Message} {e : LuaError} (hcreq : m.mesgType = .creq)
    (h : exec (flush rt) m = (.error (.raised e), m')) :
    exec (deliver rt) m = (.ok (.error e), m') := by
  rw [deliver, exec_bind_ok (exec_get m), exec_bind_ok (exec_pcall_raised h), hcreq]
  rfl

theorem deliver_sresp {rt : Runtime} {m m' m'' : Message} {e : LuaError}
    {result : Except LuaError Unit} (hsresp : m.mesgType = .sresp)
    (h : exec (flush rt) m = (.error (.raised e), m'))
    (herror : exec (sendError rt e) m' = (.ok result, m'')) :
    exec (deliver rt) m = (.ok (result.map fun _ => some e), m'') := by
  rw [deliver, exec_bind_ok (exec_get m), exec_bind_ok (exec_pcall_raised h), hsresp]
  simp only
  rw [exec_bind_ok herror]
  rfl

/-- The start line can be built, and there are no parameters to post. -/
def Ready (m : Message) : Prop := StartLineSet m ∧ ¬PostsParams m

theorem delivers_of_ready {rt : Runtime} {m : Message} {fields : List (Bytes × Bytes)}
    {parts : List Bytes} (h : Composed m fields parts)
    (hown : ∀ field ∈ fields, isFraming field = false) (hready : Ready m) :
    Delivers rt m fields parts := by
  intro conn
  have hparams : postParams rt m = none := (postParams_eq_none_iff rt m).mpr hready.2
  obtain ⟨line, hline⟩ := (startLine_iff rt m).mpr hready.1
  have hconn : Composed (m.withConn conn) fields parts := ⟨h.plain, h.fields, h.body⟩
  obtain ⟨m', block, hflush, hline', hblock, hwritten⟩ | ⟨e, m', hflush, hacc, hclosed, hplain⟩ :=
    flush_ready hconn hparams hline
  · have hdeliver := deliver_flushed hflush
    refine ⟨fun failure m'' hrun => ?_, fun _ => ⟨none, m', hdeliver⟩⟩
    cases hrun.symm.trans hdeliver
    refine ⟨line, _, hline', hwritten, ?_⟩
    have hfields : expectedFields rt m fields none = fields := by rw [expectedFields, hparams]
    have hbody : expectedBody rt m parts none = parts.flatten := by simp [expectedBody, hparams]
    rw [hfields, hbody]
    exact framesFull hown hblock
  · -- the connection has failed, and the error path cannot send anything either
    have hfail : ∃ e m'', exec (deliver rt) (m.withConn conn) = (.ok (.error e), m'') := by
      cases htype : (m.withConn conn).mesgType with
      | creq => exact ⟨e, m', deliver_creq htype hflush⟩
      | sresp =>
        obtain ⟨e', m'', herror⟩ := sendError_closed rt hplain hclosed e
        exact ⟨e', m'', deliver_sresp htype hflush herror⟩
    obtain ⟨e', m'', hdeliver⟩ := hfail
    refine ⟨fun failure m₂ hrun => ?_, fun hyes => absurd hyes hacc⟩
    cases hrun.symm.trans hdeliver

theorem ready_of_delivers {rt : Runtime} {m : Message} {fields : List (Bytes × Bytes)}
    {parts : List Bytes} (h : Composed m fields parts)
    (hmethod : m.mesgType = .sresp → m.method = none) (hdeliver : Delivers rt m fields parts) :
    Ready m := by
  let conn : Conn := ⟨false, [], [], []⟩
  have hconn : Composed (m.withConn conn) fields parts := ⟨h.plain, h.fields, h.body⟩
  obtain ⟨hframes, hsucceeds⟩ := hdeliver conn
  obtain ⟨failure, m', hrun⟩ := hsucceeds ⟨rfl, rfl⟩
  -- parameters of a POST request would have made the flush fail
  have hnoParams : ¬PostsParams m := by
    intro hposts
    have hcreq : (m.withConn conn).mesgType = .creq := by
      show m.mesgType = .creq
      cases htype : m.mesgType with
      | creq => rfl
      | sresp =>
        have := hmethod htype
        rw [hposts.1] at this
        cases this
    have hsome : postParams rt m ≠ none := fun hnone =>
      (postParams_eq_none_iff rt m).mp hnone hposts
    obtain ⟨encoded, hencoded⟩ := Option.ne_none_iff_exists'.mp hsome
    obtain ⟨e, m'', hflush⟩ := flush_posts hconn hencoded
    cases hrun.symm.trans (deliver_creq hcreq hflush)
  refine ⟨?_, hnoParams⟩
  rw [← startLine_iff rt m]
  -- without a start line the error text is sent after the headers, and the lengths disagree
  by_contra hline
  have hparams : postParams rt (m.withConn conn) = none := (postParams_eq_none_iff rt m).mpr hnoParams
  obtain ⟨e, he⟩ : ∃ e, m.firstLine rt = .error e := by
    rcases hfirst : m.firstLine rt with e | line
    · exact ⟨e, rfl⟩
    · exact absurd ⟨line, hfirst⟩ hline
  have hflush := @flush_no_line rt (m.withConn conn) h.plain e he
  rw [addParams_none hparams] at hflush
  cases htype : (m.withConn conn).mesgType with
  | creq => cases hrun.symm.trans (deliver_creq htype hflush)
  | sresp =>
    have hlength : Composed (withLength (m.withConn conn))
        ((text "Content-Length", decimal m.bodyParts.len) :: fields) parts := hconn.addHeader _ _
    obtain ⟨m₁, line, block, herror, hline₁, hblock, hwritten⟩ | ⟨-, -, -, hacc⟩ :=
      sendError_cases hlength htype hparams e
    · obtain ⟨line', bytes, hline', hbytes, hframed⟩ :=
        hframes _ m₁ (deliver_sresp htype hflush herror)
      cases hline₁.symm.trans hline'
      obtain rfl : bytes = _ := List.append_cancel_left (hbytes.symm.trans hwritten)
      have hextra : block.Perm ((text "Content-Length", decimal m.bodyParts.len) ::
          contentLength (parts.flatten ++ e) :: (text "Connection", text "close") :: fields) :=
        hblock.trans ((List.Perm.cons _ (List.Perm.swap _ _ _)).trans (List.Perm.swap _ _ _))
      exact not_framesFull hextra hframed
    · exact hacc ⟨rfl, rfl⟩

/-- A message before the application adds to it: a response with the Connection header of
`dispatchAction` and the status that the handler sets, or a request. -/
inductive Origin where
  | response (connection : Bytes) (status : Option Nat)
  | request (method url : Option Bytes) (params : Option (List (Bytes × Bytes)))

def Origin.message : Origin → Message
  | response connection status =>
    let resp := newServerHttpResponse ⟨false, [], [], []⟩
    let resp := { resp with headers := resp.headers.assign (text "Connection") connection }
    match status with
    | none => resp
    | some status => resp.setStatus status
  | request method url params =>
    { newClientHttpRequest ⟨false, [], [], []⟩ with method, url, params }

def Origin.fields : Origin → List (Bytes × Bytes)
  | response connection _ => [(text "Connection", connection)]
  | request _ _ _ => []

inductive Call where
  | addHeader (hName hValue : Bytes)
  | appendBody (bodyPart : Bytes)

namespace Call

def run (rt : Runtime) : Call → MessageM Unit
  | addHeader hName hValue => modify fun m => m.addHeader hName hValue
  | appendBody bodyPart => Http.appendBody rt (some bodyPart)

def runEach (rt : Runtime) : List Call → MessageM Unit
  | [] => pure ()
  | call :: calls => do
    call.run rt
    runEach rt calls

def field? : Call → Option (Bytes × Bytes)
  | addHeader hName hValue => some (hName, hValue)
  | appendBody _ => none

def part? : Call → Option Bytes
  | addHeader _ _ => none
  | appendBody bodyPart => some bodyPart

end Call

/-- What the message says before the start line is not touched by the calls. -/
structure SameStart (m m' : Message) : Prop where
  mesgType : m'.mesgType = m.mesgType
  method : m'.method = m.method
  ready : Ready m' ↔ Ready m

/-- The calls add their fields and their strings. -/
theorem runEach_composed (rt : Runtime) (calls : List Call) {m : Message}
    {fields : List (Bytes × Bytes)} {parts : List Bytes} (h : Composed m fields parts) :
    ∃ m', exec (Call.runEach rt calls) m = (.ok (), m') ∧ SameStart m m' ∧
      Composed m' (calls.filterMap Call.field? ++ fields) (parts ++ calls.filterMap Call.part?) := by
  induction calls generalizing m fields parts with
  | nil => exact ⟨m, rfl, ⟨rfl, rfl, .rfl⟩, by simpa using h⟩
  | cons call calls ih =>
    cases call with
    | addHeader hName hValue =>
      obtain ⟨m', hrun, hsame, hcomposed⟩ := ih (h.addHeader hName hValue)
      refine ⟨m', (exec_bind_ok (exec_modify _ m)).trans hrun,
        ⟨hsame.mesgType, hsame.method, hsame.ready⟩, hcomposed.plain, ?_, hcomposed.body⟩
      refine hcomposed.fields.trans ?_
      exact List.perm_middle
    | appendBody bodyPart =>
      obtain ⟨m', hrun, hsame, hcomposed⟩ := ih (h.appendBody bodyPart)
      refine ⟨m', (exec_bind_ok (exec_appendBody_plain rt h.plain bodyPart)).trans hrun,
        ⟨hsame.mesgType, hsame.method, hsame.ready⟩, hcomposed.plain, hcomposed.fields, ?_⟩
      simpa [Call.part?] using hcomposed.body

theorem Origin.composed (o : Origin) : Composed o.message o.fields [] := by
  cases o with
  | response connection status =>
    cases status with
    | none => exact ⟨rfl, .refl _, Buffer.holds_new⟩
    | some status => exact ⟨rfl, .refl _, Buffer.holds_new⟩
  | request method url params => exact ⟨rfl, .refl _, Buffer.holds_new⟩

/-- The status of a response is set, and so are the method and the URL of a request, which does
not post parameters. -/
def Origin.Ready : Origin → Prop
  | response _ status => status ≠ none
  | request method url params => method ≠ none ∧ url ≠ none ∧
      ¬(method = some (text "POST") ∧ ∃ param rest, params = some (param :: rest))

theorem Origin.ready_iff (o : Origin) : Http.Ready o.message ↔ o.Ready := by
  cases o with
  | response connection status =>
    cases status with
    | none => exact iff_of_false (fun h => h.1.1 rfl) fun h => h rfl
    | some status => exact iff_of_true ⟨⟨nofun, nofun⟩, fun h => nomatch h.1⟩ nofun
  | request method url params => exact and_assoc

/-- A message is sent with one Content-Length that is right, on every connection and also at the
second try of the error path, if and only if the start line is set before the first flush and no
parameters have to be posted. -/
theorem delivers_iff_ready (rt : Runtime) (o : Origin) (calls : List Call)
    (hown : ∀ field ∈ calls.filterMap Call.field?, isFraming field = false) :
    ∃ m, exec (Call.runEach rt calls) o.message = (.ok (), m) ∧
      (Delivers rt m (calls.filterMap Call.field? ++ o.fields) (calls.filterMap Call.part?) ↔
        o.Ready) := by
  obtain ⟨m, hrun, hsame, hcomposed⟩ := runEach_composed rt calls o.composed
  refine ⟨m, hrun, ?_⟩
  rw [← o.ready_iff, ← hsame.ready]
  have hall : ∀ field ∈ calls.filterMap Call.field? ++ o.fields, isFraming field = false := by
    intro field hfield
    obtain hcall | horigin := List.mem_append.mp hfield
    · exact hown field hcall
    · cases o with
      | response connection status =>
        cases List.mem_singleton.mp horigin
        rfl
      | request method url params => cases horigin
  have hmethod : m.mesgType = .sresp → m.method = none := by
    rw [hsame.mesgType, hsame.method]
    cases o with
    | response connection status => cases status <;> exact fun _ => rfl
    | request method url params => exact nofun
  exact ⟨ready_of_delivers hcomposed hmethod, delivers_of_ready hcomposed hall⟩

/-- A response with a header and a body in two parts. -/
def helloCalls : List Call :=
  [.addHeader (text "X-Name") (text "luaw"), .appendBody (text "hel"), .appendBody (text "lo")]

theorem delivers_hello :
    ∃ m, exec (Call.runEach .default helloCalls)
        (Origin.response (text "close") (some 200)).message = (.ok (), m) ∧
      (Delivers .default m (helloCalls.filterMap Call.field? ++
          (Origin.response (text "close") (some 200)).fields)
          (helloCalls.filterMap Call.part?) ↔
        (Origin.response (text "close") (some 200)).Ready) :=
  delivers_iff_ready .default (.response (text "close") (some 200)) helloCalls (by decide)

/-- A response whose handler sets no status, and a POST with one parameter. -/
def noStatus : Origin := .response (text "Keep-Alive") none

def postsOne : Origin :=
  .request (some (text "POST")) (some (text "/a")) (some [(text "k", text "v")])

/-- The error path sends the Content-Length of the first try again, and the body of the POST is
never sent after a header block that counts the pieces of its parameters. -/
theorem deliver_sends_wrong_lengths :
    (exec (deliver .default) noStatus.message).2.conn.written =
      text "HTTP/1.1 500 Internal Server Error\r\nConnection: Keep-Alive\r\nConnection: close\r\n" ++
      text "Content-Length: 0\r\nContent-Length: 52\r\n\r\n" ++
      text "invalid value (nil) at index 6 in table for 'concat'" ∧
    ¬Delivers .default noStatus.message noStatus.fields [] ∧
    (exec (deliver .default) postsOne.message).2.conn.written =
      text "POST /a HTTP/1.1\r\nContent-Type: application/x-www-form-urlencoded\r\n" ++
      text "Content-Length: 3\r\n\r\n" ∧
    ¬Delivers .default postsOne.message postsOne.fields [] := by
  refine ⟨by decide +kernel, fun h => ?_, by decide +kernel, fun h => ?_⟩
  · exact (ready_of_delivers noStatus.composed (fun _ => rfl) h).1.1 rfl
  · exact (ready_of_delivers postsOne.composed nofun h).2 ⟨rfl, _, _, rfl⟩

end Luaw.Http
