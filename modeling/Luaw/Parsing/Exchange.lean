import Luaw.Http.Dispatch
import Luaw.Parsing.Framing
import Luaw.Parsing.Responses
import Luaw.Parsing.UrlParts

/-!
# What one side writes, the other side reads

A message that is flushed is a well-formed request or response of `http_parser`, whatever the order
in which its headers are sent, so that it is read as it was composed.
-/

namespace Luaw.Parsing

open Http Lua Program

section Headers

/-- A byte that does not end a line. -/
def inLine (ch : UInt8) : Bool := ch ≠ CR && ch ≠ LF

theorem lined_text {str : Bytes} (h : str.all inLine = true) : ∀ ch ∈ str, ch ≠ CR ∧ ch ≠ LF := by
  intro ch hch
  simpa [inLine] using List.all_eq_true.mp h ch hch

theorem named_text {name : Bytes} (h : name.all (fun ch => token ch != 0) = true) :
    ∀ ch ∈ name, token ch ≠ 0 := by
  intro ch hch
  simpa using List.all_eq_true.mp h ch hch

theorem proper_contentLength (body : Bytes) : Proper (contentLength body) := by
  have hdigits : ∀ ch ∈ decimal body.length, ch ≠ CR ∧ ch ≠ LF ∧ ch ≠ 32 ∧ ch ≠ 9 := by
    intro ch hch
    obtain ⟨hlow, -⟩ := digit_of_mem_decimal hch
    refine ⟨?_, ?_, ?_, ?_⟩ <;> rintro rfl <;> exact absurd hlow (by decide)
  refine ⟨by rintro ⟨⟩, ?_, fun ch hch => ⟨(hdigits ch hch).1, (hdigits ch hch).2.1⟩, ?_⟩
  · exact named_text (by decide : (text "Content-Length").all (fun ch => token ch != 0) = true)
  · intro ch hch
    exact (hdigits ch (List.mem_of_mem_head? hch)).2.2

def transferChunked : Bytes × Bytes := (text "Transfer-Encoding", text "chunked")

theorem proper_transferChunked : Proper transferChunked :=
  ⟨by rintro ⟨⟩, named_text (by decide), lined_text (by decide), by
    rintro ch ⟨⟩
    decide⟩

/-- The fields can be sent, and leave it to the message to say where its body ends. -/
def Sendable (fields : List (Bytes × Bytes)) : Prop := ∀ f ∈ fields, Proper f ∧ Neutral f

variable {fields block : List (Bytes × Bytes)}

theorem Sendable.proper (h : Sendable fields) {one : Bytes × Bytes} (hone : Proper one)
    (hblock : block.Perm (one :: fields)) : ∀ f ∈ block, Proper f := by
  intro f hf
  obtain rfl | hf := List.mem_cons.mp (hblock.mem_iff.mp hf)
  · exact hone
  · exact (h f hf).1

theorem Sendable.contentLength (h : Sendable fields) {body : Bytes} (hbody : LengthFits body.length)
    (hblock : block.Perm (contentLength body :: fields)) :
    ∃ hd, Head.start.fields block = some hd ∧
      hd.Agrees { Head.start with contentLength := body.length } ∧
      ((∀ f ∈ fields, closes f = false) → hd.flags.connectionClose = false) :=
  fields_perm (fun hd => { hd with contentLength := body.length }) (field_length hbody)
    (fun hab => ⟨rfl, hab.chunked, hab.upgrade⟩) (fun _ => rfl) h hblock Head.start

theorem Sendable.chunked (h : Sendable fields) (hblock : block.Perm (transferChunked :: fields)) :
    ∃ hd, Head.start.fields block = some hd ∧
      hd.Agrees { Head.start with flags.chunked := true } := by
  obtain ⟨hd, hfields, hagrees, -⟩ := fields_perm
    (fun hd => { hd with flags.chunked := true }) field_transfer
    (fun hab => ⟨hab.contentLength, rfl, hab.upgrade⟩) (fun _ => rfl) h hblock Head.start
  exact ⟨hd, hfields, hagrees⟩

end Headers

/-- How `writeFullBody` writes a body. -/
def Coding.ofBody (body : Bytes) : Coding := if body = [] then .none else .length body

@[simp] theorem Coding.ofBody_bytes (body : Bytes) : (Coding.ofBody body).bytes = body := by
  unfold Coding.ofBody
  split
  · next h => exact h.symm
  · rfl

@[simp] theorem Coding.ofBody_body (body : Bytes) : (Coding.ofBody body).body = body := by
  unfold Coding.ofBody
  split
  · next h => exact h.symm
  · rfl

@[simp] theorem Coding.ofBody_trailers (body : Bytes) : (Coding.ofBody body).trailers = [] := by
  unfold Coding.ofBody
  split <;> rfl

theorem codes_ofBody {p : Parser} {body : Bytes} (hchunked : p.flags.chunked = false)
    (hlength : p.contentLength = body.length) (hbody : LengthFits body.length) :
    p.Codes (.ofBody body) := by
  unfold Coding.ofBody
  split
  · next hnil => exact ⟨hchunked, .inl (by rw [hlength, hnil]; rfl)⟩
  · next hne => exact ⟨hchunked, hne, hlength, hbody.lt⟩

section Requests

variable {rt : Runtime} {m m' : Message} {fields : List (Bytes × Bytes)} {parts : List Bytes}

theorem firstLine_request {method target : Bytes} (htype : m.mesgType = .creq)
    (hmethod : m.method = some method) (htarget : buildURL rt m = .ok (some target)) :
    m.firstLine rt = .ok (method ++ text " " ++ target ++ text " HTTP/" ++
      versionText m.majorVersion m.minorVersion ++ CRLF) := by
  rw [Message.firstLine, htype]
  show firstRequestLine rt m = _
  rw [firstRequestLine, htarget, hmethod]
  show tableConcat ([method, text " ", target, text " HTTP/", decimal m.majorVersion, text ".",
    decimal m.minorVersion, CRLF].map .str) = _
  rw [tableConcat, concatFrom_strs]
  simp [versionText]

/-- A request with one Content-Length. -/
def sentRequest (method : Method) (target : Bytes) (block : List (Bytes × Bytes)) (body : Bytes) :
    WireRequest :=
  ⟨method, target, 1, 1, block, .ofBody body⟩

theorem sentRequest_fields (method : Method) (target : Bytes) (block : List (Bytes × Bytes))
    (body : Bytes) : (sentRequest method target block body).content.fields ++
      (sentRequest method target block body).content.trailers = block := by
  show block ++ (Coding.ofBody body).trailers = block
  rw [Coding.ofBody_trailers, List.append_nil]

theorem sentRequest_body (method : Method) (target : Bytes) (block : List (Bytes × Bytes))
    (body : Bytes) : (sentRequest method target block body).content.body = body :=
  Coding.ofBody_body body

/-- A request that is flushed has been written as a well-formed request. -/
theorem flushed_request (h : Composed m fields parts) (hparams : postParams rt m = none)
    {method : Method} {target : Bytes}
    (hline : m.firstLine rt = .ok (requestLine method target 1 1))
    (hurl : validUrl method target = true) (hconnect : method ≠ .connect) (hfields : Sendable fields)
    (hbody : LengthFits parts.flatten.length)
    (hroom : (requestLine method target 1 1).length +
      ((contentLength parts.flatten :: fields).flatMap headerLine).length + 3 ≤ httpMaxHeaderSize)
    (hflush : exec (flush rt) m = (.ok (), m')) :
    ∃ block : List (Bytes × Bytes), block.Perm (contentLength parts.flatten :: fields) ∧
      (sentRequest method target block parts.flatten).WellFormed ∧
      m'.conn.written = m.conn.written ++ (sentRequest method target block parts.flatten).bytes ∧
      ((∀ f ∈ fields, closes f = false) →
        (sentRequest method target block parts.flatten).head.flags.connectionClose = false) := by
  obtain ⟨m₁, block, hok, -, hblock, hwritten⟩ | ⟨e, m₁, herror, -⟩ := flush_ready h hparams hline
  · cases hflush.symm.trans hok
    obtain ⟨hd, hhead, hagrees, hclose⟩ := hfields.contentLength hbody hblock
    have hgetD : (sentRequest method target block parts.flatten).head = hd := by
      show (Head.start.fields block).getD Head.start = hd
      rw [hhead]
      rfl
    refine ⟨block, hblock, ?_, ?_, ?_⟩
    · refine ⟨hurl, (by decide : 1 ≤ 1 ∧ 1 ≤ 999), (by decide : 1 ≤ 999),
        hfields.proper (proper_contentLength _) hblock, ?_, ?_, hconnect, ?_, ?_⟩
      · rw [hgetD]
        exact hhead
      · rw [hgetD]
        exact hagrees.upgrade
      · exact codes_ofBody ((congrArg (·.flags.chunked) hgetD).trans hagrees.chunked)
          ((congrArg (·.contentLength) hgetD).trans hagrees.contentLength) hbody
      · rw [WireRequest.lines, List.length_append]
        show _ + (block.flatMap headerLine).length + 3 ≤ _
        rw [length_block hblock]
        exact hroom
    · rw [hwritten, WireRequest.bytes, WireRequest.lines]
      simp [sentRequest]
    · rw [hgetD]
      exact hclose
  · cases hflush.symm.trans herror

theorem keepAlive_sentRequest {method : Method} {target body : Bytes}
    {block : List (Bytes × Bytes)}
    (h : (sentRequest method target block body).head.flags.connectionClose = false) :
    (sentRequest method target block body).content.keepAlive = true ∧
      (sentRequest method target block body).content.keepAliveEnd = true := by
  have hkeep : (sentRequest method target block body).content.keepAlive = true := by
    have hversion : 0 < (sentRequest method target block body).httpMajor ∧
        0 < (sentRequest method target block body).httpMinor := ⟨Nat.one_pos, Nat.one_pos⟩
    rw [WireRequest.keepAlive_eq, if_pos hversion, h]
    rfl
  refine ⟨hkeep, ?_⟩
  show Parser.keepsEnd _ (.ofBody body) = true
  unfold Coding.ofBody
  split <;> exact hkeep

/-- A client's request that a server can read. -/
structure ClientRequest (rt : Runtime) (m : Message) (method : Method) (target : Bytes)
    (fields : List (Bytes × Bytes)) (parts : List Bytes) : Prop where
  composed : Composed m fields parts
  mesgType : m.mesgType = .creq
  version : m.majorVersion = 1 ∧ m.minorVersion = 1
  methodSet : m.method = some method.str
  urlBuilt : buildURL rt m = .ok (some target)
  noPost : ¬PostsParams m
  url : validUrl method target = true
  connect : method ≠ .connect
  sendable : Sendable fields
  stays : ∀ f ∈ fields, closes f = false
  length : LengthFits parts.flatten.length
  room : (requestLine method target 1 1).length +
    ((contentLength parts.flatten :: fields).flatMap headerLine).length + 3 ≤ httpMaxHeaderSize
  ordinary : ∀ block : List (Bytes × Bytes), block.Perm (contentLength parts.flatten :: fields) →
    getMultipartBoundary (addFields block []) = .ok none ∧
      isLuaPackMesg (addFields block []) = false ∧ FormFree (addFields block [])
  apart : ∀ query, queryOf target = some query →
    query ≠ pathOf target ∧ ∀ f ∈ fields, f.1 ≠ query ∧ f.2 ≠ query

theorem upperCase_str {method : Method} (h : method ≠ .connect) :
    upperCase method.str ≠ text "CONNECT" := by
  revert h
  cases method <;> decide

/-- The parser of a server, with the URLs that `luaw_parse_url` splits. -/
def serverParser (platform : Platform) (unknown : Bytes → Bool → Option ParsedURL) :=
  httpParser .request platform (luawParseUrl unknown)

/-- What a server has read of a request. -/
structure Read (s : Session ValidParser) (method : Method) (target : Bytes) (params : Params)
    (block : List (Bytes × Bytes)) (body : Bytes) : Prop where
  method : s.req.method = some method.str
  url : s.req.url = some target
  path : (s.req.parsedURL.bind ParsedURL.path) = some (pathOf target)
  params : s.req.params = some params
  headers : s.req.headers.Have true block
  body : s.req.body = some body
  keepAlive : s.req.EOF = false

theorem str_plain (method : Method) : Plain method.str := by
  cases method <;> decide

theorem contentLength_plain (body : Bytes) :
    Plain (contentLength body).1 ∧ Plain (contentLength body).2 := by
  have hname : Plain (text "Content-Length") := by decide
  refine ⟨hname, fun ch hch => ?_⟩
  obtain ⟨hlow, hhigh⟩ := digit_of_mem_decimal hch
  refine ⟨?_, ?_, ?_, ?_⟩ <;> rintro rfl
  · exact absurd hlow (by decide)
  · exact absurd hlow (by decide)
  · exact absurd hlow (by decide)
  · exact absurd hhigh (by decide)

theorem queryOf_length {target query : Bytes} (h : queryOf target = some query) :
    query.length < target.length := by
  unfold queryOf at h
  split at h
  · next rest hrest =>
    have hsuffix : (63 :: rest : Bytes) <:+ target := hrest ▸ List.dropWhile_suffix _
    have hlength := hsuffix.length_le
    rw [List.length_cons] at hlength
    have htake := (List.takeWhile_prefix (l := rest) fun c : UInt8 => c ≠ 35).length_le
    dsimp only at h
    split at h
    · cases h
    · cases h
      omega
  · cases h

section Decoding

variable {method : Method} {target : Bytes}

/-- The query of a request that is apart from its strings overwrites none of them. -/
theorem ClientRequest.query_apart (h : ClientRequest rt m method target fields parts)
    {platform : Platform} {unknown : Bytes → Bool → Option ParsedURL}
    {block : List (Bytes × Bytes)} (hblock : block.Perm (contentLength parts.flatten :: fields))
    (hurl : luawParseUrl unknown target (upperCase method.str = text "CONNECT") =
      some ⟨some (pathOf target), queryOf target⟩) {left : Option Bytes} {params : Params}
    (hquery : queryParams (serverParser platform unknown) ⟨some (pathOf target), queryOf target⟩ =
      .ok (params, left)) :
    ∀ x ∈ queryOverwriting (serverParser platform unknown)
        ⟨some (pathOf target), queryOf target⟩ left,
      x.data ∉ (sentRequest method target block parts.flatten).content.strings
        (serverParser platform unknown)
        (sentRequest method target block parts.flatten).content.fields := by
  intro x hx hmem
  have hproper := queryParams_proper _ hquery x hx
  obtain ⟨query, hsome, hdata⟩ : ∃ query, queryOf target = some query ∧ x.data = query := by
    unfold queryOverwriting at hx
    split at hx
    · next query left' hsome => exact ⟨query, hsome, by rw [(overwriting_some _ hx).2.2]⟩
    · cases hx
  obtain ⟨hpath, hfields⟩ := h.apart query hsome
  have hpathOf : (sentRequest method target block parts.flatten).content.path
      (serverParser platform unknown) = some (pathOf target) :=
    @Content.path_eq _ (serverParser platform unknown)
      (sentRequest method target block parts.flatten).content _ (parseRequestURL_parsed hurl)
  rw [Content.strings, hpathOf] at hmem
  simp only [Option.toList_some, List.cons_append, List.nil_append, List.mem_cons,
    WireMessage.strings, List.mem_append] at hmem
  obtain hmethod | hpath' | (hurl' | hmesg) | hstrings := hmem
  · exact hproper.data_ne (str_plain method) hmethod
  · exact hpath (hdata.symm.trans hpath')
  · have hless := queryOf_length hsome
    rw [← hdata, List.mem_singleton.mp hurl'] at hless
    exact hless.false
  · cases hmesg
  · obtain ⟨name, value, hfield, -, hs⟩ := mem_fieldStrings.mp hstrings
    obtain heq | hfield := List.mem_cons.mp (hblock.mem_iff.mp hfield)
    · obtain ⟨rfl, rfl⟩ := Prod.mk.inj heq
      exact hs.elim (hproper.data_ne (contentLength_plain parts.flatten).1)
        (hproper.data_ne (contentLength_plain parts.flatten).2)
    · exact hs.elim (fun hs => (hfields _ hfield).1 (hs.symm.trans hdata))
        fun hs => (hfields _ hfield).2 (hs.symm.trans hdata)

/-- A server reads the request that a client has flushed as it was composed, from whatever strings
its bytes come in, and leaves what follows it, if the query can be decoded; and otherwise it refuses
the request. -/
theorem ClientRequest.read_by_server (h : ClientRequest rt m method target fields parts)
    (hfirst : target.head? = some 47 ∨ target.head? = some 42) (hshort : target.length < 65536)
    (platform : Platform) (unknown : Bytes → Bool → Option ParsedURL)
    (hflush : exec (flush rt) m = (.ok (), m')) :
    ∃ (block : List (Bytes × Bytes)) (bytes : Bytes),
      block.Perm (contentLength parts.flatten :: fields) ∧
      m'.conn.written = m.conn.written ++ bytes ∧
      ∀ (conn : Conn) (chunks : List Bytes) (more : List (Except LuaError Bytes)) (extra : Bytes),
        conn.Supply chunks more (bytes ++ extra) →
        match queryParams (serverParser platform unknown)
          ⟨some (pathOf target), queryOf target⟩ with
        | .ok (params, _) => ∃ N s chunks',
            (∀ fuel, exec (readFull (serverParser platform unknown) (fuel + N))
              (newSession (serverParser platform unknown) conn) = (.ok (), s)) ∧
            Read s method target params block parts.flatten ∧ s.consumed = bytes ∧
            s.Supply chunks' more extra
        | .error _ => ∃ N err s,
          (∀ fuel, exec (readFull (serverParser platform unknown) (fuel + N))
            (newSession (serverParser platform unknown) conn) = (.error (.raised err), s)) ∧
          s.conn.written = conn.written := by
  have hline : m.firstLine rt = .ok (requestLine method target 1 1) := by
    rw [firstLine_request h.mesgType h.methodSet h.urlBuilt, h.version.1, h.version.2]
    rfl
  obtain ⟨block, hblock, hwell, hwritten, hclose⟩ := flushed_request h.composed
    ((postParams_eq_none_iff rt m).mpr h.noPost) hline h.url h.connect h.sendable h.length h.room
    hflush
  obtain ⟨hkeep, hkeepEnd⟩ := keepAlive_sentRequest (hclose h.stays)
  obtain ⟨hboundary, hluaPack, hfree⟩ := h.ordinary block hblock
  refine ⟨block, _, hblock, hwritten, fun conn chunks more extra hsupply => ?_⟩
  have hurl : luawParseUrl unknown target (upperCase method.str = text "CONNECT") =
      some ⟨some (pathOf target), queryOf target⟩ := by
    rw [decide_eq_false (upperCase_str h.connect)]
    exact (luawParseUrl_eq h.connect h.url hfirst).2 hshort
  obtain ⟨parse⟩ : Nonempty (Parse (serverParser platform unknown)
      (sentRequest method target block parts.flatten).bytes
      (sentRequest method target block parts.flatten).content) :=
    hwell.parse platform (luawParseUrl unknown)
  obtain ⟨N, s, chunks', -, hconn, hread⟩ := readFull_stops parse hsupply
  cases hquery : queryParams (serverParser platform unknown)
      ⟨some (pathOf target), queryOf target⟩ with
  | ok decoded =>
    obtain ⟨params, left⟩ := decoded
    obtain ⟨req, hfull, hsent, hparams, hbody, hdone, hEOF⟩ :=
      @fullRequest_sent _ (serverParser platform unknown)
        (sentRequest method target block parts.flatten).content _ _ _ ⟨hboundary, hluaPack⟩ hurl
        hquery hkeep hkeepEnd (by rwa [sentRequest_fields])
        (h.query_apart hblock hurl hquery)
    rw [hfull] at hread
    obtain ⟨hrun, rfl, hstops⟩ := hread
    rw [sentRequest_fields] at hsent
    rw [sentRequest_body] at hbody
    cases hstops with
    | left q hcall =>
      rw [(Content.head_of_call _ hcall).mesgDone] at hdone
      cases hdone
    | full hrequest hconsumed hsupply' =>
      refine ⟨N, s, chunks', hrun, ⟨hsent.method, hsent.message.url, ?_, hparams,
        hsent.message.headers, hbody, hEOF⟩, hconsumed, hsupply'⟩
      obtain ⟨queryString, hpath⟩ := hsent.path
      rw [hpath, Content.path_eq (parseRequestURL_parsed hurl)]
      rfl
  | error e =>
    obtain ⟨e', hfull⟩ := @fullRequest_error _ (serverParser platform unknown)
      (sentRequest method target block parts.flatten).content _ hurl _ hquery
    rw [hfull] at hread
    obtain ⟨err, hrun⟩ := hread
    exact ⟨N, err, s, hrun, by rw [hconn]; rfl⟩

end Decoding

/-- A POST with a body. -/
def postHello : Message :=
  let m := (Origin.request (some (text "POST")) (some (text "/greet?to=all")) none).message
  m.setBodyParts (m.bodyParts.append (.str (text "hello")))

theorem postHello_request :
    ClientRequest .default postHello .post (text "/greet?to=all") [] [text "hello"] where
  composed := (Origin.composed _).appendBody _
  mesgType := rfl
  version := ⟨rfl, rfl⟩
  methodSet := rfl
  urlBuilt := rfl
  noPost hpost := by
    obtain ⟨-, param, rest, hparams⟩ := hpost
    cases hparams
  url := by decide
  connect := by decide
  sendable := by simp [Sendable]
  stays := by simp
  length := by decide
  room := by decide
  ordinary block hblock := by
    obtain rfl := List.perm_singleton.mp hblock
    exact ⟨rfl, rfl, by rintro value ⟨⟩⟩
  apart := by
    rintro query ⟨⟩
    exact ⟨by decide, nofun⟩

theorem postHello_read_by_server (platform : Platform) :
    ∃ (block : List (Bytes × Bytes)) (bytes : Bytes),
      block.Perm [contentLength (text "hello")] ∧
      (exec (flush .default) postHello).2.conn.written = bytes ∧
      ∀ (conn : Conn) (chunks : List Bytes) (more : List (Except LuaError Bytes)) (extra : Bytes),
        conn.Supply chunks more (bytes ++ extra) →
        match queryParams (serverParser platform fun _ _ => none)
          ⟨some (pathOf (text "/greet?to=all")), queryOf (text "/greet?to=all")⟩ with
        | .ok (params, _) => ∃ N s chunks',
            (∀ fuel, exec (readFull (serverParser platform fun _ _ => none) (fuel + N))
              (newSession (serverParser platform fun _ _ => none) conn) = (.ok (), s)) ∧
            Read s .post (text "/greet?to=all") params block (text "hello") ∧ s.consumed = bytes ∧
            s.Supply chunks' more extra
        | .error _ => ∃ N err s,
          (∀ fuel, exec (readFull (serverParser platform fun _ _ => none) (fuel + N))
            (newSession (serverParser platform fun _ _ => none) conn) = (.error (.raised err), s)) ∧
          s.conn.written = conn.written :=
  postHello_request.read_by_server (.inl rfl) (by decide) platform (fun _ _ => none)
    (show exec (flush .default) postHello = (.ok (), (exec (flush .default) postHello).2) from rfl)

end Requests

section Responses

variable {rt : Runtime} {m m' : Message} {fields : List (Bytes × Bytes)} {parts : List Bytes}
  {status : Nat}

theorem firstLine_response {mesg : Bytes} (htype : m.mesgType = .sresp)
    (hstatus : m.status = some status) (hmesg : m.statusMesg = some mesg) :
    m.firstLine rt = .ok (statusLine m.majorVersion m.minorVersion status mesg) := by
  rw [Message.firstLine, htype]
  show firstResponseLine m = _
  rw [firstResponseLine, hstatus, hmesg]
  show tableConcat ([text "HTTP/", decimal m.majorVersion, text ".", decimal m.minorVersion,
    text " ", decimal status, text " ", mesg, CRLF].map .str) = _
  rw [tableConcat, concatFrom_strs]
  simp [statusLine, versionText]

/-- The text of a status stays in its line. -/
theorem statusMesgOf_line (status : Nat) : ∀ ch ∈ statusMesgOf status, ch ≠ CR ∧ ch ≠ LF := by
  have hall : httpStatusCodes.all (fun entry => (text entry.2).all inLine) = true := by decide
  unfold statusMesgOf
  cases hlookup : httpStatusCodes.lookup status with
  | none => exact lined_text (by decide)
  | some mesg =>
    obtain ⟨pre, post, heq, -⟩ := List.lookup_eq_some_iff.mp hlookup
    exact lined_text (List.all_eq_true.mp hall (status, mesg) (by rw [heq]; simp))

/-- A server's response that a client can read, when the header `framing` is sent with it. -/
structure ServerResponse (m : Message) (status : Nat) (fields : List (Bytes × Bytes))
    (parts : List Bytes) (framing : Bytes × Bytes) : Prop where
  composed : Composed m fields parts
  mesgType : m.mesgType = .sresp
  version : m.majorVersion = 1 ∧ m.minorVersion = 1
  statusSet : m.status = some status ∧ m.statusMesg = some (statusMesgOf status)
  noPost : m.method = none
  digits : status ≤ 999
  sendable : Sendable fields
  room : (statusLine 1 1 status (statusMesgOf status)).length +
    ((framing :: fields).flatMap headerLine).length + 3 ≤ httpMaxHeaderSize

def sentResponse (status : Nat) (block : List (Bytes × Bytes)) (c : Coding) : WireResponse :=
  ⟨1, 1, status, statusMesgOf status, block, .coded c⟩

variable {framing : Bytes × Bytes}

theorem ServerResponse.line (h : ServerResponse m status fields parts framing) (rt : Runtime) :
    m.firstLine rt = .ok (statusLine 1 1 status (statusMesgOf status)) := by
  rw [firstLine_response h.mesgType h.statusSet.1 h.statusSet.2, h.version.1, h.version.2]

theorem ServerResponse.wellFormed (h : ServerResponse m status fields parts framing)
    {block : List (Bytes × Bytes)} (hblock : block.Perm (framing :: fields))
    (hframing : Proper framing) {hd : Head} (hhead : Head.start.fields block = some hd)
    (hupgrade : hd.flags.upgrade = false) {c : Coding}
    (hcodes : (sentResponse status block c).head = hd → (sentResponse status block c).parser.Codes c) :
    (sentResponse status block c).WellFormed := by
  have hgetD : (sentResponse status block c).head = hd := by
    show (Head.start.fields block).getD Head.start = hd
    rw [hhead]
    rfl
  refine ⟨(by decide : 1 ≤ 999 ∧ 1 ≤ 999), h.digits, statusMesgOf_line status,
    h.sendable.proper hframing hblock, ?_, ?_, hcodes hgetD, ?_⟩
  · rw [hgetD]
    exact hhead
  · rw [hgetD]
    exact hupgrade
  · rw [WireResponse.lines, List.length_append]
    show _ + (block.flatMap headerLine).length + 3 ≤ _
    rw [length_block hblock]
    exact h.room

/-- A response that is flushed has been written as a well-formed response. -/
theorem ServerResponse.flushed
    (h : ServerResponse m status fields parts (contentLength parts.flatten))
    (hbody : LengthFits parts.flatten.length) (hflush : exec (flush rt) m = (.ok (), m')) :
    ∃ block : List (Bytes × Bytes), block.Perm (contentLength parts.flatten :: fields) ∧
      (sentResponse status block (.ofBody parts.flatten)).WellFormed ∧
      m'.conn.written = m.conn.written ++
        (sentResponse status block (.ofBody parts.flatten)).bytes := by
  have hparams : postParams rt m = none := by
    rw [postParams, h.noPost]
    rfl
  obtain ⟨m₁, block, hok, -, hblock, hwritten⟩ | ⟨e, m₁, herror, -⟩ :=
    flush_ready h.composed hparams (h.line rt)
  · cases hflush.symm.trans hok
    obtain ⟨hd, hhead, hagrees, -⟩ := h.sendable.contentLength hbody hblock
    refine ⟨block, hblock, h.wellFormed hblock (proper_contentLength _) hhead hagrees.upgrade
      fun hgetD => ?_, ?_⟩
    · exact codes_ofBody ((congrArg (·.flags.chunked) hgetD).trans hagrees.chunked)
        ((congrArg (·.contentLength) hgetD).trans hagrees.contentLength) hbody
    · rw [hwritten, WireResponse.bytes, WireResponse.lines]
      simp [sentResponse, Ending.bytes]
  · cases hflush.symm.trans herror

theorem SizeFits.mono {a b : Nat} (h : SizeFits b) (hab : a ≤ b) : SizeFits a :=
  (Nat.div_le_div_right hab).trans h

theorem length_le_flatten {chunks : List Bytes} {data : Bytes} (h : data ∈ chunks) :
    data.length ≤ chunks.flatten.length := by
  obtain ⟨pre, post, rfl⟩ := List.append_of_mem h
  simp only [List.flatten_append, List.flatten_cons, List.length_append]
  omega

theorem chunkedBytes_nil (chunks : List Bytes) :
    chunkedBytes chunks [] = chunks.flatMap ChunkedCoding.chunk ++ ChunkedCoding.lastChunk := rfl

/-- What is sent of a streamed body, as one chunked body, and what is sent behind it. -/
theorem streamed_chunks {sent : List Bytes} (hsent : ∀ data ∈ sent, data ≠ []) (kept : Bytes) :
    ∃ (chunks : List Bytes) (extra : Bytes), (∀ data ∈ chunks, data ≠ []) ∧
      chunks.flatten = sent.flatten ++ kept ∧
      sent.flatMap ChunkedCoding.chunk ++ (ChunkedCoding.chunk kept ++ ChunkedCoding.lastChunk) =
        chunkedBytes chunks [] ++ extra ∧
      extra = if 0 < kept.length then [] else ChunkedCoding.lastChunk := by
  by_cases hkept : kept = []
  · -- the chunk of the flush is the last one already
    subst hkept
    refine ⟨sent, _, hsent, (List.append_nil _).symm, ?_, rfl⟩
    rw [chunkedBytes_nil, ChunkedCoding.chunk_nil, List.append_assoc]
    rfl
  · refine ⟨sent ++ [kept], _, ?_, by simp, ?_, rfl⟩
    · intro data hdata
      obtain hdata | hdata := List.mem_append.mp hdata
      · exact hsent data hdata
      · rw [List.mem_singleton.mp hdata]
        exact hkept
    · rw [if_pos (List.length_pos_iff.mpr hkept), chunkedBytes_nil]
      simp

theorem startStreaming_block {m₁ : Message} {line : Bytes} (h : Composed m fields parts)
    (hline : m.firstLine rt = .ok line) (hstart : exec (startStreaming rt) m = (.ok (), m₁)) :
    ∃ block : List (Bytes × Bytes), block.Perm (transferChunked :: fields) ∧
      m₁.conn.written = m.conn.written ++ (line ++ block.flatMap headerLine ++ CRLF) := by
  have hline' : ({ m with isChunked := true }.addHeader (text "Transfer-Encoding")
      (text "chunked")).firstLine rt = .ok line := hline
  rw [startStreaming, exec_bind_ok (exec_modify _ m), sendHeaders_ok hline'] at hstart
  refine ⟨({ m with isChunked := true }.addHeader (text "Transfer-Encoding")
    (text "chunked")).headers.fields rt, ?_, ?_⟩
  · refine (Headers.fields_perm rt _).trans ?_
    exact (Headers.entries_add _ _ m.headers).trans (h.fields.cons _)
  · obtain ⟨conn, hok, hwritten, -⟩ | ⟨e, conn, herror, -⟩ := write_cases (headerBlock rt line
      ({ m with isChunked := true }.addHeader (text "Transfer-Encoding") (text "chunked")).headers)
      { { m with isChunked := true }.addHeader (text "Transfer-Encoding") (text "chunked") with
        headers := [] }
    · cases hstart.symm.trans hok
      exact hwritten
    · cases hstart.symm.trans herror

/-- A response that is streamed has been written as a well-formed response, and behind it once more
the last chunk if nothing was left in the buffer at the end. -/
theorem ServerResponse.streamed {m₁ m₂ : Message}
    (h : ServerResponse m status fields parts transferChunked) {more : List Bytes}
    (hbody : SizeFits (parts.flatten ++ more.flatten).length)
    (hstart : exec (startStreaming rt) m = (.ok (), m₁))
    (hstream : exec (streamBody rt more) m₁ = (.ok (), m₂)) :
    ∃ (block : List (Bytes × Bytes)) (chunks : List Bytes) (extra : Bytes),
      block.Perm (transferChunked :: fields) ∧
      chunks.flatten = parts.flatten ++ more.flatten ∧
      (sentResponse status block (.chunked chunks [])).WellFormed ∧
      m₂.conn.written = m.conn.written ++
        ((sentResponse status block (.chunked chunks [])).bytes ++ extra) ∧
      extra = if 0 < Http.leftover rt parts.flatten.length more then []
        else ChunkedCoding.lastChunk := by
  obtain ⟨block, hblock, hwritten⟩ := startStreaming_block h.composed (h.line rt) hstart
  obtain ⟨hd, hhead, hagrees⟩ := h.sendable.chunked hblock
  have hwell : ∀ chunks : List Bytes, (∀ data ∈ chunks, data ≠ []) →
      chunks.flatten = parts.flatten ++ more.flatten →
      (sentResponse status block (.chunked chunks [])).WellFormed := by
    intro chunks hchunks hflatten
    refine h.wellFormed hblock proper_transferChunked hhead hagrees.upgrade fun hgetD => ?_
    refine ⟨(congrArg (·.flags.chunked) hgetD).trans hagrees.chunked, fun data hdata =>
      ⟨hchunks data hdata, hbody.mono ?_⟩, by rintro f ⟨⟩, rfl, by decide⟩
    rw [← hflatten]
    exact length_le_flatten hdata
  have hstreaming := startStreaming_streaming h.composed.body hstart
  obtain ⟨-, e, m', herror⟩ | ⟨m', sent, kept, hok, -, h', hdata, hlen⟩ :=
    appendEach_streaming rt more hstreaming
  · rw [streamBody, exec_bind_error herror] at hstream
    cases hstream
  rw [List.flatten_nil, List.nil_append] at hdata
  rw [streamBody, exec_bind_ok hok] at hstream
  obtain ⟨-, e, m'', herror⟩ | ⟨m'', hflush, hwritten'⟩ := flush_streaming rt h'
  · cases hstream.symm.trans herror
  cases hstream.symm.trans hflush
  obtain ⟨chunks, extra, hchunks, hflatten, hbytes, hextra⟩ := streamed_chunks h'.nonempty kept.flatten
  rw [hdata] at hflatten
  rw [hlen] at hextra
  refine ⟨block, chunks, extra, hblock, hflatten, hwell chunks hchunks hflatten, ?_, hextra⟩
  rw [hwritten', hwritten, hbytes, WireResponse.bytes, WireResponse.lines]
  simp [sentResponse, Ending.bytes, Coding.bytes]

variable {platform : Platform} {parseURL : Bytes → Bool → Option ParsedURL}

/-- The client reads this response from every connection that brings its bytes, and executing a
request on that connection returns its whole body. -/
structure Received (platform : Platform) (parseURL : Bytes → Bool → Option ParsedURL)
    (r : WireResponse) (body : Bytes) : Prop where
  delivered : ∀ (conn : Conn) (chunks : List Bytes) (more : List (Except LuaError Bytes))
    (extra : Bytes), conn.Supply chunks more (r.bytes ++ extra) →
      Delivered (httpParser .response platform parseURL) conn r.message r.ending.framing
  executed : ∀ (rt : Runtime) (req req' : Message) (conn : Conn) (chunks : List Bytes)
    (more : List (Except LuaError Bytes)) (extra : Bytes),
      exec (flush rt) (req.withConn conn) = (.ok (), req') →
      req'.conn.Supply chunks more (r.bytes ++ extra) →
      (ExecutesBody (httpParser .response platform parseURL) rt conn req body ↔
        r.message.ReadWhole ∧ r.message.Decodes (httpParser .response platform parseURL))

theorem received (platform : Platform) (parseURL : Bytes → Bool → Option ParsedURL)
    {block : List (Bytes × Bytes)} {c : Coding} (h : (sentResponse status block c).WellFormed) :
    Received platform parseURL (sentResponse status block c) c.body := by
  have hcoded : (sentResponse status block c).ending.framing ≠ .untilClose := by
    cases c <;> rintro ⟨⟩
  refine ⟨fun conn chunks more extra hsupply => h.delivered hsupply fun hclose =>
    absurd hclose hcoded, fun rt req req' conn chunks more extra hflush hsupply => ?_⟩
  rw [executesBody_iff hflush]
  refine (h.readsBody_iff hsupply fun hclose => absurd hclose hcoded).trans ?_
  exact ⟨fun hread => hread.2, fun hread => ⟨hcoded, hread⟩⟩

/-- A client receives the response that a server has flushed. -/
theorem ServerResponse.flushed_received
    (h : ServerResponse m status fields parts (contentLength parts.flatten))
    (hbody : LengthFits parts.flatten.length) (hflush : exec (flush rt) m = (.ok (), m')) :
    ∃ r : WireResponse, m'.conn.written = m.conn.written ++ r.bytes ∧ r.status = status ∧
      r.fields.Perm (contentLength parts.flatten :: fields) ∧
      Received platform parseURL r parts.flatten := by
  obtain ⟨block, hblock, hwell, hwritten⟩ := h.flushed hbody hflush
  refine ⟨_, hwritten, rfl, hblock, ?_⟩
  have hreceived := received platform parseURL hwell
  rwa [Coding.ofBody_body] at hreceived

/-- A client receives the response that a server has streamed, with all the strings of its body. -/
theorem ServerResponse.streamed_received {m₁ m₂ : Message}
    (h : ServerResponse m status fields parts transferChunked) {more : List Bytes}
    (hbody : SizeFits (parts.flatten ++ more.flatten).length)
    (hstart : exec (startStreaming rt) m = (.ok (), m₁))
    (hstream : exec (streamBody rt more) m₁ = (.ok (), m₂)) :
    ∃ (r : WireResponse) (extra : Bytes),
      m₂.conn.written = m.conn.written ++ (r.bytes ++ extra) ∧ r.status = status ∧
      r.fields.Perm (transferChunked :: fields) ∧
      Received platform parseURL r (parts.flatten ++ more.flatten) ∧
      extra = if 0 < Http.leftover rt parts.flatten.length more then []
        else ChunkedCoding.lastChunk := by
  obtain ⟨block, chunks, extra, hblock, hflatten, hwell, hwritten, hextra⟩ :=
    h.streamed hbody hstart hstream
  rw [← hflatten]
  exact ⟨_, extra, hwritten, rfl, hblock, received platform parseURL hwell, hextra⟩

end Responses

end Luaw.Parsing
