import Mathlib.Data.List.Forall2
import Luaw.Http.Fragments
import Luaw.Http.KeepAlive
import Luaw.Http.ReadBound

/-!
# Pipelined requests

`serviceHTTP` makes a new request object for every round, and what the old one had left unread
goes with it. So no request is lost only if no read result has bytes of two of them, and each
arrives as it was sent only if the decoder overwrites none of its strings.
-/

namespace Luaw.Http

open Lua Program

/-- A request as it was sent, and what it says. -/
structure Sent where
  bytes : Bytes
  content : Content

/-- The read results come in blocks, one for each of the messages. -/
def Aligned (chunks : List Bytes) (mesgs : List Bytes) : Prop :=
  ∃ blocks : List (List Bytes), blocks.flatten = chunks ∧ blocks.map List.flatten = mesgs

theorem flatten_eq_nil {chunks : List Bytes} (hne : ∀ chunk ∈ chunks, chunk ≠ [])
    (h : chunks.flatten = []) : chunks = [] := by
  cases chunks with
  | nil => rfl
  | cons chunk chunks =>
    rw [List.flatten_cons, List.append_eq_nil_iff] at h
    exact absurd h.1 (hne chunk List.mem_cons_self)

theorem block_unique {block block' rest rest' : List Bytes}
    (hne : ∀ chunk ∈ block ++ rest, chunk ≠ []) (h : block ++ rest = block' ++ rest')
    (hflatten : block.flatten = block'.flatten) : rest = rest' := by
  have hne' : ∀ chunk ∈ block' ++ rest', chunk ≠ [] := h ▸ hne
  obtain ⟨as, rfl, hrest⟩ | ⟨bs, rfl, hrest⟩ := List.append_eq_append_iff.mp h
  · rw [List.flatten_append, List.self_eq_append_right] at hflatten
    have has : as = [] := flatten_eq_nil (fun chunk hc => hne' chunk (by simp [hc])) hflatten
    rw [hrest, has, List.nil_append]
  · rw [List.flatten_append, List.append_right_eq_self] at hflatten
    have hbs : bs = [] := flatten_eq_nil (fun chunk hc => hne chunk (by simp [hc])) hflatten
    rw [hrest, hbs, List.nil_append]

theorem aligned_cons {block rest mesgs : List Bytes} (hne : ∀ chunk ∈ block ++ rest, chunk ≠ []) :
    Aligned (block ++ rest) (block.flatten :: mesgs) ↔ Aligned rest mesgs := by
  constructor
  · rintro ⟨blocks, hchunks, hmesgs⟩
    cases blocks with
    | nil => cases hmesgs
    | cons block' blocks =>
      obtain ⟨hfirst, hmesgs⟩ := List.cons.inj hmesgs
      exact ⟨blocks, (block_unique hne hchunks.symm hfirst.symm).symm, hmesgs⟩
  · rintro ⟨blocks, rfl, rfl⟩
    exact ⟨block :: blocks, rfl, rfl⟩

section AsSent

variable {σ : Type} (P : HttpParser σ) (c : Content)

/-- The path in the URL of the request. -/
def Content.path : Option Bytes :=
  match parseRequestURL P (some c.method) (some c.url) with
  | .ok parsedURL => parsedURL.path
  | .error _ => none

/-- The headers of the request, as it was sent, leave its body to `readFull`. -/
structure Content.Ordinary : Prop where
  boundary : getMultipartBoundary (addFields c.fields []) = .ok none
  luaPack : isLuaPackMesg (addFields c.fields []) = false

/-- The object says what was sent. -/
structure Content.AsSent (fields : List (Bytes × Bytes)) (req : Request) : Prop where
  method : req.method = some c.method
  path : ∃ queryString, req.parsedURL = some ⟨c.path P, queryString⟩
  message : c.message.AsSent true fields req

/-- The strings of the request that its object has. -/
def Content.strings (fields : List (Bytes × Bytes)) : List Bytes :=
  c.method :: (c.path P).toList ++ c.message.strings true fields

/-- Neither the query string nor a form, where decoding changes it, is a string of the request. -/
structure Content.Intact : Prop where
  query : ∀ x ∈ c.message.queryOverwriting P, x.data ∉ c.strings P c.fields
  form : ∀ x ∈ c.message.formOverwriting P, x.data ∉ c.strings P (c.fields ++ c.trailers)

variable {P c} {fields : List (Bytes × Bytes)} {req req' head : Request}

theorem Content.asSent_after_iff {x : Option Overwriting} (hproper : ∀ y ∈ x, y.Proper)
    {queryString : Option Bytes} (hmethod : req.method = some (textAfter x c.method))
    (hpath : req.parsedURL = some ⟨(c.path P).map (textAfter x), queryString⟩)
    (hmessage : c.message.AsSent true fields req ↔
      ∀ y ∈ x, y.data ∉ c.message.strings true fields) :
    c.AsSent P fields req ↔ ∀ y ∈ x, y.data ∉ c.strings P fields := by
  have hstrings : (∀ y ∈ x, y.data ∉ c.strings P fields) ↔
      (∀ y ∈ x, y.data ∉ (some c.method).toList) ∧ (∀ y ∈ x, y.data ∉ (c.path P).toList) ∧
        ∀ y ∈ x, y.data ∉ c.message.strings true fields := by
    simp only [Content.strings, List.cons_append, List.mem_cons, List.mem_append, not_or,
      Option.toList_some, List.not_mem_nil, or_false]
    exact ⟨fun h => ⟨fun y hy => (h y hy).1, fun y hy => (h y hy).2.1, fun y hy => (h y hy).2.2⟩,
      fun h y hy => ⟨h.1 y hy, h.2.1 y hy, h.2.2 y hy⟩⟩
  rw [hstrings, ← WireMessage.map_textAfter_eq_iff hproper (some c.method),
    ← WireMessage.map_textAfter_eq_iff hproper (c.path P), ← hmessage]
  constructor
  · rintro ⟨hmethod', ⟨queryString', hpath'⟩, hmessage'⟩
    rw [hmethod] at hmethod'
    rw [hpath] at hpath'
    exact ⟨hmethod', congrArg ParsedURL.path (Option.some.inj hpath'), hmessage'⟩
  · rintro ⟨hmethod', hpath', hmessage'⟩
    exact ⟨hmethod.trans hmethod', ⟨queryString, hpath.trans (by rw [hpath'])⟩, hmessage'⟩

theorem Content.path_eq {parsedURL : ParsedURL}
    (h : parseRequestURL P (some c.method) (some c.url) = .ok parsedURL) :
    c.path P = parsedURL.path := by
  rw [Content.path, h]

/-- The headers are as they were sent when the query string is none of their strings. -/
theorem Content.head_asSent_iff (hkeep : c.keepAlive = true)
    (h : callback P c.headersComplete c.headRequest = .ok head) :
    c.AsSent P c.fields head ↔ ∀ x ∈ c.message.queryOverwriting P, x.data ∉ c.strings P c.fields := by
  have hhead := Content.head_of_call P h
  obtain ⟨parsedURL, params, left, hparse, -, -, hpath⟩ := hhead.query
  rw [← Content.path_eq hparse] at hpath
  have hmessage := hhead.asSent_iff
  rw [show c.message.keepAlive = true from hkeep] at hmessage
  exact Content.asSent_after_iff (c.message.queryOverwriting_proper P) hhead.method hpath hmessage

theorem Content.last_asSent_iff (hkeep : c.keepAlive = true) (hkeepEnd : c.keepAliveEnd = true)
    (h : callback P c.headersComplete c.headRequest = .ok head) (hrequest : c.request P = .ok req)
    (hsent : c.AsSent P c.fields head) :
    c.AsSent P (c.fields ++ c.trailers) req ↔
      ∀ x ∈ c.message.formOverwriting P, x.data ∉ c.strings P (c.fields ++ c.trailers) := by
  have hhead := Content.head_of_call P h
  have hlast := Content.object_of_request P hrequest
  obtain ⟨parsedURL, params, left, hparse, -, -, hheadPath⟩ := hhead.query
  obtain ⟨parsedURL', queryString, hparse', hpath⟩ := hlast.path
  cases hparse.symm.trans hparse'
  obtain ⟨queryString', hsentPath⟩ := hsent.path
  have hmethod : some (textAfter (c.message.queryOverwriting P) c.method) = some c.method :=
    hhead.method.symm.trans hsent.method
  have hpathHead : (c.path P).map (textAfter (c.message.queryOverwriting P)) = c.path P := by
    rw [hheadPath, ← Content.path_eq hparse] at hsentPath
    exact congrArg ParsedURL.path (Option.some.inj hsentPath)
  have hmethodEnd : req.method = some (textAfter (c.message.formOverwriting P) c.method) := by
    have hend := hlast.method
    rw [WireMessage.map_textEnd] at hend
    exact hend.trans (congrArg (Option.map _) hmethod)
  rw [← Content.path_eq hparse, WireMessage.map_textEnd, hpathHead] at hpath
  have hmessage := hlast.asSent_iff hhead
  rw [show c.message.keepAlive = true from hkeep, show c.message.keepAliveEnd = true from hkeepEnd,
    Bool.and_true] at hmessage
  exact Content.asSent_after_iff (c.message.formOverwriting_proper P) hmethodEnd hpath
    (hmessage hsent.message)

/-- Headers that are as they were sent are those of an ordinary request. -/
theorem Content.Ordinary.readFully (h : c.Ordinary)
    (hcall : callback P c.headersComplete c.headRequest = .ok head)
    (hsent : c.AsSent P c.fields head) : c.ReadFully P := by
  have hget : (c.message.headHeaders P).get? (text "Content-Type") =
      (addFields c.fields []).get? (text "Content-Type") := by
    rw [← (Content.head_of_call P hcall).headers, get?_fields]
    exact hsent.message.headers _ (.inl rfl)
  constructor
  · rw [← h.boundary, getMultipartBoundary, getMultipartBoundary, hget]
  · rw [← h.luaPack, isLuaPackMesg, isLuaPackMesg, hget]

end AsSent

section Pipelining

variable {σ : Type} (env : Env σ)

/-- A complete keep-alive request whose body `readFull` reads. -/
structure Sent.Servable (P : HttpParser σ) (m : Sent) : Prop where
  parse : Nonempty (Parse P m.bytes m.content)
  keepAlive : m.content.keepAlive = true
  keepAliveEnd : m.content.keepAliveEnd = true
  ordinary : m.content.Ordinary

/-- The URL and the parameters of the request can be decoded. -/
def Sent.Decodes (P : HttpParser σ) (m : Sent) : Prop := ∃ req, m.content.request P = .ok req

/-- What decoding the request overwrites. -/
def Sent.overwritten (P : HttpParser σ) (m : Sent) : List Overwriting :=
  (m.content.message.queryOverwriting P).toList ++ (m.content.message.formOverwriting P).toList

/-- The handler of the request is found, whatever has been overwritten until then. -/
def Sent.Registered (m : Sent) : Prop :=
  ∃ action, env.findAction (env.overwritten ++ m.overwritten env.parser) m.content.method
    (m.content.path env.parser) = .ok (some action)

/-- The handler of the request returns, and its response can be sent. -/
def Sent.Answered (m : Sent) : Prop :=
  ∀ req, m.content.request env.parser = .ok req → Sendable env req

/-- Nothing goes wrong with the requests one by one: each can be decoded, decoding overwrites none
of its strings and leaves its handler registered, and all but the last are answered. -/
def Serves : Env σ → List Sent → Prop
  | _, [] => True
  | env, m :: msgs =>
    (m.Decodes env.parser ∧ m.content.Intact env.parser ∧ m.Registered env) ∧
      (msgs ≠ [] → m.Answered env) ∧ Serves (env.after (m.overwritten env.parser)) msgs

/-- The handler was called for this request, parsed from its bytes, and all along the object has
said what was sent. -/
structure Dispatched.Of (P : HttpParser σ) (d : Dispatched) (m : Sent) : Prop where
  consumed : d.consumed = m.bytes
  head : ∃ head, callback P m.content.headersComplete m.content.headRequest = .ok head ∧
    m.content.AsSent P m.content.fields head
  object : m.content.AsSent P (m.content.fields ++ m.content.trailers) d.req
  body : d.req.HasBody P m.content.body

theorem consumed_length {P : HttpParser σ} {ds : List Dispatched} {msgs : List Sent}
    (h : List.Forall₂ (Dispatched.Of P) ds msgs) :
    (ds.map fun d => d.consumed.length).sum = (msgs.map Sent.bytes).flatten.length := by
  induction h with
  | nil => rfl
  | cons hof _ ih =>
    rw [List.map_cons, List.sum_cons, List.map_cons, List.flatten_cons, List.length_append, ih,
      hof.consumed]

/-- A request that has been read to its end is the one that was sent exactly when decoding has
overwritten none of its strings. -/
theorem Sent.Servable.of_iff {P : HttpParser σ} {m : Sent} (h : m.Servable P) {req : Request}
    (hrequest : m.content.request P = .ok req) :
    Dispatched.Of P ⟨req, m.bytes⟩ m ↔ m.content.Intact P := by
  obtain ⟨head, hcall, -⟩ := Program.except_bind_ok hrequest
  have hfirst := Content.head_asSent_iff h.keepAlive hcall
  have hlast := Content.last_asSent_iff h.keepAlive h.keepAliveEnd hcall hrequest
  constructor
  · rintro ⟨-, ⟨head', hcall', hhead⟩, hobject, -⟩
    cases hcall.symm.trans hcall'
    exact ⟨hfirst.mp hhead, (hlast hhead).mp hobject⟩
  · rintro ⟨hquery, hform⟩
    have hhead := hfirst.mpr hquery
    exact ⟨rfl, ⟨head, hcall, hhead⟩, (hlast hhead).mpr hform,
      (Content.object_of_request P hrequest).body⟩

/-- When nothing comes any more, nothing is dispatched. -/
theorem serviceHTTP_idle {conn conn' : Conn} {mesg : LuaError}
    (hread : conn.read = (.error mesg, conn')) (fuel : Nat) :
    (serviceHTTP env (fuel + 3) conn).dispatched = [] := by
  have hheaders : ∀ k, exec (readUntil env.parser Request.headersDone (k + 1))
      (newSession env.parser conn) = exec (readAndParse env.parser >>= fun _ =>
        readUntil env.parser Request.headersDone k) (newSession env.parser conn) :=
    fun k => exec_readUntil_step rfl k
  have hspent : (newSession env.parser conn).Spent := fun _ _ hunread => by cases hunread
  -- the end of the input makes an empty message of it, every other error is raised
  by_cases hEOF : mesg = text "EOF"
  · subst hEOF
    let ended : Session σ := (newSession env.parser conn').atEOF
    have hcontent : exec readContent (newSession env.parser conn) = (.ok none, ended) :=
      hspent.readContent_EOF hread
    have hround : exec (readAndParse env.parser) (newSession env.parser conn) = (.ok (), ended) := by
      rw [readAndParse, exec_bind_ok hcontent]
      rfl
    have hfirst : exec (readUntil env.parser Request.headersDone (fuel + 2))
        (newSession env.parser conn) = (.ok (), ended) := by
      rw [hheaders, exec_bind_ok hround, exec_readUntil_done rfl]
    have hfull : exec (readFull env.parser (fuel + 2)) (newSession env.parser conn) =
        (.ok (), ended) := by
      have hlast : exec (readUntil env.parser Request.mesgDone (fuel + 2)) ended = (.ok (), ended) :=
        @exec_readUntil_done σ env.parser Request.mesgDone ended rfl (fuel + 1)
      have hboundary : getMultipartBoundary ended.req.headers = .ok none := rfl
      have hpack : isLuaPackMesg ended.req.headers = false := rfl
      rw [readFull, exec_bind_ok hfirst, exec_bind_ok (exec_get _), hboundary, hpack]
      exact hlast
    rw [serviceHTTP_EOF env hfull rfl]
  · have hround : exec (readAndParse env.parser) (newSession env.parser conn) =
        (.error (.raised mesg), newSession env.parser conn') := by
      rw [readAndParse, exec_bind_error (hspent.readContent_error hread hEOF)]
      rfl
    have hfull : exec (readFull env.parser (fuel + 2)) (newSession env.parser conn) =
        (.error (.raised mesg), newSession env.parser conn') := by
      rw [readFull, exec_bind_error]
      rw [hheaders, exec_bind_error hround]
    rw [serviceHTTP_raised env hfull]

/-- What becomes of the first request on a connection, if nothing goes wrong with it: its handler
is called and, when the response has been sent, `conn'` is served; the bytes `pending` are left in
the old request. -/
structure First (m : Sent) (conn : Conn) (block : List Bytes)
    (more : List (Except LuaError Bytes)) (extra : Bytes) (N : Nat) (d : Dispatched)
    (conn' : Conn) (pending : Bytes) (block' : List Bytes) : Prop where
  request : m.content.request env.parser = .ok d.req
  dispatched : d.Of env.parser m
  accepts : conn'.Accepts
  suffix : block' <:+ block
  bytes : pending ++ block'.flatten = extra
  incoming : conn'.incoming = block'.map .ok ++ more
  sent : Sendable env d.req → ∀ fuel, (serviceHTTP env (fuel + N + 1) conn).dispatched =
    d :: (serviceHTTP (env.after (m.overwritten env.parser)) (fuel + N) conn').dispatched
  unsent : ¬Sendable env d.req → ∀ fuel, (serviceHTTP env (fuel + N + 1) conn).dispatched = [d]

/-- A request that has been read is dispatched to its handler, or nothing is. -/
theorem serviceHTTP_read {conn : Conn} {N : Nat} {s : Session σ} {method : Bytes}
    {parsedURL : ParsedURL}
    (hrun : ∀ fuel, exec (readFull env.parser (fuel + N)) (newSession env.parser conn) = (.ok (), s))
    (hEOF : s.req.EOF = false) (haccepts : s.conn.Accepts) (hmethod : s.req.method = some method)
    (hurl : s.req.parsedURL = some parsedURL) (fuel : Nat) :
    (serviceHTTP env (fuel + N + 1) conn).dispatched = [] ∨
      (∃ action, actionOf env s.req = .ok (some action)) ∧
      ∃ rest, (serviceHTTP env (fuel + N + 1) conn).dispatched = ⟨s.req, s.consumed⟩ :: rest := by
  obtain ⟨result, resp, hdispatch, -, -, hsendable⟩ := dispatchAction_cases env haccepts s.req
  cases result with
  | ok =>
    obtain ⟨action, haction⟩ := (hsendable.mp rfl).registered hmethod hurl
    refine .inr ⟨⟨action, haction⟩, ?_⟩
    rw [serviceHTTP_sent env (hrun fuel) hEOF hdispatch, dispatchedOf, haction]
    exact ⟨_, rfl⟩
  | error stop =>
    rw [serviceHTTP_unsent env (hrun fuel) hEOF hdispatch, dispatchedOf]
    split
    · next action haction => exact .inr ⟨⟨action, haction⟩, [], rfl⟩
    · exact .inl rfl

theorem Sent.Servable.registered_iff {m : Sent} {req : Request}
    (hrequest : m.content.request env.parser = .ok req)
    (hsent : m.content.AsSent env.parser (m.content.fields ++ m.content.trailers) req) :
    m.Registered env ↔ ∃ action, actionOf env req = .ok (some action) := by
  obtain ⟨queryString, hpath⟩ := hsent.path
  have hoverwritten : req.overwritten = m.overwritten env.parser :=
    (Content.object_of_request _ hrequest).overwritten.trans (List.nil_append _)
  rw [Sent.Registered, actionOf, hsent.method, hpath, hoverwritten]
  dsimp only
  rcases env.findAction (env.overwritten ++ m.overwritten env.parser) m.content.method
    (m.content.path env.parser) with e | _ | action
  · constructor <;> rintro ⟨action, haction⟩ <;> cases haction
  · constructor <;> rintro ⟨action, haction⟩ <;> cases haction
  · exact ⟨fun _ => ⟨action, rfl⟩, fun _ => ⟨action, rfl⟩⟩

/-- An ordinary request that decoding leaves as it was sent is read to its end. -/
theorem Sent.Servable.fullRequest_eq {P : HttpParser σ} {m : Sent} (h : m.Servable P)
    {req : Request} (hrequest : m.content.request P = .ok req) (hintact : m.content.Intact P) :
    m.content.fullRequest P = .ok req := by
  obtain ⟨head, hcall, -⟩ := Program.except_bind_ok hrequest
  have hhead := (Content.head_asSent_iff h.keepAlive hcall).mpr hintact.query
  rw [(h.ordinary.readFully hcall hhead).full, hrequest]

section First

variable {env} {m : Sent} {conn : Conn} {block' block : List Bytes} {N : Nat}
  {more : List (Except LuaError Bytes)} {extra : Bytes} {s : Session σ}

/-- A request whose body is left to the handler is not dispatched with all of its bytes. -/
theorem serviceHTTP_left (hm : m.Servable env.parser)
    (hrun : ∀ fuel, exec (readFull env.parser (fuel + N)) (newSession env.parser conn) = (.ok (), s))
    (haccepts : s.conn.Accepts)
    (hcall : callback env.parser m.content.headersComplete m.content.headRequest = .ok s.req)
    {q : Bytes} (hq : q ≠ []) (hconsumed : s.consumed ++ q = m.bytes) (fuel : Nat)
    (msgs : List Sent) :
    ¬List.Forall₂ (Dispatched.Of env.parser) (serviceHTTP env (fuel + N + 1) conn).dispatched
      (m :: msgs) := by
  intro hall
  have hhead := Content.head_of_call _ hcall
  obtain ⟨parsedURL, params, left, -, -, -, hurl⟩ := hhead.query
  have hEOF : s.req.EOF = false := by
    rw [hhead.EOF]
    exact congrArg (!·) hm.keepAlive
  obtain hnone | ⟨-, rest, hfirst⟩ :=
    serviceHTTP_read env hrun hEOF haccepts hhead.method hurl fuel
  · rw [hnone] at hall
    cases hall
  · rw [hfirst] at hall
    have hof : s.consumed = m.bytes := (List.forall₂_cons.mp hall).1.consumed
    have hlength := congrArg List.length hconsumed
    rw [hof, List.length_append] at hlength
    exact hq (List.length_eq_zero_iff.mp (by omega))

/-- A request that has been read to its end is dispatched as it was sent, or the handlers are not
called for the requests. -/
theorem serviceHTTP_full (hm : m.Servable env.parser)
    (hrun : ∀ fuel, exec (readFull env.parser (fuel + N)) (newSession env.parser conn) = (.ok (), s))
    (haccepts : s.conn.Accepts) (hrequest : m.content.request env.parser = .ok s.req)
    (hconsumed : s.consumed = m.bytes) (hsuffix : block' <:+ block)
    (hsupply : s.Supply block' more extra) :
    (m.content.Intact env.parser ∧ m.Registered env ∧
        ∃ d conn' pending block', First env m conn block more extra N d conn' pending block') ∨
      (¬(m.content.Intact env.parser ∧ m.Registered env) ∧
        ∀ fuel msgs, ¬List.Forall₂ (Dispatched.Of env.parser)
          (serviceHTTP env (fuel + N + 1) conn).dispatched (m :: msgs)) := by
  have hobject := Content.object_of_request _ hrequest
  obtain ⟨parsedURL, queryString, -, hurl⟩ := hobject.path
  have hEOF : s.req.EOF = false := by
    rw [hobject.EOF]
    exact congrArg (!·) (Bool.and_eq_true_iff.mpr ⟨hm.keepAlive, hm.keepAliveEnd⟩)
  have hof := hm.of_iff hrequest
  rw [← hconsumed] at hof
  by_cases hgood : m.content.Intact env.parser ∧ m.Registered env
  · obtain ⟨hintact, hregistered⟩ := hgood
    have hdispatched := hof.mpr hintact
    obtain ⟨action, haction⟩ :=
      (Sent.Servable.registered_iff env hrequest hdispatched.object).mp hregistered
    have hdispatchedOf : dispatchedOf env s = [⟨s.req, s.consumed⟩] := by
      rw [dispatchedOf, haction]
    have hoverwritten : s.req.overwritten = m.overwritten env.parser :=
      hobject.overwritten.trans (List.nil_append _)
    obtain ⟨result, resp, hdispatch, hresp, hincoming, hsendable⟩ :=
      dispatchAction_cases env haccepts s.req
    refine .inl ⟨hintact, hregistered, ⟨s.req, s.consumed⟩, resp.conn, s.pending, block', hrequest,
      hdispatched, hresp, hsuffix, hsupply.bytes, hincoming.trans hsupply.incoming,
      fun hsend fuel => ?_, fun hsend fuel => ?_⟩
    · rw [hsendable.mpr hsend] at hdispatch
      rw [serviceHTTP_sent env (hrun fuel) hEOF hdispatch, hdispatchedOf, hoverwritten]
      rfl
    · cases result with
      | ok => exact absurd (hsendable.mp rfl) hsend
      | error stop => rw [serviceHTTP_unsent env (hrun fuel) hEOF hdispatch, hdispatchedOf]
  · refine .inr ⟨hgood, fun fuel msgs hall => ?_⟩
    obtain hnone | ⟨haction, rest, hfirst⟩ :=
      serviceHTTP_read env hrun hEOF haccepts hobject.method hurl fuel
    · rw [hnone] at hall
      cases hall
    · rw [hfirst] at hall
      have hdispatched := (List.forall₂_cons.mp hall).1
      exact hgood ⟨hof.mp hdispatched,
        (Sent.Servable.registered_iff env hrequest hdispatched.object).mpr haction⟩

/-- Nothing goes wrong with the first request, or the handlers are not called for the requests. -/
theorem serviceHTTP_first (hm : m.Servable env.parser) (haccepts : conn.Accepts)
    (hsupply : conn.Supply block more (m.bytes ++ extra)) :
    ∃ N, ((m.Decodes env.parser ∧ m.content.Intact env.parser ∧ m.Registered env) ∧
        ∃ d conn' pending block', First env m conn block more extra N d conn' pending block') ∨
      (¬(m.Decodes env.parser ∧ m.content.Intact env.parser ∧ m.Registered env) ∧
        ∀ fuel msgs, ¬List.Forall₂ (Dispatched.Of env.parser)
          (serviceHTTP env (fuel + N + 1) conn).dispatched (m :: msgs)) := by
  obtain ⟨parse⟩ := hm.parse
  obtain ⟨N, s, block', hsuffix, hconn, hread⟩ := readFull_stops parse hsupply
  have haccepts' : s.conn.Accepts := by
    rw [hconn]
    exact ⟨haccepts.opened, haccepts.faults⟩
  refine ⟨N, ?_⟩
  cases hfull : m.content.fullRequest env.parser with
  | error e =>
    rw [hfull] at hread
    obtain ⟨err, hrun⟩ := hread
    refine .inr ⟨?_, fun fuel msgs hall => ?_⟩
    · rintro ⟨⟨req, hrequest⟩, hintact, -⟩
      cases hfull.symm.trans (hm.fullRequest_eq hrequest hintact)
    · rw [serviceHTTP_raised env (hrun fuel)] at hall
      cases hall
  | ok req =>
    rw [hfull] at hread
    obtain ⟨hrun, rfl, hstops⟩ := hread
    cases hstops with
    | left q hcall hq hconsumed =>
      refine .inr ⟨?_, serviceHTTP_left hm hrun haccepts' hcall hq hconsumed⟩
      rintro ⟨⟨req, hrequest⟩, hintact, -⟩
      have hreq := hfull.symm.trans (hm.fullRequest_eq hrequest hintact)
      have hdone := (Content.object_of_request _ (hrequest.trans hreq.symm)).mesgDone
      rw [(Content.head_of_call _ hcall).mesgDone] at hdone
      cases hdone
    | full hrequest hconsumed hsupply' =>
      obtain ⟨hintact, hregistered, hfirst⟩ | ⟨hbad, hnot⟩ :=
        serviceHTTP_full hm hrun haccepts' hrequest hconsumed hsuffix hsupply'
      · exact .inl ⟨⟨⟨s.req, hrequest⟩, hintact, hregistered⟩, hfirst⟩
      · exact .inr ⟨fun h => hbad h.2, hnot⟩

end First

/-- With enough fuel the requests are all dispatched exactly when these conditions hold. -/
def DispatchedWhen (conn : Conn) (chunks : List Bytes) (msgs : List Sent) : Prop :=
  ∃ N, ∀ fuel, N ≤ fuel →
    (List.Forall₂ (Dispatched.Of env.parser) (serviceHTTP env fuel conn).dispatched msgs ↔
      Aligned chunks (msgs.map Sent.bytes) ∧ Serves env msgs)

theorem dispatchedWhen_nil {conn : Conn} {chunks : List Bytes}
    {more : List (Except LuaError Bytes)} (hmore : ∀ result ∈ more, ∃ mesg, result = .error mesg)
    (hsupply : conn.Supply chunks more []) : DispatchedWhen env conn chunks [] := by
  have hchunks : chunks = [] := flatten_eq_nil hsupply.nonempty hsupply.bytes
  obtain ⟨mesg, conn', hread⟩ : ∃ mesg conn', conn.read = (.error mesg, conn') := by
    have hincoming := hsupply.incoming
    rw [hchunks, List.map_nil, List.nil_append] at hincoming
    rw [Conn.read, hsupply.opened, hincoming]
    cases more with
    | nil => exact ⟨_, _, rfl⟩
    | cons result more =>
      obtain ⟨mesg, rfl⟩ := hmore result List.mem_cons_self
      exact ⟨_, _, rfl⟩
  refine ⟨3, fun fuel hfuel => ?_⟩
  obtain ⟨fuel, rfl⟩ := Nat.exists_eq_add_of_le' hfuel
  rw [serviceHTTP_idle env hread, hchunks]
  simp [Aligned, Serves]

/-- The request is read from results of its own, and the next round begins with a new one. -/
theorem dispatchedWhen_aligned {m : Sent} {msgs : List Sent} (hm : m.Servable env.parser)
    {conn : Conn} (haccepts : conn.Accepts) {block rest : List Bytes}
    {more : List (Except LuaError Bytes)}
    (hsupply : conn.Supply (block ++ rest) more (m.bytes ++ (msgs.map Sent.bytes).flatten))
    (hblock : block.flatten = m.bytes)
    (ih : ∀ {conn' : Conn}, conn'.Accepts →
      conn'.Supply rest more (msgs.map Sent.bytes).flatten →
      DispatchedWhen (env.after (m.overwritten env.parser)) conn' rest msgs) :
    DispatchedWhen env conn (block ++ rest) (m :: msgs) := by
  have hbytes : (block ++ rest).flatten = m.bytes ++ (msgs.map Sent.bytes).flatten := hsupply.bytes
  have hne : ∀ chunk ∈ block, chunk ≠ [] := fun chunk hc =>
    hsupply.nonempty chunk (List.mem_append_left _ hc)
  have hrest : rest.flatten = (msgs.map Sent.bytes).flatten := by
    rw [List.flatten_append, hblock] at hbytes
    exact List.append_cancel_left hbytes
  have hone : conn.Supply block (rest.map .ok ++ more) (m.bytes ++ []) :=
    ⟨hsupply.opened, by rw [hsupply.incoming, List.map_append, List.append_assoc],
      by rw [hblock, List.append_nil], hne⟩
  rw [DispatchedWhen, List.map_cons, ← hblock, aligned_cons hsupply.nonempty]
  obtain ⟨N, ⟨hgood, d, conn', pending, block', first⟩ | ⟨hbad, hnot⟩⟩ :=
    serviceHTTP_first hm haccepts hone
  · have hblock' : block' = [] :=
      flatten_eq_nil (fun chunk hc => hne chunk (first.suffix.mem hc))
        (List.append_eq_nil_iff.mp first.bytes).2
    have hincoming : conn'.incoming = rest.map .ok ++ more := by
      rw [first.incoming, hblock']
      rfl
    obtain ⟨N', hlater⟩ := ih first.accepts ⟨first.accepts.opened, hincoming, hrest,
      fun chunk hc => hsupply.nonempty chunk (List.mem_append_right _ hc)⟩
    refine ⟨N + N' + 1, fun fuel hfuel => ?_⟩
    obtain ⟨fuel, rfl⟩ : ∃ k, fuel = k + N + 1 := ⟨fuel - N - 1, by omega⟩
    have hanswered : m.Answered env ↔ Sendable env d.req := by
      constructor
      · exact fun h => h d.req first.request
      · intro h req hreq
        rw [first.request] at hreq
        cases hreq
        exact h
    rw [Serves, hanswered]
    by_cases hsend : Sendable env d.req
    · rw [first.sent hsend, List.forall₂_cons]
      have hlater' := hlater (fuel + N) (by omega)
      rw [show (env.after (m.overwritten env.parser)).parser = env.parser from rfl] at hlater'
      rw [hlater']
      simp [first.dispatched, hgood, hsend]
    · rw [first.unsent hsend, List.forall₂_cons]
      cases msgs with
      | nil =>
        have hrest' : rest = [] := flatten_eq_nil (fun chunk hc =>
          hsupply.nonempty chunk (List.mem_append_right _ hc)) hrest
        simp [first.dispatched, hgood, hrest', Aligned, Serves]
      | cons m' msgs => simp [hsend, List.forall₂_nil_left_iff]
  · refine ⟨N + 1, fun fuel hfuel => ?_⟩
    obtain ⟨fuel, rfl⟩ : ∃ k, fuel = k + N + 1 := ⟨fuel - N - 1, by omega⟩
    exact iff_of_false (hnot fuel msgs) fun h => hbad h.2.1

/-- Bytes of the next request have come with this one, and they are lost. -/
theorem dispatchedWhen_unaligned {m : Sent} {msgs : List Sent} (hm : m.Servable env.parser)
    {conn : Conn} (haccepts : conn.Accepts) {chunks : List Bytes}
    {more : List (Except LuaError Bytes)}
    (hmore : ∀ result ∈ more, ∃ mesg, result = .error mesg)
    (hsupply : conn.Supply chunks more (m.bytes ++ (msgs.map Sent.bytes).flatten))
    (hfirst : ¬∃ block rest, chunks = block ++ rest ∧ block.flatten = m.bytes) :
    DispatchedWhen env conn chunks (m :: msgs) := by
  have hbytes : chunks.flatten = m.bytes ++ (msgs.map Sent.bytes).flatten := hsupply.bytes
  -- the first block of an alignment would end where this request does
  have hunaligned : ¬Aligned chunks (m.bytes :: msgs.map Sent.bytes) := by
    rintro ⟨_ | ⟨block, blocks⟩, hchunks, hmesgs⟩
    · cases hmesgs
    · exact hfirst ⟨block, blocks.flatten, hchunks.symm, (List.cons.inj hmesgs).1⟩
  obtain ⟨N, ⟨-, d, conn', pending, block', first⟩ | ⟨-, hnot⟩⟩ :=
    serviceHTTP_first hm haccepts
      ⟨hsupply.opened, hsupply.incoming, hbytes, hsupply.nonempty⟩
  · have hpending : pending ≠ [] := by
      rintro rfl
      obtain ⟨taken, rfl⟩ := first.suffix
      refine hfirst ⟨taken, block', rfl, ?_⟩
      have hblock' : block'.flatten = (msgs.map Sent.bytes).flatten := first.bytes
      rw [List.flatten_append, hblock'] at hbytes
      exact List.append_cancel_right hbytes
    -- what is still to arrive is too short for the requests that are left
    have hlost : conn'.arriving < (msgs.map Sent.bytes).flatten.length := by
      have hpos : 0 < pending.length := List.length_pos_iff.mpr hpending
      rw [arriving_eq first.incoming hmore, ← first.bytes, List.length_append]
      omega
    refine ⟨N + 1, fun fuel hfuel => ?_⟩
    obtain ⟨fuel, rfl⟩ : ∃ k, fuel = k + N + 1 := ⟨fuel - N - 1, by omega⟩
    refine iff_of_false (fun hall => ?_) fun h => hunaligned h.1
    by_cases hsend : Sendable env d.req
    · rw [first.sent hsend, List.forall₂_cons] at hall
      have hconsumed := consumed_length hall.2
      have hbound := serviceHTTP_bounded (env.after (m.overwritten env.parser)) (fuel + N)
        first.accepts
      omega
    · rw [first.unsent hsend, List.forall₂_cons] at hall
      have hconsumed := consumed_length hall.2
      rw [List.map_nil, List.sum_nil] at hconsumed
      omega
  · refine ⟨N + 1, fun fuel hfuel => ?_⟩
    obtain ⟨fuel, rfl⟩ : ∃ k, fuel = k + N + 1 := ⟨fuel - N - 1, by omega⟩
    exact iff_of_false (hnot fuel msgs) fun h => hunaligned h.1

theorem dispatchedWhen (msgs : List Sent) (hmsgs : ∀ m ∈ msgs, m.Servable env.parser)
    {conn : Conn} (haccepts : conn.Accepts) {chunks : List Bytes}
    {more : List (Except LuaError Bytes)} (hmore : ∀ result ∈ more, ∃ mesg, result = .error mesg)
    (hsupply : conn.Supply chunks more (msgs.map Sent.bytes).flatten) :
    DispatchedWhen env conn chunks msgs := by
  induction msgs generalizing env conn chunks with
  | nil => exact dispatchedWhen_nil env hmore hsupply
  | cons m msgs ih =>
    have hm : m.Servable env.parser := hmsgs m List.mem_cons_self
    by_cases hfirst : ∃ block rest, chunks = block ++ rest ∧ block.flatten = m.bytes
    · obtain ⟨block, rest, rfl, hblock⟩ := hfirst
      exact dispatchedWhen_aligned env hm haccepts hsupply hblock fun haccepts' hsupply' =>
        ih (env.after (m.overwritten env.parser))
          (fun m' hm' => hmsgs m' (List.mem_cons_of_mem _ hm')) haccepts' hsupply'
    · exact dispatchedWhen_unaligned env hm haccepts hmore hsupply hfirst

/-- The requests on a connection are all dispatched as they were sent, each once and in their
order, exactly when no read result has bytes of two of them, they can all be decoded, decoding
overwrites none of their strings and leaves their handlers registered, and the responses to all but
the last can be sent. -/
theorem pipelined_dispatched_iff (msgs : List Sent) (hmsgs : ∀ m ∈ msgs, m.Servable env.parser)
    {conn : Conn} (haccepts : conn.Accepts) {chunks : List Bytes}
    {more : List (Except LuaError Bytes)} (hmore : ∀ result ∈ more, ∃ mesg, result = .error mesg)
    (hsupply : conn.Supply chunks more (msgs.map Sent.bytes).flatten) :
    ∃ N, ∀ fuel, N ≤ fuel →
      (List.Forall₂ (Dispatched.Of env.parser) (serviceHTTP env fuel conn).dispatched msgs ↔
        Aligned chunks (msgs.map Sent.bytes) ∧ Serves env msgs) :=
  dispatchedWhen env msgs hmsgs haccepts hmore hsupply

end Pipelining

section Hello

def getSent : Sent := ⟨getRequest (text "HTTP/1.1"), getContent 1 true⟩

theorem getSent_servable : getSent.Servable (getParser 1 true) where
  parse := ⟨getParse 1 true (by decide)⟩
  keepAlive := rfl
  keepAliveEnd := rfl
  ordinary := ⟨rfl, rfl⟩

theorem two_gets_dispatched_iff :
    ∃ N, ∀ fuel, N ≤ fuel →
      (List.Forall₂ (Dispatched.Of (helloEnv 1 true).parser)
          (serviceHTTP (helloEnv 1 true) fuel (connOf [getSent.bytes, getSent.bytes])).dispatched
          [getSent, getSent] ↔
        Aligned [getSent.bytes, getSent.bytes] ([getSent, getSent].map Sent.bytes) ∧
          Serves (helloEnv 1 true) [getSent, getSent]) :=
  pipelined_dispatched_iff (helloEnv 1 true) [getSent, getSent]
    (by
      intro m hm
      have hget : m = getSent := by simpa using hm
      rw [hget]
      exact getSent_servable) ⟨rfl, rfl⟩
    (nofun : ∀ result ∈ ([] : List (Except LuaError Bytes)), ∃ mesg, result = .error mesg)
    ⟨rfl, rfl, rfl, by decide⟩

/-- Two requests in one read result: only the first is dispatched, and the loop has ended. -/
theorem two_gets_together :
    let served := serviceHTTP (helloEnv 1 true) 20 (connOf [getSent.bytes ++ getSent.bytes])
    served.dispatched.map Dispatched.consumed = [getSent.bytes] ∧
      served.outcome.toOption = some (text "read time out") ∧ served.conn.closed = true := by
  decide +kernel

end Hello

end Luaw.Http
