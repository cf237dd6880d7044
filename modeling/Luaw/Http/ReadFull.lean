import Luaw.Http.ParserReports

/-!
# Reading a complete request

`Parse` is what the code relies on about the vendored parser. Under it `readFull` makes the
request of the message and consumes exactly its bytes, wherever the content was cut, or raises
when a callback does.
-/

namespace Luaw.Http

open Lua Program

variable {σ : Type}

/-- The parser reads the request `r` with the content `c`: `At s q evs` says that in the state
`s` the bytes `q` are still to come and the events `evs` have been reported. A call takes bytes
of this request only and stops early only at a callback; when it takes none, the state comes
closer to one in which it does. The events tell the message, and are complete when its last byte
has been taken. -/
structure Parse (P : HttpParser σ) (r : Bytes) (c : Content) where
  At : σ → Bytes → List Event → Prop
  rank : σ → Nat
  start : At P.init r []
  step : ∀ {s q evs buf}, At s q evs → q ≠ [] → buf ≠ [] → (buf <+: q ∨ q <+: buf) →
    At (P.execute s buf).state (q.drop (P.execute s buf).nparsed)
        (evs ++ (P.execute s buf).event.toList) ∧
      (P.execute s buf).nparsed ≤ q.length ∧
      ((P.execute s buf).nparsed < buf.length → (P.execute s buf).errno = .paused) ∧
      ((P.execute s buf).nparsed = 0 → rank (P.execute s buf).state < rank s)
  reported : ∀ {s q evs}, At s q evs → ∃ more, c.Reports (evs ++ more) ∧ (q = [] ↔ more = [])

namespace Content

theorem Reports.complete {c : Content} {evs : List Event} (h : c.Reports evs) :
    c.headersComplete ∈ evs ∧ Event.messageComplete c.keepAliveEnd ∈ evs := by
  obtain ⟨head, tail, -, -, rfl⟩ := h
  simp

/-- The end of the message is the last thing reported. -/
theorem Reports.last {c : Content} {evs more : List Event} {e : Event}
    (h : c.Reports (evs ++ e :: more)) (he : e.isMessageComplete = true) : more = [] := by
  obtain ⟨head, tail, hhead, htail, heq⟩ := h
  have hbefore : ∀ x ∈ head ++ c.headersComplete :: tail, x.isMessageComplete = false := by
    intro x hx
    obtain hx | hx := List.mem_append.mp hx
    · exact (hhead.plain x hx).2
    · obtain rfl | hx := List.mem_cons.mp hx
      · rfl
      · exact (htail.plain x hx).2
  have hassoc : head ++ c.headersComplete :: (tail ++ [Event.messageComplete c.keepAliveEnd]) =
      (head ++ c.headersComplete :: tail) ++ [.messageComplete c.keepAliveEnd] := by simp
  rw [hassoc, List.append_eq_append_iff] at heq
  obtain ⟨as, hpre, hpost⟩ | ⟨bs, -, hpost⟩ := heq
  · cases as with
    | nil => exact (List.cons.inj hpost).2
    | cons a as =>
      have hmem := hbefore e (by rw [hpre, (List.cons.inj hpost).1]; simp)
      rw [he] at hmem
      cases hmem
  · have hlen := congrArg List.length hpost
    simp only [List.length_append, List.length_cons, List.length_nil] at hlen
    exact List.length_eq_zero_iff.mp (by omega)

/-- What was reported up to the end of the headers. -/
theorem Reports.head {c : Content} {evs more : List Event} {e : Event}
    (h : c.Reports (evs ++ e :: more)) (he : e.isHeadersComplete = true)
    (hevs : ∀ x ∈ evs, x.isHeadersComplete = false) :
    c.ReportsHead evs ∧ e = c.headersComplete := by
  obtain ⟨head, tail, hhead, htail, heq⟩ := h
  rw [List.append_eq_append_iff] at heq
  obtain ⟨as, hpre, hpost⟩ | ⟨bs, hpre, hpost⟩ := heq
  · cases as with
    | nil =>
      rw [List.append_nil] at hpre
      exact ⟨hpre ▸ hhead, (List.cons.inj hpost).1⟩
    | cons a as =>
      have hmem := (hhead.plain e (by rw [hpre, (List.cons.inj hpost).1]; simp)).1
      rw [he] at hmem
      cases hmem
  · cases bs with
    | nil =>
      rw [List.append_nil] at hpre
      exact ⟨hpre ▸ hhead, (List.cons.inj hpost).1.symm⟩
    | cons b bs =>
      have hmem := hevs c.headersComplete (by rw [hpre, (List.cons.inj hpost).1]; simp)
      cases hmem

end Content

namespace Session

/-- The content that has been read from the connection but not parsed. -/
def pending (s : Session σ) : Bytes :=
  match s.unread with
  | some (content, offset) => content.drop offset
  | none => []

theorem spent_iff {s : Session σ} : s.Spent ↔ s.pending = [] := by
  obtain ⟨conn, req, parser, - | ⟨content, offset⟩, consumed⟩ := s
  · exact iff_of_true (fun _ _ h => by cases h) rfl
  · have hlong : hasContent content offset = false ↔ content.length ≤ offset := by
      simp [hasContent]
    rw [Session.pending, List.drop_eq_nil_iff, ← hlong]
    constructor
    · exact fun h => h content offset rfl
    · rintro h _ _ heq
      cases heq
      exact h

/-- The session has the stream `stream` before it, in its unread content and in the next
results `block` of the connection. -/
structure Supply (s : Session σ) (block : List Bytes) (more : List (Except LuaError Bytes))
    (stream : Bytes) : Prop where
  opened : s.conn.closed = false
  incoming : s.conn.incoming = block.map .ok ++ more
  bytes : s.pending ++ block.flatten = stream
  nonempty : ∀ chunk ∈ block, chunk ≠ []

end Session

theorem readContent_supply {s : Session σ} {block : List Bytes}
    {more : List (Except LuaError Bytes)} {stream : Bytes} (h : s.Supply block more stream)
    (hstream : stream ≠ []) :
    ∃ content offset, ∃ block' : List Bytes, block' <:+ block ∧
      exec readContent s = (.ok (some (content, offset)),
        { s with conn := { s.conn with incoming := block'.map .ok ++ more } }) ∧
      offset ≤ content.length ∧ content.drop offset ≠ [] ∧
      content.drop offset ++ block'.flatten = stream ∧ ∀ chunk ∈ block', chunk ≠ [] := by
  obtain ⟨hopen, hincoming, hbytes, hne⟩ := h
  obtain hspent | ⟨content, offset, hunread, hcontent⟩ := s.spent_or
  · -- a new string is taken from the connection
    rw [Session.spent_iff.mp hspent, List.nil_append] at hbytes
    cases block with
    | nil => exact absurd hbytes.symm hstream
    | cons chunk block =>
      have hread : s.conn.read =
          (.ok chunk, { s.conn with incoming := block.map .ok ++ more }) := by
        rw [Conn.read, if_neg (by rw [hopen]; exact Bool.false_ne_true), hincoming]
        rfl
      exact ⟨chunk, 0, block, List.suffix_cons _ _, hspent.readContent_ok hread, Nat.zero_le _,
        hne chunk List.mem_cons_self, hbytes, fun c hc => hne c (List.mem_cons_of_mem _ hc)⟩
  · rw [Session.pending, hunread] at hbytes
    have hlt : offset < content.length := by simpa [hasContent] using hcontent
    refine ⟨content, offset, block, List.suffix_rfl, ?_, hlt.le, ?_, hbytes, hne⟩
    · rw [readContent_unread hunread hcontent, ← hincoming]
    · intro hnil
      exact absurd (List.drop_eq_nil_iff.mp hnil) (by omega)

/-- A request on its way: `q` is still to come, and `evs` has been reported. -/
structure Mid {P : HttpParser σ} {r : Bytes} {c : Content} (parse : Parse P r c)
    (s : Session σ) (q : Bytes) (evs : List Event) : Prop where
  position : q ≠ [] → parse.At s.parser q evs
  reported : ∃ more, c.Reports (evs ++ more) ∧ (q = [] ↔ more = [])
  req : callbacks P evs newServerHttpRequest = .ok s.req
  consumed : s.consumed ++ q = r

theorem mid_new {P : HttpParser σ} {r : Bytes} {c : Content} (parse : Parse P r c) (conn : Conn) :
    Mid parse (newSession P conn) r [] :=
  ⟨fun _ => parse.start, parse.reported parse.start, rfl, rfl⟩

/-- After the end of the message nothing is to come, and the request is the one of the message. -/
theorem Mid.ended {P : HttpParser σ} {r : Bytes} {c : Content} {parse : Parse P r c}
    {s : Session σ} {q : Bytes} {evs : List Event} {e : Event} (h : Mid parse s q (evs ++ [e]))
    (he : e.isMessageComplete = true) :
    q = [] ∧ s.consumed = r ∧ c.request P = .ok s.req := by
  obtain ⟨later, hreports, hcomplete⟩ := h.reported
  rw [List.append_assoc] at hreports
  have hlater : later = [] := hreports.last he
  have hq : q = [] := hcomplete.mpr hlater
  rw [hlater] at hreports
  refine ⟨hq, ?_, ?_⟩
  · rw [← h.consumed, hq, List.append_nil]
  · rw [← callbacks_reports P hreports]
    exact h.req

/-- What one call of the parser reports and takes from a buffer. -/
theorem Mid.execute {P : HttpParser σ} {r : Bytes} {c : Content} {parse : Parse P r c}
    {s : Session σ} {q : Bytes} {evs : List Event} (h : Mid parse s q evs) (hq : q ≠ [])
    {buf rest extra : Bytes} (hbuf : buf ≠ []) (hstream : buf ++ rest = q ++ extra) :
    parse.At (P.execute s.parser buf).state (q.drop (P.execute s.parser buf).nparsed)
        (evs ++ (P.execute s.parser buf).event.toList) ∧
      (P.execute s.parser buf).nparsed ≤ q.length ∧
      ((P.execute s.parser buf).nparsed < buf.length →
        (P.execute s.parser buf).errno = .paused) ∧
      ((P.execute s.parser buf).nparsed = 0 →
        parse.rank (P.execute s.parser buf).state < parse.rank s.parser) := by
  refine parse.step (h.position hq) hq hbuf ?_
  rw [List.append_eq_append_iff] at hstream
  obtain ⟨as, rfl, -⟩ | ⟨bs, rfl, -⟩ := hstream
  · exact .inl (List.prefix_append _ _)
  · exact .inr (List.prefix_append _ _)

/-- What is taken from the buffer is what comes off the request. -/
theorem taken_eq {q buf rest extra : Bytes} {n : Nat} (hstream : buf ++ rest = q ++ extra)
    (hbuf : n ≤ buf.length) (hq : n ≤ q.length) :
    buf.take n = q.take n ∧ buf.drop n ++ rest = q.drop n ++ extra := by
  have htake := congrArg (List.take n) hstream
  have hdrop := congrArg (List.drop n) hstream
  rw [List.take_append_of_le_length hbuf, List.take_append_of_le_length hq] at htake
  rw [List.drop_append_of_le_length hbuf, List.drop_append_of_le_length hq] at hdrop
  exact ⟨htake, hdrop⟩

/-- How far a reading is from its end. -/
def Closer {P : HttpParser σ} {r : Bytes} {c : Content} (parse : Parse P r c)
    (s' : Session σ) (q' : Bytes) (s : Session σ) (q : Bytes) : Prop :=
  q'.length < q.length ∨ (q' = q ∧ parse.rank s'.parser < parse.rank s.parser)

/-- The connection after some of the results have been read. -/
def Conn.withIncoming (conn : Conn) (incoming : List (Except LuaError Bytes)) : Conn :=
  { conn with incoming }

/-- The callback of an event, if there is one. -/
def heard (P : HttpParser σ) : Option Event → Request → Except LuaError Request
  | none, req => .ok req
  | some e, req => callback P e req

theorem callbacks_toList (P : HttpParser σ) (event : Option Event) (req : Request) :
    callbacks P event.toList req = heard P event req := by
  cases event with
  | none => rfl
  | some e =>
    rw [Option.toList_some, callbacks, heard]
    cases callback P e req <;> rfl

/-- The session after a call of the parser on `buf`, with the request that the callback made. -/
def Session.parsed (P : HttpParser σ) (s : Session σ) (buf : Bytes) (req : Request) : Session σ :=
  { s with
    req := req
    parser := match (P.execute s.parser buf).event with
      | some (.messageComplete _) => P.init
      | _ => (P.execute s.parser buf).state
    consumed := s.consumed ++ buf.take (P.execute s.parser buf).nparsed }

theorem exec_parseHttpFragment {P : HttpParser σ} {content : Bytes} {offset : Nat}
    {s : Session σ} (hoffset : offset ≤ content.length)
    (hpaused : (P.execute s.parser (content.drop offset)).nparsed < (content.drop offset).length →
      (P.execute s.parser (content.drop offset)).errno = .paused) :
    exec (parseHttpFragment P content offset) s =
      match heard P (P.execute s.parser (content.drop offset)).event s.req with
      | .error e => (.error (.raised e), s)
      | .ok req => (.ok (offset + (P.execute s.parser (content.drop offset)).nparsed),
          s.parsed P (content.drop offset) req) := by
  have hfine : ¬(offset + (P.execute s.parser (content.drop offset)).nparsed < content.length ∧
      (P.execute s.parser (content.drop offset)).errno ≠ .paused) := by
    rintro ⟨hlt, herr⟩
    refine herr (hpaused ?_)
    rw [List.length_drop]
    omega
  rw [parseHttpFragment, exec_bind_ok (exec_get s), exec_ite, if_neg (Nat.not_lt.mpr hoffset),
    exec_ite, if_neg hfine, exec_bind]
  cases hevent : (P.execute s.parser (content.drop offset)).event with
  | none =>
    simp only [Session.parsed, hevent]
    rfl
  | some e =>
    show (match exec (ofExcept (callback P e s.req) : SessionM σ Request) s with | _ => _) = _
    simp only [Session.parsed, hevent, heard]
    cases callback P e s.req <;> rfl

/-- The content from an offset on, as far as there is any. -/
def unreadFrom (content : Bytes) (offset : Nat) : Option (Bytes × Nat) :=
  if hasContent content offset then some (content, offset) else none

theorem pending_unreadFrom (s : Session σ) (content : Bytes) (offset : Nat) :
    Session.pending { s with unread := unreadFrom content offset } = content.drop offset := by
  rw [Session.pending, unreadFrom, hasContent]
  by_cases hmore : offset < content.length
  · simp [hmore]
  · simp [hmore, List.drop_eq_nil_of_le (Nat.le_of_not_lt hmore)]

/-- After the events `evs` of the message a callback raises. -/
def Raises (P : HttpParser σ) (c : Content) (evs : List Event) : Prop :=
  ∃ req e err more, callbacks P evs newServerHttpRequest = .ok req ∧
    callback P e req = .error err ∧ c.Reports (evs ++ e :: more)

/-- Then the message cannot be made a request. -/
theorem Raises.request {P : HttpParser σ} {c : Content} {evs : List Event} (h : Raises P c evs) :
    ∃ err, c.request P = .error err := by
  obtain ⟨req, e, err, more, hrun, hcall, hreports⟩ := h
  refine ⟨err, ?_⟩
  rw [← callbacks_reports P hreports, callbacks_append, hrun]
  show (callback P e req).bind _ = _
  rw [hcall]
  rfl

theorem callback_plain (P : HttpParser σ) {e : Event} (he : e.isPlain) (req : Request) :
    ∃ req', callback P e req = .ok req' := by
  cases e with
  | headersComplete => cases he.1
  | messageComplete => cases he.2
  | _ => exact ⟨_, rfl⟩

/-- Before the headers are complete only their own callback can raise. -/
theorem Raises.head {P : HttpParser σ} {c : Content} {evs : List Event} (h : Raises P c evs)
    (hevs : ∀ e ∈ evs, e.isHeadersComplete = false) :
    ∃ err, callback P c.headersComplete c.headRequest = .error err := by
  obtain ⟨req, e, err, more, hrun, hcall, hreports⟩ := h
  cases hhead : e.isHeadersComplete with
  | true =>
    obtain ⟨htold, rfl⟩ := hreports.head hhead hevs
    rw [callbacks_head P htold] at hrun
    cases hrun
    exact ⟨err, hcall⟩
  | false =>
    cases hend : e.isMessageComplete with
    | true =>
      -- the message has not ended before its headers are complete
      rw [hreports.last hend] at hreports
      obtain hmem | hmem := List.mem_append.mp hreports.complete.1
      · exact absurd (hevs _ hmem) (by simp [Content.headersComplete, Event.isHeadersComplete])
      · rw [← List.mem_singleton.mp hmem] at hend
        cases hend
    | false =>
      obtain ⟨req', hok⟩ := callback_plain P ⟨hhead, hend⟩ req
      cases hok.symm.trans hcall

/-- One round of a loop of `readFull` on a request that is not complete: the parser gets one
step further, or the callback raises. -/
theorem readAndParse_mid {P : HttpParser σ} {r : Bytes} {c : Content} {parse : Parse P r c}
    {s : Session σ} {q : Bytes} {evs : List Event} (h : Mid parse s q evs) (hq : q ≠ [])
    {block : List Bytes} {more : List (Except LuaError Bytes)} {extra : Bytes}
    (hsupply : s.Supply block more (q ++ extra)) :
    ∃ block' : List Bytes, block' <:+ block ∧
    ((∃ s' q' event, exec (readAndParse P) s = (.ok (), s') ∧
      heard P event s.req = .ok s'.req ∧
      Mid parse s' q' (evs ++ event.toList) ∧ s'.Supply block' more (q' ++ extra) ∧
      s'.conn = s.conn.withIncoming (block'.map .ok ++ more) ∧
      (q' ≠ [] → Closer parse s' q' s q)) ∨
    (∃ e s', exec (readAndParse P) s = (.error (.raised e), s') ∧
      s'.conn = s.conn.withIncoming (block'.map .ok ++ more) ∧ Raises P c evs)) := by
  obtain ⟨content, offset, block', hsuffix, hread, hoffset, hbuf, hstream, hne⟩ :=
    readContent_supply hsupply (by simp [hq])
  obtain ⟨hat, hnq, hpaused, hrank⟩ := h.execute hq hbuf hstream
  have hn := P.nparsed_le s.parser (content.drop offset)
  obtain ⟨htake, hdrop⟩ := taken_eq hstream hn hnq
  let conn' := s.conn.withIncoming (block'.map .ok ++ more)
  have hfragment := @exec_parseHttpFragment σ P content offset { s with conn := conn' } hoffset hpaused
  obtain ⟨later, hreports, hcomplete⟩ := parse.reported hat
  have hcalls : callbacks P (evs ++ (P.execute s.parser (content.drop offset)).event.toList)
      newServerHttpRequest =
        heard P (P.execute s.parser (content.drop offset)).event s.req := by
    rw [callbacks_append, h.req, Except.bind, callbacks_toList]
  refine ⟨block', hsuffix, ?_⟩
  cases hheard : heard P (P.execute s.parser (content.drop offset)).event s.req with
  | error e =>
    right
    simp only [hheard] at hfragment
    refine ⟨e, { s with conn := conn' }, ?_, rfl, ?_⟩
    · rw [readAndParse, exec_bind_ok hread]
      exact exec_bind_error hfragment
    · cases hevent : (P.execute s.parser (content.drop offset)).event with
      | none =>
        rw [hevent] at hheard
        cases hheard
      | some event =>
        rw [hevent] at hheard hreports
        exact ⟨s.req, event, e, later, h.req, hheard, by simpa using hreports⟩
  | ok req =>
    left
    simp only [hheard] at hfragment
    let s' : Session σ := { Session.parsed P { s with conn := conn' } (content.drop offset) req with
      unread := unreadFrom content (offset + (P.execute s.parser (content.drop offset)).nparsed) }
    have hpending : s'.pending =
        (content.drop offset).drop (P.execute s.parser (content.drop offset)).nparsed := by
      rw [List.drop_drop]
      exact pending_unreadFrom _ content _
    -- the parser starts anew only when the message is complete
    have hparser : q.drop (P.execute s.parser (content.drop offset)).nparsed ≠ [] →
        s'.parser = (P.execute s.parser (content.drop offset)).state := by
      intro hq'
      show (match (P.execute s.parser (content.drop offset)).event with
        | some (.messageComplete _) => P.init
        | _ => (P.execute s.parser (content.drop offset)).state) = _
      split
      · next keepAlive hevent =>
        rw [hevent, Option.toList_some, List.append_assoc] at hreports
        exact absurd (hcomplete.mpr (hreports.last rfl)) hq'
      · rfl
    refine ⟨s', q.drop (P.execute s.parser (content.drop offset)).nparsed,
      (P.execute s.parser (content.drop offset)).event, ?_, hheard,
      ⟨fun hq' => ?_, ⟨later, hreports, hcomplete⟩, hcalls.trans hheard, ?_⟩,
      ⟨hsupply.opened, rfl, ?_, hne⟩, rfl, fun hq' => ?_⟩
    · rw [readAndParse, exec_bind_ok hread]
      exact exec_bind_ok hfragment
    · rw [hparser hq']
      exact hat
    · have hconsumed : s'.consumed = s.consumed ++
          (content.drop offset).take (P.execute s.parser (content.drop offset)).nparsed := rfl
      rw [hconsumed, htake, List.append_assoc, List.take_append_drop, h.consumed]
    · rw [hpending, hdrop]
    · rw [Closer, hparser hq', List.length_drop]
      have hpos : 0 < q.length := List.length_pos_iff.mpr hq
      by_cases hzero : (P.execute s.parser (content.drop offset)).nparsed = 0
      · right
        rw [hzero]
        exact ⟨rfl, hrank hzero⟩
      · left
        omega

/-- The callbacks set `done` at the events that `stop` tells and leave it false at others. -/
structure Tells (P : HttpParser σ) (done : Request → Bool) (stop : Event → Bool) : Prop where
  before : ∀ {e req req'}, callback P e req = .ok req' → stop e = false → done req = false →
    done req' = false
  reached : ∀ {e req req'}, callback P e req = .ok req' → stop e = true → done req' = true

theorem headersDone_tells (P : HttpParser σ) :
    Tells P Request.headersDone Event.isHeadersComplete where
  before := by
    intro e req req' hcall he hdone
    cases e with
    | headersComplete => cases he
    | messageComplete keepAlive =>
      obtain ⟨parts, params, left, -, -, rfl⟩ := onMesgComplete_ok P hcall
      simpa using hdone
    | headerField chunk =>
      cases hcall
      simpa using hdone
    | messageBegin => cases hcall; rfl
    | status | url | headerValue | body => cases hcall; exact hdone
  reached := by
    intro e req req' hcall he
    cases e with
    | headersComplete =>
      obtain ⟨parsedURL, params, left, -, -, rfl⟩ := onHeadersComplete_ok P hcall
      rfl
    | messageBegin | status | url | headerField | headerValue | body | messageComplete => cases he

theorem mesgDone_tells (P : HttpParser σ) :
    Tells P Request.mesgDone Event.isMessageComplete where
  before := by
    intro e req req' hcall he hdone
    cases e with
    | messageComplete => cases he
    | headersComplete =>
      obtain ⟨parsedURL, params, left, -, -, rfl⟩ := onHeadersComplete_ok P hcall
      simpa using hdone
    | headerField chunk =>
      cases hcall
      simpa using hdone
    | messageBegin => cases hcall; rfl
    | status | url | headerValue | body => cases hcall; exact hdone
  reached := by
    intro e req req' hcall he
    cases e with
    | messageComplete =>
      obtain ⟨parts, params, left, -, -, rfl⟩ := onMesgComplete_ok P hcall
      rfl
    | messageBegin | status | url | headerField | headerValue | body | headersComplete => cases he

theorem exec_readUntil_done {P : HttpParser σ} {done : Request → Bool} {s : Session σ}
    (h : done s.req = true) (fuel : Nat) : exec (readUntil P done (fuel + 1)) s = (.ok (), s) := by
  rw [readUntil, exec_bind_ok (exec_get s), exec_ite, if_pos h]
  rfl

theorem exec_readUntil_step {P : HttpParser σ} {done : Request → Bool} {s : Session σ}
    (h : done s.req = false) (fuel : Nat) :
    exec (readUntil P done (fuel + 1)) s =
      exec (readAndParse P >>= fun _ => readUntil P done fuel) s := by
  rw [readUntil, exec_bind_ok (exec_get s), exec_ite, if_neg (by simp [h])]

/-- A loop of `readFull` ends at the event it waits for, or a callback raises. -/
theorem readUntil_mid {P : HttpParser σ} {r : Bytes} {c : Content} {parse : Parse P r c}
    {done : Request → Bool} {stop : Event → Bool} (htells : Tells P done stop)
    (hoccurs : ∀ evs, c.Reports evs → ∃ e ∈ evs, stop e = true)
    {s : Session σ} {q : Bytes} {evs : List Event} (h : Mid parse s q evs)
    (hevs : ∀ e ∈ evs, stop e = false) (hdone : done s.req = false)
    {block : List Bytes} {more : List (Except LuaError Bytes)} {extra : Bytes}
    (hsupply : s.Supply block more (q ++ extra)) :
    ∃ (N : Nat) (block' : List Bytes), block' <:+ block ∧
    ((∃ s' q' evs' e, (∀ fuel, exec (readUntil P done (fuel + N)) s = (.ok (), s')) ∧
      Mid parse s' q' (evs' ++ [e]) ∧ stop e = true ∧ (∀ x ∈ evs', stop x = false) ∧
      s'.Supply block' more (q' ++ extra) ∧
      s'.conn = s.conn.withIncoming (block'.map .ok ++ more)) ∨
    (∃ err s', (∀ fuel, exec (readUntil P done (fuel + N)) s = (.error (.raised err), s')) ∧
      s'.conn = s.conn.withIncoming (block'.map .ok ++ more) ∧
      ∃ evs', Raises P c evs' ∧ ∀ x ∈ evs', stop x = false)) := by
  -- the message does not end before the event that the loop waits for
  have hmore : ∀ {s q evs}, Mid parse s q evs → (∀ e ∈ evs, stop e = false) → q ≠ [] := by
    rintro s q evs ⟨-, ⟨later, hreports, hcomplete⟩, -, -⟩ hevs rfl
    rw [hcomplete.mp rfl, List.append_nil] at hreports
    obtain ⟨e, he, hstop⟩ := hoccurs evs hreports
    rw [hevs e he] at hstop
    cases hstop
  obtain ⟨block₁, hsuffix, ⟨s₁, q₁, event, hrun, hheard, hmid, hsupply₁, hconn, hcloser⟩ |
    ⟨err, s₁, hrun, hconn, hfails⟩⟩ := readAndParse_mid h (hmore h hevs) hsupply
  · have hround : ∀ fuel, exec (readUntil P done (fuel + 1)) s =
        exec (readUntil P done fuel) s₁ := fun fuel => by
      rw [exec_readUntil_step hdone, exec_bind_ok hrun]
    -- either this round has brought that event, or the next one begins closer to it
    rcases hstops : event.filter stop with - | e
    · have hplain : ∀ e ∈ event, stop e = false := by
        intro e he
        simpa using Option.filter_eq_none_iff.mp hstops e he
      have hevs₁ : ∀ e ∈ evs ++ event.toList, stop e = false := by
        intro e he
        obtain he | he := List.mem_append.mp he
        · exact hevs e he
        · exact hplain e (Option.mem_toList.mp he)
      have hdone₁ : done s₁.req = false := by
        cases event with
        | none =>
          rw [← Except.ok.inj hheard]
          exact hdone
        | some e => exact htells.before hheard (hplain e rfl) hdone
      have hless := hcloser (hmore hmid hevs₁)
      obtain ⟨N, block₂, hsuffix₂, hend⟩ := readUntil_mid htells hoccurs hmid hevs₁ hdone₁ hsupply₁
      have hconn₂ : s₁.conn.withIncoming (block₂.map .ok ++ more) =
          s.conn.withIncoming (block₂.map .ok ++ more) := by rw [hconn]; rfl
      rw [hconn₂] at hend
      refine ⟨N + 1, block₂, hsuffix₂.trans hsuffix, ?_⟩
      obtain ⟨s', q', evs', e, hrun', hrest⟩ | ⟨err, s', hrun', hrest⟩ := hend
      · exact .inl ⟨s', q', evs', e, fun fuel => (hround (fuel + N)).trans (hrun' fuel), hrest⟩
      · exact .inr ⟨err, s', fun fuel => (hround (fuel + N)).trans (hrun' fuel), hrest⟩
    · -- the loop has reached its end
      obtain ⟨rfl, hstop⟩ := Option.filter_eq_some_iff.mp hstops
      have hdone₁ : done s₁.req = true := htells.reached hheard hstop
      exact ⟨2, block₁, hsuffix, .inl ⟨s₁, q₁, evs, e,
        fun fuel => (hround (fuel + 1)).trans (exec_readUntil_done hdone₁ fuel),
        hmid, hstop, hevs, hsupply₁, hconn⟩⟩
  · exact ⟨1, block₁, hsuffix, .inr ⟨err, s₁, fun fuel => by
      rw [exec_readUntil_step hdone, exec_bind_error hrun], hconn, evs, hfails, hevs⟩⟩
termination_by (q.length, parse.rank s.parser)
decreasing_by
  obtain hlt | ⟨rfl, hlt⟩ := hless
  · exact Prod.Lex.left _ _ hlt
  · exact Prod.Lex.right _ hlt

/-- A connection with the stream `stream` before it. -/
structure Conn.Supply (conn : Conn) (block : List Bytes) (more : List (Except LuaError Bytes))
    (stream : Bytes) : Prop where
  opened : conn.closed = false
  incoming : conn.incoming = block.map .ok ++ more
  bytes : block.flatten = stream
  nonempty : ∀ chunk ∈ block, chunk ≠ []

theorem Conn.Supply.session {conn : Conn} {block : List Bytes}
    {more : List (Except LuaError Bytes)} {stream : Bytes}
    (h : conn.Supply block more stream) (P : HttpParser σ) :
    (newSession P conn).Supply block more stream :=
  ⟨h.opened, h.incoming, h.bytes, h.nonempty⟩

section Request

variable {P : HttpParser σ} {r : Bytes} {c : Content}
  {conn : Conn} {block : List Bytes} {more : List (Except LuaError Bytes)} {extra : Bytes}

/-- The first loop of `readFull`, on a new request. -/
theorem readHeaders (parse : Parse P r c)
    (hsupply : conn.Supply block more (r ++ extra)) :
    ∃ (N : Nat) (block' : List Bytes), block' <:+ block ∧
    ((∃ s' q evs,
      (∀ fuel, exec (readUntil P Request.headersDone (fuel + N)) (newSession P conn) =
        (.ok (), s')) ∧
      callback P c.headersComplete c.headRequest = .ok s'.req ∧
      Mid parse s' q evs ∧ (∀ e ∈ evs, e.isMessageComplete = false) ∧
      s'.Supply block' more (q ++ extra) ∧
      s'.conn = conn.withIncoming (block'.map .ok ++ more)) ∨
    (∃ err s',
      (∀ fuel, exec (readUntil P Request.headersDone (fuel + N)) (newSession P conn) =
        (.error (.raised err), s')) ∧
      s'.conn = conn.withIncoming (block'.map .ok ++ more) ∧
      ∃ e, callback P c.headersComplete c.headRequest = .error e)) := by
  obtain ⟨N, block', hsuffix, ⟨s', q, evs, e, hrun, hmid, hstop, hevs, hsupply', hconn⟩ |
    ⟨err, s', hrun, hconn, evs, hraises, hevs⟩⟩ :=
    readUntil_mid (headersDone_tells P)
      (fun evs h => ⟨c.headersComplete, h.complete.1, rfl⟩) (mid_new parse conn) (by simp) rfl
      (hsupply.session P)
  · obtain ⟨later, hreports, -⟩ := hmid.reported
    rw [List.append_assoc] at hreports
    obtain ⟨hhead, rfl⟩ := hreports.head hstop hevs
    have hcall : callback P c.headersComplete c.headRequest = .ok s'.req := by
      have hreq := hmid.req
      rw [callbacks_append, callbacks_head P hhead] at hreq
      rw [← hreq, Except.bind]
      exact (callbacks_toList P (some c.headersComplete) c.headRequest).symm
    refine ⟨N, block', hsuffix, .inl ⟨s', q, _, hrun, hcall, hmid, ?_, hsupply', hconn⟩⟩
    intro x hx
    obtain hx | hx := List.mem_append.mp hx
    · exact (hhead.plain x hx).2
    · rw [List.mem_singleton.mp hx]
      rfl
  · exact ⟨N, block', hsuffix, .inr ⟨err, s', hrun, hconn, hraises.head hevs⟩⟩

theorem fuel_split (fuel N₁ N₂ : Nat) : fuel + (N₁ + N₂) = (fuel + N₂) + N₁ := by omega

/-- What `readFull` makes of a message: it leaves the body of a multipart or a LuaPack message to
the handler. -/
def Content.fullRequest (P : HttpParser σ) (c : Content) : Except LuaError Request := do
  let req ← callback P c.headersComplete c.headRequest
  let boundary ← getMultipartBoundary req.headers
  if boundary.isSome || isLuaPackMesg req.headers then pure req else c.request P

/-- Where `readFull` stops: at the end of the message, or before when its body is left to the
handler. -/
inductive Stops (P : HttpParser σ) (r : Bytes) (c : Content) (block : List Bytes)
    (more : List (Except LuaError Bytes)) (extra : Bytes) (s : Session σ) : Prop where
  | left (q : Bytes) : callback P c.headersComplete c.headRequest = .ok s.req → q ≠ [] →
      s.consumed ++ q = r → s.Supply block more (q ++ extra) → Stops P r c block more extra s
  | full : c.request P = .ok s.req → s.consumed = r → s.Supply block more extra →
      Stops P r c block more extra s

/-- A request is read as far as `readFull` reads it and no further, however it is cut. -/
theorem readFull_stops (parse : Parse P r c) (hsupply : conn.Supply block more (r ++ extra)) :
    ∃ (N : Nat) (s' : Session σ) (block' : List Bytes), block' <:+ block ∧
      s'.conn = conn.withIncoming (block'.map .ok ++ more) ∧
      match c.fullRequest P with
      | .error _ => ∃ err, ∀ fuel, exec (readFull P (fuel + N)) (newSession P conn) =
          (.error (.raised err), s')
      | .ok req => (∀ fuel, exec (readFull P (fuel + N)) (newSession P conn) = (.ok (), s')) ∧
          s'.req = req ∧ Stops P r c block' more extra s' := by
  obtain ⟨N₁, block₁, hsuffix₁, ⟨s₁, q₁, evs₁, hrun₁, hcall, hmid₁, hevs₁, hsupply₁, hconn₁⟩ |
    ⟨err, s₁, hrun₁, hconn₁, e, hfails⟩⟩ := readHeaders parse hsupply
  · have hdone := (Content.head_of_call P hcall).mesgDone
    have hrest : ∀ fuel, exec (readFull P (fuel + N₁)) (newSession P conn) =
        exec (ofExcept (getMultipartBoundary s₁.req.headers) >>= fun boundary =>
          if boundary.isSome || isLuaPackMesg s₁.req.headers then pure ()
          else readUntil P Request.mesgDone (fuel + N₁)) s₁ := fun fuel => by
      rw [readFull, exec_bind_ok (hrun₁ fuel), exec_bind_ok (exec_get s₁)]
    have hfull : c.fullRequest P = (do
        let boundary ← getMultipartBoundary s₁.req.headers
        if boundary.isSome || isLuaPackMesg s₁.req.headers then pure s₁.req
        else c.request P) := by
      rw [Content.fullRequest, hcall]
      rfl
    cases hboundary : getMultipartBoundary s₁.req.headers with
    | error e =>
      rw [hboundary] at hfull
      refine ⟨N₁, s₁, block₁, hsuffix₁, hconn₁, ?_⟩
      rw [hfull]
      refine ⟨e, fun fuel => ?_⟩
      rw [hrest, hboundary]
      rfl
    | ok boundary =>
      rw [hboundary] at hfull
      simp only [hboundary, exec_bind_ok (exec_ofExcept_ok _ _), exec_ite] at hrest
      -- a body that the handler is going to stream is left to it
      by_cases hstreamed : (boundary.isSome || isLuaPackMesg s₁.req.headers) = true
      · refine ⟨N₁, s₁, block₁, hsuffix₁, hconn₁, ?_⟩
        have hok : c.fullRequest P = .ok s₁.req := hfull.trans (if_pos hstreamed)
        rw [hok]
        refine ⟨fun fuel => ?_, rfl, .left q₁ hcall ?_ hmid₁.consumed hsupply₁⟩
        · rw [hrest, if_pos hstreamed]
          rfl
        · -- the end of the message has not been reported yet
          rintro rfl
          obtain ⟨later, hreports, hcomplete⟩ := hmid₁.reported
          rw [hcomplete.mp rfl, List.append_nil] at hreports
          cases hevs₁ _ hreports.complete.2
      · simp only [if_neg hstreamed] at hrest
        have hlast : c.fullRequest P = c.request P := hfull.trans (if_neg hstreamed)
        rw [hlast]
        obtain ⟨N₂, block₂, hsuffix₂, ⟨s₂, q₂, evs₂, e, hrun₂, hmid₂, hstop, -, hsupply₂, hconn₂⟩ |
          ⟨err, s₂, hrun₂, hconn₂, evs₂, hraises, -⟩⟩ := readUntil_mid (mesgDone_tells P)
            (fun evs h => ⟨_, h.complete.2, rfl⟩) hmid₁ hevs₁ hdone hsupply₁
        · obtain ⟨rfl, hconsumed, hrequest⟩ := hmid₂.ended hstop
          refine ⟨N₁ + N₂, s₂, block₂, hsuffix₂.trans hsuffix₁, by rw [hconn₂, hconn₁]; rfl, ?_⟩
          rw [hrequest]
          refine ⟨fun fuel => ?_, rfl, .full hrequest hconsumed hsupply₂⟩
          rw [fuel_split, hrest, Nat.add_right_comm]
          exact hrun₂ (fuel + N₁)
        · obtain ⟨e', he'⟩ := hraises.request
          refine ⟨N₁ + N₂, s₂, block₂, hsuffix₂.trans hsuffix₁, by rw [hconn₂, hconn₁]; rfl, ?_⟩
          rw [he']
          refine ⟨err, fun fuel => ?_⟩
          rw [fuel_split, hrest, Nat.add_right_comm]
          exact hrun₂ (fuel + N₁)
  · have hfull : c.fullRequest P = .error e := by
      rw [Content.fullRequest, hfails]
      rfl
    refine ⟨N₁, s₁, block₁, hsuffix₁, hconn₁, ?_⟩
    rw [hfull]
    refine ⟨err, fun fuel => ?_⟩
    rw [readFull, exec_bind_error (hrun₁ fuel)]

/-- The headers leave the reading of the body to `readFull`. -/
structure Content.ReadFully (P : HttpParser σ) (c : Content) : Prop where
  boundary : getMultipartBoundary (c.message.headHeaders P) = .ok none
  luaPack : isLuaPackMesg (c.message.headHeaders P) = false

theorem Content.ReadFully.full (h : c.ReadFully P) : c.fullRequest P = c.request P := by
  rw [Content.fullRequest]
  cases hcall : callback P c.headersComplete c.headRequest with
  | error e =>
    rw [Content.request, hcall]
    rfl
  | ok req =>
    show (getMultipartBoundary req.headers >>= _) = _
    rw [(Content.head_of_call P hcall).headers, h.boundary]
    exact if_neg (by simp [h.luaPack])

end Request

end Luaw.Http
