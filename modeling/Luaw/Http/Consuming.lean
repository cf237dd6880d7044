import Luaw.Foundations.Transition
import Luaw.Http.Multipart
import Luaw.Http.ReadBound
import Luaw.Http.ScriptParser

/-!
# Consuming the body while it is read

A handler can take the body out of the request with `consumeBodyChunkParsed` between any two
rounds of `readAndParse`. The bytes wait in `bodyParts`, and from the end of the message on in
`body`; none gets lost on the way.
-/

namespace Luaw.Http

open Lua Program Transition

variable {σ : Type}

/-- The event of the next call of the parser, if `readAndParse` gets to it. -/
def nextEvent (P : HttpParser σ) (s : Session σ) : Option Event :=
  match exec readContent s with
  | (.ok (some (content, offset)), s') =>
    (P.execute s'.parser (content.drop offset)).event
  | _ => none

inductive BodyCall where
  | readAndParse
  | consumeBodyChunkParsed

/-- A handler that reads a body: the events that it has seen and the strings that it has got. -/
structure Consumer (σ : Type) where
  session : Session σ
  events : List Event
  delivered : List Bytes

namespace Consumer

def start (P : HttpParser σ) (conn : Conn) : Consumer σ := ⟨newSession P conn, [], []⟩

/-- A call that returns. When a call raises, the handler has no next one. -/
def step (P : HttpParser σ) (c : Consumer σ) : BodyCall → Option (Consumer σ)
  | .readAndParse =>
    match exec (readAndParse P) c.session with
    | (.ok (), session) =>
      some { c with
        session := session
        events := c.events ++ (nextEvent P c.session).toList }
    | _ => none
  | .consumeBodyChunkParsed =>
    match Multipart.consumeBodyChunkParsed c.session.req with
    | .ok (bodyChunk, req) =>
      some { c with
        session := { c.session with req := req }
        delivered := c.delivered ++ bodyChunk.toList }
    | .error _ => none

end Consumer

namespace Event

def bodyChunk : Event → Bytes
  | body chunk => chunk
  | _ => []

def isMessageBegin : Event → Bool
  | messageBegin => true
  | _ => false

end Event

/-- The bytes of the body events. -/
def bodyOf (events : List Event) : Bytes := events.flatMap Event.bodyChunk

def isForm (headers : Headers) : Bool :=
  match headers.get? (text "Content-Type") with
  | some (.single contentType) => lowerCase contentType = text "application/x-www-form-urlencoded"
  | _ => false

/-- The message has ended. -/
def Consumer.Completed (c : Consumer σ) : Prop := ∃ e ∈ c.events, e.isMessageComplete = true

/-- The event is the next one of the same message, and the message is no form. -/
def Consumer.Continues (c : Consumer σ) (e : Event) : Prop :=
  ¬c.Completed ∧ (e.isMessageBegin = true → c.events = []) ∧
    ∀ keepAlive, e = .messageComplete keepAlive →
      isForm (c.session.req.handleAccHttpHeader.handleKeepAlive keepAlive).headers = false

/-- The calls stay within one message. -/
def InOneMessage (P : HttpParser σ) (c : Consumer σ) : BodyCall → Prop
  | .readAndParse => ∀ e, nextEvent P c.session = some e → c.Continues e
  | .consumeBodyChunkParsed => True

/-- What has been delivered and what is still in the request are the bytes parsed so far. -/
def Consumer.Conserves (c : Consumer σ) : Prop :=
  ∃ parts, c.session.req.bodyParts.concat = .ok parts ∧
    c.delivered.flatten ++ c.session.req.body.getD [] ++ parts = bodyOf c.events

section Reading

variable {P : HttpParser σ}

theorem readContent_req {s s' : Session σ} {unread : Option (Bytes × Nat)}
    (h : exec readContent s = (.ok unread, s')) :
    (unread.isSome = true → s'.req = s.req) ∧ s'.req.body = s.req.body ∧
      s'.req.bodyParts = s.req.bodyParts := by
  obtain ⟨_, _, -, -, rfl, rfl⟩ | ⟨-, _, _, -, rfl, rfl⟩ | ⟨-, _, -, rfl, rfl⟩ :=
    readContent_cases h
  · exact ⟨fun _ => rfl, rfl, rfl⟩
  · exact ⟨fun _ => rfl, rfl, rfl⟩
  · exact ⟨fun hsome => absurd hsome Bool.false_ne_true, rfl, rfl⟩

/-- A round of reading runs the callback of an event, or leaves the body as it is. -/
theorem readAndParse_req {s s' : Session σ} (h : exec (readAndParse P) s = (.ok (), s')) :
    (∃ e, nextEvent P s = some e ∧ callback P e s.req = .ok s'.req) ∨
      (nextEvent P s = none ∧ s'.req.body = s.req.body ∧ s'.req.bodyParts = s.req.bodyParts) := by
  rcases hread : exec readContent s with ⟨stop | unread, s₁⟩
  · rw [readAndParse, exec_bind_error hread] at h
    cases h
  obtain ⟨hreq, hsame⟩ := readContent_req hread
  rw [readAndParse, exec_bind_ok hread] at h
  obtain - | ⟨content, offset⟩ := unread
  · cases h
    exact .inr ⟨by rw [nextEvent, hread], hsame⟩
  · change exec (parseHttpFragment P content offset >>= _) s₁ = _ at h
    rcases hparse : exec (parseHttpFragment P content offset) s₁ with ⟨stop | n, s₂⟩
    · rw [exec_bind_error hparse] at h
      cases h
    · rw [exec_bind_ok hparse] at h
      cases h
      obtain ⟨req, hheard, rfl, rfl⟩ := parseHttpFragment_ok hparse
      have hnext : nextEvent P s = (P.execute s₁.parser (content.drop offset)).event := by
        rw [nextEvent, hread]
      rw [hreq rfl] at hheard
      cases hevent : (P.execute s₁.parser (content.drop offset)).event with
      | none =>
        rw [hevent] at hheard
        cases hheard
        exact .inr ⟨hnext.trans hevent, rfl, rfl⟩
      | some e =>
        rw [hevent] at hheard
        exact .inl ⟨e, hnext.trans hevent, hheard⟩

/-- The callbacks other than those of a body and of the two ends of a message leave the body
alone. -/
theorem callback_body {e : Event} {req req' : Request} (h : callback P e req = .ok req')
    (hbegin : e.isMessageBegin = false) (hcomplete : e.isMessageComplete = false)
    (hbody : ∀ chunk, e ≠ .body chunk) :
    req'.body = req.body ∧ req'.bodyParts = req.bodyParts := by
  cases e with
  | messageBegin => cases hbegin
  | messageComplete => cases hcomplete
  | body chunk => exact absurd rfl (hbody chunk)
  | headersComplete =>
    obtain ⟨parsedURL, params, left, -, -, rfl⟩ := onHeadersComplete_ok P h
    exact ⟨by simp, by simp⟩
  | headerField =>
    cases h
    exact ⟨by simp, by simp⟩
  | status | url | headerValue =>
    cases h
    exact ⟨rfl, rfl⟩

theorem formParams_plain {headers : Headers} {body body' : Bytes} {params params' : Option Params}
    (hplain : isForm headers = false)
    (h : formParams P headers body params = .ok (params', body')) : body' = body := by
  rw [formParams] at h
  rw [isForm] at hplain
  split at h
  · cases h
    rfl
  · cases h
  · next contentType hvalue =>
    rw [hvalue] at hplain
    rw [if_neg (of_decide_eq_false hplain)] at h
    cases h
    rfl

/-- A callback of the message that ends it moves the parts into the body. -/
theorem onMesgComplete_moves {keepAlive : Bool} {req req' : Request} {strs : List Bytes}
    (hparts : req.bodyParts.Holds strs)
    (hplain : isForm (req.handleAccHttpHeader.handleKeepAlive keepAlive).headers = false)
    (h : onMesgComplete P keepAlive req = .ok req') :
    req'.body = some strs.flatten ∧ req'.bodyParts = newBuffer := by
  obtain ⟨parts, params, left, hconcat, hform, rfl⟩ := onMesgComplete_ok P h
  obtain rfl : strs.flatten = parts := Except.ok.inj (hparts.concat.symm.trans hconcat)
  exact ⟨congrArg some (formParams_plain hplain hform), rfl⟩

theorem consume_body {req : Request} {bodyChunk : Bytes} (h : req.body = some bodyChunk) :
    Multipart.consumeBodyChunkParsed req = .ok (some bodyChunk, { req with body := none }) := by
  rw [Multipart.consumeBodyChunkParsed, h]

theorem consume_parts {req : Request} {strs : List Bytes} (hbody : req.body = none)
    (hparts : req.bodyParts.Holds strs) (hlen : 0 < req.bodyParts.len) :
    Multipart.consumeBodyChunkParsed req =
      .ok (some strs.flatten, { req with bodyParts := req.bodyParts.reset }) := by
  rw [Multipart.consumeBodyChunkParsed]
  split
  · next bodyChunk hsome => exact nomatch hbody.symm.trans hsome
  · rw [if_pos hlen, hparts.concat]
    rfl

theorem consume_nothing {req : Request} (hbody : req.body = none)
    (hlen : ¬0 < req.bodyParts.len) : Multipart.consumeBodyChunkParsed req = .ok (none, req) := by
  rw [Multipart.consumeBodyChunkParsed, hbody, if_neg hlen]

end Reading

theorem bodyOf_append (events events' : List Event) :
    bodyOf (events ++ events') = bodyOf events ++ bodyOf events' :=
  List.flatMap_append

section Invariant

variable {P : HttpParser σ} {c c' : Consumer σ}

/-- Before the end of the message the undelivered bytes are in `bodyParts`, after it in `body`. -/
structure Consumer.Keeps (c : Consumer σ) (strs : List Bytes) : Prop where
  holds : c.session.req.bodyParts.Holds strs
  bytes : c.delivered.flatten ++ c.session.req.body.getD [] ++ strs.flatten = bodyOf c.events
  before : ¬c.Completed → c.session.req.body = none
  after : c.Completed → strs = []

theorem keeps_start (P : HttpParser σ) (conn : Conn) : (Consumer.start P conn).Keeps [] :=
  ⟨Buffer.holds_new, rfl, fun _ => rfl, fun _ => rfl⟩

theorem Consumer.Keeps.conserves {strs : List Bytes} (h : c.Keeps strs) : c.Conserves :=
  ⟨strs.flatten, h.holds.concat, h.bytes⟩

theorem Consumer.Keeps.opened {session : Session σ} {events : List Event}
    {delivered strs : List Bytes} (hholds : session.req.bodyParts.Holds strs)
    (hbody : session.req.body = none) (hbytes : delivered.flatten ++ strs.flatten = bodyOf events)
    (hopen : ∀ e ∈ events, e.isMessageComplete = false) :
    (Consumer.mk session events delivered).Keeps strs := by
  refine ⟨hholds, ?_, fun _ => hbody, ?_⟩
  · show delivered.flatten ++ session.req.body.getD [] ++ strs.flatten = _
    rw [hbody, Option.getD_none, List.append_nil, hbytes]
  · rintro ⟨e, he, htrue⟩
    exact absurd htrue (by rw [hopen e he]; exact Bool.false_ne_true)

/-- The callback of an event of the message keeps the bytes. -/
theorem Consumer.Keeps.event {strs : List Bytes} (h : c.Keeps strs) {e : Event}
    (hcont : c.Continues e) {session : Session σ}
    (hcall : callback P e c.session.req = .ok session.req) :
    ∃ strs', (Consumer.mk session (c.events ++ [e]) c.delivered).Keeps strs' := by
  obtain ⟨hcompleted, hfirst, hplain⟩ := hcont
  have hbody := h.before hcompleted
  have hbytes : c.delivered.flatten ++ strs.flatten = bodyOf c.events := by
    have hkept := h.bytes
    rwa [hbody, Option.getD_none, List.append_nil] at hkept
  have hopen : e.isMessageComplete = false →
      ∀ e' ∈ c.events ++ [e], e'.isMessageComplete = false := by
    intro he e' hmem
    obtain hmem | hmem := List.mem_append.mp hmem
    · exact Bool.eq_false_iff.mpr fun htrue => hcompleted ⟨e', hmem, htrue⟩
    · rw [List.mem_singleton.mp hmem, he]
  -- an event that is none of the body's adds no bytes
  have hsilent : e.bodyChunk = [] → c.delivered.flatten ++ strs.flatten =
      bodyOf (c.events ++ [e]) := by
    intro he
    have hone : bodyOf [e] = [] := (List.flatMap_singleton _ _).trans he
    rw [bodyOf_append, hbytes, hone, List.append_nil]
  have hother : e.isMessageBegin = false → e.isMessageComplete = false →
      (∀ chunk, e ≠ .body chunk) → e.bodyChunk = [] →
      (Consumer.mk session (c.events ++ [e]) c.delivered).Keeps strs := by
    intro hbegin hcomplete hchunk he
    obtain ⟨hbody', hparts⟩ := callback_body hcall hbegin hcomplete hchunk
    exact .opened (hparts ▸ h.holds) (hbody'.trans hbody) (hsilent he) (hopen hcomplete)
  cases e with
  | messageBegin =>
    have hreq : c.session.req.reset = session.req := Except.ok.inj hcall
    rw [hfirst rfl] at hbytes
    obtain ⟨hdelivered, -⟩ := List.append_eq_nil_iff.mp hbytes
    refine ⟨[], .opened ?_ ?_ ?_ (hopen rfl)⟩
    · rw [← hreq]
      exact Buffer.holds_reset c.session.req.bodyParts
    · rw [← hreq]
      rfl
    · rw [hdelivered, hfirst rfl]
      rfl
  | messageComplete keepAlive =>
    obtain ⟨hbody', hparts⟩ := onMesgComplete_moves h.holds (hplain keepAlive rfl) hcall
    have hended : (Consumer.mk session (c.events ++ [.messageComplete keepAlive])
        c.delivered).Completed := ⟨_, List.mem_append_right _ (List.mem_singleton_self _), rfl⟩
    refine ⟨[], ?_, ?_, fun hno => absurd hended hno, fun _ => rfl⟩
    · show session.req.bodyParts.Holds []
      rw [hparts]
      exact Buffer.holds_new
    · show c.delivered.flatten ++ session.req.body.getD [] ++ [] = _
      rw [hbody', Option.getD_some, List.append_nil]
      exact hsilent rfl
  | body chunk =>
    have hreq : { c.session.req with bodyParts := c.session.req.bodyParts.append (.str chunk) } =
        session.req := Except.ok.inj hcall
    refine ⟨strs ++ [chunk], .opened ?_ ?_ ?_ (hopen rfl)⟩
    · rw [← hreq]
      exact h.holds.append chunk
    · rw [← hreq]
      exact hbody
    · rw [List.flatten_append, ← List.append_assoc, hbytes, bodyOf_append]
      rfl
  | headersComplete => exact ⟨strs, hother rfl rfl nofun rfl⟩
  | headerField => exact ⟨strs, hother rfl rfl nofun rfl⟩
  | status | url | headerValue => exact ⟨strs, hother rfl rfl nofun rfl⟩

theorem Consumer.step_readAndParse (h : c.step P .readAndParse = some c') :
    ∃ session, exec (readAndParse P) c.session = (.ok (), session) ∧
      c' = ⟨session, c.events ++ (nextEvent P c.session).toList, c.delivered⟩ := by
  rw [Consumer.step] at h
  split at h
  · next session hrun =>
    cases h
    exact ⟨session, hrun, rfl⟩
  · cases h

/-- A round of reading in the message keeps the bytes. -/
theorem Consumer.Keeps.readAndParse {strs : List Bytes} (h : c.Keeps strs)
    (hmesg : InOneMessage P c .readAndParse) (hstep : c.step P .readAndParse = some c') :
    ∃ strs', c'.Keeps strs' := by
  obtain ⟨session, hrun, rfl⟩ := Consumer.step_readAndParse hstep
  obtain ⟨e, hnext, hcall⟩ | ⟨hnext, hbody, hparts⟩ := readAndParse_req hrun
  · rw [hnext]
    exact h.event (hmesg e hnext) hcall
  · rw [hnext, Option.toList_none, List.append_nil]
    refine ⟨strs, hparts ▸ h.holds, ?_, fun hno => hbody.trans (h.before hno), h.after⟩
    show c.delivered.flatten ++ session.req.body.getD [] ++ strs.flatten = _
    rw [hbody, h.bytes]

/-- Consuming is always possible and keeps the bytes; it takes the whole body. -/
theorem Consumer.Keeps.consume {strs : List Bytes} (h : c.Keeps strs) :
    ∃ c', c.step P .consumeBodyChunkParsed = some c' ∧ c'.events = c.events ∧
      c'.session.req.body = none ∧ ∃ strs', c'.Keeps strs' := by
  have hbytes := h.bytes
  cases hbody : c.session.req.body with
  | some bodyChunk =>
    refine ⟨⟨{ c.session with req := { c.session.req with body := none } }, c.events,
      c.delivered ++ [bodyChunk]⟩, ?_, rfl, rfl, strs, h.holds, ?_, fun _ => rfl, h.after⟩
    · rw [Consumer.step, consume_body hbody]
      rfl
    · rw [hbody, Option.getD_some] at hbytes
      show (c.delivered ++ [bodyChunk]).flatten ++ [] ++ strs.flatten = _
      rw [List.flatten_append, List.flatten_singleton, List.append_nil, hbytes]
  | none =>
    rw [hbody, Option.getD_none, List.append_nil] at hbytes
    by_cases hlen : 0 < c.session.req.bodyParts.len
    · refine ⟨⟨{ c.session with req := { c.session.req with
          bodyParts := c.session.req.bodyParts.reset } }, c.events,
        c.delivered ++ [strs.flatten]⟩, ?_, rfl, hbody, [],
        Buffer.holds_reset c.session.req.bodyParts, ?_, fun _ => hbody, fun _ => rfl⟩
      · rw [Consumer.step, consume_parts hbody h.holds hlen]
        rfl
      · show (c.delivered ++ [strs.flatten]).flatten ++ c.session.req.body.getD [] ++ [] = _
        rw [hbody, List.flatten_append, List.flatten_singleton, Option.getD_none, List.append_nil,
          List.append_nil, hbytes]
    · refine ⟨⟨c.session, c.events, c.delivered ++ []⟩, ?_, rfl, hbody, strs, h.holds, ?_,
        h.before, h.after⟩
      · rw [Consumer.step, consume_nothing hbody hlen]
        rfl
      · show (c.delivered ++ []).flatten ++ c.session.req.body.getD [] ++ strs.flatten = _
        rw [hbody, Option.getD_none, List.append_nil, List.append_nil, hbytes]

theorem Consumer.Keeps.step {strs : List Bytes} (h : c.Keeps strs) {call : BodyCall}
    (hmesg : InOneMessage P c call) (hstep : c.step P call = some c') :
    ∃ strs', c'.Keeps strs' := by
  cases call with
  | readAndParse => exact h.readAndParse hmesg hstep
  | consumeBodyChunkParsed =>
    obtain ⟨c'', hstep', -, -, hkeeps⟩ := h.consume (P := P)
    rwa [Option.some.inj (hstep.symm.trans hstep')]

theorem Consumer.completed_mono (hstep : c.step P .readAndParse = some c') (h : c.Completed) :
    c'.Completed := by
  obtain ⟨session, -, rfl⟩ := Consumer.step_readAndParse hstep
  obtain ⟨e, he, hcomplete⟩ := h
  exact ⟨e, List.mem_append_left _ he, hcomplete⟩

/-- The message has ended, and its body has been taken. -/
def Consumer.Drained (c : Consumer σ) : Prop :=
  (∃ strs, c.Keeps strs) ∧ c.Completed ∧ c.session.req.body = none

theorem Consumer.Drained.delivered (h : c.Drained) : c.delivered.flatten = bodyOf c.events := by
  obtain ⟨⟨strs, hkeeps⟩, hcompleted, hbody⟩ := h
  have hbytes := hkeeps.bytes
  rwa [hbody, hkeeps.after hcompleted, Option.getD_none, List.append_nil, List.flatten_nil,
    List.append_nil] at hbytes

theorem Consumer.Keeps.drain {strs : List Bytes} (h : c.Keeps strs) (hcompleted : c.Completed)
    (hstep : c.step P .consumeBodyChunkParsed = some c') : c'.Drained := by
  obtain ⟨c'', hstep', hevents, hbody, hkeeps⟩ := h.consume (P := P)
  obtain rfl := Option.some.inj (hstep.symm.trans hstep')
  refine ⟨hkeeps, ?_, hbody⟩
  rwa [Consumer.Completed, hevents]

theorem Consumer.Drained.step (h : c.Drained) {call : BodyCall} (hmesg : InOneMessage P c call)
    (hstep : c.step P call = some c') : c'.Drained := by
  obtain ⟨⟨strs, hkeeps⟩, hcompleted, hbody⟩ := h
  cases call with
  | readAndParse =>
    refine ⟨hkeeps.readAndParse hmesg hstep, Consumer.completed_mono hstep hcompleted, ?_⟩
    obtain ⟨session, hrun, rfl⟩ := Consumer.step_readAndParse hstep
    -- no event of the message comes after its end
    obtain ⟨e, hnext, -⟩ | ⟨-, hsame, -⟩ := readAndParse_req hrun
    · exact absurd hcompleted (hmesg e hnext).1
    · exact hsame.trans hbody
  | consumeBodyChunkParsed => exact hkeeps.drain hcompleted hstep

end Invariant

section Runs

variable {P : HttpParser σ} {conn : Conn} {calls : List BodyCall}

theorem keeps_run (h : Guarded (Consumer.step P) (InOneMessage P) (Consumer.start P conn) calls) :
    Always (Consumer.step P) (fun c => ∃ strs, c.Keeps strs) (Consumer.start P conn) calls :=
  h.always ⟨[], keeps_start P conn⟩ fun _ _ _ ⟨_, hkeeps⟩ => hkeeps.step

/-- Within a message nothing of the body is lost: at every moment what has been delivered and what
waits in the request are the bytes parsed so far, and a body that is consumed after the end of the
message has been delivered completely. -/
theorem body_delivered
    (h : Guarded (Consumer.step P) (InOneMessage P) (Consumer.start P conn) calls) :
    Always (Consumer.step P) (fun c => c.Conserves ∧
        (c.step P .consumeBodyChunkParsed).isSome = true) (Consumer.start P conn) calls ∧
      ∀ before after mid c, calls = before ++ .consumeBodyChunkParsed :: after →
        exec (Consumer.step P) (Consumer.start P conn) before = some mid → mid.Completed →
        exec (Consumer.step P) (Consumer.start P conn) calls = some c →
        c.delivered.flatten = bodyOf c.events := by
  refine ⟨(keeps_run h).mono fun c hc => ?_, ?_⟩
  · obtain ⟨strs, hkeeps⟩ := hc
    obtain ⟨c', hstep, -⟩ := hkeeps.consume (P := P)
    exact ⟨hkeeps.conserves, by rw [hstep]; rfl⟩
  · rintro before after mid c rfl hmid hcompleted hrun
    obtain ⟨hbefore, hrest⟩ := h.append_inv
    obtain ⟨strs, hkeeps⟩ := (keeps_run hbefore).of_exec hmid
    rw [exec_append, hmid] at hrun
    obtain ⟨drained, hstep, hafter⟩ := Option.bind_eq_some_iff.mp
      (show ((Consumer.step P mid .consumeBodyChunkParsed).bind fun c =>
        exec (Consumer.step P) c after) = some c from hrun)
    have hguarded := ((hrest mid hmid) drained hstep).2
    have hdrained := hguarded.always (hkeeps.drain hcompleted hstep)
      fun _ _ _ hd hmesg hnext => hd.step hmesg hnext
    exact (hdrained.of_exec hafter).delivered

end Runs

section Check

/-- `Continues`, computed. -/
def Consumer.continuesWith (c : Consumer σ) (e : Event) : Bool :=
  !c.events.any Event.isMessageComplete && (!e.isMessageBegin || c.events.isEmpty) &&
    match e with
    | .messageComplete keepAlive =>
      !isForm (c.session.req.handleAccHttpHeader.handleKeepAlive keepAlive).headers
    | _ => true

def Consumer.stays (P : HttpParser σ) (c : Consumer σ) : BodyCall → Bool
  | .readAndParse => (nextEvent P c.session).all c.continuesWith
  | .consumeBodyChunkParsed => true

theorem Consumer.continues_of_continuesWith {c : Consumer σ} {e : Event}
    (h : c.continuesWith e = true) : c.Continues e := by
  unfold continuesWith at h
  rw [Bool.and_eq_true, Bool.and_eq_true] at h
  obtain ⟨⟨hopen, hbegin⟩, hform⟩ := h
  refine ⟨?_, fun he => ?_, fun keepAlive he => ?_⟩
  · rintro ⟨e', hmem, htrue⟩
    rw [List.any_eq_true.mpr ⟨e', hmem, htrue⟩] at hopen
    cases hopen
  · rw [he] at hbegin
    exact List.isEmpty_iff.mp hbegin
  · subst he
    exact (Bool.not_eq_true' _).mp hform

theorem inOneMessage_of_stays {P : HttpParser σ} {c : Consumer σ} {call : BodyCall}
    (h : c.stays P call = true) : InOneMessage P c call := by
  cases call with
  | consumeBodyChunkParsed => trivial
  | readAndParse =>
    intro e hnext
    rw [Consumer.stays, hnext] at h
    exact Consumer.continues_of_continuesWith h

end Check

section Upload

/-- The callbacks for a POST with a body of five bytes that arrive in two pieces. -/
def postScript : Script :=
  [(1, .messageBegin), (6, .url (text "/")), (25, .headerField (text "Content-Length")),
    (3, .headerValue (text "5")),
    (3, .headersComplete true 1 1 (some (text "POST")) none), (3, .body (text "abc")),
    (1, .body (text "de")), (1, .messageComplete true)]

def postParser : HttpParser Script := postScript.parser fun url _ => some ⟨some url, none⟩

def postConn : Conn :=
  ⟨false, [.ok (text "POST / HTTP/1.1\r\nContent-Length: 5\r\n\r\nabc"), .ok (text "de")], [], []⟩

/-- The body is consumed in two strings, the second one after the end of the message. -/
def postCalls : List BodyCall :=
  List.replicate 5 .readAndParse ++ [.consumeBodyChunkParsed, .readAndParse,
    .consumeBodyChunkParsed, .readAndParse, .readAndParse, .consumeBodyChunkParsed]

theorem postCalls_inOneMessage : Guarded (Consumer.step postParser) (InOneMessage postParser)
    (Consumer.start postParser postConn) postCalls :=
  guarded_of_check (fun _ _ => inOneMessage_of_stays) (by decide +kernel)

theorem post_body_delivered :
    Always (Consumer.step postParser) (fun c => c.Conserves ∧
        (c.step postParser .consumeBodyChunkParsed).isSome = true)
        (Consumer.start postParser postConn) postCalls ∧
      ∀ before after mid c, postCalls = before ++ .consumeBodyChunkParsed :: after →
        exec (Consumer.step postParser) (Consumer.start postParser postConn) before = some mid →
        mid.Completed →
        exec (Consumer.step postParser) (Consumer.start postParser postConn) postCalls = some c →
        c.delivered.flatten = bodyOf c.events :=
  body_delivered postCalls_inOneMessage

end Upload

end Luaw.Http
