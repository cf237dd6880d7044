import Luaw.Http.Fragments
import Luaw.Http.Hearing
import Luaw.Http.Multipart
import Luaw.Http.ScriptParser

/-!
# Reading LuaPack from a request

`newLPackReqReader`: each call of its `readFn` makes one call of the parser and returns what that
has brought of the body. A call that brings nothing goes to `debugDump`, which is not in scope.
-/

namespace Luaw.LuaPack

open Lua Program Http

variable {σ : Type}

/-- The `readFn` of `newLPackReqReader`. -/
def readFn (P : HttpParser σ) : SessionM σ (Option Bytes) := do
  let s ← get
  if s.req.EOF = false ∧ s.req.mesgDone = false then
    readAndParse P
    let s ← get
    let (str, req) ← ofExcept (Multipart.consumeBodyChunkParsed s.req)
    set (s.withReq req)
    match str with
    | none => raise (text "attempt to call global 'debugDump' (a nil value)")
    | some str => pure (some str)
  else pure none

/-- The strings that `readFn` returns before its first nil. -/
def readStrings (P : HttpParser σ) : Nat → SessionM σ (List Bytes)
  | 0 => outOfFuel
  | fuel + 1 => do
    match ← readFn P with
    | none => pure []
    | some str => do
      let strs ← readStrings P fuel
      pure (str :: strs)

/-- The headers of a LuaPack message have been read, and nothing else of it. -/
structure AtLuaPackBody (req : Request) : Prop where
  luaPack : isLuaPackMesg req.headers = true
  mesgDone : req.mesgDone = false
  body : req.body = none
  bodyParts : req.bodyParts = newBuffer
  name : req.accHeaderName = none
  value : req.accHeaderValue = none

/-- What comes after the headers and before the end of the message: body and trailers. -/
def isBodyOrTrailer : Event → Bool
  | .body _ | .headerField _ | .headerValue _ => true
  | _ => false

/-- The bytes of the body that a call brings. -/
def bodyOf : Option Event → Bytes
  | some (.body chunk) => chunk
  | _ => []

/-- The strings before the first nil make up the body, and no call raises. -/
def DeliversBody (P : HttpParser σ) (s : Session σ) (body : Bytes) : Prop :=
  ∃ N, ∀ fuel, ∃ strs s', exec (readStrings P (fuel + N)) s = (.ok strs, s') ∧ strs.flatten = body

section Step

variable {P : HttpParser σ} {s s' : Session σ} {req : Request}

theorem readFn_closed (h : req.EOF = true ∨ req.mesgDone = true) :
    exec (readFn P) (s.withReq req) = (.ok none, s.withReq req) := by
  have hnot : ¬(req.EOF = false ∧ req.mesgDone = false) := by
    rintro ⟨hEOF, hdone⟩
    obtain h | h := h
    · rw [hEOF] at h
      cases h
    · rw [hdone] at h
      cases h
  rw [readFn, exec_bind_ok (exec_get _), exec_ite, Session.withReq_req, if_neg hnot]
  rfl

/-- A call of `readFn` is one call of the parser. -/
theorem exec_readFn (hEOF : req.EOF = false) (hdone : req.mesgDone = false) {event : Option Event}
    (hears : Hears P s [event] s') {req' : Request} (hheard : heard P event req = .ok req') :
    exec (readFn P) (s.withReq req) =
      match Multipart.consumeBodyChunkParsed req' with
      | .ok (some str, req'') => (.ok (some str), s'.withReq req'')
      | .ok (none, req'') =>
        (.error (.raised (text "attempt to call global 'debugDump' (a nil value)")),
          s'.withReq req'')
      | .error e => (.error (.raised e), s'.withReq req') := by
  have hround := (hears.readAndParse req).1 req' hheard
  rw [readFn, exec_bind_ok (exec_get _), exec_ite, Session.withReq_req, if_pos ⟨hEOF, hdone⟩,
    exec_bind_ok hround, exec_bind_ok (exec_get _), Session.withReq_req]
  obtain e | ⟨str, req''⟩ := Multipart.consumeBodyChunkParsed req'
  · rfl
  · cases str <;> rfl

/-- The callbacks of body and trailers do not fail, and bring what the event has of the body. -/
theorem heard_parts (h : AtLuaPackBody req) {event : Option Event}
    (hevent : ∀ e ∈ event, isBodyOrTrailer e = true) :
    ∃ req', heard P event req = .ok req' ∧ req'.body = none ∧
      req'.bodyParts.len = (bodyOf event).length ∧ req'.bodyParts.concat = .ok (bodyOf event) := by
  have hempty : newBuffer.len = 0 ∧ newBuffer.concat = .ok [] := ⟨rfl, rfl⟩
  cases event with
  | none => exact ⟨req, rfl, h.body, by rw [h.bodyParts]; rfl, by rw [h.bodyParts]; rfl⟩
  | some e =>
    cases e with
    | body chunk =>
      refine ⟨_, rfl, h.body, ?_, ?_⟩
      · rw [h.bodyParts]
        exact Nat.zero_add _
      · rw [h.bodyParts]
        exact congrArg Except.ok (List.append_nil chunk)
    | headerField chunk =>
      refine ⟨_, rfl, ?_, ?_, ?_⟩
      · simp [h.body]
      · simp only [Request.handleAcc_bodyParts, h.bodyParts]
        rfl
      · simp only [Request.handleAcc_bodyParts, h.bodyParts]
        rfl
    | headerValue chunk =>
      exact ⟨_, rfl, h.body, by rw [h.bodyParts]; rfl, by rw [h.bodyParts]; rfl⟩
    | messageBegin | status | url | headersComplete | messageComplete => cases hevent _ rfl

theorem readFn_body (h : AtLuaPackBody req) (hEOF : req.EOF = false) {event : Option Event}
    (hevent : ∀ e ∈ event, isBodyOrTrailer e = true) (hchunk : bodyOf event ≠ [])
    (hears : Hears P s [event] s') :
    exec (readFn P) (s.withReq req) = (.ok (some (bodyOf event)), s'.withReq req) := by
  cases event with
  | none => exact absurd rfl hchunk
  | some e =>
    cases e with
    | body chunk =>
      have hlen : 0 < (newBuffer.append (.str chunk)).len := by
        rw [Buffer.append, newBuffer, Nat.zero_add]
        exact List.length_pos_iff.mpr hchunk
      have hconcat : (newBuffer.append (.str chunk)).concat = .ok chunk :=
        congrArg Except.ok (List.append_nil chunk)
      have hreq : req = { req with bodyParts := newBuffer, body := none } := by
        rw [← h.bodyParts, ← h.body]
      have hread := exec_readFn hEOF h.mesgDone hears (rfl : heard P _ req = .ok _)
      rw [Multipart.consumeBodyChunkParsed, h.body, h.bodyParts] at hread
      simp only [hlen, if_true, hconcat] at hread
      rw [hread]
      exact congrArg (fun r => (Except.ok (some chunk), s'.withReq r)) hreq.symm
    | headerField | headerValue => exact absurd rfl hchunk
    | messageBegin | status | url | headersComplete | messageComplete => cases hevent _ rfl

/-- A call that brings nothing of the body raises. -/
theorem readFn_silent (h : AtLuaPackBody req) (hEOF : req.EOF = false) {event : Option Event}
    (hevent : ∀ e ∈ event, isBodyOrTrailer e = true) (hchunk : bodyOf event = [])
    (hears : Hears P s [event] s') :
    ∃ e failed, exec (readFn P) (s.withReq req) = (.error (.raised e), failed) := by
  obtain ⟨req', hheard, hbody, hlen, -⟩ := heard_parts (P := P) h hevent
  have hread := exec_readFn hEOF h.mesgDone hears hheard
  have hnone : ¬0 < req'.bodyParts.len := by rw [hlen, hchunk]; exact Nat.lt_irrefl 0
  rw [Multipart.consumeBodyChunkParsed, hbody] at hread
  simp only [if_neg hnone] at hread
  exact ⟨_, _, hread⟩

/-- At the end of the message the body has been handed out, and what is stored is empty. -/
theorem readFn_end (h : AtLuaPackBody req) (hEOF : req.EOF = false) {keepAlive : Bool}
    (hears : Hears P s [some (.messageComplete keepAlive)] s') :
    ∃ req', exec (readFn P) (s.withReq req) = (.ok (some []), s'.withReq req') ∧
      req'.mesgDone = true := by
  have hconcat : req.bodyParts.concat = .ok [] := by rw [h.bodyParts]; rfl
  have hsettled : req.handleAccHttpHeader = req := by
    rw [Request.handleAccHttpHeader, h.name]
  have hend := onMesgComplete_body P keepAlive hconcat rfl
  have hform : formParams P (req.handleAccHttpHeader.handleKeepAlive keepAlive).headers []
      req.params = .ok (req.params, []) := by
    have hluaPack := h.luaPack
    rw [isLuaPackMesg, ← @get?_closing (text "Content-Type") keepAlive (.inr (by decide)) req.headers,
      ← handleKeepAlive_headers] at hluaPack
    rw [hsettled, formParams]
    split at hluaPack
    · next contentType hget =>
      rw [hget]
      simp only [decide_eq_true_eq] at hluaPack
      rw [hluaPack]
      rfl
    · cases hluaPack
  rw [hform] at hend
  exact ⟨_, exec_readFn hEOF h.mesgDone hears hend, rfl⟩

end Step

section Run

variable {P : HttpParser σ} {s s' : Session σ} {req : Request}

/-- The strings of a loop with those of earlier calls in front. -/
def prepend (strs : List Bytes) :
    Except (Stop LuaError) (List Bytes) × Session σ → Except (Stop LuaError) (List Bytes) × Session σ
  | (result, s) => (result.map (strs ++ ·), s)

theorem exec_readStrings_some {str : Bytes} (h : exec (readFn P) s = (.ok (some str), s'))
    (fuel : Nat) :
    exec (readStrings P (fuel + 1)) s = prepend [str] (exec (readStrings P fuel) s') := by
  rw [readStrings, exec_bind_ok h]
  show exec (readStrings P fuel >>= _) s' = _
  rw [exec_bind]
  obtain ⟨result, s''⟩ := exec (readStrings P fuel) s'
  cases result <;> rfl

theorem prepend_nil (outcome : Except (Stop LuaError) (List Bytes) × Session σ) :
    prepend [] outcome = outcome := by
  obtain ⟨result, s⟩ := outcome
  cases result <;> rfl

theorem prepend_prepend (strs strs' : List Bytes)
    (outcome : Except (Stop LuaError) (List Bytes) × Session σ) :
    prepend strs (prepend strs' outcome) = prepend (strs ++ strs') outcome := by
  obtain ⟨result, s⟩ := outcome
  cases result with
  | ok more => exact congrArg (fun all => (Except.ok all, s)) (List.append_assoc strs strs' more).symm
  | error e => rfl

/-- Where every call brings some of the body, it is handed out piece by piece. -/
theorem readStrings_parts (h : AtLuaPackBody req) (hEOF : req.EOF = false)
    {events : List (Option Event)} (hevents : ∀ event ∈ events, ∀ e ∈ event, isBodyOrTrailer e = true)
    (hchunks : ∀ event ∈ events, bodyOf event ≠ []) (hears : Hears P s events s') (fuel : Nat) :
    exec (readStrings P (fuel + events.length)) (s.withReq req) =
      prepend (events.map bodyOf) (exec (readStrings P fuel) (s'.withReq req)) := by
  induction events generalizing s with
  | nil =>
    cases hears
    exact (prepend_nil _).symm
  | cons event events ih =>
    have hsplit : Hears P s ([event] ++ events) s' := hears
    obtain ⟨mid, hfirst, hrest⟩ := hsplit.append_inv
    have hread := readFn_body h hEOF (hevents event List.mem_cons_self)
      (hchunks event List.mem_cons_self) hfirst
    have hmore := ih (fun e he => hevents e (List.mem_cons_of_mem _ he))
      (fun e he => hchunks e (List.mem_cons_of_mem _ he)) hrest
    rw [List.length_cons, ← Nat.add_assoc, exec_readStrings_some hread, hmore, prepend_prepend]
    rfl

/-- What a loop over the whole message makes, when every call before the end brings some of it. -/
theorem readStrings_all (h : AtLuaPackBody req) (hEOF : req.EOF = false)
    {events : List (Option Event)} {keepAlive : Bool}
    (hevents : ∀ event ∈ events, ∀ e ∈ event, isBodyOrTrailer e = true)
    (hchunks : ∀ event ∈ events, bodyOf event ≠ [])
    (hears : Hears P s (events ++ [some (.messageComplete keepAlive)]) s') :
    ∃ s'', ∀ fuel, exec (readStrings P (fuel + (events.length + 2))) (s.withReq req) =
      (.ok (events.map bodyOf ++ [[]]), s'') := by
  obtain ⟨mid, hfirst, hlast⟩ := hears.append_inv
  obtain ⟨req', hend, hdone⟩ := readFn_end h hEOF hlast
  refine ⟨s'.withReq req', fun fuel => ?_⟩
  have hnil : exec (readFn P) (s'.withReq req') = (.ok none, s'.withReq req') :=
    readFn_closed (.inr hdone)
  have hstop : exec (readStrings P (fuel + 1)) (s'.withReq req') = (.ok [], s'.withReq req') := by
    rw [readStrings, exec_bind_ok hnil]
    rfl
  rw [Nat.add_comm events.length 2, ← Nat.add_assoc, readStrings_parts h hEOF hevents hchunks hfirst,
    exec_readStrings_some hend, hstop]
  rfl

/-- A call that brings nothing of the body ends the loop with an error. -/
theorem readStrings_silent (h : AtLuaPackBody req) (hEOF : req.EOF = false)
    {events : List (Option Event)}
    (hevents : ∀ event ∈ events, ∀ e ∈ event, isBodyOrTrailer e = true)
    (hsilent : ∃ event ∈ events, bodyOf event = []) {more : List (Option Event)}
    (hears : Hears P s (events ++ more) s') :
    ∃ N e failed, ∀ fuel, exec (readStrings P (fuel + N)) (s.withReq req) =
      (.error (.raised e), failed) := by
  induction events generalizing s with
  | nil => simp at hsilent
  | cons event events ih =>
    have hsplit : Hears P s ([event] ++ (events ++ more)) s' := hears
    obtain ⟨mid, hfirst, hrest⟩ := hsplit.append_inv
    by_cases hchunk : bodyOf event = []
    · obtain ⟨e, failed, hread⟩ :=
        readFn_silent h hEOF (hevents event List.mem_cons_self) hchunk hfirst
      refine ⟨1, e, failed, fun fuel => ?_⟩
      rw [readStrings, exec_bind_error hread]
    · have hsilent' : ∃ event ∈ events, bodyOf event = [] := by
        obtain ⟨event', hmem, hnil⟩ := hsilent
        obtain rfl | hmem := List.mem_cons.mp hmem
        · exact absurd hnil hchunk
        · exact ⟨event', hmem, hnil⟩
      have hread := readFn_body h hEOF (hevents event List.mem_cons_self) hchunk hfirst
      obtain ⟨N, e, failed, hrun⟩ :=
        ih (fun e he => hevents e (List.mem_cons_of_mem _ he)) hsilent' hrest
      refine ⟨N + 1, e, failed, fun fuel => ?_⟩
      rw [← Nat.add_assoc, exec_readStrings_some hread, hrun]
      rfl

/-- On a connection that is kept alive, every call before the end has to bring some of the body. -/
theorem deliversBody_open (h : AtLuaPackBody s.req) (hEOF : s.req.EOF = false)
    {events : List (Option Event)} {keepAlive : Bool}
    (hevents : ∀ event ∈ events, ∀ e ∈ event, isBodyOrTrailer e = true)
    (hears : Hears P s (events ++ [some (.messageComplete keepAlive)]) s') :
    DeliversBody P s (events.map bodyOf).flatten ↔ ∀ event ∈ events, bodyOf event ≠ [] := by
  refine ⟨fun ⟨N, hrun⟩ event hmem hchunk => ?_, fun hchunks => ?_⟩
  · obtain ⟨N', e, failed, hfails⟩ := readStrings_silent h hEOF hevents ⟨event, hmem, hchunk⟩ hears
    obtain ⟨strs, s'', hread, -⟩ := hrun N'
    have hraised := hfails N
    rw [Session.withReq_self, Nat.add_comm, hread] at hraised
    cases hraised
  · obtain ⟨s'', hread⟩ := readStrings_all h hEOF hevents hchunks hears
    exact ⟨events.length + 2, fun fuel => ⟨_, s'', hread fuel, by simp⟩⟩

/-- On another connection nothing is handed out. -/
theorem deliversBody_closed (hEOF : s.req.EOF = true) (body : Bytes) :
    DeliversBody P s body ↔ body = [] := by
  have hnil : exec (readFn P) s = (.ok none, s) := readFn_closed (.inl hEOF)
  have hstop : ∀ fuel, exec (readStrings P (fuel + 1)) s = (.ok [], s) := fun fuel => by
    rw [readStrings, exec_bind_ok hnil]
    rfl
  refine ⟨fun ⟨N, hrun⟩ => ?_, fun hbody => ⟨1, fun fuel => ⟨[], s, hstop fuel, hbody.symm⟩⟩⟩
  obtain ⟨strs, s'', hread, hbody⟩ := hrun 1
  rw [Nat.add_comm, hstop] at hread
  cases hread
  exact hbody.symm

/-- The bytes of the body are handed out up to the end of the message if and only if every call
before it brings some of them, or the connection is not to be kept alive and there are none. -/
theorem deliversBody_iff (h : AtLuaPackBody s.req) {events : List (Option Event)}
    {keepAlive : Bool} (hevents : ∀ event ∈ events, ∀ e ∈ event, isBodyOrTrailer e = true)
    (hears : Hears P s (events ++ [some (.messageComplete keepAlive)]) s') :
    DeliversBody P s (events.map bodyOf).flatten ↔
      (s.req.EOF = false ∧ ∀ event ∈ events, bodyOf event ≠ []) ∨
      (s.req.EOF = true ∧ ∀ event ∈ events, bodyOf event = []) := by
  cases hEOF : s.req.EOF with
  | true =>
    rw [deliversBody_closed hEOF]
    simp
  | false =>
    rw [deliversBody_open h hEOF hevents hears]
    simp

end Run

/-- A chunked LuaPack message with the body `a`, at its body. -/
def chunkedRequest : Request :=
  { newServerHttpRequest with
    headers := [(text "Content-Type", .single (text "application/luapack")),
      (text "Transfer-Encoding", .single (text "chunked"))]
    headersDone := true }

def chunkedScript : Script := [(4, .body (text "a")), (7, .messageComplete true)]

/-- The session of the message, which comes in the reads `reads`. -/
def chunkedSession (reads : List Bytes) : Session Script :=
  ⟨⟨false, reads.map .ok, [], []⟩, chunkedRequest, chunkedScript, none, []⟩

def chunkedParser : HttpParser Script := chunkedScript.parser fun _ _ => none

theorem chunkedRequest_atBody : AtLuaPackBody chunkedRequest := ⟨by decide, rfl, rfl, rfl, rfl, rfl⟩

/-- A read that ends with the header of a chunk brings nothing of the body. -/
def cutReads : List Bytes := [text "1\r\n", text "a\r\n0\r\n\r\n"]

theorem cut_chunk_header_raises :
    AtLuaPackBody (chunkedSession cutReads).req ∧
      (∃ s', Hears chunkedParser (chunkedSession cutReads)
        [none, some (.body (text "a")), some (.messageComplete true)] s') ∧
      (exec (readStrings chunkedParser 9) (chunkedSession cutReads)).1 =
        .error (.raised (text "attempt to call global 'debugDump' (a nil value)")) ∧
      ¬DeliversBody chunkedParser (chunkedSession cutReads) (text "a") := by
  have hhear : hear chunkedParser 3 (chunkedSession cutReads) = some
    ([none, some (.body (text "a")), some (.messageComplete true)],
      ((hear chunkedParser 3 (chunkedSession cutReads)).get (by rfl)).2) := by rfl
  have hevents : ∀ event ∈ [none, some (Event.body (text "a"))], ∀ e ∈ event,
      isBodyOrTrailer e = true := by simp [isBodyOrTrailer]
  refine ⟨chunkedRequest_atBody, ⟨_, hears_of_hear hhear⟩, by rfl, fun h => ?_⟩
  exact (deliversBody_open chunkedRequest_atBody rfl hevents (hears_of_hear hhear)).mp h none
    (by simp) rfl

theorem deliversBody_whole :
    DeliversBody chunkedParser (chunkedSession [text "1\r\na\r\n0\r\n\r\n"]) (text "a") ↔
      (chunkedRequest.EOF = false ∧ ∀ event ∈ [some (Event.body (text "a"))], bodyOf event ≠ []) ∨
      (chunkedRequest.EOF = true ∧ ∀ event ∈ [some (Event.body (text "a"))], bodyOf event = []) := by
  have hhear : hear chunkedParser 2 (chunkedSession [text "1\r\na\r\n0\r\n\r\n"]) = some
    ([some (.body (text "a")), some (.messageComplete true)],
      ((hear chunkedParser 2 (chunkedSession [text "1\r\na\r\n0\r\n\r\n"])).get (by rfl)).2) := by
    rfl
  have hevents : ∀ event ∈ [some (Event.body (text "a"))], ∀ e ∈ event,
      isBodyOrTrailer e = true := by simp [isBodyOrTrailer]
  have hears : Hears chunkedParser (chunkedSession [text "1\r\na\r\n0\r\n\r\n"])
      ([some (.body (text "a"))] ++ [some (.messageComplete true)]) _ := hears_of_hear hhear
  exact deliversBody_iff chunkedRequest_atBody hevents hears

end Luaw.LuaPack
