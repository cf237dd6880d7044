import Luaw.Http.ClientResponse
import Luaw.Parsing.Requests

/-!
# Responses read by the parser

Every response that is well formed is delivered: its events are heard of every connection that
brings its bytes, in whatever strings. A response without a length is delivered when the connection
ends.
-/

namespace Luaw.Parsing

open Http Lua Program

section Hearing

variable {t : ParserType} {platform : Platform} {parseURL : Bytes → Bool → Option ParsedURL}
  {q : Parser}
  {ms : List Event} {more : List (Except LuaError Bytes)}

theorem restart_of_incomplete (t : ParserType) {x : Execution Parser}
    (h : ∀ e ∈ x.event, e.isMessageComplete = false) : restart t x = x.state := by
  unfold restart
  split
  · next keepAlive hevent => cases h _ hevent
  · rfl

/-- The end of a message is heard after everything else that is told of it. -/
theorem incomplete_of_merge {pre es : List Event} {x : Execution Parser} {keepAlive : Bool}
    (hms : ∀ e ∈ ms, e.isMessageComplete = false)
    (hmerge : events.merge (pre ++ (x.event.toList ++ es)) = ms ++ [.messageComplete keepAlive])
    (hes : es ≠ []) : ∀ e ∈ x.event, e.isMessageComplete = false := by
  intro e he
  cases hcomplete : e.isMessageComplete with
  | false => rfl
  | true =>
    have hkind : events.kind e = none := by cases e <;> first | rfl | cases hcomplete
    rw [Option.mem_def.mp he, Option.toList_some, List.singleton_append,
      events.merge_append_none hkind] at hmerge
    obtain hnil | ⟨last, a, hlast⟩ := List.eq_nil_or_concat (events.merge es)
    · exact absurd (events.merge_eq_nil.mp hnil) hes
    have hends : (events.merge pre ++ e :: last) ++ [a] = ms ++ [.messageComplete keepAlive] := by
      rw [← hmerge, hlast, List.concat_eq_append, List.append_assoc]
      rfl
    obtain ⟨hfront, -⟩ := List.append_inj' hends rfl
    have hmem := hms e (by rw [← hfront]; simp)
    rw [hcomplete] at hmem
    cases hmem

/-- A message whose bytes the connection brings is heard to its end. -/
theorem hears_completes {s : Session ValidParser} {left extra : Bytes} {block : List Bytes}
    (pre : List Event) {es : List Event} {keepAlive : Bool} (hsound : s.parser.1.Sound)
    (h : Completes s.parser.1 left es q) (hsupply : s.Supply block more (left ++ extra))
    (hms : ∀ e ∈ ms, e.isMessageComplete = false)
    (hmerge : events.merge (pre ++ es) = ms ++ [.messageComplete keepAlive]) :
    ∃ evs s', Hears (httpParser t platform parseURL) s evs s' ∧
      events.merge (pre ++ told evs) = ms ++ [.messageComplete keepAlive] := by
  have hleft := h.ne_nil.1
  obtain ⟨content, offset, block', -, hread, hoffset, hbuf, hbytes, hne⟩ :=
    readContent_supply hsupply (List.append_ne_nil_of_left_ne_nil hleft extra)
  obtain ⟨x, hx, hle, hpaused, hcloser, hnext⟩ := call_completes hsound h hbuf
    (List.prefix_or_prefix_of_prefix (List.prefix_append _ block'.flatten)
      (hbytes ▸ List.prefix_append left extra))
  obtain ⟨-, hnparsed, herr, hevent⟩ := ValidParser.execute_eq hx
  have hearable : Hearable (httpParser t platform parseURL) s content offset
      { s with conn := { s.conn with incoming := block'.map .ok ++ more } } :=
    ⟨hread, hoffset, fun hlt => herr.trans (hpaused (hnparsed ▸ hlt))⟩
  have htold : ∀ evs, told (((httpParser t platform parseURL).execute s.parser
      (content.drop offset)).event :: evs) = x.event.toList ++ told evs := by
    intro evs
    rw [show ((httpParser t platform parseURL).execute s.parser (content.drop offset)).event =
      x.event from hevent]
    cases x.event <;> rfl
  obtain ⟨-, hmerged⟩ | ⟨hsound', es', hcomplete, hmerged⟩ := hnext
  · refine ⟨_, _, .cons hearable (.nil _), ?_⟩
    rw [htold, told_nil, List.append_nil, ← hmerge]
    exact events.merge_congr rfl hmerged
  · have hrest : events.merge (pre ++ (x.event.toList ++ es')) =
        ms ++ [.messageComplete keepAlive] := by
      rw [← hmerge]
      exact events.merge_congr rfl hmerged
    have hparser : (Session.taken (httpParser t platform parseURL)
        { s with conn := { s.conn with incoming := block'.map .ok ++ more } } content offset).parser.1 =
          x.state :=
      (parser_of_taken hx).trans
        (restart_of_incomplete t (incomplete_of_merge hms hrest hcomplete.ne_nil.2))
    have hpending : ∀ m, m = x.nparsed →
        Session.pending { s with unread := unreadFrom content (offset + m) } =
          (content.drop offset).drop x.nparsed := by
      rintro _ rfl
      rw [pending_unreadFrom, List.drop_drop]
    have hless : 2 * (left.drop x.nparsed).length + x.state.state.looks <
        2 * left.length + s.parser.1.state.looks := by
      have := x.state.state.looks_pos
      have := s.parser.1.state.looks_pos
      rw [List.length_drop]
      by_cases hzero : x.nparsed = 0
      · have := hcloser hzero
        omega
      · omega
    have hdrop : (content.drop offset).drop x.nparsed ++ block'.flatten =
        left.drop x.nparsed ++ extra := by
      rw [← List.drop_append_of_le_length hle, ← hbytes,
        List.drop_append_of_le_length (parseHttp_valid (.inl hsound) hx).2]
    let s₁ := Session.taken (httpParser t platform parseURL)
      { s with conn := { s.conn with incoming := block'.map .ok ++ more } } content offset
    have hcomplete₁ : Completes s₁.parser.1 (left.drop x.nparsed) es' q := hparser ▸ hcomplete
    have hsupply₁ : s₁.Supply block' more (left.drop x.nparsed ++ extra) :=
      ⟨hsupply.opened, rfl, by rw [← hdrop, ← hpending _ hnparsed]; rfl, hne⟩
    obtain ⟨evs, s', hhears, hall⟩ := hears_completes (pre ++ x.event.toList)
      (show s₁.parser.1.Sound from hparser ▸ hsound') hcomplete₁ hsupply₁ hms
      (by rw [List.append_assoc]; exact hrest)
    refine ⟨_, s', .cons hearable hhears, ?_⟩
    rw [htold, ← List.append_assoc]
    exact hall
termination_by 2 * left.length + s.parser.1.state.looks
decreasing_by
  rw [hparser]
  exact hless

/-- Bytes behind which no message is complete are listened to as they are read. -/
theorem listens_of_feeds {p : Parser} {s : Bytes} {es : List Event} (h : Feeds p s es q [])
    (hes : ∀ e ∈ es, e.isMessageComplete = false) : ∃ n, Listens t n p s es (.read q) := by
  generalize hr : ([] : Bytes) = r at h
  induction h with
  | refl p s => exact ⟨0, hr ▸ .done p⟩
  | @byte p q ch s r es mv hmove hlive hrest ih =>
    obtain ⟨n, hn⟩ := ih (fun e he => hes e (List.mem_append_right _ he)) hr
    rw [← restart_of_incomplete t fun e he =>
      hes e (List.mem_append_left _ (Option.mem_toList.mpr he))] at hn
    exact ⟨n + 1, .byte hmove hlive hn⟩

/-- So they are heard, up to the end of the connection. -/
theorem hears_reads {s : Session ValidParser} {stream : Bytes} {block : List Bytes} {es : List Event}
    (hsound : s.parser.1.Sound) (h : Reads s.parser.1 stream es q)
    (hes : ∀ e ∈ es, e.isMessageComplete = false) (hsupply : s.Supply block [] stream) :
    ∃ evs s', Hears (httpParser t platform parseURL) s evs s' ∧
      events.merge (told evs) = events.merge es ∧ s'.AtEnd := by
  obtain ⟨n, hlistens⟩ := listens_of_feeds (t := t) h hes
  obtain ⟨evs, s', hhears, -, ⟨hopened, hincoming, hbytes, -⟩, hmerge⟩ :=
    hears_listens hsound hsupply hlistens
  exact ⟨evs, s', hhears, hmerge, (List.append_eq_nil_iff.mp hbytes).1, hincoming, hopened⟩

end Hearing

/-- How a response ends. -/
inductive Ending where
  | coded (c : Coding)
  | untilClose (body : Bytes)

namespace Ending

def bytes : Ending → Bytes
  | coded c => c.bytes
  | untilClose body => body

def body : Ending → Bytes
  | coded c => c.body
  | untilClose body => body

def trailers : Ending → List (Bytes × Bytes)
  | coded c => c.trailers
  | untilClose _ => []

def framing : Ending → Framing
  | coded (.chunked _ _) => .chunked
  | coded _ => .contentLength
  | untilClose _ => .untilClose

end Ending

/-- A response as it is written. -/
structure WireResponse where
  httpMajor : Nat
  httpMinor : Nat
  status : Nat
  mesg : Bytes
  fields : List (Bytes × Bytes)
  ending : Ending

namespace WireResponse

/-- The start line and the header lines. -/
def lines (r : WireResponse) : Bytes :=
  statusLine r.httpMajor r.httpMinor r.status r.mesg ++ r.fields.flatMap headerLine

def bytes (r : WireResponse) : Bytes := r.lines ++ CRLF ++ r.ending.bytes

def head (r : WireResponse) : Head := (Head.start.fields r.fields).getD Head.start

/-- What the parser knows of the response when its headers are complete. -/
def parser (r : WireResponse) : Parser :=
  { (httpParserInit .response).withHead r.head with
    httpMajor := r.httpMajor
    httpMinor := r.httpMinor
    statusCode := r.status }

def message (r : WireResponse) : WireMessage where
  start := if r.mesg = [] then .statusOnly else .status r.mesg
  fields := r.fields
  keepAlive := r.parser.httpShouldKeepAlive
  httpMajor := r.httpMajor
  httpMinor := r.httpMinor
  method := none
  status := some r.status
  body := r.ending.body
  trailers := r.ending.trailers
  keepAliveEnd := match r.ending with
    | .coded c => r.parser.keepsEnd c
    | .untilClose _ => false

/-- The headers have said that the response ends in this way. -/
def Ends (r : WireResponse) : Ending → Prop
  | .coded c => r.parser.Codes c
  | .untilClose _ => r.head.flags.chunked = false ∧ r.head.contentLength = ullongMax ∧
      r.parser.httpMessageNeedsEof = true

/-- The status line and the headers are such as the parser takes, they fit into the room that it
has for them, and the headers say how the response ends. -/
structure WellFormed (r : WireResponse) : Prop where
  version : r.httpMajor ≤ 999 ∧ r.httpMinor ≤ 999
  status : r.status ≤ 999
  mesg : ∀ ch ∈ r.mesg, ch ≠ CR ∧ ch ≠ LF
  fields : ∀ f ∈ r.fields, Proper f
  head : Head.start.fields r.fields = some r.head
  upgrade : r.head.flags.upgrade = false
  ends : r.Ends r.ending
  room : r.lines.length + 3 ≤ httpMaxHeaderSize

variable {r : WireResponse}

/-- The parser behind the empty line. -/
theorem WellFormed.reads_head (h : r.WellFormed) : ∃ index hs,
    Reads (httpParserInit .response) (r.lines ++ [CR])
      (.messageBegin :: (statusEvents r.mesg ++ r.fields.flatMap lineEvents))
      { r.parser with
        index := index
        headerState := hs
        state := .headersAlmostDone
        nread := r.lines.length + 1 } := by
  have hroom := h.room
  rw [lines, List.length_append] at hroom
  obtain ⟨index₀, hline⟩ := reads_statusLine (p := httpParserInit .response) rfl h.version.1
    h.version.2 h.status h.mesg (by
      unfold Parser.Room
      show 0 + _ ≤ _
      omega)
  obtain ⟨index, hs, hheaders⟩ := reads_headers (p := { (httpParserInit .response).clear with
      index := index₀
      httpMajor := r.httpMajor
      httpMinor := r.httpMinor
      statusCode := r.status
      state := .headerFieldStart
      nread := 0 + (statusLine r.httpMajor r.httpMinor r.status r.mesg).length })
    (.inl rfl) h.fields h.head (by unfold Parser.Room; dsimp only; omega)
  refine ⟨index, hs, ?_⟩
  have hreads := Reads.trans hline hheaders
  rw [← List.append_assoc, Nat.zero_add, ← Nat.add_assoc] at hreads
  rw [lines, List.length_append]
  exact hreads

theorem start_statusEvents {tail : List Event} (h : Apart .body (events.merge tail)) :
    events.merge (statusEvents r.mesg ++ behind r.message tail) =
      startTold r.message.start ++ events.merge (behind r.message tail) := by
  rw [message, statusEvents]
  dsimp only
  split_ifs
  · rfl
  · exact merge_start h (by decide) r.mesg

theorem toldOpen_incomplete (m : WireMessage) :
    ∀ e ∈ toldOpen m, e.isMessageComplete = false := by
  have hfields : ∀ fs, ∀ e ∈ fieldsTold fs, e.isMessageComplete = false := by
    intro fs e he
    obtain ⟨f, -, hf⟩ := List.mem_flatMap.mp he
    simp only [List.mem_cons, List.not_mem_nil, or_false] at hf
    obtain rfl | rfl := hf <;> rfl
  intro e he
  simp only [toldOpen, List.mem_cons, List.mem_append] at he
  obtain rfl | he | he | rfl | he | he := he
  · rfl
  · cases hstart : m.start with
    | statusOnly => rw [hstart] at he; cases he
    | url | status => rw [hstart] at he; cases List.mem_singleton.mp he; rfl
  · exact hfields _ e he
  · rfl
  · unfold bodyTold at he
    split at he
    · cases he
    · cases List.mem_singleton.mp he
      rfl
  · exact hfields _ e he

theorem WellFormed.room_lines (h : r.WellFormed) {index : Nat} {hs : HeaderState} :
    Parser.Room { r.parser with
      index := index
      headerState := hs
      state := .headersAlmostDone
      nread := r.lines.length + 1 } 2 := h.room

theorem bytes_eq (r : WireResponse) : r.bytes = r.lines ++ [CR] ++ LF :: r.ending.bytes := by
  simp [bytes, CRLF, CR, LF]

/-- A response whose length is known is read to its last byte. -/
theorem WellFormed.completes (h : r.WellFormed) {c : Coding} (hending : r.ending = .coded c) :
    ∃ es q, Completes (httpParserInit .response) r.bytes es q ∧
      events.merge es = toldAll r.message := by
  obtain ⟨index, hs, hreads⟩ := h.reads_head
  obtain ⟨htrailing, hskip⟩ := fields_same h.head
  have hends := h.ends
  rw [hending] at hends
  obtain ⟨q, hrest⟩ := completes_coding (Feeds.sound hreads (init_sound .response)) rfl h.room_lines
    ⟨htrailing, h.upgrade, hskip, by rintro ⟨⟩⟩ (c := c) hends
  have happart := apart_ending r.message
  have htold := merge_told (m := r.message) happart (start_statusEvents happart)
  rw [merge_ending] at htold
  have hevents : behind r.message (Parsing.ending r.message) = r.fields.flatMap lineEvents ++
      (r.message.headersComplete :: (pieces .body c.body ++ (c.trailers.flatMap lineEvents ++
        [.messageComplete (r.parser.keepsEnd c)]))) := by
    unfold behind Parsing.ending message
    rw [hending]
    rfl
  rw [hevents] at htold
  rw [bytes_eq, hending]
  refine ⟨_, q, hreads.completes hrest, Eq.trans (congrArg events.merge ?_) htold⟩
  rw [List.cons_append, List.append_assoc]
  rfl

/-- A response that ends with the connection is read as far as it goes. -/
theorem WellFormed.reads (h : r.WellFormed) {body : Bytes} (hending : r.ending = .untilClose body) :
    ∃ es q, Reads (httpParserInit .response) r.bytes es q ∧
      events.merge es = toldOpen r.message := by
  obtain ⟨index, hs, hreads⟩ := h.reads_head
  obtain ⟨htrailing, hskip⟩ := fields_same h.head
  have hends := h.ends
  rw [hending] at hends
  obtain ⟨hchunked, hlength, heof⟩ := hends
  obtain ⟨q, hrest⟩ := reads_untilClose (Feeds.sound hreads (init_sound .response)) rfl h.room_lines
    ⟨htrailing, h.upgrade, hskip, by rintro ⟨⟩⟩ hchunked hlength heof body
  have happart : Apart .body (events.merge []) := apart_nil .body
  have htold := merge_told (m := r.message) happart (start_statusEvents happart)
  have hevents : behind r.message [] = r.fields.flatMap lineEvents ++
      (r.message.headersComplete :: pieces .body body) := by
    unfold behind message
    rw [hending, List.append_nil]
    rfl
  have hnone : fieldsTold r.message.trailers = [] := by
    unfold message
    rw [hending]
    rfl
  rw [hevents] at htold
  rw [bytes_eq, hending]
  refine ⟨_, q, hreads.trans hrest, ?_⟩
  rw [toldOpen, hnone]
  refine Eq.trans (congrArg events.merge ?_) htold
  rw [List.cons_append, List.append_assoc]
  rfl

variable {platform : Platform} {parseURL : Bytes → Bool → Option ParsedURL} {conn : Conn}
  {block : List Bytes} {more : List (Except LuaError Bytes)} {extra : Bytes}

/-- A response is delivered by every connection that brings its bytes; one that ends with the
connection, when nothing follows it. -/
theorem WellFormed.delivered (h : r.WellFormed) (hsupply : conn.Supply block more (r.bytes ++ extra))
    (hend : r.ending.framing = .untilClose → extra = [] ∧ more = []) :
    Delivered (httpParser .response platform parseURL) conn r.message r.ending.framing := by
  have hsession : (clientSession (httpParser .response platform parseURL) newClientHttpResponse
      conn).Supply block more (r.bytes ++ extra) :=
    ⟨hsupply.opened, hsupply.incoming, hsupply.bytes, hsupply.nonempty⟩
  cases hending : r.ending with
  | coded c =>
    obtain ⟨es, q, hcompletes, hmerge⟩ := h.completes hending
    obtain ⟨evs, s, hhears, htold⟩ := hears_completes [] (init_sound .response) hcompletes
      hsession (toldOpen_incomplete r.message) (hmerge.trans (toldAll_eq r.message))
    have htells := tells_of_merge (htold.trans (toldAll_eq r.message).symm)
    cases c with
    | none | length | chunked => exact ⟨evs, s, hhears, htells⟩
  | untilClose body =>
    obtain ⟨es, q, hreads, hmerge⟩ := h.reads hending
    obtain ⟨rfl, rfl⟩ := hend (by rw [hending]; rfl)
    rw [List.append_nil] at hsession
    have hincomplete : ∀ e ∈ es, e.isMessageComplete = false := by
      intro e he
      cases hcomplete : e.isMessageComplete with
      | false => rfl
      | true =>
        have hkind : events.kind e = none := by cases e <;> first | rfl | cases hcomplete
        have hmem := events.mem_merge hkind he
        rw [hmerge] at hmem
        exact hcomplete.symm.trans (toldOpen_incomplete r.message e hmem)
    obtain ⟨evs, s, hhears, htold, hatEnd⟩ :=
      hears_reads (init_sound .response) hreads hincomplete hsession
    exact ⟨evs, s, hhears, tellsOpen_of_merge (htold.trans hmerge), hatEnd⟩

theorem message_url (r : WireResponse) : r.message.url = none := by
  unfold message WireMessage.url
  dsimp only
  by_cases hmesg : r.mesg = []
  · rw [if_pos hmesg]
  · rw [if_neg hmesg]

/-- A response is read in full by a client, with its whole body, in whatever strings it comes: exactly
when its end is told and the body is neither left to be read piece by piece nor a form that decoding
in place changes. -/
theorem WellFormed.readsBody_iff (h : r.WellFormed)
    (hsupply : conn.Supply block more (r.bytes ++ extra))
    (hend : r.ending.framing = .untilClose → extra = [] ∧ more = []) :
    ReadsBody (httpParser .response platform parseURL) conn r.ending.body ↔
      r.ending.framing ≠ .untilClose ∧ r.message.ReadWhole ∧
        r.message.Decodes (httpParser .response platform parseURL) :=
  Http.readsBody_iff r.message_url (h.delivered hsupply hend)

end WireResponse

end Luaw.Parsing
