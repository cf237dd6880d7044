import Luaw.Http.Pipelining
import Luaw.Parsing.Cutting
import Luaw.Parsing.Telling

/-!
# Requests read by the parser

Every request that is well formed is read to its last byte, and the calls of the parser report its
content, wherever the stream is cut. So `Parse`, which the reading of requests rests on, holds of
the parser and of every such request.
-/

namespace Luaw.Parsing

open Http Lua Program

section Calls

variable {p q : Parser} {es : List Event}

/-- A run does not depend on the bytes behind the ones that it leaves. -/
theorem Feeds.strip {s r : Bytes} (h : Feeds p s es q r) {a b t : Bytes} (hs : s = a ++ t)
    (hr : r = b ++ t) (hb : b ≠ []) : Feeds p a es q b := by
  induction h generalizing a with
  | refl p s =>
    rw [List.append_cancel_right (hs.symm.trans hr)]
    exact .refl p b
  | @byte p q ch s r es mv hmove hlive hrest ih =>
    cases a with
    | nil =>
      have hle := hrest.suffix.length_le.trans (List.drop_suffix _ _).length_le
      rw [hs, hr, List.nil_append, List.length_append] at hle
      exact absurd (List.length_eq_zero_iff.mp (by omega)) hb
    | cons c a =>
      obtain ⟨rfl, rfl⟩ := List.cons.inj hs
      have hle := mv.nparsed_le ch
      refine .byte hmove hlive (ih ?_ hr)
      show (ch :: a ++ t).drop (mv.execution ch).nparsed = _
      rw [List.drop_append_of_le_length (by rw [List.length_cons]; omega)]

/-- A byte that is left is looked at by the parser that was there before, or once again. -/
theorem feeds_stay {s : Bytes} (hsound : p.Sound) (h : Feeds p s es q s) :
    p = q ∧ es = [] ∨ q.state.again = true := by
  have hzero : ∀ {n : Nat} {c : UInt8} {l : Bytes}, n ≤ 1 → c :: l <:+ (c :: l).drop n → n = 0 := by
    intro n c l hn hsuffix
    have hle := hsuffix.length_le
    rw [List.length_drop, List.length_cons] at hle
    omega
  cases h with
  | refl => exact .inl ⟨rfl, rfl⟩
  | @byte _ _ ch s _ es mv hmove hlive hrest =>
    right
    have hstay := hzero (mv.nparsed_le ch) hrest.suffix
    have hagain := again_of_stay hsound hmove hlive hstay
    rw [hstay, List.drop_zero] at hrest
    cases hrest with
    | refl => exact hagain
    | @byte _ _ _ _ _ es' mv' hmove' hlive' hrest' =>
      have htaken := taken_of_again hagain hmove' hlive'
      rw [htaken] at hrest'
      exact absurd (hzero le_rfl hrest'.suffix) Nat.one_ne_zero

theorem nparsed_notice (n : Notice) (q : Parser) (ch : UInt8) :
    (Move.execution ch (.notice n q true)).nparsed = 1 := rfl

/-- Before the end of the message the calls go through the bytes that complete it. -/
theorem reaches_complete {s l left : Bytes} {p₁ p₂ : Parser} {ch ch' : UInt8} {es' : List Event}
    (h : Feeds p s es p₁ (ch :: l)) (hes : Pieced es) (h' : Feeds p s es' p₂ (ch' :: left))
    (hmove : step p₂ ch' = some (.notice .messageComplete q true)) :
    ∃ more, Feeds p₁ (ch :: l) more p₂ (ch' :: left) ∧ es' = es ++ more := by
  obtain ⟨more, hmore, heq⟩ | ⟨more, hmore, rfl⟩ := h.compare h'
  · exact ⟨more, hmore, heq⟩
  · cases hmore with
    | refl => exact ⟨[], .refl _ _, by rw [List.append_nil, List.append_nil]⟩
    | @byte _ _ _ _ _ es₁ mv hmove' =>
      cases hmove.symm.trans hmove'
      cases hes (.messageComplete q.httpShouldKeepAlive) (by simp [Move.execution, Parser.event])

theorem Reports.live_eq {total : Nat} {ch : UInt8} {mv : Move} {x : Execution Parser}
    (h : Reports total es ch mv x) (hlive : mv.live = true) :
    x.state = (mv.execution ch).state ∧ (x.nparsed < total → x.errno = .paused) := by
  cases h with
  | failed hmv =>
    rw [hmv] at hlive
    cases hlive
  | called => exact ⟨rfl, fun _ => rfl⟩
  | silent => exact ⟨rfl, fun hlt => absurd hlt (Nat.lt_irrefl total)⟩

/-- A call on bytes of a message. -/
theorem call_completes {r buf : Bytes} (hsound : p.Sound) (hr : Completes p r es q) (hbuf : buf ≠ [])
    (hcut : buf <+: r ∨ r <+: buf) :
    ∃ x, parseHttp p buf = some x ∧ x.nparsed ≤ r.length ∧
      (x.nparsed < buf.length → x.errno = .paused) ∧
      (x.nparsed = 0 → x.state.state.looks < p.state.looks) ∧
      (r.drop x.nparsed = [] ∧ events.merge x.event.toList = events.merge es ∨
        x.state.Sound ∧ ∃ es', Completes x.state (r.drop x.nparsed) es' q ∧
          events.merge (x.event.toList ++ es') = events.merge es) := by
  obtain ⟨es₀, p₂, ch₂, hfeeds₂, hmove₂, rfl⟩ := hr
  obtain ⟨x, es₁, ch₁, left₁, mv₁, hx, ⟨p₁, hfeeds₁, hmove₁⟩, hes₁, hn, hreports⟩ :=
    parseHttp_reports hsound hbuf
  obtain ⟨t, t', hstream⟩ : ∃ t t', buf ++ t = r ++ t' := by
    obtain ⟨t, rfl⟩ | ⟨t, rfl⟩ := hcut
    · exact ⟨t, [], (List.append_nil _).symm⟩
    · exact ⟨[], t, List.append_nil _⟩
  have hboth := hfeeds₁.append t
  rw [hstream] at hboth
  obtain ⟨more, hmore, rfl⟩ : ∃ more, Feeds p₁ (ch₁ :: (left₁ ++ t)) more p₂ (ch₂ :: t') ∧
      es₀ = es₁ ++ more := reaches_complete hboth hes₁ (hfeeds₂.append t') hmove₂
  have hlive : mv₁.live = true := by
    cases hmore with
    | refl =>
      cases hmove₁.symm.trans hmove₂
      rfl
    | byte hmove hlive =>
      cases hmove₁.symm.trans hmove
      exact hlive
  obtain ⟨hstate, hpaused⟩ := hreports.live_eq hlive
  obtain ⟨-, hmerge⟩ := hreports.restart_eq (t := .request) hes₁ hlive
  have hsound₁ := hfeeds₁.sound hsound
  have hone := mv₁.nparsed_le ch₁
  have hlength := congrArg List.length hstream
  have hbehind := hmore.suffix.length_le
  have hbefore := hfeeds₁.suffix.length_le
  simp only [List.length_append, List.length_cons] at hlength hbehind hbefore
  have hle : x.nparsed ≤ r.length := by omega
  have hdrop : r.drop x.nparsed ++ t' = (ch₁ :: left₁).drop (mv₁.execution ch₁).nparsed ++ t := by
    rw [← List.drop_append_of_le_length hle, ← hstream,
      List.drop_append_of_le_length (by omega), drop_suffix hfeeds₁.suffix hn]
  refine ⟨x, hx, hle, hpaused, fun hzero => ?_, ?_⟩
  · -- nothing was taken, so that this is the first look at the byte
    obtain rfl : ch₁ :: left₁ = buf :=
      hfeeds₁.suffix.eq_of_length (by rw [List.length_cons]; omega)
    have hstay : (mv₁.execution ch₁).nparsed = 0 := by omega
    have hagain := again_of_stay hsound₁ hmove₁ hlive hstay
    have hfresh : p₁.state.again = false := by
      cases hp : p₁.state.again with
      | false => rfl
      | true => exact absurd hstay (by rw [taken_of_again hp hmove₁ hlive]; decide)
    obtain ⟨rfl, -⟩ | hp := feeds_stay hsound hfeeds₁
    · rw [hstate, State.looks, if_pos hagain, State.looks, if_neg (by simp [hfresh])]
      decide
    · rw [hfresh] at hp
      cases hp
  · have hmerged : events.merge x.event.toList =
        events.merge (es₁ ++ (mv₁.execution ch₁).event.toList) := by
      rw [← hmerge, Gluing.merge_merge]
    cases hmore with
    | refl =>
      left
      cases hmove₁.symm.trans hmove₂
      rw [nparsed_notice] at hn
      rw [List.length_append] at hlength
      refine ⟨List.drop_eq_nil_iff.mpr (by omega), ?_⟩
      rw [hmerged, List.append_nil]
      rfl
    | @byte _ _ _ _ _ es' mv hmove _ hrest =>
      right
      obtain rfl : mv₁ = mv := Option.some.inj (hmove₁.symm.trans hmove)
      rw [hstate]
      have hnext := hrest.strip (a := r.drop x.nparsed) (b := [ch₂]) (t := t') ?_ rfl
        (List.cons_ne_nil _ _)
      · have htaken : Feeds p₁ (ch₁ :: left₁) _ (mv₁.execution ch₁).state _ :=
          .byte hmove₁ hlive (.refl _ _)
        refine ⟨htaken.sound hsound₁, _, ⟨es', p₂, ch₂, hnext, hmove₂, rfl⟩, ?_⟩
        rw [events.merge_congr hmerged rfl]
        simp only [List.append_assoc]
      · rw [hdrop, ← List.drop_append_of_le_length (by rw [List.length_cons]; omega)]
        rfl

end Calls

theorem Completes.ne_nil {p q : Parser} {r : Bytes} {es : List Event} (h : Completes p r es q) :
    r ≠ [] ∧ es ≠ [] := by
  obtain ⟨es₀, p₁, ch, hfeeds, -, rfl⟩ := h
  refine ⟨?_, List.concat_ne_nil _ _⟩
  rintro rfl
  exact absurd (List.suffix_nil.mp hfeeds.suffix) (List.cons_ne_nil _ _)

section Decoding

variable {σ : Type} {P : HttpParser σ} {c : Content} {parsedURL : ParsedURL} {params : Params}
  {left : Option Bytes}

/-- The body is not a form. -/
def FormFree (headers : Headers) : Prop :=
  ∀ value, headers.get? (text "Content-Type") = some value → ∃ contentType,
    value = .single contentType ∧ lowerCase contentType ≠ text "application/x-www-form-urlencoded"

theorem formParams_free {headers : Headers} (h : FormFree headers) (body : Bytes)
    (params : Option Params) : formParams P headers body params = .ok (params, body) := by
  unfold formParams
  cases hget : headers.get? (text "Content-Type") with
  | none => rfl
  | some value =>
    obtain ⟨contentType, rfl, hform⟩ := h value hget
    exact if_neg hform

theorem parseRequestURL_parsed
    (hurl : P.parseURL c.url (upperCase c.method = text "CONNECT") = some parsedURL) :
    parseRequestURL P (some c.method) (some c.url) = .ok parsedURL := by
  have hsplit : P.parseURL c.url ((some c.method).any fun m => upperCase m = text "CONNECT") =
      some parsedURL := hurl
  rw [parseRequestURL, hsplit]

/-- A request whose query cannot be decoded. -/
theorem fullRequest_error
    (hurl : P.parseURL c.url (upperCase c.method = text "CONNECT") = some parsedURL) {e : LuaError}
    (hquery : queryParams P parsedURL = .error e) : ∃ e, c.fullRequest P = .error e := by
  cases hcall : callback P c.headersComplete c.headRequest with
  | error e => exact ⟨e, by rw [Content.fullRequest, hcall]; rfl⟩
  | ok req =>
    obtain ⟨parsedURL', params, left, hparse, hquery', -⟩ := (Content.head_of_call P hcall).query
    cases (parseRequestURL_parsed hurl).symm.trans hparse
    cases hquery.symm.trans hquery'

/-- A request without a form is read as it was sent, if its query is decoded and is not, where
decoding changes it, one of its strings. -/
theorem fullRequest_sent (hordinary : c.Ordinary)
    (hurl : P.parseURL c.url (upperCase c.method = text "CONNECT") = some parsedURL)
    (hquery : queryParams P parsedURL = .ok (params, left)) (hkeep : c.keepAlive = true)
    (hkeepEnd : c.keepAliveEnd = true) (hfree : FormFree (addFields (c.fields ++ c.trailers) []))
    (hapart : ∀ x ∈ queryOverwriting P parsedURL left, x.data ∉ c.strings P c.fields) :
    ∃ req, c.fullRequest P = .ok req ∧ c.AsSent P (c.fields ++ c.trailers) req ∧
      req.params = some params ∧ req.body = some c.body ∧ req.mesgDone = true ∧ req.EOF = false := by
  have hparse := parseRequestURL_parsed hurl
  have hx : c.message.queryOverwriting P = queryOverwriting P parsedURL left := by
    rw [WireMessage.queryOverwriting,
      show parseRequestURL P c.message.method c.message.url = .ok parsedURL from hparse]
    dsimp only
    rw [hquery]
  obtain ⟨head, hcall, -⟩ := @WireMessage.headersComplete_of σ P c.message _ _ _ hparse hquery
    newServerHttpRequest
  have hhead := (Content.head_asSent_iff hkeep hcall).mpr (hx ▸ hapart)
  have hlastFree : FormFree (c.message.lastHeaders P) := by
    have hfirst : (c.message.headHeaders P).Have true c.fields := by
      rw [← (Content.head_of_call P hcall).headers]
      exact hhead.message.headers
    have hlast : (c.message.lastHeaders P).get? (text "Content-Type") =
        (addFields (c.fields ++ c.trailers) []).get? (text "Content-Type") := by
      rw [get?_fields, WireMessage.lastHeaders]
      exact hfirst.trailers c.trailers c.keepAliveEnd _ (.inr (by decide))
    rw [FormFree, hlast]
    exact hfree
  have hform := formParams_free (P := P) hlastFree c.body
  obtain ⟨req, hobject⟩ := @WireMessage.object_of σ P c.message _ _ _ _ hparse hquery
    (hform (some params)) newServerHttpRequest
  have hrequest : c.request P = .ok req := hobject
  have hlast := Content.object_of_request P hrequest
  have hy : c.message.formOverwriting P = none :=
    (c.message.formOverwriting_eq P (hform none)).trans (overwriting_self P c.body)
  obtain ⟨parsedURL', params', left', formed, bodyLeft, hparse', hquery', hform', hparams, hbody⟩ :=
    hlast.form
  cases hparse.symm.trans hparse'
  cases hquery.symm.trans hquery'
  obtain ⟨rfl, rfl⟩ : some params = formed ∧ c.body = bodyLeft :=
    Prod.mk.inj (Except.ok.inj ((hform (some params)).symm.trans hform'))
  refine ⟨req, ?_, ?_, ?_, hbody, hlast.mesgDone, ?_⟩
  · rw [(hordinary.readFully hcall hhead).full, hrequest]
  · refine (Content.last_asSent_iff hkeep hkeepEnd hcall hrequest hhead).mpr ?_
    rw [hy]
    rintro y ⟨⟩
  · rw [hparams, hy, Option.map_some, Headers.after_none]
  · rw [hlast.EOF]
    exact congrArg (!·) (Bool.and_eq_true_iff.mpr ⟨hkeep, hkeepEnd⟩)

end Decoding

/-- The parser reads every request whose bytes complete a message, in the sense that the reading of
requests rests on. -/
def parseOf (platform : Platform) (parseURL : Bytes → Bool → Option ParsedURL) {r : Bytes}
    {c : Content} {es : List Event} {q : Parser} (h : Completes (httpParserInit .request) r es q)
    (hes : events.merge es = toldAll c.message) :
    Parse (httpParser .request platform parseURL) r c where
  At s left evs := left = [] ∧ events.merge evs = toldAll c.message ∨
    s.1.Sound ∧ ∃ es q, Completes s.1 left es q ∧ events.merge (evs ++ es) = toldAll c.message
  rank s := s.1.state.looks
  start := .inr ⟨init_sound .request, es, q, h, hes⟩
  step := by
    intro s left evs buf hat hleft hbuf hcut
    obtain ⟨hnil, -⟩ | ⟨hsound, es, q, hcomplete, hmerge⟩ := hat
    · exact absurd hnil hleft
    · obtain ⟨x, hx, hle, hpaused, hcloser, hnext⟩ := call_completes hsound hcomplete hbuf hcut
      obtain ⟨hstate, hnparsed, herrno, hevent⟩ := ValidParser.execute_eq hx
      have hgoal : (left.drop x.nparsed = [] ∧
            events.merge (evs ++ x.event.toList) = toldAll c.message ∨
          x.state.Sound ∧ ∃ es q, Completes x.state (left.drop x.nparsed) es q ∧
            events.merge (evs ++ x.event.toList ++ es) = toldAll c.message) ∧
          x.nparsed ≤ left.length ∧ (x.nparsed < buf.length → x.errno = .paused) ∧
          (x.nparsed = 0 → x.state.state.looks < s.1.state.looks) := by
        refine ⟨?_, hle, hpaused, hcloser⟩
        obtain ⟨hnil, hmerged⟩ | ⟨hsound', es', hcomplete', hmerged⟩ := hnext
        · exact .inl ⟨hnil, by rw [← hmerge]; exact events.merge_congr rfl hmerged⟩
        · refine .inr ⟨hsound', es', q, hcomplete', ?_⟩
          rw [← hmerge, List.append_assoc]
          exact events.merge_congr rfl hmerged
      rwa [← hstate, ← hnparsed, ← herrno, ← hevent] at hgoal
  reported := by
    intro s left evs hat
    obtain ⟨rfl, hmerge⟩ | ⟨-, es, q, hcomplete, hmerge⟩ := hat
    · exact ⟨[], by rw [List.append_nil]; exact reports_of_tells (tells_of_merge hmerge), by simp⟩
    · exact ⟨es, reports_of_tells (tells_of_merge hmerge),
        iff_of_false hcomplete.ne_nil.1 hcomplete.ne_nil.2⟩

/-- A request as it is written. -/
structure WireRequest where
  method : Method
  url : Bytes
  httpMajor : Nat
  httpMinor : Nat
  fields : List (Bytes × Bytes)
  coding : Coding

/-- What the headers have said before the first one of them. -/
def Head.start : Head := ⟨.zero, ullongMax⟩

namespace WireRequest

/-- The start line and the header lines. -/
def lines (r : WireRequest) : Bytes :=
  requestLine r.method r.url r.httpMajor r.httpMinor ++ r.fields.flatMap headerLine

def bytes (r : WireRequest) : Bytes := r.lines ++ CRLF ++ r.coding.bytes

def head (r : WireRequest) : Head := (Head.start.fields r.fields).getD Head.start

/-- What the parser knows of the request when its headers are complete. -/
def parser (r : WireRequest) : Parser :=
  { (httpParserInit .request).withHead r.head with
    method := r.method
    httpMajor := r.httpMajor
    httpMinor := r.httpMinor }

def content (r : WireRequest) : Content where
  method := r.method.str
  url := r.url
  httpMajor := r.httpMajor
  httpMinor := r.httpMinor
  fields := r.fields
  body := r.coding.body
  trailers := r.coding.trailers
  keepAlive := r.parser.httpShouldKeepAlive
  keepAliveEnd := r.parser.keepsEnd r.coding

/-- The headers and the version decide whether the connection is to be kept alive. -/
theorem keepAlive_eq (r : WireRequest) : r.content.keepAlive =
    if 0 < r.httpMajor ∧ 0 < r.httpMinor then !r.head.flags.connectionClose
    else r.head.flags.connectionKeepAlive := by
  have heof : r.parser.httpMessageNeedsEof = false := rfl
  show r.parser.httpShouldKeepAlive = _
  unfold Parser.httpShouldKeepAlive
  rw [heof]
  show (if 0 < r.httpMajor ∧ 0 < r.httpMinor then
      if r.head.flags.connectionClose = true then false else !false
    else if (!r.head.flags.connectionKeepAlive) = true then false else !false) = _
  split
  · cases r.head.flags.connectionClose <;> rfl
  · cases r.head.flags.connectionKeepAlive <;> rfl

/-- The URL, the version and the headers are such as the parser takes, they fit into the room that
it has for them, and the headers say how the body is written. -/
structure WellFormed (r : WireRequest) : Prop where
  url : validUrl r.method r.url = true
  major : 1 ≤ r.httpMajor ∧ r.httpMajor ≤ 999
  minor : r.httpMinor ≤ 999
  fields : ∀ f ∈ r.fields, Proper f
  head : Head.start.fields r.fields = some r.head
  upgrade : r.head.flags.upgrade = false
  connect : r.method ≠ .connect
  coding : r.parser.Codes r.coding
  room : r.lines.length + 3 ≤ httpMaxHeaderSize

variable {r : WireRequest}

/-- A request is read to its last byte. -/
theorem WellFormed.completes (h : r.WellFormed) :
    ∃ es q, Completes (httpParserInit .request) r.bytes es q ∧
      events.merge es = toldAll r.content.message := by
  have hroom := h.room
  rw [lines, List.length_append] at hroom
  have hline := reads_requestLine (p := httpParserInit .request) rfl h.url h.major h.minor (by
    unfold Parser.Room
    show 0 + _ ≤ _
    omega)
  obtain ⟨index, hs, hheaders⟩ := reads_headers (p := { (httpParserInit .request).clear with
      method := r.method
      index := r.method.str.length + 1
      httpMajor := r.httpMajor
      httpMinor := r.httpMinor
      state := .headerFieldStart
      nread := 0 + (requestLine r.method r.url r.httpMajor r.httpMinor).length })
    (.inl rfl) h.fields h.head (by unfold Parser.Room; dsimp only; omega)
  have hreads := Reads.trans hline hheaders
  have hsound := Feeds.sound hreads (init_sound .request)
  obtain ⟨htrailing, hskip⟩ := fields_same h.head
  obtain ⟨q, hrest⟩ := completes_coding hsound rfl (by unfold Parser.Room; dsimp only; omega)
    ⟨htrailing, h.upgrade, hskip, h.connect⟩ (c := r.coding) h.coding
  have hall := hreads.completes hrest
  have hbytes : r.bytes = requestLine r.method r.url r.httpMajor r.httpMinor ++
      (r.fields.flatMap headerLine ++ [CR]) ++ LF :: r.coding.bytes := by
    simp [bytes, lines, CRLF, CR, LF]
  rw [hbytes]
  refine ⟨_, q, hall, ?_⟩
  have happart := apart_ending r.content.message
  have htold := merge_told (m := r.content.message) happart
    (merge_start happart (f := .url) (by decide) r.url)
  rw [merge_ending] at htold
  refine Eq.trans (congrArg events.merge ?_) htold
  rw [List.append_assoc]
  rfl

theorem WellFormed.parse (h : r.WellFormed) (platform : Platform)
    (parseURL : Bytes → Bool → Option ParsedURL) :
    Nonempty (Parse (httpParser .request platform parseURL) r.bytes r.content) := by
  obtain ⟨es, q, hcompletes, hes⟩ := h.completes
  exact ⟨parseOf platform parseURL hcompletes hes⟩

end WireRequest

end Luaw.Parsing
