import Luaw.Foundations.ChunkedCoding
import Luaw.Parsing.HeaderLines
import Mathlib.Data.Nat.Digits.Lemmas

/-!
# Reading to the end of a message

`Completes p s es q`: the last one of the bytes completes the message that the parser is in. How
the body is coded decides what the bytes behind the headers are.
-/

namespace Luaw.Parsing

open Http Lua

/-- The message ends with the last one of the bytes; the parser is `q` when it reports that. -/
def Completes (p : Parser) (s : Bytes) (es : List Event) (q : Parser) : Prop :=
  ∃ es₀ p₁ ch, Feeds p s es₀ p₁ [ch] ∧ step p₁ ch = some (.notice .messageComplete q true) ∧
    es = es₀ ++ [q.event (.notice .messageComplete)]

theorem Feeds.completes {p q r : Parser} {s t : Bytes} {es es' : List Event} (h : Feeds p s es q t)
    (h' : Completes q t es' r) : Completes p s (es ++ es') r := by
  obtain ⟨es₀, p₁, ch, hfeeds, hmove, rfl⟩ := h'
  exact ⟨es ++ es₀, p₁, ch, h.trans hfeeds, hmove, (List.append_assoc _ _ _).symm⟩

theorem Reads.completes {p q r : Parser} {s t : Bytes} {es es' : List Event} (h : Reads p s es q)
    (h' : Completes q t es' r) : Completes p (s ++ t) (es ++ es') r := (h.feeds t).completes h'

theorem bodyPieces_eq (bs : Bytes) : bodyPieces bs = pieces .body bs := List.map_map

theorem pieces_append (f : Field) (s t : Bytes) : pieces f (s ++ t) = pieces f s ++ pieces f t :=
  List.map_append

/-- A body of known length. -/
theorem completes_identity {p : Parser} (h : p.Sound) (hs : p.state = .bodyIdentity) {body : Bytes}
    (hlength : p.contentLength = body.length) :
    ∃ q, Completes p body (pieces .body body ++
      [Event.messageComplete { p with contentLength := 0 }.httpShouldKeepAlive]) q := by
  have hbody : p.state.takesBody = true := by rw [hs]; rfl
  have hpos := length_pos h (.inr hs)
  obtain rfl | ⟨bs, ch, rfl⟩ := List.eq_nil_or_concat body
  · rw [hlength] at hpos
    cases hpos
  · rw [List.concat_eq_append, List.length_append, List.length_singleton] at hlength
    rw [List.concat_eq_append]
    obtain ⟨hq, hstate, hnext, hleft⟩ := ate_next h hbody (n := bs.length) (.inr hlength.ge)
    have hfeeds := @feeds_body p h hbody bs (.inr (by omega)) (fun hend => by omega) [ch]
    have hlast : (p.ate bs.length).atLast = true := by
      rw [Parser.atLast, hstate, hs, hleft (by rw [hs]; rintro ⟨⟩), hlength, Nat.add_sub_cancel_left]
      rfl
    have hmove := step_body hq (hstate ▸ hbody) ch
    rw [hnext, hlast] at hmove
    have hate : p.ate (bs.length + 1) = { p with contentLength := 0, state := .messageDone } := by
      rw [Parser.ate, hs]
      exact if_pos hlength
    rw [hate] at hmove
    have hend : Feeds (p.ate bs.length) [ch] [.body [ch]]
        { p with contentLength := 0, state := .messageDone } [ch] :=
      .byte hmove rfl (.refl _ _)
    have hdone : ∀ q : Parser, q.state = .messageDone →
        step q ch = some (.notice .messageComplete { q with state := q.newMessage } true) := by
      intro q hq
      have hcount : q.countByte = q := by
        rw [Parser.countByte, if_neg (by rw [hq]; exact Bool.false_ne_true)]
      rw [step, if_neg (by rintro ⟨hheader, -⟩; rw [hq] at hheader; cases hheader), hcount]
      unfold byte
      rw [hq]
      rfl
    refine ⟨_, _, _, ch, hfeeds.trans hend, hdone _ rfl, ?_⟩
    rw [bodyPieces_eq, pieces_append]
    rfl

section Chunks

theorem hex_of_lt {n : Nat} (h : n < 16) : ChunkedCoding.hex n = [ChunkedCoding.digit n] := by
  interval_cases n <;> rfl

theorem hex_of_le {n : Nat} (h : 16 ≤ n) :
    ChunkedCoding.hex n = ChunkedCoding.hex (n / 16) ++ [ChunkedCoding.digit (n % 16)] := by
  have hpos : 0 < n / 16 := Nat.div_pos h (by decide)
  rw [ChunkedCoding.hex, if_neg (by omega), Nat.digits_def' (by decide) (by omega), List.map_cons,
    List.reverse_cons, ChunkedCoding.hex, if_neg hpos.ne']

theorem unhex_digit {d : Nat} (h : d < 16) : unhex (ChunkedCoding.digit d) = some d := by
  interval_cases d <;> decide

theorem digit_ne_CR {d : Nat} (h : d < 16) : ChunkedCoding.digit d ≠ CR := by
  interval_cases d <;> decide

/-- A size that the parser reads without an overflow. -/
def SizeFits (n : Nat) : Prop := n / 16 ≤ (ullongMax - 16) / 16

theorem length_hex {n : Nat} (h : SizeFits n) : (ChunkedCoding.hex n).length ≤ 16 := by
  rw [ChunkedCoding.hex]
  split
  · decide
  · rw [List.length_reverse, List.length_map, Nat.digits_length_le_iff (by decide)]
    unfold SizeFits at h
    simp only [ullongMax] at h
    omega

variable {p : Parser}

/-- The size of a chunk. -/
theorem reads_size (hs : p.state = .chunkSizeStart) (hchunked : p.flags.chunked = true)
    (hnread : p.nread = 0) {n : Nat} (hn : SizeFits n) :
    Reads p (ChunkedCoding.hex n) [] { p with
      contentLength := n
      state := .chunkSize
      nread := (ChunkedCoding.hex n).length } := by
  induction n using Nat.strong_induction_on with
  | _ n ih =>
    by_cases hsmall : n < 16
    · rw [hex_of_lt hsmall]
      refine reads_next hs rfl (by rw [Parser.Room, hnread]; decide) ?_ rfl
      have hbyte : byte { p with nread := p.nread + 1 } (ChunkedCoding.digit n) 1 =
          chunkSizeStart { p with nread := p.nread + 1 } (ChunkedCoding.digit n) := by
        unfold byte
        dsimp only
        rw [hs]
      rw [hbyte, chunkSizeStart, if_neg (by simp [hnread, hchunked]), unhex_digit hsmall]
      dsimp only
      rw [hnread]
      rfl
    · have hle : 16 ≤ n := Nat.le_of_not_lt hsmall
      have hmod : n % 16 < 16 := Nat.mod_lt n (by decide)
      have hlength := length_hex hn
      rw [hex_of_le hle] at hlength ⊢
      rw [List.length_append, List.length_singleton] at hlength ⊢
      have hfront := ih (n / 16) (by omega) (by unfold SizeFits at hn ⊢; omega)
      refine hfront.trans (reads_next rfl rfl ?_ ?_ rfl)
      · show (ChunkedCoding.hex (n / 16)).length + 1 ≤ 80 * 1024
        omega
      · show chunkSize _ _ = _
        rw [chunkSize, if_neg (by simp [hchunked]), if_neg (digit_ne_CR hmod), unhex_digit hmod]
        dsimp only
        rw [if_neg (Nat.not_lt.mpr hn), Nat.div_add_mod' n 16]

/-- The size line of a chunk. -/
theorem reads_sizeLine (hs : p.state = .chunkSizeStart) (hchunked : p.flags.chunked = true)
    (hnread : p.nread = 0) {n : Nat} (hn : SizeFits n) :
    Reads p (ChunkedCoding.hex n ++ CRLF) []
      (if n = 0 then
        { p with contentLength := 0, flags.trailing := true, state := .headerFieldStart, nread := 0 }
      else { p with contentLength := n, state := .chunkData, nread := 0 }) := by
  have hlength := length_hex hn
  have hcr : Reads { p with
        contentLength := n
        state := .chunkSize
        nread := (ChunkedCoding.hex n).length } [CR] []
      { p with
        contentLength := n
        state := .chunkSizeAlmostDone
        nread := (ChunkedCoding.hex n).length + 1 } := by
    refine reads_next rfl rfl ?_ ?_ rfl
    · show _ + 1 ≤ 80 * 1024
      dsimp only
      omega
    · show chunkSize _ CR = _
      rw [chunkSize, if_neg (by simp [hchunked]), if_pos rfl]
  have hlf : Reads { p with
        contentLength := n
        state := .chunkSizeAlmostDone
        nread := (ChunkedCoding.hex n).length + 1 } [LF] []
      (if n = 0 then
        { p with contentLength := 0, flags.trailing := true, state := .headerFieldStart, nread := 0 }
      else { p with contentLength := n, state := .chunkData, nread := 0 }) := by
    refine reads_next rfl rfl ?_ ?_ ?_
    · show _ + 1 ≤ 80 * 1024
      dsimp only
      omega
    · show chunkSizeAlmostDone _ LF = _
      rw [chunkSizeAlmostDone, if_neg (by simp [hchunked]), if_neg fun hne => hne rfl]
      dsimp only
      by_cases hn : n = 0
      · rw [if_pos hn, if_pos hn, hn]
      · rw [if_neg hn, if_neg hn]
    · split <;> rfl
  exact (reads_size hs hchunked hnread hn).trans (hcr.trans hlf)

/-- A byte that is not counted. -/
theorem reads_uncounted {q : Parser} {ch : UInt8} (hheader : p.state.parsingHeader = false)
    (hmove : (byte p ch 1).move p.state = some (.on q false)) (hq : q.state.field = none) :
    Reads p [ch] [] q := by
  have hcount : p.countByte = p := by
    rw [Parser.countByte, if_neg (by rw [hheader]; exact Bool.false_ne_true)]
  have hstep : step p ch = some (.on q false) := by
    rw [step, if_neg, hcount, hmove]
    rintro ⟨hyes, -⟩
    rw [hheader] at hyes
    cases hyes
  exact .next hstep hq

/-- A chunk with data. -/
theorem reads_chunk (h : p.Sound) (hs : p.state = .chunkSizeStart) (hnread : p.nread = 0)
    {data : Bytes} (hdata : data ≠ []) (hn : SizeFits data.length) :
    Reads p (ChunkedCoding.chunk data) (pieces .body data) { p with contentLength := 0 } := by
  have hchunked : p.flags.chunked = true := by
    have hexpects := h.2
    rw [Parser.Expects, hs] at hexpects
    exact hexpects.1
  have hpos : data.length ≠ 0 := fun hzero => hdata (List.length_eq_zero_iff.mp hzero)
  have hsize := reads_sizeLine hs hchunked hnread hn
  rw [if_neg hpos] at hsize
  have hsound := Feeds.sound hsize h
  have hbody := @feeds_body _ hsound rfl data (.inr le_rfl) (by rintro ⟨⟨⟩, -⟩) []
  rw [List.append_nil, bodyPieces_eq] at hbody
  have hate : Parser.ate { p with contentLength := data.length, state := .chunkData, nread := 0 }
      data.length = { p with contentLength := 0, state := .chunkDataAlmostDone, nread := 0 } := by
    rw [Parser.ate]
    exact if_pos rfl
  rw [hate] at hbody
  have hcr : Reads { p with contentLength := 0, state := .chunkDataAlmostDone, nread := 0 } [CR] []
      { p with contentLength := 0, state := .chunkDataDone, nread := 0 } := by
    refine reads_uncounted rfl ?_ rfl
    show (chunkDataAlmostDone _ CR).move _ = _
    rw [chunkDataAlmostDone, if_neg (by simp [hchunked]), if_neg fun hne => hne rfl]
    rfl
  have hlf : Reads { p with contentLength := 0, state := .chunkDataDone, nread := 0 } [LF] []
      { p with contentLength := 0 } := by
    refine reads_uncounted rfl ?_ (by rw [hs]; rfl)
    show (chunkDataDone _ LF).move _ = _
    rw [chunkDataDone, if_neg (by simp [hchunked]), if_neg fun hne => hne rfl, hs, hnread]
    rfl
  have hall := hsize.trans (Reads.trans hbody (hcr.trans hlf))
  rw [List.nil_append, List.append_nil, List.append_nil] at hall
  have hbytes : ChunkedCoding.chunk data =
      ChunkedCoding.hex data.length ++ CRLF ++ (data ++ ([CR] ++ [LF])) := by
    simp [ChunkedCoding.chunk, CRLF, CR, LF]
  rw [hbytes]
  exact hall

theorem reads_chunks {chunks : List Bytes} (h : p.Sound) (hs : p.state = .chunkSizeStart)
    (hnread : p.nread = 0) (hchunks : ∀ data ∈ chunks, data ≠ [] ∧ SizeFits data.length) :
    ∃ n, Reads p (chunks.flatMap ChunkedCoding.chunk) (pieces .body chunks.flatten)
      { p with contentLength := n } := by
  induction chunks generalizing p with
  | nil => exact ⟨p.contentLength, .nil p⟩
  | cons data chunks ih =>
    obtain ⟨hdata, hn⟩ := hchunks data List.mem_cons_self
    have hfirst := reads_chunk h hs hnread hdata hn
    obtain ⟨n, hrest⟩ := ih (Feeds.sound hfirst h) hs hnread fun data' hdata' =>
      hchunks data' (List.mem_cons_of_mem data hdata')
    refine ⟨n, ?_⟩
    rw [List.flatMap_cons, List.flatten_cons, pieces_append]
    exact hfirst.trans hrest

/-- What the trailers of a chunked body add to. -/
def Head.trailing (h : Head) : Head := ⟨{ h.flags with trailing := true }, 0⟩

/-- No header says that the trailers have come, or that the body is to be skipped. -/
theorem field_same {h h' : Head} {f : Bytes × Bytes} (hfield : h.field f = some h') :
    h'.flags.trailing = h.flags.trailing ∧ h'.flags.skipBody = h.flags.skipBody := by
  have hmark : ∀ hs, (h.mark hs).flags.trailing = h.flags.trailing ∧
      (h.mark hs).flags.skipBody = h.flags.skipBody := by
    intro hs
    cases hs <;> exact ⟨rfl, rfl⟩
  unfold Head.field Head.value at hfield
  split at hfield
  · cases hfield
    exact ⟨rfl, rfl⟩
  · split at hfield
    · cases hfield
      exact ⟨rfl, rfl⟩
    · obtain ⟨n, -, rfl⟩ := Option.map_eq_some_iff.mp hfield
      exact ⟨rfl, rfl⟩
    · cases hfield
      exact hmark _

theorem fields_same {fs : List (Bytes × Bytes)} {h h' : Head} (hfields : h.fields fs = some h') :
    h'.flags.trailing = h.flags.trailing ∧ h'.flags.skipBody = h.flags.skipBody := by
  induction fs generalizing h with
  | nil =>
    cases hfields
    exact ⟨rfl, rfl⟩
  | cons f fs ih =>
    obtain ⟨h₁, hfirst, hrest⟩ := Head.fields_cons hfields
    rw [(ih hrest).1, (ih hrest).2]
    exact field_same hfirst

theorem headersAlmostDone_trailing {q : Parser} (h : q.flags.trailing = true) :
    headersAlmostDone q LF = .notify .messageComplete { q with state := q.newMessage } := by
  rw [headersAlmostDone, if_neg fun hne => hne rfl, if_pos h]

/-- The bytes of a chunked body. -/
def chunkedBytes (chunks : List Bytes) (trailers : List (Bytes × Bytes)) : Bytes :=
  chunks.flatMap ChunkedCoding.chunk ++ (text "0\r\n" ++ (trailers.flatMap headerLine ++ CRLF))

/-- A chunked body. -/
theorem completes_chunked (h : p.Sound) (hs : p.state = .chunkSizeStart) (hnread : p.nread = 0)
    {chunks : List Bytes} (hchunks : ∀ data ∈ chunks, data ≠ [] ∧ SizeFits data.length)
    {trailers : List (Bytes × Bytes)} (htrailers : ∀ f ∈ trailers, Proper f) (hd : Head)
    (hhead : p.head.trailing.fields trailers = some hd)
    (hroom : (trailers.flatMap headerLine).length + 2 ≤ httpMaxHeaderSize) :
    ∃ q : Parser, Completes p (chunkedBytes chunks trailers)
        (pieces .body chunks.flatten ++ (trailers.flatMap lineEvents ++
          [.messageComplete (p.withHead hd).httpShouldKeepAlive])) q := by
  obtain ⟨n, hdata⟩ := reads_chunks h hs hnread hchunks
  have hchunked : p.flags.chunked = true := by
    have hexpects := h.2
    rw [Parser.Expects, hs] at hexpects
    exact hexpects.1
  have hzero := reads_sizeLine (p := { p with contentLength := n }) hs hchunked hnread
    (n := 0) (by unfold SizeFits; decide)
  rw [if_pos rfl] at hzero
  obtain ⟨index, hs', hlines⟩ := reads_headers (p := { p with
      contentLength := 0
      flags.trailing := true
      state := .headerFieldStart
      nread := 0 }) (.inl rfl) htrailers hhead (by unfold Parser.Room; dsimp only; omega)
  obtain ⟨q, hlast⟩ : ∃ q, Completes { p.withHead hd with
        index := index
        headerState := hs'
        state := .headersAlmostDone
        nread := 0 + ((trailers.flatMap headerLine).length + 1) } [LF]
      [.messageComplete (p.withHead hd).httpShouldKeepAlive] q := by
    refine ⟨{ p.withHead hd with
        index := index
        headerState := hs'
        state := (p.withHead hd).newMessage
        nread := 0 + ((trailers.flatMap headerLine).length + 1) + 1 }, [], _, LF, .refl _ _, ?_, rfl⟩
    rw [step_header rfl (by unfold Parser.Room; dsimp only; omega)]
    show (headersAlmostDone _ LF).move _ = _
    have htrailing : hd.flags.trailing = true := (fields_same hhead).1
    exact congrArg (Action.move _) (headersAlmostDone_trailing htrailing)
  have hall := hdata.completes (hzero.completes (hlines.completes hlast))
  refine ⟨q, ?_⟩
  have hbytes : chunkedBytes chunks trailers = chunks.flatMap ChunkedCoding.chunk ++
      (ChunkedCoding.hex 0 ++ CRLF ++ (trailers.flatMap headerLine ++ [CR] ++ [LF])) := by
    simp [chunkedBytes, CRLF, CR, LF]
    rfl
  rw [hbytes]
  exact hall

end Chunks

section Codings

/-- How the body of a message is written. -/
inductive Coding where
  | none
  | length (body : Bytes)
  | chunked (chunks : List Bytes) (trailers : List (Bytes × Bytes))

namespace Coding

def bytes : Coding → Bytes
  | none => []
  | length body => body
  | chunked chunks trailers => chunkedBytes chunks trailers

def body : Coding → Bytes
  | none => []
  | length body => body
  | chunked chunks _ => chunks.flatten

def trailers : Coding → List (Bytes × Bytes)
  | none | length _ => []
  | chunked _ trailers => trailers

end Coding

/-- The headers have said that the body is written in this way. -/
def Parser.Codes (p : Parser) : Coding → Prop
  | .none => p.flags.chunked = false ∧
      (p.contentLength = 0 ∨ p.contentLength = ullongMax ∧ p.httpMessageNeedsEof = false)
  | .length body =>
    p.flags.chunked = false ∧ body ≠ [] ∧ p.contentLength = body.length ∧ body.length < ullongMax
  | .chunked chunks trailers => p.flags.chunked = true ∧
      (∀ data ∈ chunks, data ≠ [] ∧ SizeFits data.length) ∧ (∀ f ∈ trailers, Proper f) ∧
      (p.head.trailing.fields trailers).isSome = true ∧
      (trailers.flatMap headerLine).length + 2 ≤ httpMaxHeaderSize

/-- Whether the connection is to be kept alive, at the end of the message. -/
def Parser.keepsEnd (p : Parser) : Coding → Bool
  | .none | .length _ => p.httpShouldKeepAlive
  | .chunked _ trailers =>
    (p.head.trailing.fields trailers).any fun h => (p.withHead h).httpShouldKeepAlive

/-- Nothing but the coding decides where the message ends. -/
structure Parser.Plain (p : Parser) : Prop where
  trailing : p.flags.trailing = false
  upgrade : p.flags.upgrade = false
  skipBody : p.flags.skipBody = false
  method : p.method ≠ .connect

variable {p : Parser}

/-- The parser when the headers are complete. -/
def Parser.headed (p : Parser) : Parser :=
  { p with state := .headersDone, nread := p.nread + 1, upgrade := false }

/-- The headers are complete at the LF of the empty line, which is looked at again. -/
theorem feeds_headed (hs : p.state = .headersAlmostDone) (hroom : p.Room 2) (hplain : p.Plain)
    (t : Bytes) :
    Feeds p (LF :: t) [p.event (.notice .headersComplete)] p.headed (LF :: t) := by
  have hmove : step p LF = some (.notice .headersComplete p.headed false) := by
    rw [step_header (by rw [hs]; rfl) (by unfold Parser.Room at hroom ⊢; omega)]
    have hbyte : byte { p with nread := p.nread + 1 } LF 1 =
        headersAlmostDone { p with nread := p.nread + 1 } LF := by
      unfold byte
      dsimp only
      rw [hs]
    rw [hbyte, headersAlmostDone, if_neg fun hne => hne rfl,
      if_neg (by rw [hplain.trailing]; exact Bool.false_ne_true)]
    dsimp only
    rw [hplain.upgrade, decide_eq_false hplain.method]
    rfl
  exact .byte hmove rfl (.refl _ _)

/-- What the LF of the empty line leads to. -/
theorem step_headed (hroom : p.Room 2) :
    step p.headed LF = (headersDone { p.headed with nread := p.nread + 2 } LF).move .headersDone :=
  step_header rfl hroom LF

theorem headersDone_body (hplain : p.Plain) :
    headersDone { p.headed with nread := p.nread + 2 } LF =
      if p.flags.chunked then .next { p.headed with nread := 0, state := .chunkSizeStart }
      else if p.contentLength = 0 then
        .notify .messageComplete { p.headed with nread := 0, state := p.newMessage }
      else if p.contentLength ≠ ullongMax then
        .next { p.headed with nread := 0, state := .bodyIdentity }
      else if p.type = .request ∨ !p.httpMessageNeedsEof then
        .notify .messageComplete { p.headed with nread := 0, state := p.newMessage }
      else .next { p.headed with nread := 0, state := .bodyIdentityEof } := by
  have hskip : p.headed.flags.skipBody = false := hplain.skipBody
  rw [headersDone, if_neg fun hne => hne rfl]
  dsimp only
  rw [if_neg (show ¬p.headed.upgrade = true from Bool.false_ne_true), if_neg (by simp [hskip])]
  rfl

theorem completes_none (hs : p.state = .headersAlmostDone) (hroom : p.Room 2) (hplain : p.Plain)
    (hchunked : p.flags.chunked = false)
    (hlength : p.contentLength = 0 ∨ p.contentLength = ullongMax ∧ p.httpMessageNeedsEof = false) :
    ∃ q, Completes p [LF] [p.event (.notice .headersComplete),
      .messageComplete p.httpShouldKeepAlive] q := by
  have hmove : step p.headed LF = some (.notice .messageComplete
      { p.headed with nread := 0, state := p.newMessage } true) := by
    rw [step_headed hroom, headersDone_body hplain, if_neg (by simp [hchunked])]
    obtain hzero | ⟨hmax, heof⟩ := hlength
    · rw [if_pos hzero]
      rfl
    · rw [if_neg (by rw [hmax]; decide), if_neg (not_not.mpr hmax), if_pos (.inr (by simp [heof]))]
      rfl
  exact ⟨_, (feeds_headed hs hroom hplain []).completes ⟨[], _, LF, .refl _ _, hmove, rfl⟩⟩

/-- A body that is not empty leads to the state that takes it. -/
theorem reads_headed {s : State} (hs : p.state = .headersAlmostDone) (hroom : p.Room 2)
    (hplain : p.Plain) (hfield : s.field = none)
    (hbyte : headersDone { p.headed with nread := p.nread + 2 } LF =
      .next { p.headed with nread := 0, state := s }) :
    Reads p [LF] [p.event (.notice .headersComplete)] { p.headed with nread := 0, state := s } := by
  have hmove : step p.headed LF = some (.on { p.headed with nread := 0, state := s } false) := by
    rw [step_headed hroom, hbyte]
    rfl
  have hall := (feeds_headed hs hroom hplain []).trans (Reads.next hmove hfield)
  rwa [List.append_nil] at hall

/-- What follows the headers, when they have said how the body is written. -/
theorem completes_coding (h : p.Sound) (hs : p.state = .headersAlmostDone) (hroom : p.Room 2)
    (hplain : p.Plain) {c : Coding} (hc : p.Codes c) :
    ∃ q, Completes p (LF :: c.bytes) (p.event (.notice .headersComplete) ::
      (pieces .body c.body ++ (c.trailers.flatMap lineEvents ++
        [.messageComplete (p.keepsEnd c)]))) q := by
  cases c with
  | none =>
    obtain ⟨q, hall⟩ := completes_none hs hroom hplain hc.1 hc.2
    exact ⟨q, hall⟩
  | length body =>
    obtain ⟨hchunked, hbody, hlength, hmax⟩ := hc
    have hpos : body.length ≠ 0 := fun hzero => hbody (List.length_eq_zero_iff.mp hzero)
    have hhead : Reads p [LF] [p.event (.notice .headersComplete)]
        { p.headed with nread := 0, state := .bodyIdentity } := by
      refine reads_headed hs hroom hplain rfl ?_
      rw [headersDone_body hplain, if_neg (by simp [hchunked]), hlength, if_neg hpos, if_pos hmax.ne]
    obtain ⟨q, hrest⟩ := completes_identity (Feeds.sound hhead h) rfl hlength
    have hkeep : Parser.httpShouldKeepAlive
        { p.headed with nread := 0, state := .bodyIdentity, contentLength := 0 } =
          p.httpShouldKeepAlive := by
      have hneeds : Parser.httpMessageNeedsEof
          { p.headed with nread := 0, state := .bodyIdentity, contentLength := 0 } =
            p.httpMessageNeedsEof := by
        have hzero : (0 : Nat) ≠ ullongMax := by decide
        have hlong : p.contentLength ≠ ullongMax := by rw [hlength]; exact hmax.ne
        unfold Parser.httpMessageNeedsEof
        simp only [Parser.headed, ne_eq, hzero, hlong, not_false_eq_true, or_true, if_true]
      unfold Parser.httpShouldKeepAlive
      rw [hneeds]
      rfl
    have hall := hhead.completes hrest
    rw [hkeep] at hall
    exact ⟨q, hall⟩
  | chunked chunks trailers =>
    obtain ⟨hchunked, hchunks, htrailers, hsome, hsize⟩ := hc
    obtain ⟨hd, hhd⟩ := Option.isSome_iff_exists.mp hsome
    have hhead : Reads p [LF] [p.event (.notice .headersComplete)]
        { p.headed with nread := 0, state := .chunkSizeStart } := by
      refine reads_headed hs hroom hplain rfl ?_
      rw [headersDone_body hplain, if_pos hchunked]
    obtain ⟨q, hrest⟩ := completes_chunked (Feeds.sound hhead h) rfl rfl hchunks htrailers hd hhd
      hsize
    have hkeep : p.keepsEnd (.chunked chunks trailers) = (p.withHead hd).httpShouldKeepAlive := by
      rw [Parser.keepsEnd, hhd]
      rfl
    rw [hkeep]
    exact ⟨q, hhead.completes hrest⟩

/-- A body that ends with the connection. -/
theorem reads_untilClose (h : p.Sound) (hs : p.state = .headersAlmostDone) (hroom : p.Room 2)
    (hplain : p.Plain) (hchunked : p.flags.chunked = false) (hlength : p.contentLength = ullongMax)
    (heof : p.httpMessageNeedsEof = true) (body : Bytes) :
    ∃ q : Parser, Reads p (LF :: body)
      (p.event (.notice .headersComplete) :: pieces .body body) q := by
  have htype : p.type ≠ .request := by
    intro hrequest
    rw [Parser.httpMessageNeedsEof, if_pos hrequest] at heof
    cases heof
  have hhead : Reads p [LF] [p.event (.notice .headersComplete)]
      { p.headed with nread := 0, state := .bodyIdentityEof } := by
    refine reads_headed hs hroom hplain rfl ?_
    rw [headersDone_body hplain, if_neg (by simp [hchunked]), hlength, if_neg (by decide),
      if_neg (not_not.mpr rfl), if_neg (by simp [htype, heof])]
  have hbody := @feeds_body _ (Feeds.sound hhead h) rfl body (.inl rfl) (by rintro ⟨⟨⟩, -⟩) []
  rw [List.append_nil, bodyPieces_eq] at hbody
  exact ⟨_, hhead.trans hbody⟩

end Codings

end Luaw.Parsing
