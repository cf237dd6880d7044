import Luaw.Http.Sending

/-!
# Streaming a body in chunks

A streamed response sends what is in the buffer as a chunk each time the buffer gets full, and
what is left when it is flushed. An empty chunk is the last one, so the body is framed correctly
exactly when something is left at the flush.
-/

namespace Luaw.Http

open Lua Program

/-- A response that is being streamed: the chunks `sent` have been written after the bytes
`start`, and the strings `kept` are in the buffer. -/
structure Streaming (start : Bytes) (sent kept : List Bytes) (m : Message) : Prop where
  chunked : m.isChunked = true
  written : m.conn.written = start ++ sent.flatMap ChunkedCoding.chunk
  buffer : m.bodyParts.Holds kept
  nonempty : ∀ data ∈ sent, data ≠ []

/-- How many bytes are buffered after appending strings to a buffer with `len` bytes. -/
def leftover (rt : Runtime) : Nat → List Bytes → Nat
  | len, [] => len
  | len, part :: parts =>
    leftover rt (if rt.connBufferSize ≤ len + part.length then 0 else len + part.length) parts

theorem leftover_append_lt (rt : Runtime) (len : Nat) (parts : List Bytes) (part : Bytes) :
    leftover rt len (parts ++ [part]) < rt.connBufferSize := by
  induction parts generalizing len with
  | nil =>
    have hpos := rt.connBufferSize_pos
    rw [List.nil_append, leftover, leftover]
    split <;> omega
  | cons p parts ih => exact ih _

def appendEach (rt : Runtime) : List Bytes → MessageM Unit
  | [] => pure ()
  | part :: parts => do
    appendBody rt (some part)
    appendEach rt parts

/-- The part of the connection's state that a failed run leaves. -/
def Failed {α : Type} (run : Except (Stop LuaError) α × Message) : Prop :=
  ∃ e m, run = (.error (.raised e), m)

/-- One `appendBody` on a streamed response. -/
theorem appendBody_streaming (rt : Runtime) {start : Bytes} {sent kept : List Bytes} {m : Message}
    (h : Streaming start sent kept m) (part : Bytes) :
    (¬m.conn.Accepts ∧ Failed (exec (appendBody rt (some part)) m)) ∨
    ∃ m' sent' kept', exec (appendBody rt (some part)) m = (.ok (), m') ∧
      (m.conn.Accepts → m'.conn.Accepts) ∧ Streaming start sent' kept' m' ∧
      sent'.flatten ++ kept'.flatten = sent.flatten ++ kept.flatten ++ part ∧
      kept'.flatten.length =
        if rt.connBufferSize ≤ kept.flatten.length + part.length then 0
        else kept.flatten.length + part.length := by
  have hbuffer := h.buffer.append part
  have hlen : (m.bodyParts.append (.str part)).len = kept.flatten.length + part.length := by
    simp [hbuffer.len]
  have hrun : exec (appendBody rt (some part)) m =
      exec (if rt.connBufferSize ≤ kept.flatten.length + part.length then
          sendBuffer (m.bodyParts.append (.str part)) Message.setBodyParts true
        else pure ()) (m.setBodyParts (m.bodyParts.append (.str part))) := by
    rw [appendBody, exec_bind_ok (exec_modify _ m), exec_bind_ok (exec_get _)]
    simp only [Message.setBodyParts, h.chunked, true_and, hlen]
  rw [hrun, exec_ite]
  by_cases hfull : rt.connBufferSize ≤ kept.flatten.length + part.length
  · -- the buffer is sent as one chunk, which is not empty
    rw [if_pos hfull, if_pos hfull, exec_sendBuffer hbuffer]
    have hne : (kept ++ [part]).flatten ≠ [] := by
      intro hnil
      have hzero := congrArg List.length hnil
      have hpos := rt.connBufferSize_pos
      simp only [List.flatten_append, List.flatten_singleton, List.length_append,
        List.length_nil] at hzero
      omega
    rcases write_cases (ChunkedCoding.chunk (kept ++ [part]).flatten)
        ((m.setBodyParts (m.bodyParts.append (.str part))).setBodyParts
          (m.bodyParts.append (.str part)).reset) with
      ⟨conn, hok, hwritten, hacc⟩ | ⟨e, conn, herror, -, -, hacc⟩
    · refine .inr ⟨_, sent ++ [(kept ++ [part]).flatten], [], hok, hacc, ⟨h.chunked, ?_, ?_, ?_⟩,
        by simp, rfl⟩
      · rw [hwritten]
        simp [Message.setBodyParts, h.written]
      · exact Buffer.holds_reset (m.bodyParts.append (.str part))
      · intro data hdata
        obtain hsent | hnew := List.mem_append.mp hdata
        · exact h.nonempty data hsent
        · rw [List.mem_singleton.mp hnew]
          exact hne
    · exact .inl ⟨hacc, e, _, herror⟩
  · rw [if_neg hfull, if_neg hfull]
    exact .inr ⟨_, sent, kept ++ [part], rfl, id, ⟨h.chunked, h.written, hbuffer, h.nonempty⟩,
      by simp, by simp⟩

/-- Any number of `appendBody` calls. -/
theorem appendEach_streaming (rt : Runtime) {start : Bytes} (parts : List Bytes)
    {sent kept : List Bytes} {m : Message} (h : Streaming start sent kept m) :
    (¬m.conn.Accepts ∧ Failed (exec (appendEach rt parts) m)) ∨
    ∃ m' sent' kept', exec (appendEach rt parts) m = (.ok (), m') ∧
      (m.conn.Accepts → m'.conn.Accepts) ∧ Streaming start sent' kept' m' ∧
      sent'.flatten ++ kept'.flatten = sent.flatten ++ kept.flatten ++ parts.flatten ∧
      kept'.flatten.length = leftover rt kept.flatten.length parts := by
  induction parts generalizing sent kept m with
  | nil => exact .inr ⟨m, sent, kept, rfl, id, h, by simp, rfl⟩
  | cons part parts ih =>
    obtain ⟨hacc, e, m', herror⟩ | ⟨m', sent', kept', hok, hacc, h', hdata, hlen⟩ :=
      appendBody_streaming rt h part
    · exact .inl ⟨hacc, e, m', exec_bind_error herror⟩
    · rw [appendEach, exec_bind_ok hok]
      obtain ⟨hno, hfail⟩ | ⟨m'', sent'', kept'', hok', hacc', h'', hdata', hlen'⟩ := ih h'
      · exact .inl ⟨fun hyes => hno (hacc hyes), hfail⟩
      · refine .inr ⟨m'', sent'', kept'', hok', fun hyes => hacc' (hacc hyes), h'', ?_, ?_⟩
        · rw [hdata', hdata, List.flatten_cons, List.append_assoc (_ ++ _)]
        · rw [hlen', hlen, leftover]

/-- `flush` sends what is left as a chunk, and the last chunk after it. -/
theorem flush_streaming (rt : Runtime) {start : Bytes} {sent kept : List Bytes} {m : Message}
    (h : Streaming start sent kept m) :
    (¬m.conn.Accepts ∧ Failed (exec (flush rt) m)) ∨
    ∃ m', exec (flush rt) m = (.ok (), m') ∧ m'.conn.written = start ++
      (sent.flatMap ChunkedCoding.chunk ++
        (ChunkedCoding.chunk kept.flatten ++ ChunkedCoding.lastChunk)) := by
  have hrun : exec (flush rt) m = exec (do
      sendBuffer m.bodyParts Message.setBodyParts true
      write (text "0\r\n\r\n")) m := by
    rw [flush, exec_bind_ok (exec_get m), h.chunked, if_pos rfl]
    rfl
  have hsend := exec_sendBuffer h.buffer Message.setBodyParts true m
  rw [hrun]
  obtain ⟨conn, hok, hwritten, hacc⟩ | ⟨e, conn, herror, -, -, hacc⟩ :=
    write_cases (ChunkedCoding.chunk kept.flatten) (m.setBodyParts m.bodyParts.reset)
  · rw [exec_bind_ok (hsend.trans hok)]
    obtain ⟨conn', hok', hwritten', -⟩ | ⟨e, conn', herror, -, -, hacc'⟩ :=
      write_cases (text "0\r\n\r\n") { m.setBodyParts m.bodyParts.reset with conn }
    · refine .inr ⟨_, hok', ?_⟩
      have hlast : text "0\r\n\r\n" = ChunkedCoding.lastChunk := rfl
      rw [hwritten', hwritten, hlast]
      simp [Message.setBodyParts, h.written]
    · exact .inl ⟨fun hyes => hacc' (hacc hyes), e, _, herror⟩
  · exact .inl ⟨hacc, e, _, exec_bind_error (hsend.trans herror)⟩

/-- The bytes are one chunked body: the data comes before the first chunk of size zero, and
nothing comes after that. -/
def FramesChunked (bytes data : Bytes) : Prop := ChunkedCoding.decodeBody bytes = some (data, [])

theorem framesChunked_iff {sent : List Bytes} (h : ∀ data ∈ sent, data ≠ []) (left : Bytes) :
    FramesChunked (sent.flatMap ChunkedCoding.chunk ++
      (ChunkedCoding.chunk left ++ ChunkedCoding.lastChunk)) (sent.flatten ++ left) ↔
      0 < left.length := by
  rw [FramesChunked]
  by_cases hleft : left = []
  · subst hleft
    rw [ChunkedCoding.chunk_nil, ChunkedCoding.decodeBody_chunks h]
    exact iff_of_false (fun heq => by simp [ChunkedCoding.lastChunk] at heq) (Nat.lt_irrefl 0)
  · have hall : ∀ data ∈ sent ++ [left], data ≠ [] := by
      intro data hdata
      obtain hsent | hnew := List.mem_append.mp hdata
      · exact h data hsent
      · rw [List.mem_singleton.mp hnew]
        exact hleft
    have hdecode := ChunkedCoding.decodeBody_chunks hall []
    simp only [List.flatMap_append, List.flatMap_singleton, List.flatten_append,
      List.flatten_singleton, List.append_nil, List.append_assoc] at hdecode
    rw [hdecode]
    exact iff_of_true rfl (List.length_pos_iff.mpr hleft)

/-- `startStreaming` leaves the buffered strings alone. -/
theorem startStreaming_streaming {rt : Runtime} {buffered : List Bytes} {m m' : Message}
    (h : m.bodyParts.Holds buffered) (hrun : exec (startStreaming rt) m = (.ok (), m')) :
    Streaming m'.conn.written [] buffered m' := by
  rw [startStreaming, exec_bind_ok (exec_modify _ m)] at hrun
  obtain ⟨conn, rfl⟩ := sendHeaders_returns hrun
  exact ⟨rfl, by simp, h, nofun⟩

/-- The calls on a response after `startStreaming`. -/
def streamBody (rt : Runtime) (parts : List Bytes) : MessageM Unit := do
  appendEach rt parts
  flush rt

/-- The strings are sent as chunks, and then what is left and the last chunk. -/
theorem Streaming.streamBody (rt : Runtime) {buffered : List Bytes} {m₁ : Message}
    (h : Streaming m₁.conn.written [] buffered m₁) (parts : List Bytes) :
    (m₁.conn.Accepts → ∃ m₂, exec (Http.streamBody rt parts) m₁ = (.ok (), m₂)) ∧
    ∀ m₂, exec (Http.streamBody rt parts) m₁ = (.ok (), m₂) → ∃ body,
      m₂.conn.written = m₁.conn.written ++ body ∧
      (FramesChunked body (buffered.flatten ++ parts.flatten) ↔
        0 < leftover rt buffered.flatten.length parts) := by
  obtain ⟨hacc, e, m', herror⟩ | ⟨m', sent, kept, hok, hacc, h', hdata, hlen⟩ :=
    appendEach_streaming rt parts h
  · refine ⟨fun hyes => absurd hyes hacc, fun m₂ hrun => ?_⟩
    rw [Http.streamBody, exec_bind_error herror] at hrun
    cases hrun
  · rw [Http.streamBody, exec_bind_ok hok]
    -- the last flush, of what is left in the buffer
    obtain ⟨hno, e, m'', herror⟩ | ⟨m'', hflush, hwritten⟩ := flush_streaming rt h'
    · refine ⟨fun hyes => absurd (hacc hyes) hno, fun m₂ hrun => ?_⟩
      cases hrun.symm.trans herror
    · refine ⟨fun _ => ⟨m'', hflush⟩, fun m₂ hrun => ?_⟩
      cases hrun.symm.trans hflush
      refine ⟨_, hwritten, ?_⟩
      rw [← hlen]
      have hiff := framesChunked_iff h'.nonempty kept.flatten
      rw [hdata] at hiff
      simpa using hiff

/-- What follows the header block of a streamed response is one chunked body with exactly the
appended strings if and only if something is left in the buffer when it is flushed. Fewer bytes
than the buffer size are left after every `appendBody`, and they are counted correctly. -/
theorem streamed_body_framed_iff (rt : Runtime) {buffered : List Bytes} {m₀ m₁ : Message}
    (hbuffer : m₀.bodyParts.Holds buffered)
    (hstart : exec (startStreaming rt) m₀ = (.ok (), m₁)) :
    (∀ parts part m, exec (appendEach rt (parts ++ [part])) m₁ = (.ok (), m) →
      m.bodyParts.len < rt.connBufferSize ∧ m.bodyParts.Counted) ∧
    ∀ parts,
      (m₁.conn.Accepts → ∃ m₂, exec (streamBody rt parts) m₁ = (.ok (), m₂)) ∧
      ∀ m₂, exec (streamBody rt parts) m₁ = (.ok (), m₂) → ∃ body,
        m₂.conn.written = m₁.conn.written ++ body ∧
        (FramesChunked body (buffered.flatten ++ parts.flatten) ↔
          0 < leftover rt buffered.flatten.length parts) := by
  have h := startStreaming_streaming hbuffer hstart
  refine ⟨fun parts part m hrun => ?_, fun parts => h.streamBody rt parts⟩
  obtain ⟨-, e, m', herror⟩ | ⟨m', sent, kept, hok, -, h', -, hlen⟩ :=
    appendEach_streaming rt (parts ++ [part]) h
  · cases hrun.symm.trans herror
  · cases hrun.symm.trans hok
    refine ⟨?_, h'.buffer.counted⟩
    rw [h'.buffer.len, hlen]
    exact leftover_append_lt rt _ parts part

/-- A response with status 200 on a connection that accepts everything. -/
def okResponse : Message := (newServerHttpResponse ⟨false, [], [], []⟩).setStatus 200

def okStreaming : Message := (exec (startStreaming .default) okResponse).2

theorem okResponse_starts : exec (startStreaming .default) okResponse = (.ok (), okStreaming) := rfl

theorem streamed_okResponse :
    (∀ parts part m, exec (appendEach .default (parts ++ [part])) okStreaming = (.ok (), m) →
      m.bodyParts.len < Runtime.default.connBufferSize ∧ m.bodyParts.Counted) ∧
    ∀ parts,
      (okStreaming.conn.Accepts →
        ∃ m₂, exec (streamBody .default parts) okStreaming = (.ok (), m₂)) ∧
      ∀ m₂, exec (streamBody .default parts) okStreaming = (.ok (), m₂) → ∃ body,
        m₂.conn.written = okStreaming.conn.written ++ body ∧
        (FramesChunked body (([] : List Bytes).flatten ++ parts.flatten) ↔
          0 < leftover .default ([] : List Bytes).flatten.length parts) :=
  streamed_body_framed_iff .default Buffer.holds_new okResponse_starts

/-- When nothing is appended the empty chunk of the flush is followed by the last chunk. -/
theorem empty_stream_ends_twice :
    ∃ m₂, exec (streamBody .default []) okStreaming = (.ok (), m₂) ∧
      ∀ body, m₂.conn.written = okStreaming.conn.written ++ body → ¬FramesChunked body [] := by
  refine ⟨(exec (streamBody .default []) okStreaming).2, rfl, fun body hbody => ?_⟩
  have hwritten : (exec (streamBody .default []) okStreaming).2.conn.written =
      okStreaming.conn.written ++ (ChunkedCoding.lastChunk ++ ChunkedCoding.lastChunk) := by rfl
  obtain rfl := List.append_cancel_left (hbody.symm.trans hwritten)
  have hdecode := @ChunkedCoding.decodeBody_chunks [] nofun ChunkedCoding.lastChunk
  rw [FramesChunked]
  exact fun heq => nomatch hdecode.symm.trans heq

end Luaw.Http
