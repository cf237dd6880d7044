import Luaw.Foundations.Transition
import Luaw.Tcp.Connection

/-!
# Received bytes and the reading thread

One connection, the one thread that reads from it and everything else that may happen to it:
libuv callbacks in any order, writes by any thread, timeouts, `close`. `returned` and
`delivered` record the strings that successful `conn:read` calls returned and the byte
strings that `on_read` was called with.

`on_read` empties the read buffer whether or not a thread took its contents, so bytes survive
exactly when every `on_read` with data finds a waiting reader.
-/

namespace Luaw.Tcp

open Transition

/-- What the reading thread is doing with respect to this connection. -/
inductive ThreadOp where
  | elsewhere
  | inRead
  | inWrite
  deriving DecidableEq, Repr

structure ReadSystem where
  conn : Connection
  thread : ThreadOp
  returned : List Bytes
  delivered : List Bytes
  deriving DecidableEq, Repr

/-- Everything that can happen to a connection. -/
inductive ReadEvent where
  | data (bytes : Bytes)
  | nothing (nread : NRead)
  | failure (e : UvError)
  | timeout
  | read (readTimeout : Int)
  | write (tid : Nat) (buff : Bytes) (writeTimeout : Int) (uvWrite : Option UvError)
  | written (status : Option UvError)
  | startReading (uvReadStart : Option UvError)
  | close
  deriving Repr

/-- `conn:read` returns `status, value` to the reading thread. -/
def finishRead (s : ReadSystem) (status : Bool) (value : LuaArg) : ReadSystem :=
  match status, value with
  | true, .str bytes => { s with thread := .elsewhere, returned := s.returned ++ [bytes] }
  | _, _ => { s with thread := .elsewhere }

variable (tid : Nat)

/-- One wake-up: only the reading thread is tracked, and it returns from the operation in
which it is suspended. -/
def wake (s : ReadSystem) (w : Wakeup) : ReadSystem :=
  if w.tid = tid then
    match s.thread with
    | .inRead => finishRead s w.status w.value
    | .inWrite => { s with thread := .elsewhere }
    | .elsewhere => s
  else s

/-- The wake-ups issued by one callback or method, in order. -/
def wakeAll (s : ReadSystem) (woken : List Wakeup) : ReadSystem := woken.foldl (wake tid) s

/-- A callback's result put back into the system. -/
def afterCallback (s : ReadSystem) (r : Connection × List Wakeup) : ReadSystem :=
  wakeAll tid { s with conn := r.1 } r.2

/-- `on_alloc` and `on_read` for received bytes: they land at `buf->base`. -/
def onData (s : ReadSystem) (bytes : Bytes) : Option ReadSystem :=
  match onAlloc s.conn with
  | none => none
  | some (base, len) =>
    if bytes ≠ [] ∧ bytes.length ≤ len ∧ s.conn.handle.active then
      let conn := { s.conn with readBuffer := storeAt s.conn.readBuffer base bytes }
      some (afterCallback tid { s with delivered := s.delivered ++ [bytes] }
        (onRead conn (.bytes bytes.length)))
    else none

/-- `connMT.read` after its call of `read_check`: wait for the `on_read` callback when nothing
was in the buffer, else return. -/
def afterReadCheck (s : ReadSystem) (result : LuaResult) : ReadSystem :=
  if result = (true, .nil) then { s with thread := .inRead } else finishRead s result.1 result.2

/-- `connMT.read`, called by the reading thread. -/
def connRead (s : ReadSystem) (readTimeout : Int) : Option ReadSystem :=
  if s.thread = .elsewhere then
    let (conn, woken, result) := readCheck s.conn tid readTimeout
    some (afterReadCheck (afterCallback tid s (conn, woken)) result)
  else none

/-- `connMT.write` after its call of `write_buffer`: the writer waits when there was something
to write. -/
def afterWriteBuffer (s : ReadSystem) (writer : Nat) (result : LuaResult) : ReadSystem :=
  if writer = tid ∧ result.1 = true ∧ result.2 ≠ .integer 0 then { s with thread := .inWrite }
  else s

/-- `connMT.write`, called by any thread. -/
def connWrite (s : ReadSystem) (writer : Nat) (buff : Bytes) (writeTimeout : Int)
    (uvWrite : Option UvError) : Option ReadSystem :=
  if writer = tid ∧ s.thread ≠ .elsewhere then none
  else
    let (conn, woken, result) := writeBuffer s.conn writer buff writeTimeout uvWrite
    some (afterWriteBuffer tid (afterCallback tid s (conn, woken)) writer result)

/-- One event; `none` when libuv or the threads cannot produce it in this state. -/
def step (s : ReadSystem) : ReadEvent → Option ReadSystem
  | .data bytes => onData tid s bytes
  | .nothing nread =>
    if nread = .bytes 0 ∨ nread = .error .ENOBUFS then
      some (afterCallback tid s (onRead s.conn nread))
    else none
  | .failure e =>
    if s.conn.handle.active then some (afterCallback tid s (onRead s.conn (.error e))) else none
  | .timeout =>
    if s.conn.readTimer.active ∨ s.conn.writeTimer.active then
      some (afterCallback tid s (onConnTimeout s.conn))
    else none
  | .read readTimeout => connRead tid s readTimeout
  | .write writer buff writeTimeout uvWrite => connWrite tid s writer buff writeTimeout uvWrite
  | .written status => some (afterCallback tid s (onWrite s.conn status))
  | .startReading uvReadStart =>
    let (conn, woken, _) := startReading s.conn uvReadStart
    some (afterCallback tid s (conn, woken))
  | .close => some (afterCallback tid s (closeConnectionLua s.conn))

/-- A connection on which reading has just started. `writer` is the thread that connected it,
whose id `on_client_connect` leaves in `lua_writer_tid`, or zero for an accepted one. -/
def started (writer : Nat) : ReadSystem where
  conn := (startReading { newConnection with luaWriterTid := writer } none).1
  thread := .elsewhere
  returned := []
  delivered := []

/-- No byte is lost, duplicated or reordered: what the reads returned, followed by what the
read buffer holds, is what the callbacks delivered. -/
def Conserved (s : ReadSystem) : Prop :=
  s.returned.flatten ++ s.conn.readBuffer.take s.conn.readLen = s.delivered.flatten

instance (s : ReadSystem) : Decidable (Conserved s) :=
  inferInstanceAs (Decidable (_ = _))

/-- A callback with data finds a thread waiting in `conn:read`. -/
def ReaderWaits (s : ReadSystem) (e : ReadEvent) : Prop :=
  ∀ bytes, e = .data bytes → s.conn.luaReaderTid ≠ 0

/-- The read buffer is empty between callbacks, and the ids recorded in the connection tell
in which operation the reading thread is suspended. -/
structure Inv (s : ReadSystem) : Prop where
  empty : s.conn.readLen = 0
  size : s.conn.readBuffer.length = connBufferSize
  reader : s.conn.luaReaderTid ≠ 0 → s.conn.luaReaderTid = tid ∧ s.thread = .inRead
  writer : s.conn.writePending = true → s.conn.luaWriterTid ≠ 0 →
    s.conn.luaWriterTid = tid → s.thread = .inWrite
  conserved : s.returned.flatten = s.delivered.flatten

/-- A wake-up that hands no received bytes over. -/
def Silent (w : Wakeup) : Prop := w.status = true → ∀ bytes, w.value ≠ .str bytes

section Wakeups

variable {tid}

@[simp] theorem wake_conn (s : ReadSystem) (w : Wakeup) : (wake tid s w).conn = s.conn := by
  unfold wake finishRead
  repeat' split
  all_goals rfl

@[simp] theorem wake_delivered (s : ReadSystem) (w : Wakeup) :
    (wake tid s w).delivered = s.delivered := by
  unfold wake finishRead
  repeat' split
  all_goals rfl

theorem wake_returned (s : ReadSystem) {w : Wakeup} (h : Silent w) :
    (wake tid s w).returned = s.returned := by
  unfold wake finishRead
  split
  · split
    · split
      · next bytes hst hval => exact absurd hval (h hst bytes)
      · rfl
    · rfl
    · rfl
  · rfl

@[simp] theorem wakeAll_conn (s : ReadSystem) (woken : List Wakeup) :
    (wakeAll tid s woken).conn = s.conn := by
  induction woken generalizing s with
  | nil => rfl
  | cons w ws ih => exact (ih _).trans (wake_conn s w)

@[simp] theorem wakeAll_delivered (s : ReadSystem) (woken : List Wakeup) :
    (wakeAll tid s woken).delivered = s.delivered := by
  induction woken generalizing s with
  | nil => rfl
  | cons w ws ih => exact (ih _).trans (wake_delivered s w)

theorem wakeAll_returned (s : ReadSystem) {woken : List Wakeup} (h : ∀ w ∈ woken, Silent w) :
    (wakeAll tid s woken).returned = s.returned := by
  induction woken generalizing s with
  | nil => rfl
  | cons w ws ih =>
    have hw : (wake tid s w).returned = s.returned := wake_returned s (h w (by simp))
    exact (ih _ fun v hv => h v (by simp [hv])).trans hw

end Wakeups

/-- What `close_connection` does to the fields of the read path. An already closed connection
is left alone; otherwise both thread ids are cleared and no received bytes are handed over. -/
theorem closeConnection_spec (conn : Connection) (e : UvError) :
    (closeConnection conn e = (conn, []) ∨
      ((closeConnection conn e).1.luaReaderTid = 0 ∧ (closeConnection conn e).1.luaWriterTid = 0)) ∧
    (closeConnection conn e).1.readLen = conn.readLen ∧
    (closeConnection conn e).1.readBuffer = conn.readBuffer ∧
    ∀ w ∈ (closeConnection conn e).2, Silent w := by
  unfold closeConnection unblockReader unblockWriter delinkConnection resumeLuaThread Silent
  by_cases href : conn.luaRef = true
  · by_cases hr : conn.luaReaderTid = 0 <;> by_cases hw : conn.luaWriterTid = 0 <;>
      by_cases he : e = .EOF <;> simp [href, hr, hw, he]
  · simp [href]

/-- Closing keeps the invariant, whatever fields of the connection were touched before. -/
theorem Inv.close {s : ReadSystem} (h : Inv tid s) (e : UvError) :
    Inv tid (afterCallback tid s (closeConnection s.conn e)) := by
  obtain ⟨hids, hlen, hbuf, hsilent⟩ := closeConnection_spec s.conn e
  obtain hsame | ⟨hr, hw⟩ := hids
  · rw [hsame]
    exact h
  · refine ⟨?_, ?_, ?_, ?_, ?_⟩
    · simpa [afterCallback] using hlen.trans h.empty
    · simpa [afterCallback, hbuf] using h.size
    · simp [afterCallback, hr]
    · simp [afterCallback, hw]
    · simpa [afterCallback, wakeAll_returned _ hsilent] using h.conserved

/-- The invariant does not look at the timers, the handle or the reference count. -/
theorem Inv.congr {s : ReadSystem} (h : Inv tid s) {conn : Connection}
    (hlen : conn.readLen = s.conn.readLen) (hbuf : conn.readBuffer = s.conn.readBuffer)
    (hr : conn.luaReaderTid = s.conn.luaReaderTid) (hw : conn.luaWriterTid = s.conn.luaWriterTid)
    (hp : conn.writePending = s.conn.writePending) : Inv tid { s with conn } := by
  refine ⟨hlen.trans h.empty, ?_, ?_, ?_, h.conserved⟩
  · exact (congrArg List.length hbuf).trans h.size
  · simpa only [hr] using h.reader
  · simpa only [hw, hp] using h.writer

/-- An `on_read` without data changes nothing but the read timer, or closes. -/
theorem Inv.onRead_noData {s : ReadSystem} (h : Inv tid s) {nread : NRead}
    (hn : ∀ n, nread ≠ .bytes (n + 1)) :
    Inv tid (afterCallback tid s (onRead s.conn nread)) := by
  have hstop : Inv tid { s with conn := { s.conn with readTimer := stopTimer s.conn.readTimer } } :=
    h.congr tid rfl rfl rfl rfl rfl
  match nread with
  | .bytes 0 => exact hstop
  | .bytes (n + 1) => exact absurd rfl (hn n)
  | .error .ENOBUFS => exact hstop
  | .error .EOF => exact hstop.close tid .EOF
  | .error .ECANCELED => exact hstop.close tid .ECANCELED
  | .error .BADFLAGS => exact hstop.close tid .BADFLAGS
  | .error (.other code) => exact hstop.close tid (.other code)

/-- Bytes stored at the start of an empty read buffer are what its prefix holds. -/
theorem take_storeAt (buffer bytes : Bytes) :
    (storeAt buffer 0 bytes).take bytes.length = bytes := by
  simp [storeAt]

theorem length_storeAt (buffer : Bytes) (base : Nat) (bytes : Bytes)
    (h : base + bytes.length ≤ buffer.length) :
    (storeAt buffer base bytes).length = buffer.length := by
  simp only [storeAt, List.length_append, List.length_take, List.length_drop]
  omega

/-- The state after `on_alloc` and `on_read` for received bytes, when the buffer is empty as it
always is. -/
theorem onData_eq {s s' : ReadSystem} (h : Inv tid s) {bytes : Bytes}
    (he : onData tid s bytes = some s') :
    bytes ≠ [] ∧ bytes.length ≤ connBufferSize ∧
    s' = wakeAll tid
      { s with
        conn := { s.conn with
          readBuffer := storeAt s.conn.readBuffer 0 bytes
          readTimer := stopTimer s.conn.readTimer
          luaReaderTid := 0
          readLen := 0 }
        delivered := s.delivered ++ [bytes] }
      (resumeLuaThread s.conn.luaReaderTid true (.str bytes)) := by
  simp only [onData, onAlloc, h.empty, Nat.sub_zero] at he
  rw [if_pos (by decide)] at he
  simp only at he
  split at he
  · next hcond =>
    obtain ⟨hne, hle, -⟩ := hcond
    refine ⟨hne, hle, ?_⟩
    obtain ⟨n, hn⟩ : ∃ n, bytes.length = n + 1 :=
      ⟨bytes.length - 1, by have := List.length_pos_of_ne_nil hne; omega⟩
    have htake := take_storeAt s.conn.readBuffer bytes
    cases he
    rw [hn] at htake ⊢
    simp only [onRead, afterCallback, Nat.zero_add, htake]
  · cases he

/-- Received bytes with a waiting reader: the reader returns exactly them. -/
theorem Inv.onData {s s' : ReadSystem} (h : Inv tid s) {bytes : Bytes}
    (hr : s.conn.luaReaderTid ≠ 0) (he : onData tid s bytes = some s') : Inv tid s' := by
  obtain ⟨hne, hle, rfl⟩ := onData_eq tid h he
  obtain ⟨htid, hthread⟩ := h.reader hr
  have hwake : resumeLuaThread s.conn.luaReaderTid true (.str bytes) = [⟨tid, true, .str bytes⟩] := by
    rw [resumeLuaThread, if_neg hr, htid]
  rw [hwake]
  refine ⟨by simp, ?_, by simp, ?_, ?_⟩
  · simp only [wakeAll_conn]
    rw [length_storeAt _ _ _ (by rw [h.size]; omega)]
    exact h.size
  · simp only [wakeAll_conn]
    intro hp hw0 hw
    rw [h.writer hp hw0 hw] at hthread
    cases hthread
  · simp [wakeAll, wake, finishRead, hthread, h.conserved]

/-- Received bytes without a waiting reader are gone. -/
theorem onData_lost {s s' : ReadSystem} (h : Inv tid s) {bytes : Bytes}
    (hr : s.conn.luaReaderTid = 0) (he : onData tid s bytes = some s') : ¬Conserved s' := by
  obtain ⟨hne, -, rfl⟩ := onData_eq tid h he
  simpa [Conserved, hr, resumeLuaThread, wakeAll, h.conserved] using hne

/-- A thread that is not suspended in this connection is not moved by wake-ups. -/
theorem wakeAll_elsewhere {s : ReadSystem} (h : s.thread = .elsewhere) (woken : List Wakeup) :
    wakeAll tid s woken = s := by
  induction woken with
  | nil => rfl
  | cons w ws ih =>
    have hw : wake tid s w = s := by simp [wake, h]
    simpa [wakeAll, hw] using ih

/-- A thread outside `conn:read` is not the recorded reader. -/
theorem Inv.readerTid_eq_zero {s : ReadSystem} (h : Inv tid s) (hs : s.thread ≠ .inRead) :
    s.conn.luaReaderTid = 0 := by
  by_contra hr
  exact hs (h.reader hr).2

/-- A method that failed, maybe closing the connection. -/
theorem Inv.failed {s : ReadSystem} (h : Inv tid s) {r : Connection × List Wakeup}
    (hr : r = (s.conn, []) ∨ ∃ e, r = closeConnection s.conn e) :
    Inv tid (afterCallback tid s r) := by
  obtain rfl | ⟨e, rfl⟩ := hr
  · exact h
  · exact h.close tid e

theorem Inv.connRead {s s' : ReadSystem} (h : Inv tid s) {readTimeout : Int}
    (he : connRead tid s readTimeout = some s') : Inv tid s' := by
  unfold Luaw.Tcp.connRead at he
  split at he
  · next hthread =>
    obtain ⟨r, v, hc, hr⟩ | ⟨-, -, hc⟩ | ⟨hlen, -⟩ := readCheck_cases s.conn tid readTimeout
    · -- the thread keeps running, so a failed read changes no more than the connection
      have hrun : ∀ t : ReadSystem, t.thread = .elsewhere →
          afterReadCheck t (false, v) = t := by
        intro t ht
        simp [afterReadCheck, finishRead, ← ht]
      have helse : (afterCallback tid s r).thread = .elsewhere := by
        rw [afterCallback, wakeAll_elsewhere tid (s := { s with conn := r.1 }) hthread]
        exact hthread
      rw [hc] at he
      have heq := Option.some.inj he
      rw [hrun _ helse] at heq
      exact heq ▸ h.failed tid hr
    · rw [hc] at he
      rw [← Option.some.inj he]
      refine ⟨h.empty, h.size, fun _ => ⟨rfl, rfl⟩, fun hp hw0 hw => ?_, h.conserved⟩
      rw [h.writer hp hw0 hw] at hthread
      cases hthread
    · exact absurd h.empty hlen
  · cases he

theorem Inv.connWrite {s s' : ReadSystem} (h : Inv tid s) {writer : Nat} {buff : Bytes}
    {writeTimeout : Int} {uvWrite : Option UvError}
    (he : connWrite tid s writer buff writeTimeout uvWrite = some s') : Inv tid s' := by
  unfold Luaw.Tcp.connWrite at he
  split at he
  · cases he
  · next hwho =>
    obtain ⟨r, v, hc, hr⟩ | hc | ⟨-, hlen, hc⟩ :=
      writeBuffer_cases s.conn writer buff writeTimeout uvWrite
    · rw [hc] at he
      rw [← Option.some.inj he]
      simpa [afterWriteBuffer] using h.failed tid hr
    · rw [hc] at he
      rw [← Option.some.inj he, afterWriteBuffer, if_neg (by simp)]
      exact h
    · rw [hc] at he
      rw [← Option.some.inj he]
      by_cases hmine : writer = tid
      · -- the reading thread itself writes, so it is not waiting in a read
        have hthread : s.thread = .elsewhere := by
          by_contra hne
          exact hwho ⟨hmine, hne⟩
        have hr : s.conn.luaReaderTid = 0 := h.readerTid_eq_zero tid (by simp [hthread])
        rw [afterWriteBuffer, if_pos ⟨hmine, rfl, by simpa using hlen⟩]
        exact ⟨h.empty, h.size, fun hne => absurd hr hne, fun _ _ _ => rfl, h.conserved⟩
      · rw [afterWriteBuffer, if_neg fun hw => hmine hw.1]
        exact ⟨h.empty, h.size, h.reader, fun _ _ hw => absurd hw hmine, h.conserved⟩

/-- The write callback resumes only the recorded writer, which is not waiting in a read. -/
theorem Inv.onWrite {s : ReadSystem} (h : Inv tid s) (status : Option UvError) :
    Inv tid (afterCallback tid s (onWrite s.conn status)) := by
  unfold Luaw.Tcp.onWrite
  split
  · next hp =>
    cases status with
    | some e =>
      have hdone : Inv tid { s with
          conn := { s.conn with writePending := false, refCount := s.conn.refCount - 1 } } :=
        ⟨h.empty, h.size, h.reader, fun hf => absurd hf (by simp), h.conserved⟩
      exact hdone.close tid e
    | none =>
      by_cases hw : s.conn.luaWriterTid ≠ 0 ∧ s.conn.luaWriterTid = tid
      · have hthread := h.writer hp hw.1 hw.2
        have hr : s.conn.luaReaderTid = 0 := h.readerTid_eq_zero tid (by simp [hthread])
        refine ⟨?_, ?_, ?_, ?_, ?_⟩ <;>
          simp [afterCallback, resumeLuaThread, hw.2 ▸ hw.1, hw.2, wakeAll, wake, hthread, hr,
            h.empty, h.size, h.conserved]
      · -- another thread's write, or one that nobody waits for
        have hnone : ∀ t : ReadSystem, wakeAll tid t
            (resumeLuaThread s.conn.luaWriterTid true (.integer 1)) = t := by
          intro t
          by_cases h0 : s.conn.luaWriterTid = 0
          · simp [resumeLuaThread, h0, wakeAll]
          · have hne : s.conn.luaWriterTid ≠ tid := fun ht => hw ⟨h0, ht⟩
            simp [resumeLuaThread, h0, wakeAll, wake, hne]
        simp only [afterCallback, hnone]
        exact ⟨h.empty, h.size, h.reader, fun hf => absurd hf (by simp), h.conserved⟩
  · exact h

theorem Inv.startReading {s : ReadSystem} (h : Inv tid s) (uvReadStart : Option UvError) :
    Inv tid (afterCallback tid s
      ((startReading s.conn uvReadStart).1, (startReading s.conn uvReadStart).2.1)) := by
  unfold Luaw.Tcp.startReading
  split
  · have hreset : Inv tid { s with conn := { s.conn with luaReaderTid := 0 } } :=
      ⟨h.empty, h.size, fun hf => absurd rfl hf, h.writer, h.conserved⟩
    cases uvReadStart with
    | some e => exact hreset.close tid e
    | none => exact hreset.congr tid rfl rfl rfl rfl rfl
  · exact h

theorem Inv.closeLua {s : ReadSystem} (h : Inv tid s) :
    Inv tid (afterCallback tid s (closeConnectionLua s.conn)) := by
  unfold closeConnectionLua
  split
  · have hreset : Inv tid { s with
        conn := { s.conn with luaReaderTid := 0, luaWriterTid := 0 } } :=
      ⟨h.empty, h.size, fun hf => absurd rfl hf, fun _ hf => absurd rfl hf, h.conserved⟩
    exact hreset.close tid .EOF
  · exact h

theorem inv_started (writer : Nat) : Inv tid (started writer) := by
  refine ⟨rfl, ?_, fun h => absurd rfl h, ?_, rfl⟩
  · simp [started, Luaw.Tcp.startReading, newConnection]
  · simp [started, Luaw.Tcp.startReading, newConnection]

theorem Inv.conserves {s : ReadSystem} (h : Inv tid s) : Conserved s := by
  simp [Conserved, h.empty, h.conserved]

/-- Every event keeps the invariant, provided data finds a waiting reader. -/
theorem Inv.step {s s' : ReadSystem} (h : Inv tid s) {e : ReadEvent} (hw : ReaderWaits s e)
    (he : step tid s e = some s') : Inv tid s' := by
  cases e with
  | data bytes => exact h.onData tid (hw bytes rfl) he
  | nothing nread =>
    simp only [Luaw.Tcp.step, Option.ite_none_right_eq_some, Option.some.injEq] at he
    obtain ⟨hn, rfl⟩ := he
    refine h.onRead_noData tid fun n hn' => ?_
    obtain rfl | rfl := hn <;> cases hn'
  | failure e =>
    simp only [Luaw.Tcp.step, Option.ite_none_right_eq_some, Option.some.injEq] at he
    exact he.2 ▸ h.onRead_noData tid (by simp)
  | timeout =>
    simp only [Luaw.Tcp.step, Option.ite_none_right_eq_some, Option.some.injEq] at he
    exact he.2 ▸ h.close tid .ECANCELED
  | read readTimeout => exact h.connRead tid he
  | write writer buff writeTimeout uvWrite => exact h.connWrite tid he
  | written status => exact Option.some.inj he ▸ h.onWrite tid status
  | startReading uvReadStart => exact Option.some.inj he ▸ h.startReading tid uvReadStart
  | close => exact Option.some.inj he ▸ h.closeLua tid

/-- In every run, received bytes are conserved in every state exactly when every callback with
data found the reading thread waiting in `conn:read`. -/
theorem conserved_iff_readerWaits (writer : Nat) (es : List ReadEvent) :
    Always (step tid) Conserved (started writer) es ↔
      Guarded (step tid) ReaderWaits (started writer) es := by
  have hs : Inv tid (started writer) := inv_started tid writer
  refine always_iff_guarded hs (fun s h => h.conserves tid)
    (fun s e s' h hw he => h.step tid hw he) (fun s e s' h hw he => ?_)
  -- only a callback with data can find nobody waiting
  simp only [ReaderWaits, not_forall, not_not] at hw
  obtain ⟨bytes, rfl, hr⟩ := hw
  exact onData_lost tid h hr he

/-- Two bytes that arrive before the first `conn:read` are lost. -/
theorem data_before_read_is_lost :
    ¬Always (step 1) Conserved (started 0) [.data [104, 105], .read 3000] := by
  intro h
  have hs : Inv 1 (started 0) := inv_started 1 0
  have hdata : onData 1 (started 0) [104, 105] = step 1 (started 0) (.data [104, 105]) := rfl
  exact onData_lost 1 hs rfl hdata (h.2 _ rfl).head

end Luaw.Tcp
