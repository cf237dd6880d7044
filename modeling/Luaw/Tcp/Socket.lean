import Luaw.Tcp.Connection

/-!
# What happens to one connection

`connect` creates a connection, and its methods and the callbacks of libuv then work on it, in
any order. A method that has to wait suspends the thread that called it, and a callback resumes
threads by their ids. `Effect` lists all that one event can do.
-/

namespace Luaw.Tcp

/-- What becomes of a request to libuv, and of the allocations for it. -/
inductive UvRequest where
  | noMemory
  | refused (e : UvError)
  | accepted
  deriving DecidableEq, Repr

/-- `client_connect`: the connection it creates, and whether it returns that or an error. -/
def clientConnect (port : Int) (tid : Nat) (connectTimeout : Int) (ip4Addr : Bool)
    (request : UvRequest) : Option Connection × Bool :=
  if port = 0 then (none, false)
  else if tid = 0 then (none, false)
  else if ip4Addr = false then (none, false)
  else
    match request with
    | .noMemory => (some (closeConnection newConnection (.other 12)).1, false)
    | .refused e => (some (closeConnection newConnection e).1, false)
    | .accepted =>
      (some { newConnection with
        luaWriterTid := tid
        writeTimer := startTimer newConnection.writeTimer connectTimeout }, true)

/-- `on_client_connect`. -/
def onClientConnect (conn : Connection) (status : Option UvError) : Connection × List Wakeup :=
  let conn := { conn with writeTimer := stopTimer conn.writeTimer }
  match status with
  | some e =>
    -- the results of the calls in `close_connection` are still on the stack, so that the last
    -- `resume_lua_thread` finds one of them for its function, and resumes nobody
    closeConnection conn e
  | none => (conn, resumeLuaThread conn.luaWriterTid true .nil)

/-- The function of `luaw_tcp.lua` in which a thread is suspended. -/
inductive Op where
  | connect
  | read
  | write
  deriving DecidableEq, Repr

/-- The methods of a connection and the callbacks of libuv; `activity` is what libuv makes of the
handle by itself. -/
inductive ConnEvent where
  | startReading (uvReadStart : Option UvError)
  | read (tid : Nat) (readTimeout : Int)
  | write (tid : Nat) (buff : Bytes) (writeTimeout : Int) (uvWrite : Option UvError)
  | close
  | activity (active : Bool)
  | data (bytes : Bytes)
  | onRead (nread : NRead)
  | onWrite (status : Option UvError)
  | onClientConnect (status : Option UvError)
  | timeout
  deriving DecidableEq, Repr

/-- The thread that calls a method in which it may be suspended. -/
def ConnEvent.caller : ConnEvent → Option Nat
  | read tid _ => some tid
  | write tid .. => some tid
  | _ => none

def ConnEvent.isCallback : ConnEvent → Bool
  | startReading _ | read .. | write .. | close | activity _ => false
  | data _ | onRead _ | onWrite _ | onClientConnect _ | timeout => true

def NRead.hasData : NRead → Bool
  | bytes n => n ≠ 0
  | error _ => false

/-- A connection, and whether its connect request is in flight. -/
structure Socket where
  conn : Connection
  connectReq : Bool
  deriving DecidableEq, Repr

/-- One event: the wake-ups it issues, in order, and the thread it suspends. -/
def Socket.step (s : Socket) : ConnEvent → Option (Socket × List Wakeup × Option (Nat × Op))
  | .startReading uvReadStart =>
    let (conn, woken, _) := startReading s.conn uvReadStart
    some ({ s with conn }, woken, none)
  | .read tid readTimeout =>
    let (conn, woken, result) := readCheck s.conn tid readTimeout
    some ({ s with conn }, woken, if result = (true, .nil) then some (tid, .read) else none)
  | .write tid buff writeTimeout uvWrite =>
    let (conn, woken, result) := writeBuffer s.conn tid buff writeTimeout uvWrite
    some ({ s with conn }, woken,
      if result.1 = true ∧ result.2 ≠ .integer 0 then some (tid, .write) else none)
  | .close =>
    let (conn, woken) := closeConnectionLua s.conn
    some ({ s with conn }, woken, none)
  | .activity active =>
    if s.conn.luaRef then
      some ({ s with conn := { s.conn with handle := { s.conn.handle with active } } }, [], none)
    else none
  | .data bytes =>
    match onAlloc s.conn with
    | none => none
    | some (base, len) =>
      if bytes ≠ [] ∧ bytes.length ≤ len ∧ s.conn.handle.active then
        let (conn, woken) := onRead
          { s.conn with readBuffer := storeAt s.conn.readBuffer base bytes } (.bytes bytes.length)
        some ({ s with conn }, woken, none)
      else none
  | .onRead nread =>
    -- with data it is `data`
    if s.conn.handle.active ∧ nread.hasData = false then
      let (conn, woken) := onRead s.conn nread
      some ({ s with conn }, woken, none)
    else none
  | .onWrite status =>
    let (conn, woken) := onWrite s.conn status
    some ({ s with conn }, woken, none)
  | .onClientConnect status =>
    if s.connectReq then
      let (conn, woken) := onClientConnect s.conn status
      some (⟨conn, false⟩, woken, none)
    else none
  | .timeout =>
    if s.conn.readTimer.active ∨ s.conn.writeTimer.active then
      let (conn, woken) := onConnTimeout s.conn
      some ({ s with conn }, woken, none)
    else none

/-- The thread ids a connection has recorded. -/
def Connection.ids (conn : Connection) : List Nat :=
  [conn.luaReaderTid, conn.luaWriterTid].filter (· ≠ 0)

/-- A connection that is closed, and has no thread recorded. -/
structure Connection.Closed (conn : Connection) : Prop where
  luaRef : conn.luaRef = false
  reader : conn.luaReaderTid = 0
  writer : conn.luaWriterTid = 0
  inactive : conn.handle.active = false

/-- Open, with a handle that is not closing, or closed. -/
def Connection.Wf (conn : Connection) : Prop :=
  (conn.luaRef = true ∧ conn.handle.closing = false) ∨ conn.Closed

/-- The ids of the threads that are resumed when the event closes the connection. -/
def ConnEvent.resumed (conn : Connection) : ConnEvent → List Nat
  | close => []
  | startReading _ => { conn with luaReaderTid := 0 }.ids
  | _ => conn.ids

/-- What one event does to an open connection. -/
inductive Effect (s : Socket) : ConnEvent → Socket → List Wakeup → Option (Nat × Op) → Prop where
  | stays {e : ConnEvent} (handle : UvHandle) (hclosing : handle.closing = false) :
      Effect s e { s with conn := { s.conn with handle } } [] none
  | closes {e : ConnEvent} {s' : Socket} {woken : List Wakeup} (hclosed : s'.conn.Closed)
      (hreq : s'.connectReq = true → s.connectReq = true)
      (hwoken : woken.map Wakeup.tid = e.resumed s.conn) : Effect s e s' woken none
  | restarts :
      Effect s (.startReading none) { s with
        conn := { s.conn with
          luaReaderTid := 0
          handle := { s.conn.handle with active := true } } } [] none
  | receives (bytes buffer : Bytes) {woken : List Wakeup}
      (hwoken : woken.map Wakeup.tid = [s.conn.luaReaderTid].filter (· ≠ 0)) :
      Effect s (.data bytes) { s with
        conn := { s.conn with
          readTimer := stopTimer s.conn.readTimer
          readBuffer := buffer
          luaReaderTid := 0
          readLen := 0 } } woken none
  | readsNothing (nread : NRead) (hnread : nread = .bytes 0 ∨ nread = .error .ENOBUFS) :
      Effect s (.onRead nread)
        { s with conn := { s.conn with readTimer := stopTimer s.conn.readTimer } } [] none
  | readWaits {tid : Nat} (readTimeout : Int) (htid : tid ≠ 0)
      (hactive : s.conn.handle.active = true) (hlen : s.conn.readLen = 0) :
      Effect s (.read tid readTimeout) { s with
        conn := { s.conn with
          luaReaderTid := tid
          readTimer := startTimer s.conn.readTimer readTimeout } } [] (some (tid, .read))
  | writeWaits {tid : Nat} (buff : Bytes) (writeTimeout : Int) (htid : tid ≠ 0)
      (hbuff : buff ≠ []) :
      Effect s (.write tid buff writeTimeout none) { s with
        conn := { s.conn with
          writePending := true
          refCount := s.conn.refCount + 1
          luaWriterTid := tid
          writeTimer := startTimer s.conn.writeTimer writeTimeout } } [] (some (tid, .write))
  | written (hpending : s.conn.writePending = true) {woken : List Wakeup}
      (hwoken : woken.map Wakeup.tid = [s.conn.luaWriterTid].filter (· ≠ 0)) :
      Effect s (.onWrite none) { s with
        conn := { s.conn with
          writePending := false
          refCount := s.conn.refCount - 1
          writeTimer := stopTimer s.conn.writeTimer
          luaWriterTid := 0 } } woken none
  | connected (hreq : s.connectReq = true) {woken : List Wakeup}
      (hwoken : woken.map Wakeup.tid = [s.conn.luaWriterTid].filter (· ≠ 0)) :
      Effect s (.onClientConnect none)
        ⟨{ s.conn with writeTimer := stopTimer s.conn.writeTimer }, false⟩ woken none

section Closing

variable {conn : Connection}

theorem map_tid_resumeLuaThread (tid : Nat) (status : Bool) (value : LuaArg) :
    (resumeLuaThread tid status value).map Wakeup.tid = [tid].filter (· ≠ 0) := by
  rw [resumeLuaThread]
  by_cases htid : tid = 0
  · rw [if_pos htid, htid]
    rfl
  · rw [if_neg htid, List.filter_cons_of_pos (by simpa using htid)]
    rfl

theorem closeConnection_closed (h : conn.Closed) (e : UvError) :
    closeConnection conn e = (conn, []) := by
  rw [closeConnection, h.luaRef]
  rfl

theorem closeIfActive_inactive {handle : UvHandle} (h : handle.closing = false) :
    (closeIfActive handle).active = false := by
  rw [closeIfActive, h]
  rfl

theorem unblockReader_eq (conn : Connection) (e : UvError) :
    (unblockReader conn e).1 = { conn with luaReaderTid := 0 } ∧
      (unblockReader conn e).2.map Wakeup.tid = [conn.luaReaderTid].filter (· ≠ 0) := by
  rw [unblockReader]
  by_cases htid : conn.luaReaderTid = 0
  · rw [if_pos htid, ← htid]
    simp
  · rw [if_neg htid]
    exact ⟨rfl, map_tid_resumeLuaThread _ _ _⟩

theorem unblockWriter_eq (conn : Connection) (e : UvError) :
    (unblockWriter conn e).1 = { conn with luaWriterTid := 0 } ∧
      (unblockWriter conn e).2.map Wakeup.tid = [conn.luaWriterTid].filter (· ≠ 0) := by
  rw [unblockWriter]
  by_cases htid : conn.luaWriterTid = 0
  · rw [if_pos htid, ← htid]
    simp
  · rw [if_neg htid]
    split
    · exact ⟨rfl, map_tid_resumeLuaThread _ _ _⟩
    · exact ⟨rfl, map_tid_resumeLuaThread _ _ _⟩

/-- Closing forgets both threads, and resumes the reader first. -/
theorem closeConnection_open (hopen : conn.luaRef = true) (hhandle : conn.handle.closing = false)
    (e : UvError) :
    (closeConnection conn e).1.Closed ∧
      (closeConnection conn e).2.map Wakeup.tid = conn.ids := by
  obtain ⟨hconn₁, hreader⟩ := unblockReader_eq (delinkConnection conn) e
  obtain ⟨hconn₂, hwriter⟩ := unblockWriter_eq (unblockReader (delinkConnection conn) e).1 e
  rw [closeConnection, if_pos hopen]
  constructor
  · show (unblockWriter (unblockReader (delinkConnection conn) e).1 e).1.Closed
    rw [hconn₂, hconn₁]
    exact ⟨rfl, rfl, rfl, closeIfActive_inactive hhandle⟩
  · show ((unblockReader (delinkConnection conn) e).2 ++
      (unblockWriter (unblockReader (delinkConnection conn) e).1 e).2).map Wakeup.tid = conn.ids
    rw [List.map_append, hreader, hwriter, hconn₁, ← List.filter_append]
    rfl

end Closing

section Step

variable {s s' : Socket} {e : ConnEvent} {woken : List Wakeup} {suspended : Option (Nat × Op)}

theorem onWrite_closed {conn : Connection} (h : conn.Closed) (status : Option UvError) :
    (onWrite conn status).1.Closed ∧ (onWrite conn status).2 = [] := by
  rw [onWrite]
  split
  · have hclosed : { conn with writePending := false, refCount := conn.refCount - 1 }.Closed :=
      ⟨h.luaRef, h.reader, h.writer, h.inactive⟩
    cases status with
    | some e =>
      show (closeConnection _ e).1.Closed ∧ (closeConnection _ e).2 = []
      rw [closeConnection_closed hclosed]
      exact ⟨hclosed, rfl⟩
    | none => exact ⟨⟨h.luaRef, h.reader, rfl, h.inactive⟩, if_pos h.writer⟩
  · exact ⟨h, rfl⟩

theorem onClientConnect_closed {conn : Connection} (h : conn.Closed) (status : Option UvError) :
    (onClientConnect conn status).1.Closed ∧ (onClientConnect conn status).2 = [] := by
  have hclosed : { conn with writeTimer := stopTimer conn.writeTimer }.Closed :=
    ⟨h.luaRef, h.reader, h.writer, h.inactive⟩
  cases status with
  | some e =>
    show (closeConnection _ e).1.Closed ∧ (closeConnection _ e).2 = []
    rw [closeConnection_closed hclosed]
    exact ⟨hclosed, rfl⟩
  | none => exact ⟨hclosed, if_pos h.writer⟩

/-- Nothing comes of an event at a closed connection. -/
theorem Socket.step_closed (hclosed : s.conn.Closed) (h : s.step e = some (s', woken, suspended)) :
    s'.conn.Closed ∧ (s'.connectReq = true → s.connectReq = true) ∧ woken = [] ∧
      suspended = none := by
  have hopen : ¬s.conn.luaRef = true := by
    rw [hclosed.luaRef]
    exact Bool.false_ne_true
  have hinactive : ¬s.conn.handle.active = true := by
    rw [hclosed.inactive]
    exact Bool.false_ne_true
  cases e with
  | startReading r =>
    simp only [step, startReading, if_neg hopen] at h
    cases h
    exact ⟨hclosed, id, rfl, rfl⟩
  | read tid readTimeout =>
    simp only [step, readCheck, if_neg hopen] at h
    cases h
    exact ⟨hclosed, id, rfl, rfl⟩
  | write tid buff writeTimeout r =>
    simp only [step, writeBuffer, if_neg hopen] at h
    cases h
    exact ⟨hclosed, id, rfl, rfl⟩
  | close =>
    simp only [step, closeConnectionLua, if_neg hopen] at h
    cases h
    exact ⟨hclosed, id, rfl, rfl⟩
  | activity active =>
    rw [step, if_neg hopen] at h
    cases h
  | data bytes =>
    rw [step] at h
    split at h
    · cases h
    · rw [if_neg fun hdata => hinactive hdata.2.2] at h
      cases h
  | onRead nread =>
    rw [step, if_neg fun hread => hinactive hread.1] at h
    cases h
  | onWrite status =>
    -- a write request may still be pending
    obtain ⟨hafter, hnone⟩ := onWrite_closed hclosed status
    cases h
    exact ⟨hafter, id, hnone, rfl⟩
  | onClientConnect status =>
    obtain ⟨hafter, hnone⟩ := onClientConnect_closed hclosed status
    obtain ⟨hreq, heq⟩ := Option.ite_none_right_eq_some.mp h
    cases heq
    exact ⟨hafter, fun _ => hreq, hnone, rfl⟩
  | timeout =>
    simp only [step, onConnTimeout, closeConnection_closed hclosed] at h
    split at h
    · cases h
      exact ⟨hclosed, id, rfl, rfl⟩
    · cases h

theorem Socket.step_read {tid : Nat} (hopen : s.conn.luaRef = true) (htid : tid ≠ 0)
    (hactive : s.conn.handle.active = true) (hlen : s.conn.readLen = 0) (readTimeout : Int) :
    s.step (.read tid readTimeout) = some ({ s with
      conn := { s.conn with
        luaReaderTid := tid
        readTimer := startTimer s.conn.readTimer readTimeout } }, [], some (tid, .read)) := by
  simp only [step, readCheck, if_pos hopen, if_pos hactive, if_pos hlen, if_neg htid, if_true]

theorem Socket.step_write {tid : Nat} {buff : Bytes} (hopen : s.conn.luaRef = true)
    (htid : tid ≠ 0) (hbuff : buff ≠ []) (writeTimeout : Int) :
    s.step (.write tid buff writeTimeout none) = some ({ s with
      conn := { s.conn with
        writePending := true
        refCount := s.conn.refCount + 1
        luaWriterTid := tid
        writeTimer := startTimer s.conn.writeTimer writeTimeout } }, [], some (tid, .write)) := by
  have hlen : ¬buff.length = 0 := List.length_eq_zero_iff.not.mpr hbuff
  have hwaits : LuaArg.integer buff.length ≠ .integer 0 := fun heq => hlen (LuaArg.integer.inj heq)
  simp only [step, writeBuffer, if_pos hopen, if_neg htid, if_neg hlen, ne_eq, hwaits,
    not_false_eq_true, and_self, if_true]

/-- Lua has dropped both threads when the connection is closed. -/
theorem Socket.step_close (hopen : s.conn.luaRef = true) (hhandle : s.conn.handle.closing = false)
    (h : s.step .close = some (s', woken, suspended)) :
    s'.conn.Closed ∧ woken = [] ∧ suspended = none := by
  obtain ⟨hclosed, hwoken⟩ :=
    @closeConnection_open { s.conn with luaReaderTid := 0, luaWriterTid := 0 } hopen hhandle .EOF
  simp only [step, closeConnectionLua, if_pos hopen] at h
  cases h
  exact ⟨hclosed, List.map_eq_nil_iff.mp hwoken, rfl⟩

/-- `startReading` has dropped the reader. -/
theorem Socket.step_startReading (hopen : s.conn.luaRef = true)
    (hhandle : s.conn.handle.closing = false) {r : Option UvError}
    (h : s.step (.startReading r) = some (s', woken, suspended)) :
    s'.conn.luaReaderTid = 0 ∧ suspended = none ∧
      (s'.conn.luaWriterTid = s.conn.luaWriterTid ∧ woken = [] ∨
        s'.conn.Closed ∧ woken.map Wakeup.tid = [s.conn.luaWriterTid].filter (· ≠ 0)) := by
  simp only [step, startReading, if_pos hopen] at h
  cases r with
  | none =>
    cases h
    exact ⟨rfl, rfl, .inl ⟨rfl, rfl⟩⟩
  | some e =>
    obtain ⟨hclosed, hwoken⟩ :=
      @closeConnection_open { s.conn with luaReaderTid := 0 } hopen hhandle e
    cases h
    exact ⟨hclosed.reader, rfl, .inr ⟨hclosed, hwoken⟩⟩

theorem Socket.effect_startReading (hopen : s.conn.luaRef = true)
    (hhandle : s.conn.handle.closing = false) {r : Option UvError}
    (h : s.step (.startReading r) = some (s', woken, suspended)) :
    Effect s (.startReading r) s' woken suspended := by
  simp only [step, startReading, if_pos hopen] at h
  cases r with
  | none =>
    cases h
    exact .restarts
  | some e =>
    cases h
    obtain ⟨hclosed, hwoken⟩ :=
      @closeConnection_open { s.conn with luaReaderTid := 0 } hopen hhandle e
    exact .closes hclosed id hwoken

/-- A read waits, finds bytes in the buffer, or fails; on an idle handle it closes the
connection. -/
theorem Socket.effect_read (hopen : s.conn.luaRef = true)
    (hhandle : s.conn.handle.closing = false) {tid : Nat} {readTimeout : Int}
    (h : s.step (.read tid readTimeout) = some (s', woken, suspended)) :
    Effect s (.read tid readTimeout) s' woken suspended := by
  obtain ⟨hclosed, hwoken⟩ := closeConnection_open hopen hhandle .BADFLAGS
  by_cases hwaits : tid ≠ 0 ∧ s.conn.handle.active = true ∧ s.conn.readLen = 0
  · obtain ⟨htid, hactive, hlen⟩ := hwaits
    rw [step_read hopen htid hactive hlen] at h
    cases h
    exact .readWaits readTimeout htid hactive hlen
  · simp only [step, readCheck, if_pos hopen] at h
    by_cases hactive : s.conn.handle.active = true
    · rw [if_pos hactive] at h
      by_cases hlen : s.conn.readLen = 0
      · have htid : tid = 0 := by
          by_contra htid
          exact hwaits ⟨htid, hactive, hlen⟩
        rw [if_pos hlen, if_pos htid] at h
        cases h
        exact .stays s.conn.handle hhandle
      · rw [if_neg hlen] at h
        cases h
        exact .stays s.conn.handle hhandle
    · rw [if_neg hactive] at h
      cases h
      exact .closes hclosed id hwoken

/-- A write that libuv accepts waits; one that it refuses closes the connection. -/
theorem Socket.effect_write (hopen : s.conn.luaRef = true)
    (hhandle : s.conn.handle.closing = false) {tid : Nat} {buff : Bytes} {writeTimeout : Int}
    {r : Option UvError}
    (h : s.step (.write tid buff writeTimeout r) = some (s', woken, suspended)) :
    Effect s (.write tid buff writeTimeout r) s' woken suspended := by
  by_cases htid : tid = 0
  · simp only [step, writeBuffer, if_pos hopen, if_pos htid] at h
    cases h
    exact .stays s.conn.handle hhandle
  · by_cases hbuff : buff = []
    · simp only [step, writeBuffer, if_pos hopen, if_neg htid, hbuff] at h
      cases h
      exact .stays s.conn.handle hhandle
    · cases r with
      | some e =>
        obtain ⟨hclosed, hwoken⟩ := closeConnection_open hopen hhandle e
        have hlen : ¬buff.length = 0 := List.length_eq_zero_iff.not.mpr hbuff
        simp only [step, writeBuffer, if_pos hopen, if_neg htid, if_neg hlen] at h
        cases h
        exact .closes hclosed id hwoken
      | none =>
        rw [step_write hopen htid hbuff] at h
        cases h
        exact .writeWaits buff writeTimeout htid hbuff

theorem Socket.effect_data {bytes : Bytes}
    (h : s.step (.data bytes) = some (s', woken, suspended)) :
    Effect s (.data bytes) s' woken suspended := by
  rw [step] at h
  split at h
  · cases h
  · split at h
    · next hdata =>
      obtain ⟨n, hn⟩ := Nat.exists_eq_succ_of_ne_zero
        (fun hzero => hdata.1 (List.length_eq_zero_iff.mp hzero))
      simp only [onRead, hn] at h
      cases h
      exact .receives bytes _ (map_tid_resumeLuaThread _ _ _)
    · cases h

/-- `on_read` without data does nothing but stop the timer, or it closes the connection. -/
theorem Socket.effect_onRead (hopen : s.conn.luaRef = true)
    (hhandle : s.conn.handle.closing = false) {nread : NRead}
    (h : s.step (.onRead nread) = some (s', woken, suspended)) :
    Effect s (.onRead nread) s' woken suspended := by
  rw [step] at h
  split at h
  · next hread =>
    cases nread with
    | bytes n =>
      have hn : n = 0 := by simpa [NRead.hasData] using hread.2
      subst hn
      cases h
      exact .readsNothing _ (.inl rfl)
    | error e =>
      obtain ⟨hclosed, hwoken⟩ := @closeConnection_open
        { s.conn with readTimer := stopTimer s.conn.readTimer } hopen hhandle e
      cases e with
      | ENOBUFS =>
        cases h
        exact .readsNothing _ (.inr rfl)
      | _ =>
        cases h
        exact .closes hclosed id hwoken
  · cases h

theorem Socket.effect_onWrite (hopen : s.conn.luaRef = true)
    (hhandle : s.conn.handle.closing = false) {status : Option UvError}
    (h : s.step (.onWrite status) = some (s', woken, suspended)) :
    Effect s (.onWrite status) s' woken suspended := by
  simp only [step, onWrite] at h
  split at h
  · next hpending =>
    cases status with
    | some e =>
      obtain ⟨hclosed, hwoken⟩ := @closeConnection_open
        { s.conn with writePending := false, refCount := s.conn.refCount - 1 } hopen hhandle e
      cases h
      exact .closes hclosed id hwoken
    | none =>
      cases h
      exact .written hpending (map_tid_resumeLuaThread _ _ _)
  · cases h
    exact .stays s.conn.handle hhandle

theorem Socket.effect_onClientConnect (hopen : s.conn.luaRef = true)
    (hhandle : s.conn.handle.closing = false) {status : Option UvError}
    (h : s.step (.onClientConnect status) = some (s', woken, suspended)) :
    Effect s (.onClientConnect status) s' woken suspended := by
  rw [step] at h
  split at h
  · next hreq =>
    cases status with
    | some e =>
      obtain ⟨hclosed, hwoken⟩ := @closeConnection_open
        { s.conn with writeTimer := stopTimer s.conn.writeTimer } hopen hhandle e
      cases h
      exact .closes hclosed (fun _ => hreq) hwoken
    | none =>
      cases h
      exact .connected hreq (map_tid_resumeLuaThread _ _ _)
  · cases h

/-- What an event does to an open connection. -/
theorem Socket.step_open (hopen : s.conn.luaRef = true) (hhandle : s.conn.handle.closing = false)
    (h : s.step e = some (s', woken, suspended)) : Effect s e s' woken suspended := by
  cases e with
  | startReading r => exact effect_startReading hopen hhandle h
  | read tid readTimeout => exact effect_read hopen hhandle h
  | write tid buff writeTimeout r => exact effect_write hopen hhandle h
  | close =>
    obtain ⟨hclosed, hwoken⟩ :=
      @closeConnection_open { s.conn with luaReaderTid := 0, luaWriterTid := 0 } hopen hhandle .EOF
    simp only [step, closeConnectionLua, if_pos hopen] at h
    cases h
    exact .closes hclosed id hwoken
  | activity active =>
    rw [step, if_pos hopen] at h
    cases h
    exact .stays _ hhandle
  | data bytes => exact effect_data h
  | onRead nread => exact effect_onRead hopen hhandle h
  | onWrite status => exact effect_onWrite hopen hhandle h
  | onClientConnect status => exact effect_onClientConnect hopen hhandle h
  | timeout =>
    obtain ⟨hclosed, hwoken⟩ := closeConnection_open hopen hhandle .ECANCELED
    simp only [step, onConnTimeout] at h
    split at h
    · cases h
      exact .closes hclosed id hwoken
    · cases h

theorem Socket.step_wf (hwf : s.conn.Wf) (h : s.step e = some (s', woken, suspended)) :
    s'.conn.Wf := by
  obtain ⟨hopen, hhandle⟩ | hclosed := hwf
  · cases step_open hopen hhandle h with
    | stays handle hclosing => exact .inl ⟨hopen, hclosing⟩
    | closes hclosed => exact .inr hclosed
    | restarts | receives | readsNothing | readWaits | writeWaits | written | connected =>
      exact .inl ⟨hopen, hhandle⟩
  · exact .inr (step_closed hclosed h).1

end Step

end Luaw.Tcp
