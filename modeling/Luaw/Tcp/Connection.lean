import Luaw.Bytes

/-!
# TCP connections

The connection object of `luaw_tcp.c` and the C functions that work on it. libuv is seen
through its callbacks: a function returns the new connection together with the threads it
resumes, in order. `resume_lua_thread` passes a wake-up on only for a non-zero thread id.
-/

namespace Luaw.Tcp

/-- `CONN_BUFFER_SIZE` of `luaw_tcp.h`. -/
def connBufferSize : Nat := 4096

/-- The negative status codes of libuv that the code tells apart. -/
inductive UvError where
  | EOF
  | ECANCELED
  | ENOBUFS
  | BADFLAGS
  | other (code : Nat)
  deriving DecidableEq, Repr

/-- What `uv_is_active` and `uv_is_closing` say of a handle. -/
structure UvHandle where
  active : Bool
  closing : Bool
  deriving DecidableEq, Repr

/-- `close_if_active`: a handle is closed once, and closing stops it. -/
def closeIfActive (h : UvHandle) : UvHandle :=
  if h.closing then h else { active := false, closing := true }

/-- `start_timer`. -/
def startTimer (timer : UvHandle) (timeout : Int) : UvHandle :=
  if 0 < timeout ∧ timer.active = false then { timer with active := true } else timer

/-- `stop_timer`. -/
def stopTimer (timer : UvHandle) : UvHandle :=
  if timer.active then { timer with active := false } else timer

/-- `connection_t`. A zero thread id stands for no thread; `luaRef` says whether the pointer
to Lua's userdata is non-null, `writePending` whether `write_req.data` is. -/
structure Connection where
  handle : UvHandle
  luaReaderTid : Nat
  readLen : Nat
  readTimer : UvHandle
  luaWriterTid : Nat
  writeTimer : UvHandle
  writePending : Bool
  refCount : Int
  luaRef : Bool
  readBuffer : Bytes
  deriving DecidableEq, Repr

/-- `new_connection`: four references, for the userdata and the three libuv handles. -/
def newConnection : Connection where
  handle := ⟨false, false⟩
  luaReaderTid := 0
  readLen := 0
  readTimer := ⟨false, false⟩
  luaWriterTid := 0
  writeTimer := ⟨false, false⟩
  writePending := false
  refCount := 4
  luaRef := true
  readBuffer := List.replicate connBufferSize 0

/-- A value that a callback hands to the thread it resumes, or a method to its caller. -/
inductive LuaArg where
  | nil
  | integer (n : Nat)
  | str (s : Bytes)
  | mesg (s : String)
  | strerror (e : UvError)
  deriving DecidableEq, Repr

/-- A call of `resumeThreadId(tid, status, value)`. -/
structure Wakeup where
  tid : Nat
  status : Bool
  value : LuaArg
  deriving DecidableEq, Repr

/-- `resume_lua_thread`: nothing is called for a zero thread id. -/
def resumeLuaThread (tid : Nat) (status : Bool) (value : LuaArg) : List Wakeup :=
  if tid = 0 then [] else [⟨tid, status, value⟩]

/-- The part of `close_connection` that unblocks the reader thread. -/
def unblockReader (conn : Connection) (status : UvError) : Connection × List Wakeup :=
  if conn.luaReaderTid = 0 then (conn, []) else
    ({ conn with luaReaderTid := 0 },
      resumeLuaThread conn.luaReaderTid false
        (if status = .EOF then .mesg "EOF" else .strerror status))

/-- The part of `close_connection` that unblocks the writer thread. -/
def unblockWriter (conn : Connection) (status : UvError) : Connection × List Wakeup :=
  if conn.luaWriterTid = 0 then (conn, []) else
    ({ conn with luaWriterTid := 0 },
      if status = .EOF then resumeLuaThread conn.luaWriterTid true (.integer 0)
      else resumeLuaThread conn.luaWriterTid false (.strerror status))

/-- The part of `close_connection` before any thread is unblocked. -/
def delinkConnection (conn : Connection) : Connection :=
  { conn with
    luaRef := false
    refCount := conn.refCount - 1
    readTimer := closeIfActive (stopTimer conn.readTimer)
    writeTimer := closeIfActive (stopTimer conn.writeTimer)
    handle := closeIfActive conn.handle }

/-- `close_connection`. A null `lua_ref` marks a connection that is closed already. All its
callers pass a negative status. The resumed reader finds the connection closed, so nothing it
does changes the fields that the writer's part then looks at. -/
def closeConnection (conn : Connection) (status : UvError) : Connection × List Wakeup :=
  if conn.luaRef then
    let (conn₁, reader) := unblockReader (delinkConnection conn) status
    let (conn₂, writer) := unblockWriter conn₁ status
    (conn₂, reader ++ writer)
  else (conn, [])

/-- `on_conn_timeout`. -/
def onConnTimeout (conn : Connection) : Connection × List Wakeup :=
  closeConnection conn .ECANCELED

/-- `close_connection_lua`, the `conn:close()` of Lua. -/
def closeConnectionLua (conn : Connection) : Connection × List Wakeup :=
  if conn.luaRef then
    closeConnection { conn with luaReaderTid := 0, luaWriterTid := 0 } .EOF
  else (conn, [])

/-- `on_alloc`: where libuv may put the next bytes, as offset and length of the free part of
the read buffer. -/
def onAlloc (conn : Connection) : Option (Nat × Nat) :=
  let freeSpace := connBufferSize - conn.readLen
  if 0 < freeSpace then some (conn.readLen, freeSpace) else none

/-- libuv stores received bytes at `buf->base`. -/
def storeAt (buffer : Bytes) (base : Nat) (bytes : Bytes) : Bytes :=
  buffer.take base ++ bytes ++ buffer.drop (base + bytes.length)

/-- The `nread` of an `on_read` callback. -/
inductive NRead where
  | bytes (n : Nat)
  | error (e : UvError)
  deriving DecidableEq, Repr

/-- `on_read`. -/
def onRead (conn : Connection) (nread : NRead) : Connection × List Wakeup :=
  let conn := { conn with readTimer := stopTimer conn.readTimer }
  match nread with
  | .bytes 0 => (conn, [])
  | .error .ENOBUFS => (conn, [])
  | .bytes n =>
    ({ conn with luaReaderTid := 0, readLen := 0 },
      resumeLuaThread conn.luaReaderTid true (.str (conn.readBuffer.take (conn.readLen + n))))
  | .error e => closeConnection conn e

/-- What a method returns to Lua: a status and a value. -/
abbrev LuaResult := Bool × LuaArg

/-- `start_reading`; `uvReadStart` is what `uv_read_start` answers. -/
def startReading (conn : Connection) (uvReadStart : Option UvError) :
    Connection × List Wakeup × LuaResult :=
  if conn.luaRef then
    let conn := { conn with luaReaderTid := 0 }
    match uvReadStart with
    | some e =>
      let (conn, woken) := closeConnection conn e
      (conn, woken, (false, .strerror e))
    | none => ({ conn with handle := { conn.handle with active := true } }, [], (true, .nil))
  else (conn, [], (false, .mesg "Connection closed"))

/-- `read_check`. -/
def readCheck (conn : Connection) (tid : Nat) (readTimeout : Int) :
    Connection × List Wakeup × LuaResult :=
  if conn.luaRef then
    if conn.handle.active then
      if conn.readLen = 0 then
        -- empty buffer, record reader tid and block (yield) in lua
        if tid = 0 then (conn, [], (false, .mesg "read() specified invalid thread id"))
        else
          ({ conn with luaReaderTid := tid, readTimer := startTimer conn.readTimer readTimeout },
            [], (true, .nil))
      else
        -- data available in buffer
        (conn, [], (true, .str (conn.readBuffer.take conn.readLen)))
    else
      let (conn, woken) := closeConnection conn .BADFLAGS
      (conn, woken, (false,
        .mesg "read() called on conn that is not registered to receive read events"))
  else (conn, [], (false, .mesg "Connection closed"))

/-- `on_write`; the reference count is only counted here, not acted upon. -/
def onWrite (conn : Connection) (status : Option UvError) : Connection × List Wakeup :=
  if conn.writePending then
    let conn := { conn with writePending := false, refCount := conn.refCount - 1 }
    match status with
    | some e => closeConnection conn e
    | none =>
      ({ conn with writeTimer := stopTimer conn.writeTimer, luaWriterTid := 0 },
        resumeLuaThread conn.luaWriterTid true (.integer 1))
  else (conn, [])

/-- `write_buffer`; `uvWrite` is what `uv_write` answers. -/
def writeBuffer (conn : Connection) (tid : Nat) (buff : Bytes) (writeTimeout : Int)
    (uvWrite : Option UvError) : Connection × List Wakeup × LuaResult :=
  if conn.luaRef then
    if tid = 0 then (conn, [], (false, .mesg "write() specified invalid thread id"))
    else if buff.length = 0 then (conn, [], (true, .integer 0))
    else
      match uvWrite with
      | some e =>
        let (conn, woken) := closeConnection conn e
        (conn, woken, (false, .strerror e))
      | none =>
        ({ conn with
            writePending := true
            refCount := conn.refCount + 1
            luaWriterTid := tid
            writeTimer := startTimer conn.writeTimer writeTimeout },
          [], (true, .integer buff.length))
  else (conn, [], (false, .mesg "Connection closed"))

/-- Everything `read_check` can do: fail, maybe closing the connection; record the thread that
is going to wait; or hand out buffered bytes. -/
theorem readCheck_cases (conn : Connection) (tid : Nat) (readTimeout : Int) :
    (∃ r v, readCheck conn tid readTimeout = (r.1, r.2, (false, v)) ∧
      (r = (conn, []) ∨ ∃ e, r = closeConnection conn e)) ∨
    (tid ≠ 0 ∧ conn.readLen = 0 ∧ readCheck conn tid readTimeout =
      ({ conn with luaReaderTid := tid, readTimer := startTimer conn.readTimer readTimeout },
        [], (true, .nil))) ∨
    (conn.readLen ≠ 0 ∧ readCheck conn tid readTimeout =
      (conn, [], (true, .str (conn.readBuffer.take conn.readLen)))) := by
  unfold readCheck
  split
  · split
    · split
      · split
        · exact .inl ⟨(conn, []), _, rfl, .inl rfl⟩
        · exact .inr (.inl ⟨‹_›, ‹_›, rfl⟩)
      · exact .inr (.inr ⟨‹_›, rfl⟩)
    · exact .inl ⟨closeConnection conn .BADFLAGS, _, rfl, .inr ⟨_, rfl⟩⟩
  · exact .inl ⟨(conn, []), _, rfl, .inl rfl⟩

/-- Everything `write_buffer` can do: fail, maybe closing the connection; find nothing to
write; or start a write request and record its thread. -/
theorem writeBuffer_cases (conn : Connection) (tid : Nat) (buff : Bytes) (writeTimeout : Int)
    (uvWrite : Option UvError) :
    (∃ r v, writeBuffer conn tid buff writeTimeout uvWrite = (r.1, r.2, (false, v)) ∧
      (r = (conn, []) ∨ ∃ e, r = closeConnection conn e)) ∨
    writeBuffer conn tid buff writeTimeout uvWrite = (conn, [], (true, .integer 0)) ∨
    (tid ≠ 0 ∧ buff.length ≠ 0 ∧ writeBuffer conn tid buff writeTimeout uvWrite =
      ({ conn with
          writePending := true
          refCount := conn.refCount + 1
          luaWriterTid := tid
          writeTimer := startTimer conn.writeTimer writeTimeout },
        [], (true, .integer buff.length))) := by
  unfold writeBuffer
  split
  · split
    · exact .inl ⟨(conn, []), _, rfl, .inl rfl⟩
    · split
      · exact .inr (.inl rfl)
      · cases uvWrite with
        | some e => exact .inl ⟨closeConnection conn e, _, rfl, .inr ⟨e, rfl⟩⟩
        | none => exact .inr (.inr ⟨‹_›, ‹_›, rfl⟩)
  · exact .inl ⟨(conn, []), _, rfl, .inl rfl⟩

end Luaw.Tcp
