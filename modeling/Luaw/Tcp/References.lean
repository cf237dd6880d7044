import Luaw.Foundations.RefCount
import Luaw.Foundations.Transition
import Luaw.Tcp.Socket
import Luaw.Timer.References

/-!
# The references to a connection

A connection is referred to by Lua's userdata until it is closed, by each of libuv's three handles
until the callback of `uv_close`, and by each write until `on_write` has returned. A function that
resumes a thread is cut in two there: the resumed thread may call the methods of the connection
before the function goes on.
-/

namespace Luaw.Tcp

open RefCount (Cell)
open Transition

/-- The handles of libuv in `connection_t`. -/
inductive HandleId where
  | readTimer
  | writeTimer
  | handle
  deriving DecidableEq, Repr

def HandleId.all : List HandleId := [readTimer, writeTimer, handle]

def Connection.uvHandle (conn : Connection) : HandleId → UvHandle
  | .readTimer => conn.readTimer
  | .writeTimer => conn.writeTimer
  | .handle => conn.handle

/-- What is left to do of a C function: of `close_connection` for the reader and for the writer,
and the `GC_REF` at the end of `on_write`. -/
inductive Rest where
  | unblockReader
  | unblockWriter
  | finishWrite
  deriving DecidableEq, Repr

/-- A connection in memory. `userdata` says whether the pointer in Lua's userdata is non-null,
`data` whether that in a handle is, and `closed` of which handles libuv has called the callback of
`uv_close`. -/
structure ConnMemory where
  conn : Connection
  freed : Bool
  userdata : Bool
  data : HandleId → Bool
  closed : HandleId → Bool
  /-- The writes that libuv has accepted and whose callback has not returned. -/
  writes : Nat
  connectReq : Bool
  /-- For each thread that is being resumed, what the functions that resumed it still do. -/
  frames : List (List Rest)
  /-- A function has used the connection after it was freed. -/
  usedFreed : Bool

/-- The methods of a connection, the callbacks of libuv, and the return of a resumed thread. -/
inductive RefEvent where
  | newConnection
  | accept (uvAccept : Option UvError)
  | connect (port : Int) (tid : Nat) (connectTimeout : Int) (ip4Addr : Bool)
      (request : UvRequest)
  | startReading (uvReadStart : Option UvError)
  | read (tid : Nat) (readTimeout : Int)
  | write (tid : Nat) (buff : Bytes) (writeTimeout : Int) (uvWrite : Option UvError)
  | close
  | gc
  | activity (active : Bool)
  | onAlloc
  | onRead (nread : NRead)
  | onWrite (status : Option UvError)
  | onClientConnect (status : Option UvError)
  | onConnTimeout
  | freeHandle (h : HandleId)
  | yields
  deriving DecidableEq, Repr

namespace ConnMemory

def cell (s : ConnMemory) : Cell := ⟨s.conn.refCount, s.freed⟩

/-- `new_connection`. -/
def newConnection : ConnMemory where
  conn := Tcp.newConnection
  freed := false
  userdata := true
  data := fun _ => true
  closed := fun _ => false
  writes := 0
  connectReq := false
  frames := []
  usedFreed := false

def touch (s : ConnMemory) : ConnMemory :=
  { s with usedFreed := s.usedFreed || s.freed }

/-- `GC_REF`. -/
def gcRef (s : ConnMemory) : ConnMemory :=
  let s := s.touch
  { s with
    conn := { s.conn with refCount := s.conn.refCount - 1 }
    freed := s.cell.release.freed }

/-- The functions go on until one of them resumes a thread. -/
def go (s : ConnMemory) : List Rest → ConnMemory
  | [] => s
  | .unblockReader :: rest =>
    let s := s.touch
    if s.conn.luaReaderTid = 0 then s.go rest
    else { s with conn := { s.conn with luaReaderTid := 0 }, frames := rest :: s.frames }
  | .unblockWriter :: rest =>
    let s := s.touch
    if s.conn.luaWriterTid = 0 then s.go rest
    else { s with conn := { s.conn with luaWriterTid := 0 }, frames := rest :: s.frames }
  | .finishWrite :: rest => { s.gcRef with writes := s.writes - 1 }.go rest

/-- `resume_lua_thread`, and what its caller does then. -/
def resume (s : ConnMemory) (tid : Nat) (rest : List Rest) : ConnMemory :=
  if tid = 0 then s.go rest else { s with frames := rest :: s.frames }

/-- `close_connection`, and what its caller does then. -/
def closeConnection (s : ConnMemory) (rest : List Rest) : ConnMemory :=
  let s := s.touch
  if s.conn.luaRef then
    { s with conn := delinkConnection s.conn, userdata := false }.go
      (.unblockReader :: .unblockWriter :: rest)
  else s.go rest

/-- The connection that `on_server_connect` creates. -/
def accept (uvAccept : Option UvError) : ConnMemory :=
  match uvAccept with
  | some _ => newConnection.closeConnection []
  | none => newConnection

/-- `client_connect`; none when it fails before there is a connection. -/
def clientConnect (port : Int) (tid : Nat) (connectTimeout : Int) (ip4Addr : Bool)
    (request : UvRequest) : Option ConnMemory :=
  if port = 0 then none
  else if tid = 0 then none
  else if ip4Addr = false then none
  else
    match request with
    | .noMemory | .refused _ => some (newConnection.closeConnection [])
    | .accepted =>
      some { newConnection with
        conn := { newConnection.conn with
          luaWriterTid := tid
          writeTimer := startTimer newConnection.conn.writeTimer connectTimeout }
        connectReq := true }

/-- A method looks for the connection in the userdata first. -/
def method (s : ConnMemory) (body : ConnMemory → ConnMemory) : ConnMemory :=
  if s.userdata then body s.touch else s

/-- `start_reading`. -/
def startReading (s : ConnMemory) (uvReadStart : Option UvError) : ConnMemory :=
  let s := { s with conn := { s.conn with luaReaderTid := 0 } }
  match uvReadStart with
  | some _ => s.closeConnection []
  | none => { s with conn := { s.conn with handle := { s.conn.handle with active := true } } }

/-- `read_check`. -/
def readCheck (s : ConnMemory) (tid : Nat) (readTimeout : Int) : ConnMemory :=
  if s.conn.handle.active then { s with conn := (Tcp.readCheck s.conn tid readTimeout).1 }
  else s.closeConnection []

/-- `write_buffer`. -/
def writeBuffer (s : ConnMemory) (tid : Nat) (buff : Bytes) (writeTimeout : Int)
    (uvWrite : Option UvError) : ConnMemory :=
  if tid = 0 ∨ buff = [] then s
  else
    match uvWrite with
    | some _ => s.closeConnection []
    | none =>
      { s with
        conn := (Tcp.writeBuffer s.conn tid buff writeTimeout none).1
        writes := s.writes + 1 }

/-- `close_connection_lua` and `connection_gc`. -/
def closeConnectionLua (s : ConnMemory) : ConnMemory :=
  { s with conn := { s.conn with luaReaderTid := 0, luaWriterTid := 0 } }.closeConnection []

/-- `on_read`. -/
def onRead (s : ConnMemory) (nread : NRead) : ConnMemory :=
  let s := s.touch
  let s := { s with conn := { s.conn with readTimer := stopTimer s.conn.readTimer } }
  match nread with
  | .bytes 0 => s
  | .error .ENOBUFS => s
  | .bytes _ =>
    { s with conn := { s.conn with luaReaderTid := 0, readLen := 0 } }.resume
      s.conn.luaReaderTid []
  | .error _ => s.closeConnection []

/-- `on_write`. With a null `req->data` the write is over at once. -/
def onWrite (s : ConnMemory) (status : Option UvError) : ConnMemory :=
  let s := s.touch
  if s.conn.writePending then
    let s := { s with conn := { s.conn with writePending := false } }
    match status with
    | some _ => s.closeConnection [.finishWrite]
    | none =>
      { s with
        conn := { s.conn with
          writeTimer := stopTimer s.conn.writeTimer
          luaWriterTid := 0 } }.resume s.conn.luaWriterTid [.finishWrite]
  else { s with writes := s.writes - 1 }

/-- `on_client_connect`. When it has closed the connection, its own `resume_lua_thread` resumes
nobody: it takes a result of the calls in `close_connection` for its function. -/
def onClientConnect (s : ConnMemory) (status : Option UvError) : ConnMemory :=
  let s := s.touch
  let s := { s with
    conn := { s.conn with writeTimer := stopTimer s.conn.writeTimer }
    connectReq := false }
  if status ≠ none ∧ s.conn.luaRef then s.closeConnection []
  else s.resume s.conn.luaWriterTid []

/-- `free_timer` and `free_tcp_handle`. -/
def freeHandle (s : ConnMemory) (h : HandleId) : ConnMemory :=
  let s := { s.touch with closed := fun h' => if h' = h then true else s.closed h' }
  if s.data h then { s with data := fun h' => if h' = h then false else s.data h' }.gcRef else s

/-- libuv calls back when no thread runs, once for each accepted write and for each closed handle,
and for a connect request before the close of its handle. -/
def event (s : ConnMemory) : RefEvent → Option ConnMemory
  | .newConnection | .accept _ | .connect .. => none
  | .startReading uvReadStart => some (s.method (·.startReading uvReadStart))
  | .read tid readTimeout => some (s.method (·.readCheck tid readTimeout))
  | .write tid buff writeTimeout uvWrite =>
    some (s.method (·.writeBuffer tid buff writeTimeout uvWrite))
  | .close => some (s.method closeConnectionLua)
  | .gc => some (s.method closeConnectionLua)
  | .activity active =>
    if s.conn.luaRef then
      some { s with conn := { s.conn with handle := { s.conn.handle with active } } }
    else none
  | .onAlloc => if s.frames = [] ∧ s.conn.handle.active then some s.touch else none
  | .onRead nread =>
    if s.frames = [] ∧ s.conn.handle.active then some (s.onRead nread) else none
  | .onWrite status => if s.frames = [] ∧ 0 < s.writes then some (s.onWrite status) else none
  | .onClientConnect status =>
    if s.frames = [] ∧ s.connectReq ∧ s.closed .handle = false then
      some (s.onClientConnect status)
    else none
  | .onConnTimeout =>
    if s.frames = [] ∧ (s.conn.readTimer.active ∨ s.conn.writeTimer.active) then
      some (s.touch.closeConnection [])
    else none
  | .freeHandle h =>
    if s.frames = [] ∧ (s.conn.uvHandle h).closing ∧ s.closed h = false then
      some (s.freeHandle h)
    else none
  | .yields =>
    match s.frames with
    | [] => none
    | rest :: frames => some ({ s with frames }.go rest)

/-- A connection is created once, and everything else is about that connection. -/
def step : Option ConnMemory → RefEvent → Option (Option ConnMemory)
  | none, .newConnection => some (some newConnection)
  | none, .accept uvAccept => some (some (accept uvAccept))
  | none, .connect port tid connectTimeout ip4Addr request =>
    some (clientConnect port tid connectTimeout ip4Addr request)
  | none, _ => none
  | some s, e => (s.event e).map some

/-- The references that are still there: the userdata's, the handles', and the writes'. -/
def outstanding (s : ConnMemory) : Nat :=
  (if s.userdata then 1 else 0) + HandleId.all.countP (!s.closed ·) + s.writes

/-- The count is right, the connection is freed exactly when nothing refers to it, and nothing has
used it after that. -/
def Counted (s : ConnMemory) : Prop :=
  s.cell.Holds s.outstanding ∧ s.usedFreed = false

/-- The connection, if there is one, is counted right. -/
def AllCounted (s : Option ConnMemory) : Prop :=
  ∀ m ∈ s, m.Counted

/-- `on_write` finds the connection in the request: no other write has finished since the last
write was accepted. -/
def FindsRequest (s : Option ConnMemory) : RefEvent → Prop
  | .onWrite _ => ∀ m ∈ s, m.conn.writePending = true
  | _ => True

/-- What holds in every run in which each `on_write` finds the connection. -/
structure Sound (s : ConnMemory) : Prop where
  counted : s.Counted
  linked : s.userdata = s.conn.luaRef
  data : ∀ h, s.data h = !s.closed h
  closing : ∀ h, (s.conn.uvHandle h).closing = !s.conn.luaRef
  inactive : s.conn.luaRef = false → ∀ h, (s.conn.uvHandle h).active = false
  closed : s.conn.luaRef = true → ∀ h, s.closed h = false
  unblocks : ∀ r ∈ s.frames.flatten, r ≠ .finishWrite → ∀ h, s.closed h = false
  finishes : s.frames.flatten.count .finishWrite ≤ s.writes

theorem sound_newConnection : newConnection.Sound where
  counted := ⟨⟨rfl, iff_of_false (by rintro ⟨⟩) (by rintro ⟨⟩)⟩, rfl⟩
  linked := rfl
  data := fun _ => rfl
  closing := fun h => by cases h <;> rfl
  inactive := by rintro ⟨⟩
  closed := fun _ _ => rfl
  unblocks := List.forall_mem_nil _
  finishes := Nat.le_refl 0

section Steps

variable {s : ConnMemory}

theorem Sound.alive (h : s.Sound) (href : 0 < s.outstanding) : s.freed = false :=
  h.counted.1.alive href

/-- The use of a connection that is still there leaves no trace. -/
theorem touch_alive (halive : s.freed = false) : s.touch = s := by
  have hused : (s.usedFreed || s.freed) = s.usedFreed := by
    rw [halive, Bool.or_false]
  exact congrArg (fun usedFreed => ({ s with usedFreed } : ConnMemory)) hused

theorem Sound.touch (h : s.Sound) (href : 0 < s.outstanding) : s.touch = s :=
  touch_alive (h.alive href)

theorem outstanding_of_linked (h : s.userdata = true) : 0 < s.outstanding := by
  rw [outstanding, if_pos h]
  omega

theorem countP_open_pos {closed : HandleId → Bool} {id : HandleId} (hopen : closed id = false) :
    0 < HandleId.all.countP (!closed ·) :=
  List.countP_pos_iff.mpr ⟨id, by cases id <;> simp [HandleId.all], by rw [hopen]; rfl⟩

theorem outstanding_of_open {id : HandleId} (hopen : s.closed id = false) :
    0 < s.outstanding := by
  have hcount := countP_open_pos hopen
  rw [outstanding]
  omega

theorem countP_close {closed : HandleId → Bool} {id : HandleId} (hopen : closed id = false) :
    HandleId.all.countP (!closed ·) =
      HandleId.all.countP (fun id' => !if id' = id then true else closed id') + 1 := by
  cases id <;> simp [HandleId.all, List.countP_cons, hopen] <;> omega

theorem outstanding_of_writes (h : 0 < s.writes) : 0 < s.outstanding := by
  rw [outstanding]
  omega

/-- A change of the connection that leaves its references alone. -/
theorem Sound.setConn (h : s.Sound) {conn : Connection} (hcount : conn.refCount = s.conn.refCount)
    (hlinked : conn.luaRef = s.conn.luaRef)
    (hclosing : ∀ h, (conn.uvHandle h).closing = (s.conn.uvHandle h).closing)
    (hinactive : s.conn.luaRef = false → ∀ h, (conn.uvHandle h).active = false) :
    ({ s with conn } : ConnMemory).Sound where
  counted := by
    refine ⟨?_, h.counted.2⟩
    show Cell.Holds ⟨conn.refCount, s.freed⟩ s.outstanding
    rw [hcount]
    exact h.counted.1
  linked := h.linked.trans hlinked.symm
  data := h.data
  closing := fun id => by
    show (conn.uvHandle id).closing = !conn.luaRef
    rw [hclosing, hlinked, h.closing]
  inactive := fun hluaRef => hinactive (hlinked.symm.trans hluaRef)
  closed := fun hluaRef => h.closed (hlinked.symm.trans hluaRef)
  unblocks := h.unblocks
  finishes := h.finishes

theorem stopTimer_closing (timer : UvHandle) : (stopTimer timer).closing = timer.closing := by
  rw [stopTimer]
  split <;> rfl

theorem stopTimer_inactive {timer : UvHandle} : (stopTimer timer).active = false := by
  rw [stopTimer]
  split
  · rfl
  · next hinactive => exact Bool.eq_false_iff.mpr hinactive

theorem Sound.stopWriteTimer (h : s.Sound) (luaWriterTid : Nat) :
    ({ s with
      conn := { s.conn with
        writeTimer := stopTimer s.conn.writeTimer
        luaWriterTid } } : ConnMemory).Sound := by
  refine h.setConn rfl rfl (fun id => ?_) fun hluaRef id => ?_
  · cases id with
    | writeTimer => exact stopTimer_closing _
    | readTimer | handle => rfl
  · have hinactive := h.inactive hluaRef id
    cases id with
    | writeTimer => exact stopTimer_inactive
    | readTimer | handle => exact hinactive

theorem Sound.setRequest (h : s.Sound) (connectReq : Bool) :
    ({ s with connectReq } : ConnMemory).Sound :=
  ⟨h.counted, h.linked, h.data, h.closing, h.inactive, h.closed, h.unblocks, h.finishes⟩

theorem Sound.push_nil (h : s.Sound) :
    ({ s with frames := [] :: s.frames } : ConnMemory).Sound :=
  ⟨h.counted, h.linked, h.data, h.closing, h.inactive, h.closed, h.unblocks, h.finishes⟩

/-- The frames may lose work that is left to do. -/
theorem Sound.shrink (h : s.Sound) {frames : List (List Rest)}
    (hsub : ∀ r ∈ frames.flatten, r ∈ s.frames.flatten)
    (hcount : frames.flatten.count .finishWrite ≤ s.frames.flatten.count .finishWrite) :
    ({ s with frames } : ConnMemory).Sound :=
  ⟨h.counted, h.linked, h.data, h.closing, h.inactive, h.closed,
    fun r hr => h.unblocks r (hsub r hr), Nat.le_trans hcount h.finishes⟩

/-- What is left to do of a function, seen as one more frame. -/
def Pending (s : ConnMemory) (rest : List Rest) : Prop :=
  ({ s with frames := rest :: s.frames } : ConnMemory).Sound

theorem Pending.touch {rest : List Rest} (h : s.Pending rest) (href : 0 < s.outstanding) :
    s.touch = s := by
  have hsound : ({ s with frames := rest :: s.frames } : ConnMemory).Sound := h
  exact touch_alive (hsound.alive href)

theorem Pending.tail {r : Rest} {rest : List Rest} (h : s.Pending (r :: rest)) :
    s.Pending rest :=
  h.shrink (fun _ hr => List.mem_cons_of_mem r hr) List.count_le_count_cons

/-- A thread that is still to be unblocked: none of the handles is closed. -/
theorem Pending.opens {r : Rest} {rest : List Rest} (h : s.Pending (r :: rest))
    (hr : r ≠ .finishWrite) (id : HandleId) : s.closed id = false :=
  h.unblocks r List.mem_cons_self hr id

/-- A resume leaves the rest to a frame. -/
theorem Pending.setTids {rest : List Rest} (h : s.Pending rest) (readerTid writerTid : Nat) :
    ({ s with
      conn := { s.conn with luaReaderTid := readerTid, luaWriterTid := writerTid }
      frames := rest :: s.frames } : ConnMemory).Sound :=
  Sound.setConn h rfl rfl (fun id => by cases id <;> rfl) fun hluaRef id => by
    have hinactive := h.inactive hluaRef id
    cases id <;> exact hinactive

/-- The end of `on_write` drops the reference of its write. -/
theorem Pending.finishWrite {rest : List Rest} (h : s.Pending (.finishWrite :: rest)) :
    ({ s.gcRef with writes := s.writes - 1 } : ConnMemory).Pending rest := by
  have hfinishes := h.finishes
  rw [List.flatten_cons, List.cons_append, List.count_cons_self] at hfinishes
  have hwrites : 0 < s.writes := Nat.lt_of_lt_of_le (Nat.succ_pos _) hfinishes
  rw [gcRef, h.touch (outstanding_of_writes hwrites)]
  refine ⟨⟨?_, h.counted.2⟩, h.linked, h.data, fun id => ?_, fun hluaRef id => ?_, h.closed,
    fun r hr => h.unblocks r (List.mem_cons_of_mem _ hr), Nat.le_sub_one_of_lt hfinishes⟩
  · have hholds : s.cell.Holds s.outstanding := h.counted.1
    have hone : s.outstanding =
        (if s.userdata then 1 else 0) + HandleId.all.countP (!s.closed ·) + (s.writes - 1) + 1 := by
      rw [outstanding]
      omega
    rw [hone] at hholds
    exact hholds.release
  · have hclosing := h.closing id
    cases id <;> exact hclosing
  · have hinactive := h.inactive hluaRef id
    cases id <;> exact hinactive

/-- The functions that go on find the connection. -/
theorem Pending.go {rest : List Rest} (h : s.Pending rest) : (s.go rest).Sound := by
  induction rest generalizing s with
  | nil => exact h.shrink (fun _ hr => hr) (Nat.le_refl _)
  | cons r rest ih =>
    cases r with
    | unblockReader =>
      have hopen := h.opens (by rintro ⟨⟩) .handle
      rw [ConnMemory.go, h.touch (outstanding_of_open hopen)]
      split
      · exact ih h.tail
      · exact h.tail.setTids 0 s.conn.luaWriterTid
    | unblockWriter =>
      have hopen := h.opens (by rintro ⟨⟩) .handle
      rw [ConnMemory.go, h.touch (outstanding_of_open hopen)]
      split
      · exact ih h.tail
      · exact h.tail.setTids s.conn.luaReaderTid 0
    | finishWrite => exact ih h.finishWrite

theorem startTimer_closing (timer : UvHandle) (timeout : Int) :
    (startTimer timer timeout).closing = timer.closing := by
  rw [startTimer]
  split <;> rfl

/-- The handles of a connection that is closed are closing. -/
theorem uvHandle_delinkConnection {conn : Connection} {id : HandleId}
    (h : (conn.uvHandle id).closing = false) :
    (delinkConnection conn).uvHandle id = ⟨false, true⟩ := by
  have hcloses : ∀ t : UvHandle, t.closing = false → closeIfActive t = ⟨false, true⟩ := by
    intro t ht
    rw [closeIfActive, ht]
    rfl
  cases id with
  | readTimer => exact hcloses _ ((stopTimer_closing _).trans h)
  | writeTimer => exact hcloses _ ((stopTimer_closing _).trans h)
  | handle => exact hcloses _ h

/-- Closing drops the userdata's reference, and those of the handles are still there. -/
theorem Pending.closeConnection {rest : List Rest} (h : s.Pending rest)
    (href : 0 < s.outstanding) : (s.closeConnection rest).Sound := by
  rw [ConnMemory.closeConnection, h.touch href]
  split
  · next hopen =>
    have hclosed : ∀ id, s.closed id = false := h.closed hopen
    have hcloses : ∀ id, (delinkConnection s.conn).uvHandle id = ⟨false, true⟩ := fun id =>
      uvHandle_delinkConnection ((h.closing id).trans (by rw [hopen]; rfl))
    refine Pending.go ⟨⟨?_, h.counted.2⟩, rfl, h.data, fun id => ?_, fun _ id => ?_, (by rintro ⟨⟩),
      fun _ _ _ => hclosed, ?_⟩
    · have hholds : s.cell.Holds s.outstanding := h.counted.1
      have hlinked : s.userdata = true := h.linked.trans hopen
      have hone : s.outstanding =
          (if false then 1 else 0) + HandleId.all.countP (!s.closed ·) + s.writes + 1 := by
        rw [outstanding, hlinked, if_pos rfl, if_neg Bool.false_ne_true]
        omega
      have hcount := countP_open_pos (hclosed .handle)
      rw [hone] at hholds
      exact hholds.decr (by omega)
    · show ((delinkConnection s.conn).uvHandle id).closing = true
      rw [hcloses]
    · show ((delinkConnection s.conn).uvHandle id).active = false
      rw [hcloses]
    · exact h.finishes
  · exact h.go

theorem sound_accept (uvAccept : Option UvError) : (accept uvAccept).Sound := by
  cases uvAccept with
  | some e => exact Pending.closeConnection sound_newConnection.push_nil (Nat.succ_pos _)
  | none => exact sound_newConnection

theorem sound_clientConnect {port : Int} {tid : Nat} {connectTimeout : Int} {ip4Addr : Bool}
    {request : UvRequest}
    (h : clientConnect port tid connectTimeout ip4Addr request = some s) : s.Sound := by
  have hclose : (newConnection.closeConnection []).Sound :=
    Pending.closeConnection sound_newConnection.push_nil (Nat.succ_pos _)
  rw [clientConnect.eq_def] at h
  split at h
  · cases h
  split at h
  · cases h
  split at h
  · cases h
  · cases request with
    | noMemory | refused e =>
      cases h
      exact hclose
    | accepted =>
      cases h
      have hconn : ({ newConnection with
          conn := { newConnection.conn with
            luaWriterTid := tid
            writeTimer := startTimer newConnection.conn.writeTimer connectTimeout } } :
              ConnMemory).Sound := by
        refine sound_newConnection.setConn rfl rfl (fun id => ?_) (by rintro ⟨⟩)
        cases id with
        | readTimer | handle => rfl
        | writeTimer => exact startTimer_closing _ connectTimeout
      exact hconn.setRequest true

/-- A method keeps what its body keeps. -/
theorem Sound.method (h : s.Sound) {body : ConnMemory → ConnMemory}
    (hbody : s.userdata = true → (body s).Sound) : (s.method body).Sound := by
  rw [ConnMemory.method]
  split
  · next hlinked =>
    rw [h.touch (outstanding_of_linked hlinked)]
    exact hbody hlinked
  · exact h

theorem Sound.closeConnection (h : s.Sound) (href : 0 < s.outstanding) :
    (s.closeConnection []).Sound :=
  Pending.closeConnection h.push_nil href

theorem Sound.startReading (h : s.Sound) (hlinked : s.userdata = true)
    (uvReadStart : Option UvError) : (s.startReading uvReadStart).Sound := by
  have hopen : s.conn.luaRef = true := h.linked.symm.trans hlinked
  have hset : ({ s with conn := { s.conn with luaReaderTid := 0 } } : ConnMemory).Sound :=
    h.setConn rfl rfl (fun id => by cases id <;> rfl) fun hluaRef => by
      cases hopen.symm.trans hluaRef
  cases uvReadStart with
  | some e => exact hset.closeConnection (outstanding_of_linked hlinked)
  | none =>
    refine hset.setConn rfl rfl (fun id => ?_) fun hluaRef => ?_
    · cases id <;> rfl
    · cases hopen.symm.trans hluaRef

theorem Sound.readCheck (h : s.Sound) (hlinked : s.userdata = true) (tid : Nat)
    (readTimeout : Int) : (s.readCheck tid readTimeout).Sound := by
  have hopen : s.conn.luaRef = true := h.linked.symm.trans hlinked
  rw [ConnMemory.readCheck]
  split
  · next hactive =>
    rw [Tcp.readCheck, if_pos hopen, if_pos hactive]
    split
    · split
      · exact h
      · refine h.setConn rfl rfl (fun id => ?_) fun hluaRef => ?_
        · cases id with
          | readTimer => exact startTimer_closing _ readTimeout
          | writeTimer | handle => rfl
        · cases hopen.symm.trans hluaRef
    · exact h
  · exact h.closeConnection (outstanding_of_linked hlinked)

/-- A write that libuv accepts is one reference more. -/
theorem Sound.writeBuffer (h : s.Sound) (hlinked : s.userdata = true) (tid : Nat) (buff : Bytes)
    (writeTimeout : Int) (uvWrite : Option UvError) :
    (s.writeBuffer tid buff writeTimeout uvWrite).Sound := by
  have hopen : s.conn.luaRef = true := h.linked.symm.trans hlinked
  rw [ConnMemory.writeBuffer.eq_def]
  split
  · exact h
  · next hwrites =>
    obtain ⟨htid, hbuff⟩ := not_or.mp hwrites
    cases uvWrite with
    | some e => exact h.closeConnection (outstanding_of_linked hlinked)
    | none =>
      dsimp only
      rw [Tcp.writeBuffer, if_pos hopen, if_neg htid,
        if_neg (List.length_eq_zero_iff.not.mpr hbuff)]
      refine ⟨⟨h.counted.1.incr (outstanding_of_linked hlinked), h.counted.2⟩, h.linked, h.data,
        fun id => ?_, fun hluaRef => (by cases hopen.symm.trans hluaRef), h.closed, h.unblocks,
        Nat.le_succ_of_le h.finishes⟩
      have hclosing := h.closing id
      cases id with
      | readTimer | handle => exact hclosing
      | writeTimer => exact (startTimer_closing _ writeTimeout).trans hclosing

theorem Sound.closeConnectionLua (h : s.Sound) (hlinked : s.userdata = true) :
    s.closeConnectionLua.Sound := by
  have hset : ({ s with
      conn := { s.conn with luaReaderTid := 0, luaWriterTid := 0 } } : ConnMemory).Sound :=
    h.setConn rfl rfl (fun id => by cases id <;> rfl) fun hluaRef id => by
      have hinactive := h.inactive hluaRef id
      cases id <;> exact hinactive
  exact hset.closeConnection (outstanding_of_linked hlinked)

theorem Pending.resume {tid : Nat} {rest : List Rest} (h : s.Pending rest) :
    (s.resume tid rest).Sound := by
  rw [ConnMemory.resume]
  split
  · exact h.go
  · exact h

/-- A handle that libuv calls back for is open. -/
theorem Sound.open_of_active (h : s.Sound) {id : HandleId}
    (hactive : (s.conn.uvHandle id).active = true) :
    s.conn.luaRef = true ∧ ∀ id, s.closed id = false := by
  have hopen : s.conn.luaRef = true := by
    by_contra hluaRef
    cases hactive.symm.trans (h.inactive (Bool.eq_false_iff.mpr hluaRef) id)
  exact ⟨hopen, h.closed hopen⟩

theorem Sound.onRead (h : s.Sound) (hactive : s.conn.handle.active = true) (nread : NRead) :
    (s.onRead nread).Sound := by
  obtain ⟨hopen, hclosed⟩ := @open_of_active s h .handle hactive
  have hstopped : ({ s with
      conn := { s.conn with readTimer := stopTimer s.conn.readTimer } } : ConnMemory).Sound := by
    refine h.setConn rfl rfl (fun id => ?_) fun hluaRef => ?_
    · cases id with
      | readTimer => exact stopTimer_closing _
      | writeTimer | handle => rfl
    · cases hopen.symm.trans hluaRef
  have href : 0 < s.outstanding := outstanding_of_open (hclosed .handle)
  rw [ConnMemory.onRead.eq_def, h.touch href]
  dsimp only
  split
  · exact hstopped
  · exact hstopped
  · have hread : ({ s with
        conn := { s.conn with
          readTimer := stopTimer s.conn.readTimer
          luaReaderTid := 0
          readLen := 0 } } : ConnMemory).Sound := by
      refine hstopped.setConn rfl rfl (fun id => ?_) fun hluaRef => ?_
      · cases id <;> rfl
      · cases hopen.symm.trans hluaRef
    exact Pending.resume hread.push_nil
  · exact hstopped.closeConnection href

/-- The callback of a write whose request is still set. -/
theorem Sound.onWrite (h : s.Sound) (hframes : s.frames = []) (hwrites : 0 < s.writes)
    (hpending : s.conn.writePending = true) (status : Option UvError) :
    (s.onWrite status).Sound := by
  have href : 0 < s.outstanding := outstanding_of_writes hwrites
  have hset : ({ s with conn := { s.conn with writePending := false } } :
      ConnMemory).Pending [.finishWrite] := by
    refine ⟨h.counted, h.linked, h.data, fun id => ?_, fun hluaRef id => ?_, h.closed, ?_, ?_⟩
    · have hclosing := h.closing id
      cases id <;> exact hclosing
    · have hinactive := h.inactive hluaRef id
      cases id <;> exact hinactive
    · rw [hframes]
      intro r hr hne
      exact absurd (List.mem_singleton.mp hr) hne
    · rw [hframes]
      exact hwrites
  rw [ConnMemory.onWrite.eq_def, h.touch href, if_pos hpending]
  cases status with
  | some e => exact hset.closeConnection href
  | none =>
    refine Pending.resume ?_
    exact Sound.stopWriteTimer hset 0

theorem Sound.onClientConnect (h : s.Sound) (hclosed : s.closed .handle = false)
    (status : Option UvError) : (s.onClientConnect status).Sound := by
  have href : 0 < s.outstanding := outstanding_of_open hclosed
  have hset := h.stopWriteTimer s.conn.luaWriterTid
  rw [ConnMemory.onClientConnect, h.touch href]
  dsimp only
  split
  · exact (hset.setRequest false).closeConnection href
  · exact Pending.resume (hset.setRequest false).push_nil

/-- The callback of `uv_close` drops the handle's reference. -/
theorem Sound.freeHandle (h : s.Sound) (hframes : s.frames = []) {id : HandleId}
    (hclosing : (s.conn.uvHandle id).closing = true) (hclosed : s.closed id = false) :
    (s.freeHandle id).Sound := by
  have href : 0 < s.outstanding := outstanding_of_open hclosed
  have hdata : s.data id = true := by rw [h.data, hclosed]; rfl
  have hluaRef : s.conn.luaRef = false := by
    have hboth := (h.closing id).symm.trans hclosing
    rwa [Bool.not_eq_true'] at hboth
  rw [ConnMemory.freeHandle, h.touch href, if_pos hdata]
  refine ⟨⟨?_, ?_⟩, h.linked, fun id' => ?_, fun id' => ?_, fun _ id' => ?_,
    fun hopen => (by cases hopen.symm.trans hluaRef), ?_, h.finishes⟩
  · have hholds : s.cell.Holds s.outstanding := h.counted.1
    have hone : s.outstanding = (if s.userdata then 1 else 0) +
        HandleId.all.countP (fun id' => !if id' = id then true else s.closed id') +
          s.writes + 1 := by
      rw [outstanding, countP_close hclosed]
      omega
    rw [hone] at hholds
    exact hholds.release
  · show (s.usedFreed || s.freed) = false
    rw [h.alive href, h.counted.2]
    rfl
  · show (if id' = id then false else s.data id') = !if id' = id then true else s.closed id'
    rw [h.data]
    split <;> rfl
  · have hclosing := h.closing id'
    cases id' <;> exact hclosing
  · have hinactive := h.inactive hluaRef id'
    cases id' <;> exact hinactive
  · show ∀ r ∈ s.frames.flatten, r ≠ .finishWrite → _
    rw [hframes]
    exact List.forall_mem_nil _

theorem Sound.event (h : s.Sound) {e : RefEvent} {s' : ConnMemory} (hs' : s.event e = some s')
    (hfinds : FindsRequest (some s) e) : s'.Sound := by
  cases e with
  | newConnection | accept | connect => cases hs'
  | startReading uvReadStart =>
    cases hs'
    exact h.method fun hlinked => h.startReading hlinked uvReadStart
  | read tid readTimeout =>
    cases hs'
    exact h.method fun hlinked => h.readCheck hlinked tid readTimeout
  | write tid buff writeTimeout uvWrite =>
    cases hs'
    exact h.method fun hlinked => h.writeBuffer hlinked tid buff writeTimeout uvWrite
  | close | gc =>
    cases hs'
    exact h.method fun hlinked => h.closeConnectionLua hlinked
  | activity active =>
    obtain ⟨hopen, heq⟩ := Option.ite_none_right_eq_some.mp hs'
    cases heq
    refine h.setConn rfl rfl (fun id => ?_) fun hluaRef => ?_
    · cases id <;> rfl
    · cases hopen.symm.trans hluaRef
  | onAlloc =>
    obtain ⟨hactive, heq⟩ := Option.ite_none_right_eq_some.mp hs'
    obtain ⟨-, hclosed⟩ := @open_of_active s h .handle hactive.2
    cases heq
    rw [h.touch (outstanding_of_open (hclosed .handle))]
    exact h
  | onRead nread =>
    obtain ⟨hactive, heq⟩ := Option.ite_none_right_eq_some.mp hs'
    cases heq
    exact h.onRead hactive.2 nread
  | onWrite status =>
    obtain ⟨hcalls, heq⟩ := Option.ite_none_right_eq_some.mp hs'
    cases heq
    exact h.onWrite hcalls.1 hcalls.2 (hfinds s rfl) status
  | onClientConnect status =>
    obtain ⟨hcalls, heq⟩ := Option.ite_none_right_eq_some.mp hs'
    cases heq
    exact h.onClientConnect hcalls.2.2 status
  | onConnTimeout =>
    obtain ⟨hfires, heq⟩ := Option.ite_none_right_eq_some.mp hs'
    have hclosed : s.closed .handle = false := by
      obtain hactive | hactive := hfires.2
      · exact (@open_of_active s h .readTimer hactive).2 .handle
      · exact (@open_of_active s h .writeTimer hactive).2 .handle
    have href : 0 < s.outstanding := outstanding_of_open hclosed
    cases heq
    rw [h.touch href]
    exact h.closeConnection href
  | freeHandle id =>
    obtain ⟨hcalls, heq⟩ := Option.ite_none_right_eq_some.mp hs'
    cases heq
    exact h.freeHandle hcalls.1 hcalls.2.1 hcalls.2.2
  | yields =>
    rw [ConnMemory.event] at hs'
    split at hs'
    · cases hs'
    · next rest frames hframes =>
      cases hs'
      refine Pending.go ?_
      show ({ s with frames := rest :: frames } : ConnMemory).Sound
      rw [← hframes]
      exact h

end Steps

/-- What holds of the connection, if there is one. -/
def AllSound (s : Option ConnMemory) : Prop :=
  ∀ m ∈ s, m.Sound

theorem allSound_none : AllSound none := by
  rintro m ⟨⟩

theorem AllSound.allCounted {s : Option ConnMemory} (h : AllSound s) : AllCounted s :=
  fun m hm => (h m hm).counted

theorem AllSound.step {s s' : Option ConnMemory} {e : RefEvent} (h : AllSound s)
    (hfinds : FindsRequest s e) (hs' : step s e = some s') : AllSound s' := by
  cases s with
  | none =>
    cases e with
    | newConnection =>
      cases hs'
      intro m hm
      cases hm
      exact sound_newConnection
    | accept uvAccept =>
      cases hs'
      intro m hm
      cases hm
      exact sound_accept uvAccept
    | connect port tid connectTimeout ip4Addr request =>
      cases hs'
      exact fun m hm => sound_clientConnect hm
    | _ => cases hs'
  | some s =>
    obtain ⟨t, ht, rfl⟩ := Option.map_eq_some_iff.mp hs'
    intro m hm
    cases hm
    exact (h s rfl).event ht hfinds

/-- A write whose callback finds no connection has been counted, and is never counted off. -/
theorem not_allCounted_of_lost {s s' : Option ConnMemory} {e : RefEvent} (h : AllSound s)
    (hlost : ¬FindsRequest s e) (hs' : step s e = some s') : ¬AllCounted s' := by
  cases e with
  | onWrite status =>
    cases s with
    | none => cases hs'
    | some s =>
      have hnull : ¬s.conn.writePending = true := fun hpending => hlost fun m hm => by
        cases hm
        exact hpending
      obtain ⟨t, ht, rfl⟩ := Option.map_eq_some_iff.mp hs'
      obtain ⟨hcalls, heq⟩ := Option.ite_none_right_eq_some.mp ht
      have hsound := h s rfl
      have honWrite : s.onWrite status = { s with writes := s.writes - 1 } := by
        rw [onWrite.eq_def, hsound.touch (outstanding_of_writes hcalls.2)]
        exact if_neg hnull
      rw [honWrite] at heq
      cases heq
      intro hcounted
      have hone : s.outstanding =
          ({ s with writes := s.writes - 1 } : ConnMemory).outstanding + 1 := by
        have hwrites := hcalls.2
        show _ = (if s.userdata then 1 else 0) + HandleId.all.countP (!s.closed ·) +
          (s.writes - 1) + 1
        rw [outstanding]
        omega
      have hsame := hsound.counted.1.unique (hcounted _ rfl).1
      omega
  | _ => exact absurd trivial hlost

end ConnMemory

/-- The references to a connection and to a user timer are counted right: of a timer in every run,
and of a connection exactly in the runs in which each `on_write` finds the connection. -/
theorem references_counted_iff (es : List RefEvent) (timerEvents : List Timer.MemoryEvent) :
    Always Timer.TimerMemory.step Timer.TimerMemory.Counted Timer.TimerMemory.newUserTimer
        timerEvents ∧
      (Always ConnMemory.step ConnMemory.AllCounted none es ↔
        Guarded ConnMemory.step ConnMemory.FindsRequest none es) := by
  constructor
  · exact Timer.timer_references_counted timerEvents
  · exact always_iff_guarded ConnMemory.allSound_none (fun _ => ConnMemory.AllSound.allCounted)
      (fun _ _ _ => ConnMemory.AllSound.step) fun _ _ _ => ConnMemory.not_allCounted_of_lost

/-- Two threads write at once. -/
def overlappingWrites : List RefEvent :=
  [.newConnection, .write 7 [1] 3000 none, .write 8 [2] 3000 none, .onWrite none, .yields,
    .onWrite none]

/-- Both writes are over, and one of them is still counted. -/
theorem overlapping_writes_leak :
    ¬∀ es : List RefEvent, Always ConnMemory.step ConnMemory.AllCounted none es := by
  intro h
  have hrun : (exec ConnMemory.step none overlappingWrites).map
      (Option.map fun m => (m.cell.count, m.outstanding)) = some (some (5, 4)) := by
    decide +kernel
  obtain ⟨s, hs, hcounts⟩ := Option.map_eq_some_iff.mp hrun
  obtain ⟨m, rfl, hm⟩ := Option.map_eq_some_iff.mp hcounts
  have hcount := ((h overlappingWrites).of_exec hs m rfl).1.count
  rw [Prod.mk.injEq] at hm
  rw [hm.1, hm.2] at hcount
  exact absurd hcount (by decide)

end Luaw.Tcp
