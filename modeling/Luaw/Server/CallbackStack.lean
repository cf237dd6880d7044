import Luaw.Foundations.Transition
import Luaw.Tcp.Socket
import Luaw.Timer.UserTimer

/-!
# The stack of `l_global`

Most callbacks of libuv push the function behind `resume_thread_fn_ref` and three arguments for it
on the stack of `l_global`. `resume_lua_thread` calls it, and what the call brings back stays there
until `run_user_threads` clears the stack.
-/

namespace Luaw.Server

open Transition
open Tcp (Connection LuaArg NRead UvError UvRequest newConnection)
open Timer (UserTimer)

/-- `LUA_MINSTACK`, the slots a C function has without `luaL_checkstack`. -/
def luaMinstack : Nat := 20

/-- A value on the stack; a `result` is a value that a thread has returned, and `tointeger` is what
`lua_tointeger` makes of it. -/
inductive StackValue where
  | resumeThreadFn
  | startThreadFn
  | serviceHttpFn
  | connection
  | integer (n : Int)
  | boolean (b : Bool)
  | arg (value : LuaArg)
  | dnsFailure (status : Option UvError)
  | result (tointeger : Int)
  | errorMessage
  deriving DecidableEq, Repr

def StackValue.isFunction : StackValue → Bool
  | resumeThreadFn | startThreadFn | serviceHttpFn => true
  | _ => false

/-- `lua_tointeger`. The texts it is asked about are error messages, which are no numerals. -/
def StackValue.toInteger : StackValue → Int
  | integer n | result n => n
  | arg (.integer n) => n
  | _ => 0

/-- How a `lua_pcall` of `resumeThreadId` or of `startSystemThread` ends. Both return a boolean and
a second value. -/
inductive Pcall where
  | returned (isDone : Bool) (tointeger : Int)
  | failed
  deriving DecidableEq, Repr

/-- What `lua_pcall` leaves for two results, top first. -/
def Pcall.values : Pcall → List StackValue
  | returned isDone tointeger => [.result tointeger, .boolean isDone]
  | failed => [.errorMessage]

/-- The calls of one callback: those of `close_connection` for the reader and for the writer, and
its own. -/
structure Pcalls where
  reader : Pcall
  writer : Pcall
  own : Pcall
  deriving DecidableEq, Repr

/-- The stack, top first, and the threads that the current callback has resumed. -/
structure LGlobal where
  stack : List StackValue
  resumed : List Int
  deriving DecidableEq, Repr

namespace LGlobal

def push (g : LGlobal) (value : StackValue) : LGlobal :=
  { g with stack := value :: g.stack }

/-- `lua_pcall`; calling what is no function is an error. -/
def luaPcall (g : LGlobal) (nargs : Nat) (pcall : Pcall) : LGlobal :=
  let results :=
    if g.stack[nargs]?.any StackValue.isFunction then pcall.values else [.errorMessage]
  { g with stack := results ++ g.stack.drop (nargs + 1) }

/-- `resume_lua_thread` for three arguments: the first of them is the thread id. -/
def resumeLuaThread (g : LGlobal) (pcall : Pcall) : LGlobal :=
  let tid := (g.stack[2]?.map StackValue.toInteger).getD 0
  if tid = 0 then g
  else
    let resumed :=
      if g.stack[3]? = some .resumeThreadFn then g.resumed ++ [tid] else g.resumed
    { g.luaPcall 3 pcall with resumed }

/-- The function behind `resume_thread_fn_ref` and its arguments. -/
def pushCall (g : LGlobal) (tid : Int) (status : Bool) (value : StackValue) : LGlobal :=
  (((g.push .resumeThreadFn).push (.integer tid)).push (.boolean status)).push value

/-- The part of `close_connection` that unblocks the reader thread. -/
def unblockReader (g : LGlobal) (conn : Connection) (status : UvError) (pcall : Pcall) : LGlobal :=
  if conn.luaReaderTid = 0 then g else
    (g.pushCall conn.luaReaderTid false
      (.arg (if status = .EOF then .mesg "EOF" else .strerror status))).resumeLuaThread pcall

/-- The part of `close_connection` that unblocks the writer thread. -/
def unblockWriter (g : LGlobal) (conn : Connection) (status : UvError) (pcall : Pcall) : LGlobal :=
  if conn.luaWriterTid = 0 then g else
    (if status = .EOF then g.pushCall conn.luaWriterTid true (.arg (.integer 0))
      else g.pushCall conn.luaWriterTid false (.arg (.strerror status))).resumeLuaThread pcall

/-- `close_connection`. -/
def closeConnection (g : LGlobal) (conn : Connection) (status : UvError) (calls : Pcalls) :
    LGlobal :=
  if conn.luaRef then
    (g.unblockReader conn status calls.reader).unblockWriter conn status calls.writer
  else g

/-- `on_read`. -/
def onRead (g : LGlobal) (conn : Connection) (nread : NRead) (calls : Pcalls) : LGlobal :=
  match nread with
  | .bytes 0 => g
  | .error .ENOBUFS => g
  | .bytes n =>
    (g.pushCall conn.luaReaderTid true
      (.arg (.str (conn.readBuffer.take (conn.readLen + n))))).resumeLuaThread calls.own
  | .error e => g.closeConnection conn e calls

/-- `on_write`. -/
def onWrite (g : LGlobal) (conn : Connection) (status : Option UvError) (calls : Pcalls) :
    LGlobal :=
  if conn.writePending then
    match status with
    | some e => g.closeConnection conn e calls
    | none =>
      (g.pushCall conn.luaWriterTid true (.arg (.integer 1))).resumeLuaThread calls.own
  else g

/-- `on_client_connect`. When the connection failed, the results of the calls in `close_connection`
stand between the thread id and the other arguments. -/
def onClientConnect (g : LGlobal) (conn : Connection) (status : Option UvError) (calls : Pcalls) :
    LGlobal :=
  let g := (g.push .resumeThreadFn).push (.integer conn.luaWriterTid)
  let g := match status with
    | some e => ((g.closeConnection conn e calls).push (.boolean false)).push (.arg (.strerror e))
    | none => (g.push (.boolean true)).push (.arg .nil)
  g.resumeLuaThread calls.own

/-- `on_resolved`; `res` is what `uv_ip4_name` makes of the address, if there is one. -/
def onResolved (g : LGlobal) (tid : Int) (status : Option UvError)
    (res : Option (Except UvError String)) (pcall : Pcall) : LGlobal :=
  let g := match status, res with
    | none, some (.ok ip) => g.pushCall tid true (.arg (.mesg ip))
    | none, some (.error e) => g.pushCall tid false (.dnsFailure (some e))
    | status, _ => g.pushCall tid false (.dnsFailure status)
  g.resumeLuaThread pcall

/-- `on_user_timer_timeout`. -/
def onUserTimerTimeout (g : LGlobal) (timer : UserTimer) (pcall : Pcall) : LGlobal :=
  if timer.luaTid = 0 then g
  else (g.pushCall timer.luaTid true (.boolean true)).resumeLuaThread pcall

/-- `on_server_connect`. An error that is raised outside of a `lua_pcall` ends the program. -/
def onServerConnect (g : LGlobal) (status : Option UvError) (accept : UvRequest) (pcall : Pcall) :
    Option LGlobal :=
  match status, accept with
  | some _, _ => none
  | none, .noMemory => none
  | none, .refused e =>
    let g := ((g.push .startThreadFn).push .serviceHttpFn).push .connection
    some (g.closeConnection newConnection e ⟨pcall, pcall, pcall⟩)
  | none, .accepted =>
    let g := ((g.push .startThreadFn).push .serviceHttpFn).push .connection
    some (g.luaPcall 2 pcall)

/-- `run_user_threads` ends with `lua_settop(l_global, 0)`. -/
def runUserThreads (g : LGlobal) : LGlobal :=
  { g with stack := [] }

end LGlobal

/-- A callback, the object it is for, and how the calls it makes end. The callbacks of `uv_close`
are all one here. -/
inductive Callback where
  | serverConnect (status : Option UvError) (accept : UvRequest) (pcall : Pcall)
  | read (conn : Connection) (nread : NRead) (calls : Pcalls)
  | write (conn : Connection) (status : Option UvError) (calls : Pcalls)
  | clientConnect (conn : Connection) (status : Option UvError) (calls : Pcalls)
  | resolved (tid : Int) (status : Option UvError) (res : Option (Except UvError String))
      (pcall : Pcall)
  | connTimeout (conn : Connection) (calls : Pcalls)
  | userTimer (timer : UserTimer) (pcall : Pcall)
  | close

/-- One callback. -/
def LGlobal.step (g : LGlobal) (callback : Callback) : Option LGlobal :=
  let g := { g with resumed := [] }
  match callback with
  | .serverConnect status accept pcall => g.onServerConnect status accept pcall
  | .read conn nread calls => some (g.onRead conn nread calls)
  | .write conn status calls => some (g.onWrite conn status calls)
  | .clientConnect conn status calls => some (g.onClientConnect conn status calls)
  | .resolved tid status res pcall => some (g.onResolved tid status res pcall)
  | .connTimeout conn calls => some (g.closeConnection conn .ECANCELED calls)
  | .userTimer timer pcall => some (g.onUserTimerTimeout timer pcall)
  | .close => some g

/-- A raised error ends the program. -/
def Callback.aborts : Callback → Bool
  | serverConnect (some _) _ _ | serverConnect none .noMemory _ => true
  | _ => false

/-- The callbacks that push the function behind `resume_thread_fn_ref`, if any. -/
def Callback.resumesThreads : Callback → Bool
  | serverConnect .. => false
  | _ => true

/-- What should hold after a callback: the stack has not outgrown its slots, and a callback that
has resumed no thread has popped all it pushed. -/
def Tidy (g : LGlobal) (callback : Callback) : Prop :=
  ∀ g', g.step callback = some g' →
    g'.stack.length ≤ luaMinstack ∧
      (callback.resumesThreads = true → g'.resumed = [] → g'.stack = g.stack)

/-- The connection of a callback, and the wake-ups it issues there. -/
def Callback.wakes : Callback → Option (Connection × List Tcp.Wakeup)
  | read conn nread _ => some (conn, (Tcp.onRead conn nread).2)
  | write conn status _ => some (conn, (Tcp.onWrite conn status).2)
  | clientConnect conn status _ => some (conn, (Tcp.onClientConnect conn status).2)
  | connTimeout conn _ => some (conn, (Tcp.onConnTimeout conn).2)
  | _ => none

/-- The arguments are pushed for a thread id that is zero. -/
def Callback.unanswered : Callback → Bool
  | read conn (.bytes (_ + 1)) _ => conn.luaReaderTid = 0
  | write conn none _ => conn.writePending ∧ conn.luaWriterTid = 0
  | clientConnect conn none _ => conn.luaWriterTid = 0
  | clientConnect conn (some _) _ =>
    conn.luaWriterTid = 0 ∧ (conn.luaRef = false ∨ conn.luaReaderTid = 0)
  | resolved tid .. => tid = 0
  | _ => false

/-- The number of values a call leaves. -/
def Pcall.left : Pcall → Nat
  | returned .. => 2
  | failed => 1

/-- The number of values that `close_connection` leaves. -/
def closeLeft (conn : Connection) (calls : Pcalls) : Nat :=
  if conn.luaRef then
    (if conn.luaWriterTid = 0 then 0 else calls.writer.left) +
      if conn.luaReaderTid = 0 then 0 else calls.reader.left
  else 0

/-- The number of values that a callback for one thread leaves. -/
def callLeft (tid : Int) (pcall : Pcall) : Nat :=
  if tid = 0 then 4 else pcall.left

def Pcall.toInteger : Pcall → Int
  | returned _ tointeger => tointeger
  | failed => 0

/-- The number of values that `on_client_connect` leaves when the connection failed. It takes a
number that the last thread has returned for the thread id, and then fails to call a boolean. -/
def connectLeft (conn : Connection) (calls : Pcalls) : Nat :=
  if closeLeft conn calls = 0 then callLeft conn.luaWriterTid calls.own
  else
    let last := if conn.luaWriterTid = 0 then calls.reader else calls.writer
    closeLeft conn calls + if last.toInteger = 0 then 4 else 1

/-- The number of values a callback leaves on the stack. -/
def Callback.left : Callback → Nat
  | serverConnect none (.refused _) _ => 3
  | serverConnect none .accepted pcall => pcall.left
  | serverConnect .. => 0
  | read _ (.bytes 0) _ | read _ (.error .ENOBUFS) _ => 0
  | read conn (.bytes _) calls => callLeft conn.luaReaderTid calls.own
  | read conn (.error _) calls => closeLeft conn calls
  | write conn status calls =>
    if conn.writePending then
      match status with
      | some _ => closeLeft conn calls
      | none => callLeft conn.luaWriterTid calls.own
    else 0
  | clientConnect conn (some _) calls => connectLeft conn calls
  | clientConnect conn none calls => callLeft conn.luaWriterTid calls.own
  | resolved tid _ _ pcall => callLeft tid pcall
  | connTimeout conn calls => closeLeft conn calls
  | userTimer timer pcall => if timer.luaTid = 0 then 0 else pcall.left
  | close => 0

namespace LGlobal

/-- The stack with more values on it, and more threads resumed. -/
def keep (g : LGlobal) (values : List StackValue) (tids : List Int) : LGlobal :=
  ⟨values ++ g.stack, g.resumed ++ tids⟩

theorem keep_keep (g : LGlobal) (values values' : List StackValue) (tids tids' : List Int) :
    (g.keep values tids).keep values' tids' = g.keep (values' ++ values) (tids ++ tids') := by
  rw [keep, keep, keep, List.append_assoc, List.append_assoc]

theorem keep_nil (g : LGlobal) : g.keep [] [] = g := by
  rw [keep, List.nil_append, List.append_nil]

/-- One call of `resume_lua_thread`: the arguments stay for a zero thread id. -/
theorem resume_pushCall (g : LGlobal) (tid : Int) (status : Bool) (value : StackValue)
    (pcall : Pcall) :
    (g.pushCall tid status value).resumeLuaThread pcall =
      if tid = 0 then g.keep [value, .boolean status, .integer tid, .resumeThreadFn] []
      else g.keep pcall.values [tid] := by
  have htid : (((g.pushCall tid status value).stack[2]?).map StackValue.toInteger).getD 0 = tid :=
    rfl
  rw [resumeLuaThread]
  simp only [htid]
  split
  · rw [keep, List.append_nil]
    rfl
  · rfl

/-- The values that stay after one part of `close_connection`. -/
def unblockValues (tid : Nat) (pcall : Pcall) : List StackValue :=
  if tid = 0 then [] else pcall.values

def unblockTids (tid : Nat) : List Int :=
  if tid = 0 then [] else [(tid : Int)]

theorem unblockReader_eq (g : LGlobal) (conn : Connection) (status : UvError) (pcall : Pcall) :
    g.unblockReader conn status pcall =
      g.keep (unblockValues conn.luaReaderTid pcall) (unblockTids conn.luaReaderTid) := by
  rw [unblockReader, unblockValues, unblockTids]
  by_cases htid : conn.luaReaderTid = 0
  · rw [if_pos htid, if_pos htid, if_pos htid, keep_nil]
  · rw [if_neg htid, if_neg htid, if_neg htid, resume_pushCall,
      if_neg (Int.natCast_eq_zero.not.mpr htid)]

theorem unblockWriter_eq (g : LGlobal) (conn : Connection) (status : UvError) (pcall : Pcall) :
    g.unblockWriter conn status pcall =
      g.keep (unblockValues conn.luaWriterTid pcall) (unblockTids conn.luaWriterTid) := by
  rw [unblockWriter, unblockValues, unblockTids]
  by_cases htid : conn.luaWriterTid = 0
  · rw [if_pos htid, if_pos htid, if_pos htid, keep_nil]
  · rw [if_neg htid, if_neg htid, if_neg htid]
    have hne : (conn.luaWriterTid : Int) ≠ 0 := Int.natCast_eq_zero.not.mpr htid
    split <;> rw [resume_pushCall, if_neg hne]

def closeValues (conn : Connection) (calls : Pcalls) : List StackValue :=
  if conn.luaRef then
    unblockValues conn.luaWriterTid calls.writer ++ unblockValues conn.luaReaderTid calls.reader
  else []

def closeTids (conn : Connection) : List Int :=
  if conn.luaRef then unblockTids conn.luaReaderTid ++ unblockTids conn.luaWriterTid else []

theorem closeConnection_eq (g : LGlobal) (conn : Connection) (status : UvError) (calls : Pcalls) :
    g.closeConnection conn status calls = g.keep (closeValues conn calls) (closeTids conn) := by
  rw [closeConnection, closeValues, closeTids]
  split
  · rw [unblockReader_eq, unblockWriter_eq, keep_keep]
  · rw [keep_nil]

/-- A callback leaves `n` values, and `unanswered` says that it leaves some without having resumed
any thread. -/
def Leaves (g g' : LGlobal) (n : Nat) (unanswered : Prop) : Prop :=
  ∃ values tids, g' = g.keep values tids ∧ values.length = n ∧
    (tids = [] ∧ values ≠ [] ↔ unanswered)

theorem Leaves.of_iff {g g' : LGlobal} {n : Nat} {unanswered unanswered' : Prop}
    (h : g.Leaves g' n unanswered) (hiff : unanswered' ↔ unanswered) :
    g.Leaves g' n unanswered' := by
  rwa [hiff]

theorem leaves_nothing (g : LGlobal) {unanswered : Prop} (h : ¬unanswered) :
    g.Leaves g 0 unanswered :=
  ⟨[], [], g.keep_nil.symm, rfl, iff_of_false (fun hleft => hleft.2 rfl) h⟩

theorem length_values (pcall : Pcall) : pcall.values.length = pcall.left := by
  cases pcall <;> rfl

/-- A callback that makes one call. -/
theorem leaves_call (g : LGlobal) (tid : Int) (status : Bool) (value : StackValue)
    (pcall : Pcall) :
    g.Leaves ((g.pushCall tid status value).resumeLuaThread pcall) (callLeft tid pcall)
      (tid = 0) := by
  rw [resume_pushCall, callLeft]
  by_cases htid : tid = 0
  · rw [if_pos htid, if_pos htid]
    exact ⟨_, _, rfl, rfl, iff_of_true ⟨rfl, List.cons_ne_nil _ _⟩ htid⟩
  · rw [if_neg htid, if_neg htid]
    exact ⟨_, _, rfl, length_values pcall,
      iff_of_false (fun hleft => List.cons_ne_nil _ _ hleft.1) htid⟩

theorem length_unblockValues (tid : Nat) (pcall : Pcall) :
    (unblockValues tid pcall).length = if tid = 0 then 0 else pcall.left := by
  rw [unblockValues]
  split
  · rfl
  · exact length_values pcall

theorem length_closeValues (conn : Connection) (calls : Pcalls) :
    (closeValues conn calls).length = closeLeft conn calls := by
  rw [closeValues, closeLeft]
  split
  · rw [List.length_append, length_unblockValues, length_unblockValues]
  · rfl

theorem values_ne_nil (pcall : Pcall) : pcall.values ≠ [] := by
  cases pcall <;> exact List.cons_ne_nil _ _

theorem unblockValues_eq_nil {tid : Nat} {pcall : Pcall} :
    unblockValues tid pcall = [] ↔ tid = 0 := by
  rw [unblockValues]
  split
  · next htid => exact iff_of_true rfl htid
  · next htid => exact iff_of_false (values_ne_nil pcall) htid

theorem unblockTids_eq_nil {tid : Nat} : unblockTids tid = [] ↔ tid = 0 := by
  rw [unblockTids]
  split
  · next htid => exact iff_of_true rfl htid
  · next htid => exact iff_of_false (List.cons_ne_nil _ _) htid

/-- `close_connection` leaves nothing exactly when it resumes no thread. -/
theorem closeTids_eq_nil {conn : Connection} {calls : Pcalls} :
    closeTids conn = [] ↔ closeValues conn calls = [] := by
  rw [closeTids, closeValues]
  split
  · rw [List.append_eq_nil_iff, List.append_eq_nil_iff, unblockTids_eq_nil, unblockTids_eq_nil,
      unblockValues_eq_nil, unblockValues_eq_nil, and_comm]
  · exact iff_of_true rfl rfl

theorem closeValues_eq_nil {conn : Connection} {calls : Pcalls} :
    closeValues conn calls = [] ↔
      conn.luaRef = false ∨ conn.luaWriterTid = 0 ∧ conn.luaReaderTid = 0 := by
  rw [closeValues]
  split
  · next hopen =>
    rw [List.append_eq_nil_iff, unblockValues_eq_nil, unblockValues_eq_nil, hopen]
    simp
  · next hclosed => exact iff_of_true rfl (.inl (Bool.eq_false_iff.mpr hclosed))

theorem leaves_close (g : LGlobal) (conn : Connection) (status : UvError) (calls : Pcalls) :
    g.Leaves (g.closeConnection conn status calls) (closeLeft conn calls) False := by
  rw [closeConnection_eq]
  exact ⟨_, _, rfl, length_closeValues conn calls,
    iff_of_false (fun hleft => hleft.2 (closeTids_eq_nil.mp hleft.1)) not_false⟩

/-- The values of the last call of `close_connection` are on top. -/
theorem closeValues_last {conn : Connection} {calls : Pcalls}
    (h : closeValues conn calls ≠ []) :
    ∃ rest, closeValues conn calls =
      (if conn.luaWriterTid = 0 then calls.reader else calls.writer).values ++ rest := by
  obtain ⟨hopen, hwaits⟩ := not_or.mp (closeValues_eq_nil.not.mp h)
  rw [closeValues, if_pos (Bool.not_eq_false _ ▸ hopen)]
  by_cases hwriter : conn.luaWriterTid = 0
  · have hreader : conn.luaReaderTid ≠ 0 := fun hreader => hwaits ⟨hwriter, hreader⟩
    rw [if_pos hwriter, unblockValues, if_pos hwriter, unblockValues, if_neg hreader]
    exact ⟨[], (List.append_nil _).symm⟩
  · rw [if_neg hwriter, unblockValues, if_neg hwriter]
    exact ⟨_, rfl⟩

/-- The last call of a failed connect finds the values of the calls before it where its function
and its thread id should be. -/
theorem resume_after_close (g : LGlobal) (tid : Int) (e : UvError) (last : Pcall)
    (rest : List StackValue) (tids : List Int) (pcall : Pcall) :
    ∃ values, (((((g.push .resumeThreadFn).push (.integer tid)).keep (last.values ++ rest)
        tids).push (.boolean false)).push (.arg (.strerror e))).resumeLuaThread pcall =
          g.keep values tids ∧
      values.length = (last.values ++ rest).length + if last.toInteger = 0 then 4 else 1 := by
  -- what stays when nothing is called
  have hstays : g.keep ([.arg (.strerror e), .boolean false] ++ (last.values ++ rest) ++
      [.integer tid, .resumeThreadFn]) tids =
        ((((g.push .resumeThreadFn).push (.integer tid)).keep (last.values ++ rest)
          tids).push (.boolean false)).push (.arg (.strerror e)) := by
    simp [keep, push]
  cases last with
  | failed =>
    refine ⟨_, hstays.symm, ?_⟩
    rw [if_pos (show Pcall.failed.toInteger = 0 from rfl)]
    simp [Nat.add_assoc]
  | returned isDone n =>
    by_cases hn : n = 0
    · refine ⟨_, (if_pos hn).trans hstays.symm, ?_⟩
      rw [if_pos (show (Pcall.returned isDone n).toInteger = 0 from hn)]
      simp [Nat.add_assoc]
    · refine ⟨.errorMessage :: rest ++ [.integer tid, .resumeThreadFn], (if_neg hn).trans ?_, ?_⟩
      · simp [keep, push, luaPcall, Pcall.values, StackValue.isFunction]
      · rw [if_neg (show (Pcall.returned isDone n).toInteger ≠ 0 from hn)]
        simp [Pcall.values]

theorem leaves_onClientConnect (g : LGlobal) (conn : Connection) (status : Option UvError)
    (calls : Pcalls) :
    g.Leaves (g.onClientConnect conn status calls)
      (Callback.clientConnect conn status calls).left
      ((Callback.clientConnect conn status calls).unanswered = true) := by
  cases status with
  | none =>
    have hcall := g.leaves_call conn.luaWriterTid true (.arg .nil) calls.own
    exact hcall.of_iff (by simp [Callback.unanswered])
  | some e =>
    have hunanswered : (Callback.clientConnect conn (some e) calls).unanswered = true ↔
        conn.luaWriterTid = 0 ∧ closeValues conn calls = [] := by
      rw [closeValues_eq_nil]
      simp only [Callback.unanswered, decide_eq_true_eq]
      tauto
    rw [onClientConnect, Callback.left, connectLeft, ← length_closeValues, hunanswered]
    simp only [closeConnection_eq]
    by_cases hclose : closeValues conn calls = []
    · have hcall := g.leaves_call conn.luaWriterTid false (.arg (.strerror e)) calls.own
      rw [hclose, closeTids_eq_nil.mpr hclose, keep_nil, List.length_nil, if_pos rfl]
      exact hcall.of_iff (by simp)
    · obtain ⟨rest, hlast⟩ := closeValues_last hclose
      obtain ⟨values, hvalues, hlength⟩ := g.resume_after_close conn.luaWriterTid e
        (if conn.luaWriterTid = 0 then calls.reader else calls.writer) rest (closeTids conn)
        calls.own
      rw [← hlast] at hvalues hlength
      rw [if_neg (List.length_eq_zero_iff.not.mpr hclose)]
      exact ⟨values, closeTids conn, hvalues, hlength, iff_of_false
        (fun hleft => hclose (closeTids_eq_nil.mp hleft.1)) fun hnone => hclose hnone.2⟩

theorem leaves_onRead (g : LGlobal) (conn : Connection) (nread : NRead) (calls : Pcalls) :
    g.Leaves (g.onRead conn nread calls) (Callback.read conn nread calls).left
      ((Callback.read conn nread calls).unanswered = true) := by
  cases nread with
  | bytes n =>
    cases n with
    | zero => exact g.leaves_nothing Bool.false_ne_true
    | succ n =>
      have hcall := g.leaves_call conn.luaReaderTid true
        (.arg (.str (conn.readBuffer.take (conn.readLen + (n + 1))))) calls.own
      exact hcall.of_iff (by simp [Callback.unanswered])
  | error e =>
    have hclose := g.leaves_close conn e calls
    have hanswered : (Callback.read conn (.error e) calls).unanswered = true ↔ False := by
      simp [Callback.unanswered]
    cases e with
    | ENOBUFS => exact g.leaves_nothing Bool.false_ne_true
    | _ => exact hclose.of_iff hanswered

theorem leaves_onWrite (g : LGlobal) (conn : Connection) (status : Option UvError)
    (calls : Pcalls) :
    g.Leaves (g.onWrite conn status calls) (Callback.write conn status calls).left
      ((Callback.write conn status calls).unanswered = true) := by
  by_cases hpending : conn.writePending = true
  · cases status with
    | some e =>
      have hclose := g.leaves_close conn e calls
      rw [onWrite, if_pos hpending, Callback.left, if_pos hpending]
      exact hclose.of_iff (by simp [Callback.unanswered])
    | none =>
      have hcall := g.leaves_call conn.luaWriterTid true (.arg (.integer 1)) calls.own
      rw [onWrite, if_pos hpending, Callback.left, if_pos hpending]
      exact hcall.of_iff (by simp [Callback.unanswered, hpending])
  · have hnothing : g.onWrite conn status calls = g := if_neg hpending
    have hnone : (Callback.write conn status calls).left = 0 := if_neg hpending
    rw [hnothing, hnone]
    refine g.leaves_nothing ?_
    cases status <;> simp [Callback.unanswered, hpending]

theorem leaves_onResolved (g : LGlobal) (tid : Int) (status : Option UvError)
    (res : Option (Except UvError String)) (pcall : Pcall) :
    g.Leaves (g.onResolved tid status res pcall) (callLeft tid pcall)
      ((Callback.resolved tid status res pcall).unanswered = true) := by
  have hunanswered : (Callback.resolved tid status res pcall).unanswered = true ↔ tid = 0 := by
    simp [Callback.unanswered]
  rw [onResolved.eq_def]
  dsimp only
  split <;> exact (g.leaves_call tid _ _ pcall).of_iff hunanswered

theorem leaves_onUserTimerTimeout (g : LGlobal) (timer : UserTimer) (pcall : Pcall) :
    g.Leaves (g.onUserTimerTimeout timer pcall) (Callback.userTimer timer pcall).left False := by
  rw [onUserTimerTimeout, Callback.left]
  by_cases htid : timer.luaTid = 0
  · rw [if_pos htid, if_pos htid]
    exact g.leaves_nothing not_false
  · have hcall := g.leaves_call timer.luaTid true (.boolean true) pcall
    rw [if_neg htid, if_neg htid]
    rw [callLeft, if_neg htid, iff_false_intro htid] at hcall
    exact hcall

/-- What a callback for threads does to the stack. -/
theorem step_leaves {g g' : LGlobal} {callback : Callback}
    (hthreads : callback.resumesThreads = true) (h : g.step callback = some g') :
    ({ g with resumed := [] } : LGlobal).Leaves g' callback.left
      (callback.unanswered = true) := by
  cases callback with
  | serverConnect => cases hthreads
  | read conn nread calls =>
    cases h
    exact leaves_onRead _ conn nread calls
  | write conn status calls =>
    cases h
    exact leaves_onWrite _ conn status calls
  | clientConnect conn status calls =>
    cases h
    exact leaves_onClientConnect _ conn status calls
  | resolved tid status res pcall =>
    cases h
    exact leaves_onResolved _ tid status res pcall
  | connTimeout conn calls =>
    cases h
    have hclose := leaves_close { g with resumed := [] } conn .ECANCELED calls
    exact hclose.of_iff (by simp [Callback.unanswered])
  | userTimer timer pcall =>
    cases h
    have htimer := leaves_onUserTimerTimeout { g with resumed := [] } timer pcall
    exact htimer.of_iff (by simp [Callback.unanswered])
  | close =>
    cases h
    exact leaves_nothing _ Bool.false_ne_true

section Wakeups

variable (g : LGlobal) {conn : Connection} (calls : Pcalls)

/-- The thread ids of wake-ups, as they stand on the stack. -/
def tidsOf (woken : List Tcp.Wakeup) : List Int :=
  (woken.map Tcp.Wakeup.tid).map Int.ofNat

theorem tidsOf_resumeLuaThread (tid : Nat) (status : Bool) (value : LuaArg) :
    tidsOf (Tcp.resumeLuaThread tid status value) = unblockTids tid := by
  rw [tidsOf, Tcp.map_tid_resumeLuaThread, unblockTids]
  by_cases htid : tid = 0
  · rw [if_pos htid, List.filter_cons_of_neg (by simpa using htid)]
    rfl
  · rw [if_neg htid, List.filter_cons_of_pos (by simpa using htid)]
    rfl

theorem resumed_call (tid : Nat) (status : Bool) (value : StackValue) (pcall : Pcall) :
    ((g.pushCall tid status value).resumeLuaThread pcall).resumed =
      g.resumed ++ unblockTids tid := by
  rw [resume_pushCall, unblockTids]
  by_cases htid : tid = 0
  · rw [if_pos (Int.natCast_eq_zero.mpr htid), if_pos htid]
    rfl
  · rw [if_neg (Int.natCast_eq_zero.not.mpr htid), if_neg htid]
    rfl

theorem closeTids_eq (hwf : conn.Wf) (e : UvError) :
    closeTids conn = tidsOf (Tcp.closeConnection conn e).2 := by
  obtain ⟨hopen, hhandle⟩ | hclosed := hwf
  · rw [tidsOf, (Tcp.closeConnection_open hopen hhandle e).2, closeTids, if_pos hopen]
    rw [unblockTids, unblockTids, Connection.ids]
    by_cases hreader : conn.luaReaderTid = 0 <;> by_cases hwriter : conn.luaWriterTid = 0 <;>
      simp [hreader, hwriter]
  · rw [Tcp.closeConnection_closed hclosed, closeTids, hclosed.luaRef]
    rfl

theorem resumed_closeConnection (hwf : conn.Wf) (e : UvError) :
    (g.closeConnection conn e calls).resumed =
      g.resumed ++ tidsOf (Tcp.closeConnection conn e).2 := by
  rw [closeConnection_eq, closeTids_eq hwf e]
  rfl

theorem resumed_onRead (hwf : conn.Wf) (nread : NRead) :
    (g.onRead conn nread calls).resumed = g.resumed ++ tidsOf (Tcp.onRead conn nread).2 := by
  have hstopped : { conn with readTimer := Tcp.stopTimer conn.readTimer }.Wf :=
    hwf.imp id fun hclosed => ⟨hclosed.luaRef, hclosed.reader, hclosed.writer, hclosed.inactive⟩
  cases nread with
  | bytes n =>
    cases n with
    | zero => exact (List.append_nil _).symm
    | succ n =>
      have hwoken : (Tcp.onRead conn (.bytes (n + 1))).2 = Tcp.resumeLuaThread conn.luaReaderTid
          true (.str (conn.readBuffer.take (conn.readLen + (n + 1)))) := rfl
      rw [hwoken, tidsOf_resumeLuaThread]
      exact g.resumed_call conn.luaReaderTid _ _ calls.own
  | error e =>
    have hclose := g.resumed_closeConnection calls hstopped e
    cases e with
    | ENOBUFS => exact (List.append_nil _).symm
    | _ => exact hclose

theorem resumed_onWrite (hwf : conn.Wf) (status : Option UvError) :
    (g.onWrite conn status calls).resumed =
      g.resumed ++ tidsOf (Tcp.onWrite conn status).2 := by
  have hdone : { conn with writePending := false, refCount := conn.refCount - 1 }.Wf :=
    hwf.imp id fun hclosed => ⟨hclosed.luaRef, hclosed.reader, hclosed.writer, hclosed.inactive⟩
  by_cases hpending : conn.writePending = true
  · cases status with
    | some e =>
      rw [onWrite, if_pos hpending, Tcp.onWrite, if_pos hpending]
      exact g.resumed_closeConnection calls hdone e
    | none =>
      rw [onWrite, if_pos hpending, Tcp.onWrite, if_pos hpending, tidsOf_resumeLuaThread]
      exact g.resumed_call conn.luaWriterTid _ _ calls.own
  · have hnothing : g.onWrite conn status calls = g := if_neg hpending
    have hnone : Tcp.onWrite conn status = (conn, []) := if_neg hpending
    rw [hnothing, hnone]
    exact (List.append_nil _).symm

/-- The last call of a failed connect resumes nobody: the connection is closed by then, or its
thread has been resumed already. -/
theorem resumed_onClientConnect (hwf : conn.Wf) (status : Option UvError) :
    (g.onClientConnect conn status calls).resumed =
      g.resumed ++ tidsOf (Tcp.onClientConnect conn status).2 := by
  have hstopped : { conn with writeTimer := Tcp.stopTimer conn.writeTimer }.Wf :=
    hwf.imp id fun hclosed => ⟨hclosed.luaRef, hclosed.reader, hclosed.writer, hclosed.inactive⟩
  cases status with
  | none =>
    rw [Tcp.onClientConnect, tidsOf_resumeLuaThread]
    exact g.resumed_call conn.luaWriterTid _ _ calls.own
  | some e =>
    have htids : closeTids { conn with writeTimer := Tcp.stopTimer conn.writeTimer } =
        closeTids conn := rfl
    rw [Tcp.onClientConnect, ← closeTids_eq hstopped e, htids, onClientConnect]
    simp only [closeConnection_eq]
    by_cases hclose : closeValues conn calls = []
    · have hwriter : conn.luaWriterTid = 0 := by
        obtain hunlinked | ⟨hwriter, -⟩ := closeValues_eq_nil.mp hclose
        · obtain ⟨hopen, -⟩ | hclosed := hwf
          · exact absurd hopen (hunlinked ▸ Bool.false_ne_true)
          · exact hclosed.writer
        · exact hwriter
      have hcall := g.resumed_call conn.luaWriterTid false (.arg (.strerror e)) calls.own
      rw [hclose, closeTids_eq_nil.mpr hclose, keep_nil]
      rw [show unblockTids conn.luaWriterTid = [] from if_pos hwriter] at hcall
      exact hcall
    · obtain ⟨rest, hlast⟩ := closeValues_last hclose
      obtain ⟨values, hvalues, -⟩ := g.resume_after_close conn.luaWriterTid e
        (if conn.luaWriterTid = 0 then calls.reader else calls.writer) rest (closeTids conn)
        calls.own
      rw [← hlast] at hvalues
      rw [hvalues]
      rfl

end Wakeups


/-- On the stack a callback of a connection resumes the threads that it wakes. -/
theorem step_resumes {g g' : LGlobal} {callback : Callback} {conn : Connection}
    {woken : List Tcp.Wakeup} (hwf : conn.Wf) (hwoken : callback.wakes = some (conn, woken))
    (h : g.step callback = some g') : g'.resumed = tidsOf woken := by
  cases callback with
  | read conn nread calls =>
    cases hwoken
    cases h
    exact resumed_onRead _ calls hwf nread
  | write conn status calls =>
    cases hwoken
    cases h
    exact resumed_onWrite _ calls hwf status
  | clientConnect conn status calls =>
    cases hwoken
    cases h
    exact resumed_onClientConnect _ calls hwf status
  | connTimeout conn calls =>
    cases hwoken
    cases h
    exact resumed_closeConnection _ calls hwf .ECANCELED
  | serverConnect | resolved | userTimer | close => cases hwoken

theorem step_eq_none {g : LGlobal} {callback : Callback} :
    g.step callback = none ↔ callback.aborts = true := by
  cases callback with
  | serverConnect status accept pcall =>
    cases status <;> cases accept <;> simp [step, onServerConnect, Callback.aborts]
  | _ => simp [step, Callback.aborts]

theorem length_step {g g' : LGlobal} {callback : Callback} (h : g.step callback = some g') :
    g'.stack.length = g.stack.length + callback.left := by
  by_cases hthreads : callback.resumesThreads = true
  · obtain ⟨values, tids, rfl, hlength, -⟩ := step_leaves hthreads h
    rw [← hlength, Nat.add_comm]
    exact List.length_append
  · cases callback with
    | serverConnect status accept pcall =>
      cases status with
      | some e => cases h
      | none =>
        cases accept with
        | noMemory => cases h
        | refused e =>
          cases h
          rfl
        | accepted =>
          cases h
          rw [Callback.left, ← length_values, Nat.add_comm]
          exact List.length_append
    | _ => exact absurd rfl hthreads

end LGlobal

/-- When a callback leaves the stack tidy. -/
theorem tidy_iff {g g' : LGlobal} {callback : Callback} (h : g.step callback = some g') :
    Tidy g callback ↔
      callback.unanswered = false ∧ g.stack.length + callback.left ≤ luaMinstack := by
  have htidy : Tidy g callback ↔ g'.stack.length ≤ luaMinstack ∧
      (callback.resumesThreads = true → g'.resumed = [] → g'.stack = g.stack) := by
    refine ⟨fun htidy => htidy g' h, fun htidy t ht => ?_⟩
    cases h.symm.trans ht
    exact htidy
  rw [htidy, LGlobal.length_step h, and_comm]
  refine and_congr_left fun _ => ?_
  by_cases hthreads : callback.resumesThreads = true
  · obtain ⟨values, tids, rfl, -, hleft⟩ := LGlobal.step_leaves hthreads h
    have hpopped : values ++ g.stack = g.stack ↔ values = [] := List.append_left_eq_self
    rw [← Bool.not_eq_true, ← hleft, not_and_not_right]
    exact ⟨fun hpops hnone => hpopped.mp (hpops hthreads hnone),
      fun hnone _ hresumed => hpopped.mpr (hnone hresumed)⟩
  · refine iff_of_true (fun hyes => absurd hyes hthreads) ?_
    cases callback with
    | serverConnect => rfl
    | _ => exact absurd rfl hthreads

/-- The callbacks up to the first that ends the program. -/
def beforeAbort (callbacks : List Callback) : List Callback :=
  callbacks.takeWhile (!·.aborts)

/-- The stack of `l_global` stays within its slots, and callbacks that resume no thread pop all they
pushed, exactly when no callback has arguments for a zero thread id and the values that the
callbacks leave are no more than the slots. -/
theorem callback_stack_bounded_iff (g : LGlobal) (callbacks : List Callback) :
    Guarded LGlobal.step Tidy g.runUserThreads callbacks ↔
      (∀ callback ∈ beforeAbort callbacks, callback.unanswered = false) ∧
        ((beforeAbort callbacks).map Callback.left).sum ≤ luaMinstack := by
  have hweight := @guarded_weight_iff _ _ LGlobal.step (fun callback => callback.unanswered = false)
    (fun g => g.stack.length) Callback.left Callback.aborts luaMinstack
    (fun _ _ _ => LGlobal.length_step) (fun _ _ => LGlobal.step_eq_none) g.runUserThreads callbacks
    (Nat.zero_le luaMinstack)
  have hempty : g.runUserThreads.stack.length = 0 := rfl
  rw [hempty, Nat.zero_add] at hweight
  exact (guarded_congr (fun _ _ _ => tidy_iff) _ callbacks).trans hweight

/-- A connection that thread 7 reads from. -/
def awaited : Connection :=
  (Tcp.readCheck (Tcp.startReading newConnection none).1 7 3000).1

/-- A read wakes the thread, which waits again. -/
def awaitedRead : Callback :=
  .read awaited (.bytes 5) ⟨.failed, .failed, .returned false 0⟩

/-- Every read leaves two values, and the eleventh finds no slot free. -/
theorem eleven_reads_outgrow :
    ¬∀ (g : LGlobal) (callbacks : List Callback),
      Guarded LGlobal.step Tidy g.runUserThreads callbacks := by
  intro h
  have hten : (exec LGlobal.step (LGlobal.runUserThreads ⟨[], []⟩)
      (List.replicate 10 awaitedRead)).map (·.stack.length) = some luaMinstack := by
    decide +kernel
  obtain ⟨g, hg, hfull⟩ := Option.map_eq_some_iff.mp hten
  have hlast := (h ⟨[], []⟩ (List.replicate 10 awaitedRead ++ [awaitedRead])).append_inv.2 g hg
  have hfits := (tidy_iff rfl).mp (hlast _ rfl).1
  rw [hfull] at hfits
  exact absurd hfits.2 (by decide)

end Luaw.Server
