import Luaw.Tcp.Connection

/-!
# User timers

The timer object of `luaw_timer.c` and the C functions that work on it. A function that resumes a
thread is cut in two there: the resumed thread may call the timer's methods before the function
goes on, so what is left to do is a `Frame`.
-/

namespace Luaw.Timer

open Tcp (UvError UvHandle closeIfActive)

/-- `timer_state`. -/
inductive TimerState where
  | init
  | ticking
  | elapsed
  deriving DecidableEq, Repr

/-- The number C gives the enumerator. -/
def TimerState.toNat : TimerState → Nat
  | .init => 0
  | .ticking => 1
  | .elapsed => 2

/-- An error message; `strerror before e` is the text `before` followed by `uv_strerror(e)`. -/
inductive Mesg where
  | text (s : String)
  | strerror (before : String) (e : UvError)
  deriving DecidableEq, Repr

/-- A status and a value: `ok` for `true` and whether the timer elapsed, `error` for `false` and a
message. -/
inductive Outcome where
  | ok (elapsed : Bool)
  | error (mesg : Mesg)
  deriving DecidableEq, Repr

/-- What unblocks a thread whose timer is stopped or deleted. -/
def canceled : Outcome := .error (.strerror "" .ECANCELED)

/-- `luaw_timer_t`. A zero `luaTid` stands for no thread; `luaRef` says whether the pointer to
Lua's userdata is non-null. -/
structure UserTimer where
  handle : UvHandle
  state : TimerState
  luaTid : Int
  luaRef : Bool
  deriving DecidableEq, Repr

/-- The rest of a function that has resumed a thread. -/
inductive Frame where
  | close
  | timeout
  | stop
  deriving DecidableEq, Repr

/-- A resume, and what is left to do when the thread has yielded. -/
structure Resume where
  tid : Int
  outcome : Outcome
  rest : Frame
  deriving DecidableEq, Repr

/-- A call up to its resume, if it makes one. `result` is what it returns in the end. -/
structure Call (α : Type) where
  timer : UserTimer
  resume : Option Resume
  result : α

/-- `new_user_timer`. -/
def newUserTimer : UserTimer where
  handle := ⟨false, false⟩
  state := .init
  luaTid := 0
  luaRef := true

/-- `clear_user_timer`. -/
def clearUserTimer (timer : UserTimer) : UserTimer :=
  { timer with state := .init, luaTid := 0 }

/-- `uv_timer_stop`. -/
def uvTimerStop (timer : UserTimer) : UserTimer :=
  { timer with handle := { timer.handle with active := false } }

/-- The end of `close_timer`. -/
def closeHandle (timer : UserTimer) : UserTimer :=
  { timer with handle := closeIfActive timer.handle }

def Frame.finish (timer : UserTimer) : Frame → UserTimer
  | .close => closeHandle timer
  | .timeout => timer
  | .stop => uvTimerStop (clearUserTimer timer)

/-- `close_timer`, behind `timer:delete()` and `__gc`. A null `lua_ref` marks a timer that is
closed already. -/
def closeTimer (timer : UserTimer) : Call Unit :=
  if timer.luaRef then
    if timer.luaTid = 0 then ⟨closeHandle { timer with luaRef := false }, none, ()⟩
    else ⟨{ timer with luaRef := false, luaTid := 0 }, some ⟨timer.luaTid, canceled, .close⟩, ()⟩
  else ⟨timer, none, ()⟩

/-- `on_user_timer_timeout`. -/
def onUserTimerTimeout (timer : UserTimer) : Call Unit :=
  if timer.luaTid = 0 then ⟨{ timer with state := .elapsed }, none, ()⟩
  else ⟨clearUserTimer timer, some ⟨timer.luaTid, .ok true, .timeout⟩, ()⟩

/-- `start_user_timer`; `rc` is what `uv_timer_start` answers. -/
def startUserTimer (timer : UserTimer) (timeout : Int) (rc : Option UvError) :
    Call (Except Mesg Unit) :=
  if timer.luaRef then
    if timer.state ≠ .init then
      -- timer is already started by another lua thread
      ⟨timer, none, .error (.text "Timer already in use by another thread")⟩
    else if timeout ≤ 0 then
      ⟨timer, none, .error (.text s!"Invalid timeout value {timeout} specified")⟩
    else
      match rc with
      | some e =>
        let closed := closeTimer timer
        ⟨closed.timer, closed.resume, .error (.strerror "Error starting timer: " e)⟩
      | none =>
        ⟨{ timer with state := .ticking, handle := { timer.handle with active := true } }, none,
          .ok ()⟩
  else ⟨timer, none, .error (.text "Timer closed")⟩

/-- `wait_user_timer`. The method of Lua yields when this returns `ok false`. -/
def waitUserTimer (timer : UserTimer) (tid : Int) : UserTimer × Outcome :=
  if timer.luaRef then
    if timer.state = .elapsed then (clearUserTimer timer, .ok true)
    else if timer.state ≠ .ticking then
      (timer, .error (.text
        s!"Attempt to wait on timer that is not started, timer state: {timer.state.toNat}"))
    else if timer.luaTid ≠ 0 then
      (timer, .error (.text s!"Timer already is in use by thread {timer.luaTid}"))
    else if tid ≤ 0 then (timer, .error (.text s!"Invalid thread id {tid} specified"))
    else ({ timer with luaTid := tid }, .ok false)
  else (timer, .error (.text "Timer closed"))

/-- `stop_user_timer`. Unlike `close_timer` and `on_user_timer_timeout` it clears the thread id
after the resume. -/
def stopUserTimer (timer : UserTimer) : Call (Except Mesg Unit) :=
  if timer.luaRef then
    if timer.state = .ticking then
      if timer.luaTid = 0 then ⟨uvTimerStop (clearUserTimer timer), none, .ok ()⟩
      else ⟨timer, some ⟨timer.luaTid, canceled, .stop⟩, .ok ()⟩
    else ⟨timer, none, .ok ()⟩
  else ⟨timer, none, .error (.text "Timer closed")⟩

end Luaw.Timer
