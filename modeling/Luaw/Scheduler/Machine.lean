import Luaw.Scheduler.Registry
import Mathlib

/-!
# The scheduler

The state of `luaw_scheduler.lua` with the coroutines of its threads, and one step of the
program: of the thread that runs, of `runReadyThreads`, or of the event loop when none runs.
What the functions of the threads do is open; a thread may do anything at every step.
-/

namespace Luaw.Scheduler

/-- The scheduler's values in `luaw_constants.lua`. -/
inductive Constant where
  | runnable
  | done
  | blockedOnEvent
  | blockedOnThread
  | endOfCall
  | endOfThread
  deriving DecidableEq

/-- The fields of the table `luaw_constants`. -/
def constants : List (String × Constant) :=
  [("TS_RUNNABLE", .runnable), ("TS_DONE", .done), ("TS_BLOCKED_EVENT", .blockedOnEvent),
    ("TS_BLOCKED_THREAD", .blockedOnThread), ("END_OF_CALL", .endOfCall),
    ("END_OF_THREAD", .endOfThread)]

/-- What a coroutine yields first, if it is not nil. -/
inductive Mark where
  | constant (c : Constant)
  | other
  deriving DecidableEq

/-- A field of `luaw_constants`, nil when there is none of that name. -/
def constant (field : String) : Option Mark := (constants.lookup field).map .constant

def TS_RUNNABLE : Option Mark := constant "RUNNABLE"

def TS_DONE : Option Mark := constant "DONE"

def TS_BLOCKED_EVENT : Option Mark := constant "BLOCKED_ON_EVENT"

def TS_BLOCKED_THREAD : Option Mark := constant "BLOCKED_ON_THREAD"

def END_OF_CALL : Option Mark := constant "END_OF_CALL"

def END_OF_THREAD : Option Mark := constant "END_OF_THREAD"

/-- The number of a thread context. -/
abbrev CtxId := Nat

/-- The number of a coroutine. -/
abbrev CoId := Nat

/-- What `threadRegistry:ref` returns. -/
abbrev Tid := Registry.Value CtxId

/-- A `threadCtx`. The table `requestCtx` is named by the context that it was made for. -/
structure ThreadCtx where
  thread : Option CoId
  requestCtx : Option CtxId
  tid : Tid
  state : Option Mark
  nextThread : Option CtxId
  joinedBy : Option CtxId
  joinCount : Int

/-- A coroutine of `threadRunLoop`: the calls it has finished, and whether the call it is in
waits in the loop of `scheduler.join`. -/
structure Coroutine where
  calls : Nat
  dead : Bool
  joining : Bool

/-- A call in progress: of `resumeThread`, with its local variables, or of `runReadyThreads`,
with the rounds that its loop has left. -/
inductive Frame where
  | thread (ctx : CtxId) (t : CoId) (tid : Tid)
  | ready (rounds : Nat)

/-- A context that was taken from the run queue, whether its function had finished, and whether
it was resumed. -/
structure Dequeue where
  ctx : CtxId
  finished : Bool
  resumed : Bool

/-- A call of `scheduler.join` by a thread. -/
structure JoinCall where
  joiner : CtxId
  joined : List CtxId
  returned : Bool

/-- The last five fields are read by no code: the threads whose functions have not finished,
the contexts added to the run queue and not taken from it, and what has been taken, released
and joined so far. -/
structure State where
  ctx : CtxId → ThreadCtx
  nctx : Nat
  co : CoId → Coroutine
  nco : Nat
  threadRegistry : Registry CtxId
  threadPool : List CoId
  runQueueLen : Nat
  runQueueHead : Option CtxId
  runQueueTail : Option CtxId
  currentRunningThreadCtx : Option (Registry.Value CtxId)
  context : Option CtxId
  stack : List Frame
  live : List CtxId
  queue : List CtxId
  dequeues : List Dequeue
  unrefs : List CtxId
  joins : List JoinCall

structure Config where
  threadPoolSize : Nat
  timesReuseThread : Nat

/-- A context that has not been made yet. -/
def noCtx : ThreadCtx := ⟨none, none, .num (-1), none, none, none, 0⟩

def init : State where
  ctx _ := noCtx
  nctx := 0
  co _ := ⟨0, true, false⟩
  nco := 0
  threadRegistry := newRegistry CtxId
  threadPool := []
  runQueueLen := 0
  runQueueHead := none
  runQueueTail := none
  currentRunningThreadCtx := none
  context := none
  stack := []
  live := []
  queue := []
  dequeues := []
  unrefs := []
  joins := []

/-- A global variable that nothing assigns. -/
def joininTC : Option CtxId := none

namespace State

def setCtx (s : State) (c : CtxId) (ctx : ThreadCtx) : State :=
  { s with ctx := Function.update s.ctx c ctx }

def setCo (s : State) (t : CoId) (co : Coroutine) : State :=
  { s with co := Function.update s.co t co }

/-- `scheduler.tid()`. -/
def tid (s : State) : Option Tid :=
  match s.currentRunningThreadCtx with
  | some (.obj c) => some (s.ctx c).tid
  | _ => none

/-- The thread whose code is being executed. -/
def running (s : State) : Option CtxId :=
  match s.stack with
  | .thread c _ _ :: _ => some c
  | _ => none

/-- The coroutine is in a call of `coroutine.resume` that has not returned. -/
def onStack (s : State) (t : CoId) : Bool :=
  s.stack.any fun | .thread _ t' _ => t' = t | .ready _ => false

def suspended (s : State) (t : CoId) : Bool := !(s.co t).dead && !s.onStack t

def addToRunQueue (s : State) (c : CtxId) : State :=
  let s := match s.runQueueTail with
    | none => { s with runQueueHead := some c, runQueueTail := some c }
    | some tail =>
      { s.setCtx tail { s.ctx tail with nextThread := some c } with runQueueTail := some c }
  { s.setCtx c { s.ctx c with state := TS_RUNNABLE } with
    runQueueLen := s.runQueueLen + 1
    queue := s.queue ++ [c] }

/-- The thread context of a coroutine, new or from the pool. -/
def newThread (s : State) : CtxId × State :=
  let (t, s) := match s.threadPool with
    | t :: threadPool => (t, { s with threadPool })
    | [] => (s.nco, { s.setCo s.nco ⟨0, false, false⟩ with nco := s.nco + 1 })
  let c := s.nctx
  let (tid, threadRegistry) := s.threadRegistry.ref c
  (c, { s.setCtx c ⟨some t, some c, tid, none, none, none, 0⟩ with
    nctx := s.nctx + 1
    threadRegistry := threadRegistry
    live := s.live ++ [c] })

def unblockJoinedThreadIfAny (s : State) (c : CtxId) : State :=
  match (s.ctx c).joinedBy with
  | none => s
  | some joinedTC =>
    let count := (s.ctx joinedTC).joinCount - 1
    let s := s.setCtx joinedTC { s.ctx joinedTC with joinCount := count }
    if count ≤ 0 then s.addToRunQueue joinedTC else s

def afterResume (s : State) (c : CtxId) (state : Option Mark) : State :=
  { s.setCtx c { s.ctx c with state } with currentRunningThreadCtx := none }

/-- `threadPool:offer`, if there is a coroutine to offer. -/
def offer (cfg : Config) (s : State) : Option CoId → State
  | none => s
  | some t =>
    if s.threadPool.length < cfg.threadPoolSize then { s with threadPool := s.threadPool ++ [t] }
    else s

/-- The context of a thread that has ended, with the registry that no longer has it. -/
def release (s : State) (c : CtxId) (threadRegistry : Registry CtxId) : State :=
  { s.setCtx c { s.ctx c with thread := none, requestCtx := none } with
    threadRegistry := threadRegistry
    unrefs := s.unrefs ++ [c] }

/-- `resumeThread` from where the thread has ended. Releasing the id may raise. -/
def ended (cfg : Config) (s : State) (c : CtxId) (tid : Tid) (offered : Option CoId) : State :=
  match s.threadRegistry.unref tid with
  | none => s
  | some threadRegistry =>
    let s := (s.release c threadRegistry).offer cfg offered
    (s.unblockJoinedThreadIfAny c).afterResume c TS_DONE

/-- `resumeThread` from where `coroutine.resume` has returned `status, state`. -/
def resumed (cfg : Config) (s : State) (c : CtxId) (t : CoId) (tid : Tid) (status : Bool)
    (state : Option Mark) : State :=
  let s := { s with context := none }
  let state := if status then state else END_OF_THREAD
  if state = END_OF_THREAD ∨ state = END_OF_CALL then
    s.ended cfg c tid (if state = END_OF_CALL ∧ status then some t else none)
  else if state = TS_BLOCKED_EVENT ∨ state = TS_BLOCKED_THREAD then s.afterResume c state
  else (s.addToRunQueue c).afterResume c TS_RUNNABLE

/-- `resumeThread` until the coroutine runs. One that is not suspended cannot be resumed. -/
def resumeThread (cfg : Config) (s : State) (c : CtxId) : State :=
  let s := { s with currentRunningThreadCtx := some (.obj c), context := (s.ctx c).requestCtx }
  match (s.ctx c).thread with
  | none => s
  | some t =>
    if s.suspended t then { s with stack := .thread c t (s.ctx c).tid :: s.stack }
    else s.resumed cfg c t (s.ctx c).tid false none

/-- An id without a context is an error. -/
def resumeThreadId (cfg : Config) (s : State) (tid : Tid) : State :=
  match s.threadRegistry.get tid with
  | none => s
  | some (.obj c) => s.resumeThread cfg c
  | some (.num n) => { s with currentRunningThreadCtx := some (.num n) }

def startSystemThread (cfg : Config) (s : State) : State :=
  let (c, s) := s.newThread
  (s.setCtx c { s.ctx c with state := TS_RUNNABLE }).resumeThread cfg c

def startUserThread (s : State) : State :=
  let (c, s) := s.newThread
  s.addToRunQueue c

/-- The loop over the joined threads: the new contexts and the count. -/
def countJoined (joiningTC : CtxId) : List CtxId → State × Int → State × Int
  | [], counted => counted
  | joinedTC :: joined, (s, count) =>
    countJoined joiningTC joined
      (if (s.ctx joinedTC).state ≠ none ∧ (s.ctx joinedTC).state ≠ TS_DONE then
        (s.setCtx joinedTC { s.ctx joinedTC with joinedBy := some joiningTC }, count + 1)
      else (s, count))

/-- `scheduler.join`, called by the thread `c`. -/
def join (s : State) (c : CtxId) (t : CoId) (joined : List CtxId) : State :=
  if joininTC.isSome then
    match s.currentRunningThreadCtx with
    | some (.obj joiningTC) =>
      let (s, count) := countJoined joiningTC joined (s, 0)
      let s := s.setCtx joiningTC { s.ctx joiningTC with joinCount := count }
      { s.setCo t { s.co t with joining := true } with joins := s.joins ++ [⟨c, joined, false⟩] }
    | _ => s
  else { s with joins := s.joins ++ [⟨c, joined, true⟩] }

/-- The loop at the end of `scheduler.join`. -/
def joinLoop (cfg : Config) (s : State) (c : CtxId) (t : CoId) (tid : Tid) (stack : List Frame) :
    State :=
  if 0 < (s.ctx c).joinCount then { s with stack }.resumed cfg c t tid true TS_BLOCKED_THREAD
  else
    { s.setCo t { s.co t with joining := false } with
      joins := s.joins.map fun call =>
        if call.joiner = c then { call with returned := true } else call }

def runNextFromRunQueue (cfg : Config) (s : State) : State :=
  match s.runQueueHead with
  | none => s
  | some c =>
    let s := { s with runQueueHead := (s.ctx c).nextThread }
    let s := if s.runQueueHead.isNone then { s with runQueueTail := none } else s
    let s := s.setCtx c { s.ctx c with nextThread := none }
    let s := { s with runQueueLen := s.runQueueLen - 1, queue := s.queue.erase c }
    let resumes : Bool := (s.ctx c).state ≠ TS_DONE
    let s := { s with dequeues := s.dequeues ++ [⟨c, c ∉ s.live, resumes⟩] }
    if resumes then s.resumeThread cfg c else s

/-- The rounds of the loop of `runReadyThreads`. -/
def runnableCount (s : State) (limit : Option Int) : Nat :=
  match limit with
  | none => s.runQueueLen
  | some limit => if limit < s.runQueueLen then limit.toNat else s.runQueueLen

end State

/-- What happens next: something the code that is being executed does. -/
inductive Event where
  | startUserThread
  | startSystemThread
  | resumeThreadId (tid : Tid)
  | runReadyThreads (limit : Option Int)
  | runNext
  | join (joined : List CtxId)
  | joinLoop
  | yield (state : Option Mark)
  | finish
  | fail

/-- The code that is being executed may call the scheduler. -/
def State.callable (s : State) : Bool :=
  match s.stack with
  | [] => true
  | .thread _ t _ :: _ => !(s.co t).joining
  | .ready _ :: _ => false

def step (cfg : Config) (s : State) : Event → Option State
  | .startUserThread => if s.callable then some s.startUserThread else none
  | .startSystemThread => if s.callable then some (s.startSystemThread cfg) else none
  | .resumeThreadId tid => if s.callable then some (s.resumeThreadId cfg tid) else none
  | .runReadyThreads limit =>
    if s.callable then some { s with stack := .ready (s.runnableCount limit) :: s.stack } else none
  | .runNext =>
    match s.stack with
    | .ready 0 :: stack => some { s with stack }
    | .ready (rounds + 1) :: stack =>
      some ({ s with stack := .ready rounds :: stack }.runNextFromRunQueue cfg)
    | _ => none
  | .join joined =>
    match s.stack with
    | .thread c t _ :: _ =>
      if s.callable ∧ ∀ c ∈ joined, c < s.nctx then some (s.join c t joined) else none
    | _ => none
  | .joinLoop =>
    match s.stack with
    | .thread c t tid :: stack =>
      if (s.co t).joining then some (s.joinLoop cfg c t tid stack) else none
    | _ => none
  | .yield state =>
    match s.stack with
    | .thread c t tid :: stack =>
      -- the marks of `threadRunLoop` are its own
      if s.callable ∧ state ≠ END_OF_CALL ∧ state ≠ END_OF_THREAD then
        some ({ s with stack }.resumed cfg c t tid true state)
      else none
    | _ => none
  | .finish =>
    match s.stack with
    | .thread c t tid :: stack =>
      if s.callable then
        let s := { s with stack, live := s.live.erase c }
        if (s.co t).calls ≤ cfg.timesReuseThread then
          some ((s.setCo t { s.co t with calls := (s.co t).calls + 1 }).resumed cfg c t tid true
            END_OF_CALL)
        else
          some ((s.setCo t { s.co t with dead := true }).resumed cfg c t tid true END_OF_THREAD)
      else none
    | _ => none
  | .fail =>
    match s.stack with
    | .thread c t tid :: stack =>
      if s.callable then
        some (({ s with stack, live := s.live.erase c }.setCo t
          { s.co t with dead := true }).resumed cfg c t tid false none)
      else none
    | _ => none

end Luaw.Scheduler
