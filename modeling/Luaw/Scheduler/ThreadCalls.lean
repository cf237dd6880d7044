import Luaw.Scheduler.ThreadIds

/-!
# The calls of the thread functions

`threadRunLoop` takes a function and its arguments from the first resume of its coroutine or, when
the coroutine comes from the pool, from the return of a yield. `userThreadRunner` stands between
the two for a user thread: it keeps the function and the arguments until the thread is resumed
again. `Threads` is the scheduler with the values that are handed over.
-/

namespace Luaw.Scheduler

/-- A Lua value, a function of a thread (`F`) or any other (`V`). -/
inductive Value (F V : Type) where
  | nil
  | userThreadRunner
  | fn (f : F)
  | data (v : V)

/-- Where a coroutine is: not resumed yet, at the yield of `threadRunLoop`, at the one of
`userThreadRunner`, in a thread function, or before a call of a value that is no function. -/
inductive Point (F V : Type) where
  | start
  | loop
  | runner (userThreadFn : Value F V) (args : List (Value F V))
  | inside
  | raising

/-- A call of a thread function in the coroutine of a context. -/
structure Call (F V : Type) where
  ctx : CtxId
  fn : F
  args : List (Value F V)

/-- A call of `startUserThread` or `startSystemThread`. -/
structure Start (F V : Type) where
  user : Bool
  fn : F
  args : List (Value F V)

section Coroutines

variable {F V : Type} (c : CtxId)

/-- The call of a value, up to where a thread function starts or `userThreadRunner` yields. -/
def call : Value F V → List (Value F V) → Point F V × List (Call F V)
  | .fn f, args => (.inside, [⟨c, f, args⟩])
  | .userThreadRunner, args => (.runner (args.headD .nil) args.tail, [])
  | _, _ => (.raising, [])

/-- The variables of `threadRunLoop` get these values, and `fn(arg1, arg2, arg3, arg4)`. -/
def threadRunLoop (vals : List (Value F V)) : Point F V × List (Call F V) :=
  let fn := vals.getD 0 .nil
  let arg1 := vals.getD 1 .nil
  let arg2 := vals.getD 2 .nil
  let arg3 := vals.getD 3 .nil
  let arg4 := vals.getD 4 .nil
  call c fn [arg1, arg2, arg3, arg4]

/-- `coroutine.resume` of a coroutine of `threadRunLoop`. -/
def Point.resume (vals : List (Value F V)) : Point F V → Point F V × List (Call F V)
  | .start | .loop => threadRunLoop c vals
  | .runner userThreadFn args => call c userThreadFn args
  | .inside => (.inside, [])
  | .raising => (.raising, [])

end Coroutines

/-- The scheduler with the points of its coroutines and the field `result` of its contexts. The
last four fields are read by no code. -/
structure Threads (F V : Type) where
  sched : State
  point : CoId → Point F V
  result : CtxId → Value F V
  started : CtxId → Option (Start F V)
  resumed : List CtxId
  calls : List (Call F V)
  returned : List (CtxId × Value F V)

/-- The events with the values that they pass. -/
inductive Action (F V : Type) where
  | startUserThread (userThreadFn : F) (args : List (Value F V))
  | startSystemThread (serviceFn : F) (args : List (Value F V))
  | resumeThreadId (tid : Tid) (vals : List (Value F V))
  | runReadyThreads (limit : Option Int)
  | runNext
  | join (joined : List CtxId)
  | joinLoop
  | yield (state : Option Mark) (retVal : Value F V)
  | finish (retVal : Value F V)
  | fail

def Action.event {F V : Type} : Action F V → Event
  | startUserThread _ _ => .startUserThread
  | startSystemThread _ _ => .startSystemThread
  | resumeThreadId tid _ => .resumeThreadId tid
  | runReadyThreads limit => .runReadyThreads limit
  | runNext => .runNext
  | join joined => .join joined
  | joinLoop => .joinLoop
  | yield state _ => .yield state
  | finish _ => .finish
  | fail => .fail

/-- What a coroutine that is being executed may do next: `userThreadRunner` yields `TS_RUNNABLE`,
and the call of a value that is no function fails. -/
def Point.allows {F V : Type} : Point F V → Action F V → Bool
  | .runner _ _, .yield state .nil => state = TS_RUNNABLE
  | .runner _ _, _ => false
  | .raising, .fail => true
  | .raising, _ => false
  | _, _ => true

namespace Threads

variable {F V : Type}

def init : Threads F V where
  sched := Scheduler.init
  point _ := .start
  result _ := .nil
  started _ := none
  resumed := []
  calls := []
  returned := []

/-- The coroutine runs in the context `c` until it calls a thread function or yields. -/
def enter (m : Threads F V) (c : CtxId) (t : CoId) (vals : List (Value F V)) : Threads F V :=
  { m with
    point := Function.update m.point t ((m.point t).resume c vals).1
    calls := m.calls ++ ((m.point t).resume c vals).2 }

/-- `afterResume` of a thread that has ended, unless releasing its id raises. -/
def setResult (m : Threads F V) (c : CtxId) (tid : Tid) (retVal : Value F V) : Threads F V :=
  if (m.sched.threadRegistry.unref tid).isSome then
    { m with result := Function.update m.result c retVal }
  else m

/-- `resumeThread` in the scheduler state `s`. -/
def resumeThread (m : Threads F V) (s : State) (c : CtxId) (vals : List (Value F V)) :
    Threads F V :=
  match (s.ctx c).thread with
  | none => m
  | some t =>
    if s.suspended t then { m.enter c t vals with resumed := c :: m.resumed }
    else m.setResult c (s.ctx c).tid .nil

/-- `newThread`: a coroutine that is not from the pool is created. -/
def newThread (m : Threads F V) (start : Start F V) : Threads F V :=
  { m with
    point := if m.sched.threadPool.isEmpty then Function.update m.point m.sched.nco .start
      else m.point
    started := Function.update m.started m.sched.newThread.1 (some start) }

/-- What becomes of the values when the running code does something. -/
def after (m : Threads F V) : Action F V → Threads F V
  | .startUserThread userThreadFn args =>
    let c := m.sched.newThread.1
    let s := m.sched.newThread.2
    let m := m.newThread ⟨true, userThreadFn, args⟩
    match (s.ctx c).thread with
    | some t =>
      if s.suspended t then m.enter c t (.userThreadRunner :: .fn userThreadFn :: args) else m
    | none => m
  | .startSystemThread serviceFn args =>
    let c := m.sched.newThread.1
    let s := m.sched.newThread.2
    (m.newThread ⟨false, serviceFn, args⟩).resumeThread s c (.fn serviceFn :: args)
  | .resumeThreadId tid vals =>
    match m.sched.threadRegistry.get tid with
    | some (.obj c) => m.resumeThread m.sched c vals
    | _ => m
  | .runNext =>
    match m.sched.stack, m.sched.runQueueHead with
    | .ready (_ + 1) :: _, some c =>
      if (m.sched.ctx c).state ≠ TS_DONE then m.resumeThread m.sched c [] else m
    | _, _ => m
  | .joinLoop =>
    match m.sched.stack with
    | .thread c _ _ :: _ =>
      if 0 < (m.sched.ctx c).joinCount then { m with result := Function.update m.result c .nil }
      else m
    | _ => m
  | .yield _ retVal =>
    match m.sched.stack with
    | .thread c _ _ :: _ => { m with result := Function.update m.result c retVal }
    | _ => m
  | .finish retVal =>
    match m.sched.stack with
    | .thread c t tid :: _ =>
      -- after its last call the coroutine is dead, wherever it is said to be
      { m.setResult c tid retVal with
        point := Function.update m.point t .loop
        returned := (c, retVal) :: m.returned }
    | _ => m
  | .fail =>
    match m.sched.stack with
    | .thread c _ tid :: _ => m.setResult c tid .nil
    | _ => m
  | .runReadyThreads _ | .join _ => m

def allows (m : Threads F V) (a : Action F V) : Bool :=
  match m.sched.stack with
  | .thread _ t _ :: _ => (m.point t).allows a
  | _ => true

/-- One step of the scheduler with the values. -/
def step (cfg : Config) (m : Threads F V) (a : Action F V) : Option (Threads F V) :=
  if m.allows a then (Scheduler.step cfg m.sched a.event).map fun sched => { m.after a with sched }
  else none

end Threads

section Arguments

variable {F V : Type}

/-- The arguments that a thread function gets: a coroutine passes on four values, the function
of a user thread being one of them. -/
def Start.arity (st : Start F V) : Nat := if st.user then 3 else 4

def Start.passed (st : Start F V) : List (Value F V) :=
  (List.range st.arity).map fun i => st.args.getD i .nil

@[simp] theorem Start.length_passed (st : Start F V) : st.passed.length = st.arity := by
  simp [passed]

/-- No more than the first arguments arrive, and missing ones are nil. -/
theorem Start.passed_eq (st : Start F V) :
    st.passed = st.args.take st.arity ++ .replicate (st.arity - st.args.length) .nil := by
  apply List.ext_getElem
  · simp
    omega
  · intro i hi hi'
    rw [length_passed] at hi
    simp only [passed, List.getElem_map, List.getElem_range, List.getElem_append,
      List.length_take, List.getElem_take, List.getElem_replicate]
    split
    · next hlt =>
      have hi' : i < st.args.length := by omega
      simp [List.getD_eq_getElem?_getD, hi']
    · next hge =>
      have hi' : st.args.length ≤ i := by omega
      simp [List.getD_eq_getElem?_getD, hi']

theorem Start.passed_eq_args {st : Start F V} : st.passed = st.args ↔ st.args.length = st.arity := by
  constructor
  · intro h
    rw [← h, length_passed]
  · intro h
    rw [passed_eq, List.take_of_length_le (by omega), h, Nat.sub_self, List.replicate_zero,
      List.append_nil]

end Arguments

section Tracking

variable {F V : Type}

namespace Threads

/-- The calls of thread functions in a context. -/
def callsOf (m : Threads F V) (c : CtxId) : List (Call F V) :=
  m.calls.filter fun call => call.ctx = c

/-- Where the threads are and what they have been called with: the coroutine of a thread that has
not been resumed keeps its function and its arguments, and every other thread is in its function,
or it has left it for good. -/
structure Tracks (m : Threads F V) : Prop where
  system : ∀ c st, m.started c = some st → st.user = false → c ∈ m.resumed
  calls : ∀ c st, m.started c = some st →
    m.callsOf c = if c ∈ m.resumed then [⟨c, st.fn, st.passed⟩] else []
  unmade : ∀ c, m.sched.nctx ≤ c → m.started c = none ∧ c ∉ m.resumed ∧ m.callsOf c = []
  pool : ∀ t ∈ m.sched.threadPool, m.point t = .loop
  waiting : ∀ c ∈ m.sched.live, c ∉ m.resumed → ∃ st t, m.started c = some st ∧
    (m.sched.ctx c).thread = some t ∧ m.point t = .runner (.fn st.fn) st.passed
  active : ∀ c ∈ m.sched.live, c ∈ m.resumed → ∃ t, (m.sched.ctx c).thread = some t ∧
    m.point t = .inside
  running : ∀ c ∈ m.sched.resumes.map Prod.fst, c ∈ m.resumed
  returned : ∀ c r, (c, r) ∈ m.returned → c < m.sched.nctx ∧ c ∉ m.sched.live ∧ m.result c = r

end Threads

/-- What a context and a coroutine taken for it leave as it was. -/
structure State.TakesThread (s s' : State) (t : CoId) : Prop where
  nctx : s'.nctx = s.nctx + 1
  live : s'.live = s.live ++ [s.nctx]
  thread : (s'.ctx s.nctx).thread = some t
  others : ∀ d, d ≠ s.nctx → (s'.ctx d).thread = (s.ctx d).thread
  pool : ∀ t' ∈ s'.threadPool, t' ∈ s.threadPool
  taken : s.threadPool = [] ∧ t = s.nco ∨ t ∈ s.threadPool

theorem State.newThread_takes (s : State) : ∃ t, State.TakesThread s s.newThread.2 t := by
  have hother (s : State) {x : ThreadCtx} {d : CtxId} (hd : d ≠ s.nctx) :
      ((s.setCtx s.nctx x).ctx d).thread = (s.ctx d).thread := by
    rw [setCtx_ne s s.nctx d x hd]
  have hself (s : State) {x : ThreadCtx} : ((s.setCtx s.nctx x).ctx s.nctx).thread = x.thread := by
    rw [setCtx_self]
  rw [newThread]
  cases hpool : s.threadPool with
  | nil =>
    refine ⟨s.nco, rfl, rfl, ?_, ?_, fun t' ht' => ht', .inl ⟨hpool, rfl⟩⟩
    · exact hself _
    · intro d hd
      exact hother { s.setCo s.nco ⟨0, false, false⟩ with nco := s.nco + 1 } hd
  | cons t threadPool =>
    have hmem : ∀ t' ∈ t :: threadPool, t' ∈ s.threadPool := fun t' ht' => hpool ▸ ht'
    refine ⟨t, rfl, rfl, ?_, ?_, fun t' ht' => hmem t' (List.mem_cons_of_mem t ht'),
      .inr (hmem t List.mem_cons_self)⟩
    · exact hself _
    · intro d hd
      exact hother { s with threadPool } hd

theorem State.TakesThread.same {s s₁ s' : State} {t : CoId} (h : s.TakesThread s₁ t)
    (hs : State.SameThreads s₁ s') : s.TakesThread s' t where
  nctx := hs.nctx.trans h.nctx
  live := hs.live.trans h.live
  thread := (hs.thread s.nctx).trans h.thread
  others d hd := (hs.thread d).trans (h.others d hd)
  pool t' ht' := h.pool t' (hs.pool ▸ ht')
  taken := h.taken

/-- What the end of the thread that runs leaves as it was. -/
structure State.Leaves (s s' : State) (c : CtxId) (t : CoId) (offered : Option CoId) : Prop where
  nctx : s'.nctx = s.nctx
  live : s'.live = s.live.erase c
  others : ∀ d, d ≠ c → (s'.ctx d).thread = (s.ctx d).thread
  pool : ∀ t' ∈ s'.threadPool, t' ∈ s.threadPool ∨ offered = some t'
  resumes : ∃ tid, s.resumes = (c, t, tid) :: s'.resumes

theorem State.Owned.leaves (cfg : Config) {s : State} (hwf : s.Wf) (h : s.Owned) {c : CtxId}
    {t : CoId} {tid : Tid} {stack : List Frame} (hstack : s.stack = .thread c t tid :: stack)
    {y : Coroutine} (hy : y.joining = false) (offered : Option CoId) :
    State.Leaves s (({ s with stack, live := s.live.erase c, context := none }.setCo t y).ended cfg
      c tid offered) c t offered := by
  obtain ⟨reg, hunref, -⟩ := h.released hwf hstack y
  have hwf' := (hwf.erase (c := c) hstack).setCo (t := t) hy
  rw [hwf'.ended_eq cfg hunref]
  -- the release and what follows it write to the context of the thread that leaves only
  have hctx : ∀ s₁ : State, s₁.ctx = s.ctx → ∀ d, d ≠ c →
      ((((s₁.release c reg).offer cfg offered).afterResume c none).ctx d).thread =
        (s.ctx d).thread := by
    intro s₁ hs₁ d hd
    have hrelease : ((s₁.release c reg).ctx d).thread = (s.ctx d).thread := by
      show ((s₁.setCtx c _).ctx d).thread = _
      rw [setCtx_ne s₁ c d _ hd, hs₁]
    have hoffer : ((s₁.release c reg).offer cfg offered).ctx = (s₁.release c reg).ctx := by
      cases offered with
      | none => rfl
      | some t' =>
        rw [State.offer]
        split <;> rfl
    show ((((s₁.release c reg).offer cfg offered).setCtx c _).ctx d).thread = _
    rw [setCtx_ne _ c d _ hd, hoffer, hrelease]
  have hresumes : s.resumes = (c, t, tid) :: { s with stack }.resumes := by
    simp only [resumes, hstack, List.filterMap_cons]
  cases offered with
  | none => exact ⟨rfl, rfl, hctx _ rfl, fun t' ht' => .inl ht', tid, hresumes⟩
  | some t' =>
    have hothers := hctx ({ s with stack, live := s.live.erase c, context := none }.setCo t y) rfl
    rw [State.offer] at hothers ⊢
    split at hothers
    · next hroom =>
      rw [if_pos hroom]
      refine ⟨rfl, rfl, hothers, fun t'' ht'' => ?_, tid, hresumes⟩
      obtain ht'' | ht'' := List.mem_append.mp ht''
      · exact .inl ht''
      · exact .inr (congrArg some (List.mem_singleton.mp ht'').symm)
    · next hfull =>
      rw [if_neg hfull]
      exact ⟨rfl, rfl, hothers, fun t'' ht'' => .inl ht'', tid, hresumes⟩

namespace Threads

namespace Tracks

variable {m : Threads F V} {s' : State} {c : CtxId} {t : CoId} {tid : Tid}

theorem init : (Threads.init : Threads F V).Tracks where
  system := nofun
  calls := nofun
  unmade _ _ := ⟨rfl, List.not_mem_nil, rfl⟩
  pool := nofun
  waiting := nofun
  active := nofun
  running := nofun
  returned := nofun

/-- The scheduler did nothing to its threads. -/
theorem same (h : m.Tracks) (hs : State.SameThreads m.sched s') :
    { m with sched := s' }.Tracks where
  system := h.system
  calls := h.calls
  unmade c hc := h.unmade c (hs.nctx ▸ hc)
  pool t ht := h.pool t (hs.pool ▸ ht)
  waiting c hc hout := by
    obtain ⟨st, t, hst, ht, hpoint⟩ := h.waiting c (hs.live ▸ hc) hout
    exact ⟨st, t, hst, (hs.thread c).trans ht, hpoint⟩
  active c hc hin := by
    obtain ⟨t, ht, hpoint⟩ := h.active c (hs.live ▸ hc) hin
    exact ⟨t, (hs.thread c).trans ht, hpoint⟩
  running c hc := h.running c ((hs.resumes.map Prod.fst).subset hc)
  returned c r hc := by
    obtain ⟨hlt, hlive, hresult⟩ := h.returned c r hc
    exact ⟨hs.nctx ▸ hlt, hs.live ▸ hlive, hresult⟩

/-- A thread that goes on gets a result. -/
theorem setLive (h : m.Tracks) (hc : c ∈ m.sched.live) (r : Value F V) :
    { m with result := Function.update m.result c r }.Tracks :=
  { h with
    returned := fun d r' hd => by
      obtain ⟨hlt, hlive, hresult⟩ := h.returned d r' hd
      refine ⟨hlt, hlive, ?_⟩
      show Function.update m.result c r d = r'
      rw [Function.update_of_ne (ne_of_mem_of_not_mem hc hlive).symm]
      exact hresult }

/-- The calls that a resume makes are made in the context that is resumed. -/
theorem ctx_resume (c : CtxId) (vals : List (Value F V)) (p : Point F V) :
    ∀ k ∈ (p.resume c vals).2, k.ctx = c := by
  have hcall : ∀ (fn : Value F V) (args : List (Value F V)), ∀ k ∈ (call c fn args).2,
      k.ctx = c := by
    intro fn args
    cases fn <;> simp [Scheduler.call]
  cases p with
  | start => exact hcall _ _
  | loop => exact hcall _ _
  | runner fn args => exact hcall _ _
  | inside => exact nofun
  | raising => exact nofun

theorem callsOf_enter_ne (m : Threads F V) (t : CoId) (vals : List (Value F V)) {d : CtxId}
    (h : d ≠ c) : (m.enter c t vals).callsOf d = m.callsOf d := by
  have hnone : ((m.point t).resume c vals).2.filter (fun call => call.ctx = d) = [] := by
    rw [List.filter_eq_nil_iff]
    intro k hk
    rw [ctx_resume c vals _ k hk]
    simpa using h.symm
  rw [enter, callsOf, callsOf, List.filter_append, hnone, List.append_nil]

theorem callsOf_enter_self (m : Threads F V) (t : CoId) (vals : List (Value F V)) :
    (m.enter c t vals).callsOf c = m.callsOf c ++ ((m.point t).resume c vals).2 := by
  have hall : ((m.point t).resume c vals).2.filter (fun call => call.ctx = c) =
      ((m.point t).resume c vals).2 := by
    rw [List.filter_eq_self]
    intro k hk
    simpa using ctx_resume c vals _ k hk
  rw [enter, callsOf, List.filter_append, hall, callsOf]

theorem point_enter_ne (m : Threads F V) (vals : List (Value F V)) {t' : CoId} (h : t' ≠ t) :
    (m.enter c t vals).point t' = m.point t' := Function.update_of_ne h ..

theorem point_enter_self (m : Threads F V) (vals : List (Value F V)) :
    (m.enter c t vals).point t = ((m.point t).resume c vals).1 := Function.update_self ..

/-- The coroutine of a new thread waits for a function and arguments. -/
theorem point_newThread (h : m.Tracks) (hs : m.sched.TakesThread s' t) (st : Start F V)
    (vals : List (Value F V)) :
    ((m.newThread st).point t).resume m.sched.nctx vals = threadRunLoop m.sched.nctx vals ∧
      ∀ t', t' ≠ t → (m.newThread st).point t' = m.point t' := by
  obtain ⟨hpool, rfl⟩ | hmem := hs.taken
  · have hpoint : (m.newThread st).point = Function.update m.point m.sched.nco .start := by
      simp [newThread, hpool]
    rw [hpoint, Function.update_self]
    exact ⟨rfl, fun t' ht' => Function.update_of_ne ht' ..⟩
  · have hpoint : (m.newThread st).point = m.point := by
      have hne : m.sched.threadPool.isEmpty = false := by
        simpa using List.ne_nil_of_mem hmem
      simp [newThread, hne]
    rw [hpoint, h.pool t hmem]
    exact ⟨rfl, fun _ _ => rfl⟩

theorem started_newThread (m : Threads F V) (st : Start F V) :
    (m.newThread st).started = Function.update m.started m.sched.nctx (some st) := by
  rw [newThread, State.Wf.newThread_fst]

/-- A new thread is in its function, or waits for it to be called with the arguments it has. -/
theorem enterNew (h : m.Tracks) (hwf : m.sched.Wf) (hs : m.sched.TakesThread s' t)
    (hs' : s'.Owned) (st : Start F V) (vals : List (Value F V)) (res : List CtxId)
    (hres : ∀ d, d ≠ m.sched.nctx → (d ∈ res ↔ d ∈ m.resumed))
    (hresumes : ∀ d ∈ s'.resumes.map Prod.fst, d ∈ res)
    (hcall : threadRunLoop m.sched.nctx vals =
      if m.sched.nctx ∈ res then (.inside, [⟨m.sched.nctx, st.fn, st.passed⟩])
      else (.runner (.fn st.fn) st.passed, []))
    (huser : m.sched.nctx ∈ res ∨ st.user = true) :
    { (m.newThread st).enter m.sched.nctx t vals with sched := s', resumed := res }.Tracks := by
  obtain ⟨hresume, hpoints⟩ := h.point_newThread hs st vals
  have hold : ∀ d ∈ m.sched.live, d ≠ m.sched.nctx := fun d hd => (hwf.live d hd).ne
  have hnew : m.sched.nctx ∈ s'.live := by
    rw [hs.live]
    exact List.mem_append_right _ List.mem_cons_self
  have hout : t ∉ s'.threadPool := by
    obtain ⟨t', ht', -, -, hout⟩ := hs'.thread _ hnew
    cases hs.thread.symm.trans ht'
    exact hout
  -- the coroutines of the other threads are where they were
  have hother : ∀ d ∈ m.sched.live, ∀ t', (m.sched.ctx d).thread = some t' →
      (s'.ctx d).thread = some t' ∧
        ((m.newThread st).enter m.sched.nctx t vals).point t' = m.point t' := by
    intro d hd t' ht'
    have hthread := (hs.others d (hold d hd)).trans ht'
    refine ⟨hthread, ?_⟩
    have hne : t' ≠ t := by
      rintro rfl
      have hd' : d ∈ s'.live := hs.live ▸ List.mem_append_left _ hd
      exact hold d hd (hs'.distinct d hd' _ hnew (hthread.trans hs.thread.symm))
    rw [point_enter_ne _ vals hne, hpoints t' hne]
  have hself : ((m.newThread st).enter m.sched.nctx t vals).point t =
      (threadRunLoop m.sched.nctx vals).1 := by
    rw [point_enter_self, hresume]
  have hmem : ∀ d ∈ s'.live, d ∈ m.sched.live ∨ d = m.sched.nctx := by
    intro d hd
    rw [hs.live] at hd
    simpa using hd
  have hstarted := started_newThread m st
  constructor
  · intro d st' hst' huser'
    change (m.newThread st).started d = some st' at hst'
    by_cases hd : d = m.sched.nctx
    · rw [hd] at hst' ⊢
      rw [hstarted, Function.update_self] at hst'
      cases hst'
      exact huser.resolve_right (by simp [huser'])
    · rw [hstarted, Function.update_of_ne hd] at hst'
      exact (hres d hd).mpr (h.system d st' hst' huser')
  · intro d st' hst'
    change (m.newThread st).started d = some st' at hst'
    show ((m.newThread st).enter m.sched.nctx t vals).callsOf d = if d ∈ res then _ else _
    by_cases hd : d = m.sched.nctx
    · rw [hd] at hst' ⊢
      rw [hstarted, Function.update_self] at hst'
      cases hst'
      have hnone : (m.newThread st).callsOf m.sched.nctx = [] := (h.unmade _ le_rfl).2.2
      rw [callsOf_enter_self, hresume, hcall, hnone]
      split <;> rfl
    · rw [hstarted, Function.update_of_ne hd] at hst'
      rw [callsOf_enter_ne _ t vals hd, if_congr (hres d hd) rfl rfl]
      exact h.calls d st' hst'
  · intro d hd
    change s'.nctx ≤ d at hd
    rw [hs.nctx] at hd
    have hne : d ≠ m.sched.nctx := by omega
    obtain ⟨hnone, hres', hcalls⟩ := h.unmade d (by omega)
    refine ⟨?_, fun hmem => hres' ((hres d hne).mp hmem), ?_⟩
    · show (m.newThread st).started d = none
      rw [hstarted, Function.update_of_ne hne]
      exact hnone
    · show ((m.newThread st).enter m.sched.nctx t vals).callsOf d = []
      rw [callsOf_enter_ne _ t vals hne]
      exact hcalls
  · intro t' ht'
    have hne : t' ≠ t := ne_of_mem_of_not_mem ht' hout
    show ((m.newThread st).enter m.sched.nctx t vals).point t' = .loop
    rw [point_enter_ne _ vals hne, hpoints t' hne]
    exact h.pool t' (hs.pool t' ht')
  · intro d hd hdres
    show ∃ st' t', (m.newThread st).started d = some st' ∧ _
    obtain hlive | rfl := hmem d hd
    · have hne := hold d hlive
      obtain ⟨st', t', hst', ht', hpoint⟩ :=
        h.waiting d hlive fun hin => hdres ((hres d hne).mpr hin)
      obtain ⟨hthread, hsame⟩ := hother d hlive t' ht'
      refine ⟨st', t', ?_, hthread, hsame.trans hpoint⟩
      rw [hstarted, Function.update_of_ne hne]
      exact hst'
    · refine ⟨st, t, ?_, hs.thread, ?_⟩
      · rw [hstarted, Function.update_self]
      · change m.sched.nctx ∉ res at hdres
        refine hself.trans ?_
        rw [hcall, if_neg hdres]
  · intro d hd hdres
    obtain hlive | rfl := hmem d hd
    · obtain ⟨t', ht', hpoint⟩ := h.active d hlive ((hres d (hold d hlive)).mp hdres)
      obtain ⟨hthread, hsame⟩ := hother d hlive t' ht'
      exact ⟨t', hthread, hsame.trans hpoint⟩
    · change m.sched.nctx ∈ res at hdres
      refine ⟨t, hs.thread, hself.trans ?_⟩
      rw [hcall, if_pos hdres]
  · exact hresumes
  · intro d r hd
    obtain ⟨hlt, hlive, hresult⟩ := h.returned d r hd
    refine ⟨?_, fun hd' => ?_, hresult⟩
    · show d < s'.nctx
      rw [hs.nctx]
      exact Nat.lt_succ_of_lt hlt
    · obtain hd' | rfl := hmem d hd'
      · exact hlive hd'
      · exact lt_irrefl _ hlt

/-- A thread that is resumed for the first time is called, and any other goes on. -/
theorem enterLive (h : m.Tracks) (hwf : m.sched.Wf) (ho : m.sched.Owned) (hc : c ∈ m.sched.live)
    (hthread : (m.sched.ctx c).thread = some t) (vals : List (Value F V))
    {running : Option (Registry.Value CtxId)} {context : Option CtxId} :
    { m.enter c t vals with
      resumed := c :: m.resumed
      sched := { m.sched with
        currentRunningThreadCtx := running
        context := context
        stack := .thread c t tid :: m.sched.stack } }.Tracks := by
  have hres : ∀ d, d ≠ c → (d ∈ c :: m.resumed ↔ d ∈ m.resumed) := by
    intro d hd
    simp [hd]
  -- the coroutine of a thread that has not been resumed is in `userThreadRunner`
  have hresume : ((m.point t).resume c vals).1 = .inside ∧ ∀ st, m.started c = some st →
      m.callsOf c ++ ((m.point t).resume c vals).2 = [⟨c, st.fn, st.passed⟩] := by
    by_cases hin : c ∈ m.resumed
    · obtain ⟨t', ht', hpoint⟩ := h.active c hc hin
      cases hthread.symm.trans ht'
      rw [hpoint]
      refine ⟨rfl, fun st hst => ?_⟩
      rw [h.calls c st hst, if_pos hin]
      rfl
    · obtain ⟨st, t', hst, ht', hpoint⟩ := h.waiting c hc hin
      cases hthread.symm.trans ht'
      rw [hpoint]
      refine ⟨rfl, fun st' hst' => ?_⟩
      cases hst.symm.trans hst'
      rw [h.calls c st hst, if_neg hin]
      rfl
  have hother : ∀ d ∈ m.sched.live, d ≠ c → ∀ t', (m.sched.ctx d).thread = some t' →
      (m.enter c t vals).point t' = m.point t' := by
    intro d hd hne t' ht'
    refine point_enter_ne m vals ?_
    rintro rfl
    exact hne (ho.distinct d hd c hc (ht'.trans hthread.symm))
  constructor
  · exact fun d st hst huser => List.mem_cons_of_mem c (h.system d st hst huser)
  · intro d st hst
    show (m.enter c t vals).callsOf d = if d ∈ c :: m.resumed then _ else _
    by_cases hd : d = c
    · subst hd
      rw [callsOf_enter_self, if_pos List.mem_cons_self]
      exact hresume.2 st hst
    · rw [callsOf_enter_ne m t vals hd, if_congr (hres d hd) rfl rfl]
      exact h.calls d st hst
  · intro d hd
    have hne : d ≠ c := (lt_of_lt_of_le (hwf.live c hc) hd).ne'
    obtain ⟨hnone, hout, hcalls⟩ := h.unmade d hd
    exact ⟨hnone, fun hin => hout ((hres d hne).mp hin), (callsOf_enter_ne m t vals hne).trans hcalls⟩
  · intro t' ht'
    have hne : t' ≠ t := by
      obtain ⟨t'', ht'', -, -, hout⟩ := ho.thread c hc
      cases hthread.symm.trans ht''
      exact ne_of_mem_of_not_mem ht' hout
    exact (point_enter_ne m vals hne).trans (h.pool t' ht')
  · intro d hd hdres
    have hne : d ≠ c := fun heq => hdres (heq ▸ List.mem_cons_self)
    obtain ⟨st, t', hst, ht', hpoint⟩ := h.waiting d hd fun hin => hdres ((hres d hne).mpr hin)
    exact ⟨st, t', hst, ht', (hother d hd hne t' ht').trans hpoint⟩
  · intro d hd hdres
    by_cases hne : d = c
    · subst hne
      exact ⟨t, hthread, (point_enter_self m vals).trans hresume.1⟩
    · obtain ⟨t', ht', hpoint⟩ := h.active d hd ((hres d hne).mp hdres)
      exact ⟨t', ht', (hother d hd hne t' ht').trans hpoint⟩
  · intro d hd
    obtain rfl | hd := List.mem_cons.mp hd
    · exact List.mem_cons_self
    · exact List.mem_cons_of_mem c (h.running d hd)
  · exact h.returned

/-- The thread that runs has ended. -/
theorem leave (h : m.Tracks) (hwf : m.sched.Wf) (ho : m.sched.Owned) {offered : Option CoId}
    (hs : m.sched.Leaves s' c t offered) {point : CoId → Point F V}
    (hpoint : ∀ t', t' ≠ t → point t' = m.point t')
    (hoffered : ∀ t', offered = some t' → t' = t ∧ point t = .loop) (r : Value F V)
    {returned : List (CtxId × Value F V)}
    (hreturned : ∀ d r', (d, r') ∈ returned → (d, r') ∈ m.returned ∨ d = c ∧ r' = r) :
    { m with
      sched := s'
      point := point
      result := Function.update m.result c r
      returned := returned }.Tracks := by
  obtain ⟨tid, hresumes⟩ := hs.resumes
  obtain ⟨hc, hthread, -⟩ := ho.resumed c t tid (hresumes ▸ List.mem_cons_self)
  have hmem : ∀ d ∈ s'.live, d ∈ m.sched.live ∧ d ≠ c := by
    intro d hd
    rw [hs.live] at hd
    exact ⟨List.mem_of_mem_erase hd, ne_of_mem_of_not_mem hd ho.nodup.not_mem_erase⟩
  have hother : ∀ d ∈ s'.live, ∀ t', (m.sched.ctx d).thread = some t' →
      (s'.ctx d).thread = some t' ∧ point t' = m.point t' := by
    intro d hd t' ht'
    obtain ⟨hlive, hne⟩ := hmem d hd
    refine ⟨(hs.others d hne).trans ht', hpoint t' ?_⟩
    rintro rfl
    exact hne (ho.distinct d hlive c hc (ht'.trans hthread.symm))
  constructor
  · exact h.system
  · exact h.calls
  · intro d hd
    change s'.nctx ≤ d at hd
    exact h.unmade d (hs.nctx ▸ hd)
  · intro t' ht'
    -- a coroutine of the pool was there before, or is the one that is offered now
    obtain ⟨t'', ht'', -, -, hout⟩ := ho.thread c hc
    cases hthread.symm.trans ht''
    obtain hin | hin := hs.pool t' ht'
    · exact (hpoint t' (ne_of_mem_of_not_mem hin hout)).trans (h.pool t' hin)
    · obtain ⟨rfl, hloop⟩ := hoffered t' hin
      exact hloop
  · intro d hd hdres
    obtain ⟨st, t', hst, ht', hrunner⟩ := h.waiting d (hmem d hd).1 hdres
    obtain ⟨hthread', hsame⟩ := hother d hd t' ht'
    exact ⟨st, t', hst, hthread', hsame.trans hrunner⟩
  · intro d hd hdres
    obtain ⟨t', ht', hinside⟩ := h.active d (hmem d hd).1 hdres
    obtain ⟨hthread', hsame⟩ := hother d hd t' ht'
    exact ⟨t', hthread', hsame.trans hinside⟩
  · intro d hd
    refine h.running d ?_
    rw [hresumes]
    exact List.mem_cons_of_mem c hd
  · intro d r' hd
    show d < s'.nctx ∧ d ∉ s'.live ∧ Function.update m.result c r d = r'
    -- a context that has returned before is not written to again
    obtain hd | ⟨rfl, rfl⟩ := hreturned d r' hd
    · obtain ⟨hlt, hlive, hresult⟩ := h.returned d r' hd
      rw [hs.nctx, Function.update_of_ne (ne_of_mem_of_not_mem hc hlive).symm]
      exact ⟨hlt, fun hd' => hlive (hmem d hd').1, hresult⟩
    · rw [hs.nctx, Function.update_self]
      exact ⟨hwf.live d hc, fun hd' => (hmem d hd').2 rfl, rfl⟩

theorem setResult_eq (hwf : m.sched.Wf) (ho : m.sched.Owned) {stack : List Frame}
    (hstack : m.sched.stack = .thread c t tid :: stack) (r : Value F V) :
    m.setResult c tid r = { m with result := Function.update m.result c r } := by
  obtain ⟨reg, hunref, -⟩ := ho.released hwf hstack (m.sched.co t)
  rw [setResult, hunref]
  rfl

/-- A resume of a thread that waits for one. -/
theorem resumeThread_eq (m : Threads F V) {s : State} (ho : s.Owned) (hc : c ∈ s.live)
    (hout : c ∉ s.resumes.map Prod.fst) (hthread : (s.ctx c).thread = some t)
    (vals : List (Value F V)) :
    m.resumeThread s c vals = { m.enter c t vals with resumed := c :: m.resumed } := by
  simp only [Threads.resumeThread, hthread]
  exact if_pos (ho.suspended hc hthread hout)

/-- The coroutine of a new user thread is resumed once, by `startUserThread` itself. -/
theorem after_startUserThread (m : Threads F V) (hwf : m.sched.Wf) (ho : m.sched.Owned) (f : F)
    (args : List (Value F V)) :
    ∃ t, m.sched.TakesThread m.sched.newThread.2 t ∧ m.after (.startUserThread f args) =
      (m.newThread ⟨true, f, args⟩).enter m.sched.nctx t (.userThreadRunner :: .fn f :: args) := by
  obtain ⟨t, htakes⟩ := m.sched.newThread_takes
  have hfst := State.Wf.newThread_fst m.sched
  obtain ⟨hlive, hout⟩ := ho.newThread_mem hwf
  refine ⟨t, htakes, ?_⟩
  rw [hfst] at hlive hout
  simp only [Threads.after, hfst, htakes.thread]
  exact if_pos ((ho.newThread hwf).suspended hlive htakes.thread hout)

theorem after_startSystemThread (m : Threads F V) (hwf : m.sched.Wf) (ho : m.sched.Owned) (f : F)
    (args : List (Value F V)) :
    ∃ t, m.sched.TakesThread m.sched.newThread.2 t ∧ m.after (.startSystemThread f args) =
      { (m.newThread ⟨false, f, args⟩).enter m.sched.nctx t (.fn f :: args) with
        resumed := m.sched.nctx :: m.resumed } := by
  obtain ⟨t, htakes⟩ := m.sched.newThread_takes
  have hfst := State.Wf.newThread_fst m.sched
  obtain ⟨hlive, hout⟩ := ho.newThread_mem hwf
  refine ⟨t, htakes, ?_⟩
  rw [← hfst]
  exact resumeThread_eq _ (ho.newThread hwf) hlive hout (hfst ▸ htakes.thread) _

theorem startUserThread (h : m.Tracks) (hwf : m.sched.Wf) (ho : m.sched.Owned)
    (ho' : m.sched.startUserThread.Owned) (f : F) (args : List (Value F V)) :
    { m.after (.startUserThread f args) with sched := m.sched.startUserThread }.Tracks := by
  obtain ⟨t, htakes, hafter⟩ := after_startUserThread m hwf ho f args
  have hnew : m.sched.nctx ∉ m.resumed := (h.unmade _ le_rfl).2.1
  have hsame : State.SameThreads m.sched.newThread.2 m.sched.startUserThread :=
    State.SameThreads.addToRunQueue _ _
  rw [hafter]
  refine h.enterNew hwf (htakes.same hsame) ho' ⟨true, f, args⟩ _ m.resumed
    (fun _ _ => Iff.rfl) (fun d hd => ?_) ?_ (.inr rfl)
  · have hd' := (hsame.resumes.map Prod.fst).subset hd
    rw [State.resumes, State.newThread_stack] at hd'
    exact h.running d hd'
  · rw [if_neg hnew]
    rfl

theorem startSystemThread {cfg : Config} (h : m.Tracks) (hwf : m.sched.Wf) (ho : m.sched.Owned)
    (ho' : (m.sched.startSystemThread cfg).Owned) (f : F) (args : List (Value F V)) :
    { m.after (.startSystemThread f args) with
      sched := m.sched.startSystemThread cfg }.Tracks := by
  obtain ⟨t, htakes, hafter⟩ := after_startSystemThread m hwf ho f args
  have hfst := State.Wf.newThread_fst m.sched
  obtain ⟨hlive, hout⟩ := ho.newThread_mem hwf
  have hset := State.SameThreads.setCtx m.sched.newThread.2 m.sched.newThread.1
    (x := { m.sched.newThread.2.ctx m.sched.newThread.1 with state := TS_RUNNABLE }) rfl rfl
  obtain ⟨t', ht', hresume⟩ := ((ho.newThread hwf).same hset).resumeThread_eq cfg hlive hout
  have hthread := (htakes.same hset).thread
  rw [← hfst] at hthread
  cases hthread.symm.trans ht'
  have hstart : m.sched.startSystemThread cfg = _ := hresume
  rw [hafter]
  have htakes' : m.sched.TakesThread (m.sched.startSystemThread cfg) t := by
    rw [hstart]
    exact { htakes.same hset with }
  refine h.enterNew hwf htakes' ho' ⟨false, f, args⟩ _ (m.sched.nctx :: m.resumed)
    (fun d hd => by simp [hd]) (fun d hd => ?_) ?_ (.inl List.mem_cons_self)
  · rw [hstart] at hd
    obtain rfl | hd := List.mem_cons.mp hd
    · rw [hfst]
      exact List.mem_cons_self
    · have hd' := (hset.resumes.map Prod.fst).subset hd
      rw [State.resumes, State.newThread_stack] at hd'
      exact List.mem_cons_of_mem _ (h.running d hd')
  · rw [if_pos List.mem_cons_self]
    rfl

/-- No thread of the run queue is resumed. -/
theorem after_runNext (hwf : m.sched.Wf) : m.after .runNext = m := by
  rw [Threads.after]
  split
  · next c _ _ =>
    have hstate := hwf.state c
    simp [hstate, TS_DONE_eq]
  · rfl

/-- Every step of the scheduler that resumes no thread in progress. -/
theorem after {cfg : Config} {m' : Threads F V} {a : Action F V} (h : m.Tracks)
    (hwf : m.sched.Wf) (ho : m.sched.Owned) (ha : State.ResumesWaiting m.sched a.event)
    (hstep : m.step cfg a = some m') : m'.Tracks := by
  obtain ⟨-, hstep⟩ := Option.ite_none_right_eq_some.mp hstep
  obtain ⟨s', hs', rfl⟩ := Option.map_eq_some_iff.mp hstep
  have ho' := ho.after hwf ha hs'
  have hsteps := hwf.steps hs'
  cases a with
  | startUserThread f args =>
    cases hsteps with
    | startUserThread => exact h.startUserThread hwf ho ho' f args
    | endOfThread he => cases he <;> contradiction
  | startSystemThread f args =>
    cases hsteps with
    | startSystemThread => exact h.startSystemThread hwf ho ho' f args
    | endOfThread he => cases he <;> contradiction
  | resumeThreadId tid vals =>
    cases hsteps with
    | resumeThreadId =>
      rw [Threads.after, State.resumeThreadId]
      cases hget : m.sched.threadRegistry.get tid with
      | none => exact h
      | some value =>
        cases value with
        | num n => exact h.same { State.SameThreads.refl m.sched with }
        | obj c =>
          have hc := ho.live_of_get hget
          have hout := ha tid c rfl hget
          obtain ⟨t, hthread, heq⟩ := ho.resumeThread_eq cfg hc hout
          dsimp only
          rw [heq, resumeThread_eq m ho hc hout hthread]
          exact h.enterLive hwf ho hc hthread vals
    | endOfThread he => cases he <;> contradiction
  | runReadyThreads limit =>
    cases hsteps with
    | runReadyThreads => exact h.same { State.SameThreads.refl m.sched with }
    | endOfThread he => cases he <;> contradiction
  | runNext =>
    rw [after_runNext hwf]
    cases hsteps with
    | returned hstack =>
      exact h.same (State.SameThreads.pop (hstack ▸ List.sublist_cons_self _ _))
    | @runNext rounds stack hstack =>
      have hpop : State.SameThreads m.sched { m.sched with stack } :=
        State.SameThreads.pop (hstack ▸ List.sublist_cons_self _ _)
      have hready : State.SameThreads m.sched { m.sched with stack := .ready rounds :: stack } :=
        { hpop with }
      exact h.same (hready.trans (State.SameThreads.runNext cfg (hwf.ready hstack rounds)))
    | endOfThread he => cases he <;> contradiction
  | join joined =>
    cases hsteps with
    | join => exact h.same { State.SameThreads.refl m.sched with }
    | endOfThread he => cases he <;> contradiction
  | joinLoop =>
    cases hsteps with
    | endOfThread he => cases he <;> contradiction
  | yield state retVal =>
    -- the value that is yielded becomes the result of the context, which still exists
    have hlive {c : CtxId} {t : CoId} {tid : Tid} {stack : List Frame}
        (hstack : m.sched.stack = .thread c t tid :: stack) :
        { m.after (.yield state retVal) with sched := m.sched }.Tracks := by
      have hc := (ho.running hstack).1
      rw [Threads.after, hstack]
      exact h.setLive hc retVal
    cases hsteps with
    | @blocked c t tid stack hstack =>
      have hpop : State.SameThreads m.sched { m.sched with stack } :=
        State.SameThreads.pop (hstack ▸ List.sublist_cons_self _ _)
      have hcontext : State.SameThreads m.sched { m.sched with stack, context := none } :=
        { hpop with }
      exact (hlive hstack).same (hcontext.trans (State.SameThreads.afterResume _ _ none))
    | @runnable c t tid stack m' hstack =>
      have hpop : State.SameThreads m.sched { m.sched with stack } :=
        State.SameThreads.pop (hstack ▸ List.sublist_cons_self _ _)
      have hcontext : State.SameThreads m.sched { m.sched with stack, context := none } :=
        { hpop with }
      exact (hlive hstack).same ((hcontext.trans (State.SameThreads.addToRunQueue _ _)).trans
        (State.SameThreads.afterResume _ _ none))
    | endOfThread he => cases he <;> contradiction
  | finish retVal =>
    -- whether the coroutine goes on or ends, its context is released
    have hafter {c : CtxId} {t : CoId} {tid : Tid} {stack : List Frame}
        (hstack : m.sched.stack = .thread c t tid :: stack) {offered : Option CoId}
        (hs : m.sched.Leaves s' c t offered) (hoffered : ∀ t', offered = some t' → t' = t) :
        { m.after (.finish retVal) with sched := s' }.Tracks := by
      rw [Threads.after, hstack]
      dsimp only
      rw [setResult_eq hwf ho hstack]
      refine h.leave hwf ho hs (fun t' ht' => Function.update_of_ne ht' ..)
        (fun t' ht' => ⟨hoffered t' ht', Function.update_self ..⟩) retVal fun d r' hd => ?_
      obtain hd | hd := List.mem_cons.mp hd
      · cases hd
        exact .inr ⟨rfl, rfl⟩
      · exact .inl hd
    cases hsteps with
    | endOfCall hstack =>
      exact hafter hstack (ho.leaves cfg hwf hstack rfl _) fun t' ht' => (Option.some.inj ht').symm
    | endOfThread he hstack =>
      exact hafter hstack (ho.leaves cfg hwf hstack rfl _) fun t' ht' => by cases ht'
  | fail =>
    cases hsteps with
    | endOfThread he hstack =>
      rw [Threads.after, hstack]
      dsimp only
      rw [setResult_eq hwf ho hstack]
      refine h.leave hwf ho (ho.leaves cfg hwf hstack rfl none) (fun _ _ => rfl) ?_ .nil
        fun d r' hd => .inl hd
      rintro t' ⟨⟩

end Tracks

/-- Every thread calls its function once and with its arguments: a system thread at once, a user
thread when it is resumed. What the function returns is the result, and the coroutines in the pool
wait for the next function, each of them there once and in no unfinished thread. -/
structure Recycles (m : Threads F V) : Prop where
  system : ∀ c st, m.started c = some st → st.user = false → c ∈ m.resumed
  calls : ∀ c st, m.started c = some st →
    m.callsOf c = if c ∈ m.resumed then [⟨c, st.fn, st.args⟩] else []
  results : ∀ c r, (c, r) ∈ m.returned → m.result c = r
  pooled : ∀ t ∈ m.sched.threadPool, m.point t = .loop ∧ m.sched.suspended t = true ∧
    m.sched.threadPool.count t = 1 ∧ ∀ c ∈ m.sched.live, (m.sched.ctx c).thread ≠ some t

/-- The thread that the step resumes for the first time has as many arguments as its coroutine
passes on. -/
def ArgumentsFit (m : Threads F V) : Action F V → Prop
  | .startSystemThread _ args => args.length = 4
  | .resumeThreadId tid _ => ∀ c st, m.sched.threadRegistry.get tid = some (.obj c) →
      m.started c = some st → c ∉ m.resumed → st.args.length = 3
  | _ => True

/-- All threads that have been resumed had as many arguments as their coroutines pass on. -/
def Fitting (m : Threads F V) : Prop :=
  ∀ c st, m.started c = some st → c ∈ m.resumed → st.args.length = st.arity

/-- A new thread is one more whose arguments are to fit, if it is resumed. -/
theorem fitting_new {m : Threads F V} (h : m.Tracks) (m' : Threads F V) (st : Start F V)
    (hstarted : m'.started = Function.update m.started m.sched.nctx (some st))
    (hresumed : ∀ d, d ≠ m.sched.nctx → (d ∈ m'.resumed ↔ d ∈ m.resumed)) :
    m'.Fitting ↔ m.Fitting ∧ (m.sched.nctx ∈ m'.resumed → st.args.length = st.arity) := by
  have hnone := (h.unmade m.sched.nctx le_rfl).1
  constructor
  · intro hfit
    refine ⟨fun c st' hst' hc => ?_, fun hc => hfit _ st ?_ hc⟩
    · have hne : c ≠ m.sched.nctx := by
        rintro rfl
        cases hnone.symm.trans hst'
      refine hfit c st' ?_ ((hresumed c hne).mpr hc)
      rw [hstarted, Function.update_of_ne hne]
      exact hst'
    · rw [hstarted, Function.update_self]
  · rintro ⟨hfit, hnew⟩ c st' hst' hc
    by_cases hne : c = m.sched.nctx
    · rw [hstarted, hne, Function.update_self] at hst'
      cases hst'
      exact hnew (hne ▸ hc)
    · rw [hstarted, Function.update_of_ne hne] at hst'
      exact hfit c st' hst' ((hresumed c hne).mp hc)

theorem setResult_started (m : Threads F V) (c : CtxId) (tid : Tid) (r : Value F V) :
    (m.setResult c tid r).started = m.started ∧ (m.setResult c tid r).resumed = m.resumed := by
  rw [setResult]
  split <;> exact ⟨rfl, rfl⟩

/-- Apart from starts and resumes no step starts or resumes a thread. -/
theorem after_started {m : Threads F V} (hwf : m.sched.Wf) {a : Action F V}
    (hstart : ∀ f args, a ≠ .startUserThread f args ∧ a ≠ .startSystemThread f args)
    (hresume : ∀ tid vals, a ≠ .resumeThreadId tid vals) :
    (m.after a).started = m.started ∧ (m.after a).resumed = m.resumed := by
  cases a with
  | startUserThread f args => exact absurd rfl (hstart f args).1
  | startSystemThread f args => exact absurd rfl (hstart f args).2
  | resumeThreadId tid vals => exact absurd rfl (hresume tid vals)
  | runReadyThreads limit => exact ⟨rfl, rfl⟩
  | runNext => simp [Tracks.after_runNext hwf]
  | join joined => exact ⟨rfl, rfl⟩
  | joinLoop =>
    rw [after]
    split
    · split <;> exact ⟨rfl, rfl⟩
    · exact ⟨rfl, rfl⟩
  | yield state retVal =>
    rw [after]
    split <;> exact ⟨rfl, rfl⟩
  | finish retVal =>
    rw [after]
    split
    · exact setResult_started ..
    · exact ⟨rfl, rfl⟩
  | fail =>
    rw [after]
    split
    · exact setResult_started ..
    · exact ⟨rfl, rfl⟩

/-- After a step the arguments fit exactly when they fitted before it and those of the thread that
it resumes for the first time do. -/
theorem fitting_after {cfg : Config} {m m' : Threads F V} {a : Action F V} (h : m.Tracks)
    (hwf : m.sched.Wf) (ho : m.sched.Owned) (ha : State.ResumesWaiting m.sched a.event)
    (hstep : m.step cfg a = some m') : m'.Fitting ↔ m.Fitting ∧ m.ArgumentsFit a := by
  obtain ⟨-, hstep⟩ := Option.ite_none_right_eq_some.mp hstep
  obtain ⟨s', hs', rfl⟩ := Option.map_eq_some_iff.mp hstep
  -- a thread that is not made yet has not been resumed
  have hnew : m.sched.nctx ∉ m.resumed := (h.unmade _ le_rfl).2.1
  have hkeep : (m.after a).started = m.started ∧ (m.after a).resumed = m.resumed →
      m.ArgumentsFit a → ({ m.after a with sched := s' }.Fitting ↔ m.Fitting ∧ m.ArgumentsFit a) := by
    rintro ⟨hstarted, hresumed⟩ hargs
    rw [and_iff_left hargs, Fitting, Fitting]
    dsimp only
    rw [hstarted, hresumed]
  cases a with
  | startUserThread f args =>
    obtain ⟨t, -, hafter⟩ := Tracks.after_startUserThread m hwf ho f args
    have hfit := fitting_new h { m.after (.startUserThread f args) with sched := s' }
      ⟨true, f, args⟩ (by rw [hafter]; exact Tracks.started_newThread m _)
      fun d _ => by rw [hafter]; exact Iff.rfl
    rw [hfit]
    refine and_congr_right fun _ => iff_of_true (fun hc => absurd ?_ hnew) trivial
    rw [hafter] at hc
    exact hc
  | startSystemThread f args =>
    obtain ⟨t, -, hafter⟩ := Tracks.after_startSystemThread m hwf ho f args
    have hfit := fitting_new h { m.after (.startSystemThread f args) with sched := s' }
      ⟨false, f, args⟩ (by rw [hafter]; exact Tracks.started_newThread m _)
      fun d hd => by rw [hafter]; simp [hd]
    rw [hfit, hafter]
    exact and_congr_right fun _ => imp_iff_right List.mem_cons_self
  | resumeThreadId tid vals =>
    by_cases hget : ∃ c, m.sched.threadRegistry.get tid = some (.obj c)
    · obtain ⟨c, hget⟩ := hget
      obtain ⟨t, hthread, -⟩ := ho.resumeThread_eq cfg (ho.live_of_get hget) (ha tid c rfl hget)
      have hafter : m.after (.resumeThreadId tid vals) =
          { m.enter c t vals with resumed := c :: m.resumed } := by
        rw [after, hget]
        exact Tracks.resumeThread_eq m ho (ho.live_of_get hget) (ha tid c rfl hget) hthread vals
      rw [hafter]
      constructor
      · intro hfit
        refine ⟨fun d st hst hd => hfit d st hst (List.mem_cons_of_mem c hd), ?_⟩
        intro d st hgetd hst hd
        cases hget.symm.trans hgetd
        -- system threads were resumed when they were started, so this is a user thread
        have huser : st.user = true := by
          by_contra hsystem
          exact hd (h.system c st hst (Bool.eq_false_iff.mpr hsystem))
        have hlength := hfit c st hst List.mem_cons_self
        rwa [Start.arity, huser] at hlength
      · rintro ⟨hfit, hargs⟩ d st hst hd
        by_cases hin : d ∈ m.resumed
        · exact hfit d st hst hin
        · obtain rfl | hd := List.mem_cons.mp hd
          · have huser : st.user = true := by
              by_contra hsystem
              exact hin (h.system d st hst (Bool.eq_false_iff.mpr hsystem))
            rw [Start.arity, huser]
            exact hargs d st hget hst hin
          · exact absurd hd hin
    · have hafter : m.after (.resumeThreadId tid vals) = m := by
        rw [after]
        split
        · next c hc => exact absurd ⟨c, hc⟩ hget
        · rfl
      rw [hafter]
      refine (and_iff_left fun c st hc => ?_).symm
      exact absurd ⟨c, hc⟩ hget
  | runReadyThreads limit => exact hkeep (after_started hwf (by simp) (by simp)) trivial
  | runNext => exact hkeep (after_started hwf (by simp) (by simp)) trivial
  | join joined => exact hkeep (after_started hwf (by simp) (by simp)) trivial
  | joinLoop => exact hkeep (after_started hwf (by simp) (by simp)) trivial
  | yield state retVal => exact hkeep (after_started hwf (by simp) (by simp)) trivial
  | finish retVal => exact hkeep (after_started hwf (by simp) (by simp)) trivial
  | fail => exact hkeep (after_started hwf (by simp) (by simp)) trivial

/-- A coroutine of the pool is not being executed. -/
theorem suspended_pool {s : State} (ho : s.Owned) {t : CoId} (ht : t ∈ s.threadPool) :
    s.suspended t = true := by
  have hoff : s.onStack t = false := by
    rw [State.onStack, List.any_eq_false]
    intro frame hframe
    cases frame with
    | ready => simp
    | thread c t' tid =>
      obtain ⟨hlive, hthread, -⟩ := ho.resumed c t' tid (List.mem_filterMap.mpr ⟨_, hframe, rfl⟩)
      obtain ⟨t'', ht'', -, -, hout⟩ := ho.thread c hlive
      cases hthread.symm.trans ht''
      simpa using (ne_of_mem_of_not_mem ht hout).symm
  rw [State.suspended, (ho.pool t ht).2, hoff]
  rfl

/-- In a run without resumes of threads in progress, only the arguments can go wrong. -/
theorem recycles_iff {m : Threads F V} (h : m.Tracks) (ho : m.sched.Owned) :
    m.Recycles ↔ m.Fitting := by
  constructor
  · intro hrecycles c st hst hc
    have hcalls := h.calls c st hst
    rw [hrecycles.calls c st hst, if_pos hc, if_pos hc] at hcalls
    have hargs : st.args = st.passed := by simpa using hcalls
    exact Start.passed_eq_args.mp hargs.symm
  · intro hfit
    refine ⟨h.system, fun c st hst => ?_, fun c r hr => (h.returned c r hr).2.2, fun t ht => ?_⟩
    · rw [h.calls c st hst]
      by_cases hc : c ∈ m.resumed
      · rw [if_pos hc, if_pos hc, Start.passed_eq_args.mpr (hfit c st hst hc)]
      · rw [if_neg hc, if_neg hc]
    · refine ⟨h.pool t ht, suspended_pool ho ht, List.count_eq_one_of_mem ho.poolNodup ht, ?_⟩
      intro c hc heq
      obtain ⟨t', ht', -, -, hout⟩ := ho.thread c hc
      cases ht'.symm.trans heq
      exact hout ht

end Threads

end Tracking

/-- Coroutines are recycled without a trace: in every run that resumes no thread in progress, each
thread calls its function once and with exactly its arguments, returns its result and leaves a
coroutine that waits for the next function, as long as the threads that are resumed have exactly
the arguments that their coroutines pass on, and no longer. -/
theorem recycles_iff_argumentsFit {F V : Type} (cfg : Config) (as : List (Action F V))
    (hwaiting : Transition.Guarded (Threads.step cfg)
      (fun m a => State.ResumesWaiting m.sched a.event) Threads.init as) :
    Transition.Always (Threads.step cfg) Threads.Recycles Threads.init as ↔
      Transition.Guarded (Threads.step cfg) Threads.ArgumentsFit Threads.init as := by
  have hinit : Threads.Fitting (Threads.init : Threads F V) := nofun
  refine Transition.always_iff_guarded_within
    (I := fun m : Threads F V => m.sched.Wf ∧ m.sched.Owned ∧ m.Tracks ∧ m.Fitting) hwaiting
    ⟨State.wf_init, State.owned_init, .init, hinit⟩ ?_ ?_ ?_
  · rintro m ⟨-, ho, htracks, hfit⟩
    exact (Threads.recycles_iff htracks ho).mpr hfit
  · rintro m a m' ⟨hwf, ho, htracks, hfit⟩ ha hargs hstep
    have hfit' := (Threads.fitting_after htracks hwf ho ha hstep).mpr ⟨hfit, hargs⟩
    have htracks' := htracks.after hwf ho ha hstep
    obtain ⟨-, hstep⟩ := Option.ite_none_right_eq_some.mp hstep
    obtain ⟨s', hs', rfl⟩ := Option.map_eq_some_iff.mp hstep
    exact ⟨hwf.after hs', ho.after hwf ha hs', htracks', hfit'⟩
  · rintro m a m' ⟨hwf, ho, htracks, hfit⟩ ha hargs hstep hrecycles
    have hfit' := Threads.fitting_after htracks hwf ho ha hstep
    have htracks' := htracks.after hwf ho ha hstep
    obtain ⟨-, hstep⟩ := Option.ite_none_right_eq_some.mp hstep
    obtain ⟨s', hs', rfl⟩ := Option.map_eq_some_iff.mp hstep
    exact hargs (hfit'.mp ((Threads.recycles_iff htracks' (ho.after hwf ha hs')).mp hrecycles)).2

theorem recycles_two_threads :
    Transition.Always (Threads.step ⟨16, 16⟩) Threads.Recycles
        (Threads.init : Threads Nat Nat)
        [.startSystemThread 0 [.data 1, .data 2, .nil, .nil], .finish (.data 3),
          .startUserThread 1 [.data 1, .data 2, .data 3], .resumeThreadId (.num 1) []] ↔
      Transition.Guarded (Threads.step ⟨16, 16⟩) Threads.ArgumentsFit
        (Threads.init : Threads Nat Nat)
        [.startSystemThread 0 [.data 1, .data 2, .nil, .nil], .finish (.data 3),
          .startUserThread 1 [.data 1, .data 2, .data 3], .resumeThreadId (.num 1) []] := by
  refine recycles_iff_argumentsFit ⟨16, 16⟩ _ ?_
  refine .cons rfl nofun (.cons rfl nofun (.cons rfl nofun (.cons rfl ?_ trivial)))
  exact fun _ _ _ _ => List.not_mem_nil

/-- The fourth argument of a user thread is lost. -/
theorem fourth_argument_lost :
    ¬Transition.Always (Threads.step ⟨1024, 1024⟩) Threads.Recycles
      (Threads.init : Threads Nat Nat)
      [.startUserThread 0 [.data 1, .data 2, .data 3, .data 4], .resumeThreadId (.num 1) []] := by
  intro h
  have hrecycles : Threads.Recycles _ := ((h.2 _ rfl).2 _ rfl)
  have hcalls := hrecycles.calls 0 ⟨true, 0, [.data 1, .data 2, .data 3, .data 4]⟩ rfl
  have hlengths := congrArg (fun calls => calls.map fun k => k.args.length) hcalls
  revert hlengths
  decide

end Luaw.Scheduler
