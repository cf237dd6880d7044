import Luaw.Scheduler.Wf

/-!
# What the functions of the scheduler leave alone

Resuming a thread, and what follows when it has come back, changes neither the run queue nor the
set of unfinished threads, except where the thread is added to the queue. `Moved` says what a
step does to the queue, the unfinished threads and the joins.
-/

namespace Luaw.Scheduler

namespace State

/-- The run queue, the threads and what has been recorded of them are the same. -/
structure Quiet (s s' : State) : Prop where
  nextThread : ∀ c, (s'.ctx c).nextThread = (s.ctx c).nextThread
  head : s'.runQueueHead = s.runQueueHead
  tail : s'.runQueueTail = s.runQueueTail
  len : s'.runQueueLen = s.runQueueLen
  queue : s'.queue = s.queue
  dequeues : s'.dequeues = s.dequeues
  nctx : s'.nctx = s.nctx
  live : s'.live = s.live
  joins : s'.joins = s.joins

namespace Quiet

theorem refl (s : State) : Quiet s s :=
  ⟨fun _ => rfl, rfl, rfl, rfl, rfl, rfl, rfl, rfl, rfl⟩

theorem trans {s₁ s₂ s₃ : State} (h : Quiet s₁ s₂) (h' : Quiet s₂ s₃) : Quiet s₁ s₃ where
  nextThread c := (h'.nextThread c).trans (h.nextThread c)
  head := h'.head.trans h.head
  tail := h'.tail.trans h.tail
  len := h'.len.trans h.len
  queue := h'.queue.trans h.queue
  dequeues := h'.dequeues.trans h.dequeues
  nctx := h'.nctx.trans h.nctx
  live := h'.live.trans h.live
  joins := h'.joins.trans h.joins

theorem setCtx (s : State) (c : CtxId) {x : ThreadCtx}
    (hnext : x.nextThread = (s.ctx c).nextThread) : Quiet s (s.setCtx c x) :=
  { refl s with nextThread := fun d => setCtx_field s c d x ThreadCtx.nextThread hnext }

theorem afterResume (s : State) (c : CtxId) (state : Option Mark) :
    Quiet s (s.afterResume c state) :=
  { setCtx s c (x := { s.ctx c with state }) rfl with }

theorem offer (cfg : Config) (s : State) (offered : Option CoId) :
    Quiet s (s.offer cfg offered) := by
  cases offered with
  | none => exact refl s
  | some t =>
    rw [State.offer]
    split
    · exact { refl s with }
    · exact refl s

theorem release (s : State) (c : CtxId) (threadRegistry : Registry CtxId) :
    Quiet s (s.release c threadRegistry) :=
  { setCtx s c (x := { s.ctx c with thread := none, requestCtx := none }) rfl with }

theorem ended (cfg : Config) {s : State} (h : s.Wf) (c : CtxId) (tid : Tid)
    (offered : Option CoId) : Quiet s (s.ended cfg c tid offered) := by
  cases hunref : s.threadRegistry.unref tid with
  | none =>
    rw [State.ended, hunref]
    exact refl s
  | some threadRegistry =>
    rw [h.ended_eq cfg hunref]
    exact ((release s c threadRegistry).trans (offer cfg _ offered)).trans (afterResume _ c none)

theorem resumeThread (cfg : Config) {s : State} (h : s.Wf) (c : CtxId) :
    Quiet s (s.resumeThread cfg c) := by
  have h' : { s with currentRunningThreadCtx := some (.obj c)
                     context := (s.ctx c).requestCtx }.Wf := { h with }
  rw [State.resumeThread]
  split
  · exact { refl s with }
  · next t _ =>
    split
    · exact { refl s with }
    · rw [resumed_failed]
      exact { ended cfg (h'.context none) c _ none with }

theorem resumeThreadId (cfg : Config) {s : State} (h : s.Wf) (tid : Tid) :
    Quiet s (s.resumeThreadId cfg tid) := by
  rw [State.resumeThreadId]
  split
  · exact refl s
  · exact resumeThread cfg h _
  · exact { refl s with }

theorem newThread {s : State} (h : s.Wf) :
    Quiet { s with nctx := s.nctx + 1, live := s.live ++ [s.nctx] } s.newThread.2 := by
  have hnone : (s.ctx s.nctx).nextThread = none := by
    cases hnext : (s.ctx s.nctx).nextThread with
    | none => rfl
    | some d => exact absurd (h.nextThread s.nctx d hnext).1 (lt_irrefl _)
  have hnew : ∀ (s' : State) (t : CoId) (tid : Tid), s'.ctx = s.ctx → ∀ c,
      ((s'.setCtx s.nctx ⟨some t, some s.nctx, tid, none, none, none, 0⟩).ctx c).nextThread =
        (s.ctx c).nextThread := by
    intro s' t tid hctx c
    rw [← hctx] at hnone ⊢
    exact setCtx_field s' s.nctx c _ ThreadCtx.nextThread hnone.symm
  rw [State.newThread]
  cases hpool : s.threadPool with
  | nil => exact ⟨hnew _ _ _ rfl, rfl, rfl, rfl, rfl, rfl, rfl, rfl, rfl⟩
  | cons t threadPool => exact ⟨hnew _ _ _ rfl, rfl, rfl, rfl, rfl, rfl, rfl, rfl, rfl⟩

/-- Adding to the queue is the same in states with the same queue. -/
theorem addToRunQueue {s s' : State} (h : Quiet s s') (c : CtxId) :
    Quiet (s.addToRunQueue c) (s'.addToRunQueue c) := by
  have hnext : ∀ (a a' : CtxId → ThreadCtx), (∀ d, (a' d).nextThread = (a d).nextThread) → ∀ d,
      (Function.update a' c { a' c with state := TS_RUNNABLE } d).nextThread =
        (Function.update a c { a c with state := TS_RUNNABLE } d).nextThread := by
    intro a a' heq d
    by_cases hd : d = c
    · rw [hd, Function.update_self, Function.update_self]
      exact heq c
    · rw [Function.update_of_ne hd, Function.update_of_ne hd]
      exact heq d
  have hlen := congrArg (· + 1) h.len
  have hqueue := congrArg (· ++ [c]) h.queue
  rw [State.addToRunQueue, State.addToRunQueue, h.tail]
  cases htail : s.runQueueTail with
  | none =>
    exact ⟨hnext _ _ h.nextThread, rfl, rfl, hlen, hqueue, h.dequeues, h.nctx, h.live, h.joins⟩
  | some tail =>
    refine ⟨hnext _ _ fun d => ?_, h.head, rfl, hlen, hqueue, h.dequeues, h.nctx, h.live, h.joins⟩
    show (Function.update s'.ctx tail _ d).nextThread = (Function.update s.ctx tail _ d).nextThread
    by_cases hd : d = tail
    · rw [hd, Function.update_self, Function.update_self]
    · rw [Function.update_of_ne hd, Function.update_of_ne hd]
      exact h.nextThread d

end Quiet

/-- The context at the head is taken from the queue. -/
def dequeue (s : State) (c : CtxId) : State :=
  { s.setCtx c { s.ctx c with nextThread := none } with
    runQueueHead := (s.ctx c).nextThread
    runQueueTail := if (s.ctx c).nextThread.isNone then none else s.runQueueTail
    runQueueLen := s.runQueueLen - 1
    queue := s.queue.erase c
    dequeues := s.dequeues ++ [⟨c, c ∉ s.live, false⟩] }

/-- What a step does to the queue, the unfinished threads and the joins. -/
inductive Moved (s : State) : Event → State → Prop where
  | user {s' : State} (h : Quiet ({ s with
      nctx := s.nctx + 1, live := s.live ++ [s.nctx] }.addToRunQueue s.nctx) s') :
      Moved s .startUserThread s'
  | system {s' : State} (h : Quiet { s with
      nctx := s.nctx + 1, live := s.live ++ [s.nctx] } s') : Moved s .startSystemThread s'
  | quiet {e : Event} {s' : State} (h : Quiet s s') : Moved s e s'
  | dequeued {c : CtxId} {s' : State} (hhead : s.runQueueHead = some c)
      (h : Quiet (s.dequeue c) s') : Moved s .runNext s'
  | joined {c : CtxId} {joined : List CtxId} {s' : State} (hjoined : ∀ d ∈ joined, d < s.nctx)
      (h : Quiet { s with joins := s.joins ++ [⟨c, joined, true⟩] } s') : Moved s (.join joined) s'
  | runnable {c : CtxId} {s' : State} (m : Mark) (hrun : s.running = some c) (hc : c < s.nctx)
      (h : Quiet (s.addToRunQueue c) s') : Moved s (.yield (some m)) s'
  | ended {e : Event} {c : CtxId} {s' : State} (hrun : s.running = some c)
      (h : Quiet { s with live := s.live.erase c } s') : Moved s e s'

theorem Wf.moved {cfg : Config} {s s' : State} {e : Event} (h : s.Wf)
    (hstep : step cfg s e = some s') : Moved s e s' := by
  have hrunning : ∀ {c t tid stack}, s.stack = .thread c t tid :: stack → s.running = some c := by
    intro c t tid stack hstack
    rw [State.running, hstack]
  cases h.steps hstep with
  | startUserThread =>
    have hstart : s.startUserThread = s.newThread.2.addToRunQueue s.nctx :=
      congrArg s.newThread.2.addToRunQueue (Wf.newThread_fst s)
    rw [hstart]
    exact .user ((Quiet.newThread h).addToRunQueue s.nctx)
  | startSystemThread =>
    have hset := h.newThread.setCtx (c := s.newThread.1)
      (x := { s.newThread.2.ctx s.newThread.1 with state := TS_RUNNABLE }) rfl
      (h.newThread.joinedBy _) (h.newThread.nextThread _)
    have hquiet := Quiet.setCtx s.newThread.2 s.newThread.1
      (x := { s.newThread.2.ctx s.newThread.1 with state := TS_RUNNABLE }) rfl
    exact .system (((Quiet.newThread h).trans hquiet).trans (Quiet.resumeThread cfg hset _))
  | resumeThreadId tid => exact .quiet (Quiet.resumeThreadId cfg h tid)
  | runReadyThreads limit => exact .quiet { Quiet.refl s with }
  | returned hstack => exact .quiet { Quiet.refl s with }
  -- a round on an empty queue changes nothing
  | @runNext rounds stack hstack =>
    obtain hhead | ⟨c, hhead⟩ := Option.eq_none_or_eq_some s.runQueueHead
    · have hidle : { s with stack := .ready rounds :: stack }.runNextFromRunQueue cfg =
          { s with stack := .ready rounds :: stack } := by
        simp only [runNextFromRunQueue, hhead]
      rw [hidle]
      exact .quiet { Quiet.refl s with }
    · rw [(h.ready hstack rounds).runNext_eq cfg hhead]
      exact .dequeued hhead { Quiet.refl (s.dequeue c) with }
  | join hstack hjoined => exact .joined hjoined { Quiet.refl _ with }
  | blocked hstack => exact .quiet { Quiet.afterResume s _ none with }
  | @runnable c t tid stack m hstack =>
    have hsame : Quiet s { s with stack, context := none } := { Quiet.refl s with }
    exact .runnable m (hrunning hstack) (h.frames c t tid (hstack ▸ List.mem_cons_self))
      ((hsame.addToRunQueue c).trans (Quiet.afterResume _ c none))
  | @endOfCall c t tid stack hstack =>
    have h' := (h.erase (c := c) hstack).setCo (t := t)
      (y := ⟨(s.co t).calls + 1, (s.co t).dead, false⟩) rfl
    exact .ended (hrunning hstack) { Quiet.ended cfg h' c tid (some t) with }
  | @endOfThread _ c t tid stack he hstack =>
    have h' := (h.erase (c := c) hstack).setCo (t := t) (y := ⟨(s.co t).calls, true, false⟩) rfl
    exact .ended (hrunning hstack) { Quiet.ended cfg h' c tid none with }

end State

end Luaw.Scheduler
