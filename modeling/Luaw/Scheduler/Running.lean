import Luaw.Scheduler.ThreadIds

/-!
# The running thread

`resumeThread` sets the running thread and its context before it resumes a coroutine, and clears
both when the coroutine has come back, also when it was a thread that had called it.
-/

namespace Luaw.Scheduler

open State

namespace State

/-- The scheduler knows the thread whose code is executed, and the context is the thread's. -/
def RunningKnown (s : State) : Prop :=
  ∀ c, s.running = some c → s.tid = some (s.ctx c).tid ∧ s.context = (s.ctx c).requestCtx

/-- No call of `resumeThread` that a thread has made comes back to it: what it resumes by an id
is a thread that is suspended, and none stops above it. -/
structure NoneReturns (s : State) (e : Event) : Prop where
  resumed : ∀ tid value, e = .resumeThreadId tid → s.running.isSome →
    s.threadRegistry.get tid = some value → ∃ c, value = .obj c ∧ c ∉ s.resumes.map Prod.fst
  stopped : (∃ state, e = .yield state) ∨ e = .finish ∨ e = .fail → s.resumes.length ≤ 1

/-- The innermost thread is the one that the scheduler knows. A call of `runReadyThreads` has
resumed nothing. -/
structure Known (s : State) : Prop where
  threads : ∀ f ∈ s.stack.tail, ∃ c t tid, f = .thread c t tid
  known : ∀ c ∈ s.resumes.head?.map Prod.fst,
    s.currentRunningThreadCtx = some (.obj c) ∧ s.context = (s.ctx c).requestCtx

theorem known_init : init.Known := ⟨nofun, nofun⟩

/-- The running thread, and the threads that may run, are known as before. -/
structure SameRunning (s s' : State) : Prop where
  running : s'.currentRunningThreadCtx = s.currentRunningThreadCtx
  context : s'.context = s.context
  requestCtx : ∀ c < s.nctx, (s'.ctx c).requestCtx = (s.ctx c).requestCtx
  stack : s'.stack = s.stack

theorem addToRunQueue_stack (s : State) (c : CtxId) : (s.addToRunQueue c).stack = s.stack := by
  rw [addToRunQueue]
  cases s.runQueueTail <;> rfl

theorem SameRunning.addToRunQueue {s s' : State} (h : SameRunning s s') (c : CtxId) :
    SameRunning s (s'.addToRunQueue c) := by
  have hrequest : ∀ d, ((s'.addToRunQueue c).ctx d).requestCtx = (s'.ctx d).requestCtx :=
    fun d => addToRunQueue_field s' c d ThreadCtx.requestCtx (fun _ _ => rfl) (fun _ _ => rfl)
  obtain ⟨hrunning, hcontext, hctx, hstack⟩ := h
  refine ⟨?_, ?_, fun d hd => (hrequest d).trans (hctx d hd), ?_⟩
  · rw [← hrunning, State.addToRunQueue]
    cases s'.runQueueTail <;> rfl
  · rw [← hcontext, State.addToRunQueue]
    cases s'.runQueueTail <;> rfl
  · exact (addToRunQueue_stack s' c).trans hstack

theorem SameRunning.newThread (s : State) : SameRunning s s.newThread.2 := by
  have hctx : ∀ (s' : State) {x : ThreadCtx}, s'.ctx = s.ctx → ∀ c < s.nctx,
      ((s'.setCtx s.nctx x).ctx c).requestCtx = (s.ctx c).requestCtx := by
    intro s' x heq c hc
    rw [setCtx_ne s' s.nctx c x hc.ne, heq]
  rw [State.newThread]
  cases s.threadPool with
  | nil => exact ⟨rfl, rfl, hctx _ rfl, rfl⟩
  | cons t threadPool => exact ⟨rfl, rfl, hctx _ rfl, rfl⟩

theorem SameRunning.runNext (cfg : Config) {s : State} (h : s.Wf) :
    SameRunning s (s.runNextFromRunQueue cfg) := by
  obtain hhead | ⟨c, hhead⟩ := Option.eq_none_or_eq_some s.runQueueHead
  · rw [runNextFromRunQueue, hhead]
    exact ⟨rfl, rfl, fun _ _ => rfl, rfl⟩
  · rw [h.runNext_eq cfg hhead]
    exact ⟨rfl, rfl, fun d _ => setCtx_field s c d { s.ctx c with nextThread := none }
      ThreadCtx.requestCtx rfl, rfl⟩

/-- Only a call of `runReadyThreads` keeps a thread from running, and it is the last one. -/
theorem Known.threads_of_callable {s : State} (h : Known s) (hcall : s.callable = true) :
    ∀ f ∈ s.stack, ∃ c t tid, f = .thread c t tid := by
  intro f hf
  have htail := h.threads
  cases hstack : s.stack with
  | nil =>
    rw [hstack] at hf
    cases hf
  | cons top stack =>
    rw [hstack] at hf htail
    obtain rfl | hf := List.mem_cons.mp hf
    · cases f with
      | thread c t tid => exact ⟨c, t, tid, rfl⟩
      | ready rounds =>
        rw [callable, hstack] at hcall
        cases hcall
    · exact htail f hf

theorem Known.same {s s' : State} (hwf : s.Wf) (h : Known s) (hs : SameRunning s s') :
    Known s' := by
  have hresumes : s'.resumes = s.resumes := by rw [resumes, hs.stack, resumes]
  refine ⟨hs.stack ▸ h.threads, fun c hc => ?_⟩
  rw [hresumes] at hc
  obtain ⟨⟨c, t, tid⟩, hmem, rfl⟩ := Option.map_eq_some_iff.mp hc
  obtain ⟨f, hf, heq⟩ := List.mem_filterMap.mp (List.mem_of_mem_head? hmem)
  have hlt : c < s.nctx := by
    cases f with
    | ready => cases heq
    | thread d t' tid' =>
      cases heq
      exact hwf.frames c t tid hf
  rw [hs.running, hs.context, hs.requestCtx c hlt]
  exact h.known c hc

theorem Owned.resumeThread_known {s : State} (cfg : Config) (howned : Owned s)
    {c : CtxId} (hc : c ∈ s.live) (hout : c ∉ s.resumes.map Prod.fst)
    (hthreads : ∀ f ∈ s.stack, ∃ c t tid, f = .thread c t tid) :
    Known (s.resumeThread cfg c) := by
  obtain ⟨t, -, heq⟩ := howned.resumeThread_eq cfg hc hout
  rw [heq]
  refine ⟨hthreads, fun d hd => ?_⟩
  obtain rfl : c = d := Option.some.inj hd
  exact ⟨rfl, rfl⟩

/-- Outside all threads, and outside `runReadyThreads`, no call is in progress. -/
theorem stack_of_idle {s : State} (hcall : s.callable = true) (hrun : ¬s.running.isSome) :
    s.stack = [] := by
  rw [running] at hrun
  rw [callable] at hcall
  cases hstack : s.stack with
  | nil => rfl
  | cons f stack =>
    rw [hstack] at hrun hcall
    cases f with
    | thread => exact absurd rfl hrun
    | ready => cases hcall

theorem ended_stack (cfg : Config) {s : State} (h : s.Wf) (c : CtxId) (tid : Tid)
    (offered : Option CoId) : (s.ended cfg c tid offered).stack = s.stack := by
  cases hunref : s.threadRegistry.unref tid with
  | none => rw [State.ended, hunref]
  | some threadRegistry =>
    rw [h.ended_eq cfg hunref]
    cases offered with
    | none => rfl
    | some t =>
      rw [State.offer]
      split <;> rfl

/-- A thread has stopped that no thread had resumed. -/
theorem Known.stop {s s' : State} (h : Known s) {c : CtxId} {t : CoId} {tid : Tid}
    {stack : List Frame} (hstack : s.stack = .thread c t tid :: stack) (hs' : s'.stack = stack)
    (hlen : s.resumes.length ≤ 1) : Known s' := by
  have hcons : s.resumes = (c, t, tid) :: s'.resumes := by
    simp only [resumes, hstack, hs', List.filterMap_cons]
  rw [hcons, List.length_cons] at hlen
  have hnone : s'.resumes = [] := List.eq_nil_of_length_eq_zero (by omega)
  refine ⟨fun f hf => h.threads f ?_, fun d hd => ?_⟩
  · rw [hstack, ← hs']
    exact List.mem_of_mem_tail hf
  · rw [hnone] at hd
    cases hd

theorem Known.after {cfg : Config} {s s' : State} {e : Event} (hwf : s.Wf) (howned : Owned s)
    (h : Known s) (he : NoneReturns s e) (hstep : step cfg s e = some s') : Known s' := by
  cases hwf.steps hstep with
  | startUserThread => exact h.same hwf ((SameRunning.newThread s).addToRunQueue _)
  | startSystemThread hcall =>
    have hsame := SameRunning.newThread s
    let x : ThreadCtx := { s.newThread.2.ctx s.newThread.1 with state := TS_RUNNABLE }
    obtain ⟨hc, hout⟩ := howned.newThread_mem hwf
    refine Owned.resumeThread_known cfg ((howned.newThread hwf).same
      (SameThreads.setCtx s.newThread.2 s.newThread.1 (x := x) rfl rfl)) hc hout ?_
    exact hsame.stack ▸ h.threads_of_callable hcall
  | resumeThreadId tid hcall =>
    rw [resumeThreadId]
    split
    · exact h
    · next c hget =>
      -- no thread is resumed that is in progress already
      refine howned.resumeThread_known cfg (howned.live_of_get hget) (fun hc => ?_)
        (h.threads_of_callable hcall)
      by_cases hrun : s.running.isSome
      · obtain ⟨d, heq, hd⟩ := he.resumed tid _ rfl hrun hget
        cases heq
        exact hd hc
      · rw [resumes, stack_of_idle hcall hrun] at hc
        cases hc
    · next n hget =>
      by_cases hrun : s.running.isSome
      · obtain ⟨d, heq, -⟩ := he.resumed tid _ rfl hrun hget
        cases heq
      · have hstack := stack_of_idle hcall hrun
        refine ⟨hstack ▸ List.forall_mem_nil _, fun c hc => ?_⟩
        change c ∈ s.resumes.head?.map Prod.fst at hc
        rw [resumes, hstack] at hc
        cases hc
  | runReadyThreads limit hcall => exact ⟨h.threads_of_callable hcall, h.known⟩
  | @returned stack hstack =>
    have hresumes : s.resumes = { s with stack }.resumes := by
      simp only [resumes, hstack, List.filterMap_cons]
    refine ⟨fun f hf => h.threads f (hstack ▸ List.mem_of_mem_tail hf), fun c hc => ?_⟩
    exact h.known c (hresumes ▸ hc)
  | @runNext rounds stack hstack =>
    have hresumes : s.resumes = { s with stack := .ready rounds :: stack }.resumes := by
      simp only [resumes, hstack, List.filterMap_cons]
    have hready : Known { s with stack := .ready rounds :: stack } :=
      ⟨fun f hf => h.threads f (hstack ▸ hf), fun c hc => h.known c (hresumes ▸ hc)⟩
    have hwf' := hwf.ready hstack rounds
    exact hready.same hwf' (SameRunning.runNext cfg hwf')
  | join => exact h.same hwf ⟨rfl, rfl, fun _ _ => rfl, rfl⟩
  | blocked hstack => exact h.stop hstack rfl (he.stopped (.inl ⟨_, rfl⟩))
  | runnable m hstack =>
    exact h.stop hstack (addToRunQueue_stack _ _) (he.stopped (.inl ⟨_, rfl⟩))
  | endOfCall hstack =>
    refine h.stop hstack ?_ (he.stopped (.inr (.inl rfl)))
    exact ended_stack cfg ((hwf.erase hstack).setCo rfl) _ _ _
  | endOfThread heq hstack =>
    refine h.stop hstack ?_ (he.stopped (.inr heq))
    exact ended_stack cfg ((hwf.erase hstack).setCo rfl) _ _ _

theorem Known.runningKnown {s : State} (h : Known s) : RunningKnown s := by
  intro c hrun
  have hhead : c ∈ s.resumes.head?.map Prod.fst := by
    rw [running] at hrun
    rw [resumes]
    cases hstack : s.stack with
    | nil =>
      rw [hstack] at hrun
      cases hrun
    | cons f stack =>
      rw [hstack] at hrun
      cases f with
      | ready => cases hrun
      | thread d t tid =>
        cases hrun
        rfl
  obtain ⟨hknown, hcontext⟩ := h.known c hhead
  refine ⟨?_, hcontext⟩
  rw [tid, hknown]

/-- When a thread has ended, the scheduler knows none. -/
theorem ended_running (cfg : Config) {s : State} (h : s.Wf) {c : CtxId} {tid : Tid}
    {threadRegistry : Registry CtxId} (hunref : s.threadRegistry.unref tid = some threadRegistry)
    (offered : Option CoId) : (s.ended cfg c tid offered).currentRunningThreadCtx = none := by
  rw [h.ended_eq cfg hunref]
  rfl

theorem tid_of_none {s : State} (h : s.currentRunningThreadCtx = none) : s.tid = none := by
  rw [tid, h]

/-- When a thread stops, the scheduler knows none, whatever called it. -/
theorem Owned.stops {cfg : Config} {s s' : State} {e : Event} (hwf : s.Wf) (h : Owned s)
    (he : (∃ state, e = .yield state) ∨ e = .finish ∨ e = .fail)
    (hstep : step cfg s e = some s') :
    ∃ c t tid, s.stack = .thread c t tid :: s'.stack ∧ s'.currentRunningThreadCtx = none := by
  have hunref : ∀ {c t tid stack}, s.stack = .thread c t tid :: stack →
      ∃ threadRegistry, s.threadRegistry.unref tid = some threadRegistry := by
    intro c t tid stack hstack
    have hc : (c, t, tid) ∈ s.resumes := by
      simp only [resumes, hstack, List.filterMap_cons, List.mem_cons_self]
    obtain ⟨hlive, -, htid⟩ := h.resumed c t tid hc
    exact htid ▸ h.unref_eq hlive
  cases hwf.steps hstep with
  | blocked hstack => exact ⟨_, _, _, hstack, rfl⟩
  | @runnable c t tid stack m hstack =>
    have hqueued := addToRunQueue_stack { s with stack, context := none } c
    exact ⟨c, t, tid, hstack.trans (congrArg _ hqueued.symm), rfl⟩
  | @endOfCall c t tid stack hstack =>
    obtain ⟨threadRegistry, hunref⟩ := hunref hstack
    have hwf' := (hwf.erase (c := c) hstack).setCo (t := t)
      (y := ⟨(s.co t).calls + 1, (s.co t).dead, false⟩) rfl
    have hended := ended_stack cfg hwf' c tid (some t)
    exact ⟨c, t, tid, hstack.trans (congrArg _ hended.symm), ended_running cfg hwf' hunref _⟩
  | @endOfThread _ c t tid stack _ hstack =>
    obtain ⟨threadRegistry, hunref⟩ := hunref hstack
    have hwf' := (hwf.erase (c := c) hstack).setCo (t := t) (y := ⟨(s.co t).calls, true, false⟩) rfl
    have hended := ended_stack cfg hwf' c tid none
    exact ⟨c, t, tid, hstack.trans (congrArg _ hended.symm), ended_running cfg hwf' hunref _⟩
  | startUserThread => exact absurd he (by simp)
  | startSystemThread => exact absurd he (by simp)
  | resumeThreadId => exact absurd he (by simp)
  | runReadyThreads => exact absurd he (by simp)
  | returned => exact absurd he (by simp)
  | runNext => exact absurd he (by simp)
  | join => exact absurd he (by simp)

/-- After a step that comes back to a thread, the scheduler does not know that thread. -/
theorem Known.noneReturns {cfg : Config} {s s' : State} {e : Event} (hwf : s.Wf)
    (howned : Owned s) (h : Known s) (hstep : step cfg s e = some s') (hs' : RunningKnown s') :
    NoneReturns s e := by
  have hlost : s'.tid = none → ∀ c, s'.running ≠ some c := by
    intro htid c hrun
    rw [(hs' c hrun).1] at htid
    cases htid
  constructor
  · intro tid value heq hrun hget
    subst heq
    obtain ⟨-, heq⟩ := Option.ite_none_right_eq_some.mp hstep
    obtain ⟨r, hr⟩ := Option.isSome_iff_exists.mp hrun
    cases value with
    | num n =>
      simp only [resumeThreadId, hget] at heq
      cases heq
      exact absurd hr (hlost rfl r)
    | obj c =>
      refine ⟨c, rfl, fun hc => ?_⟩
      have hwf' : { s with currentRunningThreadCtx := some (.obj c), context := none }.Wf :=
        { hwf with }
      obtain ⟨threadRegistry, hunref⟩ := howned.unref_eq (howned.live_of_resumes hc)
      simp only [resumeThreadId, hget] at heq
      rw [howned.resumeThread_inProgress cfg hc] at heq
      cases heq
      refine hlost (tid_of_none (ended_running cfg hwf' hunref none)) r ?_
      rw [running, ended_stack cfg hwf']
      exact hr
  · intro he
    obtain ⟨c, t, tid, hstack, hnone⟩ := howned.stops hwf he hstep
    have hcons : s.resumes = (c, t, tid) :: s'.resumes := by
      simp only [resumes, hstack, List.filterMap_cons]
    -- below the thread that stopped there is no other one, as the scheduler would have to know it
    have hidle : s'.stack = [] := by
      have htail := h.threads
      rw [hstack] at htail
      cases hbelow : s'.stack with
      | nil => rfl
      | cons f stack =>
        obtain ⟨d, t', tid', rfl⟩ := htail f (hbelow ▸ List.mem_cons_self)
        refine absurd ?_ (hlost (tid_of_none hnone) d)
        rw [running, hbelow]
    rw [hcons, resumes, hidle]
    exact le_refl 1

end State

/-- In a run, the scheduler knows which thread runs exactly when no resume made by a thread
comes back to it. -/
theorem running_known_iff (cfg : Config) (es : List Event) :
    Transition.Always (step cfg) RunningKnown init es ↔
      Transition.Guarded (step cfg) NoneReturns init es := by
  refine Transition.always_iff_guarded (I := fun s => s.Wf ∧ Owned s ∧ Known s)
    ⟨wf_init, owned_init, known_init⟩ (fun s h => h.2.2.runningKnown) ?_ ?_
  · intro s e s' ⟨hwf, howned, hknown⟩ he hstep
    refine ⟨hwf.after hstep, howned.after hwf ?_ hstep, hknown.after hwf howned he hstep⟩
    intro tid c heq hget hc
    by_cases hrun : s.running.isSome
    · obtain ⟨d, hd, hout⟩ := he.resumed tid _ heq hrun hget
      cases hd
      exact hout hc
    · subst heq
      obtain ⟨hcall, -⟩ := Option.ite_none_right_eq_some.mp hstep
      rw [resumes, stack_of_idle hcall hrun] at hc
      cases hc
  · intro s e s' ⟨hwf, howned, hknown⟩ he hstep hs'
    exact he (hknown.noneReturns hwf howned hstep hs')

/-- A system thread starts another one, which blocks at once. -/
theorem running_forgotten :
    ¬Transition.Always (step ⟨16, 16⟩) RunningKnown init
      [.startSystemThread, .startSystemThread, .yield none] := by
  intro h
  have hknown : RunningKnown _ := ((h.2 _ rfl).2 _ rfl).2 _ rfl
  exact absurd (hknown 0 rfl).1 (by decide)

end Luaw.Scheduler
