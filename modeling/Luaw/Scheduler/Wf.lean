import Luaw.Scheduler.Machine

/-!
# What holds in every run of the scheduler

`luaw_constants` has no fields of the names that the scheduler looks up, so that the states of
all threads are nil; and no thread is ever joined, since `scheduler.join` tests a variable that
does not exist.
-/

namespace Luaw.Scheduler

theorem TS_RUNNABLE_eq : TS_RUNNABLE = none := rfl

theorem TS_DONE_eq : TS_DONE = none := rfl

theorem TS_BLOCKED_EVENT_eq : TS_BLOCKED_EVENT = none := rfl

theorem TS_BLOCKED_THREAD_eq : TS_BLOCKED_THREAD = none := rfl

namespace State

/-- The thread contexts in use have been made, and all states are nil. -/
structure Wf (s : State) : Prop where
  state : ∀ c, (s.ctx c).state = none
  joinedBy : ∀ c, (s.ctx c).joinedBy = none
  joining : ∀ t, (s.co t).joining = false
  nextThread : ∀ c d, (s.ctx c).nextThread = some d → c < s.nctx ∧ d < s.nctx
  head : ∀ c, s.runQueueHead = some c → c < s.nctx
  tail : ∀ c, s.runQueueTail = some c → c < s.nctx
  frames : ∀ c t tid, .thread c t tid ∈ s.stack → c < s.nctx
  objs : ∀ key c, s.threadRegistry.table key = some (.obj c) → c < s.nctx
  queue : ∀ c ∈ s.queue, c < s.nctx
  live : ∀ c ∈ s.live, c < s.nctx

theorem wf_init : init.Wf where
  state _ := rfl
  joinedBy _ := rfl
  joining _ := rfl
  nextThread _ _ h := nomatch h
  head _ h := nomatch h
  tail _ h := nomatch h
  frames _ _ _ h := nomatch h
  objs _ _ h := nomatch h
  queue _ h := nomatch h
  live _ h := nomatch h

section Fields

variable (s : State) (c d : CtxId) (x : ThreadCtx)

theorem setCtx_self : (s.setCtx c x).ctx c = x := by
  show Function.update s.ctx c x c = x
  rw [Function.update_self]

theorem setCtx_ne (h : d ≠ c) : (s.setCtx c x).ctx d = s.ctx d := by
  show Function.update s.ctx c x d = s.ctx d
  rw [Function.update_of_ne h]

theorem setCo_self (t : CoId) (y : Coroutine) : (s.setCo t y).co t = y := by
  show Function.update s.co t y t = y
  rw [Function.update_self]

theorem setCo_ne {t t' : CoId} (y : Coroutine) (h : t' ≠ t) : (s.setCo t y).co t' = s.co t' := by
  show Function.update s.co t y t' = s.co t'
  rw [Function.update_of_ne h]

/-- A field that an assignment to a context keeps. -/
theorem setCtx_field {β : Type} (f : ThreadCtx → β) (h : f x = f (s.ctx c)) :
    f ((s.setCtx c x).ctx d) = f (s.ctx d) := by
  by_cases hd : d = c
  · rw [hd, setCtx_self, h]
  · rw [setCtx_ne s c d x hd]

theorem setCo_field {β : Type} (t t' : CoId) (y : Coroutine) (f : Coroutine → β)
    (h : f y = f (s.co t)) : f ((s.setCo t y).co t') = f (s.co t') := by
  by_cases ht : t' = t
  · rw [ht, setCo_self, h]
  · rw [setCo_ne s y ht]

/-- A field that addition to the queue keeps: neither the state nor the link. -/
theorem addToRunQueue_field {β : Type} (f : ThreadCtx → β)
    (hstate : ∀ x state, f { x with state } = f x)
    (hnext : ∀ x nextThread, f { x with nextThread } = f x) :
    f ((s.addToRunQueue c).ctx d) = f (s.ctx d) := by
  rw [addToRunQueue]
  cases s.runQueueTail with
  | none => exact setCtx_field s c d _ f (hstate (s.ctx c) TS_RUNNABLE)
  | some tail =>
    let s' := s.setCtx tail { s.ctx tail with nextThread := some c }
    exact (setCtx_field s' c d _ f (hstate (s'.ctx c) TS_RUNNABLE)).trans
      (setCtx_field s tail d _ f (hnext (s.ctx tail) (some c)))

end Fields

section Resumed

variable (cfg : Config) (s : State) (c : CtxId) (t : CoId) (tid : Tid)

theorem resumed_failed (state : Option Mark) :
    s.resumed cfg c t tid false state = { s with context := none }.ended cfg c tid none := rfl

theorem resumed_call :
    s.resumed cfg c t tid true END_OF_CALL = { s with context := none }.ended cfg c tid (some t) :=
  rfl

theorem resumed_thread :
    s.resumed cfg c t tid true END_OF_THREAD = { s with context := none }.ended cfg c tid none :=
  rfl

theorem resumed_runnable {m : Mark} (hcall : some m ≠ END_OF_CALL)
    (hthread : some m ≠ END_OF_THREAD) :
    s.resumed cfg c t tid true (some m) =
      ({ s with context := none }.addToRunQueue c).afterResume c none := by
  have hend : ¬(some m = END_OF_THREAD ∨ some m = END_OF_CALL) := by tauto
  have hblocked : ¬(some m = TS_BLOCKED_EVENT ∨ some m = TS_BLOCKED_THREAD) := by
    rw [TS_BLOCKED_EVENT_eq, TS_BLOCKED_THREAD_eq]
    simp
  simp only [resumed, if_true, if_neg hend, if_neg hblocked, TS_RUNNABLE_eq]

theorem resumed_cases (status : Bool) (state : Option Mark) :
    (∃ offered, s.resumed cfg c t tid status state =
        { s with context := none }.ended cfg c tid offered) ∨
      s.resumed cfg c t tid status state = { s with context := none }.afterResume c none ∨
      s.resumed cfg c t tid status state =
        ({ s with context := none }.addToRunQueue c).afterResume c none := by
  cases status with
  | false => exact .inl ⟨none, rfl⟩
  | true =>
    cases state with
    | none => exact .inr (.inl rfl)
    | some m =>
      by_cases hcall : some m = END_OF_CALL
      · rw [hcall]
        exact .inl ⟨some t, rfl⟩
      · by_cases hthread : some m = END_OF_THREAD
        · rw [hthread]
          exact .inl ⟨none, rfl⟩
        · exact .inr (.inr (resumed_runnable cfg s c t tid hcall hthread))

end Resumed

namespace Wf

variable {s : State} {c : CtxId}

theorem setCtx (h : s.Wf) {x : ThreadCtx} (hstate : x.state = none) (hjoined : x.joinedBy = none)
    (hnext : ∀ d, x.nextThread = some d → c < s.nctx ∧ d < s.nctx) : (s.setCtx c x).Wf :=
  { h with
    state := fun d =>
      (setCtx_field s c d x ThreadCtx.state (hstate.trans (h.state c).symm)).trans (h.state d)
    joinedBy := fun d =>
      (setCtx_field s c d x ThreadCtx.joinedBy (hjoined.trans (h.joinedBy c).symm)).trans
        (h.joinedBy d)
    nextThread := fun d e hd => by
      by_cases hdc : d = c
      · rw [hdc, setCtx_self] at hd
        exact hdc ▸ hnext e hd
      · rw [setCtx_ne s c d x hdc] at hd
        exact h.nextThread d e hd }

theorem setCo (h : s.Wf) {t : CoId} {y : Coroutine} (hy : y.joining = false) : (s.setCo t y).Wf :=
  { h with
    joining := fun t' =>
      (setCo_field s t t' y Coroutine.joining (hy.trans (h.joining t).symm)).trans (h.joining t') }

theorem addToRunQueue (h : s.Wf) (hc : c < s.nctx) : (s.addToRunQueue c).Wf := by
  have hqueue : ∀ d ∈ s.queue ++ [c], d < s.nctx := by
    intro d hd
    obtain hd | hd := List.mem_append.mp hd
    · exact h.queue d hd
    · rw [List.mem_singleton.mp hd]
      exact hc
  have hlast : ∀ d, some c = some d → d < s.nctx := fun d hd => Option.some.inj hd ▸ hc
  rw [State.addToRunQueue]
  cases htail : s.runQueueTail with
  | none =>
    have h₁ : { s with runQueueHead := some c, runQueueTail := some c }.Wf :=
      { h with head := hlast, tail := hlast }
    have h₂ := h₁.setCtx (c := c) (x := { s.ctx c with state := TS_RUNNABLE }) rfl (h.joinedBy c)
      (h.nextThread c)
    exact { h₂ with queue := hqueue }
  | some tail =>
    have h₁ := h.setCtx (c := tail) (x := { s.ctx tail with nextThread := some c }) (h.state tail)
      (h.joinedBy tail) fun d hd => ⟨h.tail tail htail, hlast d hd⟩
    have h₂ := h₁.setCtx (c := c) (x := { (s.setCtx tail { s.ctx tail with
      nextThread := some c }).ctx c with state := TS_RUNNABLE }) rfl (h₁.joinedBy c)
      (h₁.nextThread c)
    exact { h₂ with queue := hqueue, tail := hlast }

/-- The context of a new thread, and what becomes of the counters. -/
theorem newThread (h : s.Wf) : s.newThread.2.Wf := by
  have hnew : ∀ (s : State) (t : CoId), s.Wf →
      { s.setCtx s.nctx ⟨some t, some s.nctx, (s.threadRegistry.ref s.nctx).1, none, none, none, 0⟩
        with
        nctx := s.nctx + 1
        threadRegistry := (s.threadRegistry.ref s.nctx).2
        live := s.live ++ [s.nctx] }.Wf := by
    intro s t h
    have h' := h.setCtx (c := s.nctx) (x := ⟨some t, some s.nctx, (s.threadRegistry.ref s.nctx).1,
      none, none, none, 0⟩) rfl rfl nofun
    refine { h' with nextThread := ?_, head := ?_, tail := ?_, frames := ?_, objs := ?_,
                     queue := ?_, live := ?_ }
    · exact fun d e hd => (h'.nextThread d e hd).imp Nat.lt_succ_of_lt Nat.lt_succ_of_lt
    · exact fun d hd => Nat.lt_succ_of_lt (h'.head d hd)
    · exact fun d hd => Nat.lt_succ_of_lt (h'.tail d hd)
    · exact fun d t i hd => Nat.lt_succ_of_lt (h'.frames d t i hd)
    · intro key d hd
      obtain rfl | ⟨key', hd⟩ := Registry.ref_obj hd
      · exact Nat.lt_succ_self _
      · exact Nat.lt_succ_of_lt (h.objs key' d hd)
    · exact fun d hd => Nat.lt_succ_of_lt (h'.queue d hd)
    · intro d hd
      obtain hd | hd := List.mem_append.mp hd
      · exact Nat.lt_succ_of_lt (h.live d hd)
      · rw [List.mem_singleton.mp hd]
        exact Nat.lt_succ_self _
  rw [State.newThread]
  cases hpool : s.threadPool with
  | nil => exact hnew _ s.nco { h.setCo (t := s.nco) (y := ⟨0, false, false⟩) rfl with }
  | cons t threadPool => exact hnew { s with threadPool } t { h with }

theorem afterResume (h : s.Wf) : (s.afterResume c none).Wf := by
  have h' := h.setCtx (c := c) (x := { s.ctx c with state := none }) rfl (h.joinedBy c)
    (h.nextThread c)
  exact { h' with }

/-- No thread is waited for. -/
theorem unblock_eq (h : s.Wf) : s.unblockJoinedThreadIfAny c = s := by
  rw [unblockJoinedThreadIfAny, h.joinedBy c]

theorem offer (cfg : Config) (h : s.Wf) (offered : Option CoId) : (s.offer cfg offered).Wf := by
  cases offered with
  | none => exact h
  | some t =>
    rw [State.offer]
    split
    · exact { h with }
    · exact h

theorem release (h : s.Wf) {tid : Tid} {threadRegistry : Registry CtxId}
    (hunref : s.threadRegistry.unref tid = some threadRegistry) :
    (s.release c threadRegistry).Wf := by
  have h' := h.setCtx (c := c) (x := { s.ctx c with thread := none, requestCtx := none })
    (h.state c) (h.joinedBy c) (h.nextThread c)
  refine { h' with objs := fun key d hd => ?_ }
  obtain ⟨key', hd'⟩ := Registry.unref_obj hunref hd
  exact h.objs key' d hd'

theorem ended_eq (cfg : Config) (h : s.Wf) {tid : Tid} {threadRegistry : Registry CtxId}
    (hunref : s.threadRegistry.unref tid = some threadRegistry) (offered : Option CoId) :
    s.ended cfg c tid offered =
      ((s.release c threadRegistry).offer cfg offered).afterResume c none := by
  simp only [State.ended, hunref, ((h.release hunref).offer cfg offered).unblock_eq]
  rfl

theorem ended (cfg : Config) (h : s.Wf) (tid : Tid) (offered : Option CoId) :
    (s.ended cfg c tid offered).Wf := by
  cases hunref : s.threadRegistry.unref tid with
  | none =>
    rw [State.ended, hunref]
    exact h
  | some threadRegistry =>
    rw [h.ended_eq cfg hunref]
    exact ((h.release hunref).offer cfg offered).afterResume

theorem context (h : s.Wf) (context : Option CtxId) : { s with context }.Wf := { h with }

theorem resumed (cfg : Config) (h : s.Wf) (hc : c < s.nctx) (t : CoId) (tid : Tid) (status : Bool)
    (state : Option Mark) : (s.resumed cfg c t tid status state).Wf := by
  have h' := h.context none
  obtain ⟨offered, heq⟩ | heq | heq := resumed_cases cfg s c t tid status state
  · rw [heq]
    exact h'.ended cfg tid offered
  · rw [heq]
    exact h'.afterResume
  · rw [heq]
    exact (h'.addToRunQueue hc).afterResume

theorem resumeThread (cfg : Config) (h : s.Wf) (hc : c < s.nctx) : (s.resumeThread cfg c).Wf := by
  have h' : { s with
      currentRunningThreadCtx := some (.obj c), context := (s.ctx c).requestCtx }.Wf := { h with }
  rw [State.resumeThread]
  split
  · exact h'
  · split
    · refine { h' with frames := fun d t tid hd => ?_ }
      obtain hd | hd := List.mem_cons.mp hd
      · cases hd
        exact hc
      · exact h.frames d t tid hd
    · exact h'.resumed cfg hc _ _ _ _

theorem newThread_fst (s : State) : s.newThread.1 = s.nctx := by
  rw [State.newThread]
  cases s.threadPool <;> rfl

theorem newThread_nctx (s : State) : s.newThread.2.nctx = s.nctx + 1 := by
  rw [State.newThread]
  cases s.threadPool <;> rfl

theorem startUserThread (h : s.Wf) : s.startUserThread.Wf := by
  have hlt : s.newThread.1 < s.newThread.2.nctx := by
    rw [newThread_fst, newThread_nctx]
    exact Nat.lt_succ_self _
  exact h.newThread.addToRunQueue hlt

theorem startSystemThread (cfg : Config) (h : s.Wf) : (s.startSystemThread cfg).Wf := by
  have h' := h.newThread.setCtx (c := s.newThread.1)
    (x := { s.newThread.2.ctx s.newThread.1 with state := TS_RUNNABLE }) rfl
    (h.newThread.joinedBy _) (h.newThread.nextThread _)
  refine h'.resumeThread cfg ?_
  show s.newThread.1 < s.newThread.2.nctx
  rw [newThread_fst, newThread_nctx]
  exact Nat.lt_succ_self _

theorem resumeThreadId (cfg : Config) (h : s.Wf) (tid : Tid) : (s.resumeThreadId cfg tid).Wf := by
  rw [State.resumeThreadId]
  split
  · exact h
  · next c hget => exact h.resumeThread cfg (h.objs tid c hget)
  · exact { h with }

/-- A dequeued context is left alone, its state being that of a thread that is done. -/
theorem runNext_eq (cfg : Config) (h : s.Wf) (hhead : s.runQueueHead = some c) :
    s.runNextFromRunQueue cfg =
      { s.setCtx c { s.ctx c with nextThread := none } with
        runQueueHead := (s.ctx c).nextThread
        runQueueTail := if (s.ctx c).nextThread.isNone then none else s.runQueueTail
        runQueueLen := s.runQueueLen - 1
        queue := s.queue.erase c
        dequeues := s.dequeues ++ [⟨c, c ∉ s.live, false⟩] } := by
  have hstate := h.state c
  cases hnext : (s.ctx c).nextThread with
  | none => simp [runNextFromRunQueue, hhead, hnext, hstate, TS_DONE_eq, State.setCtx]
  | some d => simp [runNextFromRunQueue, hhead, hnext, hstate, TS_DONE_eq, State.setCtx]

theorem runNext (cfg : Config) (h : s.Wf) : (s.runNextFromRunQueue cfg).Wf := by
  cases hhead : s.runQueueHead with
  | none =>
    rw [runNextFromRunQueue, hhead]
    exact h
  | some c =>
    rw [h.runNext_eq cfg hhead]
    have h' := h.setCtx (c := c) (x := { s.ctx c with nextThread := none }) (h.state c)
      (h.joinedBy c) nofun
    refine { h' with head := fun d hd => (h.nextThread c d hd).2, tail := fun d hd => ?_,
                     queue := fun d hd => h.queue d (List.mem_of_mem_erase hd) }
    change (if (s.ctx c).nextThread.isNone then none else s.runQueueTail) = some d at hd
    split at hd
    · cases hd
    · exact h.tail d hd

end Wf

/-- What a step does, one case for each thing that can happen. -/
inductive Steps (cfg : Config) (s : State) : Event → State → Prop where
  | startUserThread (hcall : s.callable = true) : Steps cfg s .startUserThread s.startUserThread
  | startSystemThread (hcall : s.callable = true) :
      Steps cfg s .startSystemThread (s.startSystemThread cfg)
  | resumeThreadId (tid : Tid) (hcall : s.callable = true) :
      Steps cfg s (.resumeThreadId tid) (s.resumeThreadId cfg tid)
  | runReadyThreads (limit : Option Int) (hcall : s.callable = true) :
      Steps cfg s (.runReadyThreads limit)
        { s with stack := .ready (s.runnableCount limit) :: s.stack }
  | returned {stack : List Frame} (hstack : s.stack = .ready 0 :: stack) :
      Steps cfg s .runNext { s with stack }
  | runNext {rounds : Nat} {stack : List Frame} (hstack : s.stack = .ready (rounds + 1) :: stack) :
      Steps cfg s .runNext ({ s with stack := .ready rounds :: stack }.runNextFromRunQueue cfg)
  | join {c : CtxId} {t : CoId} {tid : Tid} {stack : List Frame} {joined : List CtxId}
      (hstack : s.stack = .thread c t tid :: stack) (hjoined : ∀ d ∈ joined, d < s.nctx) :
      Steps cfg s (.join joined) { s with joins := s.joins ++ [⟨c, joined, true⟩] }
  | blocked {c : CtxId} {t : CoId} {tid : Tid} {stack : List Frame}
      (hstack : s.stack = .thread c t tid :: stack) :
      Steps cfg s (.yield none) ({ s with stack, context := none }.afterResume c none)
  | runnable {c : CtxId} {t : CoId} {tid : Tid} {stack : List Frame} (m : Mark)
      (hstack : s.stack = .thread c t tid :: stack) :
      Steps cfg s (.yield (some m))
        (({ s with stack, context := none }.addToRunQueue c).afterResume c none)
  | endOfCall {c : CtxId} {t : CoId} {tid : Tid} {stack : List Frame}
      (hstack : s.stack = .thread c t tid :: stack) :
      Steps cfg s .finish (({ s with stack, live := s.live.erase c, context := none }.setCo t
        ⟨(s.co t).calls + 1, (s.co t).dead, false⟩).ended cfg c tid (some t))
  | endOfThread {e : Event} {c : CtxId} {t : CoId} {tid : Tid} {stack : List Frame}
      (he : e = .finish ∨ e = .fail) (hstack : s.stack = .thread c t tid :: stack) :
      Steps cfg s e (({ s with stack, live := s.live.erase c, context := none }.setCo t
        ⟨(s.co t).calls, true, false⟩).ended cfg c tid none)

theorem Wf.steps {cfg : Config} {s s' : State} {e : Event} (h : s.Wf)
    (hstep : step cfg s e = some s') : Steps cfg s e s' := by
  cases e with
  | startUserThread =>
    obtain ⟨hcall, heq⟩ := Option.ite_none_right_eq_some.mp hstep
    cases heq
    exact .startUserThread hcall
  | startSystemThread =>
    obtain ⟨hcall, heq⟩ := Option.ite_none_right_eq_some.mp hstep
    cases heq
    exact .startSystemThread hcall
  | resumeThreadId tid =>
    obtain ⟨hcall, heq⟩ := Option.ite_none_right_eq_some.mp hstep
    cases heq
    exact .resumeThreadId tid hcall
  | runReadyThreads limit =>
    obtain ⟨hcall, heq⟩ := Option.ite_none_right_eq_some.mp hstep
    cases heq
    exact .runReadyThreads limit hcall
  | runNext =>
    rw [step] at hstep
    split at hstep
    · next hstack =>
      cases hstep
      exact .returned hstack
    · next hstack =>
      cases hstep
      exact .runNext hstack
    · cases hstep
  | join joined =>
    rw [step] at hstep
    split at hstep
    · next hstack =>
      obtain ⟨⟨-, hjoined⟩, heq⟩ := Option.ite_none_right_eq_some.mp hstep
      cases heq
      exact .join hstack hjoined
    · cases hstep
  | joinLoop =>
    rw [step] at hstep
    split at hstep
    -- no coroutine is ever in the loop of join
    · next t _ _ _ =>
      rw [h.joining t] at hstep
      cases hstep
    · cases hstep
  | yield state =>
    rw [step] at hstep
    split at hstep
    · next hstack =>
      obtain ⟨⟨-, hcall, hthread⟩, heq⟩ := Option.ite_none_right_eq_some.mp hstep
      cases heq
      cases state with
      | none => exact .blocked hstack
      | some m =>
        rw [resumed_runnable cfg _ _ _ _ hcall hthread]
        exact .runnable m hstack
    · cases hstep
  | finish =>
    rw [step] at hstep
    split at hstep
    · next c t tid stack hstack =>
      obtain ⟨-, heq⟩ := Option.ite_none_right_eq_some.mp hstep
      have hjoining := h.joining t
      -- the coroutine is used again until it has served `timesReuseThread` calls
      by_cases hcalls : (s.co t).calls ≤ cfg.timesReuseThread
      · simp only [if_pos hcalls] at heq
        cases heq
        rw [resumed_call, hjoining]
        exact .endOfCall hstack
      · simp only [if_neg hcalls] at heq
        cases heq
        rw [resumed_thread, hjoining]
        exact .endOfThread (.inl rfl) hstack
    · cases hstep
  | fail =>
    rw [step] at hstep
    split at hstep
    · next c t tid stack hstack =>
      obtain ⟨-, heq⟩ := Option.ite_none_right_eq_some.mp hstep
      have hjoining := h.joining t
      simp only [hjoining] at heq
      cases heq
      rw [resumed_failed]
      exact .endOfThread (.inr rfl) hstack
    · cases hstep

/-- The thread that runs has ended, and its frame is taken off. -/
theorem Wf.erase {s : State} (h : s.Wf) {c : CtxId} {f : Frame} {stack : List Frame}
    (hstack : s.stack = f :: stack) :
    { s with stack, live := s.live.erase c, context := none }.Wf :=
  { h with
    frames := fun d t tid hd => h.frames d t tid (hstack ▸ List.mem_cons_of_mem _ hd)
    live := fun d hd => h.live d (List.mem_of_mem_erase hd) }

/-- A round of `runReadyThreads` starts. -/
theorem Wf.ready {s : State} (h : s.Wf) {n : Nat} {stack : List Frame}
    (hstack : s.stack = .ready n :: stack) (rounds : Nat) :
    { s with stack := .ready rounds :: stack }.Wf :=
  { h with frames := fun c t tid hc =>
      h.frames c t tid (hstack ▸ List.mem_cons_of_mem _ ((List.mem_cons.mp hc).resolve_left nofun)) }

/-- The state is well formed after every step. -/
theorem Wf.after {cfg : Config} {s s' : State} {e : Event} (h : s.Wf)
    (hstep : step cfg s e = some s') : s'.Wf := by
  have hpop : ∀ {f : Frame} {stack : List Frame}, s.stack = f :: stack →
      { s with stack }.Wf := fun hstack =>
    { h with frames := fun c t tid hc => h.frames c t tid (hstack ▸ List.mem_cons_of_mem _ hc) }
  cases h.steps hstep with
  | startUserThread => exact h.startUserThread
  | startSystemThread => exact h.startSystemThread cfg
  | resumeThreadId tid => exact h.resumeThreadId cfg tid
  | runReadyThreads limit =>
    refine { h with frames := fun c t tid hc => ?_ }
    exact h.frames c t tid ((List.mem_cons.mp hc).resolve_left nofun)
  | returned hstack => exact hpop hstack
  | runNext hstack => exact (h.ready hstack _).runNext cfg
  | join => exact { h with }
  | blocked hstack => exact ((hpop hstack).context none).afterResume
  | runnable m hstack =>
    have hc := h.frames _ _ _ (hstack ▸ List.mem_cons_self)
    exact (((hpop hstack).context none).addToRunQueue hc).afterResume
  | @endOfCall c t tid stack hstack =>
    have h'' := (h.erase (c := c) hstack).setCo (t := t)
      (y := ⟨(s.co t).calls + 1, (s.co t).dead, false⟩) rfl
    exact h''.ended cfg tid (some t)
  | @endOfThread _ c t tid stack he hstack =>
    have h'' := (h.erase (c := c) hstack).setCo (t := t) (y := ⟨(s.co t).calls, true, false⟩) rfl
    exact h''.ended cfg tid none

end State

end Luaw.Scheduler
