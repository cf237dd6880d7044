import Luaw.Scheduler.RunQueue

/-!
# The call of `runReadyThreads`

Since the state of every context is nil, and so is `TS_DONE`, the contexts that are taken from
the run queue are all left alone as if they had finished.
-/

namespace Luaw.Scheduler

open State LinkedQueue

/-- From here to where `depth` calls are in progress. -/
inductive Returns (cfg : Config) (depth : Nat) : State → State → Prop where
  | done {s : State} (hdepth : s.stack.length = depth) : Returns cfg depth s s
  | next {s s' s'' : State} {e : Event} (hdepth : s.stack.length ≠ depth)
      (hstep : step cfg s e = some s') (h : Returns cfg depth s' s'') : Returns cfg depth s s''

/-- A call of `runReadyThreads` without limit, until it returns. -/
def ReadyCall (cfg : Config) (s s' : State) : Prop :=
  ∃ s₁, step cfg s (.runReadyThreads none) = some s₁ ∧ Returns cfg s.stack.length s₁ s'

/-- What was in the queue has been taken from it in order, `added` are in it now, and each context
that was taken was resumed once, unless it had finished. -/
structure Ran (s s' : State) (taken : List Dequeue) (added : List CtxId) : Prop where
  dequeues : s'.dequeues = s.dequeues ++ taken
  fifo : taken.map Dequeue.ctx = s.queue
  finished : ∀ d ∈ taken, d.finished = true → d.resumed = false
  resumed : ∀ d ∈ taken, d.finished = false →
    taken.countP (fun d' => d'.ctx = d.ctx ∧ d'.resumed) = 1
  queue : s'.queue = added
  left : Drains s'.links s'.runQueueHead added

/-- `c` was made by a `startUserThread` of the run, and `runReadyThreads` has not been called
without limit since then. -/
def Awaits (cfg : Config) (es : List Event) (c : CtxId) : Prop :=
  ∃ before after s, es = before ++ .startUserThread :: after ∧
    Transition.exec (step cfg) init before = some s ∧ c = s.nctx ∧ .runReadyThreads none ∉ after

/-- A call runs the queue, and with it every function that awaits its first call. -/
def RunsReady (cfg : Config) (es : List Event) (s s' : State) : Prop :=
  ∃ taken added, Ran s s' taken added ∧
    ∀ c, Awaits cfg es c → taken.countP (fun d => d.ctx = c ∧ d.resumed) = 1

/-- The queue has a tail when it has a head, and no more links than its length allows. -/
structure Bounded (s : State) : Prop where
  ends : s.runQueueHead.isNone = s.runQueueTail.isNone
  links : ∃ linked : Finset CtxId, (∀ c, s.links c ≠ none → c ∈ linked) ∧
    linked.card + (if s.runQueueHead.isSome then 1 else 0) ≤ s.runQueueLen

theorem bounded_init : Bounded init := ⟨rfl, ∅, fun _ h => absurd rfl h, le_rfl⟩

theorem Bounded.quiet {s s' : State} (h : Bounded s) (hquiet : Quiet s s') : Bounded s' := by
  have hlinks : s'.links = s.links := funext hquiet.nextThread
  refine ⟨?_, ?_⟩
  · rw [hquiet.head, hquiet.tail]
    exact h.ends
  · rw [hlinks, hquiet.head, hquiet.len]
    exact h.links

theorem Bounded.add {s : State} (h : Bounded s) (c : CtxId) : Bounded (s.addToRunQueue c) := by
  obtain ⟨hends, linked, hlinked, hcard⟩ := h
  obtain htail | ⟨tail, htail⟩ := Option.eq_none_or_eq_some s.runQueueTail
  · refine ⟨?_, linked, ?_, ?_⟩
    · rw [addToRunQueue_head, addToRunQueue_tail, htail]
      rfl
    · rw [addToRunQueue_links_none s c htail]
      exact hlinked
    · rw [addToRunQueue_head, addToRunQueue_len, htail]
      exact Nat.add_le_add_right ((Nat.le_add_right _ _).trans hcard) 1
  · rw [htail] at hends
    have hhead : (s.addToRunQueue c).runQueueHead = s.runQueueHead := by
      rw [addToRunQueue_head, htail]
      rfl
    have hsome : s.runQueueHead.isSome = true := by
      rw [← Option.not_isNone, hends]
      rfl
    refine ⟨?_, insert tail linked, fun d hd => ?_, ?_⟩
    · rw [hhead, hends, addToRunQueue_tail]
      rfl
    · rw [addToRunQueue_links_some s c htail] at hd
      by_cases hdtail : d = tail
      · exact hdtail ▸ Finset.mem_insert_self tail linked
      · rw [Function.update_of_ne hdtail] at hd
        exact Finset.mem_insert_of_mem (hlinked d hd)
    · rw [hhead, addToRunQueue_len]
      have hinsert := Finset.card_insert_le tail linked
      omega

theorem Bounded.dequeue {s : State} (h : Bounded s) {c : CtxId} (hhead : s.runQueueHead = some c) :
    Bounded (s.dequeue c) := by
  obtain ⟨hends, linked, hlinked, hcard⟩ := h
  rw [hhead] at hends hcard
  have hcleared : ∀ d, (s.dequeue c).links d ≠ none → d ∈ linked.erase c := by
    intro d hd
    rw [dequeue_links] at hd
    by_cases hdc : d = c
    · rw [hdc, Function.update_self] at hd
      exact absurd rfl hd
    · rw [Function.update_of_ne hdc] at hd
      exact Finset.mem_erase.mpr ⟨hdc, hlinked d hd⟩
  change linked.card + 1 ≤ s.runQueueLen at hcard
  refine ⟨?_, linked.erase c, hcleared, ?_⟩
  · show (s.links c).isNone = (if (s.links c).isNone then none else s.runQueueTail).isNone
    cases hnext : (s.links c).isNone with
    | true => rfl
    | false => exact hends
  · show _ + (if (s.links c).isSome then 1 else 0) ≤ s.runQueueLen - 1
    cases hnext : s.links c with
    | none =>
      have hle : (linked.erase c).card ≤ linked.card := Finset.card_erase_le
      simp only [Option.isSome_none, Bool.false_eq_true, if_false]
      omega
    | some d =>
      have hmem : c ∈ linked := hlinked c (hnext ▸ Option.some_ne_none d)
      have hlt := Finset.card_erase_lt_of_mem hmem
      simp only [Option.isSome_some, if_true]
      omega

theorem Bounded.step {s s' : State} {e : Event} (h : Bounded s) (hmoved : Moved s e s') :
    Bounded s' := by
  cases hmoved with
  | user hquiet =>
    have hnew : Bounded { s with nctx := s.nctx + 1, live := s.live ++ [s.nctx] } :=
      ⟨h.ends, h.links⟩
    exact (hnew.add s.nctx).quiet hquiet
  | system hquiet =>
    refine Bounded.quiet ?_ hquiet
    exact ⟨h.ends, h.links⟩
  | quiet hquiet => exact h.quiet hquiet
  | dequeued hhead hquiet => exact (h.dequeue hhead).quiet hquiet
  | joined _ hquiet =>
    refine Bounded.quiet ?_ hquiet
    exact ⟨h.ends, h.links⟩
  | runnable m hrun hc hquiet => exact (h.add _).quiet hquiet
  | ended hrun hquiet =>
    refine Bounded.quiet ?_ hquiet
    exact ⟨h.ends, h.links⟩

/-- The rounds of `runReadyThreads`. -/
def State.takes : Nat → State → State
  | 0, s => s
  | n + 1, s =>
    match s.runQueueHead with
    | none => takes n s
    | some c => takes n (s.dequeue c)

theorem takes_none {n : Nat} {s : State} (hhead : s.runQueueHead = none) :
    s.takes (n + 1) = s.takes n := by rw [takes, hhead]

theorem takes_some {n : Nat} {s : State} {c : CtxId} (hhead : s.runQueueHead = some c) :
    s.takes (n + 1) = (s.dequeue c).takes n := by rw [takes, hhead]

/-- After as many rounds as the queue needs it is empty, and nothing has been resumed. -/
theorem takes_drains {n : Nat} {s : State} {w : List CtxId}
    (h : Drains s.links s.runQueueHead w) (hn : w.length ≤ n) :
    (s.takes n).dequeues = s.dequeues ++ w.map (fun c => ⟨c, c ∉ s.live, false⟩) ∧
      (s.takes n).queue = w.foldl List.erase s.queue ∧ (s.takes n).runQueueHead = none := by
  induction n generalizing s w with
  | zero =>
    obtain rfl := List.eq_nil_of_length_eq_zero (Nat.le_zero.mp hn)
    refine ⟨(List.append_nil _).symm, rfl, ?_⟩
    obtain hhead | ⟨c, hhead⟩ := Option.eq_none_or_eq_some s.runQueueHead
    · exact hhead
    · rw [hhead] at h
      cases h
  | succ n ih =>
    obtain hhead | ⟨c, hhead⟩ := Option.eq_none_or_eq_some s.runQueueHead
    · rw [hhead] at h
      cases h
      rw [takes_none hhead]
      refine ih ?_ (Nat.zero_le n)
      rw [hhead]
      exact .nil
    · rw [hhead] at h
      cases h with
      | @cons _ _ w h =>
        rw [List.length_cons] at hn
        have hrest : Drains (s.dequeue c).links (s.dequeue c).runQueueHead w := by
          rw [dequeue_links]
          exact h
        obtain ⟨hdequeues, hqueue, hnone⟩ := ih hrest (by omega)
        rw [takes_some hhead]
        refine ⟨?_, hqueue, hnone⟩
        rw [hdequeues, List.map_cons]
        exact List.append_assoc _ [_] _

theorem takes_succ (n : Nat) (s : State) : s.takes (n + 1) = (s.takes 1).takes n := by
  rw [takes, takes]
  cases s.runQueueHead <;> rfl

/-- The rounds have nothing to do with the calls in progress. -/
theorem takes_stack (n : Nat) (s : State) (stack : List Frame) :
    { s with stack }.takes n = { s.takes n with stack } := by
  induction n generalizing s with
  | zero => rfl
  | succ n ih =>
    obtain hhead | ⟨c, hhead⟩ := Option.eq_none_or_eq_some s.runQueueHead
    · rw [takes_none hhead, takes_none (s := { s with stack }) hhead]
      exact ih s
    · rw [takes_some hhead, takes_some (s := { s with stack }) hhead]
      exact ih (s.dequeue c)

theorem runNext_takes (cfg : Config) {s : State} (hwf : s.Wf) :
    s.runNextFromRunQueue cfg = s.takes 1 := by
  obtain hhead | ⟨c, hhead⟩ := Option.eq_none_or_eq_some s.runQueueHead
  · rw [runNextFromRunQueue, hhead, takes_none hhead]
    rfl
  · rw [hwf.runNext_eq cfg hhead, takes_some hhead]
    rfl

/-- In `runReadyThreads` nothing is executed but its rounds. -/
theorem ready_step {cfg : Config} {s s' : State} {stack : List Frame} {n : Nat} {e : Event}
    (hwf : s.Wf) (hstack : s.stack = .ready n :: stack) (hstep : step cfg s e = some s') :
    n = 0 ∧ s' = { s with stack } ∨
      ∃ m, n = m + 1 ∧ s' = { s.takes 1 with stack := .ready m :: stack } := by
  have hcall : ¬s.callable = true := by
    rw [callable, hstack]
    exact Bool.false_ne_true
  cases hwf.steps hstep with
  | startUserThread h => exact absurd h hcall
  | startSystemThread h => exact absurd h hcall
  | resumeThreadId tid h => exact absurd h hcall
  | runReadyThreads limit h => exact absurd h hcall
  | returned h =>
    cases hstack.symm.trans h
    exact .inl ⟨rfl, rfl⟩
  | runNext h =>
    cases hstack.symm.trans h
    rw [runNext_takes cfg (hwf.ready h _), takes_stack]
    exact .inr ⟨_, rfl, rfl⟩
  | join h => cases hstack.symm.trans h
  | blocked h => cases hstack.symm.trans h
  | runnable m h => cases hstack.symm.trans h
  | endOfCall h => cases hstack.symm.trans h
  | endOfThread _ h => cases hstack.symm.trans h

/-- A call that has begun takes its rounds and returns. -/
theorem returns_takes (cfg : Config) {s s' : State} {stack : List Frame} {n : Nat} (hwf : s.Wf)
    (hstack : s.stack = .ready n :: stack) :
    Returns cfg stack.length s s' ↔ s' = { s.takes n with stack } := by
  have hdepth : s.stack.length ≠ stack.length := by
    rw [hstack, List.length_cons]
    omega
  induction n generalizing s with
  | zero =>
    have hstep : step cfg s .runNext = some { s with stack } := by rw [step, hstack]
    constructor
    · intro h
      cases h with
      | done h => exact absurd h hdepth
      | next _ hnext h =>
        obtain ⟨-, rfl⟩ | ⟨m, hm, -⟩ := ready_step hwf hstack hnext
        · cases h with
          | done => rfl
          | next h => exact absurd rfl h
        · cases hm
    · rintro rfl
      exact .next hdepth hstep (.done rfl)
  | succ n ih =>
    have hstep : step cfg s .runNext = some { s.takes 1 with stack := .ready n :: stack } := by
      rw [step, hstack]
      exact congrArg some ((runNext_takes cfg (hwf.ready hstack n)).trans (takes_stack 1 s _))
    have hrest := ih (s := { s.takes 1 with stack := .ready n :: stack }) (hwf.after hstep) rfl
      (by simp)
    have htakes : { { s.takes 1 with stack := Frame.ready n :: stack }.takes n with stack } =
        { s.takes (n + 1) with stack } := by
      rw [takes_succ n s, takes_stack n (s.takes 1)]
    rw [htakes] at hrest
    refine Iff.trans ⟨fun h => ?_, .next hdepth hstep⟩ hrest
    · cases h with
      | done h => exact absurd h hdepth
      | next _ hnext h =>
        obtain ⟨hzero, -⟩ | ⟨m, hm, rfl⟩ := ready_step hwf hstack hnext
        · cases hzero
        · cases hm
          exact h

/-- The call in one step: the rounds are as many as the queue is long. -/
theorem readyCall_iff (cfg : Config) {s s' : State} (hwf : s.Wf) (hcall : s.callable = true) :
    ReadyCall cfg s s' ↔ s' = { s.takes s.runQueueLen with stack := s.stack } := by
  let s₁ : State := { s with stack := .ready s.runQueueLen :: s.stack }
  have hstep : step cfg s (.runReadyThreads none) = some s₁ := if_pos hcall
  have hreturns : Returns cfg s.stack.length s₁ s' ↔ _ :=
    returns_takes cfg (hwf.after hstep) rfl
  rw [takes_stack] at hreturns
  constructor
  · rintro ⟨s₂, hcall, h⟩
    cases hstep.symm.trans hcall
    exact hreturns.mp h
  · exact fun h => ⟨s₁, hstep, hreturns.mpr h⟩

theorem foldl_erase_self (w : List CtxId) : w.foldl List.erase w = [] := by
  induction w with
  | nil => rfl
  | cons c w ih => rw [List.foldl_cons, List.erase_cons_head, ih]

/-- A call of `runReadyThreads` returns. It takes exactly what is in the queue and resumes each
context once that has not finished, those of newly started threads among them, exactly when the
links lead through the whole queue, everything in it has finished, and no thread is newly started. -/
theorem ready_run_iff (cfg : Config) (es : List Event) {s : State}
    (hreach : Transition.exec (step cfg) init es = some s) (hcall : s.callable = true) :
    (∃ s', ReadyCall cfg s s') ∧
      ((∀ s', ReadyCall cfg s s' → RunsReady cfg es s s') ↔
        Drains s.links s.runQueueHead s.queue ∧ (∀ c ∈ s.queue, c ∉ s.live) ∧
          ∀ c, ¬Awaits cfg es c) := by
  have hinv : s.Wf ∧ Bounded s :=
    (Transition.always_of_invariant (I := fun s => s.Wf ∧ Bounded s) ⟨wf_init, bounded_init⟩
      fun s e s' h hstep => ⟨h.1.after hstep, h.2.step (h.1.moved hstep)⟩).of_exec hreach
  obtain ⟨hwf, -, linked, hlinked, hcard⟩ := hinv
  -- the rounds are enough for everything that comes off the links
  obtain ⟨w, hdrains, hlen⟩ := exists_drains linked hlinked s.runQueueHead
  obtain ⟨hdequeues, hqueue, hnone⟩ := takes_drains hdrains (hlen.trans hcard)
  have hreturn : ∀ s', ReadyCall cfg s s' ↔ s' = { s.takes s.runQueueLen with stack := s.stack } :=
    fun s' => readyCall_iff cfg hwf hcall
  have hctx : (w.map fun c => (⟨c, c ∉ s.live, false⟩ : Dequeue)).map Dequeue.ctx = w := by
    rw [List.map_map]
    exact List.map_id w
  have hnever : ∀ c, (w.map fun c => (⟨c, c ∉ s.live, false⟩ : Dequeue)).countP
      (fun d => d.ctx = c ∧ d.resumed) = 0 := by
    intro c
    rw [List.countP_map]
    exact List.countP_eq_zero.mpr (by simp)
  refine ⟨⟨_, (hreturn _).mpr rfl⟩, fun h => ?_, fun ⟨hwhole, hfinished, hnew⟩ s' hcall => ?_⟩
  · obtain ⟨taken, added, hran, hstarted⟩ := h _ ((hreturn _).mpr rfl)
    obtain rfl := List.append_cancel_left (hran.dequeues.symm.trans hdequeues)
    have hw : w = s.queue := hctx.symm.trans hran.fifo
    refine ⟨hw ▸ hdrains, fun c hc hlive => ?_, fun c hc => ?_⟩
    · have hd := List.mem_map_of_mem (f := fun c => (⟨c, c ∉ s.live, false⟩ : Dequeue)) (hw ▸ hc)
      have hcount := hran.resumed _ hd (decide_eq_false (not_not.mpr hlive))
      rw [hnever] at hcount
      cases hcount
    · have hcount := hstarted c hc
      rw [hnever] at hcount
      cases hcount
  · obtain rfl := hdrains.unique hwhole
    rw [(hreturn s').mp hcall]
    refine ⟨s.queue.map fun c => ⟨c, c ∉ s.live, false⟩, [], ⟨hdequeues, hctx, ?_, ?_, ?_, ?_⟩,
      fun c hc => absurd hc (hnew c)⟩
    · intro d hd _
      obtain ⟨c, -, rfl⟩ := List.mem_map.mp hd
      rfl
    · intro d hd hunfinished
      obtain ⟨c, hc, rfl⟩ := List.mem_map.mp hd
      exact absurd (hfinished c hc) (of_decide_eq_false hunfinished)
    · exact hqueue.trans (foldl_erase_self s.queue)
    · show Drains _ (s.takes s.runQueueLen).runQueueHead []
      rw [hnone]
      exact .nil

theorem ready_run_started :
    (∃ s', ReadyCall ⟨16, 16⟩ init.startUserThread s') ∧
      ((∀ s', ReadyCall ⟨16, 16⟩ init.startUserThread s' →
          RunsReady ⟨16, 16⟩ [.startUserThread] init.startUserThread s') ↔
        Drains init.startUserThread.links init.startUserThread.runQueueHead
            init.startUserThread.queue ∧
          (∀ c ∈ init.startUserThread.queue, c ∉ init.startUserThread.live) ∧
            ∀ c, ¬Awaits ⟨16, 16⟩ [.startUserThread] c) :=
  ready_run_iff ⟨16, 16⟩ [.startUserThread] rfl rfl

/-- A thread is started, and is not run. -/
theorem started_not_run :
    ¬∀ es s, Transition.exec (step ⟨16, 16⟩) init es = some s → s.callable = true → ∀ s',
      ReadyCall ⟨16, 16⟩ s s' → RunsReady ⟨16, 16⟩ es s s' := by
  intro h
  have hran := h [.startUserThread] init.startUserThread rfl rfl
    { init.startUserThread.takes 1 with stack := [] }
    ((readyCall_iff ⟨16, 16⟩ wf_init.startUserThread rfl).mpr rfl)
  obtain ⟨taken, added, hran, -⟩ := hran
  obtain rfl : taken = [⟨0, false, false⟩] := hran.dequeues.symm
  exact absurd (hran.resumed _ List.mem_cons_self rfl) (by decide)

end Luaw.Scheduler
