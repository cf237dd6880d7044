import Luaw.Foundations.LinkedQueue
import Luaw.Foundations.Transition
import Luaw.Scheduler.Quiet

/-!
# The run queue

The queue is linked through the contexts in it, one link in each, and contexts are added without
a look at whether they are in it. It stays a list exactly as long as none is added twice.
-/

namespace Luaw.Scheduler

open State LinkedQueue

def State.links (s : State) (c : CtxId) : Option CtxId := (s.ctx c).nextThread

/-- The links lead from the head through all contexts that were added and not taken, in the
order of addition, to the tail; and the length is theirs. -/
structure QueueIntact (s : State) : Prop where
  chain : Chain s.links s.runQueueHead s.queue
  tail : s.runQueueTail = s.queue.getLast?
  len : s.runQueueLen = s.queue.length

/-- No thread yields as runnable whose context is in the run queue. -/
def AddsNew (s : State) (e : Event) : Prop :=
  ∀ m c, e = .yield (some m) → s.running = some c → c ∉ s.queue

/-- The queue is intact, and the contexts outside it have no links. -/
structure QueueInv (s : State) : Prop where
  intact : QueueIntact s
  unlinked : ∀ c, c ∉ s.queue → s.links c = none

section Add

variable (s : State) (c : CtxId)

theorem addToRunQueue_queue : (s.addToRunQueue c).queue = s.queue ++ [c] := by
  rw [addToRunQueue]
  cases s.runQueueTail <;> rfl

theorem addToRunQueue_len : (s.addToRunQueue c).runQueueLen = s.runQueueLen + 1 := by
  rw [addToRunQueue]
  cases s.runQueueTail <;> rfl

theorem addToRunQueue_tail : (s.addToRunQueue c).runQueueTail = some c := by
  rw [addToRunQueue]
  cases s.runQueueTail <;> rfl

theorem addToRunQueue_head :
    (s.addToRunQueue c).runQueueHead =
      if s.runQueueTail.isNone then some c else s.runQueueHead := by
  rw [addToRunQueue]
  cases s.runQueueTail <;> rfl

theorem addToRunQueue_links_none (hnone : s.runQueueTail = none) :
    (s.addToRunQueue c).links = s.links := by
  funext d
  rw [addToRunQueue, hnone]
  exact setCtx_field _ c d _ ThreadCtx.nextThread rfl

theorem addToRunQueue_links_some {tail : CtxId} (hsome : s.runQueueTail = some tail) :
    (s.addToRunQueue c).links = Function.update s.links tail (some c) := by
  funext d
  rw [addToRunQueue, hsome]
  let s' := s.setCtx tail { s.ctx tail with nextThread := some c }
  have hstate : ((s'.setCtx c { s'.ctx c with state := TS_RUNNABLE }).ctx d).nextThread =
      (s'.ctx d).nextThread := setCtx_field s' c d _ ThreadCtx.nextThread rfl
  refine Eq.trans hstate ?_
  by_cases hd : d = tail
  · rw [hd, setCtx_self, Function.update_self]
  · rw [setCtx_ne _ _ _ _ hd, Function.update_of_ne hd]
    rfl

theorem dequeue_links : (s.dequeue c).links = Function.update s.links c none := by
  funext d
  show ((s.setCtx c { s.ctx c with nextThread := none }).ctx d).nextThread = _
  by_cases hd : d = c
  · rw [hd, setCtx_self, Function.update_self]
  · rw [setCtx_ne _ _ _ _ hd, Function.update_of_ne hd]
    rfl

end Add

theorem QueueInv.quiet {s s' : State} (h : QueueInv s) (hquiet : Quiet s s') : QueueInv s' := by
  have hlinks : s'.links = s.links := funext hquiet.nextThread
  obtain ⟨⟨hchain, htail, hlen⟩, hunlinked⟩ := h
  refine ⟨⟨?_, ?_, ?_⟩, ?_⟩
  · rw [hlinks, hquiet.head, hquiet.queue]
    exact hchain
  · rw [hquiet.tail, hquiet.queue]
    exact htail
  · rw [hquiet.len, hquiet.queue]
    exact hlen
  · rw [hlinks, hquiet.queue]
    exact hunlinked

theorem QueueInv.add {s : State} (h : QueueInv s) {c : CtxId} (hc : c ∉ s.queue) :
    QueueInv (s.addToRunQueue c) := by
  obtain ⟨⟨hchain, htail, hlen⟩, hunlinked⟩ := h
  have hlen' : (s.addToRunQueue c).runQueueLen = (s.queue ++ [c]).length := by
    rw [addToRunQueue_len, hlen, List.length_append, List.length_singleton]
  obtain hnil | ⟨queue, tail, hqueue⟩ := List.eq_nil_or_concat s.queue
  · -- the queue was empty
    have hnone : s.runQueueTail = none := by rw [htail, hnil]; rfl
    have hlinks := addToRunQueue_links_none s c hnone
    refine ⟨⟨?_, ?_, ?_⟩, ?_⟩
    · rw [addToRunQueue_queue, addToRunQueue_head, hnone, hlinks, hnil]
      refine .cons ?_
      rw [hunlinked c hc]
      exact .nil
    · rw [addToRunQueue_tail, addToRunQueue_queue, List.getLast?_concat]
    · rw [hlen', addToRunQueue_queue]
    · intro d hd
      rw [hlinks]
      rw [addToRunQueue_queue] at hd
      exact hunlinked d fun hmem => hd (List.mem_append_left _ hmem)
  · rw [List.concat_eq_append] at hqueue
    -- the old tail is linked to the context, which was linked to nothing
    have hsome : s.runQueueTail = some tail := by rw [htail, hqueue, List.getLast?_concat]
    have hlinks := addToRunQueue_links_some s c hsome
    rw [hqueue] at hchain
    refine ⟨⟨?_, ?_, ?_⟩, ?_⟩
    · rw [addToRunQueue_queue, addToRunQueue_head, hsome, hlinks, hqueue]
      exact hchain.concat (hqueue ▸ hc) (hunlinked c hc)
    · rw [addToRunQueue_tail, addToRunQueue_queue, List.getLast?_concat]
    · rw [hlen', addToRunQueue_queue]
    · intro d hd
      rw [addToRunQueue_queue, List.mem_append, not_or] at hd
      have htailmem : tail ∈ s.queue := by simp [hqueue]
      rw [hlinks, Function.update_of_ne (ne_of_mem_of_not_mem htailmem hd.1).symm]
      exact hunlinked d hd.1

theorem QueueInv.dequeue {s : State} (h : QueueInv s) {c : CtxId}
    (hhead : s.runQueueHead = some c) : QueueInv (s.dequeue c) := by
  obtain ⟨⟨hchain, htail, hlen⟩, hunlinked⟩ := h
  have hlinks := dequeue_links s c
  rw [hhead] at hchain
  cases hqueue : s.queue with
  | nil =>
    rw [hqueue] at hchain
    cases hchain
  | cons c' queue =>
    rw [hqueue] at hchain
    obtain rfl : c' = c := by
      cases hchain
      rfl
    have hrest : (s.dequeue c').queue = queue := by
      show s.queue.erase c' = queue
      rw [hqueue, List.erase_cons_head]
    refine ⟨⟨?_, ?_, ?_⟩, ?_⟩
    · rw [hrest, hlinks]
      exact hchain.tail
    · rw [hrest]
      -- the tail goes exactly when the head was the only element
      show (if (s.links c').isNone then none else s.runQueueTail) = queue.getLast?
      cases hchain with
      | cons hchain =>
        cases queue with
        | nil =>
          cases hchain' : s.links c' with
          | none => rfl
          | some d =>
            rw [hchain'] at hchain
            cases hchain
        | cons d queue =>
          cases hchain' : s.links c' with
          | none =>
            rw [hchain'] at hchain
            cases hchain
          | some e =>
            rw [htail, hqueue, List.getLast?_cons_cons]
            rfl
    · rw [hrest]
      show s.runQueueLen - 1 = queue.length
      rw [hlen, hqueue]
      rfl
    · intro d hd
      rw [hrest] at hd
      rw [hlinks]
      by_cases hdc : d = c'
      · rw [hdc, Function.update_self]
      · rw [Function.update_of_ne hdc]
        refine hunlinked d ?_
        rw [hqueue, List.mem_cons, not_or]
        exact ⟨hdc, hd⟩

theorem QueueInv.step {s s' : State} {e : Event} (h : QueueInv s) (hwf : s.Wf) (he : AddsNew s e)
    (hmoved : Moved s e s') : QueueInv s' := by
  have hnew : QueueInv { s with nctx := s.nctx + 1, live := s.live ++ [s.nctx] } :=
    ⟨⟨h.intact.chain, h.intact.tail, h.intact.len⟩, h.unlinked⟩
  cases hmoved with
  | user hquiet =>
    refine (hnew.add fun hmem => ?_).quiet hquiet
    exact absurd (hwf.queue s.nctx hmem) (lt_irrefl _)
  | system hquiet => exact hnew.quiet hquiet
  | quiet hquiet => exact h.quiet hquiet
  | dequeued hhead hquiet => exact (h.dequeue hhead).quiet hquiet
  | joined _ hquiet =>
    refine QueueInv.quiet ?_ hquiet
    exact ⟨⟨h.intact.chain, h.intact.tail, h.intact.len⟩, h.unlinked⟩
  | runnable m hrun hc hquiet => exact (h.add (he m _ rfl hrun)).quiet hquiet
  | ended hrun hquiet =>
    refine QueueInv.quiet ?_ hquiet
    exact ⟨⟨h.intact.chain, h.intact.tail, h.intact.len⟩, h.unlinked⟩

/-- In a run, the queue is intact at every point exactly when no thread yields as runnable while
its context is in the queue. -/
theorem queue_intact_iff (cfg : Config) (es : List Event) :
    Transition.Always (step cfg) QueueIntact init es ↔
      Transition.Guarded (step cfg) AddsNew init es := by
  refine Transition.always_iff_guarded (I := fun s => s.Wf ∧ QueueInv s)
    ⟨wf_init, ⟨.nil, rfl, rfl⟩, fun _ _ => rfl⟩ (fun s h => h.2.intact) ?_ ?_
  · intro s e s' h he hstep
    exact ⟨h.1.after hstep, h.2.step h.1 he (h.1.moved hstep)⟩
  · intro s e s' h he hstep hintact
    refine he fun m c heq hrun hmem => ?_
    subst heq
    cases h.1.steps hstep with
    | @runnable c' t tid stack _ hstack =>
      have hc : c' = c := by
        rw [State.running, hstack] at hrun
        exact Option.some.inj hrun
      have hnodup := hintact.chain.nodup
      change (({ s with stack, context := none }).addToRunQueue c').queue.Nodup at hnodup
      rw [addToRunQueue_queue, hc] at hnodup
      exact (List.nodup_append.mp hnodup).2.2 c hmem c List.mem_cons_self rfl
    | endOfThread heq => obtain heq | heq := heq <;> cases heq

/-- A thread that yields as runnable, is resumed by an event before its turn comes, and yields
again, is linked to itself. -/
theorem queued_twice :
    ¬Transition.Always (step ⟨16, 16⟩) QueueIntact init
      [.startSystemThread, .yield (some .other), .resumeThreadId (.num 1), .yield (some .other)] := by
  intro h
  have hintact : QueueIntact _ := (((h.2 _ rfl).2 _ rfl).2 _ rfl).2 _ rfl
  have hnodup := hintact.chain.nodup
  exact absurd hnodup (by decide)

end Luaw.Scheduler
