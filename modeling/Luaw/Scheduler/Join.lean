import Luaw.Foundations.Transition
import Luaw.Scheduler.Quiet

/-!
# Joining threads

`scheduler.join` tests `joininTC`, which nothing assigns, where it means `joiningTC`, and so
returns at once, whatever threads it is given.
-/

namespace Luaw.Scheduler

open State

/-- A join that has returned named threads that have finished; and when the threads that a join
names have all finished, it has returned or its thread is in the run queue or running. -/
def JoinsKept (s : State) : Prop :=
  ∀ call ∈ s.joins,
    (call.returned = true → ∀ d ∈ call.joined, d ∉ s.live) ∧
      ((∀ d ∈ call.joined, d ∉ s.live) →
        call.returned = true ∨ call.joiner ∈ s.queue ∨
          ∃ t tid, .thread call.joiner t tid ∈ s.stack)

/-- The step is no join of a thread that has not finished. -/
def JoinsFinished (s : State) (e : Event) : Prop :=
  ∀ joined, e = .join joined → ∀ d ∈ joined, d ∉ s.live

/-- All joins so far have returned, from threads that had finished. -/
def JoinsPast (s : State) : Prop :=
  ∀ call ∈ s.joins, call.returned = true ∧ ∀ d ∈ call.joined, d < s.nctx ∧ d ∉ s.live

theorem JoinsPast.kept {s : State} (h : JoinsPast s) : JoinsKept s :=
  fun call hcall => ⟨fun _ d hd => ((h call hcall).2 d hd).2, fun _ => .inl (h call hcall).1⟩

/-- No new thread is one that has finished. -/
theorem JoinsPast.later {s s' : State} (h : JoinsPast s) (hjoins : s'.joins = s.joins)
    (hnctx : s.nctx ≤ s'.nctx) (hlive : ∀ d ∈ s'.live, d ∈ s.live ∨ s.nctx ≤ d) :
    JoinsPast s' := by
  intro call hcall
  obtain ⟨hreturned, hjoined⟩ := h call (hjoins ▸ hcall)
  refine ⟨hreturned, fun d hd => ?_⟩
  obtain ⟨hmade, hdone⟩ := hjoined d hd
  refine ⟨hmade.trans_le hnctx, fun hd' => ?_⟩
  obtain hd' | hd' := hlive d hd'
  · exact hdone hd'
  · exact absurd hmade (not_lt.mpr hd')

theorem addToRunQueue_joins (s : State) (c : CtxId) :
    (s.addToRunQueue c).joins = s.joins ∧ (s.addToRunQueue c).nctx = s.nctx ∧
      (s.addToRunQueue c).live = s.live := by
  rw [addToRunQueue]
  cases s.runQueueTail <;> exact ⟨rfl, rfl, rfl⟩

theorem JoinsPast.step {s s' : State} {e : Event} (h : JoinsPast s) (he : JoinsFinished s e)
    (hmoved : Moved s e s') : JoinsPast s' := by
  have hnew : ∀ d ∈ s.live ++ [s.nctx], d ∈ s.live ∨ s.nctx ≤ d := by
    intro d hd
    obtain hd | hd := List.mem_append.mp hd
    · exact .inl hd
    · exact .inr (List.mem_singleton.mp hd).ge
  cases hmoved with
  | user hquiet =>
    obtain ⟨hjoins, hnctx, hlive⟩ := addToRunQueue_joins
      { s with nctx := s.nctx + 1, live := s.live ++ [s.nctx] } s.nctx
    refine h.later (hquiet.joins.trans hjoins) ?_ ?_
    · rw [hquiet.nctx, hnctx]
      exact Nat.le_succ _
    · rw [hquiet.live, hlive]
      exact hnew
  | system hquiet =>
    refine h.later hquiet.joins ?_ ?_
    · rw [hquiet.nctx]
      exact Nat.le_succ _
    · rw [hquiet.live]
      exact hnew
  | quiet hquiet =>
    exact h.later hquiet.joins hquiet.nctx.ge fun d hd => .inl (hquiet.live ▸ hd)
  | dequeued hhead hquiet =>
    exact h.later hquiet.joins hquiet.nctx.ge fun d hd => .inl (hquiet.live ▸ hd)
  -- only here a join is added, of threads that have finished by assumption
  | @joined c joined _ hjoined hquiet =>
    intro call hcall
    rw [hquiet.joins] at hcall
    rw [hquiet.nctx, hquiet.live]
    obtain hcall | hcall := List.mem_append.mp hcall
    · exact h call hcall
    · rw [List.mem_singleton.mp hcall]
      exact ⟨rfl, fun d hd => ⟨hjoined d hd, he joined rfl d hd⟩⟩
  | @runnable c _ m hrun hc hquiet =>
    obtain ⟨hjoins, hnctx, hlive⟩ := addToRunQueue_joins s c
    refine h.later (hquiet.joins.trans hjoins) (hquiet.nctx.trans hnctx).ge fun d hd => .inl ?_
    rwa [hquiet.live, hlive] at hd
  | ended hrun hquiet =>
    refine h.later hquiet.joins hquiet.nctx.ge fun d hd => .inl ?_
    rw [hquiet.live] at hd
    exact List.mem_of_mem_erase hd

/-- In a run, no join returns early and none is left waiting exactly when every join names
threads only that have finished. -/
theorem joins_kept_iff (cfg : Config) (es : List Event) :
    Transition.Always (step cfg) JoinsKept init es ↔
      Transition.Guarded (step cfg) JoinsFinished init es := by
  refine Transition.always_iff_guarded (I := fun s => s.Wf ∧ JoinsPast s) ⟨wf_init, nofun⟩
    (fun s h => h.2.kept) ?_ ?_
  · intro s e s' h he hstep
    exact ⟨h.1.after hstep, h.2.step he (h.1.moved hstep)⟩
  · intro s e s' h he hstep hkept
    refine he fun joined heq d hd hlive => ?_
    subst heq
    cases h.1.steps hstep with
    | @join c t tid stack _ hstack hjoined =>
      have hcall : ⟨c, joined, true⟩ ∈ s.joins ++ [⟨c, joined, true⟩] := by simp
      exact (hkept _ hcall).1 rfl d hd hlive
    | endOfThread heq => exact heq.elim nofun nofun

/-- A system thread joins a user thread that has not run. -/
theorem join_returns_early :
    ¬Transition.Always (step ⟨16, 16⟩) JoinsKept init
      [.startUserThread, .startSystemThread, .join [0]] := by
  intro h
  have hkept : JoinsKept _ := ((h.2 _ rfl).2 _ rfl).2 _ rfl
  exact (hkept ⟨1, [0], true⟩ List.mem_cons_self).1 rfl 0 List.mem_cons_self List.mem_cons_self

end Luaw.Scheduler
