import Luaw.DataStructs.RingBuffer
import Luaw.Foundations.Transition

/-!
# Histories of ring buffers

Each kind of ring buffer is run beside its bounded queue. The waiting operations are run by any
number of coroutines, which take turns at their yields.
-/

namespace Luaw.RingBuffer

open BoundedQueue (Log)

inductive Operation (α : Type) where
  | offer (obj : α)
  | take

section Definitions

variable {α : Type}

/-- A buffer of `newRingBuffer` and a bounded queue of its size. -/
def queueStep (s : RingBuffer α × List α) : Operation α → Option (RingBuffer α × List α)
  | .offer obj => some ((s.1.offer obj).2, (BoundedQueue.offer s.1.size s.2 obj).2)
  | .take => some (s.1.take.2, (BoundedQueue.take s.2).2)

/-- A buffer of `newOverwrittingRingBuffer` and the log of a displacing queue of its size. -/
def overwriteStep (s : RingBuffer α × Log α) : Operation α → Option (RingBuffer α × Log α)
  | .offer obj => some ((s.1.offerWithOverwrite obj).2, s.2.displace s.1.size obj)
  | .take => some (s.1.take.2, s.2.take)

/-- A buffer of `newBlockingRingBuffer`, the operation each coroutine waits in, the objects whose
offers have returned and the objects that takes have returned. -/
structure Clients (α : Type) where
  rb : RingBuffer α
  waiting : Nat → Option (Operation α)
  offered : List α
  delivered : List α

def Clients.start (rb : RingBuffer α) : Clients α := ⟨rb, fun _ => none, [], []⟩

/-- The coroutine runs until it returns from the operation or yields in it. -/
def Clients.turn (s : Clients α) (co : Nat) : Operation α → Clients α
  | .offer obj =>
    match s.rb.offerWithWait obj with
    | (.returned _, rb) =>
      { s with rb, waiting := Function.update s.waiting co none, offered := s.offered ++ [obj] }
    | (.yielded, rb) =>
      { s with rb, waiting := Function.update s.waiting co (some (.offer obj)) }
  | .take =>
    match s.rb.takeWithWait with
    | (.returned obj, rb) =>
      { s with rb, waiting := Function.update s.waiting co none, delivered := s.delivered ++ [obj] }
    | (.yielded, rb) => { s with rb, waiting := Function.update s.waiting co (some .take) }

inductive Clients.Event (α : Type) where
  | call (co : Nat) (op : Operation α)
  | resume (co : Nat)

def Clients.step (s : Clients α) : Clients.Event α → Option (Clients α)
  | .call co op => if (s.waiting co).isNone then some (s.turn co op) else none
  | .resume co => (s.waiting co).map (s.turn co)

def WriterAhead (rb : RingBuffer α) : Prop := rb.writer = (rb.reader - 1 + rb.filled) % rb.size + 1

/-- The buffer is a queue of at most `size` objects. -/
structure IsQueue (size : Nat) (s : RingBuffer α × List α) : Prop where
  offer : ∀ obj, (s.1.offer obj).1 = (BoundedQueue.offer size s.2 obj).1
  take : s.1.take.1 = (BoundedQueue.take s.2).1
  full : s.2.length = size → ∀ obj, s.1.offer obj = (false, s.1)
  empty : s.2 = [] → s.1.take = (none, s.1)
  bound : s.2.length ≤ size
  writer : s.1.WriterAhead

/-- Every offer is stored, and the buffer has the last `size` objects that were not taken. -/
structure IsOverwriting (size : Nat) (s : RingBuffer α × Log α) : Prop where
  offer : ∀ obj, (s.1.offerWithOverwrite obj).1 = (BoundedQueue.displace size s.2.held obj).1
  stored : ∀ obj, ∃ kept, (s.1.offerWithOverwrite obj).2.Holds (kept ++ [obj])
  take : s.1.take.1 = (BoundedQueue.take s.2.held).1
  holds : s.1.Holds (s.2.untaken size)
  order : s.2.departed.map Prod.fst ++ s.2.untaken size = s.2.offered
  bound : (s.2.untaken size).length ≤ size
  writer : s.1.WriterAhead

/-- What was offered is delivered in that order or still held, and only a full or an empty buffer
makes a coroutine wait. -/
structure Delivers (size : Nat) (s : Clients α) (held : List α) : Prop where
  holds : s.rb.Holds held
  order : s.delivered ++ held = s.offered
  bound : held.length ≤ size
  offers : held.length < size → ∀ obj, (s.rb.offerWithWait obj).1 = .returned true
  waits : held.length = size → ∀ obj, s.rb.offerWithWait obj = (.yielded, s.rb)
  takes : ∀ x ∈ held.head?, s.rb.takeWithWait.1 = .returned x
  starves : held = [] → s.rb.takeWithWait = (.yielded, s.rb)
  drains : ∀ co, s.waiting co = none → ∃ s',
    Transition.exec Clients.step s (List.replicate held.length (.call co .take)) = some s' ∧
      s'.delivered = s.offered
  writer : s.rb.WriterAhead

end Definitions

section Invariants

variable {α : Type} {size : Nat}

theorem queueStep_holds {s s' : RingBuffer α × List α} {op : Operation α}
    (h : s.1.Holds s.2 ∧ s.1.size = size) (hstep : queueStep s op = some s') :
    s'.1.Holds s'.2 ∧ s'.1.size = size := by
  cases op with
  | offer obj =>
    cases hstep
    obtain ⟨-, hholds, hsize⟩ := h.1.offer obj
    exact ⟨hholds, hsize.trans h.2⟩
  | take =>
    cases hstep
    obtain ⟨-, hholds, hsize⟩ := h.1.take
    exact ⟨hholds, hsize.trans h.2⟩

theorem isQueue {s : RingBuffer α × List α} (h : s.1.Holds s.2 ∧ s.1.size = size) :
    IsQueue size s := by
  obtain ⟨hholds, rfl⟩ := h
  refine ⟨fun obj => (hholds.offer obj).1, hholds.take.1, fun hfull obj => ?_, fun hempty => ?_,
    hholds.bound, hholds.writer⟩
  · exact hholds.offer_full hfull obj
  · rw [hempty] at hholds
    exact hholds.take_empty

theorem overwriteStep_holds {s s' : RingBuffer α × Log α} {op : Operation α}
    (h : s.1.Holds s.2.held ∧ s.2.Ordered size ∧ s.1.size = size)
    (hstep : overwriteStep s op = some s') :
    s'.1.Holds s'.2.held ∧ s'.2.Ordered size ∧ s'.1.size = size := by
  obtain ⟨hheld, hordered, rfl⟩ := h
  cases op with
  | offer obj =>
    cases hstep
    obtain ⟨-, hholds, hsize⟩ := hheld.offerWithOverwrite obj
    exact ⟨hholds, hordered.displace hheld.pos obj, hsize⟩
  | take =>
    cases hstep
    obtain ⟨-, hholds, hsize⟩ := hheld.take
    exact ⟨hholds, hordered.take, hsize⟩

/-- The new object is the youngest, whether or not another one had to go. -/
theorem displace_last (size : Nat) (xs : List α) (obj : α) :
    ∃ kept, (BoundedQueue.displace size xs obj).2 = kept ++ [obj] := by
  rw [BoundedQueue.displace]
  split
  · exact ⟨xs, rfl⟩
  · exact ⟨xs.tail, rfl⟩

theorem isOverwriting {s : RingBuffer α × Log α}
    (h : s.1.Holds s.2.held ∧ s.2.Ordered size ∧ s.1.size = size) : IsOverwriting size s := by
  obtain ⟨hheld, hordered, rfl⟩ := h
  have huntaken := hordered.held_eq
  refine ⟨fun obj => (hheld.offerWithOverwrite obj).1, fun obj => ?_, hheld.take.1,
    huntaken ▸ hheld, huntaken ▸ hordered.order, huntaken ▸ hordered.bound, hheld.writer⟩
  obtain ⟨kept, hkept⟩ := displace_last s.1.size s.2.held obj
  exact ⟨kept, hkept ▸ (hheld.offerWithOverwrite obj).2.1⟩

/-- The part of `Delivers` that a turn keeps. -/
def Clients.Kept (size : Nat) (s : Clients α) (held : List α) : Prop :=
  s.rb.Holds held ∧ s.rb.size = size ∧ s.delivered ++ held = s.offered

theorem Clients.Kept.turn {s : Clients α} {held : List α} (h : s.Kept size held) (co : Nat)
    (op : Operation α) : ∃ held', (s.turn co op).Kept size held' := by
  obtain ⟨hholds, rfl, horder⟩ := h
  cases op with
  | offer obj =>
    by_cases hroom : held.length < s.rb.size
    · obtain ⟨-, hholds', hsize⟩ := hholds.offer_room hroom obj
      rw [Clients.turn, hholds.offerWithWait_room hroom]
      refine ⟨held ++ [obj], hholds', hsize, ?_⟩
      show s.delivered ++ (held ++ [obj]) = s.offered ++ [obj]
      rw [← List.append_assoc, horder]
    · have hfull := Nat.le_antisymm hholds.bound (Nat.le_of_not_lt hroom)
      rw [Clients.turn, hholds.offerWithWait_full hfull]
      exact ⟨held, hholds, rfl, horder⟩
  | take =>
    cases held with
    | nil =>
      rw [Clients.turn, hholds.takeWithWait_empty]
      exact ⟨[], hholds, rfl, horder⟩
    | cons x held =>
      obtain ⟨-, hholds', hsize⟩ := hholds.take_cons
      rw [Clients.turn, hholds.takeWithWait_cons]
      refine ⟨held, hholds', hsize, ?_⟩
      show s.delivered ++ [x] ++ held = s.offered
      rw [← horder, List.append_assoc]
      rfl

theorem Clients.Kept.step {s s' : Clients α} {held : List α} {e : Clients.Event α}
    (h : s.Kept size held) (hstep : s.step e = some s') : ∃ held', s'.Kept size held' := by
  cases e with
  | call co op =>
    rw [Clients.step] at hstep
    split at hstep
    · cases hstep
      exact h.turn co op
    · cases hstep
  | resume co =>
    obtain ⟨op, -, rfl⟩ := Option.map_eq_some_iff.mp hstep
    exact h.turn co op

/-- As many takes as there are objects empty the buffer. -/
theorem Clients.Kept.drains {s : Clients α} {held : List α} (h : s.Kept size held) (co : Nat)
    (hidle : s.waiting co = none) : ∃ s',
    Transition.exec Clients.step s (List.replicate held.length (.call co .take)) = some s' ∧
      s'.delivered = s.offered := by
  induction held generalizing s with
  | nil => exact ⟨s, rfl, by rw [← h.2.2, List.append_nil]⟩
  | cons x held ih =>
    obtain ⟨hholds, rfl, horder⟩ := h
    obtain ⟨-, hholds', hsize⟩ := hholds.take_cons
    have hturn : s.turn co .take = { s with
        rb := s.rb.take.2
        waiting := Function.update s.waiting co none
        delivered := s.delivered ++ [x] } := by
      rw [Clients.turn, hholds.takeWithWait_cons]
    have hstep : s.step (.call co .take) = some (s.turn co .take) := by
      rw [Clients.step, hidle]
      rfl
    obtain ⟨s', hexec, hdelivered⟩ := ih (s := s.turn co .take)
      (by
        rw [hturn]
        exact ⟨hholds', hsize, by rw [List.append_assoc]; exact horder⟩)
      (by
        rw [hturn]
        exact Function.update_self co none s.waiting)
    refine ⟨s', ?_, hdelivered.trans (by rw [hturn])⟩
    rw [List.length_cons, List.replicate_succ, Transition.exec, hstep]
    exact hexec

theorem Clients.Kept.delivers {s : Clients α} {held : List α} (h : s.Kept size held) :
    Delivers size s held := by
  have hdrains := h.drains
  obtain ⟨hholds, rfl, horder⟩ := h
  refine ⟨hholds, horder, hholds.bound, fun hroom obj => ?_, fun hfull => ?_, fun x hx => ?_,
    fun hempty => ?_, hdrains, hholds.writer⟩
  · rw [hholds.offerWithWait_room hroom]
  · exact hholds.offerWithWait_full hfull
  · cases held with
    | nil => cases hx
    | cons y held =>
      cases hx
      rw [hholds.takeWithWait_cons]
  · rw [hempty] at hholds
    exact hholds.takeWithWait_empty

end Invariants

/-- The three kinds of ring buffer are bounded queues: one that refuses, one that displaces, and
one that makes its clients wait. -/
theorem ring_buffers_refine (α : Type) (size : Nat) (hsize : 1 ≤ size) :
    (∀ ops, Transition.Always queueStep (IsQueue size) (newRingBuffer α size, []) ops) ∧
    (∀ ops, Transition.Always overwriteStep (IsOverwriting size)
      (newOverwrittingRingBuffer α size, .empty) ops) ∧
    (∀ events, Transition.Always Clients.step (fun s => ∃ held, Delivers size s held)
      (.start (newBlockingRingBuffer α size)) events) := by
  refine ⟨fun ops => ?_, fun ops => ?_, fun events => ?_⟩
  · exact (Transition.always_of_invariant ⟨holds_new hsize, rfl⟩
      fun _ _ _ => queueStep_holds).mono fun _ => isQueue
  · exact (Transition.always_of_invariant ⟨holds_new hsize, Log.ordered_empty, rfl⟩
      fun _ _ _ => overwriteStep_holds).mono fun _ => isOverwriting
  · have hstart : (Clients.start (newBlockingRingBuffer α size)).Kept size [] :=
      ⟨holds_new hsize, rfl, rfl⟩
    exact (Transition.always_of_invariant (I := fun s => ∃ held, Clients.Kept size s held)
      ⟨[], hstart⟩ fun _ _ _ ⟨_, h⟩ hstep => h.step hstep).mono
        fun _ ⟨held, h⟩ => ⟨held, h.delivers⟩

theorem three_slots_refine :
    (∀ ops, Transition.Always queueStep (IsQueue 3) (newRingBuffer Nat 3, []) ops) ∧
    (∀ ops, Transition.Always overwriteStep (IsOverwriting 3)
      (newOverwrittingRingBuffer Nat 3, .empty) ops) ∧
    (∀ events, Transition.Always Clients.step (fun s => ∃ held, Delivers 3 s held)
      (.start (newBlockingRingBuffer Nat 3)) events) :=
  ring_buffers_refine Nat 3 (by decide)

end Luaw.RingBuffer
