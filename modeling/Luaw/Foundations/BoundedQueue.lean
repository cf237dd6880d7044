import Mathlib.Data.List.Basic

/-!
# Bounded queues

A queue of at most `capacity` elements is a list. `displace` makes room for a new element by
dropping the oldest one. A `Log` keeps all that was ever offered to such a queue, and what has
left it; `Log.untaken` is what the queue is to hold, in terms of these two alone.
-/

namespace BoundedQueue

variable {α : Type*} (capacity : Nat)

/-- A full queue refuses the element. -/
def offer (xs : List α) (x : α) : Bool × List α :=
  if xs.length < capacity then (true, xs ++ [x]) else (false, xs)

/-- A full queue gives up its oldest element for the new one. -/
def displace (xs : List α) (x : α) : (Bool × Option α) × List α :=
  if xs.length < capacity then ((true, none), xs ++ [x])
  else ((false, xs.head?), xs.tail ++ [x])

def take (xs : List α) : Option α × List α := (xs.head?, xs.tail)

/-- The elements held, all elements ever offered, and those that have left with the mark
whether they were taken. -/
structure Log (α : Type*) where
  held : List α
  offered : List α
  departed : List (α × Bool)

namespace Log

def empty : Log α := ⟨[], [], []⟩

def displace (l : Log α) (x : α) : Log α where
  held := (BoundedQueue.displace capacity l.held x).2
  offered := l.offered ++ [x]
  departed := l.departed ++
    ((BoundedQueue.displace capacity l.held x).1.2.toList.map fun x => (x, false))

def take (l : Log α) : Log α where
  held := (BoundedQueue.take l.held).2
  offered := l.offered
  departed := l.departed ++ ((BoundedQueue.take l.held).1.toList.map fun x => (x, true))

/-- The last `capacity` elements offered, less those that were taken. -/
def untaken (l : Log α) : List α :=
  ((l.offered.zip (l.departed.map Prod.snd ++ List.replicate l.offered.length false)).drop
    (l.offered.length - capacity)).filterMap fun entry => if entry.2 then none else some entry.1

/-- Elements leave in the order they came, and none of the last `capacity` of them has left
without being taken. -/
structure Ordered (l : Log α) : Prop where
  order : l.departed.map Prod.fst ++ l.held = l.offered
  bound : l.held.length ≤ capacity
  recent : ∀ entry ∈ l.departed.drop (l.offered.length - capacity), entry.2 = true

variable {capacity} {l : Log α}

theorem ordered_empty : Ordered capacity (empty : Log α) where
  order := rfl
  bound := Nat.zero_le _
  recent entry h := by simp [empty] at h

theorem Ordered.offered_length (h : l.Ordered capacity) :
    l.offered.length = l.departed.length + l.held.length := by
  rw [← h.order, List.length_append, List.length_map]

theorem displace_room (hroom : l.held.length < capacity) (x : α) :
    l.displace capacity x = ⟨l.held ++ [x], l.offered ++ [x], l.departed⟩ := by
  simp [Log.displace, BoundedQueue.displace, hroom]

theorem displace_full {oldest : α} {held : List α} (hfull : ¬l.held.length < capacity)
    (hheld : l.held = oldest :: held) (x : α) :
    l.displace capacity x =
      ⟨held ++ [x], l.offered ++ [x], l.departed ++ [(oldest, false)]⟩ := by
  rw [hheld, List.length_cons] at hfull
  simp [Log.displace, BoundedQueue.displace, hheld, hfull]

theorem Ordered.displace (h : l.Ordered capacity) (hcap : 1 ≤ capacity) (x : α) :
    (l.displace capacity x).Ordered capacity := by
  have hlen := h.offered_length
  by_cases hroom : l.held.length < capacity
  · rw [displace_room hroom]
    refine ⟨?_, ?_, fun entry hentry => h.recent entry ?_⟩
    · show _ ++ (l.held ++ [x]) = l.offered ++ [x]
      rw [← List.append_assoc, h.order]
    · show (l.held ++ [x]).length ≤ capacity
      rw [List.length_append]
      exact hroom
    · refine List.drop_subset_drop_left _ ?_ hentry
      show _ ≤ (l.offered ++ [x]).length - capacity
      rw [List.length_append]
      omega
  · cases hheld : l.held with
    | nil =>
      rw [hheld] at hroom
      exact absurd hcap hroom
    | cons oldest held =>
      rw [displace_full hroom hheld]
      have hbound := h.bound
      rw [hheld] at hlen hroom hbound
      simp only [List.length_cons] at hlen hroom hbound
      refine ⟨?_, ?_, ?_⟩
      · show (l.departed ++ [(oldest, false)]).map Prod.fst ++ (held ++ [x]) = l.offered ++ [x]
        rw [← h.order, hheld]
        simp
      · show (held ++ [x]).length ≤ capacity
        rw [List.length_append, List.length_singleton]
        omega
      · -- what has left came before the last `capacity` elements
        have hnone : (l.departed ++ [(oldest, false)]).drop
            ((l.offered ++ [x]).length - capacity) = [] := by
          apply List.drop_eq_nil_of_le
          simp only [List.length_append, List.length_singleton]
          omega
        intro entry hentry
        rw [hnone] at hentry
        cases hentry

theorem Ordered.take (h : l.Ordered capacity) : l.take.Ordered capacity := by
  have hlen := h.offered_length
  have hbound := h.bound
  cases hheld : l.held with
  | nil =>
    have heq : l.take = l := by
      obtain ⟨held, offered, departed⟩ := l
      change held = [] at hheld
      subst hheld
      simp [Log.take, BoundedQueue.take]
    rw [heq]
    exact h
  | cons oldest held =>
    have heq : l.take = ⟨held, l.offered, l.departed ++ [(oldest, true)]⟩ := by
      simp [Log.take, BoundedQueue.take, hheld]
    rw [heq]
    rw [hheld, List.length_cons] at hlen hbound
    refine ⟨?_, ?_, fun entry hentry => ?_⟩
    · show (l.departed ++ [(oldest, true)]).map Prod.fst ++ held = l.offered
      rw [← h.order, hheld]
      simp
    · show held.length ≤ capacity
      omega
    · change entry ∈ (l.departed ++ [(oldest, true)]).drop (l.offered.length - capacity) at hentry
      rw [List.drop_append_of_le_length (by omega), List.mem_append] at hentry
      obtain hentry | hentry := hentry
      · exact h.recent entry hentry
      · rw [List.mem_singleton.mp hentry]

theorem filterMap_marked {marked : List (α × Bool)} (h : ∀ entry ∈ marked, entry.2 = true) :
    (marked.filterMap fun entry => if entry.2 then none else some entry.1) = [] := by
  apply List.filterMap_eq_nil_iff.mpr
  intro entry hentry
  rw [if_pos (h entry hentry)]

theorem filterMap_unmarked {n : Nat} {xs : List α} (h : xs.length ≤ n) :
    ((xs.zip (List.replicate n false)).filterMap
      fun entry => if entry.2 then none else some entry.1) = xs := by
  induction xs generalizing n with
  | nil => rfl
  | cons x xs ih =>
    obtain ⟨n, rfl⟩ : ∃ k, n = k + 1 := ⟨n - 1, by rw [List.length_cons] at h; omega⟩
    rw [List.replicate_succ, List.zip_cons_cons, List.filterMap_cons]
    exact congrArg (x :: ·) (ih (Nat.le_of_succ_le_succ h))

/-- A displacing queue holds the last elements not yet taken. -/
theorem Ordered.held_eq (h : l.Ordered capacity) : l.held = l.untaken capacity := by
  have hlen := h.offered_length
  have hbound := h.bound
  have hmarks : l.offered.zip (l.departed.map Prod.snd ++ List.replicate l.offered.length false) =
      l.departed ++ l.held.zip (List.replicate l.offered.length false) := by
    conv_lhs => rw [← h.order]
    rw [List.zip_append (by simp), ← List.zip_of_prod rfl rfl, h.order]
  rw [untaken, hmarks, List.drop_append_of_le_length (by omega), List.filterMap_append,
    filterMap_marked h.recent, filterMap_unmarked (by omega), List.nil_append]

end Log

end BoundedQueue
