import Mathlib.Logic.Function.Basic
import Luaw.Foundations.BoundedQueue

/-!
# The ring buffers of `luaw_data_structs_lib.lua`

A table with the slots 1 to `size`, and two indices that wrap around at its end. `Holds` gives
the buffer's contents as a list, and each operation is the one of `BoundedQueue` on that list.
-/

namespace Luaw

/-- The three kinds of ring buffer have the same fields and differ in `offer` and `take`. -/
structure RingBuffer (α : Type) where
  slots : Nat → Option α
  reader : Nat
  writer : Nat
  filled : Nat
  size : Nat

def newRingBuffer (α : Type) (size : Nat) : RingBuffer α := ⟨fun _ => none, 1, 1, 0, size⟩

def newOverwrittingRingBuffer (α : Type) (size : Nat) : RingBuffer α :=
  ⟨fun _ => none, 1, 1, 0, size⟩

def newBlockingRingBuffer (α : Type) (size : Nat) : RingBuffer α := ⟨fun _ => none, 1, 1, 0, size⟩

namespace RingBuffer

section Operations

variable {α : Type}

def offer (rb : RingBuffer α) (obj : α) : Bool × RingBuffer α :=
  if rb.filled < rb.size then
    (true, { rb with
      slots := Function.update rb.slots rb.writer (some obj)
      filled := rb.filled + 1
      writer := if rb.writer = rb.size then 1 else rb.writer + 1 })
  else (false, rb)

def take (rb : RingBuffer α) : Option α × RingBuffer α :=
  if 0 < rb.filled then
    (rb.slots rb.reader, { rb with
      slots := Function.update rb.slots rb.reader none
      filled := rb.filled - 1
      reader := if rb.reader = rb.size then 1 else rb.reader + 1 })
  else (none, rb)

/-- The second result is the overwritten object. -/
def offerWithOverwrite (rb : RingBuffer α) (obj : α) : (Bool × Option α) × RingBuffer α :=
  let (added, rb) := rb.offer obj
  if added then ((true, none), rb)
  else
    let (overwrittenObj, rb) := rb.take
    ((false, overwrittenObj), (rb.offer obj).2)

/-- How a coroutine leaves a waiting operation when it runs: it returns, or it yields and will
try again. -/
inductive Turn (β : Type) where
  | returned (result : β)
  | yielded

/-- One attempt, at the call or after a yield. -/
def offerWithWait (rb : RingBuffer α) (obj : α) : Turn Bool × RingBuffer α :=
  let (added, rb) := rb.offer obj
  (if added then .returned added else .yielded, rb)

/-- One attempt, at the call or after a yield. -/
def takeWithWait (rb : RingBuffer α) : Turn α × RingBuffer α :=
  let (obj, rb) := rb.take
  (match obj with
    | some obj => .returned obj
    | none => .yielded, rb)

end Operations

section Contents

variable {α : Type}

/-- The slot that is `i` places behind the reader. -/
def slot (rb : RingBuffer α) (i : Nat) : Nat := (rb.reader - 1 + i) % rb.size + 1

/-- The buffer holds the objects `xs`, the oldest first. -/
structure Holds (rb : RingBuffer α) (xs : List α) : Prop where
  pos : 1 ≤ rb.size
  reader : 1 ≤ rb.reader ∧ rb.reader ≤ rb.size
  writer : rb.writer = rb.slot rb.filled
  filled : rb.filled = xs.length
  bound : xs.length ≤ rb.size
  stored : ∀ i, i < xs.length → rb.slots (rb.slot i) = xs[i]?

theorem holds_new {size : Nat} (hsize : 1 ≤ size) : (newRingBuffer α size).Holds [] where
  pos := hsize
  reader := ⟨Nat.le_refl 1, hsize⟩
  writer := by
    show 1 = (1 - 1 + 0) % size + 1
    simp
  filled := rfl
  bound := Nat.zero_le _
  stored i h := absurd h (Nat.not_lt_zero i)

/-- An index that is moved on wraps around at the end of the table. -/
theorem wrap_eq {i size : Nat} (hpos : 1 ≤ i) (hle : i ≤ size) :
    (if i = size then 1 else i + 1) = i % size + 1 := by
  split
  · subst i
    rw [Nat.mod_self]
  · rw [Nat.mod_eq_of_lt (by omega)]

theorem mod_ne {r i j size : Nat} (hr : r < size) (hi : i < size) (hj : j < size) (hne : i ≠ j) :
    (r + i) % size ≠ (r + j) % size := by
  have hwrap : ∀ k, k < size → (r + k) % size = if r + k < size then r + k else r + k - size := by
    intro k hk
    split
    · exact Nat.mod_eq_of_lt ‹_›
    · rw [Nat.mod_eq_sub_mod (by omega), Nat.mod_eq_of_lt (by omega)]
  rw [hwrap i hi, hwrap j hj]
  split <;> split <;> omega

namespace Holds

variable {rb : RingBuffer α} {xs : List α}

theorem slot_ne (h : rb.Holds xs) {i j : Nat} (hi : i < rb.size) (hj : j < rb.size)
    (hne : i ≠ j) : rb.slot i ≠ rb.slot j := by
  have hreader := h.reader
  intro heq
  exact mod_ne (by omega) hi hj hne (Nat.succ.inj heq)

theorem slot_zero (h : rb.Holds xs) : rb.slot 0 = rb.reader := by
  have hreader := h.reader
  rw [slot, Nat.add_zero, Nat.mod_eq_of_lt (by omega)]
  omega

theorem slot_le (h : rb.Holds xs) (i : Nat) : 1 ≤ rb.slot i ∧ rb.slot i ≤ rb.size := by
  have := Nat.mod_lt (rb.reader - 1 + i) (Nat.lt_of_lt_of_le Nat.zero_lt_one h.pos)
  rw [slot]
  omega

theorem offer_full (h : rb.Holds xs) (hfull : xs.length = rb.size) (obj : α) :
    rb.offer obj = (false, rb) := by
  have hfilled := h.filled
  rw [offer, if_neg (by omega)]

theorem offer_room (h : rb.Holds xs) (hroom : xs.length < rb.size) (obj : α) :
    (rb.offer obj).1 = true ∧ (rb.offer obj).2.Holds (xs ++ [obj]) ∧
      (rb.offer obj).2.size = rb.size := by
  have hfilled := h.filled
  have hwriter := h.slot_le rb.filled
  rw [← h.writer] at hwriter
  have heq : rb.offer obj = (true, { rb with
      slots := Function.update rb.slots rb.writer (some obj)
      filled := rb.filled + 1
      writer := rb.writer % rb.size + 1 }) := by
    rw [offer, if_pos (by omega), wrap_eq hwriter.1 hwriter.2]
  rw [heq]
  refine ⟨rfl, ⟨h.pos, h.reader, ?_, ?_, ?_, fun i hi => ?_⟩, rfl⟩
  · show rb.writer % rb.size + 1 = (rb.reader - 1 + (rb.filled + 1)) % rb.size + 1
    rw [h.writer, slot, Nat.mod_add_mod, Nat.add_assoc]
  · show rb.filled + 1 = _
    rw [List.length_append, hfilled]
    rfl
  · show (xs ++ [obj]).length ≤ rb.size
    rw [List.length_append]
    exact hroom
  · show Function.update rb.slots rb.writer (some obj) (rb.slot i) = _
    rw [List.length_append, List.length_singleton] at hi
    by_cases hlast : i = xs.length
    · rw [hlast, List.getElem?_concat_length, ← hfilled, ← h.writer, Function.update_self]
    · have hne : rb.slot i ≠ rb.writer := by
        rw [h.writer]
        exact h.slot_ne (by omega) (by omega) (by omega)
      rw [Function.update_of_ne hne, h.stored i (by omega), List.getElem?_append_left (by omega)]

theorem take_empty (h : rb.Holds []) : rb.take = (none, rb) := by
  have hfilled := h.filled
  rw [take, if_neg (by rw [hfilled]; exact Nat.lt_irrefl 0)]

theorem take_cons {x : α} (h : rb.Holds (x :: xs)) :
    rb.take.1 = some x ∧ rb.take.2.Holds xs ∧ rb.take.2.size = rb.size := by
  have hfilled := h.filled
  have hbound := h.bound
  have hreader := h.reader
  rw [List.length_cons] at hfilled hbound
  have heq : rb.take = (rb.slots rb.reader, { rb with
      slots := Function.update rb.slots rb.reader none
      filled := rb.filled - 1
      reader := rb.reader % rb.size + 1 }) := by
    rw [take, if_pos (by omega), wrap_eq hreader.1 hreader.2]
  have hmod := Nat.mod_lt rb.reader (Nat.lt_of_lt_of_le Nat.zero_lt_one h.pos)
  -- what was one place behind the reader is now at the reader
  have hslot : ∀ i, (rb.reader % rb.size + 1 - 1 + i) % rb.size + 1 = rb.slot (i + 1) := by
    intro i
    rw [Nat.add_sub_cancel, Nat.mod_add_mod, slot]
    congr 2
    omega
  rw [heq]
  refine ⟨?_, ⟨h.pos, ⟨Nat.succ_pos _, hmod⟩, ?_, ?_, ?_, fun i hi => ?_⟩, rfl⟩
  · have := h.stored 0 (Nat.succ_pos _)
    rw [h.slot_zero] at this
    exact this
  · show rb.writer = (rb.reader % rb.size + 1 - 1 + (rb.filled - 1)) % rb.size + 1
    rw [hslot, h.writer]
    congr 1
    omega
  · show rb.filled - 1 = xs.length
    omega
  · show xs.length ≤ rb.size
    omega
  · show Function.update rb.slots rb.reader none
      ((rb.reader % rb.size + 1 - 1 + i) % rb.size + 1) = _
    have hne : rb.slot (i + 1) ≠ rb.reader := by
      rw [← h.slot_zero]
      exact h.slot_ne (by omega) (by omega) (by omega)
    rw [hslot, Function.update_of_ne hne]
    exact h.stored (i + 1) (Nat.succ_lt_succ hi)

theorem offer (h : rb.Holds xs) (obj : α) :
    (rb.offer obj).1 = (BoundedQueue.offer rb.size xs obj).1 ∧
      (rb.offer obj).2.Holds (BoundedQueue.offer rb.size xs obj).2 ∧
      (rb.offer obj).2.size = rb.size := by
  by_cases hroom : xs.length < rb.size
  · rw [BoundedQueue.offer, if_pos hroom]
    exact h.offer_room hroom obj
  · have hfull : xs.length = rb.size := Nat.le_antisymm h.bound (Nat.le_of_not_lt hroom)
    rw [BoundedQueue.offer, if_neg hroom, h.offer_full hfull]
    exact ⟨rfl, h, rfl⟩

theorem take (h : rb.Holds xs) :
    rb.take.1 = (BoundedQueue.take xs).1 ∧ rb.take.2.Holds (BoundedQueue.take xs).2 ∧
      rb.take.2.size = rb.size := by
  cases xs with
  | nil =>
    rw [h.take_empty]
    exact ⟨rfl, h, rfl⟩
  | cons x xs => exact h.take_cons

theorem offerWithOverwrite (h : rb.Holds xs) (obj : α) :
    (rb.offerWithOverwrite obj).1 = (BoundedQueue.displace rb.size xs obj).1 ∧
      (rb.offerWithOverwrite obj).2.Holds (BoundedQueue.displace rb.size xs obj).2 ∧
      (rb.offerWithOverwrite obj).2.size = rb.size := by
  by_cases hroom : xs.length < rb.size
  · obtain ⟨hadded, hholds, hsize⟩ := h.offer_room hroom obj
    have heq : rb.offerWithOverwrite obj = ((true, none), (rb.offer obj).2) := by
      simp only [RingBuffer.offerWithOverwrite, hadded, if_true]
    rw [BoundedQueue.displace, if_pos hroom, heq]
    exact ⟨rfl, hholds, hsize⟩
  · have hfull : xs.length = rb.size := Nat.le_antisymm h.bound (Nat.le_of_not_lt hroom)
    have heq : rb.offerWithOverwrite obj =
        ((false, rb.take.1), (rb.take.2.offer obj).2) := by
      simp only [RingBuffer.offerWithOverwrite, h.offer_full hfull obj]
      rfl
    rw [BoundedQueue.displace, if_neg hroom, heq]
    cases xs with
    | nil => exact absurd hfull (Nat.ne_of_lt h.pos)
    | cons x xs =>
      -- the slot of the oldest object is free now
      obtain ⟨htaken, hholds, hsize⟩ := h.take_cons
      have hroom : xs.length < rb.take.2.size := by
        rw [hsize, ← hfull]
        exact Nat.lt_succ_self _
      obtain ⟨-, hholds', hsize'⟩ := hholds.offer_room hroom obj
      exact ⟨by rw [htaken]; rfl, hholds', hsize'.trans hsize⟩

theorem offerWithWait_room (h : rb.Holds xs) (hroom : xs.length < rb.size) (obj : α) :
    rb.offerWithWait obj = (.returned true, (rb.offer obj).2) := by
  simp only [RingBuffer.offerWithWait, (h.offer_room hroom obj).1, if_true]

theorem offerWithWait_full (h : rb.Holds xs) (hfull : xs.length = rb.size) (obj : α) :
    rb.offerWithWait obj = (.yielded, rb) := by
  simp only [RingBuffer.offerWithWait, h.offer_full hfull obj]
  rfl

theorem takeWithWait_cons {x : α} (h : rb.Holds (x :: xs)) :
    rb.takeWithWait = (.returned x, rb.take.2) := by
  simp only [RingBuffer.takeWithWait, h.take_cons.1]

theorem takeWithWait_empty (h : rb.Holds []) : rb.takeWithWait = (.yielded, rb) := by
  simp only [RingBuffer.takeWithWait, h.take_empty]

end Holds

end Contents

end RingBuffer

end Luaw
