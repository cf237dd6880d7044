import Mathlib.Data.Finset.Card
import Mathlib.Data.List.Nodup

/-!
# Queues linked through their elements

An intrusive queue keeps one link in each element. `Chain` says that the links lead from the
head through a list of elements and stop; `Drains` which elements come off when the head is
taken again and again, its link being cleared each time.
-/

namespace LinkedQueue

variable {α : Type*}

inductive Chain (next : α → Option α) : Option α → List α → Prop where
  | nil : Chain next none []
  | cons {a : α} {as : List α} : Chain next (next a) as → Chain next (some a) (a :: as)

namespace Chain

variable {next : α → Option α} {head : Option α} {as : List α}

theorem unique (h : Chain next head as) {bs : List α} (h' : Chain next head bs) : as = bs := by
  induction h generalizing bs with
  | nil =>
    cases h'
    rfl
  | cons _ ih =>
    cases h' with
    | cons h' => rw [ih h']

theorem suffix {pre : List α} {a : α} (h : Chain next head (pre ++ a :: as)) :
    Chain next (some a) (a :: as) := by
  induction pre generalizing head with
  | nil =>
    cases h with
    | cons h => exact .cons h
  | cons b pre ih =>
    cases h with
    | cons h => exact ih h

/-- A chain that stops visits no element twice. -/
theorem nodup (h : Chain next head as) : as.Nodup := by
  induction h with
  | nil => exact .nil
  | @cons a as h ih =>
    refine List.nodup_cons.mpr ⟨fun hmem => ?_, ih⟩
    obtain ⟨pre, post, rfl⟩ := List.append_of_mem hmem
    have heq := h.suffix.unique (.cons h)
    have hlen := congrArg List.length heq
    simp only [List.length_cons, List.length_append] at hlen
    omega

theorem congr (h : Chain next head as) {next' : α → Option α} (heq : ∀ a ∈ as, next' a = next a) :
    Chain next' head as := by
  induction h with
  | nil => exact .nil
  | @cons a as _ ih =>
    refine .cons ?_
    rw [heq a List.mem_cons_self]
    exact ih fun b hb => heq b (List.mem_cons_of_mem _ hb)

/-- Linking the last element to a new one appends it. -/
theorem concat [DecidableEq α] {a b : α} (h : Chain next head (as ++ [a])) (hb : b ∉ as ++ [a])
    (hnext : next b = none) : Chain (Function.update next a (some b)) head (as ++ [a] ++ [b]) := by
  induction as generalizing head with
  | nil =>
    cases h with
    | cons _ =>
      have hba : b ≠ a := fun heq => hb (heq ▸ List.mem_cons_self)
      refine .cons ?_
      rw [Function.update_self]
      refine .cons ?_
      rw [Function.update_of_ne hba, hnext]
      exact .nil
  | cons c as ih =>
    have hca : c ≠ a := by
      rintro rfl
      exact (List.nodup_cons.mp h.nodup).1 (List.mem_append_right _ (List.mem_singleton_self c))
    cases h with
    | cons h =>
      refine .cons ?_
      rw [Function.update_of_ne hca]
      exact ih h fun hmem => hb (List.mem_cons_of_mem _ hmem)

/-- Taking the head off, with its link cleared. -/
theorem tail [DecidableEq α] {a : α} (h : Chain next (some a) (a :: as)) :
    Chain (Function.update next a none) (next a) as := by
  have hnodup := h.nodup
  cases h with
  | cons h =>
    refine h.congr fun b hb => Function.update_of_ne ?_ _ _
    exact ne_of_mem_of_not_mem hb (List.nodup_cons.mp hnodup).1

end Chain

section Drains

variable [DecidableEq α]

inductive Drains : (α → Option α) → Option α → List α → Prop where
  | nil {next : α → Option α} : Drains next none []
  | cons {next : α → Option α} {a : α} {as : List α} :
      Drains (Function.update next a none) (next a) as → Drains next (some a) (a :: as)

theorem Drains.unique {next : α → Option α} {head : Option α} {as bs : List α}
    (h : Drains next head as) (h' : Drains next head bs) : as = bs := by
  induction h generalizing bs with
  | nil =>
    cases h'
    rfl
  | cons _ ih =>
    cases h' with
    | cons h' => rw [ih h']

/-- However the links lie, the queue is drained after as many steps as there are links, and one
for the last element. -/
theorem exists_drains (linked : Finset α) {next : α → Option α}
    (hlinked : ∀ a, next a ≠ none → a ∈ linked) (head : Option α) :
    ∃ as, Drains next head as ∧ as.length ≤ linked.card + (if head.isSome then 1 else 0) := by
  induction hn : linked.card generalizing linked next head with
  | zero =>
    cases head with
    | none => exact ⟨[], .nil, Nat.zero_le _⟩
    | some a =>
      have hnone : next a = none := by
        by_contra hsome
        have hmem := hlinked a hsome
        rw [Finset.card_eq_zero.mp hn] at hmem
        simp at hmem
      refine ⟨[a], .cons ?_, le_rfl⟩
      rw [hnone]
      exact .nil
  | succ n ih =>
    cases head with
    | none => exact ⟨[], .nil, Nat.zero_le _⟩
    | some a =>
      -- the link of the element that is taken is cleared
      have hcleared : ∀ b, Function.update next a none b ≠ none → b ∈ linked.erase a := by
        intro b hb
        by_cases hba : b = a
        · rw [hba, Function.update_self] at hb
          exact absurd rfl hb
        · rw [Function.update_of_ne hba] at hb
          exact Finset.mem_erase.mpr ⟨hba, hlinked b hb⟩
      by_cases hmem : a ∈ linked
      · have hcard : (linked.erase a).card = n := by
          rw [Finset.card_erase_of_mem hmem, hn, Nat.add_sub_cancel]
        obtain ⟨as, has, hlen⟩ := ih (linked.erase a) hcleared (next a) hcard
        refine ⟨a :: as, .cons has, ?_⟩
        rw [List.length_cons]
        split at hlen <;> simp <;> omega
      · have hnone : next a = none := by
          by_contra hsome
          exact hmem (hlinked a hsome)
        refine ⟨[a], .cons ?_, by simp⟩
        rw [hnone]
        exact .nil

end Drains

end LinkedQueue
