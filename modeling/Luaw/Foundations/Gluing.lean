import Mathlib.Data.List.Basic

/-!
# Gluing neighbours

Some items of a list are of a kind, and two neighbours of one kind can be glued together. `merge`
glues all of them. Lists that merge to the same list tell the same, however their items were cut.
-/

structure Gluing (α κ : Type*) where
  kind : α → Option κ
  glue : α → α → α
  kind_glue : ∀ {a b : α}, kind a = kind b → kind (glue a b) = kind a
  glue_assoc : ∀ {a b c : α}, kind a = kind b → kind b = kind c →
    glue (glue a b) c = glue a (glue b c)

namespace Gluing

variable {α κ : Type*} [DecidableEq κ] (G : Gluing α κ)

/-- The items can be glued together. -/
def Meets (a b : α) : Prop := (G.kind a).isSome = true ∧ G.kind a = G.kind b

instance (a b : α) : Decidable (G.Meets a b) := inferInstanceAs (Decidable (_ ∧ _))

/-- An item in front of a list that has been merged. -/
def cons (a : α) : List α → List α
  | [] => [a]
  | b :: l => if G.Meets a b then G.glue a b :: l else a :: b :: l

def merge (l : List α) : List α := l.foldr G.cons []

theorem cons_meets {a b : α} (h : G.Meets a b) (l : List α) :
    G.cons a (b :: l) = G.glue a b :: l := if_pos h

theorem cons_apart {a b : α} (h : ¬G.Meets a b) (l : List α) :
    G.cons a (b :: l) = a :: b :: l := if_neg h

@[simp] theorem merge_nil : G.merge [] = [] := rfl

theorem merge_cons (a : α) (l : List α) : G.merge (a :: l) = G.cons a (G.merge l) := rfl

@[simp] theorem merge_singleton (a : α) : G.merge [a] = [a] := rfl

theorem cons_ne_nil (a : α) (l : List α) : G.cons a l ≠ [] := by
  cases l with
  | nil => exact List.cons_ne_nil _ _
  | cons b l =>
    rw [cons]
    split <;> exact List.cons_ne_nil _ _

theorem merge_eq_nil {l : List α} : G.merge l = [] ↔ l = [] := by
  cases l with
  | nil => exact iff_of_true rfl rfl
  | cons a l => exact iff_of_false (G.cons_ne_nil a _) (List.cons_ne_nil a l)

/-- Gluing two items first makes no difference. -/
theorem cons_glue {a b : α} (h : G.Meets a b) (l : List α) :
    G.cons (G.glue a b) l = G.cons a (G.cons b l) := by
  obtain ⟨hsome, hkind⟩ := h
  have hglued := G.kind_glue hkind
  cases l with
  | nil => exact (G.cons_meets ⟨hsome, hkind⟩ []).symm
  | cons c l =>
    by_cases hbc : G.Meets b c
    · have hac : G.Meets (G.glue a b) c :=
        ⟨by rwa [hglued], hglued.trans (hkind.trans hbc.2)⟩
      have habc : G.Meets a (G.glue b c) := ⟨hsome, hkind.trans (G.kind_glue hbc.2).symm⟩
      rw [G.cons_meets hac, G.cons_meets hbc, G.cons_meets habc, G.glue_assoc hkind hbc.2]
    · have hac : ¬G.Meets (G.glue a b) c := by
        rintro ⟨-, hac⟩
        exact hbc ⟨hkind ▸ hsome, hkind.symm.trans (hglued.symm.trans hac)⟩
      rw [G.cons_apart hac, G.cons_apart hbc, G.cons_meets ⟨hsome, hkind⟩]

theorem foldr_merge (l l' : List α) : (G.merge l).foldr G.cons l' = l.foldr G.cons l' := by
  induction l with
  | nil => rfl
  | cons a l ih =>
    rw [merge_cons, List.foldr_cons, ← ih]
    cases G.merge l with
    | nil => rfl
    | cons b m =>
      rw [cons]
      split
      · next h => exact G.cons_glue h _
      · rfl

theorem merge_append (l l' : List α) : G.merge (l ++ l') = l.foldr G.cons (G.merge l') := by
  rw [merge, List.foldr_append]
  rfl

/-- The parts of a list may be merged first. -/
theorem merge_congr {l₁ l₁' l₂ l₂' : List α} (h₁ : G.merge l₁ = G.merge l₁')
    (h₂ : G.merge l₂ = G.merge l₂') : G.merge (l₁ ++ l₂) = G.merge (l₁' ++ l₂') := by
  rw [merge_append, merge_append, h₂, ← foldr_merge, h₁, foldr_merge]

theorem merge_merge (l : List α) : G.merge (G.merge l) = G.merge l := G.foldr_merge l []

/-- The items that one item of the merged list has come from. -/
theorem merge_eq_cons {l es : List α} {e : α} (h : G.merge l = e :: es) :
    ∃ pre rest, l = pre ++ rest ∧ G.merge pre = [e] ∧ G.merge rest = es := by
  induction l generalizing e es with
  | nil => cases h
  | cons a l ih =>
    rw [merge_cons] at h
    cases hl : G.merge l with
    | nil =>
      rw [hl] at h
      cases h
      exact ⟨[a], l, rfl, rfl, hl⟩
    | cons b m =>
      rw [hl, cons] at h
      split at h
      · next hab =>
        cases h
        obtain ⟨pre, rest, rfl, hpre, hrest⟩ := ih hl
        refine ⟨a :: pre, rest, rfl, ?_, hrest⟩
        rw [merge_cons, hpre, G.cons_meets hab]
      · cases h
        exact ⟨[a], l, rfl, rfl, hl⟩

/-- What merges to a single item: the item, or an item before more of its kind. -/
theorem merge_eq_singleton {l : List α} {e : α} (h : G.merge l = [e]) :
    l = [e] ∨ ∃ a b l', l = a :: l' ∧ G.merge l' = [b] ∧ G.Meets a b ∧ G.glue a b = e := by
  cases l with
  | nil => cases h
  | cons a l =>
    rw [merge_cons] at h
    cases hl : G.merge l with
    | nil =>
      rw [hl] at h
      cases h
      rw [G.merge_eq_nil.mp hl]
      exact .inl rfl
    | cons b m =>
      rw [hl, cons] at h
      split at h
      · next hab =>
        cases h
        exact .inr ⟨a, b, l, rfl, hl, hab, rfl⟩
      · cases h

/-- An item of no kind is not glued to anything. -/
theorem merge_eq_single {l : List α} {e : α} (h : G.merge l = [e]) (he : G.kind e = none) :
    l = [e] := by
  obtain hl | ⟨a, b, l', -, -, hab, hglue⟩ := G.merge_eq_singleton h
  · exact hl
  · have hkind := G.kind_glue hab.2
    rw [hglue, he] at hkind
    rw [Meets, ← hkind] at hab
    cases hab.1

theorem merge_cons_none {a : α} (ha : G.kind a = none) (l : List α) :
    G.merge (a :: l) = a :: G.merge l := by
  have hmeets : ∀ b, ¬G.Meets a b := by
    rintro b ⟨hsome, -⟩
    rw [ha] at hsome
    cases hsome
  rw [merge_cons]
  cases G.merge l with
  | nil => rfl
  | cons b m => exact G.cons_apart (hmeets b) m

/-- Nothing is glued across an item of no kind. -/
theorem merge_append_none {a : α} (ha : G.kind a = none) (l l' : List α) :
    G.merge (l ++ a :: l') = G.merge l ++ a :: G.merge l' := by
  have hmeets : ∀ b, ¬G.Meets b a := by
    rintro b ⟨hsome, hkind⟩
    rw [hkind, ha] at hsome
    cases hsome
  induction l with
  | nil => exact G.merge_cons_none ha l'
  | cons b l ih =>
    rw [List.cons_append, merge_cons, ih, merge_cons]
    cases G.merge l with
    | nil => exact G.cons_apart (hmeets b) _
    | cons c m =>
      rw [List.cons_append, cons, cons]
      split <;> rfl

/-- An item of no kind stays as it is. -/
theorem mem_merge {a : α} (ha : G.kind a = none) {l : List α} (h : a ∈ l) : a ∈ G.merge l := by
  obtain ⟨pre, post, rfl⟩ := List.append_of_mem h
  rw [G.merge_append_none ha]
  exact List.mem_append_right _ List.mem_cons_self

end Gluing
