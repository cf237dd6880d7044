import Luaw.Lua.Value
import Mathlib.Data.List.Induction
import Mathlib.Data.List.Perm.Basic

/-!
# Assignments to a table

The entries of a table after a list of assignments are, in some order, those of the assignments
that stored a value and were not followed by another one to the same key.
-/

namespace Luaw.Lua

theorem sameKey_comm (a b : LuaValue) : a.sameKey b = b.sameKey a := by
  cases a <;> cases b <;> simp [LuaValue.sameKey, eq_comm]

theorem sameKey_trans {a b c : LuaValue} (hab : a.sameKey b = true) (hbc : b.sameKey c = true) :
    a.sameKey c = true := by
  cases a <;> cases b <;> simp_all [LuaValue.sameKey]

/-- The key is assigned by one of these. -/
def assigned (k : LuaValue) (es : List (LuaValue × LuaValue)) : Bool :=
  es.any fun e => k.sameKey e.1

/-- The assignments that can be seen in the end. -/
def effective : List (LuaValue × LuaValue) → List (LuaValue × LuaValue)
  | [] => []
  | (k, v) :: es => if v.isNil || assigned k es then effective es else (k, v) :: effective es

/-- One assignment after the other. -/
def assignAll (es acc : List (LuaValue × LuaValue)) : List (LuaValue × LuaValue) :=
  es.foldl (fun acc e => assign e.1 e.2 acc) acc

/-- No key occurs twice. -/
def KeysDistinct (es : List (LuaValue × LuaValue)) : Prop :=
  es.Pairwise fun e e' => e.1.sameKey e'.1 = false

/-- The new entry of an assignment, none when nil is assigned. -/
def newEntry (k v : LuaValue) : List (LuaValue × LuaValue) := if v.isNil then [] else [(k, v)]

theorem assign_perm (k v : LuaValue) {acc : List (LuaValue × LuaValue)} (h : KeysDistinct acc) :
    (assign k v acc).Perm (acc.filter (fun e => !e.1.sameKey k) ++ newEntry k v) := by
  induction acc with
  | nil => simp [assign, newEntry]
  | cons e acc ih =>
    obtain ⟨hhead, htail⟩ := List.pairwise_cons.mp h
    rw [assign]
    by_cases hkey : e.1.sameKey k = true
    · -- no later entry has the key
      have hrest : acc.filter (fun e => !e.1.sameKey k) = acc := by
        refine List.filter_eq_self.mpr fun e' he' => ?_
        have hne := hhead e' he'
        by_cases hsame : e'.1.sameKey k = true
        · rw [sameKey_comm] at hsame
          rw [sameKey_trans hkey hsame] at hne
          cases hne
        · simp [hsame]
      rw [if_pos hkey, List.filter_cons_of_neg (by simp [hkey]), hrest, newEntry]
      split
      · rw [List.append_nil]
      · exact (List.perm_append_singleton _ _).symm
    · rw [if_neg hkey, List.filter_cons_of_pos (by simp [hkey]), List.cons_append]
      exact (ih htail).cons e

theorem KeysDistinct.assign {k v : LuaValue} {acc : List (LuaValue × LuaValue)}
    (h : KeysDistinct acc) : KeysDistinct (assign k v acc) := by
  have hsymm : ∀ {e e' : LuaValue × LuaValue}, e.1.sameKey e'.1 = false →
      e'.1.sameKey e.1 = false := by
    intro e e' he
    rwa [sameKey_comm]
  refine (assign_perm k v h).symm.pairwise (List.pairwise_append.mpr ⟨h.filter _, ?_, ?_⟩) hsymm
  · rw [newEntry]
    split
    · exact .nil
    · exact List.pairwise_singleton _ _
  · intro e he e' he'
    rw [newEntry] at he'
    split at he'
    · cases he'
    · obtain rfl := List.mem_singleton.mp he'
      simpa using (List.mem_filter.mp he).2

theorem assignAll_perm (es : List (LuaValue × LuaValue)) {acc : List (LuaValue × LuaValue)}
    (h : KeysDistinct acc) :
    (assignAll es acc).Perm (acc.filter (fun e => !assigned e.1 es) ++ effective es) := by
  induction es generalizing acc with
  | nil => simp [assignAll, assigned, effective]
  | cons e es ih =>
    obtain ⟨k, v⟩ := e
    refine (ih h.assign).trans ?_
    have hnew : (newEntry k v).filter (fun e => !assigned e.1 es) ++ effective es =
        effective ((k, v) :: es) := by
      rw [effective, newEntry]
      cases v.isNil <;> cases hk : assigned k es <;> simp [hk]
    have hold : (acc.filter fun e => !e.1.sameKey k).filter (fun e => !assigned e.1 es) =
        acc.filter fun e => !assigned e.1 ((k, v) :: es) := by
      rw [List.filter_filter]
      refine List.filter_congr fun e _ => ?_
      simp [assigned, Bool.and_comm]
    have hfilter := (assign_perm k v h).filter fun e => !assigned e.1 es
    rw [List.filter_append, hold] at hfilter
    rw [← hnew, ← List.append_assoc]
    exact hfilter.append_right _

theorem KeysDistinct.assignAll {acc : List (LuaValue × LuaValue)} (h : KeysDistinct acc)
    (es : List (LuaValue × LuaValue)) : KeysDistinct (assignAll es acc) := by
  induction es generalizing acc with
  | nil => exact h
  | cons e es ih => exact ih h.assign

theorem lookup_eq_none {key : LuaValue} {es : List (LuaValue × LuaValue)}
    (h : ∀ e ∈ es, e.1.sameKey key = false) : lookup key es = none := by
  induction es with
  | nil => rfl
  | cons e es ih =>
    obtain ⟨hhead, hrest⟩ := List.forall_mem_cons.mp h
    rw [lookup, hhead, if_neg nofun, ih hrest]

theorem lookup_assign {acc : List (LuaValue × LuaValue)} (h : KeysDistinct acc)
    (k v key : LuaValue) : lookup key (assign k v acc) =
      if k.sameKey key then if v.isNil then none else some v else lookup key acc := by
  induction acc with
  | nil =>
    rw [assign]
    cases v.isNil <;> cases hkey : k.sameKey key <;> simp [lookup, hkey]
  | cons e acc ih =>
    obtain ⟨hhead, hrest⟩ := List.pairwise_cons.mp h
    rw [assign]
    by_cases hsame : e.1.sameKey k = true
    · rw [if_pos hsame]
      by_cases hkey : k.sameKey key = true
      · -- no later entry has the key
        have hlater : lookup key acc = none := by
          refine lookup_eq_none fun e' he' => Bool.eq_false_iff.mpr fun hkey' => ?_
          rw [sameKey_comm] at hkey'
          have hboth := sameKey_trans (sameKey_trans hsame hkey) hkey'
          rw [hhead e' he'] at hboth
          cases hboth
        rw [if_pos hkey]
        cases v.isNil <;> simp [lookup, hkey, hlater]
      · have hother : ¬e.1.sameKey key = true := by
          intro hboth
          rw [sameKey_comm] at hsame
          exact hkey (sameKey_trans hsame hboth)
        rw [if_neg hkey, lookup, if_neg hother]
        cases v.isNil <;> simp [lookup, hkey]
    · rw [if_neg hsame, lookup, lookup]
      by_cases hother : e.1.sameKey key = true
      · have hkey : ¬k.sameKey key = true := by
          intro hboth
          rw [sameKey_comm] at hboth
          exact hsame (sameKey_trans hother hboth)
        rw [if_pos hother, if_pos hother, if_neg hkey]
      · rw [if_neg hother, if_neg hother, ih hrest]

/-- A key has the value of its last assignment. -/
theorem lookup_assignAll (key : LuaValue) (es : List (LuaValue × LuaValue)) :
    lookup key (assignAll es []) = (lookup key es.reverse).filter fun v => !v.isNil := by
  induction es using List.reverseRecOn with
  | nil => rfl
  | append_singleton es e ih =>
    have hlast : assignAll (es ++ [e]) [] = assign e.1 e.2 (assignAll es []) := by
      rw [assignAll, List.foldl_append]
      rfl
    have hdistinct : KeysDistinct (assignAll es []) := KeysDistinct.assignAll .nil es
    rw [hlast, lookup_assign hdistinct, ih, List.reverse_append, List.reverse_singleton,
      List.singleton_append, lookup]
    cases e.1.sameKey key <;> cases hnil : e.2.isNil <;> simp [Option.filter, hnil]

theorem effective_subset (es : List (LuaValue × LuaValue)) : effective es ⊆ es := by
  induction es with
  | nil => exact List.Subset.refl _
  | cons e es ih =>
    obtain ⟨k, v⟩ := e
    rw [effective]
    split
    · exact List.subset_cons_of_subset _ ih
    · exact List.cons_subset_cons _ ih

end Luaw.Lua
