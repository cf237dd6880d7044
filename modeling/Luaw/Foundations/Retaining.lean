import Mathlib.Data.List.Basic

/-!
# Values that are changed in place

A state retains values that somebody else may change in place, wherever they are kept. A change is
known by what it does to a value. What it spares is as it was, and a state all of whose values are
spared is as it was too.
-/

variable {η δ σ ρ κ α : Type}

/-- `held` are the values from `η` that a state from `σ` retains, and `map` changes each of them. -/
class Retains (η σ : Type) where
  held : σ → List η
  map : (η → η) → σ → σ
  map_eq : ∀ {f : η → η} {s : σ}, (∀ a ∈ held s, f a = a) → map f s = s

namespace Retains

instance self : Retains η η where
  held a := [a]
  map f := f
  map_eq h := h _ List.mem_cons_self

/-- A state that retains no such value. -/
@[reducible] def nothing : Retains η σ := ⟨fun _ => [], fun _ s => s, fun _ => rfl⟩

instance unit : Retains η Unit := nothing

instance nat : Retains η ℕ := nothing

instance option [Retains η σ] : Retains η (Option σ) where
  held s := s.elim [] held
  map f := Option.map (map f)
  map_eq {f s} h := by
    cases s with
    | none => rfl
    | some s => exact congrArg some (map_eq h)

instance list [Retains η σ] : Retains η (List σ) where
  held ss := ss.flatMap held
  map f := List.map (map f)
  map_eq {f ss} h := by
    have hmap : ∀ s ∈ ss, map f s = s :=
      fun s hs => map_eq fun a ha => h a (List.mem_flatMap_of_mem hs ha)
    exact (List.map_congr_left hmap).trans (List.map_id ss)

instance prod [Retains η σ] [Retains η ρ] : Retains η (σ × ρ) where
  held s := held s.1 ++ held s.2
  map f := Prod.map (map f) (map f)
  map_eq h := Prod.ext (map_eq fun a ha => h a (List.mem_append_left _ ha))
    (map_eq fun a ha => h a (List.mem_append_right _ ha))

/-- A state that retains values in some of its fields only. -/
@[reducible] def fields [Retains η κ] (get : σ → κ) (set : κ → σ → σ) (h : ∀ s, set (get s) s = s) :
    Retains η σ where
  held s := held (get s)
  map f s := set (map f (get s)) s
  map_eq {f s} hs := by rw [map_eq hs, h]

end Retains

section Changes

open Retains

variable (act : δ → η → η)

/-- None of the changes does anything to the values. -/
def Spared (news : List δ) (held : List η) : Prop := ∀ c ∈ news, ∀ a ∈ held, act c a = a

instance [DecidableEq η] (news : List δ) (held : List η) : Decidable (Spared act news held) :=
  inferInstanceAs (Decidable (∀ c ∈ news, ∀ a ∈ held, act c a = a))

/-- A state once the changes have been made, one after the other. -/
def hear [Retains η σ] (news : List δ) (s : σ) : σ := news.foldl (fun s c => map (act c) s) s

@[simp] theorem hear_nil [Retains η σ] (s : σ) : hear act [] s = s := rfl

theorem Spared.left {news : List δ} {held held' : List η} (h : Spared act news (held ++ held')) :
    Spared act news held :=
  fun c hc a ha => h c hc a (List.mem_append_left _ ha)

theorem Spared.right {news : List δ} {held held' : List η} (h : Spared act news (held ++ held')) :
    Spared act news held' :=
  fun c hc a ha => h c hc a (List.mem_append_right _ ha)

theorem hear_of_spared [Retains η σ] {news : List δ} {s : σ} (h : Spared act news (held s)) :
    hear act news s = s := by
  induction news with
  | nil => rfl
  | cons c news ih =>
    rw [hear, List.foldl_cons, map_eq (h c List.mem_cons_self)]
    exact ih fun c' hc' => h c' (List.mem_cons_of_mem c hc')

end Changes
