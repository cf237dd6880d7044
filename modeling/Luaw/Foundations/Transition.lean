import Mathlib.Algebra.GroupWithZero.Nat
import Mathlib.Data.List.Basic

/-!
# Runs of a partial step function

A system is a state type, an event type and a partial step function. A run is a list of
events; an event that is not enabled leaves nothing to check after it. `Always` says that a
state predicate holds in every state a run passes through, `Guarded` that every step taken
meets a condition on the state before it. The rules below turn one-step facts into facts
about runs.
-/

namespace Transition

variable {State Event : Type*} (step : State → Event → Option State)

/-- The state after a list of events, `none` when one of them was not enabled. -/
def exec : State → List Event → Option State
  | s, [] => some s
  | s, e :: es => (step s e).bind fun s' => exec s' es

/-- `P` holds in every state the run passes through. -/
def Always (P : State → Prop) : State → List Event → Prop
  | s, [] => P s
  | s, e :: es => P s ∧ ∀ s', step s e = some s' → Always P s' es

/-- Every step the run takes meets `C` in the state before it. -/
def Guarded (C : State → Event → Prop) : State → List Event → Prop
  | _, [] => True
  | s, e :: es => ∀ s', step s e = some s' → C s e ∧ Guarded C s' es

variable {step} {P I : State → Prop} {C : State → Event → Prop}

theorem Always.head {s : State} {es : List Event} (h : Always step P s es) : P s := by
  cases es with
  | nil => exact h
  | cons e es => exact h.1

/-- An invariant that every guarded step preserves holds along every guarded run. -/
theorem Guarded.always {s : State} {es : List Event} (hg : Guarded step C s es)
    (hs : I s) (hstep : ∀ s e s', I s → C s e → step s e = some s' → I s') :
    Always step I s es := by
  induction es generalizing s with
  | nil => exact hs
  | cons e es ih =>
    refine ⟨hs, fun s' he => ?_⟩
    obtain ⟨hc, hrest⟩ := hg s' he
    exact ih hrest (hstep s e s' hs hc he)

/-- Conditions that agree on the steps taken guard the same runs. -/
theorem guarded_congr {C' : State → Event → Prop}
    (h : ∀ s e s', step s e = some s' → (C s e ↔ C' s e)) (s : State) (es : List Event) :
    Guarded step C s es ↔ Guarded step C' s es := by
  induction es generalizing s with
  | nil => rfl
  | cons e es ih => exact forall₂_congr fun s' he => and_congr (h s e s' he) (ih s')

/-- A guarded run from a step that is known. -/
theorem Guarded.cons {s s' : State} {e : Event} {es : List Event} (hs' : step s e = some s')
    (hc : C s e) (h : Guarded step C s' es) : Guarded step C s (e :: es) := by
  intro t ht
  cases hs'.symm.trans ht
  exact ⟨hc, h⟩

/-- An unconditional invariant holds along every run. -/
theorem always_of_invariant {s : State} {es : List Event} (hs : I s)
    (hstep : ∀ s e s', I s → step s e = some s' → I s') : Always step I s es := by
  induction es generalizing s with
  | nil => exact hs
  | cons e es ih => exact ⟨hs, fun s' he => ih (hstep s e s' hs he)⟩

theorem Always.mono {Q : State → Prop} {s : State} {es : List Event} (h : Always step P s es)
    (hpq : ∀ s, P s → Q s) : Always step Q s es := by
  induction es generalizing s with
  | nil => exact hpq s h
  | cons e es ih => exact ⟨hpq s h.1, fun s' he => ih (h.2 s' he)⟩

/-- The exact rule: when a guarded step keeps the invariant and an unguarded one breaks the
property at once, the property holds along a run exactly when the run is guarded. -/
theorem always_iff_guarded {s : State} {es : List Event} (hs : I s)
    (hP : ∀ s, I s → P s)
    (hstep : ∀ s e s', I s → C s e → step s e = some s' → I s')
    (hbad : ∀ s e s', I s → ¬C s e → step s e = some s' → ¬P s') :
    Always step P s es ↔ Guarded step C s es := by
  constructor
  · intro h
    induction es generalizing s with
    | nil => trivial
    | cons e es ih =>
      intro s' he
      have hrest := h.2 s' he
      have hc : C s e := by
        by_contra hc
        exact hbad s e s' hs hc he hrest.head
      exact ⟨hc, ih (hstep s e s' hs hc he) hrest⟩
  · intro hg
    exact (hg.always hs hstep).mono hP

/-- The exact rule for the runs that stay in a domain `D`. -/
theorem always_iff_guarded_within {D : State → Event → Prop} {s : State} {es : List Event}
    (hd : Guarded step D s es) (hs : I s) (hP : ∀ s, I s → P s)
    (hstep : ∀ s e s', I s → D s e → C s e → step s e = some s' → I s')
    (hbad : ∀ s e s', I s → D s e → ¬C s e → step s e = some s' → ¬P s') :
    Always step P s es ↔ Guarded step C s es := by
  induction es generalizing s with
  | nil => exact ⟨fun _ => trivial, fun _ => hP s hs⟩
  | cons e es ih =>
    constructor
    · intro h s' he
      have hrest := h.2 s' he
      obtain ⟨hde, hds⟩ := hd s' he
      have hc : C s e := by
        by_contra hc
        exact hbad s e s' hs hde hc he hrest.head
      exact ⟨hc, (ih hds (hstep s e s' hs hde hc he)).mp hrest⟩
    · intro hg
      refine ⟨hP s hs, fun s' he => ?_⟩
      obtain ⟨hc, hrest⟩ := hg s' he
      obtain ⟨hde, hds⟩ := hd s' he
      exact (ih hds (hstep s e s' hs hde hc he)).mpr hrest

theorem exec_append (s : State) (es es' : List Event) :
    exec step s (es ++ es') = (exec step s es).bind fun t => exec step t es' := by
  induction es generalizing s with
  | nil => rfl
  | cons e es ih =>
    rw [List.cons_append, exec, exec]
    cases step s e with
    | none => rfl
    | some s' => exact ih s'

/-- The parts of a guarded run are guarded. -/
theorem Guarded.append_inv {s : State} {es es' : List Event}
    (h : Guarded step C s (es ++ es')) :
    Guarded step C s es ∧ ∀ t, exec step s es = some t → Guarded step C t es' := by
  induction es generalizing s with
  | nil =>
    refine ⟨trivial, fun t ht => ?_⟩
    cases ht
    exact h
  | cons e es ih =>
    refine ⟨fun s' hs' => ⟨(h s' hs').1, (ih (h s' hs').2).1⟩, fun t ht => ?_⟩
    obtain ⟨s', hs', hrest⟩ := Option.bind_eq_some_iff.mp ht
    exact (ih (h s' hs').2).2 t hrest

/-- A state reached by a run satisfies what always holds along it. -/
theorem Always.of_exec {s t : State} {es : List Event} (h : Always step P s es)
    (he : exec step s es = some t) : P t := by
  induction es generalizing s with
  | nil => cases he; exact h
  | cons e es ih =>
    obtain ⟨s', hs', hrest⟩ := Option.bind_eq_some_iff.mp he
    exact ih (h.2 s' hs') hrest

/-- Two systems that keep a relation in each step keep it along a run of the same events. -/
theorem exec_simulates {State' : Type*} {step' : State' → Event → Option State'}
    {R : State → State' → Prop}
    (hstep : ∀ s r e s', R s r → step s e = some s' → ∃ r', step' r e = some r' ∧ R s' r')
    {s t : State} {r : State'} {es : List Event} (hr : R s r) (he : exec step s es = some t) :
    ∃ u, exec step' r es = some u ∧ R t u := by
  induction es generalizing s r with
  | nil =>
    cases he
    exact ⟨r, rfl, hr⟩
  | cons e es ih =>
    obtain ⟨s', hs', hrest⟩ := Option.bind_eq_some_iff.mp he
    obtain ⟨r', hr', hrel⟩ := hstep s r e s' hr hs'
    obtain ⟨u, hu, hrel'⟩ := ih hrel hrest
    refine ⟨u, ?_, hrel'⟩
    rw [exec, hr']
    exact hu

/-- Whether every step the run takes passes a test on the state before it. -/
def check (step : State → Event → Option State) (c : State → Event → Bool) :
    State → List Event → Bool
  | _, [] => true
  | s, e :: es => (step s e).all fun s' => c s e && check step c s' es

theorem guarded_of_check {c : State → Event → Bool} (hc : ∀ s e, c s e = true → C s e)
    {s : State} {es : List Event} (h : check step c s es = true) : Guarded step C s es := by
  induction es generalizing s with
  | nil => trivial
  | cons e es ih =>
    intro s' hs'
    rw [check, hs', Option.all_some, Bool.and_eq_true] at h
    exact ⟨hc s e h.1, ih h.2⟩

/-- A condition that all events meet whatever the state. -/
theorem guarded_of_forall {D : Event → Prop} {s : State} {es : List Event} (h : ∀ e ∈ es, D e) :
    Guarded step (fun _ => D) s es := by
  induction es generalizing s with
  | nil => trivial
  | cons e es ih =>
    exact fun s' _ => ⟨h e List.mem_cons_self, ih fun e' he' => h e' (List.mem_cons_of_mem e he')⟩

/-- When every step adds the weight of its event to a measure, the measure stays within a bound
exactly when the weights add up to no more. The run is over at the first event that `ends` it. -/
theorem guarded_weight_iff {D : Event → Prop} {m : State → Nat} {w : Event → Nat}
    {ends : Event → Bool} {n : Nat} (hstep : ∀ s e s', step s e = some s' → m s' = m s + w e)
    (hends : ∀ s e, step s e = none ↔ ends e = true) {s : State} {es : List Event}
    (hs : m s ≤ n) :
    Guarded step (fun s e => D e ∧ m s + w e ≤ n) s es ↔
      (∀ e ∈ es.takeWhile (!ends ·), D e) ∧
        m s + ((es.takeWhile (!ends ·)).map w).sum ≤ n := by
  induction es generalizing s with
  | nil => exact iff_of_true trivial ⟨nofun, hs⟩
  | cons e es ih =>
    cases hse : step s e with
    | none =>
      have hover : ¬(!ends e) = true := by
        rw [(hends s e).mp hse]
        exact Bool.false_ne_true
      rw [List.takeWhile_cons, if_neg hover]
      refine iff_of_true (fun s' hs' => ?_) ⟨nofun, hs⟩
      rw [hse] at hs'
      cases hs'
    | some s' =>
      have hgoes : (!ends e) = true := by
        have hne := (hends s e).not.mp (by rw [hse]; exact Option.some_ne_none s')
        rw [Bool.eq_false_iff.mpr hne]
        rfl
      rw [List.takeWhile_cons, if_pos hgoes, List.forall_mem_cons, List.map_cons, List.sum_cons]
      have hm : m s' = m s + w e := hstep s e s' hse
      constructor
      · intro h
        obtain ⟨⟨hd, hfits⟩, hrest⟩ := h s' hse
        obtain ⟨hds, hsum⟩ := (ih (hm ▸ hfits)).mp hrest
        exact ⟨⟨hd, hds⟩, by omega⟩
      · rintro ⟨⟨hd, hds⟩, hsum⟩ t ht
        cases hse.symm.trans ht
        have hfits : m s + w e ≤ n := by omega
        exact ⟨⟨hd, hfits⟩, (ih (hm ▸ hfits)).mpr ⟨hds, by omega⟩⟩

end Transition
