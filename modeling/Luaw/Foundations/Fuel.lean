import Luaw.Foundations.Program

/-!
# Programs on fuel that end or stick

A loop is a family of programs, one for each amount of fuel. It ends when enough fuel leads to a
result of its own; it sticks when it runs out of every amount. `Decides` says that one of the two
is the case and that the states in which too little fuel ran out tell which: those of a loop that
ends are never bad, and a loop that sticks is in a bad state from some amount on.
-/

namespace Program

variable {ε σ α β : Type} {bad : σ → Prop}

/-- Every large amount of fuel leads to this result, every other one runs out in a state that is
not bad. -/
structure EndsAt (bad : σ → Prop) (m : Nat → Program ε σ α) (s : σ)
    (result : Except (Stop ε) α) (s' : σ) : Prop where
  enough : ∃ N, ∀ fuel, N ≤ fuel → exec (m fuel) s = (result, s')
  every : ∀ fuel, exec (m fuel) s = (result, s') ∨
    ∃ t, ¬bad t ∧ exec (m fuel) s = (.error .outOfFuel, t)

/-- Every amount of fuel runs out, every large one in a bad state. -/
structure Sticks (bad : σ → Prop) (m : Nat → Program ε σ α) (s : σ) : Prop where
  enough : ∃ N, ∀ fuel, N ≤ fuel → bad (exec (m fuel) s).2
  every : ∀ fuel, (exec (m fuel) s).1 = .error .outOfFuel

/-- The loop returns with `post`, or raises, or sticks. -/
def Decides (bad : σ → Prop) (post : α → σ → Prop) (m : Nat → Program ε σ α) (s : σ) : Prop :=
  (∃ a s', EndsAt bad m s (.ok a) s' ∧ post a s') ∨
    (∃ e s', EndsAt bad m s (.error (.raised e)) s') ∨ Sticks bad m s

/-- Some amount of fuel is enough. -/
def Terminates (m : Nat → Program ε σ α) (s : σ) : Prop :=
  ∃ fuel, (exec (m fuel) s).1 ≠ .error .outOfFuel

namespace Decides

variable {post : α → σ → Prop} {post' : β → σ → Prop} {s : σ}

/-- A program without loop that returns. -/
theorem of_ok {m : Nat → Program ε σ α} {a : α} {s' : σ}
    (h : ∀ fuel, exec (m fuel) s = (.ok a, s')) (hpost : post a s') : Decides bad post m s :=
  .inl ⟨a, s', ⟨⟨0, fun fuel _ => h fuel⟩, fun fuel => .inl (h fuel)⟩, hpost⟩

/-- A program without loop that raises. -/
theorem of_raised {m : Nat → Program ε σ α} {e : ε} {s' : σ}
    (h : ∀ fuel, exec (m fuel) s = (.error (.raised e), s')) : Decides bad post m s :=
  .inr (.inl ⟨e, s', ⟨⟨0, fun fuel _ => h fuel⟩, fun fuel => .inl (h fuel)⟩⟩)

theorem of_ofExcept {x : Except ε α} (h : ∀ a, x = .ok a → post a s) :
    Decides bad post (fun _ => ofExcept x) s := by
  cases x with
  | ok a => exact of_ok (fun _ => rfl) (h a rfl)
  | error e => exact of_raised fun _ => rfl

/-- The same runs, perhaps from another state. -/
theorem congr {m n : Nat → Program ε σ α} {u : σ}
    (h : ∀ fuel, exec (m fuel) s = exec (n fuel) u) (hn : Decides bad post n u) :
    Decides bad post m s := by
  have hends : ∀ {result s'}, EndsAt bad n u result s' → EndsAt bad m s result s' := by
    rintro result s' ⟨henough, hevery⟩
    exact ⟨by simpa only [h] using henough, by simpa only [h] using hevery⟩
  obtain ⟨a, s', hend, hpost⟩ | ⟨e, s', hend⟩ | ⟨henough, hevery⟩ := hn
  · exact .inl ⟨a, s', hends hend, hpost⟩
  · exact .inr (.inl ⟨e, s', hends hend⟩)
  · exact .inr (.inr ⟨by simpa only [h] using henough, by simpa only [h] using hevery⟩)

theorem mono {m : Nat → Program ε σ α} {post₂ : α → σ → Prop} (h : Decides bad post m s)
    (hpost : ∀ a s', post a s' → post₂ a s') : Decides bad post₂ m s := by
  obtain ⟨a, s', hends, hp⟩ | hrest := h
  · exact .inl ⟨a, s', hends, hpost a s' hp⟩
  · exact .inr hrest

/-- One round of a loop, which takes a unit of fuel and may change the state. -/
theorem succ {m n : Nat → Program ε σ α} {u : σ} (hzero : exec (m 0) s = (.error .outOfFuel, s))
    (hsucc : ∀ fuel, exec (m (fuel + 1)) s = exec (n fuel) u) (hgood : ¬bad s)
    (hn : Decides bad post n u) : Decides bad post m s := by
  have hends : ∀ {result s'}, EndsAt bad n u result s' → EndsAt bad m s result s' := by
    rintro result s' ⟨⟨N, henough⟩, hevery⟩
    refine ⟨⟨N + 1, fun fuel hfuel => ?_⟩, fun fuel => ?_⟩
    · obtain ⟨k, rfl⟩ : ∃ k, fuel = k + 1 := ⟨fuel - 1, by omega⟩
      rw [hsucc, henough k (by omega)]
    · cases fuel with
      | zero => exact .inr ⟨s, hgood, hzero⟩
      | succ fuel =>
        rw [hsucc]
        exact hevery fuel
  obtain ⟨a, s', h, hpost⟩ | ⟨e, s', h⟩ | ⟨⟨N, henough⟩, hevery⟩ := hn
  · exact .inl ⟨a, s', hends h, hpost⟩
  · exact .inr (.inl ⟨e, s', hends h⟩)
  · refine .inr (.inr ⟨⟨N + 1, fun fuel hfuel => ?_⟩, fun fuel => ?_⟩)
    · obtain ⟨k, rfl⟩ : ∃ k, fuel = k + 1 := ⟨fuel - 1, by omega⟩
      rw [hsucc]
      exact henough k (by omega)
    · cases fuel with
      | zero => rw [hzero]
      | succ fuel =>
        rw [hsucc]
        exact hevery fuel

/-- A loop that comes back to the same bad state. -/
theorem of_loop {m : Nat → Program ε σ α} (hzero : exec (m 0) s = (.error .outOfFuel, s))
    (hsucc : ∀ fuel, exec (m (fuel + 1)) s = exec (m fuel) s) (hbad : bad s) :
    Decides bad post m s := by
  have hall : ∀ fuel, exec (m fuel) s = (.error .outOfFuel, s) := by
    intro fuel
    induction fuel with
    | zero => exact hzero
    | succ fuel ih => rw [hsucc, ih]
  exact .inr (.inr ⟨⟨0, fun fuel _ => by rw [hall]; exact hbad⟩, fun fuel => by rw [hall]⟩)

theorem bind {m : Nat → Program ε σ α} {k : Nat → α → Program ε σ β}
    (hm : Decides bad post m s)
    (hk : ∀ a s', post a s' → Decides bad post' (fun fuel => k fuel a) s') :
    Decides bad post' (fun fuel => m fuel >>= k fuel) s := by
  rcases hm with ⟨a, s', ⟨⟨N, henough⟩, hevery⟩, hpost⟩ | ⟨e, s', ⟨N, henough⟩, hevery⟩ |
    ⟨⟨N, henough⟩, hevery⟩
  -- the first program ends well, and the second one decides
  · have hends : ∀ {result t}, EndsAt bad (fun fuel => k fuel a) s' result t →
        EndsAt bad (fun fuel => m fuel >>= k fuel) s result t := by
      rintro result t ⟨⟨N', henough'⟩, hevery'⟩
      refine ⟨⟨N + N', fun fuel hfuel => ?_⟩, fun fuel => ?_⟩
      · rw [exec_bind_ok (henough fuel (by omega)), henough' fuel (by omega)]
      · obtain hok | ⟨u, hu, hout⟩ := hevery fuel
        · rw [exec_bind_ok hok]
          exact hevery' fuel
        · exact .inr ⟨u, hu, exec_bind_error hout⟩
    obtain ⟨b, t, h, hpost'⟩ | ⟨e, t, h⟩ | ⟨⟨N', henough'⟩, hevery'⟩ := hk a s' hpost
    · exact .inl ⟨b, t, hends h, hpost'⟩
    · exact .inr (.inl ⟨e, t, hends h⟩)
    · refine .inr (.inr ⟨⟨N + N', fun fuel hfuel => ?_⟩, fun fuel => ?_⟩)
      · rw [exec_bind_ok (henough fuel (by omega))]
        exact henough' fuel (by omega)
      · obtain hok | ⟨u, -, hout⟩ := hevery fuel
        · rw [exec_bind_ok hok]
          exact hevery' fuel
        · rw [exec_bind_error hout]
  · refine .inr (.inl ⟨e, s', ⟨⟨N, fun fuel hfuel => ?_⟩, fun fuel => ?_⟩⟩)
    · exact exec_bind_error (henough fuel hfuel)
    · obtain herror | ⟨u, hu, hout⟩ := hevery fuel
      · exact .inl (exec_bind_error herror)
      · exact .inr ⟨u, hu, exec_bind_error hout⟩
  -- the first program never ends, and the second one is not reached
  · have hout : ∀ fuel, exec (m fuel) s = (.error .outOfFuel, (exec (m fuel) s).2) :=
      fun fuel => Prod.ext (hevery fuel) rfl
    refine .inr (.inr ⟨⟨N, fun fuel hfuel => ?_⟩, fun fuel => ?_⟩)
    · rw [exec_bind_error (hout fuel)]
      exact henough fuel hfuel
    · rw [exec_bind_error (hout fuel)]

/-- The loop terminates exactly when no amount of fuel runs out in a bad state. -/
theorem terminates_iff {m : Nat → Program ε σ α} (h : Decides bad post m s) :
    Terminates m s ↔ ∀ fuel t, exec (m fuel) s = (.error .outOfFuel, t) → ¬bad t := by
  have hends : ∀ {result s'}, EndsAt bad m s result s' → result ≠ .error .outOfFuel →
      Terminates m s ∧ ∀ fuel t, exec (m fuel) s = (.error .outOfFuel, t) → ¬bad t := by
    rintro result s' ⟨⟨N, henough⟩, hevery⟩ hproper
    refine ⟨⟨N, by rwa [henough N (Nat.le_refl _)]⟩, fun fuel t hout => ?_⟩
    obtain hresult | ⟨u, hu, hout'⟩ := hevery fuel
    · exact absurd (congrArg Prod.fst (hresult.symm.trans hout)) hproper
    · cases hout.symm.trans hout'
      exact hu
  obtain ⟨a, s', h, -⟩ | ⟨e, s', h⟩ | ⟨⟨N, henough⟩, hevery⟩ := h
  · obtain ⟨hterm, hgood⟩ := hends h nofun
    exact iff_of_true hterm hgood
  · obtain ⟨hterm, hgood⟩ := hends h nofun
    exact iff_of_true hterm hgood
  · refine iff_of_false ?_ fun hgood => ?_
    · rintro ⟨fuel, hfuel⟩
      exact hfuel (hevery fuel)
    · exact hgood N _ (Prod.ext (hevery N) rfl) (henough N (Nat.le_refl _))

end Decides

end Program
