import Mathlib.Logic.Basic

/-!
# Programs that change a state, raise errors and run on fuel

A raised error does not undo the changes made before it, as in a language with exceptions and
mutable data. `Keeps I m` says that `m` preserves the state predicate `I` whether it returns
or stops, `Commutes f m` that it neither looks at nor touches what `f` changes.
-/

/-- Why a program did not return. -/
inductive Program.Stop (ε : Type) where
  | raised (e : ε)
  | outOfFuel
  deriving DecidableEq

abbrev Program (ε σ : Type) := ExceptT (Program.Stop ε) (StateM σ)

namespace Program

variable {ε σ α β : Type}

/-- The outcome of a program and the state it leaves behind. -/
def exec (m : Program ε σ α) (s : σ) : Except (Stop ε) α × σ := m s

def raise (e : ε) : Program ε σ α := throw (.raised e)

def outOfFuel : Program ε σ α := throw .outOfFuel

/-- The result of a pure function that may raise. -/
def ofExcept : Except ε α → Program ε σ α
  | .ok a => pure a
  | .error e => raise e

/-- Runs a program and hands a raised error to what follows. Running out of fuel is not an
error of the program. -/
def pcall (m : Program ε σ α) : Program ε σ (Except ε α) := fun s =>
  match exec m s with
  | (.ok a, s') => (.ok (.ok a), s')
  | (.error (.raised e), s') => (.ok (.error e), s')
  | (.error .outOfFuel, s') => (.error .outOfFuel, s')

@[simp] theorem exec_pure (a : α) (s : σ) :
    exec (pure a : Program ε σ α) s = (.ok a, s) := rfl

@[simp] theorem exec_raise (e : ε) (s : σ) :
    exec (raise e : Program ε σ α) s = (.error (.raised e), s) := rfl

@[simp] theorem exec_outOfFuel (s : σ) :
    exec (outOfFuel : Program ε σ α) s = (.error .outOfFuel, s) := rfl

@[simp] theorem exec_get (s : σ) : exec (get : Program ε σ σ) s = (.ok s, s) := rfl

@[simp] theorem exec_set (s t : σ) : exec (set t : Program ε σ PUnit) s = (.ok ⟨⟩, t) := rfl

@[simp] theorem exec_modify (f : σ → σ) (s : σ) :
    exec (modify f : Program ε σ PUnit) s = (.ok ⟨⟩, f s) := rfl

@[simp] theorem exec_ofExcept_ok (a : α) (s : σ) :
    exec (ofExcept (.ok a) : Program ε σ α) s = (.ok a, s) := rfl

@[simp] theorem exec_ofExcept_error (e : ε) (s : σ) :
    exec (ofExcept (.error e) : Program ε σ α) s = (.error (.raised e), s) := rfl

theorem exec_bind (m : Program ε σ α) (f : α → Program ε σ β) (s : σ) :
    exec (m >>= f) s =
      match exec m s with
      | (.ok a, s') => exec (f a) s'
      | (.error stop, s') => (.error stop, s') := by
  show (ExceptT.bindCont f (m s).1) (m s).2 = _
  rw [exec]
  obtain ⟨result, s'⟩ := m s
  cases result <;> rfl

theorem exec_bind_ok {m : Program ε σ α} {f : α → Program ε σ β} {s s' : σ} {a : α}
    (h : exec m s = (.ok a, s')) : exec (m >>= f) s = exec (f a) s' := by
  rw [exec_bind, h]

theorem exec_bind_error {m : Program ε σ α} {f : α → Program ε σ β} {s s' : σ} {e : Stop ε}
    (h : exec m s = (.error e, s')) : exec (m >>= f) s = (.error e, s') := by
  rw [exec_bind, h]

/-- A program that returns has returned at every step. -/
theorem exec_bind_returns {m : Program ε σ α} {f : α → Program ε σ β} {s s' : σ} {b : β}
    (h : exec (m >>= f) s = (.ok b, s')) :
    ∃ a t, exec m s = (.ok a, t) ∧ exec (f a) t = (.ok b, s') := by
  rcases hm : exec m s with ⟨result, t⟩
  cases result with
  | ok a => exact ⟨a, t, rfl, by rwa [exec_bind_ok hm] at h⟩
  | error e =>
    rw [exec_bind_error hm] at h
    cases h

theorem exec_pcall (m : Program ε σ α) (s : σ) :
    exec (pcall m) s =
      match exec m s with
      | (.ok a, s') => (.ok (.ok a), s')
      | (.error (.raised e), s') => (.ok (.error e), s')
      | (.error .outOfFuel, s') => (.error .outOfFuel, s') := rfl

theorem exec_pcall_ok {m : Program ε σ α} {s s' : σ} {a : α} (h : exec m s = (.ok a, s')) :
    exec (pcall m) s = (.ok (.ok a), s') := by
  rw [exec_pcall, h]

theorem exec_pcall_raised {m : Program ε σ α} {s s' : σ} {e : ε}
    (h : exec m s = (.error (.raised e), s')) : exec (pcall m) s = (.ok (.error e), s') := by
  rw [exec_pcall, h]

theorem exec_ite (c : Prop) [Decidable c] (m n : Program ε σ α) (s : σ) :
    exec (if c then m else n) s = if c then exec m s else exec n s :=
  apply_ite (fun p => exec p s) c m n

/-- A pure computation that returns has returned at every step. -/
theorem except_bind_ok {x : Except ε α} {f : α → Except ε β} {b : β} (h : x >>= f = .ok b) :
    ∃ a, x = .ok a ∧ f a = .ok b := by
  cases x with
  | ok a => exact ⟨a, rfl, h⟩
  | error e => cases h

/-- The program preserves a predicate on the state, however it ends. -/
def Keeps (I : σ → Prop) (m : Program ε σ α) : Prop := ∀ s, I s → I (exec m s).2

namespace Keeps

variable {I : σ → Prop}

theorem pure (a : α) : Keeps I (Pure.pure a : Program ε σ α) := fun _ h => h

theorem raise (e : ε) : Keeps I (Program.raise e : Program ε σ α) := fun _ h => h

theorem outOfFuel : Keeps I (Program.outOfFuel : Program ε σ α) := fun _ h => h

theorem get : Keeps I (MonadState.get : Program ε σ σ) := fun _ h => h

theorem ofExcept (r : Except ε α) : Keeps I (Program.ofExcept r : Program ε σ α) := by
  cases r with
  | ok a => exact pure a
  | error e => exact raise e

theorem modify {f : σ → σ} (h : ∀ s, I s → I (f s)) :
    Keeps I (modify f : Program ε σ PUnit) := h

theorem bind {m : Program ε σ α} {f : α → Program ε σ β} (hm : Keeps I m)
    (hf : ∀ a, Keeps I (f a)) : Keeps I (m >>= f) := by
  intro s hs
  have hs' : I (exec m s).2 := hm s hs
  rw [exec_bind]
  rcases hrun : exec m s with ⟨result, s'⟩
  rw [hrun] at hs'
  cases result with
  | ok a => exact hf a s' hs'
  | error e => exact hs'

theorem ite {c : Prop} [Decidable c] {m n : Program ε σ α} (hm : Keeps I m) (hn : Keeps I n) :
    Keeps I (if c then m else n) := by
  split
  · exact hm
  · exact hn

end Keeps

/-- The program does the same on a state that has been changed by `f`, and the change is still
there in the end. -/
def Commutes (f : σ → σ) (m : Program ε σ α) : Prop :=
  ∀ s, exec m (f s) = ((exec m s).1, f (exec m s).2)

namespace Commutes

variable {f : σ → σ}

theorem pure (a : α) : Commutes f (Pure.pure a : Program ε σ α) := fun _ => rfl

theorem raise (e : ε) : Commutes f (Program.raise e : Program ε σ α) := fun _ => rfl

theorem ofExcept (r : Except ε α) : Commutes f (Program.ofExcept r : Program ε σ α) := by
  cases r with
  | ok a => exact pure a
  | error e => exact raise e

theorem modify {g : σ → σ} (h : ∀ s, g (f s) = f (g s)) :
    Commutes f (modify g : Program ε σ PUnit) := by
  intro s
  rw [exec_modify, exec_modify, h]

theorem bind {m : Program ε σ α} {k : α → Program ε σ β} (hm : Commutes f m)
    (hk : ∀ a, Commutes f (k a)) : Commutes f (m >>= k) := by
  intro s
  have hrun := hm s
  rcases hs : exec m s with ⟨result, s'⟩
  rw [hs] at hrun
  cases result with
  | ok a => rw [exec_bind_ok hrun, exec_bind_ok hs, hk a s']
  | error e => rw [exec_bind_error hrun, exec_bind_error hs]

/-- A program that looks at the state, but not at what `f` changes. -/
theorem get_bind {k : σ → Program ε σ β} (hf : ∀ s, k (f s) = k s)
    (hk : ∀ s, Commutes f (k s)) : Commutes f (get >>= k) := by
  intro s
  rw [exec_bind_ok (exec_get _), exec_bind_ok (exec_get _), hf, hk s s]

theorem ite {c : Prop} [Decidable c] {m n : Program ε σ α} (hm : Commutes f m)
    (hn : Commutes f n) : Commutes f (if c then m else n) := by
  split
  · exact hm
  · exact hn

end Commutes

end Program
