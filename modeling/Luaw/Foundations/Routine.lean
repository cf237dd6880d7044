import Luaw.Foundations.Coroutine
import Luaw.Foundations.Program

/-!
# Routines

A routine is a coroutine with a state of its own. It raises errors and runs on fuel as a `Program`
does. When it suspends it holds all the values that its state retains, and those that it keeps
besides or that are around the part of a state on which it runs. `Owns W m U` says that `m`,
started where it owns the shared variables in `W`, reads only what it owns, and that it owns those
in `U` when it returns. `Mirrors F m p` says that `m`, when nobody else runs, does on a part of its
state what the program `p` does.
-/

variable {S : Sharing} {ε σ ρ κ α β : Type}

/-- A routine, which tells at every suspension what the news may change. -/
structure Routine (S : Sharing) (ε σ α : Type) where
  exec : σ → Coroutine S (Except (Program.Stop ε) α × σ)
  holdsAll : ∀ s, (exec s).HoldsAll

namespace Routine

open Program (Stop)

/-- What follows a routine, unless that has stopped. -/
def follow (f : α → Routine S ε σ β) :
    Except (Stop ε) α × σ → Coroutine S (Except (Stop ε) β × σ)
  | (.ok a, s) => (f a).exec s
  | (.error stop, s) => .done (.error stop, s)

theorem follow_holdsAll (f : α → Routine S ε σ β) (r : Except (Stop ε) α × σ) :
    (follow f r).HoldsAll := by
  obtain ⟨result, s⟩ := r
  cases result with
  | ok a => exact (f a).holdsAll s
  | error stop => exact trivial

instance : Monad (Routine S ε σ) where
  pure a := ⟨fun s => .done (.ok a, s), fun _ => trivial⟩
  bind m f := ⟨fun s => (m.exec s).bind (follow f),
    fun s => (m.holdsAll s).bind (follow_holdsAll f)⟩

instance : MonadStateOf σ (Routine S ε σ) where
  get := ⟨fun s => .done (.ok s, s), fun _ => trivial⟩
  set s := ⟨fun _ => .done (.ok ⟨⟩, s), fun _ => trivial⟩
  modifyGet f := ⟨fun s => .done (.ok (f s).1, (f s).2), fun _ => trivial⟩

def raise (e : ε) : Routine S ε σ α := ⟨fun s => .done (.error (.raised e), s), fun _ => trivial⟩

def outOfFuel : Routine S ε σ α := ⟨fun s => .done (.error .outOfFuel, s), fun _ => trivial⟩

def ofExcept : Except ε α → Routine S ε σ α
  | .ok a => pure a
  | .error e => raise e

def read (x : S.Var) : Routine S ε σ (S.Val x) :=
  ⟨fun s => .read x fun v => .done (.ok v, s), fun _ _ => trivial⟩

def assign (x : S.Var) (v : S.Val x) : Routine S ε σ Unit :=
  ⟨fun s => .assign x v (.done (.ok (), s)), fun _ => trivial⟩

def emit (o : S.Obs) : Routine S ε σ Unit :=
  ⟨fun s => .emit o (.done (.ok (), s)), fun _ => trivial⟩

def ask (q : S.Query) : Routine S ε σ S.Answer :=
  ⟨fun s => .ask q fun r => .done (.ok r, s), fun _ _ => trivial⟩

/-- A change that the routine makes itself, which changes its own state too. -/
def announce [Retains S.Kept σ] (c : S.Change) : Routine S ε σ Unit :=
  ⟨fun s => .announce c (.done (.ok (), hear S.act [c] s)), fun _ => trivial⟩

def suspend [Retains S.Kept σ] : Routine S ε σ Unit :=
  ⟨fun s => .suspend (Retains.held s) fun news => .done (.ok (), hear S.act news s),
    fun s => ⟨fun _ => trivial, fun _ hnews => by simp only [hear_of_spared S.act hnews, hear_nil]⟩⟩

/-- What `pcall` makes of the end of a routine. -/
def caught : Except (Stop ε) α × σ → Except (Stop ε) (Except ε α) × σ
  | (.ok a, s) => (.ok (.ok a), s)
  | (.error (.raised e), s) => (.ok (.error e), s)
  | (.error .outOfFuel, s) => (.error .outOfFuel, s)

/-- Runs a routine and hands a raised error to what follows. -/
def pcall (m : Routine S ε σ α) : Routine S ε σ (Except ε α) :=
  ⟨fun s => (m.exec s).bind fun r => .done (caught r),
    fun s => (m.holdsAll s).bind fun _ => trivial⟩

/-- Runs a routine while values are kept in local variables. -/
def keep [Retains S.Kept κ] (kept : κ) (m : Routine S ε σ α) : Routine S ε σ (κ × α) :=
  ⟨fun s => ((m.exec s).carry kept).bind fun (kept, result, s) =>
      .done (result.map fun a => (kept, a), s),
    fun s => (m.holdsAll s).carry.bind fun _ => trivial⟩

/-- Runs a routine on a part of the state, and puts the part back into the rest. -/
def zoom [Retains S.Kept κ] (view : σ → ρ) (rest : σ → κ) (put : ρ → κ → σ)
    (m : Routine S ε ρ α) : Routine S ε σ α :=
  ⟨fun s => ((m.exec (view s)).carry (rest s)).bind fun (kept, result, r) =>
      .done (result, put r kept),
    fun s => (m.holdsAll (view s)).carry.bind fun _ => trivial⟩

def Owns (W : Set S.Var) (m : Routine S ε σ α) (U : Set S.Var) : Prop :=
  ∀ s, (m.exec s).Owning (fun r Z => ∀ a, r.1 = .ok a → U ⊆ Z) W

namespace Owns

variable {W U Z : Set S.Var} {m : Routine S ε σ α} {f : α → Routine S ε σ β}

theorem conseq (h : Owns W m U) (hW : W ⊆ Z) : Owns Z m U := by
  intro s
  apply (h s).mono hW
  intro r X Y hX hXY a ha
  exact (hX a ha).trans hXY

theorem weaken (h : Owns W m U) (hU : Z ⊆ U) : Owns W m Z := by
  intro s
  apply (h s).mono subset_rfl
  intro r X Y hX hXY a ha
  exact hU.trans ((hX a ha).trans hXY)

theorem bind (hm : Owns W m U) (hf : ∀ a, Owns U (f a) Z) : Owns W (m >>= f) Z := by
  intro s
  apply (hm s).bind
  intro r X hX
  obtain ⟨result, s'⟩ := r
  cases result with
  | ok a => exact (hf a).conseq (hX a rfl) s'
  | error stop => exact nofun

theorem pure (a : α) : Owns W (Pure.pure a : Routine S ε σ α) W := fun _ _ _ => subset_rfl

theorem get : Owns W (MonadState.get : Routine S ε σ σ) W := fun _ _ _ => subset_rfl

theorem set (s : σ) : Owns W (MonadState.set s : Routine S ε σ PUnit) W :=
  fun _ _ _ => subset_rfl

theorem modify (g : σ → σ) : Owns W (modify g : Routine S ε σ PUnit) W :=
  fun _ _ _ => subset_rfl

theorem raise (e : ε) : Owns W (raise e : Routine S ε σ α) U := fun _ => nofun

theorem outOfFuel : Owns W (outOfFuel : Routine S ε σ α) U := fun _ => nofun

theorem ofExcept (r : Except ε α) : Owns W (ofExcept r : Routine S ε σ α) W := by
  cases r with
  | ok a => exact pure a
  | error e => exact raise e

theorem read {x : S.Var} (hx : x ∈ W) : Owns W (read x : Routine S ε σ (S.Val x)) W :=
  fun _ => ⟨hx, fun _ _ _ => subset_rfl⟩

theorem assign (x : S.Var) (v : S.Val x) :
    Owns W (assign x v : Routine S ε σ Unit) (insert x W) :=
  fun _ _ _ => subset_rfl

theorem emit (o : S.Obs) : Owns W (emit o : Routine S ε σ Unit) W := fun _ _ _ => subset_rfl

theorem ask (q : S.Query) : Owns W (ask q : Routine S ε σ S.Answer) W :=
  fun _ _ _ _ => subset_rfl

theorem announce [Retains S.Kept σ] (c : S.Change) :
    Owns W (announce c : Routine S ε σ Unit) W := fun _ _ _ => subset_rfl

theorem suspend [Retains S.Kept σ] : Owns W (suspend : Routine S ε σ Unit) ∅ :=
  fun _ _ _ _ => subset_rfl

theorem pcall (h : Owns W m U) : Owns W (pcall m) ∅ :=
  fun s => (h s).bind fun _ _ _ _ _ => Set.empty_subset _

theorem keep [Retains S.Kept κ] {kept : κ} (h : Owns W m U) : Owns W (keep kept m) U := by
  intro s
  apply (h s).carry.bind
  intro r X hX a ha
  obtain ⟨kept, result, s'⟩ := r
  cases result with
  | ok b => exact hX b rfl
  | error stop => cases ha

theorem zoom [Retains S.Kept κ] {view : σ → ρ} {rest : σ → κ} {put : ρ → κ → σ}
    {m : Routine S ε ρ α} (h : Owns W m U) : Owns W (zoom view rest put m) U :=
  fun s => (h (view s)).carry.bind fun _ _ hX => hX

theorem ite {c : Prop} [Decidable c] {n : Routine S ε σ α} (hm : Owns W m U)
    (hn : Owns W n U) : Owns W (if c then m else n) U := by
  split
  · exact hm
  · exact hn

end Owns

/-- A part of a state, where a condition holds. -/
structure Focus (σ ρ : Type) where
  Inv : σ → Prop
  view : σ → ρ
  put : ρ → σ → σ
  inv_put : ∀ r s, Inv s → Inv (put r s)
  view_put : ∀ r s, view (put r s) = r
  put_put : ∀ r r' s, put r' (put r s) = put r' s
  put_view : ∀ s, put (view s) s = s

section Mirrors

variable {F : Focus σ ρ} {s : σ}

/-- The routine does here what the program does on the part in focus, whatever the shared
variables are and whatever is answered. -/
def MirrorsAt (F : Focus σ ρ) (s : σ) (m : Routine S ε σ α) (p : Program ε ρ α) : Prop :=
  ∀ answer value, ((m.exec s).finish answer value).1 =
    ((p.exec (F.view s)).1, F.put (p.exec (F.view s)).2 s)

def Mirrors (F : Focus σ ρ) (m : Routine S ε σ α) (p : Program ε ρ α) : Prop :=
  ∀ s, F.Inv s → MirrorsAt F s m p

namespace MirrorsAt

variable {m : Routine S ε σ α} {f : α → Routine S ε σ β} {p : Program ε ρ α}
  {q : α → Program ε ρ β}

theorem bind (hs : F.Inv s) (hm : MirrorsAt F s m p) (hf : ∀ a, Mirrors F (f a) (q a)) :
    MirrorsAt F s (m >>= f) (p >>= q) := by
  intro answer value
  show (((m.exec s).bind (follow f)).finish answer value).1 = _
  rw [Coroutine.finish_bind, hm answer value, Program.exec_bind]
  obtain ⟨result, r⟩ := p.exec (F.view s)
  cases result with
  | ok a =>
    have h := hf a (F.put r s) (F.inv_put r s hs) answer ((m.exec s).finish answer value).2
    rw [F.view_put, F.put_put] at h
    exact h
  | error stop => rfl

theorem pure (a : α) : MirrorsAt F s (Pure.pure a : Routine S ε σ α) (Pure.pure a) :=
  fun _ _ => congrArg (Prod.mk _) (F.put_view s).symm

theorem raise (e : ε) : MirrorsAt F s (raise e : Routine S ε σ α) (Program.raise e) :=
  fun _ _ => congrArg (Prod.mk _) (F.put_view s).symm

theorem ofExcept (r : Except ε α) :
    MirrorsAt F s (ofExcept r : Routine S ε σ α) (Program.ofExcept r) := by
  cases r with
  | ok a => exact pure a
  | error e => exact raise e

theorem set {t : σ} {r : ρ} (h : t = F.put r s) :
    MirrorsAt F s (MonadState.set t : Routine S ε σ PUnit) (MonadState.set r) :=
  fun _ _ => congrArg (Prod.mk _) h

theorem modify {g : σ → σ} {h : ρ → ρ} (hgh : g s = F.put (h (F.view s)) s) :
    MirrorsAt F s (modify g : Routine S ε σ PUnit) (modify h) :=
  fun _ _ => congrArg (Prod.mk _) hgh

theorem get_bind {f : σ → Routine S ε σ β} {q : ρ → Program ε ρ β}
    (h : MirrorsAt F s (f s) (q (F.view s))) : MirrorsAt F s (get >>= f) (get >>= q) := h

theorem suspend_bind [Retains S.Kept σ] {f : Unit → Routine S ε σ β} {p : Program ε ρ β}
    (h : MirrorsAt F s (f ()) p) : MirrorsAt F s (suspend >>= f) p := h

theorem emit_bind {o : S.Obs} {f : Unit → Routine S ε σ β} {p : Program ε ρ β}
    (h : MirrorsAt F s (f ()) p) : MirrorsAt F s (emit o >>= f) p := h

theorem ite {c d : Prop} [Decidable c] [Decidable d] {m n : Routine S ε σ α}
    {p q : Program ε ρ α} (hcd : c ↔ d) (hm : MirrorsAt F s m p) (hn : MirrorsAt F s n q) :
    MirrorsAt F s (if c then m else n) (if d then p else q) := by
  by_cases hc : c
  · rw [if_pos hc, if_pos (hcd.mp hc)]
    exact hm
  · rw [if_neg hc, if_neg (mt hcd.mpr hc)]
    exact hn

end MirrorsAt

/-- With enough turns a routine that is not disturbed ends as the program does, whatever the other
coroutines do. -/
theorem Mirrors.run_done {ι : Type} [DecidableEq ι] {m : Routine S ε σ α} {p : Program ε ρ α}
    (h : Mirrors F m p) (hs : F.Inv s)
    {machine : Coroutine.Machine ι S (Except (Stop ε) α × σ)} {i : ι}
    (hcode : (machine.threads i).code = m.exec s) (howns : (m.exec s).Isolated)
    (answer : ℕ → S.Query → S.Answer) (answer₀ : S.Query → S.Answer) (value : ∀ x, S.Val x) :
    ∃ n, ∀ schedule : List ι, n ≤ schedule.count i → machine.Undisturbed answer i schedule →
      (machine.run answer schedule).AsksSettled answer (fun _ => answer₀) i →
      ((machine.run answer schedule).threads i).code =
        .done ((p.exec (F.view s)).1, F.put (p.exec (F.view s)).2 s) := by
  have hdone := Coroutine.Machine.run_done (m := machine) (i := i) (hcode ▸ howns)
    (hcode ▸ m.holdsAll s) answer answer₀ value
  rw [hcode, h s hs answer₀ value] at hdone
  exact hdone

end Mirrors

end Routine
