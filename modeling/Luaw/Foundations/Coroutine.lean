import Luaw.Foundations.Retaining
import Mathlib.Data.Set.Insert
import Mathlib.Logic.Function.Basic

/-!
# Coroutines that share variables and values

A scheduler resumes one coroutine at a time, and that runs until it suspends itself or ends. The
variables are shared, so what a coroutine reads after a suspension may be what another one has
assigned meanwhile. `Owning` is the discipline that rules this out: only variables are read that
the coroutine has assigned since it was resumed.

Values are shared too: what one coroutine changes in place is changed wherever it is kept. A
coroutine announces its changes, and those that others have announced meanwhile are the news when
it is resumed. `HoldsAll` says that a suspension tells all the values that the news may change.

A coroutine that keeps to both does the same under every schedule as it does alone, as long as the
news spares what it holds and what it asks for can have one answer only.
-/

/-- What coroutines share: variables, values from `Kept` with what a change does to them, and a
world that answers questions. Somebody from outside sees observations from `Obs`. -/
structure Sharing where
  Var : Type
  [decEq : DecidableEq Var]
  Val : Var → Type
  Obs : Type
  Kept : Type
  Change : Type
  act : Change → Kept → Kept
  Query : Type
  Answer : Type

attribute [instance] Sharing.decEq

variable {S : Sharing} {α β ι κ σ : Type}

/-- A coroutine that returns a value from `α`. When it suspends it tells the values that it holds,
and goes on with the news. -/
inductive Coroutine (S : Sharing) (α : Type) : Type
  | done (a : α)
  | read (x : S.Var) (k : S.Val x → Coroutine S α)
  | assign (x : S.Var) (v : S.Val x) (k : Coroutine S α)
  | emit (o : S.Obs) (k : Coroutine S α)
  | ask (q : S.Query) (k : S.Answer → Coroutine S α)
  | announce (c : S.Change) (k : Coroutine S α)
  | suspend (held : List S.Kept) (k : List S.Change → Coroutine S α)

namespace Coroutine

def bind : Coroutine S α → (α → Coroutine S β) → Coroutine S β
  | done a, f => f a
  | read x k, f => read x fun v => (k v).bind f
  | assign x v k, f => assign x v (k.bind f)
  | emit o k, f => emit o (k.bind f)
  | ask q k, f => ask q fun r => (k r).bind f
  | announce c k, f => announce c (k.bind f)
  | suspend held k, f => suspend held fun news => (k news).bind f

/-- A coroutine that carries values along, which are changed with all the others. -/
def carry [Retains S.Kept κ] : κ → Coroutine S α → Coroutine S (κ × α)
  | kept, done a => done (kept, a)
  | kept, read x k => read x fun v => carry kept (k v)
  | kept, assign x v k => assign x v (carry kept k)
  | kept, emit o k => emit o (carry kept k)
  | kept, ask q k => ask q fun r => carry kept (k r)
  | kept, announce c k => announce c (carry (hear S.act [c] kept) k)
  | kept, suspend held k =>
    suspend (held ++ Retains.held kept) fun news => carry (hear S.act news kept) (k news)

/-- What a coroutine holds while it is suspended. -/
def held : Coroutine S α → List S.Kept
  | suspend held _ => held
  | _ => []

/-- A suspended coroutine goes on. -/
def wake (news : List S.Change) : Coroutine S α → Coroutine S α
  | suspend _ k => k news
  | c => c

/-- Every variable that is read is in `W` or has been assigned, where a suspension takes all of
them away; in the end `Q` holds of the value and of the variables that are owned then. -/
def Owning (Q : α → Set S.Var → Prop) : Set S.Var → Coroutine S α → Prop
  | W, done a => Q a W
  | W, read x k => x ∈ W ∧ ∀ v, Owning Q W (k v)
  | W, assign x _ k => Owning Q (insert x W) k
  | W, emit _ k | W, announce _ k => Owning Q W k
  | W, ask _ k => ∀ r, Owning Q W (k r)
  | _, suspend _ k => ∀ news, Owning Q ∅ (k news)

/-- The discipline from a resumption on. -/
def Isolated (c : Coroutine S α) : Prop := Owning (fun _ _ => True) ∅ c

/-- At every suspension, news that spares what is held changes nothing. -/
def HoldsAll : Coroutine S α → Prop
  | done _ => True
  | read _ k => ∀ v, HoldsAll (k v)
  | ask _ k => ∀ r, HoldsAll (k r)
  | assign _ _ k | emit _ k | announce _ k => HoldsAll k
  | suspend held k =>
    (∀ news, HoldsAll (k news)) ∧ ∀ news, Spared S.act news held → k news = k []

namespace Owning

variable {P Q : α → Set S.Var → Prop} {W U : Set S.Var} {c : Coroutine S α}

theorem mono (h : Owning P W c) (hW : W ⊆ U) (hP : ∀ a W U, P a W → W ⊆ U → Q a U) :
    Owning Q U c := by
  induction c generalizing W U with
  | done a => exact hP a W U h hW
  | read x k ih => exact ⟨hW h.1, fun v => ih v (h.2 v) hW⟩
  | assign x v k ih => exact ih h (Set.insert_subset_insert hW)
  | emit o k ih => exact ih h hW
  | ask q k ih => exact fun r => ih r (h r) hW
  | announce c k ih => exact ih h hW
  | suspend held k ih => exact fun news => ih news (h news) subset_rfl

theorem bind {f : α → Coroutine S β} {R : β → Set S.Var → Prop} (h : Owning P W c)
    (hf : ∀ a W, P a W → Owning R W (f a)) : Owning R W (c.bind f) := by
  induction c generalizing W with
  | done a => exact hf a W h
  | read x k ih => exact ⟨h.1, fun v => ih v (h.2 v)⟩
  | assign x v k ih => exact ih h
  | emit o k ih => exact ih h
  | ask q k ih => exact fun r => ih r (h r)
  | announce c k ih => exact ih h
  | suspend held k ih => exact fun news => ih news (h news)

theorem carry [Retains S.Kept κ] {kept : κ} (h : Owning P W c) :
    Owning (fun (x : κ × α) Z => P x.2 Z) W (c.carry kept) := by
  induction c generalizing W kept with
  | done a => exact h
  | read x k ih => exact ⟨h.1, fun v => ih v (h.2 v)⟩
  | assign x v k ih => exact ih h
  | emit o k ih => exact ih h
  | ask q k ih => exact fun r => ih r (h r)
  | announce c k ih => exact ih h
  | suspend held k ih => exact fun news => ih news (h news)

theorem isolated (h : Owning P ∅ c) : Isolated c :=
  h.mono subset_rfl fun _ _ _ _ _ => trivial

end Owning

/-- News wakes the coroutine as one that owns nothing. -/
theorem Isolated.wake {c : Coroutine S α} (h : c.Isolated) (news : List S.Change) :
    (c.wake news).Isolated := by
  cases c with
  | suspend held k => exact h news
  | _ => exact h

namespace HoldsAll

variable {c : Coroutine S α}

theorem bind {f : α → Coroutine S β} (h : c.HoldsAll) (hf : ∀ a, (f a).HoldsAll) :
    (c.bind f).HoldsAll := by
  induction c with
  | done a => exact hf a
  | read x k ih => exact fun v => ih v (h v)
  | assign x v k ih => exact ih h
  | emit o k ih => exact ih h
  | ask q k ih => exact fun r => ih r (h r)
  | announce c k ih => exact ih h
  | suspend held k ih =>
    exact ⟨fun news => ih news (h.1 news), fun news hnews => by simp only [h.2 news hnews]⟩

theorem carry [Retains S.Kept κ] {kept : κ} (h : c.HoldsAll) : (c.carry kept).HoldsAll := by
  induction c generalizing kept with
  | done a => exact trivial
  | read x k ih => exact fun v => ih v (h v)
  | assign x v k ih => exact ih h
  | emit o k ih => exact ih h
  | ask q k ih => exact fun r => ih r (h r)
  | announce c k ih => exact ih h
  | suspend held k ih =>
    refine ⟨fun news => ih news (h.1 news), fun news hnews => ?_⟩
    simp only [h.2 news hnews.left, hear_of_spared S.act hnews.right, hear_nil]

theorem wake (h : c.HoldsAll) (news : List S.Change) : (c.wake news).HoldsAll := by
  cases c with
  | suspend held k => exact h.1 news
  | _ => exact h

theorem wake_eq (h : c.HoldsAll) {news : List S.Change} (hnews : Spared S.act news c.held) :
    c.wake news = c.wake [] := by
  cases c with
  | suspend held k => exact h.2 news hnews
  | _ => rfl

end HoldsAll

/-- What a coroutine returns in the end when nobody else runs, in a world that answers a question
always in the same way, and the variables then. -/
def finish (answer : S.Query → S.Answer) :
    Coroutine S α → (∀ x, S.Val x) → α × (∀ x, S.Val x)
  | done a, value => (a, value)
  | read x k, value => (k (value x)).finish answer value
  | assign x v k, value => k.finish answer (Function.update value x v)
  | ask q k, value => (k (answer q)).finish answer value
  | emit _ k, value | announce _ k, value => k.finish answer value
  | suspend _ k, value => (k []).finish answer value

theorem finish_bind (answer : S.Query → S.Answer) (c : Coroutine S α)
    (f : α → Coroutine S β) (value : ∀ x, S.Val x) :
    (c.bind f).finish answer value =
      (f (c.finish answer value).1).finish answer (c.finish answer value).2 := by
  induction c generalizing value with
  | done a => rfl
  | read x k ih => exact ih _ value
  | assign x v k ih => exact ih _
  | emit o k ih => exact ih value
  | ask q k ih => exact ih _ value
  | announce c k ih => exact ih value
  | suspend held k ih => exact ih [] value

/-- Somebody reads a variable, which has the value that `writer` assigned to it, if anyone. -/
structure Access (ι V : Type) where
  reader : ι
  var : V
  writer : Option ι

/-- The shared variables, with who assigned them last, and what has been read, asked and announced
so far. -/
structure Store (ι : Type) (S : Sharing) where
  value : ∀ x, S.Val x
  writer : S.Var → Option ι
  reads : List (Access ι S.Var)
  asked : List (ι × S.Query)
  announced : List S.Change

/-- What is left of a coroutine, and what it has emitted. -/
structure Thread (S : Sharing) (α : Type) where
  code : Coroutine S α
  log : List S.Obs

namespace Store

/-- Nobody has done anything yet. -/
def initial (value : ∀ x, S.Val x) : Store ι S := ⟨value, fun _ => none, [], [], []⟩

def noteRead (s : Store ι S) (i : ι) (x : S.Var) : Store ι S :=
  { s with reads := s.reads ++ [⟨i, x, s.writer x⟩] }

def assign (s : Store ι S) (i : ι) (x : S.Var) (v : S.Val x) : Store ι S :=
  { s with
    value := Function.update s.value x v
    writer := Function.update s.writer x (some i) }

def noteAsked (s : Store ι S) (i : ι) (q : S.Query) : Store ι S :=
  { s with asked := s.asked ++ [(i, q)] }

def announce (s : Store ι S) (c : S.Change) : Store ι S :=
  { s with announced := s.announced ++ [c] }

/-- Every value that was read had been assigned by its reader. -/
def OwnReads (s : Store ι S) : Prop := ∀ access ∈ s.reads, access.writer = some access.reader

theorem OwnReads.noteRead {s : Store ι S} {i : ι} {x : S.Var} (h : s.OwnReads)
    (hx : s.writer x = some i) : (s.noteRead i x).OwnReads := by
  intro access haccess
  cases List.mem_append.mp haccess with
  | inl hold => exact h access hold
  | inr hnew =>
    rw [List.mem_singleton.mp hnew]
    exact hx

end Store

/-- A question that has one answer only, whichever of the two worlds gives it and when. -/
def Settled (answer answer' : ℕ → S.Query → S.Answer) (q : S.Query) : Prop :=
  ∀ m n, answer m q = answer' n q

section Turn

variable {answer answer' : ℕ → S.Query → S.Answer}

/-- A turn of the coroutine `i`, up to its next suspension or its end. The answer to a question
may depend on when it is asked. -/
def turn (answer : ℕ → S.Query → S.Answer) (i : ι) :
    Coroutine S α → List S.Obs → Store ι S → Thread S α × Store ι S
  | done a, log, s => (⟨done a, log⟩, s)
  | read x k, log, s => (k (s.value x)).turn answer i log (s.noteRead i x)
  | assign x v k, log, s => k.turn answer i log (s.assign i x v)
  | emit o k, log, s => k.turn answer i (log ++ [o]) s
  | ask q k, log, s => (k (answer s.asked.length q)).turn answer i log (s.noteAsked i q)
  | announce c k, log, s => k.turn answer i log (s.announce c)
  | suspend held k, log, s => (⟨suspend held k, log⟩, s)

variable {Q : α → Set S.Var → Prop} {W : Set S.Var} {c : Coroutine S α}

theorem turn_asked {i : ι} {log : List S.Obs} {s : Store ι S} {x : ι × S.Query}
    (h : x ∈ s.asked) : x ∈ (c.turn answer i log s).2.asked := by
  induction c generalizing log s with
  | done a => exact h
  | read x k ih => exact ih _ h
  | assign x v k ih => exact ih h
  | emit o k ih => exact ih h
  | ask q k ih => exact ih _ (List.mem_append_left _ h)
  | announce c k ih => exact ih h
  | suspend held k ih => exact h

/-- What a turn does depends only on the variables that are owned and on what it is answered. -/
theorem turn_congr {i : ι} {j : κ} {log : List S.Obs} {s : Store ι S} {t : Store κ S}
    (h : Owning Q W c) (hst : ∀ x ∈ W, s.value x = t.value x)
    (hasked : ∀ q, (i, q) ∈ (c.turn answer i log s).2.asked → Settled answer answer' q) :
    (c.turn answer i log s).1 = (c.turn answer' j log t).1 := by
  induction c generalizing W log s t with
  | done a => rfl
  | read x k ih =>
    rw [turn, turn, ← hst x h.1]
    exact ih _ (h.2 _) hst hasked
  | assign x v k ih =>
    refine ih h (fun y hy => ?_) hasked
    by_cases hxy : y = x
    · subst hxy
      simp [Store.assign]
    · simp [Store.assign, hxy, hst y (hy.resolve_left hxy)]
  | emit o k ih => exact ih h hst hasked
  | ask q k ih =>
    have hnoted : (i, q) ∈ (s.noteAsked i q).asked :=
      List.mem_append_right _ (List.mem_singleton.mpr rfl)
    have hq : Settled answer answer' q :=
      hasked q (turn_asked (c := k (answer s.asked.length q)) (s := s.noteAsked i q) hnoted)
    rw [turn, turn, ← hq s.asked.length t.asked.length]
    exact ih _ (h _) hst hasked
  | announce c k ih => exact ih h hst hasked
  | suspend held k ih => rfl

theorem turn_isolated {i : ι} {log : List S.Obs} {s : Store ι S}
    (h : Owning (fun _ _ => True) W c) : Isolated (c.turn answer i log s).1.code := by
  induction c generalizing W log s with
  | done a => exact trivial
  | read x k ih => exact ih _ (h.2 _)
  | assign x v k ih => exact ih h
  | emit o k ih => exact ih h
  | ask q k ih => exact ih _ (h _)
  | announce c k ih => exact ih h
  | suspend held k ih => exact h

theorem turn_holdsAll {i : ι} {log : List S.Obs} {s : Store ι S} (h : c.HoldsAll) :
    (c.turn answer i log s).1.code.HoldsAll := by
  induction c generalizing log s with
  | done a => exact trivial
  | read x k ih => exact ih _ (h _)
  | assign x v k ih => exact ih h
  | emit o k ih => exact ih h
  | ask q k ih => exact ih _ (h _)
  | announce c k ih => exact ih h
  | suspend held k ih => exact h

theorem turn_ownReads {i : ι} {log : List S.Obs} {s : Store ι S} (h : Owning Q W c)
    (hW : ∀ x ∈ W, s.writer x = some i) (hs : s.OwnReads) :
    (c.turn answer i log s).2.OwnReads := by
  induction c generalizing W log s with
  | done a => exact hs
  | read x k ih => exact ih _ (h.2 _) hW (hs.noteRead (hW x h.1))
  | assign x v k ih =>
    have hassign : (s.assign i x v).OwnReads := hs
    apply ih h ?_ hassign
    intro y hy
    by_cases hxy : y = x
    · subst hxy
      simp [Store.assign]
    · simp [Store.assign, hxy, hW y (hy.resolve_left hxy)]
  | emit o k ih => exact ih h hW hs
  | ask q k ih => exact ih _ (h _) hW hs
  | announce c k ih => exact ih h hW hs
  | suspend held k ih => exact hs

end Turn

/-- The coroutines `ι` with what they share. `heard` says how many of the changes that have been
announced a coroutine has heard of. -/
structure Machine (ι : Type) (S : Sharing) (α : Type) where
  store : Store ι S
  threads : ι → Thread S α
  heard : ι → ℕ

namespace Machine

/-- Coroutines that have not run yet. -/
def start (value : ∀ x, S.Val x) (code : ι → Coroutine S α) : Machine ι S α :=
  ⟨.initial value, fun i => ⟨code i, []⟩, fun _ => 0⟩

/-- One coroutine that has not run yet, and no other. -/
def alone (value : ∀ x, S.Val x) (code : Coroutine S α) : Machine Unit S α :=
  start value fun _ => code

/-- What has been announced since the coroutine had its last turn. -/
def news (m : Machine ι S α) (i : ι) : List S.Change := m.store.announced.drop (m.heard i)

theorem start_ownReads (value : ∀ x, S.Val x) (code : ι → Coroutine S α) :
    (start value code).store.OwnReads := nofun

/-- The only coroutine after a turn. -/
def rested (turned : Thread S α × Store Unit S) : Machine Unit S α :=
  ⟨turned.2, fun _ => turned.1, fun _ => turned.2.announced.length⟩

theorem rested_news (turned : Thread S α × Store Unit S) : (rested turned).news () = [] :=
  List.drop_length

variable [DecidableEq ι] {answer answer' : ℕ → S.Query → S.Answer}

/-- The coroutine hears the news and gets a turn; what it announces is no news to it. -/
def resume (answer : ℕ → S.Query → S.Answer) (m : Machine ι S α) (i : ι) : Machine ι S α :=
  let (thread, store) :=
    ((m.threads i).code.wake (m.news i)).turn answer i (m.threads i).log m.store
  ⟨store, Function.update m.threads i thread, Function.update m.heard i store.announced.length⟩

/-- The coroutines get their turns in the order of the schedule. -/
def run (answer : ℕ → S.Query → S.Answer) (schedule : List ι) (m : Machine ι S α) :
    Machine ι S α :=
  schedule.foldl (resume answer) m

@[simp] theorem run_nil (m : Machine ι S α) : run answer [] m = m := rfl

@[simp] theorem run_cons (i : ι) (schedule : List ι) (m : Machine ι S α) :
    run answer (i :: schedule) m = run answer schedule (m.resume answer i) := rfl

/-- Whenever the coroutine is resumed, the news spares what it holds. -/
def Undisturbed (answer : ℕ → S.Query → S.Answer) (i : ι) : List ι → Machine ι S α → Prop
  | [], _ => True
  | j :: schedule, m => (j = i → Spared S.act (m.news i) (m.threads i).code.held) ∧
      Undisturbed answer i schedule (m.resume answer j)

instance decidableUndisturbed [DecidableEq S.Kept] (answer : ℕ → S.Query → S.Answer) (i : ι) :
    ∀ (schedule : List ι) (m : Machine ι S α), Decidable (Undisturbed answer i schedule m)
  | [], _ => .isTrue trivial
  | j :: schedule, m =>
    have := decidableUndisturbed answer i schedule (m.resume answer j)
    inferInstanceAs (Decidable ((j = i → Spared S.act (m.news i) (m.threads i).code.held) ∧
      Undisturbed answer i schedule (m.resume answer j)))

/-- Whatever the coroutine asks in the run can have one answer only. -/
def AsksSettled (answer answer' : ℕ → S.Query → S.Answer) (i : ι) (m : Machine ι S α) : Prop :=
  ∀ q, (i, q) ∈ m.store.asked → Settled answer answer' q

/-- Every coroutine keeps to the discipline of the variables. -/
def AllIsolated (m : Machine ι S α) : Prop := ∀ i, Isolated (m.threads i).code

theorem resume_self (m : Machine ι S α) (i : ι) :
    (m.resume answer i).threads i =
      (((m.threads i).code.wake (m.news i)).turn answer i (m.threads i).log m.store).1 :=
  Function.update_self ..

theorem resume_of_ne (answer : ℕ → S.Query → S.Answer) (m : Machine ι S α) {i j : ι} (h : j ≠ i) :
    (m.resume answer i).threads j = m.threads j :=
  Function.update_of_ne h ..

theorem resume_news_self (m : Machine ι S α) (i : ι) : (m.resume answer i).news i = [] := by
  simp [news, resume]

theorem resume_alone (m : Machine Unit S α) :
    m.resume answer () =
      rested (((m.threads ()).code.wake (m.news ())).turn answer () (m.threads ()).log m.store) :=
  congrArg₂ (Machine.mk _) (funext fun _ => rfl) (funext fun _ => rfl)

theorem run_asked {x : ι × S.Query} (schedule : List ι) {m : Machine ι S α}
    (h : x ∈ m.store.asked) : x ∈ (run answer schedule m).store.asked := by
  induction schedule generalizing m with
  | nil => exact h
  | cons i schedule ih => exact ih (turn_asked h)

theorem AllIsolated.resume {m : Machine ι S α} (h : m.AllIsolated) (i : ι) :
    (m.resume answer i).AllIsolated := by
  intro j
  by_cases hj : j = i
  · subst hj
    rw [resume_self]
    exact turn_isolated ((h j).wake _)
  · rw [resume_of_ne answer m hj]
    exact h j

/-- A coroutine that is not disturbed is where the same number of turns brings it alone, whatever
the shared variables are and whatever the others do. -/
theorem run_threads {m : Machine ι S α} {n : Machine Unit S α} {i : ι}
    (howns : Isolated (m.threads i).code) (hholds : (m.threads i).code.HoldsAll)
    (hthread : n.threads () = m.threads i) (hnews : n.news () = []) (schedule : List ι)
    (hspared : Undisturbed answer i schedule m)
    (hsettled : (run answer schedule m).AsksSettled answer answer' i) :
    (run answer schedule m).threads i =
      (run answer' (List.replicate (schedule.count i) ()) n).threads () := by
  induction schedule generalizing m n with
  | nil => exact hthread.symm
  | cons j schedule ih =>
    obtain ⟨hfirst, hspared⟩ := hspared
    by_cases hj : j = i
    · subst hj
      have hwake : (m.threads j).code.wake (m.news j) = (m.threads j).code.wake [] :=
        hholds.wake_eq (hfirst rfl)
      have hasked : ∀ q, (j, q) ∈ (((m.threads j).code.wake []).turn answer j (m.threads j).log
          m.store).2.asked → Settled answer answer' q := by
        intro q hq
        rw [← hwake] at hq
        exact hsettled q (run_asked schedule hq)
      have hturn : (m.resume answer j).threads j = (n.resume answer' ()).threads () := by
        rw [resume_self, resume_self, hthread, hwake, hnews]
        exact turn_congr (howns.wake []) (fun x hx => hx.elim) hasked
      rw [List.count_cons_self, List.replicate_succ, run_cons, run_cons]
      refine ih ?_ ?_ hturn.symm (resume_news_self n ()) hspared hsettled
      · rw [resume_self]
        exact turn_isolated (howns.wake _)
      · rw [resume_self]
        exact turn_holdsAll (hholds.wake _)
    · have hother := resume_of_ne answer m (Ne.symm hj)
      rw [List.count_cons_of_ne hj, run_cons]
      exact ih (hother ▸ howns) (hother ▸ hholds) (hother ▸ hthread) hnews hspared hsettled

/-- The only coroutine comes to its end in some turns more. -/
theorem run_finish (answer : S.Query → S.Answer) (c : Coroutine S α) (log : List S.Obs)
    (s : Store Unit S) : ∃ n, ∀ turns, n ≤ turns →
      ((run (fun _ => answer) (List.replicate turns ())
        (rested (c.turn (fun _ => answer) () log s))).threads ()).code =
          done (c.finish answer s.value).1 := by
  induction c generalizing log s with
  | done a =>
    refine ⟨0, fun turns _ => ?_⟩
    induction turns with
    | zero => rfl
    | succ turns ih =>
      rw [List.replicate_succ, run_cons, resume_alone, rested_news]
      exact ih (Nat.zero_le _)
  | read x k ih => exact ih (s.value x) log (s.noteRead () x)
  | assign x v k ih => exact ih log (s.assign () x v)
  | emit o k ih => exact ih (log ++ [o]) s
  | ask q k ih => exact ih (answer q) log (s.noteAsked () q)
  | announce c k ih => exact ih log (s.announce c)
  | suspend held k ih =>
    -- the next turn goes on without news
    obtain ⟨n, hn⟩ := ih [] log s
    refine ⟨n + 1, fun turns hturns => ?_⟩
    obtain ⟨turns, rfl⟩ : ∃ t, turns = t + 1 := ⟨turns - 1, by omega⟩
    rw [List.replicate_succ, run_cons, resume_alone, rested_news]
    exact hn turns (by omega)

/-- With enough turns a coroutine that is not disturbed comes to the end that it would come to
alone. -/
theorem run_done {m : Machine ι S α} {i : ι} (howns : Isolated (m.threads i).code)
    (hholds : (m.threads i).code.HoldsAll) (answer : ℕ → S.Query → S.Answer)
    (answer₀ : S.Query → S.Answer) (value : ∀ x, S.Val x) :
    ∃ n, ∀ schedule : List ι, n ≤ schedule.count i → Undisturbed answer i schedule m →
      (run answer schedule m).AsksSettled answer (fun _ => answer₀) i →
      ((run answer schedule m).threads i).code =
        done ((m.threads i).code.finish answer₀ value).1 := by
  have hwake : (((m.threads i).code.wake []).finish answer₀ value).1 =
      ((m.threads i).code.finish answer₀ value).1 := by
    cases (m.threads i).code <;> rfl
  obtain ⟨n, hn⟩ :=
    run_finish answer₀ ((m.threads i).code.wake []) (m.threads i).log (.initial value)
  refine ⟨n + 1, fun schedule hcount hspared hsettled => ?_⟩
  have halone : news (⟨.initial value, fun _ => m.threads i, fun _ => 0⟩ : Machine Unit S α) () =
      [] := rfl
  obtain ⟨turns, hturns⟩ : ∃ turns, schedule.count i = turns + 1 :=
    ⟨schedule.count i - 1, by omega⟩
  rw [run_threads howns hholds rfl halone schedule hspared hsettled, hturns, List.replicate_succ,
    run_cons, resume_alone, halone, ← hwake]
  exact hn turns (by omega)

/-- No coroutine ever reads what another one has assigned. -/
theorem run_ownReads {m : Machine ι S α} (h : m.AllIsolated) (hm : m.store.OwnReads)
    (schedule : List ι) : (run answer schedule m).store.OwnReads := by
  induction schedule generalizing m with
  | nil => exact hm
  | cons i schedule ih =>
    apply ih (h.resume i)
    exact turn_ownReads ((h i).wake _) (fun x hx => hx.elim) hm

end Machine

end Coroutine
