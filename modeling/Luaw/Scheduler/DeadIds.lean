import Luaw.Scheduler.ThreadIds

/-!
# Resuming dead thread ids

The registry links its released slots through the slots themselves, and `resumeThreadId` takes a
link for a thread context: it is assigned to `currentRunningThreadCtx` before indexing it fails.
-/

namespace Luaw.Scheduler

namespace State

/-- How a call of `resumeThread` leaves its caller at first. -/
inductive Outcome where
  | raised
  | returned
  | runs (c : CtxId)
  deriving DecidableEq

/-- Without a coroutine `coroutine.resume` is called wrongly; one that is not suspended gives a
status, and then the id is released, which may raise. -/
def resumeThreadOutcome (s : State) (c : CtxId) : Outcome :=
  match (s.ctx c).thread with
  | none => .raised
  | some t =>
    if s.suspended t then .runs c
    else if (s.threadRegistry.unref (s.ctx c).tid).isSome then .returned
    else .raised

def resumeThreadIdOutcome (s : State) (tid : Tid) : Outcome :=
  match s.threadRegistry.get tid with
  | none => .raised
  | some (.obj c) => s.resumeThreadOutcome c
  | some (.num _) => .raised

/-- No unfinished thread has the id. -/
def Dead (s : State) (tid : Int) : Prop := ∀ c ∈ s.live, (s.ctx c).tid ≠ .num tid

/-- The registry, the run queue and the variables of the running thread are the same, and no
other thread runs. -/
structure Untouched (s s' : State) : Prop where
  registry : s'.threadRegistry = s.threadRegistry
  len : s'.runQueueLen = s.runQueueLen
  head : s'.runQueueHead = s.runQueueHead
  tail : s'.runQueueTail = s.runQueueTail
  links : ∀ c, (s'.ctx c).nextThread = (s.ctx c).nextThread
  current : s'.currentRunningThreadCtx = s.currentRunningThreadCtx
  context : s'.context = s.context
  stack : s'.stack = s.stack

/-- The call raises an error and that is all it does. -/
def CleanError (cfg : Config) (s : State) (tid : Int) : Prop :=
  s.resumeThreadIdOutcome (.num tid) = .raised ∧
    s.Untouched (s.resumeThreadId cfg (.num tid))

/-- The registry has nothing under the id, or what it has is the current context already and has
no coroutine that could be resumed. -/
def FindsNothing (s : State) (tid : Int) : Prop :=
  match s.threadRegistry.get (.num tid) with
  | none => True
  | some (.num n) => s.currentRunningThreadCtx = some (.num n)
  | some (.obj c) => s.currentRunningThreadCtx = some (.obj c) ∧
    match (s.ctx c).thread with
    | none => s.context = (s.ctx c).requestCtx
    | some t => s.suspended t = false ∧ s.threadRegistry.unref (s.ctx c).tid = none ∧
      s.context = none

theorem Untouched.refl (s : State) : s.Untouched s :=
  ⟨rfl, rfl, rfl, rfl, fun _ => rfl, rfl, rfl, rfl⟩

/-- An assignment to the two variables is seen unless it changes nothing. -/
theorem untouched_assigned_iff (s : State) (current : Option (Registry.Value CtxId))
    (context : Option CtxId) :
    s.Untouched { s with currentRunningThreadCtx := current, context } ↔
      s.currentRunningThreadCtx = current ∧ s.context = context :=
  ⟨fun h => ⟨h.current.symm, h.context.symm⟩, fun ⟨hcurrent, hcontext⟩ =>
    ⟨rfl, rfl, rfl, rfl, fun _ => rfl, hcurrent.symm, hcontext.symm, rfl⟩⟩

/-- A context whose id cannot be released is left as it is. -/
theorem resumeThread_unreleasable (cfg : Config) {s : State} {c : CtxId} {t : CoId}
    (hthread : (s.ctx c).thread = some t) (hsuspended : s.suspended t = false)
    (hunref : s.threadRegistry.unref (s.ctx c).tid = none) :
    s.resumeThread cfg c =
      { s with currentRunningThreadCtx := some (.obj c), context := none } := by
  have hnot : State.suspended
      { s with currentRunningThreadCtx := some (.obj c), context := (s.ctx c).requestCtx } t =
        false := hsuspended
  simp only [resumeThread, hthread, hnot, resumed, ended, hunref, Bool.false_eq_true, if_false,
    true_or, if_true]

theorem cleanError_obj_iff (cfg : Config) {s : State} {tid : Int} {c : CtxId}
    (hget : s.threadRegistry.get (.num tid) = some (.obj c)) :
    s.CleanError cfg tid ↔ s.FindsNothing tid := by
  have houtcome : s.resumeThreadIdOutcome (.num tid) = s.resumeThreadOutcome c := by
    rw [resumeThreadIdOutcome, hget]
  have hresume : s.resumeThreadId cfg (.num tid) = s.resumeThread cfg c := by
    rw [resumeThreadId, hget]
  rw [CleanError, houtcome, hresume]
  simp only [FindsNothing, hget]
  cases hthread : (s.ctx c).thread with
  | none =>
    have hraised : s.resumeThreadOutcome c = .raised := by
      rw [resumeThreadOutcome, hthread]
    have hassigned : s.resumeThread cfg c = { s with
        currentRunningThreadCtx := some (.obj c), context := (s.ctx c).requestCtx } := by
      simp only [resumeThread, hthread]
    rw [hassigned, untouched_assigned_iff]
    exact and_iff_right hraised
  | some t =>
    by_cases hsuspended : s.suspended t = true
    · -- the coroutine would run
      have hruns : s.resumeThreadOutcome c = .runs c := by
        simp only [resumeThreadOutcome, hthread, hsuspended, if_true]
      rw [hruns]
      simp [hsuspended]
    · have hnot : s.suspended t = false := by simpa using hsuspended
      cases hunref : s.threadRegistry.unref (s.ctx c).tid with
      | some threadRegistry =>
        have hreturned : s.resumeThreadOutcome c = .returned := by
          simp [resumeThreadOutcome, hthread, hnot, hunref]
        rw [hreturned]
        simp
      | none =>
        have hraised : s.resumeThreadOutcome c = .raised := by
          simp [resumeThreadOutcome, hthread, hnot, hunref]
        rw [resumeThread_unreleasable cfg hthread hnot hunref, untouched_assigned_iff]
        simp [hraised, hnot]

/-- What a call does with any id, dead or not, in any state. -/
theorem cleanError_iff_findsNothing (cfg : Config) (s : State) (tid : Int) :
    s.CleanError cfg tid ↔ s.FindsNothing tid := by
  cases hget : s.threadRegistry.get (.num tid) with
  | none =>
    have hraised : s.resumeThreadIdOutcome (.num tid) = .raised := by
      rw [resumeThreadIdOutcome, hget]
    have hsame : s.resumeThreadId cfg (.num tid) = s := by
      rw [resumeThreadId, hget]
    simp only [CleanError, FindsNothing, hget, hsame, iff_true]
    exact ⟨hraised, .refl s⟩
  | some value =>
    cases value with
    | obj c => exact cleanError_obj_iff cfg hget
    | num n =>
      have hraised : s.resumeThreadIdOutcome (.num tid) = .raised := by
        rw [resumeThreadIdOutcome, hget]
      have hassigned : s.resumeThreadId cfg (.num tid) = { s with
          currentRunningThreadCtx := some (.num n), context := s.context } := by
        rw [resumeThreadId, hget]
      simp only [CleanError, FindsNothing, hget, hassigned]
      rw [untouched_assigned_iff]
      exact (and_iff_right hraised).trans (and_iff_left rfl)

/-- A free slot holds the next one of the list. -/
theorem link_eq {table : Registry.Value CtxId → Option (Registry.Value CtxId)}
    {head : Option (Registry.Value CtxId)} {frees : List Nat}
    (h : Registry.FreeChain table head frees) {before after : List Nat} {f : Nat}
    (hfrees : frees = before ++ f :: after) :
    table (.num f) = after.head?.map fun next : Nat => .num next := by
  induction h generalizing before with
  | nil => simp at hfrees
  | @cons g fs hchain ih =>
    cases before with
    | nil =>
      cases hfrees
      generalize table (.num f) = link at hchain
      cases hchain
      · rfl
      · rfl
    | cons b before =>
      cases hfrees
      exact ih rfl

/-- The released ids are the slots of the free list. Resuming one is a clean error exactly when it
is the last of the list, or the next one is the current context by an earlier call of that kind. -/
def LinksTaken (cfg : Config) (s : State) : Prop :=
  ∃ frees : List Nat,
    Registry.FreeChain s.threadRegistry.table (s.threadRegistry.get (.num 0)) frees ∧
      ∀ (before : List Nat) (f : Nat) (after : List Nat), frees = before ++ f :: after → s.Dead f ∧
        (s.CleanError cfg f ↔
          ∀ next ∈ after.head?, s.currentRunningThreadCtx = some (.num next))

theorem Owned.linksTaken {s : State} (h : s.Owned) (cfg : Config) : s.LinksTaken cfg := by
  obtain ⟨slot, frees, htid, hholds⟩ := h.held
  refine ⟨frees, hholds.chain, fun before f after hfrees => ⟨fun c hc heq => ?_, ?_⟩⟩
  · have hslot : slot c = f := Int.ofNat.inj (Registry.Value.num.inj ((htid c hc).symm.trans heq))
    have hmem : f ∈ (s.live.map fun c => (slot c, c)).map Prod.fst := by
      rw [← hslot]
      exact List.mem_map_of_mem (List.mem_map_of_mem hc)
    have hfree : f ∈ frees := by
      rw [hfrees]
      simp
    exact List.disjoint_of_nodup_append hholds.nodup hfree hmem
  · have hlink : s.threadRegistry.get (.num f) = after.head?.map fun next : Nat => .num next :=
      link_eq hholds.chain hfrees
    rw [cleanError_iff_findsNothing, FindsNothing, hlink]
    cases after with
    | nil => simp
    | cons next after => simp

end State

open State

/-- In every state of every run, resuming a dead id is a clean error exactly when the call finds
nothing that it would assign. As long as no thread is resumed in progress, this is decided by the
place of the id in the free list. -/
theorem dead_id_clean_iff (cfg : Config) (es : List Event) :
    Transition.Always (step cfg)
        (fun s => ∀ tid, s.Dead tid → (s.CleanError cfg tid ↔ s.FindsNothing tid)) init es ∧
      (Transition.Guarded (step cfg) ResumesWaiting init es →
        Transition.Always (step cfg) (LinksTaken cfg) init es) := by
  refine ⟨Transition.always_of_invariant (I := fun s => ∀ tid, s.Dead tid →
      (s.CleanError cfg tid ↔ s.FindsNothing tid))
    (fun tid _ => cleanError_iff_findsNothing cfg init tid)
    fun _ _ s' _ _ tid _ => cleanError_iff_findsNothing cfg s' tid, fun hwaiting => ?_⟩
  have howned := hwaiting.always (I := fun s => s.Wf ∧ s.Owned) ⟨wf_init, owned_init⟩
    fun s e s' h he hstep => ⟨h.1.after hstep, h.2.after h.1 he hstep⟩
  exact howned.mono fun s h => h.2.linksTaken cfg

theorem dead_id_clean_two_ended :
    Transition.Always (step ⟨16, 16⟩) (LinksTaken ⟨16, 16⟩) init
      [.startSystemThread, .startSystemThread, .finish, .finish] :=
  (dead_id_clean_iff ⟨16, 16⟩ [.startSystemThread, .startSystemThread, .finish, .finish]).2
    (.cons rfl nofun (.cons rfl nofun (.cons rfl nofun (.cons rfl nofun trivial))))

/-- Two system threads end, and the one released last is linked to the other. -/
theorem dead_id_becomes_current :
    ¬∀ cfg es, Transition.Always (step cfg)
      (fun s => ∀ tid, s.Dead tid → s.CleanError cfg tid) init es := by
  intro h
  have hend := ((((h ⟨16, 16⟩ [.startSystemThread, .startSystemThread, .finish, .finish]).2 _
    rfl).2 _ rfl).2 _ rfl).2 _ rfl
  have hclean := hend 1 (fun c hc => absurd hc List.not_mem_nil)
  exact absurd hclean.2.current (by decide)

end Luaw.Scheduler
