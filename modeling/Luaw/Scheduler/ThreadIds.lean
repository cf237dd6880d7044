import Luaw.Foundations.Transition
import Luaw.Scheduler.Wf

/-!
# Thread ids

A failed `coroutine.resume` is taken for the end of the thread. It fails also for a coroutine
that runs or that waits for a resume of its own to return, and then the id of a thread that has
not finished is released.
-/

namespace Luaw.Scheduler

open State

namespace State

/-- The calls of `resumeThread` in progress, the innermost first. -/
def resumes (s : State) : List (CtxId × CoId × Tid) :=
  s.stack.filterMap fun
    | .thread c t tid => some (c, t, tid)
    | .ready _ => none

/-- No id has been released twice or too early, and the registry has exactly the unfinished
threads. -/
structure IdsKept (s : State) : Prop where
  once : s.unrefs.Nodup
  after : ∀ c ∈ s.unrefs, c ∉ s.live
  registered : ∀ c ∈ s.live, s.threadRegistry.get (s.ctx c).tid = some (.obj c)
  distinct : ∀ c ∈ s.live, ∀ d ∈ s.live, (s.ctx c).tid = (s.ctx d).tid → c = d
  size : s.threadRegistry.size = s.live.length

/-- No thread is resumed that runs or waits for a resume to return. -/
def ResumesWaiting (s : State) (e : Event) : Prop :=
  ∀ tid c, e = .resumeThreadId tid → s.threadRegistry.get tid = some (.obj c) →
    c ∉ s.resumes.map Prod.fst

/-- Every unfinished thread owns its registry entry and its coroutine, which is alive and not in
the pool. -/
structure Owned (s : State) : Prop where
  nodup : s.live.Nodup
  held : ∃ slot : CtxId → Nat, ∃ frees, (∀ c ∈ s.live, (s.ctx c).tid = .num (slot c)) ∧
    s.threadRegistry.Holds (s.live.map fun c => (slot c, c)) frees
  thread : ∀ c ∈ s.live, ∃ t, (s.ctx c).thread = some t ∧ t < s.nco ∧ (s.co t).dead = false ∧
    t ∉ s.threadPool
  distinct : ∀ c ∈ s.live, ∀ d ∈ s.live, (s.ctx c).thread = (s.ctx d).thread → c = d
  poolNodup : s.threadPool.Nodup
  pool : ∀ t ∈ s.threadPool, t < s.nco ∧ (s.co t).dead = false
  resumed : ∀ c t tid, (c, t, tid) ∈ s.resumes →
    c ∈ s.live ∧ (s.ctx c).thread = some t ∧ (s.ctx c).tid = tid
  once : (s.resumes.map Prod.fst).Nodup
  unrefsNodup : s.unrefs.Nodup
  unrefs : ∀ c ∈ s.unrefs, c < s.nctx ∧ c ∉ s.live

/-- The threads, their coroutines and their ids are the same. -/
structure SameThreads (s s' : State) : Prop where
  thread : ∀ c, (s'.ctx c).thread = (s.ctx c).thread
  tid : ∀ c, (s'.ctx c).tid = (s.ctx c).tid
  co : s'.co = s.co
  nco : s'.nco = s.nco
  registry : s'.threadRegistry = s.threadRegistry
  pool : s'.threadPool = s.threadPool
  live : s'.live = s.live
  unrefs : s'.unrefs = s.unrefs
  nctx : s'.nctx = s.nctx
  resumes : s'.resumes.Sublist s.resumes

theorem owned_init : init.Owned where
  nodup := .nil
  held := ⟨fun _ => 0, [], nofun, Registry.holds_new⟩
  thread := nofun
  distinct := nofun
  poolNodup := .nil
  pool := nofun
  resumed := nofun
  once := .nil
  unrefsNodup := .nil
  unrefs := nofun

namespace SameThreads

theorem refl (s : State) : SameThreads s s :=
  ⟨fun _ => rfl, fun _ => rfl, rfl, rfl, rfl, rfl, rfl, rfl, rfl, List.Sublist.refl _⟩

theorem trans {s₁ s₂ s₃ : State} (h : SameThreads s₁ s₂) (h' : SameThreads s₂ s₃) :
    SameThreads s₁ s₃ where
  thread c := (h'.thread c).trans (h.thread c)
  tid c := (h'.tid c).trans (h.tid c)
  co := h'.co.trans h.co
  nco := h'.nco.trans h.nco
  registry := h'.registry.trans h.registry
  pool := h'.pool.trans h.pool
  live := h'.live.trans h.live
  unrefs := h'.unrefs.trans h.unrefs
  nctx := h'.nctx.trans h.nctx
  resumes := h'.resumes.trans h.resumes

theorem setCtx (s : State) (c : CtxId) {x : ThreadCtx} (hthread : x.thread = (s.ctx c).thread)
    (htid : x.tid = (s.ctx c).tid) : SameThreads s (s.setCtx c x) :=
  { refl s with
    thread := fun d => setCtx_field s c d x ThreadCtx.thread hthread
    tid := fun d => setCtx_field s c d x ThreadCtx.tid htid }

/-- Frames are taken off the stack. -/
theorem pop {s : State} {stack : List Frame} (h : stack.Sublist s.stack) :
    SameThreads s { s with stack } :=
  { refl s with resumes := h.filterMap _ }

theorem afterResume (s : State) (c : CtxId) (state : Option Mark) :
    SameThreads s (s.afterResume c state) :=
  { setCtx s c (x := { s.ctx c with state }) rfl rfl with }

theorem addToRunQueue (s : State) (c : CtxId) : SameThreads s (s.addToRunQueue c) := by
  have hthread : ∀ d, ((s.addToRunQueue c).ctx d).thread = (s.ctx d).thread := fun d =>
    addToRunQueue_field s c d ThreadCtx.thread (fun _ _ => rfl) (fun _ _ => rfl)
  have htid : ∀ d, ((s.addToRunQueue c).ctx d).tid = (s.ctx d).tid := fun d =>
    addToRunQueue_field s c d ThreadCtx.tid (fun _ _ => rfl) (fun _ _ => rfl)
  revert hthread htid
  rw [State.addToRunQueue]
  cases s.runQueueTail <;>
    exact fun hthread htid =>
      ⟨hthread, htid, rfl, rfl, rfl, rfl, rfl, rfl, rfl, List.Sublist.refl _⟩

theorem runNext (cfg : Config) {s : State} (h : s.Wf) :
    SameThreads s (s.runNextFromRunQueue cfg) := by
  obtain hhead | ⟨c, hhead⟩ := Option.eq_none_or_eq_some s.runQueueHead
  · rw [runNextFromRunQueue, hhead]
    exact refl s
  · rw [h.runNext_eq cfg hhead]
    exact { setCtx s c (x := { s.ctx c with nextThread := none }) rfl rfl with }

end SameThreads

theorem newThread_live (s : State) : s.newThread.2.live = s.live ++ [s.nctx] := by
  rw [newThread]
  cases s.threadPool <;> rfl

theorem newThread_stack (s : State) : s.newThread.2.stack = s.stack := by
  rw [newThread]
  cases s.threadPool <;> rfl

namespace Owned

variable {s s' : State} {c : CtxId} {t : CoId} {tid : Tid} {stack : List Frame}

theorem same (h : Owned s) (hs : SameThreads s s') : Owned s' where
  nodup := hs.live ▸ h.nodup
  held := by
    obtain ⟨slot, frees, htid, hholds⟩ := h.held
    rw [hs.live, hs.registry]
    exact ⟨slot, frees, fun c hc => (hs.tid c).trans (htid c hc), hholds⟩
  thread := by
    rw [hs.live, hs.nco, hs.co, hs.pool]
    exact fun c hc => (h.thread c hc).imp fun t ht => ⟨(hs.thread c).trans ht.1, ht.2⟩
  distinct := by
    rw [hs.live]
    intro c hc d hd heq
    rw [hs.thread, hs.thread] at heq
    exact h.distinct c hc d hd heq
  poolNodup := hs.pool ▸ h.poolNodup
  pool := by
    rw [hs.pool, hs.nco, hs.co]
    exact h.pool
  resumed := by
    intro c t tid hc
    rw [hs.live, hs.thread, hs.tid]
    exact h.resumed c t tid (hs.resumes.subset hc)
  once := (hs.resumes.map Prod.fst).nodup h.once
  unrefsNodup := hs.unrefs ▸ h.unrefsNodup
  unrefs := by
    rw [hs.unrefs, hs.nctx, hs.live]
    exact h.unrefs

theorem kept (h : Owned s) : IdsKept s := by
  obtain ⟨slot, frees, htid, hholds⟩ := h.held
  have hregistered : ∀ c ∈ s.live, s.threadRegistry.get (s.ctx c).tid = some (.obj c) := by
    intro c hc
    rw [htid c hc]
    exact hholds.stored (slot c) c (List.mem_map_of_mem (f := fun c => (slot c, c)) hc)
  refine ⟨h.unrefsNodup, fun c hc => (h.unrefs c hc).2, hregistered, ?_, ?_⟩
  · intro c hc d hd heq
    have hobj := hregistered d hd
    rw [← heq, hregistered c hc] at hobj
    cases hobj
    rfl
  · rw [hholds.size, List.length_map]

/-- Only unfinished threads are registered. -/
theorem live_of_get (h : Owned s) (hget : s.threadRegistry.get tid = some (.obj c)) :
    c ∈ s.live := by
  obtain ⟨slot, frees, -, hholds⟩ := h.held
  obtain ⟨r, -, hmem⟩ := hholds.only tid c hget
  obtain ⟨d, hd, heq⟩ := List.mem_map.mp hmem
  cases heq
  exact hd

theorem suspended (h : Owned s) (hc : c ∈ s.live) (hthread : (s.ctx c).thread = some t)
    (hout : c ∉ s.resumes.map Prod.fst) : s.suspended t = true := by
  obtain ⟨t', ht', -, halive, -⟩ := h.thread c hc
  rw [hthread] at ht'
  cases ht'
  have hoff : s.onStack t = false := by
    rw [onStack, List.any_eq_false]
    intro frame hframe
    cases frame with
    | ready => simp
    | thread d t' tid =>
      have hd : (d, t', tid) ∈ s.resumes := List.mem_filterMap.mpr ⟨_, hframe, rfl⟩
      obtain ⟨hlive, hdthread, -⟩ := h.resumed d t' tid hd
      refine fun heq => hout ?_
      rw [of_decide_eq_true heq] at hdthread
      rw [h.distinct c hc d hlive (hthread.trans hdthread.symm)]
      exact List.mem_map_of_mem (f := Prod.fst) hd
  rw [State.suspended, halive, hoff]
  rfl

/-- A waiting thread that is resumed runs. -/
theorem resumeThread_eq (cfg : Config) (h : Owned s) (hc : c ∈ s.live)
    (hout : c ∉ s.resumes.map Prod.fst) :
    ∃ t, (s.ctx c).thread = some t ∧ s.resumeThread cfg c = { s with
      currentRunningThreadCtx := some (.obj c)
      context := (s.ctx c).requestCtx
      stack := .thread c t (s.ctx c).tid :: s.stack } := by
  obtain ⟨t, hthread, -⟩ := h.thread c hc
  have hsuspended := h.suspended hc hthread hout
  refine ⟨t, hthread, ?_⟩
  simp only [resumeThread, hthread]
  exact if_pos hsuspended

theorem resumeThread (cfg : Config) (h : Owned s) (hc : c ∈ s.live)
    (hout : c ∉ s.resumes.map Prod.fst) : Owned (s.resumeThread cfg c) := by
  obtain ⟨t, hthread, heq⟩ := h.resumeThread_eq cfg hc hout
  rw [heq]
  refine { h with resumed := fun d t' tid hd => ?_, once := List.nodup_cons.mpr ⟨hout, h.once⟩ }
  obtain hd | hd := List.mem_cons.mp hd
  · cases hd
    exact ⟨hc, hthread, rfl⟩
  · exact h.resumed d t' tid hd

/-- A coroutine that no unfinished thread has, and that is not in the pool, gets a new context. -/
theorem register (hwf : s.Wf) (h : Owned s) (ht : t < s.nco) (halive : (s.co t).dead = false)
    (hpool : t ∉ s.threadPool) (hnone : ∀ c ∈ s.live, (s.ctx c).thread ≠ some t) :
    Owned { s.setCtx s.nctx ⟨some t, some s.nctx, (s.threadRegistry.ref s.nctx).1, none, none, none,
        0⟩ with
      nctx := s.nctx + 1
      threadRegistry := (s.threadRegistry.ref s.nctx).2
      live := s.live ++ [s.nctx] } := by
  obtain ⟨slot, frees, htid, hholds⟩ := h.held
  obtain ⟨r, href, -, hholds'⟩ := hholds.ref s.nctx
  have hfresh : s.nctx ∉ s.live := fun hmem => lt_irrefl _ (hwf.live _ hmem)
  have hold : ∀ {x : ThreadCtx}, ∀ c ∈ s.live, (s.setCtx s.nctx x).ctx c = s.ctx c :=
    fun c hc => setCtx_ne s _ c _ (ne_of_mem_of_not_mem hc hfresh)
  have hnew : ∀ c ∈ s.live ++ [s.nctx], c ∈ s.live ∨ c = s.nctx := by
    intro c hc
    simpa using hc
  -- the slots of the contexts that exist do not change
  have hmap : (s.live.map fun c => (Function.update slot s.nctx r c, c)) =
      s.live.map fun c => (slot c, c) := by
    refine List.map_congr_left fun c hc => ?_
    rw [Function.update_of_ne (ne_of_mem_of_not_mem hc hfresh)]
  constructor
  · exact List.nodup_append.mpr ⟨h.nodup, List.nodup_singleton _, fun c hc d hd =>
      (List.mem_singleton.mp hd) ▸ ne_of_mem_of_not_mem hc hfresh⟩
  · refine ⟨Function.update slot s.nctx r, frees.erase r, fun c hc => ?_, ?_⟩
    · show ((s.setCtx s.nctx _).ctx c).tid = _
      obtain hc | rfl := hnew c hc
      · rw [hold c hc, Function.update_of_ne (ne_of_mem_of_not_mem hc hfresh)]
        exact htid c hc
      · rw [setCtx_self, Function.update_self]
        exact href
    · refine hholds'.perm ?_
      rw [List.map_append, hmap, List.map_singleton, Function.update_self]
      exact @List.perm_append_comm _ [_] _
  · intro c hc
    show ∃ t', ((s.setCtx s.nctx _).ctx c).thread = _ ∧ _
    obtain hc | rfl := hnew c hc
    · rw [hold c hc]
      exact h.thread c hc
    · rw [setCtx_self]
      exact ⟨t, rfl, ht, halive, hpool⟩
  · intro c hc d hd heq
    change ((s.setCtx s.nctx _).ctx c).thread = ((s.setCtx s.nctx _).ctx d).thread at heq
    -- two contexts, each of them an old one or the new one
    obtain hc | rfl := hnew c hc <;> rcases hnew d hd with hd | rfl
    · rw [hold c hc, hold d hd] at heq
      exact h.distinct c hc d hd heq
    · rw [hold c hc, setCtx_self] at heq
      exact absurd heq (hnone c hc)
    · rw [hold d hd, setCtx_self] at heq
      exact absurd heq.symm (hnone d hd)
    · rfl
  · exact h.poolNodup
  · exact h.pool
  · intro c t' tid hc
    obtain ⟨hlive, hthread⟩ := h.resumed c t' tid hc
    show _ ∧ ((s.setCtx s.nctx _).ctx c).thread = _ ∧ ((s.setCtx s.nctx _).ctx c).tid = _
    rw [hold c hlive]
    exact ⟨List.mem_append_left _ hlive, hthread⟩
  · exact h.once
  · exact h.unrefsNodup
  · intro c hc
    obtain ⟨hlt, hlive⟩ := h.unrefs c hc
    refine ⟨Nat.lt_succ_of_lt hlt, fun hmem => ?_⟩
    obtain hmem | rfl := hnew c hmem
    · exact hlive hmem
    · exact lt_irrefl _ hlt

/-- The coroutine of a new thread is from the pool or a new one. -/
theorem newThread (hwf : s.Wf) (h : Owned s) : Owned s.newThread.2 := by
  rw [State.newThread]
  cases hpool : s.threadPool with
  | nil =>
    -- the pool is empty: a coroutine is made that no context can have yet
    have hco : ∀ t < s.nco, (s.setCo s.nco ⟨0, false, false⟩).co t = s.co t :=
      fun t ht => setCo_ne s _ ht.ne
    have h' : Owned { s.setCo s.nco ⟨0, false, false⟩ with nco := s.nco + 1 } :=
      { h with
        thread := fun c hc => by
          obtain ⟨t, hthread, ht, hrest⟩ := h.thread c hc
          refine ⟨t, hthread, Nat.lt_succ_of_lt ht, ?_⟩
          show ((s.setCo s.nco _).co t).dead = false ∧ t ∉ s.threadPool
          rw [hco t ht]
          exact hrest
        pool := fun t hmem => by
          obtain ⟨ht, halive⟩ := h.pool t hmem
          refine ⟨Nat.lt_succ_of_lt ht, ?_⟩
          show ((s.setCo s.nco _).co t).dead = false
          rw [hco t ht]
          exact halive }
    have hwf' : { s.setCo s.nco ⟨0, false, false⟩ with nco := s.nco + 1 }.Wf :=
      { hwf.setCo (t := s.nco) (y := ⟨0, false, false⟩) rfl with }
    refine register hwf' h' (Nat.lt_succ_self _) ?_ ?_ ?_
    · show ((s.setCo s.nco _).co s.nco).dead = false
      rw [setCo_self]
    · show s.nco ∉ s.threadPool
      rw [hpool]
      exact List.not_mem_nil
    · intro c hc heq
      obtain ⟨t, hthread, ht, -⟩ := h.thread c hc
      cases hthread.symm.trans heq
      exact lt_irrefl _ ht
  | cons t threadPool =>
    -- a coroutine of the pool belongs to no context, and leaves the pool here
    have hmem : t ∈ s.threadPool := hpool ▸ List.mem_cons_self
    have hnodup := h.poolNodup
    rw [hpool] at hnodup
    have h' : Owned { s with threadPool } :=
      { h with
        thread := fun c hc => by
          obtain ⟨t', hthread, ht, halive, hout⟩ := h.thread c hc
          refine ⟨t', hthread, ht, halive, fun hmem => hout ?_⟩
          rw [hpool]
          exact List.mem_cons_of_mem t hmem
        poolNodup := hnodup.of_cons
        pool := fun t' hmem => h.pool t' (hpool ▸ List.mem_cons_of_mem _ hmem) }
    have hwf' : { s with threadPool }.Wf := { hwf with }
    refine register hwf' h' (h.pool t hmem).1 (h.pool t hmem).2 (List.nodup_cons.mp hnodup).1 ?_
    intro c hc heq
    obtain ⟨t', hthread, -, -, hout⟩ := h.thread c hc
    cases hthread.symm.trans heq
    exact hout hmem

theorem newThread_mem (hwf : s.Wf) (h : Owned s) :
    s.newThread.1 ∈ s.newThread.2.live ∧ s.newThread.1 ∉ s.newThread.2.resumes.map Prod.fst := by
  rw [Wf.newThread_fst, newThread_live, resumes, newThread_stack]
  refine ⟨List.mem_append_right _ List.mem_cons_self, fun hmem => ?_⟩
  obtain ⟨⟨c, t, tid⟩, hc, heq⟩ := List.mem_map.mp hmem
  have hlive := (h.resumed c t tid hc).1
  exact absurd (hwf.live c hlive) (not_lt.mpr (Eq.ge heq))

theorem offer (cfg : Config) (h : Owned s) {offered : Option CoId}
    (hoffered : ∀ t, offered = some t → t < s.nco ∧ (s.co t).dead = false ∧ t ∉ s.threadPool ∧
      ∀ c ∈ s.live, (s.ctx c).thread ≠ some t) : Owned (s.offer cfg offered) := by
  cases offered with
  | none => exact h
  | some t =>
    obtain ⟨ht, halive, hout, hnone⟩ := hoffered t rfl
    rw [State.offer]
    split
    · have hmem : ∀ t' ∈ s.threadPool ++ [t], t' ∈ s.threadPool ∨ t' = t := by
        intro t' ht'
        simpa using ht'
      refine { h with thread := fun c hc => ?_, poolNodup := ?_, pool := fun t' ht' => ?_ }
      · obtain ⟨t', hthread, hlt, hdead, hout'⟩ := h.thread c hc
        refine ⟨t', hthread, hlt, hdead, fun ht' => ?_⟩
        obtain ht' | rfl := hmem t' ht'
        · exact hout' ht'
        · exact hnone c hc hthread
      · exact List.nodup_append.mpr ⟨h.poolNodup, List.nodup_singleton _, fun a ha b hb =>
          (List.mem_singleton.mp hb) ▸ ne_of_mem_of_not_mem ha hout⟩
      · obtain ht' | rfl := hmem t' ht'
        · exact h.pool t' ht'
        · exact ⟨ht, halive⟩
    · exact h

/-- The context of the thread that runs is the one of its frame, and no other thread that goes on
has its coroutine. -/
theorem running (h : Owned s) (hstack : s.stack = .thread c t tid :: stack) :
    c ∈ s.live ∧ (s.ctx c).thread = some t ∧ (s.ctx c).tid = tid ∧
      ∀ d ∈ s.live.erase c, (s.ctx d).thread ≠ some t := by
  have hmem : (c, t, tid) ∈ s.resumes := by
    simp only [resumes, hstack, List.filterMap_cons, List.mem_cons_self]
  obtain ⟨hlive, hthread, htid⟩ := h.resumed c t tid hmem
  refine ⟨hlive, hthread, htid, fun d hd heq => ?_⟩
  have := h.distinct d (List.mem_of_mem_erase hd) c hlive (heq.trans hthread.symm)
  exact ne_of_mem_of_not_mem hd h.nodup.not_mem_erase this

/-- The id of the thread that runs is released. -/
theorem released (hwf : s.Wf) (h : Owned s) (hstack : s.stack = .thread c t tid :: stack)
    (y : Coroutine) :
    ∃ reg, s.threadRegistry.unref tid = some reg ∧
      Owned (({ s with stack, live := s.live.erase c, context := none }.setCo t y).release c
        reg) := by
  obtain ⟨slot, frees, htid, hholds⟩ := h.held
  obtain ⟨hlive, hthread, hctid, hother⟩ := h.running hstack
  obtain ⟨t', ht', -, -, htout⟩ := h.thread c hlive
  cases hthread.symm.trans ht'
  have hresumes : s.resumes = (c, t, tid) :: { s with stack }.resumes := by
    simp only [resumes, hstack, List.filterMap_cons]
  have honce := h.once
  rw [hresumes] at honce
  obtain ⟨hcout, honce⟩ := List.nodup_cons.mp honce
  have hperm : (s.live.map fun d => (slot d, d)).Perm
      ((slot c, c) :: (s.live.erase c).map fun d => (slot d, d)) :=
    (List.perm_cons_erase hlive).map _
  obtain ⟨reg, hunref, hholds'⟩ := (hholds.perm hperm).unref
  rw [← htid c hlive, hctid] at hunref
  have hcerase : c ∉ s.live.erase c := h.nodup.not_mem_erase
  have hold : ∀ {x : ThreadCtx}, ∀ d ∈ s.live.erase c, (s.setCtx c x).ctx d = s.ctx d :=
    fun d hd => setCtx_ne s c d _ (ne_of_mem_of_not_mem hd hcerase)
  have hco : ∀ t' ≠ t, (s.setCo t y).co t' = s.co t' := fun t' ht' => setCo_ne s y ht'
  refine ⟨reg, hunref, ?_⟩
  constructor
  · exact h.nodup.erase c
  · refine ⟨slot, slot c :: frees, fun d hd => ?_, hholds'⟩
    show ((s.setCtx c _).ctx d).tid = _
    rw [hold d hd]
    exact htid d (List.mem_of_mem_erase hd)
  · intro d hd
    obtain ⟨t', ht', hlt, halive, hout⟩ := h.thread d (List.mem_of_mem_erase hd)
    -- only the coroutine of the thread that has ended is changed
    have hne : t' ≠ t := fun heq => hother d hd (heq ▸ ht')
    show ∃ t', ((s.setCtx c _).ctx d).thread = _ ∧ _ ∧ ((s.setCo t y).co t').dead = _ ∧ _
    rw [hold d hd]
    refine ⟨t', ht', hlt, ?_, hout⟩
    rw [hco t' hne]
    exact halive
  · intro d hd e he heq
    change ((s.setCtx c _).ctx d).thread = ((s.setCtx c _).ctx e).thread at heq
    rw [hold d hd, hold e he] at heq
    exact h.distinct d (List.mem_of_mem_erase hd) e (List.mem_of_mem_erase he) heq
  · exact h.poolNodup
  · intro t' ht'
    show t' < s.nco ∧ ((s.setCo t y).co t').dead = false
    rw [hco t' (ne_of_mem_of_not_mem ht' htout)]
    exact h.pool t' ht'
  · intro d t' tid' hd
    have hd' : (d, t', tid') ∈ s.resumes := hresumes ▸ List.mem_cons_of_mem _ hd
    obtain ⟨hdlive, hrest⟩ := h.resumed d t' tid' hd'
    have hdc : d ≠ c := fun heq => hcout (List.mem_map.mpr ⟨_, hd, heq⟩)
    have hderase : d ∈ s.live.erase c := (List.mem_erase_of_ne hdc).mpr hdlive
    show d ∈ s.live.erase c ∧ ((s.setCtx c _).ctx d).thread = _ ∧ ((s.setCtx c _).ctx d).tid = _
    rw [hold d hderase]
    exact ⟨hderase, hrest⟩
  · exact honce
  · refine List.nodup_append.mpr ⟨h.unrefsNodup, List.nodup_singleton _, fun a ha b hb => ?_⟩
    rw [List.mem_singleton.mp hb]
    exact fun heq => (h.unrefs a ha).2 (heq ▸ hlive)
  · intro d hd
    obtain hd | hd := List.mem_append.mp hd
    · exact ⟨(h.unrefs d hd).1, fun hmem => (h.unrefs d hd).2 (List.mem_of_mem_erase hmem)⟩
    · rw [List.mem_singleton.mp hd]
      exact ⟨hwf.live c hlive, hcerase⟩

/-- The thread that runs has ended: its id is released, and its coroutine is nobody's. -/
theorem ended (cfg : Config) (hwf : s.Wf) (h : Owned s)
    (hstack : s.stack = .thread c t tid :: stack) {y : Coroutine} (hy : y.joining = false)
    {offered : Option CoId} (hoffered : ∀ t', offered = some t' → t' = t ∧ y.dead = false) :
    Owned (({ s with stack, live := s.live.erase c, context := none }.setCo t y).ended cfg c tid
      offered) := by
  obtain ⟨hlive, hthread, -, hother⟩ := h.running hstack
  obtain ⟨t', ht', htlt, -, htout⟩ := h.thread c hlive
  cases hthread.symm.trans ht'
  obtain ⟨reg, hunref, hreleased⟩ := h.released hwf hstack y
  have hwf' := (hwf.erase (c := c) hstack).setCo (t := t) hy
  rw [hwf'.ended_eq cfg hunref]
  refine same (hreleased.offer cfg ?_) (SameThreads.afterResume _ c none)
  intro t' heq
  obtain ⟨rfl, hdead⟩ := hoffered t' heq
  refine ⟨htlt, ?_, htout, fun d hd => ?_⟩
  · show ((s.setCo t' y).co t').dead = false
    rw [setCo_self]
    exact hdead
  · have hdc : d ≠ c := ne_of_mem_of_not_mem hd h.nodup.not_mem_erase
    show ((s.setCtx c _).ctx d).thread ≠ _
    rw [setCtx_ne s c d _ hdc]
    exact hother d hd

/-- A step that resumes no thread in progress keeps every thread its id. -/
theorem after {cfg : Config} {e : Event} (hwf : s.Wf) (h : Owned s) (he : ResumesWaiting s e)
    (hstep : step cfg s e = some s') : Owned s' := by
  cases hwf.steps hstep with
  | startUserThread => exact (h.newThread hwf).same (SameThreads.addToRunQueue _ _)
  | startSystemThread =>
    have hset := SameThreads.setCtx s.newThread.2 s.newThread.1
      (x := { s.newThread.2.ctx s.newThread.1 with state := TS_RUNNABLE }) rfl rfl
    obtain ⟨hlive, hout⟩ := h.newThread_mem hwf
    exact resumeThread cfg ((h.newThread hwf).same hset) hlive hout
  | resumeThreadId tid =>
    rw [resumeThreadId]
    split
    · exact h
    · next c hget => exact h.resumeThread cfg (h.live_of_get hget) (he tid c rfl hget)
    · exact h.same { SameThreads.refl s with }
  | runReadyThreads limit => exact h.same { SameThreads.refl s with }
  | returned hstack => exact h.same (SameThreads.pop (hstack ▸ List.sublist_cons_self _ _))
  | @runNext rounds stack hstack =>
    have hpop : SameThreads s { s with stack } :=
      SameThreads.pop (hstack ▸ List.sublist_cons_self _ _)
    have hready : SameThreads s { s with stack := .ready rounds :: stack } := { hpop with }
    exact h.same (hready.trans (SameThreads.runNext cfg (hwf.ready hstack rounds)))
  | join => exact h.same { SameThreads.refl s with }
  | blocked hstack =>
    have hpop := SameThreads.pop (s := s) (hstack ▸ List.sublist_cons_self _ _)
    have hcontext : SameThreads s { s with stack := _, context := none } := { hpop with }
    exact h.same (hcontext.trans (SameThreads.afterResume _ _ none))
  | runnable m hstack =>
    have hpop := SameThreads.pop (s := s) (hstack ▸ List.sublist_cons_self _ _)
    have hcontext : SameThreads s { s with stack := _, context := none } := { hpop with }
    exact h.same ((hcontext.trans (SameThreads.addToRunQueue _ _)).trans
      (SameThreads.afterResume _ _ none))
  | @endOfCall c t tid stack hstack =>
    have hc : (c, t, tid) ∈ s.resumes := by
      simp only [resumes, hstack, List.filterMap_cons, List.mem_cons_self]
    obtain ⟨hlive, hthread, -⟩ := h.resumed c t tid hc
    obtain ⟨t', ht', -, halive, -⟩ := h.thread c hlive
    cases hthread.symm.trans ht'
    exact h.ended cfg hwf hstack rfl fun t' heq => ⟨(Option.some.inj heq).symm, halive⟩
  | endOfThread heq hstack => exact h.ended cfg hwf hstack rfl fun t' ht' => by cases ht'

/-- The id of an unfinished thread can be released. -/
theorem unref_eq (h : Owned s) (hc : c ∈ s.live) :
    ∃ threadRegistry, s.threadRegistry.unref (s.ctx c).tid = some threadRegistry := by
  obtain ⟨slot, frees, htid, hholds⟩ := h.held
  have hperm : (s.live.map fun d => (slot d, d)).Perm
      ((slot c, c) :: (s.live.erase c).map fun d => (slot d, d)) :=
    (List.perm_cons_erase hc).map _
  obtain ⟨threadRegistry, hunref, -⟩ := (hholds.perm hperm).unref
  exact ⟨threadRegistry, htid c hc ▸ hunref⟩

/-- Resuming a thread in progress ends it. -/
theorem resumeThread_inProgress (cfg : Config) (h : Owned s) (hc : c ∈ s.resumes.map Prod.fst) :
    s.resumeThread cfg c =
      { s with currentRunningThreadCtx := some (.obj c), context := none }.ended cfg c
        (s.ctx c).tid none := by
  obtain ⟨⟨c, t, tid⟩, hmem, rfl⟩ := List.mem_map.mp hc
  obtain ⟨hlive, hthread, -⟩ := h.resumed c t tid hmem
  have hon : s.onStack t = true := by
    obtain ⟨frame, hframe, heq⟩ := List.mem_filterMap.mp hmem
    rw [onStack, List.any_eq_true]
    refine ⟨frame, hframe, ?_⟩
    cases frame with
    | ready => cases heq
    | thread =>
      cases heq
      exact decide_eq_true rfl
  have hsuspended : ¬s.suspended t = true := by
    rw [State.suspended, hon, Bool.not_true, Bool.and_false]
    exact Bool.false_ne_true
  simp only [State.resumeThread, hthread]
  exact if_neg hsuspended

theorem live_of_resumes (h : Owned s) (hc : c ∈ s.resumes.map Prod.fst) : c ∈ s.live := by
  obtain ⟨⟨c, t, tid⟩, hmem, rfl⟩ := List.mem_map.mp hc
  exact (h.resumed c t tid hmem).1

end Owned

end State

/-- In a run, ids are unique and released once, after the thread has finished, exactly when no
thread is resumed that runs or waits for a resume to return. -/
theorem ids_kept_iff (cfg : Config) (es : List Event) :
    Transition.Always (step cfg) IdsKept init es ↔
      Transition.Guarded (step cfg) ResumesWaiting init es := by
  refine Transition.always_iff_guarded (I := fun s => s.Wf ∧ Owned s) ⟨wf_init, owned_init⟩
    (fun s h => h.2.kept) ?_ ?_
  · intro s e s' h he hstep
    exact ⟨h.1.after hstep, h.2.after h.1 he hstep⟩
  · intro s e s' h he hstep hkept
    refine he fun tid c heq hget hc => ?_
    subst heq
    obtain ⟨-, hs'⟩ := Option.ite_none_right_eq_some.mp hstep
    have hresume : s.resumeThreadId cfg tid = s.resumeThread cfg c := by
      rw [resumeThreadId, hget]
    have hlive := h.2.live_of_resumes hc
    obtain ⟨threadRegistry, hunref⟩ := h.2.unref_eq hlive
    have hwf : { s with currentRunningThreadCtx := some (.obj c), context := none }.Wf :=
      { h.1 with }
    rw [hresume, h.2.resumeThread_inProgress cfg hc, hwf.ended_eq cfg hunref] at hs'
    cases hs'
    exact hkept.after c (List.mem_append_right _ List.mem_cons_self) hlive

/-- A system thread that resumes itself loses its id. -/
theorem running_unref :
    ¬Transition.Always (step ⟨16, 16⟩) IdsKept init
      [.startSystemThread, .resumeThreadId (.num 1)] := by
  intro h
  have hkept : IdsKept _ := (h.2 _ rfl).2 _ rfl
  exact hkept.after 0 List.mem_cons_self List.mem_cons_self

end Luaw.Scheduler
