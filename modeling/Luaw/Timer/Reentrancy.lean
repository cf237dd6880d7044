import Luaw.Foundations.Transition
import Luaw.Timer.UserTimer

/-!
# One user timer and its threads

Any thread may call any method at any time, also while it is being resumed by one. Beside the
timer a run keeps a record of the waits and of the starts, newest first: what each of them is due,
and what it got. What is due is read off the calls and the callbacks alone.
-/

namespace Luaw.Timer

open Transition
open Tcp (UvError)

/-- A wait that returned `ok false`. It is `due` what the first timeout, stop or delete after it
brings. -/
structure Wait where
  tid : Int
  due : Option Outcome
  resumes : List Outcome
  deriving DecidableEq, Repr

/-- A start that succeeded. Its expiry is due to the thread that waits for it, or else to the next
one that calls `wait`. -/
structure Start where
  expired : Bool
  due : Option Int
  reports : List Int
  deriving DecidableEq, Repr

/-- A wait that nothing has ended so far ends now. -/
def Wait.settle (outcome : Outcome) (w : Wait) : Wait :=
  if w.due = none then { w with due := some outcome } else w

/-- A resume reaches a thread in the last wait it has made. -/
def credit (tid : Int) (outcome : Outcome) : List Wait → List Wait
  | [] => []
  | w :: waits =>
    if w.tid = tid then { w with resumes := w.resumes ++ [outcome] } :: waits
    else w :: credit tid outcome waits

/-- The last start expires. -/
def expire (waits : List Wait) : List Start → List Start
  | [] => []
  | st :: starts =>
    { st with expired := true, due := (waits.find? (·.due = none)).map Wait.tid } :: starts

/-- A thread calls `wait`. -/
def Start.claim (tid : Int) (st : Start) : Start :=
  if st.expired ∧ st.due = none then { st with due := some tid } else st

/-- A thread is told that the timer elapsed. -/
def report (tid : Int) : List Start → List Start
  | [] => []
  | st :: starts => { st with reports := st.reports ++ [tid] } :: starts

structure TimerRun where
  timer : UserTimer
  frames : List Frame
  waits : List Wait
  starts : List Start
  /-- `stop` has just returned. -/
  stopped : Bool

inductive TimerEvent where
  | start (timeout : Int) (rc : Option UvError)
  | wait (tid : Int)
  | stop
  | delete
  | gc
  | timeout
  | yields
  deriving DecidableEq, Repr

namespace TimerRun

def new : TimerRun := ⟨newUserTimer, [], [], [], false⟩

/-- A function returns, or resumes a thread. -/
def follow (s : TimerRun) (timer : UserTimer) : Option Resume → TimerRun
  | none => { s with timer }
  | some r =>
    { s with
      timer
      frames := r.rest :: s.frames
      waits := credit r.tid r.outcome s.waits
      starts := if r.outcome = .ok true then report r.tid s.starts else s.starts }

def start (s : TimerRun) (timeout : Int) (rc : Option UvError) : TimerRun :=
  let call := startUserTimer s.timer timeout rc
  let starts := match call.result with
    | .ok () => ⟨false, none, []⟩ :: s.starts
    | .error _ => s.starts
  follow { s with starts, stopped := false } call.timer call.resume

def wait (s : TimerRun) (tid : Int) : TimerRun :=
  let (timer, outcome) := waitUserTimer s.timer tid
  let starts := if s.timer.luaRef then s.starts.map (Start.claim tid) else s.starts
  { s with
    timer
    waits := if outcome = .ok false then ⟨tid, none, []⟩ :: s.waits else s.waits
    starts := if outcome = .ok true then report tid starts else starts
    stopped := false }

def stop (s : TimerRun) : TimerRun :=
  let call := stopUserTimer s.timer
  follow { s with waits := s.waits.map (Wait.settle canceled), stopped := call.resume.isNone }
    call.timer call.resume

def delete (s : TimerRun) : TimerRun :=
  let call := closeTimer s.timer
  follow { s with waits := s.waits.map (Wait.settle canceled), stopped := false }
    call.timer call.resume

/-- libuv stops a timer before it calls back. -/
def timeout (s : TimerRun) : TimerRun :=
  let call := onUserTimerTimeout (uvTimerStop s.timer)
  follow
    { s with
      waits := s.waits.map (Wait.settle (.ok true))
      starts := expire s.waits s.starts
      stopped := false }
    call.timer call.resume

/-- The thread that was resumed yields, and the function that resumed it goes on. -/
def yields (s : TimerRun) (rest : Frame) (frames : List Frame) : TimerRun :=
  { s with
    timer := rest.finish s.timer
    frames
    waits := if rest = .stop then s.waits.map (Wait.settle canceled) else s.waits
    stopped := rest = .stop }

/-- Callbacks are not nested, and a timer that is not active does not fire. -/
def step (s : TimerRun) : TimerEvent → Option TimerRun
  | .start timeout rc => some (s.start timeout rc)
  | .wait tid => some (s.wait tid)
  | .stop => some s.stop
  | .delete => some s.delete
  | .gc => some s.delete
  | .timeout => if s.frames = [] ∧ s.timer.handle.active then some s.timeout else none
  | .yields =>
    match s.frames with
    | [] => none
    | rest :: frames => some (s.yields rest frames)

end TimerRun

/-- What users of a timer rely on. -/
structure TimerContract (s : TimerRun) : Prop where
  tid_ticking : s.timer.luaRef = true → s.timer.luaTid ≠ 0 → s.timer.state = .ticking
  active_iff : s.timer.luaRef = true → (s.timer.handle.active = true ↔ s.timer.state = .ticking)
  resumed : ∀ w ∈ s.waits, w.resumes = w.due.toList
  reported : ∀ st ∈ s.starts, st.reports = st.due.toList
  restartable : s.stopped = true → s.timer.luaRef = true →
    ∀ timeout, 0 < timeout → (startUserTimer s.timer timeout none).result = .ok ()

/-- A timer that elapsed is not stopped, and the thread that a stop resumes neither stops nor
deletes the timer. -/
def StopsOnce (s : TimerRun) : TimerEvent → Prop
  | .stop => s.timer.luaRef = true → s.timer.state ≠ .elapsed ∧ .stop ∉ s.frames
  | .delete | .gc => s.timer.luaRef = true → .stop ∉ s.frames
  | _ => True

section Records

variable {outcome : Outcome} {tid : Int} {w : Wait} {waits : List Wait} {starts : List Start}

theorem settle_due (h : w.due = none) : w.settle outcome = { w with due := some outcome } :=
  if_pos h

theorem settle_of_due (h : w.due ≠ none) : w.settle outcome = w :=
  if_neg h

theorem settle_tid : (w.settle outcome).tid = w.tid := by
  rw [Wait.settle]
  split <;> rfl

theorem due_settle : (w.settle outcome).due ≠ none := by
  by_cases h : w.due = none
  · rw [settle_due h]
    rintro ⟨⟩
  · rwa [settle_of_due h]

theorem map_settle_of_due (h : ∀ w ∈ waits, w.due ≠ none) :
    waits.map (Wait.settle outcome) = waits :=
  (List.map_congr_left fun w hw => settle_of_due (h w hw)).trans (List.map_id waits)

theorem map_settle_cons (h : ∀ w ∈ waits, w.due ≠ none) :
    (w :: waits).map (Wait.settle outcome) = w.settle outcome :: waits := by
  rw [List.map_cons, map_settle_of_due h]

theorem due_map_settle : ∀ w ∈ waits.map (Wait.settle outcome), w.due ≠ none := by
  intro w hw
  obtain ⟨w, -, rfl⟩ := List.mem_map.mp hw
  exact due_settle

theorem credit_head (h : w.tid = tid) :
    credit tid outcome (w :: waits) = { w with resumes := w.resumes ++ [outcome] } :: waits :=
  if_pos h

end Records

/-- No start has expired for a thread that is still to come. -/
def Observed (starts : List Start) : Prop :=
  ∀ st ∈ starts, st.expired = true → st.due ≠ none

theorem claim_observed {tid : Int} {starts : List Start} (h : Observed starts) :
    starts.map (Start.claim tid) = starts := by
  have hclaim : ∀ st ∈ starts, st.claim tid = st :=
    fun st hst => if_neg fun ⟨hexpired, hdue⟩ => h st hst hexpired hdue
  rw [List.map_congr_left hclaim, List.map_id']

/-- The last wait is the one recorded, and it is the only one that may still be going on; it is over
when the stop that ended it has still to clear the thread id. -/
def WaitsFit (luaTid : Int) (stopping : Prop) (waits : List Wait) : Prop :=
  (luaTid = 0 ∧ ∀ w ∈ waits, w.due ≠ none) ∨
    luaTid ≠ 0 ∧ ∃ w rest, waits = w :: rest ∧ w.tid = luaTid ∧ (w.due ≠ none → stopping) ∧
      ∀ w ∈ rest, w.due ≠ none

/-- The last start is the one that ticks, or whose expiry no thread has seen. -/
def StartsFit : TimerState → List Start → Prop
  | .init, starts => Observed starts
  | .ticking, starts => ∃ rest, starts = ⟨false, none, []⟩ :: rest ∧ Observed rest
  | .elapsed, starts => ∃ rest, starts = ⟨true, none, []⟩ :: rest ∧ Observed rest

/-- What holds in every run. -/
structure Sound (s : TimerRun) : Prop where
  tid_ticking : s.timer.luaTid ≠ 0 → s.timer.luaRef = true ∧ s.timer.state = .ticking
  active_iff : s.timer.luaRef = true → (s.timer.handle.active = true ↔ s.timer.state = .ticking)
  closed : s.timer.luaRef = false → s.timer.handle.active = true → .close ∈ s.frames
  closing : s.timer.handle.closing = true → s.timer.luaRef = false ∧ s.timer.handle.active = false
  unlinked : .close ∈ s.frames → s.timer.luaRef = false
  not_elapsed : .stop ∈ s.frames → s.timer.state ≠ .elapsed
  waits : WaitsFit s.timer.luaTid (.stop ∈ s.frames) s.waits
  reported : ∀ st ∈ s.starts, st.reports = st.due.toList
  starts : s.timer.luaRef = true → StartsFit s.timer.state s.starts

/-- What holds in the runs in which stops do not overlap. -/
structure Orderly (s : TimerRun) : Prop extends Sound s where
  once : s.frames.count .stop ≤ 1
  resumed : ∀ w ∈ s.waits, w.resumes = w.due.toList
  stopping : .stop ∈ s.frames → s.timer.luaTid ≠ 0 ∧ ∀ w ∈ s.waits, w.due ≠ none
  stopped : s.stopped = true → s.timer.luaRef = true → s.timer.state = .init

theorem orderly_new : Orderly .new where
  tid_ticking := fun h => absurd rfl h
  active_iff := fun _ => iff_of_false (by rintro ⟨⟩) (by rintro ⟨⟩)
  closed := by rintro ⟨⟩
  closing := by rintro ⟨⟩
  unlinked := by rintro ⟨⟩
  not_elapsed := by rintro ⟨⟩
  waits := .inl ⟨rfl, List.forall_mem_nil _⟩
  reported := List.forall_mem_nil _
  starts := fun _ => List.forall_mem_nil _
  once := Nat.zero_le 1
  resumed := List.forall_mem_nil _
  stopping := by rintro ⟨⟩
  stopped := by rintro ⟨⟩

theorem Orderly.contract {s : TimerRun} (h : Orderly s) : TimerContract s where
  tid_ticking := fun _ htid => (h.tid_ticking htid).2
  active_iff := h.active_iff
  resumed := h.resumed
  reported := h.reported
  restartable := by
    intro hstopped hopen timeout htimeout
    rw [startUserTimer, if_pos hopen, if_neg (not_not.mpr (h.stopped hstopped hopen)),
      if_neg (Int.not_le.mpr htimeout)]

section Steps

variable {s : TimerRun} {luaTid : Int} {stopping : Prop} {waits : List Wait} {outcome : Outcome}

theorem WaitsFit.due (h : WaitsFit 0 stopping waits) : ∀ w ∈ waits, w.due ≠ none := by
  obtain ⟨-, hdue⟩ | ⟨hne, -⟩ := h
  · exact hdue
  · exact absurd rfl hne

/-- A resume reaches the wait that is recorded. -/
theorem WaitsFit.credit (h : WaitsFit luaTid stopping waits) (htid : luaTid ≠ 0)
    (outcome : Outcome) : ∃ w rest, waits = w :: rest ∧ w.tid = luaTid ∧
      (w.due ≠ none → stopping) ∧ (∀ w ∈ rest, w.due ≠ none) ∧
      credit luaTid outcome (waits.map (Wait.settle outcome)) =
        { w.settle outcome with resumes := (w.settle outcome).resumes ++ [outcome] } :: rest := by
  obtain ⟨hzero, -⟩ | ⟨-, w, rest, rfl, hw, hstopping, hrest⟩ := h
  · exact absurd hzero htid
  · refine ⟨w, rest, rfl, hw, hstopping, hrest, ?_⟩
    rw [map_settle_cons hrest, credit_head (settle_tid.trans hw)]

/-- After its resume every wait is over. -/
theorem WaitsFit.due_credit (h : WaitsFit luaTid stopping waits) (htid : luaTid ≠ 0) :
    ∀ w ∈ Timer.credit luaTid outcome (waits.map (Wait.settle outcome)), w.due ≠ none := by
  obtain ⟨w, rest, -, -, -, hrest, hcredit⟩ := h.credit htid outcome
  rw [hcredit]
  intro w' hw'
  obtain rfl | hw' := List.mem_cons.mp hw'
  · exact due_settle
  · exact hrest w' hw'

/-- A wait that goes on gets exactly the resume that ends it. -/
theorem WaitsFit.resumed_credit (h : WaitsFit luaTid False waits) (htid : luaTid ≠ 0)
    (hresumed : ∀ w ∈ waits, w.resumes = w.due.toList) :
    ∀ w ∈ Timer.credit luaTid outcome (waits.map (Wait.settle outcome)),
      w.resumes = w.due.toList := by
  obtain ⟨w, rest, rfl, -, hdue, -, hcredit⟩ := h.credit htid outcome
  have hdue : w.due = none := not_not.mp hdue
  rw [hcredit, settle_due hdue]
  intro w' hw'
  obtain rfl | hw' := List.mem_cons.mp hw'
  · show w.resumes ++ [outcome] = [outcome]
    rw [hresumed w List.mem_cons_self, hdue]
    rfl
  · exact hresumed w' (List.mem_cons_of_mem _ hw')

/-- A wait that is over gets a second resume. -/
theorem WaitsFit.not_resumed_credit (h : WaitsFit luaTid stopping waits) (htid : luaTid ≠ 0)
    (hresumed : ∀ w ∈ waits, w.resumes = w.due.toList) (hdue : ∀ w ∈ waits, w.due ≠ none) :
    ¬∀ w ∈ Timer.credit luaTid outcome (waits.map (Wait.settle outcome)),
      w.resumes = w.due.toList := by
  obtain ⟨w, rest, rfl, -, -, -, hcredit⟩ := h.credit htid outcome
  rw [hcredit, settle_of_due (hdue w List.mem_cons_self)]
  intro hall
  have htwice : w.resumes ++ [outcome] = w.due.toList := hall _ List.mem_cons_self
  rw [← hresumed w List.mem_cons_self, List.append_right_eq_self] at htwice
  cases htwice

end Steps

theorem StartsFit.observed {state : TimerState} {starts : List Start} (h : StartsFit state starts)
    (hstate : state ≠ .elapsed) : Observed starts := by
  cases state with
  | init => exact h
  | ticking =>
    obtain ⟨rest, rfl, hrest⟩ := h
    intro st hst hexpired
    obtain rfl | hst := List.mem_cons.mp hst
    · cases hexpired
    · exact hrest st hst hexpired
  | elapsed => exact absurd rfl hstate

theorem StartsFit.claim {state : TimerState} {starts : List Start} (h : StartsFit state starts)
    (hstate : state ≠ .elapsed) (tid : Int) : starts.map (Start.claim tid) = starts :=
  claim_observed (h.observed hstate)

section Calls

variable {s : TimerRun}

theorem Sound.settle (h : Sound s) (htid : s.timer.luaTid = 0) (outcome : Outcome) :
    s.waits.map (Wait.settle outcome) = s.waits := by
  have hwaits := h.waits
  rw [htid] at hwaits
  exact map_settle_of_due hwaits.due

theorem Sound.tid_zero (h : Sound s) (hstate : s.timer.state ≠ .ticking) : s.timer.luaTid = 0 := by
  by_contra htid
  exact hstate (h.tid_ticking htid).2

theorem Sound.stop_waiting (h : Sound s) (htid : s.timer.luaTid ≠ 0) :
    s.stop = { s with
      frames := .stop :: s.frames
      waits := credit s.timer.luaTid canceled (s.waits.map (Wait.settle canceled))
      stopped := false } := by
  -- the id stays set while the thread runs, and the wait that it records is over
  obtain ⟨hopen, hticking⟩ := h.tid_ticking htid
  have hcall : stopUserTimer s.timer =
      ⟨s.timer, some ⟨s.timer.luaTid, canceled, .stop⟩, .ok ()⟩ := by
    rw [stopUserTimer, if_pos hopen, if_pos hticking, if_neg htid]
  rw [TimerRun.stop, hcall]
  rfl

theorem Sound.stop_idle (h : Sound s) (htid : s.timer.luaTid = 0) :
    s.stop = { s with
      timer := if s.timer.luaRef = true ∧ s.timer.state = .ticking then
        uvTimerStop (clearUserTimer s.timer) else s.timer
      stopped := true } := by
  have hcall : ∃ result, stopUserTimer s.timer = ⟨if s.timer.luaRef = true ∧
      s.timer.state = .ticking then uvTimerStop (clearUserTimer s.timer) else s.timer, none,
      result⟩ := by
    rw [stopUserTimer]
    by_cases hopen : s.timer.luaRef = true
    · by_cases hticking : s.timer.state = .ticking
      · rw [if_pos hopen, if_pos hticking, if_pos htid, if_pos ⟨hopen, hticking⟩]
        exact ⟨_, rfl⟩
      · rw [if_pos hopen, if_neg hticking, if_neg fun hboth => hticking hboth.2]
        exact ⟨_, rfl⟩
    · rw [if_neg hopen, if_neg fun hboth => hopen hboth.1]
      exact ⟨_, rfl⟩
  obtain ⟨result, hcall⟩ := hcall
  rw [TimerRun.stop, hcall, h.settle htid]
  rfl

theorem Sound.delete_waiting (h : Sound s) (htid : s.timer.luaTid ≠ 0) :
    s.delete = { s with
      timer := { s.timer with luaRef := false, luaTid := 0 }
      frames := .close :: s.frames
      waits := credit s.timer.luaTid canceled (s.waits.map (Wait.settle canceled))
      stopped := false } := by
  rw [TimerRun.delete, closeTimer, if_pos (h.tid_ticking htid).1, if_neg htid]
  rfl

theorem Sound.delete_idle (h : Sound s) (htid : s.timer.luaTid = 0) :
    s.delete = { s with
      timer := if s.timer.luaRef = true then closeHandle { s.timer with luaRef := false }
        else s.timer
      stopped := false } := by
  rw [TimerRun.delete, h.settle htid, closeTimer, if_pos htid]
  split <;> rfl

theorem Sound.timeout_waiting (htid : s.timer.luaTid ≠ 0) :
    s.timeout = { s with
      timer := clearUserTimer (uvTimerStop s.timer)
      frames := .timeout :: s.frames
      waits := credit s.timer.luaTid (.ok true) (s.waits.map (Wait.settle (.ok true)))
      starts := report s.timer.luaTid (expire s.waits s.starts)
      stopped := false } := by
  have htid' : (uvTimerStop s.timer).luaTid ≠ 0 := htid
  rw [TimerRun.timeout, onUserTimerTimeout, if_neg htid']
  rfl

theorem Sound.timeout_idle (h : Sound s) (htid : s.timer.luaTid = 0) :
    s.timeout = { s with
      timer := { uvTimerStop s.timer with state := .elapsed }
      starts := expire s.waits s.starts
      stopped := false } := by
  have htid' : (uvTimerStop s.timer).luaTid = 0 := htid
  rw [TimerRun.timeout, h.settle htid, onUserTimerTimeout, if_pos htid']
  rfl

theorem Sound.start_cases (h : Sound s) (timeout : Int) (rc : Option UvError) :
    s.start timeout rc = { s with stopped := false } ∨
    s.timer.luaRef = true ∧ s.timer.state = .init ∧
      (s.start timeout rc = { s with
          timer := { s.timer with
            state := .ticking
            handle := { s.timer.handle with active := true } }
          starts := ⟨false, none, []⟩ :: s.starts
          stopped := false } ∨
        s.start timeout rc =
          { s with timer := closeHandle { s.timer with luaRef := false }, stopped := false }) := by
  unfold TimerRun.start startUserTimer
  by_cases hopen : s.timer.luaRef = true
  · rw [if_pos hopen]
    by_cases hinit : s.timer.state = .init
    · rw [if_neg (not_not.mpr hinit)]
      split
      · exact .inl rfl
      · cases rc with
        | none => exact .inr ⟨hopen, hinit, .inl rfl⟩
        | some e =>
          have htid : s.timer.luaTid = 0 := h.tid_zero (by rw [hinit]; rintro ⟨⟩)
          refine .inr ⟨hopen, hinit, .inr ?_⟩
          rw [closeTimer, if_pos hopen, if_pos htid]
          rfl
    · rw [if_pos hinit]
      exact .inl rfl
  · rw [if_neg hopen]
    exact .inl rfl

theorem Sound.wait_cases (h : Sound s) (tid : Int) :
    s.wait tid = { s with stopped := false } ∨
    s.timer.luaRef = true ∧
      (s.timer.state = .elapsed ∧ s.wait tid = { s with
          timer := clearUserTimer s.timer
          starts := report tid (s.starts.map (Start.claim tid))
          stopped := false } ∨
        s.timer.state = .ticking ∧ s.timer.luaTid = 0 ∧ 0 < tid ∧ s.wait tid = { s with
          timer := { s.timer with luaTid := tid }
          waits := ⟨tid, none, []⟩ :: s.waits
          stopped := false }) := by
  rw [TimerRun.wait, waitUserTimer]
  by_cases hopen : s.timer.luaRef = true
  · simp only [if_pos hopen]
    by_cases helapsed : s.timer.state = .elapsed
    · rw [if_pos helapsed]
      exact .inr ⟨hopen, .inl ⟨helapsed, rfl⟩⟩
    · rw [if_neg helapsed, (h.starts hopen).claim helapsed]
      by_cases hticking : s.timer.state = .ticking
      · rw [if_neg (not_not.mpr hticking)]
        by_cases htid : s.timer.luaTid = 0
        · rw [if_neg (not_not.mpr htid)]
          split
          · exact .inl rfl
          · exact .inr ⟨hopen, .inr ⟨hticking, htid, Int.not_le.mp ‹_›, rfl⟩⟩
        · rw [if_pos htid]
          exact .inl rfl
      · rw [if_pos hticking]
        exact .inl rfl
  · simp only [if_neg hopen]
    exact .inl rfl

end Calls

section SoundSteps

variable {s : TimerRun}

theorem Sound.unchanged (h : Sound s) (stopped : Bool) : Sound { s with stopped } where
  tid_ticking := h.tid_ticking
  active_iff := h.active_iff
  closed := h.closed
  closing := h.closing
  unlinked := h.unlinked
  not_elapsed := h.not_elapsed
  waits := h.waits
  reported := h.reported
  starts := h.starts

theorem Sound.closeHandle_active (h : Sound s) (luaRef : Bool) :
    (closeHandle { s.timer with luaRef }).handle.active = false := by
  show (Tcp.closeIfActive s.timer.handle).active = false
  rw [Tcp.closeIfActive]
  split
  · exact (h.closing ‹_›).2
  · rfl

theorem Sound.start (h : Sound s) (timeout : Int) (rc : Option UvError) :
    Sound (s.start timeout rc) := by
  obtain heq | ⟨hopen, hinit, heq⟩ := h.start_cases timeout rc
  · rw [heq]
    exact h.unchanged false
  · have htid : s.timer.luaTid = 0 := h.tid_zero (by rw [hinit]; rintro ⟨⟩)
    have hstarts := h.starts hopen
    rw [hinit] at hstarts
    obtain heq | heq := heq
    · rw [heq]
      refine ⟨fun hne => absurd htid hne, fun _ => iff_of_true rfl rfl,
        fun hclosed => (by cases hopen.symm.trans hclosed),
        fun hclosing => (by cases hopen.symm.trans (h.closing hclosing).1), h.unlinked,
        fun _ => (by rintro ⟨⟩), h.waits, ?_, fun _ => ⟨s.starts, rfl, hstarts⟩⟩
      intro st hst
      obtain rfl | hst := List.mem_cons.mp hst
      · rfl
      · exact h.reported st hst
    · rw [heq]
      exact ⟨fun hne => absurd htid hne, (by rintro ⟨⟩),
        fun _ hactive => (by cases (h.closeHandle_active false).symm.trans hactive),
        fun _ => ⟨rfl, h.closeHandle_active false⟩, fun _ => rfl, h.not_elapsed, h.waits,
        h.reported, by rintro ⟨⟩⟩

theorem Sound.wait (h : Sound s) (tid : Int) : Sound (s.wait tid) := by
  obtain heq | ⟨hopen, ⟨helapsed, heq⟩ | ⟨hticking, htid, hpos, heq⟩⟩ := h.wait_cases tid
  · rw [heq]
    exact h.unchanged false
  -- the timer has elapsed before the wait, which reports it at once
  · have htid : s.timer.luaTid = 0 := h.tid_zero (by rw [helapsed]; rintro ⟨⟩)
    have hwaits := h.waits
    rw [htid] at hwaits
    have hstarts := h.starts hopen
    rw [helapsed] at hstarts
    obtain ⟨rest, hcons, hrest⟩ := hstarts
    have hreported := h.reported
    rw [hcons] at hreported
    have hclaim : report tid (s.starts.map (Start.claim tid)) =
        ⟨true, some tid, [tid]⟩ :: rest := by
      rw [hcons, List.map_cons, claim_observed hrest]
      rfl
    have hinactive : s.timer.handle.active ≠ true := by
      intro hactive
      cases helapsed.symm.trans ((h.active_iff hopen).mp hactive)
    rw [heq, hclaim]
    refine ⟨fun hne => absurd rfl hne, fun _ => iff_of_false hinactive (by rintro ⟨⟩),
      fun hclosed => (by cases hopen.symm.trans hclosed), h.closing, h.unlinked,
      fun _ => (by rintro ⟨⟩), .inl ⟨rfl, hwaits.due⟩, ?_, fun _ => ?_⟩
    · intro st hst
      obtain rfl | hst := List.mem_cons.mp hst
      · rfl
      · exact hreported st (List.mem_cons_of_mem _ hst)
    · intro st hst hexpired
      obtain rfl | hst := List.mem_cons.mp hst
      · rintro ⟨⟩
      · exact hrest st hst hexpired
  -- the timer ticks and the thread is suspended
  · have hwaits := h.waits
    rw [htid] at hwaits
    rw [heq]
    exact ⟨fun _ => ⟨hopen, hticking⟩, h.active_iff, h.closed, h.closing, h.unlinked,
      h.not_elapsed,
      .inr ⟨Int.ne_of_gt hpos, _, _, rfl, rfl, fun hne => absurd rfl hne, hwaits.due⟩, h.reported,
      h.starts⟩

theorem Sound.stop (h : Sound s) : Sound s.stop := by
  by_cases htid : s.timer.luaTid = 0
  · rw [h.stop_idle htid]
    split
    · next hboth =>
      have hwaits := h.waits
      rw [htid] at hwaits
      have hobserved : Observed s.starts :=
        (h.starts hboth.1).observed (by rw [hboth.2]; rintro ⟨⟩)
      exact ⟨fun hne => absurd rfl hne,
        fun _ => iff_of_false Bool.false_ne_true (by rintro ⟨⟩), fun _ => (by rintro ⟨⟩),
        fun hclosing => ⟨(h.closing hclosing).1, rfl⟩, h.unlinked, fun _ => (by rintro ⟨⟩),
        .inl ⟨rfl, hwaits.due⟩, h.reported, fun _ => hobserved⟩
    · exact h.unchanged true
  · obtain ⟨w, rest, -, hw, -, hrest, hcredit⟩ := h.waits.credit htid canceled
    obtain ⟨hopen, hticking⟩ := h.tid_ticking htid
    rw [h.stop_waiting htid]
    exact ⟨h.tid_ticking, h.active_iff,
      fun hclosed hactive => List.mem_cons_of_mem _ (h.closed hclosed hactive), h.closing,
      fun hclose => h.unlinked ((List.mem_cons.mp hclose).resolve_left (by rintro ⟨⟩)),
      fun _ helapsed => (by cases hticking.symm.trans helapsed),
      .inr ⟨htid, _, rest, hcredit, settle_tid.trans hw, fun _ => List.mem_cons_self, hrest⟩,
      h.reported, h.starts⟩

theorem Sound.delete (h : Sound s) : Sound s.delete := by
  by_cases htid : s.timer.luaTid = 0
  · rw [h.delete_idle htid]
    split
    · exact ⟨fun hne => absurd htid hne, (by rintro ⟨⟩),
        fun _ hactive => (by cases (h.closeHandle_active false).symm.trans hactive),
        fun _ => ⟨rfl, h.closeHandle_active false⟩, fun _ => rfl, h.not_elapsed, h.waits,
        h.reported, by rintro ⟨⟩⟩
    · exact h.unchanged false
  · rw [h.delete_waiting htid]
    exact ⟨fun hne => absurd rfl hne, (by rintro ⟨⟩), fun _ _ => List.mem_cons_self,
      fun hclosing => ⟨rfl, (h.closing hclosing).2⟩, fun _ => rfl,
      fun hstop => h.not_elapsed ((List.mem_cons.mp hstop).resolve_left (by rintro ⟨⟩)),
      .inl ⟨rfl, h.waits.due_credit htid⟩, h.reported, by rintro ⟨⟩⟩

/-- The timer of a callback is open and ticks. -/
theorem Sound.fires (h : Sound s) (hframes : s.frames = [])
    (hactive : s.timer.handle.active = true) :
    s.timer.luaRef = true ∧ s.timer.state = .ticking := by
  cases hopen : s.timer.luaRef with
  | true => exact ⟨rfl, (h.active_iff hopen).mp hactive⟩
  | false =>
    have hclose := h.closed hopen hactive
    rw [hframes] at hclose
    cases hclose

theorem Sound.timeout (h : Sound s) (hframes : s.frames = [])
    (hactive : s.timer.handle.active = true) : Sound s.timeout := by
  obtain ⟨hopen, hticking⟩ := h.fires hframes hactive
  have hstarts := h.starts hopen
  rw [hticking] at hstarts
  obtain ⟨starts, hcons, hobserved⟩ := hstarts
  have hreported := h.reported
  rw [hcons] at hreported
  have hrest : ∀ st ∈ starts, st.reports = st.due.toList :=
    fun st hst => hreported st (List.mem_cons_of_mem _ hst)
  by_cases htid : s.timer.luaTid = 0
  · -- nobody waits, so the expiry is for the next thread that does
    have hwaits := h.waits
    rw [htid] at hwaits
    have hnone : s.waits.find? (·.due = none) = none := by
      rw [List.find?_eq_none]
      exact fun w hw hdue => hwaits.due w hw (of_decide_eq_true hdue)
    have hexpire : expire s.waits s.starts = ⟨true, none, []⟩ :: starts := by
      rw [hcons, expire, hnone]
      rfl
    rw [h.timeout_idle htid, hexpire]
    refine ⟨fun hne => absurd htid hne,
      fun _ => iff_of_false Bool.false_ne_true (by rintro ⟨⟩), fun _ => (by rintro ⟨⟩),
      fun hclosing => ⟨(h.closing hclosing).1, rfl⟩, h.unlinked, ?_, h.waits, ?_,
      fun _ => ⟨starts, rfl, hobserved⟩⟩
    · show .stop ∈ s.frames → _
      rw [hframes]
      rintro ⟨⟩
    intro st hst
    obtain rfl | hst := List.mem_cons.mp hst
    · rfl
    · exact hrest st hst
  · obtain ⟨w, rest, hw, htid', hdue, -, -⟩ := h.waits.credit htid (.ok true)
    have hdue : w.due = none := by
      by_contra hne
      have hstop := hdue hne
      rw [hframes] at hstop
      cases hstop
    have hfind : s.waits.find? (·.due = none) = some w := by
      rw [hw]
      exact List.find?_cons_of_pos (decide_eq_true hdue)
    have hexpire : report s.timer.luaTid (expire s.waits s.starts) =
        ⟨true, some s.timer.luaTid, [s.timer.luaTid]⟩ :: starts := by
      rw [hcons, expire, hfind, ← htid']
      rfl
    rw [Sound.timeout_waiting htid, hexpire]
    refine ⟨fun hne => absurd rfl hne,
      fun _ => iff_of_false Bool.false_ne_true (by rintro ⟨⟩), fun _ => (by rintro ⟨⟩),
      fun hclosing => ⟨(h.closing hclosing).1, rfl⟩,
      fun hclose => h.unlinked ((List.mem_cons.mp hclose).resolve_left (by rintro ⟨⟩)),
      fun _ => (by rintro ⟨⟩),
      .inl ⟨rfl, h.waits.due_credit htid⟩, ?_, fun _ => ?_⟩
    · intro st hst
      obtain rfl | hst := List.mem_cons.mp hst
      · rfl
      · exact hrest st hst
    · intro st hst hexpired
      obtain rfl | hst := List.mem_cons.mp hst
      · rintro ⟨⟩
      · exact hobserved st hst hexpired

theorem Sound.yields (h : Sound s) {rest : Frame} {frames : List Frame}
    (hframes : s.frames = rest :: frames) : Sound (s.yields rest frames) := by
  have hother : ∀ {frame}, rest ≠ frame → frame ∈ s.frames → frame ∈ frames := by
    intro frame hne hframe
    rw [hframes] at hframe
    exact (List.mem_cons.mp hframe).resolve_left hne.symm
  have hmem : ∀ {frame}, frame ∈ frames → frame ∈ s.frames := by
    intro frame hframe
    rw [hframes]
    exact List.mem_cons_of_mem _ hframe
  cases rest with
  | close =>
    have hclosed : s.timer.luaRef = false :=
      h.unlinked (hframes ▸ List.mem_cons_self)
    have hinactive : (closeHandle s.timer).handle.active = false := h.closeHandle_active _
    have htid : s.timer.luaTid = 0 := by
      by_contra htid
      cases hclosed.symm.trans (h.tid_ticking htid).1
    have hwaits := h.waits
    rw [htid] at hwaits
    exact ⟨h.tid_ticking, fun hopen => (by cases hclosed.symm.trans hopen),
      fun _ hactive => (by cases hinactive.symm.trans hactive), fun _ => ⟨hclosed, hinactive⟩,
      fun _ => hclosed, fun hstop => h.not_elapsed (hmem hstop), .inl ⟨htid, hwaits.due⟩,
      h.reported, h.starts⟩
  | timeout =>
    have hwaits : WaitsFit s.timer.luaTid (.stop ∈ frames) s.waits := by
      obtain hnone | ⟨htid, w, waits, hw, hwtid, hdue, hrest⟩ := h.waits
      · exact .inl hnone
      · exact .inr ⟨htid, w, waits, hw, hwtid, fun hne => hother (by rintro ⟨⟩) (hdue hne), hrest⟩
    exact ⟨h.tid_ticking, h.active_iff,
      fun hclosed hactive => hother (by rintro ⟨⟩) (h.closed hclosed hactive), h.closing,
      fun hclose => h.unlinked (hmem hclose), fun hstop => h.not_elapsed (hmem hstop), hwaits,
      h.reported, h.starts⟩
  | stop =>
    have hstate := h.not_elapsed (hframes ▸ List.mem_cons_self)
    exact ⟨fun hne => absurd rfl hne,
      fun _ => iff_of_false Bool.false_ne_true (by rintro ⟨⟩), fun _ => (by rintro ⟨⟩),
      fun hclosing => ⟨(h.closing hclosing).1, rfl⟩, fun hclose => h.unlinked (hmem hclose),
      fun _ => (by rintro ⟨⟩), .inl ⟨rfl, due_map_settle⟩, h.reported,
      fun hopen => (h.starts hopen).observed hstate⟩

theorem Sound.step (h : Sound s) {e : TimerEvent} {s' : TimerRun} (hs' : s.step e = some s') :
    Sound s' := by
  cases e with
  | start timeout rc =>
    cases hs'
    exact h.start timeout rc
  | wait tid =>
    cases hs'
    exact h.wait tid
  | stop =>
    cases hs'
    exact h.stop
  | delete =>
    cases hs'
    exact h.delete
  | gc =>
    cases hs'
    exact h.delete
  | timeout =>
    obtain ⟨henabled, heq⟩ := Option.ite_none_right_eq_some.mp hs'
    cases heq
    exact h.timeout henabled.1 henabled.2
  | yields =>
    rw [TimerRun.step] at hs'
    split at hs'
    · cases hs'
    · next hframes =>
      cases hs'
      exact h.yields hframes

end SoundSteps

/-- However stops overlap, the timer is active exactly while it ticks, and no expiry is reported
twice. -/
theorem sound_always (es : List TimerEvent) : Always TimerRun.step Sound .new es :=
  always_of_invariant orderly_new.toSound fun _ _ _ h hs' => h.step hs'

section OrderlySteps

variable {s : TimerRun}

theorem Orderly.start (h : Orderly s) (timeout : Int) (rc : Option UvError) :
    Orderly (s.start timeout rc) := by
  have hsound := h.toSound.start timeout rc
  obtain heq | ⟨-, -, heq | heq⟩ := h.start_cases timeout rc <;> rw [heq] at hsound ⊢ <;>
    exact ⟨hsound, h.once, h.resumed, h.stopping, by rintro ⟨⟩⟩

theorem Orderly.wait (h : Orderly s) (tid : Int) : Orderly (s.wait tid) := by
  have hsound := h.toSound.wait tid
  obtain heq | ⟨-, ⟨helapsed, heq⟩ | ⟨-, htid, -, heq⟩⟩ := h.wait_cases tid
  · rw [heq] at hsound ⊢
    exact ⟨hsound, h.once, h.resumed, h.stopping, by rintro ⟨⟩⟩
  · rw [heq] at hsound ⊢
    refine ⟨hsound, h.once, h.resumed, fun hstop => ?_, by rintro ⟨⟩⟩
    exact absurd helapsed (h.not_elapsed hstop)
  · rw [heq] at hsound ⊢
    refine ⟨hsound, h.once, ?_, fun hstop => absurd htid (h.stopping hstop).1, by rintro ⟨⟩⟩
    intro w hw
    obtain rfl | hw := List.mem_cons.mp hw
    · rfl
    · exact h.resumed w hw

/-- Without a stop under way, a wait gets the resume that ends it. -/
theorem Orderly.resumed_credit (h : Orderly s) (hstop : .stop ∉ s.frames)
    (htid : s.timer.luaTid ≠ 0) (outcome : Outcome) :
    ∀ w ∈ credit s.timer.luaTid outcome (s.waits.map (Wait.settle outcome)),
      w.resumes = w.due.toList := by
  have hwaits := h.waits
  rw [eq_false hstop] at hwaits
  exact hwaits.resumed_credit htid h.resumed

theorem Orderly.stop (h : Orderly s) (hc : StopsOnce s .stop) : Orderly s.stop := by
  have hsound := h.toSound.stop
  by_cases htid : s.timer.luaTid = 0
  · have hstop : .stop ∉ s.frames := fun hstop => (h.stopping hstop).1 htid
    rw [h.stop_idle htid] at hsound ⊢
    split at hsound
    · next hboth =>
      rw [if_pos hboth]
      exact ⟨hsound, h.once, h.resumed, fun hstop' => absurd hstop' hstop, fun _ _ => rfl⟩
    · next hboth =>
      rw [if_neg hboth]
      refine ⟨hsound, h.once, h.resumed, fun hstop' => absurd hstop' hstop, fun _ hopen => ?_⟩
      -- the timer was neither ticking nor elapsed
      cases hstate : s.timer.state with
      | init => rfl
      | ticking => exact absurd ⟨hopen, hstate⟩ hboth
      | elapsed => exact absurd hstate (hc hopen).1
  · have hstop : .stop ∉ s.frames := (hc (h.tid_ticking htid).1).2
    rw [h.stop_waiting htid] at hsound ⊢
    have honce : (Frame.stop :: s.frames).count .stop = 1 := by
      rw [List.count_cons_self, List.count_eq_zero.mpr hstop]
    exact ⟨hsound, Nat.le_of_eq honce, h.resumed_credit hstop htid canceled,
      fun _ => ⟨htid, h.waits.due_credit htid⟩, by rintro ⟨⟩⟩

theorem Orderly.delete (h : Orderly s) (hc : StopsOnce s .delete) : Orderly s.delete := by
  have hsound := h.toSound.delete
  by_cases htid : s.timer.luaTid = 0
  · have hstop : .stop ∉ s.frames := fun hstop => (h.stopping hstop).1 htid
    rw [h.delete_idle htid] at hsound ⊢
    exact ⟨hsound, h.once, h.resumed, fun hstop' => absurd hstop' hstop, by rintro ⟨⟩⟩
  · have hstop : .stop ∉ s.frames := hc (h.tid_ticking htid).1
    rw [h.delete_waiting htid] at hsound ⊢
    refine ⟨hsound, h.once, h.resumed_credit hstop htid canceled, fun hstop' => ?_, by rintro ⟨⟩⟩
    exact absurd ((List.mem_cons.mp hstop').resolve_left (by rintro ⟨⟩)) hstop

theorem Orderly.timeout (h : Orderly s) (hframes : s.frames = [])
    (hactive : s.timer.handle.active = true) : Orderly s.timeout := by
  have hsound := h.toSound.timeout hframes hactive
  have hstop : .stop ∉ s.frames := by
    rw [hframes]
    rintro ⟨⟩
  by_cases htid : s.timer.luaTid = 0
  · rw [h.timeout_idle htid] at hsound ⊢
    exact ⟨hsound, h.once, h.resumed, fun hstop' => absurd hstop' hstop, by rintro ⟨⟩⟩
  · rw [Sound.timeout_waiting htid] at hsound ⊢
    refine ⟨hsound, h.once, h.resumed_credit hstop htid _, fun hstop' => ?_, by rintro ⟨⟩⟩
    exact absurd ((List.mem_cons.mp hstop').resolve_left (by rintro ⟨⟩)) hstop

theorem Orderly.yields (h : Orderly s) {rest : Frame} {frames : List Frame}
    (hframes : s.frames = rest :: frames) : Orderly (s.yields rest frames) := by
  have hsound := h.toSound.yields hframes
  have honce := h.once
  rw [hframes] at honce
  have hmem : .stop ∈ frames → .stop ∈ s.frames := by
    intro hstop
    rw [hframes]
    exact List.mem_cons_of_mem _ hstop
  cases rest with
  | close => exact ⟨hsound, honce, h.resumed, fun hstop => h.stopping (hmem hstop), by rintro ⟨⟩⟩
  | timeout => exact ⟨hsound, honce, h.resumed, fun hstop => h.stopping (hmem hstop), by rintro ⟨⟩⟩
  | stop =>
    rw [List.count_cons_self] at honce
    have hstop : .stop ∉ frames :=
      List.count_eq_zero.mp (Nat.le_zero.mp (Nat.le_of_succ_le_succ honce))
    -- the stop that goes on finds no wait that is still to be ended
    have hdue := (h.stopping (hframes ▸ List.mem_cons_self)).2
    have hcount : frames.count .stop = 0 := List.count_eq_zero.mpr hstop
    refine ⟨hsound, Nat.le_trans (Nat.le_of_eq hcount) (Nat.zero_le 1), ?_,
      fun hstop' => absurd hstop' hstop, fun _ _ => rfl⟩
    show ∀ w ∈ s.waits.map (Wait.settle canceled), w.resumes = w.due.toList
    rw [map_settle_of_due hdue]
    exact h.resumed

theorem Orderly.step (h : Orderly s) {e : TimerEvent} (hc : StopsOnce s e) {s' : TimerRun}
    (hs' : s.step e = some s') : Orderly s' := by
  cases e with
  | start timeout rc =>
    cases hs'
    exact h.start timeout rc
  | wait tid =>
    cases hs'
    exact h.wait tid
  | stop =>
    cases hs'
    exact h.stop hc
  | delete =>
    cases hs'
    exact h.delete hc
  | gc =>
    cases hs'
    exact h.delete hc
  | timeout =>
    obtain ⟨henabled, heq⟩ := Option.ite_none_right_eq_some.mp hs'
    cases heq
    exact h.timeout henabled.1 henabled.2
  | yields =>
    rw [TimerRun.step] at hs'
    split at hs'
    · cases hs'
    · next hframes =>
      cases hs'
      exact h.yields hframes

/-- The thread that a stop has resumed is resumed again by another stop, or by a delete; a timer
that elapsed cannot be started after it was stopped. -/
theorem Orderly.not_contract (h : Orderly s) {e : TimerEvent} (hc : ¬StopsOnce s e)
    {s' : TimerRun} (hs' : s.step e = some s') : ¬TimerContract s' := by
  have hdelete : .stop ∈ s.frames → ¬TimerContract s.delete := by
    intro hstop hcontract
    obtain ⟨htid, hdue⟩ := h.stopping hstop
    have hresumed := hcontract.resumed
    rw [h.delete_waiting htid] at hresumed
    exact h.waits.not_resumed_credit htid h.resumed hdue hresumed
  cases e with
  | stop =>
    cases hs'
    obtain ⟨hopen, hstop⟩ := Classical.not_imp.mp hc
    intro hcontract
    by_cases helapsed : s.timer.state = .elapsed
    · have htid : s.timer.luaTid = 0 := h.tid_zero (by rw [helapsed]; rintro ⟨⟩)
      -- the state is still `elapsed`
      have hrestart := hcontract.restartable
      rw [h.stop_idle htid, if_neg (by rw [helapsed]; rintro ⟨-, ⟨⟩⟩)] at hrestart
      have hresult := hrestart rfl hopen 1 Int.one_pos
      rw [startUserTimer, if_pos hopen, helapsed] at hresult
      cases hresult
    · obtain ⟨htid, hdue⟩ := h.stopping (not_not.mp fun hnot => hstop ⟨helapsed, hnot⟩)
      have hresumed := hcontract.resumed
      rw [h.stop_waiting htid] at hresumed
      exact h.waits.not_resumed_credit htid h.resumed hdue hresumed
  | delete =>
    cases hs'
    exact hdelete (not_not.mp (Classical.not_imp.mp hc).2)
  | gc =>
    cases hs'
    exact hdelete (not_not.mp (Classical.not_imp.mp hc).2)
  | _ => exact absurd trivial hc

end OrderlySteps

/-- The contract of a timer holds along a run exactly when stops do not overlap with other stops and
deletes, and none comes after an expiry that no thread has seen. -/
theorem contract_iff (es : List TimerEvent) :
    Always TimerRun.step TimerContract .new es ↔ Guarded TimerRun.step StopsOnce .new es :=
  always_iff_guarded orderly_new (fun _ h => h.contract) (fun _ _ _ h hc hs' => h.step hc hs')
    (fun _ _ _ h hc hs' => h.not_contract hc hs')

/-- Thread 7 waits, is resumed by a stop, and stops the timer itself: it is resumed again. -/
theorem stopped_resumed_twice : ¬∀ es, Always TimerRun.step TimerContract .new es := by
  intro h
  have hticking := (h [.start 1000 none, .wait 7, .stop, .stop]).2 _ rfl
  have hstopping := (hticking.2 _ rfl).2 _ rfl
  have htwice := (hstopping.2 _ rfl).head.resumed ⟨7, some canceled, [canceled, canceled]⟩
    List.mem_cons_self
  cases htwice

end Luaw.Timer
