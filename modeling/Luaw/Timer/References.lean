import Luaw.Foundations.RefCount
import Luaw.Foundations.Transition
import Luaw.Timer.Reentrancy

/-!
# The references to a user timer

A timer is referred to by Lua's userdata until it is closed, and by libuv's handle until the
callback of `uv_close`. It is allocated with the two references counted.
-/

namespace Luaw.Timer

open RefCount (Cell)
open Tcp (UvError)
open Transition

/-- A timer in memory. `userdata` says whether the pointer in Lua's userdata is non-null, `data`
whether `handle.data` is, and `closed` whether libuv has called `free_user_timer`. -/
structure TimerMemory where
  timer : UserTimer
  frames : List Frame
  cell : Cell
  userdata : Bool
  data : Bool
  closed : Bool
  /-- A function has used the timer after it was freed. -/
  usedFreed : Bool
  deriving DecidableEq, Repr

inductive MemoryEvent where
  | event (e : TimerEvent)
  | closed
  deriving DecidableEq, Repr

namespace TimerMemory

/-- `new_user_timer`. -/
def newUserTimer : TimerMemory where
  timer := Timer.newUserTimer
  frames := []
  cell := (⟨0, false⟩ : Cell).incr.incr
  userdata := true
  data := true
  closed := false
  usedFreed := false

def touch (s : TimerMemory) : TimerMemory :=
  { s with usedFreed := s.usedFreed || s.cell.freed }

def follow {α : Type} (s : TimerMemory) (call : Call α) : TimerMemory :=
  { s with
    timer := call.timer
    frames := (call.resume.map Resume.rest).toList ++ s.frames }

/-- `close_timer` drops the reference of the userdata. -/
def closeTimer (s : TimerMemory) : TimerMemory :=
  let s := s.touch
  if s.timer.luaRef then
    { s.follow (Timer.closeTimer s.timer) with cell := s.cell.decr, userdata := false }
  else s

/-- A method looks for the timer in the userdata first. -/
def method (s : TimerMemory) (body : TimerMemory → TimerMemory) : TimerMemory :=
  if s.userdata then body s.touch else s

/-- `start_user_timer`. -/
def startUserTimer (s : TimerMemory) (timeout : Int) (rc : Option UvError) : TimerMemory :=
  if s.timer.state ≠ .init ∨ timeout ≤ 0 then s
  else
    match rc with
    | some _ => s.closeTimer
    | none => s.follow (Timer.startUserTimer s.timer timeout none)

/-- The rest of a function whose thread has yielded. -/
def finish (s : TimerMemory) : Frame → TimerMemory
  | .timeout => s
  | rest => { s.touch with timer := rest.finish s.timer }

/-- `free_user_timer`. -/
def freeUserTimer (s : TimerMemory) : TimerMemory :=
  let s := { s.touch with closed := true }
  if s.data then { s with data := false, cell := s.cell.release } else s

/-- libuv calls back when no thread runs, and once for each closed handle. -/
def step (s : TimerMemory) : MemoryEvent → Option TimerMemory
  | .event (.start timeout rc) => some (s.method (·.startUserTimer timeout rc))
  | .event (.wait tid) =>
    some (s.method fun s => { s with timer := (waitUserTimer s.timer tid).1 })
  | .event .stop => some (s.method fun s => s.follow (stopUserTimer s.timer))
  | .event .delete => some (s.method closeTimer)
  | .event .gc => some (s.method closeTimer)
  | .event .timeout =>
    if s.frames = [] ∧ s.timer.handle.active then
      let s := s.touch
      some (s.follow (onUserTimerTimeout (uvTimerStop s.timer)))
    else none
  | .event .yields =>
    match s.frames with
    | [] => none
    | rest :: frames => some ({ s with frames }.finish rest)
  | .closed =>
    if s.frames = [] ∧ s.timer.handle.closing ∧ s.closed = false then some s.freeUserTimer
    else none

/-- The references that are still there: the userdata's, and the handle's. -/
def outstanding (s : TimerMemory) : Nat :=
  (if s.userdata then 1 else 0) + if s.closed then 0 else 1

/-- The count is right, the timer is freed exactly when nothing refers to it, and nothing has used
it after that. -/
def Counted (s : TimerMemory) : Prop :=
  s.cell.Holds s.outstanding ∧ s.usedFreed = false

/-- What holds in every run. -/
structure Sound (s : TimerMemory) : Prop where
  counted : s.Counted
  linked : s.userdata = s.timer.luaRef
  data : s.data = !s.closed
  closing : s.timer.handle.closing = true →
    s.timer.luaRef = false ∧ s.timer.handle.active = false
  closed : s.closed = true → s.timer.handle.closing = true
  running : s.frames ≠ [] → s.closed = false
  unlinked : .close ∈ s.frames → s.timer.luaRef = false

theorem sound_newUserTimer : newUserTimer.Sound where
  counted := ⟨⟨rfl, iff_of_false (by rintro ⟨⟩) (by rintro ⟨⟩)⟩, rfl⟩
  linked := rfl
  data := rfl
  closing := by rintro ⟨⟩
  closed := by rintro ⟨⟩
  running := fun _ => rfl
  unlinked := by rintro ⟨⟩

section Steps

variable {s : TimerMemory}

/-- The timer is not freed while there is a reference. -/
theorem Sound.alive (h : s.Sound) (href : s.userdata = true ∨ s.closed = false) :
    s.cell.freed = false := by
  refine h.counted.1.alive ?_
  rw [outstanding]
  obtain href | href := href
  · rw [if_pos href]
    omega
  · rw [href]
    simp

theorem Sound.touch (h : s.Sound) (href : s.userdata = true ∨ s.closed = false) :
    s.touch = s := by
  rw [TimerMemory.touch, h.alive href, Bool.or_false]

/-- A call that leaves the references alone. -/
theorem Sound.follow {α : Type} (h : s.Sound) {call : Call α} (hopen : s.closed = false)
    (hlinked : call.timer.luaRef = s.timer.luaRef)
    (hclosing : call.timer.handle.closing = true →
      call.timer.luaRef = false ∧ call.timer.handle.active = false)
    (hresume : call.resume.map Resume.rest ≠ some .close) : (s.follow call).Sound where
  counted := h.counted
  linked := h.linked.trans hlinked.symm
  data := h.data
  closing := hclosing
  closed := fun hclosed => by cases hopen.symm.trans hclosed
  running := fun _ => hopen
  unlinked := fun hclose => by
    obtain hclose | hclose := List.mem_append.mp hclose
    · exact absurd (Option.mem_toList.mp hclose) hresume
    · exact hlinked.trans (h.unlinked hclose)

/-- A timer that Lua still refers to is not closing. -/
theorem Sound.open (h : s.Sound) (hlinked : s.userdata = true) :
    s.timer.luaRef = true ∧ s.timer.handle.closing = false ∧ s.closed = false := by
  have hopen : s.timer.luaRef = true := h.linked.symm.trans hlinked
  have hclosing : s.timer.handle.closing = false := by
    refine Bool.eq_false_iff.mpr fun hclosing => ?_
    cases hopen.symm.trans (h.closing hclosing).1
  refine ⟨hopen, hclosing, Bool.eq_false_iff.mpr fun hclosed => ?_⟩
  cases hclosing.symm.trans (h.closed hclosed)

theorem closeIfActive_inactive {handle : Tcp.UvHandle}
    (h : handle.closing = true → handle.active = false) :
    (Tcp.closeIfActive handle).active = false := by
  rw [Tcp.closeIfActive]
  split
  · next hclosing => exact h hclosing
  · rfl

theorem closeTimer_unlinks {timer : UserTimer} (hopen : timer.luaRef = true)
    (hclosing : timer.handle.closing = true → timer.handle.active = false) :
    (Timer.closeTimer timer).timer.luaRef = false ∧
      ((Timer.closeTimer timer).timer.handle.closing = true →
        (Timer.closeTimer timer).timer.handle.active = false) := by
  rw [Timer.closeTimer, if_pos hopen]
  split
  · exact ⟨rfl, fun _ => closeIfActive_inactive hclosing⟩
  · exact ⟨rfl, hclosing⟩

/-- Closing drops the userdata's reference, and the handle's is still there. -/
theorem Sound.closeTimer (h : s.Sound) (hlinked : s.userdata = true) : s.closeTimer.Sound := by
  obtain ⟨hopen, -, hclosed⟩ := h.open hlinked
  obtain ⟨hunlinked, hinactive⟩ := closeTimer_unlinks hopen fun hclosing => (h.closing hclosing).2
  rw [TimerMemory.closeTimer, h.touch (.inl hlinked), if_pos hopen]
  refine ⟨⟨?_, h.counted.2⟩, hunlinked.symm, h.data,
    fun hclosing => ⟨hunlinked, hinactive hclosing⟩,
    fun hclosed' => (by cases hclosed.symm.trans hclosed'), fun _ => hclosed,
    fun _ => hunlinked⟩
  have hholds := h.counted.1
  rw [outstanding, hlinked, hclosed] at hholds
  show s.cell.decr.Holds ((if false then 1 else 0) + if s.closed then 0 else 1)
  rw [hclosed]
  exact hholds.decr Nat.one_pos

/-- A method keeps what its body keeps. -/
theorem Sound.method (h : s.Sound) {body : TimerMemory → TimerMemory}
    (hbody : s.userdata = true → (body s).Sound) : (s.method body).Sound := by
  rw [TimerMemory.method]
  split
  · next hlinked =>
    rw [h.touch (.inl hlinked)]
    exact hbody hlinked
  · exact h

theorem Sound.startUserTimer (h : s.Sound) (hlinked : s.userdata = true) (timeout : Int)
    (rc : Option UvError) : (s.startUserTimer timeout rc).Sound := by
  rw [TimerMemory.startUserTimer.eq_def]
  split
  · exact h
  · next hstarts =>
    obtain ⟨hinit, hpos⟩ := not_or.mp hstarts
    obtain ⟨hopen, hclosing, hclosed⟩ := h.open hlinked
    cases rc with
    | some e => exact h.closeTimer hlinked
    | none =>
      have hcall : (Timer.startUserTimer s.timer timeout none).timer = { s.timer with
          state := .ticking
          handle := { s.timer.handle with active := true } } := by
        rw [Timer.startUserTimer, if_pos hopen, if_neg hinit, if_neg hpos]
      refine h.follow hclosed (by rw [hcall]) (fun hclosing' => ?_) ?_
      · rw [hcall] at hclosing'
        cases hclosing.symm.trans hclosing'
      · rw [Timer.startUserTimer, if_pos hopen, if_neg hinit, if_neg hpos]
        rintro ⟨⟩

/-- What `wait` and `stop` do to the timer leaves the handle's closing and the link alone. -/
theorem waitUserTimer_keeps (timer : UserTimer) (tid : Int) :
    (waitUserTimer timer tid).1.luaRef = timer.luaRef ∧
      (waitUserTimer timer tid).1.handle = timer.handle := by
  fun_cases waitUserTimer timer tid <;> exact ⟨rfl, rfl⟩

theorem Sound.wait (h : s.Sound) (tid : Int) :
    ({ s with timer := (waitUserTimer s.timer tid).1 } : TimerMemory).Sound := by
  obtain ⟨hlinked, hhandle⟩ := waitUserTimer_keeps s.timer tid
  refine ⟨h.counted, h.linked.trans hlinked.symm, h.data, fun hclosing => ?_, fun hclosed => ?_,
    h.running, fun hclose => hlinked.trans (h.unlinked hclose)⟩
  · show (waitUserTimer s.timer tid).1.luaRef = false ∧
      (waitUserTimer s.timer tid).1.handle.active = false
    rw [hlinked, hhandle]
    exact h.closing (hhandle ▸ hclosing)
  · show (waitUserTimer s.timer tid).1.handle.closing = true
    rw [hhandle]
    exact h.closed hclosed

theorem Sound.stop (h : s.Sound) (hlinked : s.userdata = true) :
    (s.follow (stopUserTimer s.timer)).Sound := by
  obtain ⟨hopen, hclosing, hclosed⟩ := h.open hlinked
  have hkeeps : (stopUserTimer s.timer).timer.luaRef = s.timer.luaRef ∧
      (stopUserTimer s.timer).timer.handle.closing = s.timer.handle.closing ∧
      (stopUserTimer s.timer).resume.map Resume.rest ≠ some .close := by
    fun_cases stopUserTimer s.timer <;> exact ⟨rfl, rfl, by rintro ⟨⟩⟩
  obtain ⟨hluaRef, hhandle, hresume⟩ := hkeeps
  refine h.follow hclosed hluaRef (fun hclosing' => ?_) hresume
  cases hclosing.symm.trans (hhandle.symm.trans hclosing')

/-- A timer that fires is not closing. -/
theorem Sound.timeout (h : s.Sound) (hactive : s.timer.handle.active = true) :
    (s.touch.follow (onUserTimerTimeout (uvTimerStop s.timer))).Sound := by
  have hclosing : s.timer.handle.closing = false := by
    refine Bool.eq_false_iff.mpr fun hclosing => ?_
    cases hactive.symm.trans (h.closing hclosing).2
  have hclosed : s.closed = false := by
    refine Bool.eq_false_iff.mpr fun hclosed => ?_
    cases hclosing.symm.trans (h.closed hclosed)
  have hkeeps : (onUserTimerTimeout (uvTimerStop s.timer)).timer.luaRef = s.timer.luaRef ∧
      (onUserTimerTimeout (uvTimerStop s.timer)).timer.handle.closing = s.timer.handle.closing ∧
      (onUserTimerTimeout (uvTimerStop s.timer)).resume.map Resume.rest ≠ some .close := by
    fun_cases onUserTimerTimeout (uvTimerStop s.timer) <;> exact ⟨rfl, rfl, by rintro ⟨⟩⟩
  obtain ⟨hluaRef, hhandle, hresume⟩ := hkeeps
  rw [h.touch (.inr hclosed)]
  refine h.follow hclosed hluaRef (fun hclosing' => ?_) hresume
  cases hclosing.symm.trans (hhandle.symm.trans hclosing')

/-- The rest of a function finds the handle's reference still there. -/
theorem Sound.finish {rest : Frame} {frames : List Frame} (h : s.Sound)
    (hframes : s.frames = rest :: frames) : ({ s with frames }.finish rest).Sound := by
  have hclosed : s.closed = false := h.running (by rw [hframes]; exact List.cons_ne_nil _ _)
  have hsound : ({ s with frames } : TimerMemory).Sound :=
    ⟨h.counted, h.linked, h.data, h.closing, h.closed, fun _ => hclosed,
      fun hclose => h.unlinked (by rw [hframes]; exact List.mem_cons_of_mem _ hclose)⟩
  cases rest with
  | timeout => exact hsound
  | close =>
    have hunlinked : s.timer.luaRef = false :=
      h.unlinked (by rw [hframes]; exact List.mem_cons_self)
    rw [TimerMemory.finish, hsound.touch (.inr hclosed)]
    · exact ⟨hsound.counted, hsound.linked, hsound.data,
        fun _ => ⟨hunlinked, closeIfActive_inactive fun hclosing => (h.closing hclosing).2⟩,
        fun hclosed' => (by cases hclosed.symm.trans hclosed'), hsound.running,
        hsound.unlinked⟩
    · rintro ⟨⟩
  | stop =>
    rw [TimerMemory.finish, hsound.touch (.inr hclosed)]
    · exact ⟨hsound.counted, hsound.linked, hsound.data,
        fun hclosing => ⟨(h.closing hclosing).1, rfl⟩, h.closed, hsound.running,
        hsound.unlinked⟩
    · rintro ⟨⟩

/-- The callback of `uv_close` drops the handle's reference. -/
theorem Sound.freeUserTimer (h : s.Sound) (hframes : s.frames = [])
    (hclosing : s.timer.handle.closing = true) (hclosed : s.closed = false) :
    s.freeUserTimer.Sound := by
  have hdata : s.data = true := by rw [h.data, hclosed]; rfl
  have hholds := h.counted.1
  rw [outstanding, hclosed] at hholds
  rw [TimerMemory.freeUserTimer, h.touch (.inr hclosed), if_pos hdata]
  exact ⟨⟨hholds.release, h.counted.2⟩, h.linked, rfl, h.closing, fun _ => hclosing,
    fun hne => absurd hframes hne, h.unlinked⟩

theorem Sound.step (h : s.Sound) {e : MemoryEvent} {s' : TimerMemory}
    (hs' : s.step e = some s') : s'.Sound := by
  cases e with
  | event e =>
    cases e with
    | start timeout rc =>
      cases hs'
      exact h.method fun hlinked => h.startUserTimer hlinked timeout rc
    | wait tid =>
      cases hs'
      exact h.method fun _ => h.wait tid
    | stop =>
      cases hs'
      exact h.method fun hlinked => h.stop hlinked
    | delete | gc =>
      cases hs'
      exact h.method fun hlinked => h.closeTimer hlinked
    | timeout =>
      obtain ⟨hfires, heq⟩ := Option.ite_none_right_eq_some.mp hs'
      cases heq
      exact h.timeout hfires.2
    | yields =>
      rw [TimerMemory.step] at hs'
      split at hs'
      · cases hs'
      · next rest frames hframes =>
        cases hs'
        exact h.finish hframes
  | closed =>
    obtain ⟨hcalls, heq⟩ := Option.ite_none_right_eq_some.mp hs'
    cases heq
    exact h.freeUserTimer hcalls.1 hcalls.2.1 hcalls.2.2

end Steps

/-- The memory of a timer goes along with a run of it. -/
def Follows (s : TimerMemory) (r : TimerRun) : Prop :=
  r.timer = s.timer ∧ r.frames = s.frames

section Runs

variable {s s' : TimerMemory} {r r' : TimerRun}

theorem Follows.follow {α : Type} (h : s.Follows r) (call : Call α)
    (hframes : r'.frames = r.frames) :
    (s.follow call).Follows (r'.follow call.timer call.resume) := by
  rw [Follows, TimerMemory.follow, ← h.2, ← hframes]
  cases call.resume with
  | none => exact ⟨rfl, rfl⟩
  | some resume => exact ⟨rfl, rfl⟩

/-- A method that finds the timer closed does nothing. -/
theorem Follows.method {α : Type} (hsound : s.Sound) (h : s.Follows r) (call : Call α)
    {body : TimerMemory → TimerMemory} (hframes : r'.frames = r.frames)
    (hopen : s.userdata = true → (body s).timer = (s.follow call).timer ∧
      (body s).frames = (s.follow call).frames)
    (hclosed : s.timer.luaRef = false → call.timer = s.timer ∧ call.resume = none) :
    (s.method body).Follows (r'.follow call.timer call.resume) := by
  rw [TimerMemory.method]
  split
  · next hlinked =>
    obtain ⟨htimer, hfollows⟩ := h.follow call hframes
    rw [hsound.touch (.inl hlinked)]
    exact ⟨htimer.trans (hopen hlinked).1.symm, hfollows.trans (hopen hlinked).2.symm⟩
  · next hunlinked =>
    have hluaRef : s.timer.luaRef = false :=
      hsound.linked.symm.trans (Bool.eq_false_iff.mpr hunlinked)
    obtain ⟨htimer, hresume⟩ := hclosed hluaRef
    rw [htimer, hresume]
    exact ⟨rfl, hframes.trans h.2⟩

theorem Follows.delete (hsound : s.Sound) (h : s.Follows r) :
    (s.method TimerMemory.closeTimer).Follows r.delete := by
  rw [TimerRun.delete, h.1]
  refine h.method hsound (Timer.closeTimer s.timer) rfl (fun hlinked => ?_) fun hluaRef => ?_
  · have hopen := (hsound.open hlinked).1
    rw [TimerMemory.closeTimer, hsound.touch (.inl hlinked), if_pos hopen]
    exact ⟨rfl, rfl⟩
  · rw [Timer.closeTimer, if_neg (by rw [hluaRef]; exact Bool.false_ne_true)]
    exact ⟨rfl, rfl⟩

theorem Follows.start (hsound : s.Sound) (h : s.Follows r) (timeout : Int) (rc : Option UvError) :
    (s.method (·.startUserTimer timeout rc)).Follows (r.start timeout rc) := by
  rw [TimerRun.start, h.1]
  refine h.method hsound (Timer.startUserTimer s.timer timeout rc) rfl (fun hlinked => ?_)
    fun hluaRef => ?_
  · have hopen := (hsound.open hlinked).1
    rw [TimerMemory.startUserTimer.eq_def]
    by_cases hfails : s.timer.state ≠ .init ∨ timeout ≤ 0
    · have hcall : ∃ result, Timer.startUserTimer s.timer timeout rc =
          ⟨s.timer, none, result⟩ := by
        rw [Timer.startUserTimer.eq_def, if_pos hopen]
        by_cases hinit : s.timer.state ≠ .init
        · rw [if_pos hinit]
          exact ⟨_, rfl⟩
        · rw [if_neg hinit, if_pos (hfails.resolve_left hinit)]
          exact ⟨_, rfl⟩
      obtain ⟨result, hcall⟩ := hcall
      rw [if_pos hfails, hcall]
      exact ⟨rfl, rfl⟩
    · obtain ⟨hinit, hpos⟩ := not_or.mp hfails
      rw [if_neg hfails]
      cases rc with
      | none => exact ⟨rfl, rfl⟩
      | some e =>
        have hcall : ∃ result, Timer.startUserTimer s.timer timeout (some e) =
            ⟨(Timer.closeTimer s.timer).timer, (Timer.closeTimer s.timer).resume, result⟩ := by
          rw [Timer.startUserTimer, if_pos hopen, if_neg hinit, if_neg hpos]
          exact ⟨_, rfl⟩
        obtain ⟨result, hcall⟩ := hcall
        dsimp only
        rw [TimerMemory.closeTimer, hsound.touch (.inl hlinked), if_pos hopen, hcall]
        exact ⟨rfl, rfl⟩
  · rw [Timer.startUserTimer.eq_def, if_neg (by rw [hluaRef]; exact Bool.false_ne_true)]
    exact ⟨rfl, rfl⟩

theorem Follows.stop (hsound : s.Sound) (h : s.Follows r) :
    (s.method fun s => s.follow (stopUserTimer s.timer)).Follows r.stop := by
  rw [TimerRun.stop, h.1]
  refine h.method hsound (stopUserTimer s.timer) rfl (fun _ => ⟨rfl, rfl⟩) fun hluaRef => ?_
  rw [stopUserTimer, if_neg (by rw [hluaRef]; exact Bool.false_ne_true)]
  exact ⟨rfl, rfl⟩

theorem Follows.wait (hsound : s.Sound) (h : s.Follows r) (tid : Int) :
    (s.method fun s => { s with timer := (waitUserTimer s.timer tid).1 }).Follows
      (r.wait tid) := by
  rw [TimerMemory.method]
  split
  · next hlinked =>
    rw [hsound.touch (.inl hlinked), TimerRun.wait, h.1]
    exact ⟨rfl, h.2⟩
  · next hunlinked =>
    have hluaRef : ¬s.timer.luaRef = true := fun hluaRef =>
      hunlinked (hsound.linked.trans hluaRef)
    have hclosed : (waitUserTimer s.timer tid).1 = s.timer := by
      rw [waitUserTimer, if_neg hluaRef]
    rw [TimerRun.wait, h.1]
    exact ⟨hclosed, h.2⟩

/-- Each event but the callback of `uv_close` is a step of the timer's run. -/
theorem step_run (hsound : s.Sound) (h : s.Follows r) {e : TimerEvent}
    (hs' : s.step (.event e) = some s') : ∃ r', r.step e = some r' ∧ s'.Follows r' := by
  cases e with
  | start timeout rc =>
    cases hs'
    exact ⟨_, rfl, h.start hsound timeout rc⟩
  | wait tid =>
    cases hs'
    exact ⟨_, rfl, h.wait hsound tid⟩
  | stop =>
    cases hs'
    exact ⟨_, rfl, h.stop hsound⟩
  | delete | gc =>
    cases hs'
    exact ⟨_, rfl, h.delete hsound⟩
  | timeout =>
    obtain ⟨hfires, heq⟩ := Option.ite_none_right_eq_some.mp hs'
    cases heq
    refine ⟨r.timeout, ?_, ?_⟩
    · rw [TimerRun.step, h.1, h.2, if_pos hfires]
    · rw [TimerRun.timeout, h.1]
      exact h.follow _ rfl
  | yields =>
    rw [TimerMemory.step] at hs'
    split at hs'
    · cases hs'
    · next rest frames hframes =>
      cases hs'
      refine ⟨r.yields rest frames, ?_, ?_⟩
      · rw [TimerRun.step, h.2, hframes]
      · rw [TimerRun.yields, h.1]
        cases rest <;> exact ⟨rfl, rfl⟩

end Runs

/-- The events of a run that concern the timer itself. -/
def timerEvents : List MemoryEvent → List TimerEvent
  | [] => []
  | .event e :: es => e :: timerEvents es
  | .closed :: es => timerEvents es

/-- The timer in memory goes through a run of the timer. -/
theorem exec_run {es : List MemoryEvent} {s t : TimerMemory} {r : TimerRun} (hsound : s.Sound)
    (h : s.Follows r) (he : exec TimerMemory.step s es = some t) :
    ∃ u, exec TimerRun.step r (timerEvents es) = some u ∧ t.Follows u := by
  induction es generalizing s r with
  | nil =>
    cases he
    exact ⟨r, rfl, h⟩
  | cons e es ih =>
    obtain ⟨s', hs', hrest⟩ := Option.bind_eq_some_iff.mp he
    cases e with
    | event e =>
      obtain ⟨r', hr', h'⟩ := step_run hsound h hs'
      obtain ⟨u, hu, hfollows⟩ := ih (hsound.step hs') h' hrest
      refine ⟨u, ?_, hfollows⟩
      rw [timerEvents, exec, hr']
      exact hu
    | closed =>
      have hsame : s'.Follows r := by
        rw [TimerMemory.step] at hs'
        split at hs'
        · cases hs'
          rw [TimerMemory.freeUserTimer]
          split <;> exact h
        · cases hs'
      exact ih (hsound.step hs') hsame hrest

end TimerMemory

/-- The references to a user timer are counted right in every run. -/
theorem timer_references_counted (es : List MemoryEvent) :
    Always TimerMemory.step TimerMemory.Counted TimerMemory.newUserTimer es :=
  (always_of_invariant TimerMemory.sound_newUserTimer fun _ _ _ h hs' => h.step hs').mono
    fun _ h => h.counted

end Luaw.Timer
