import Luaw.Tcp.Waiting

/-!
# Timeouts

The timers of an open connection run while a thread waits. `on_read` stops the read timer before it
looks at what was read, so that a callback without data leaves a reader that waits without a
timeout. At most one thread reads and one writes.
-/

namespace Luaw.Tcp

open Transition

/-- The timers of an open connection run exactly while a thread waits. -/
def TimersArmed (s : WaitState) : Prop :=
  s.socket.conn.luaRef = true →
    (s.socket.conn.readTimer.active = true ↔ ∃ tid, s.threads.blocked tid = some .read) ∧
    (s.socket.conn.writeTimer.active = true ↔
      ∃ tid, s.threads.blocked tid = some .connect ∨ s.threads.blocked tid = some .write)

/-- No thread reads while another one does, none writes while another one connects or writes, and
the timeouts are positive. -/
def OneEach (s : WaitState) : WaitEvent → Prop
  | .conn (.read _ readTimeout) =>
    0 < readTimeout ∧ ∀ tid, s.threads.blocked tid ≠ some .read
  | .conn (.write _ _ writeTimeout _) =>
    0 < writeTimeout ∧
      ∀ tid, s.threads.blocked tid ≠ some .connect ∧ s.threads.blocked tid ≠ some .write
  | _ => True

/-- `on_read` brings no data only when no thread waits for some, and data only to a reader that is
recorded, if there is one. -/
def ReadsForReader (s : WaitState) : WaitEvent → Prop
  | .conn (.onRead nread) =>
    nread = .bytes 0 ∨ nread = .error .ENOBUFS → ∀ tid, s.threads.blocked tid ≠ some .read
  | .conn (.data _) =>
    s.socket.conn.luaReaderTid = 0 → ∀ tid, s.threads.blocked tid ≠ some .read
  | _ => True

/-- An open connection, and the threads that wait on it. -/
structure TimersRunning (socket : Socket) (blocked : Nat → Option Op) : Prop where
  read : socket.conn.readTimer.active = true ↔ ∃ tid, blocked tid = some .read
  write : socket.conn.writeTimer.active = true ↔
    ∃ tid, blocked tid = some .connect ∨ blocked tid = some .write
  reader : socket.conn.luaReaderTid ≠ 0 → blocked socket.conn.luaReaderTid = some .read
  oneReader : ∀ tid other, blocked tid = some .read → blocked other = some .read → tid = other
  connecting : ∀ tid, blocked tid = some .connect →
    socket.conn.luaWriterTid = tid ∧ socket.conn.writePending = false
  writing : ∀ tid, blocked tid = some .write →
    socket.conn.luaWriterTid = tid ∧ socket.connectReq = false
  connectReq : socket.connectReq = true → ∃ tid, blocked tid = some .connect
  pending : socket.conn.writePending = true → ∃ tid, blocked tid = some .write

structure TimersInvariant (s : WaitState) : Prop where
  wf : s.socket.conn.Wf
  closed : s.threads.resumes ≠ [] → s.socket.conn.Closed
  zero : s.threads.blocked 0 = none
  running : s.socket.conn.luaRef = true → TimersRunning s.socket s.threads.blocked

theorem TimersInvariant.armed {s : WaitState} (h : TimersInvariant s) : TimersArmed s :=
  fun hopen => ⟨(h.running hopen).read, (h.running hopen).write⟩

theorem startTimer_active (timer : UvHandle) {timeout : Int} (h : 0 < timeout) :
    (startTimer timer timeout).active = true := by
  rw [startTimer]
  split
  · rfl
  · next hnot =>
    by_contra hinactive
    exact hnot ⟨h, Bool.eq_false_iff.mpr hinactive⟩

theorem stopTimer_active (timer : UvHandle) : (stopTimer timer).active = false := by
  rw [stopTimer]
  split
  · rfl
  · next hinactive => exact Bool.eq_false_iff.mpr hinactive

theorem stopTimer_iff (timer : UvHandle) {P : Prop} (h : ¬P) :
    (stopTimer timer).active = true ↔ P := by
  rw [stopTimer_active]
  exact iff_of_false Bool.false_ne_true h

section Blocked

variable {blocked : Nat → Option Op} {op : Op}

theorem update_none_iff {resumed : Nat} (h : blocked resumed ≠ some op) (tid : Nat) :
    Function.update blocked resumed none tid = some op ↔ blocked tid = some op := by
  by_cases htid : tid = resumed
  · rw [htid, Function.update_self]
    exact iff_of_false (Option.some_ne_none op).symm h
  · rw [Function.update_of_ne htid]

theorem update_some_iff {caller : Nat} {op' : Op} (h : blocked caller = none) (hop : op' ≠ op)
    (tid : Nat) :
    Function.update blocked caller (some op') tid = some op ↔ blocked tid = some op := by
  by_cases htid : tid = caller
  · rw [htid, Function.update_self, h]
    exact iff_of_false (fun heq => hop (Option.some.inj heq)) (Option.some_ne_none op).symm
  · rw [Function.update_of_ne htid]

/-- One thread is resumed, or none if the id is zero. -/
theorem Threads.issue_one {threads : Threads} {resumed : Nat} {woken : List Wakeup}
    (hzero : threads.blocked 0 = none)
    (hwoken : woken.map Wakeup.tid = [resumed].filter (· ≠ 0)) :
    (threads.issue woken).blocked = Function.update threads.blocked resumed none := by
  funext tid
  rw [issue_blocked, hwoken]
  by_cases hresumed : resumed = 0
  · subst hresumed
    rw [← hzero, Function.update_eq_self]
    exact if_neg nofun
  · rw [List.filter_cons_of_pos (by simpa using hresumed), List.head?_cons]
    by_cases htid : tid = resumed
    · rw [if_pos (congrArg some htid), htid, Function.update_self]
    · rw [if_neg (fun heq => htid (Option.some.inj heq)), Function.update_of_ne htid]

end Blocked

namespace TimersRunning

variable {socket : Socket} {blocked : Nat → Option Op} {tid : Nat}

/-- The reader is resumed with what was received. -/
theorem receives (h : TimersRunning socket blocked) (hzero : blocked 0 = none)
    (hrecorded : socket.conn.luaReaderTid = 0 → ∀ tid, blocked tid ≠ some .read) (buffer : Bytes) :
    TimersRunning { socket with
        conn := { socket.conn with
          readTimer := stopTimer socket.conn.readTimer
          readBuffer := buffer
          luaReaderTid := 0
          readLen := 0 } }
      (Function.update blocked socket.conn.luaReaderTid none) := by
  -- only the reader is resumed, so whoever waits for something else goes on waiting
  have hiff : ∀ op, op ≠ .read → ∀ tid,
      Function.update blocked socket.conn.luaReaderTid none tid = some op ↔ blocked tid = some op := by
    intro op hop
    refine update_none_iff fun hblocked => ?_
    by_cases hreader : socket.conn.luaReaderTid = 0
    · rw [hreader, hzero] at hblocked
      cases hblocked
    · rw [h.reader hreader] at hblocked
      exact hop (Option.some.inj hblocked).symm
  have hnone : ∀ tid, Function.update blocked socket.conn.luaReaderTid none tid ≠ some .read := by
    intro tid
    by_cases htid : tid = socket.conn.luaReaderTid
    · rw [htid, Function.update_self]
      exact nofun
    · rw [Function.update_of_ne htid]
      intro hblocked
      by_cases hreader : socket.conn.luaReaderTid = 0
      · exact hrecorded hreader tid hblocked
      · exact htid (h.oneReader _ _ hblocked (h.reader hreader))
  refine ⟨stopTimer_iff _ fun ⟨tid, htid⟩ => hnone tid htid, ?_, fun hne => absurd rfl hne,
    fun tid _ htid => absurd htid (hnone tid), ?_, ?_, ?_, ?_⟩
  · simp only [hiff .connect nofun, hiff .write nofun]
    exact h.write
  · simp only [hiff .connect nofun]
    exact h.connecting
  · simp only [hiff .write nofun]
    exact h.writing
  · simp only [hiff .connect nofun]
    exact h.connectReq
  · simp only [hiff .write nofun]
    exact h.pending

/-- Whoever wrote or connected was recorded, and has been resumed. -/
theorem writer_resumed (h : TimersRunning socket blocked) (tid : Nat) :
    Function.update blocked socket.conn.luaWriterTid none tid ≠ some .connect ∧
      Function.update blocked socket.conn.luaWriterTid none tid ≠ some .write := by
  by_cases htid : tid = socket.conn.luaWriterTid
  · rw [htid, Function.update_self]
    exact ⟨nofun, nofun⟩
  · rw [Function.update_of_ne htid]
    refine ⟨fun hconnect => htid ?_, fun hwrite => htid ?_⟩
    · exact (h.connecting tid hconnect).1.symm
    · exact (h.writing tid hwrite).1.symm

/-- The reader goes on waiting when the writer is resumed. -/
theorem reader_waits (h : TimersRunning socket blocked) {op : Op}
    (hwriter : blocked socket.conn.luaWriterTid = some op) (hop : op ≠ .read) :
    (socket.conn.readTimer.active = true ↔
      ∃ tid, Function.update blocked socket.conn.luaWriterTid none tid = some .read) ∧
    (socket.conn.luaReaderTid ≠ 0 → Function.update blocked socket.conn.luaWriterTid none
      socket.conn.luaReaderTid = some .read) ∧
    (∀ tid other, Function.update blocked socket.conn.luaWriterTid none tid = some .read →
      Function.update blocked socket.conn.luaWriterTid none other = some .read → tid = other) := by
  have hne : blocked socket.conn.luaWriterTid ≠ some .read := by
    rw [hwriter]
    exact fun heq => hop (Option.some.inj heq)
  simp only [update_none_iff hne]
  exact ⟨h.read, h.reader, h.oneReader⟩

theorem written (h : TimersRunning socket blocked) (hpending : socket.conn.writePending = true) :
    TimersRunning { socket with
        conn := { socket.conn with
          writePending := false
          refCount := socket.conn.refCount - 1
          writeTimer := stopTimer socket.conn.writeTimer
          luaWriterTid := 0 } }
      (Function.update blocked socket.conn.luaWriterTid none) := by
  obtain ⟨writer, hwriter⟩ := h.pending hpending
  have hrecorded := (h.writing writer hwriter).1
  have hblocked : blocked socket.conn.luaWriterTid = some .write := hrecorded ▸ hwriter
  obtain ⟨hread, hreader, hone⟩ := h.reader_waits hblocked nofun
  have hnone := h.writer_resumed
  refine ⟨hread, stopTimer_iff _ ?_, hreader, hone, fun tid htid => absurd htid (hnone tid).1,
    fun tid htid => absurd htid (hnone tid).2, fun hreq => ?_, nofun⟩
  · rintro ⟨tid, htid | htid⟩
    · exact (hnone tid).1 htid
    · exact (hnone tid).2 htid
  · have hreq' : socket.connectReq = true := hreq
    rw [(h.writing writer hwriter).2] at hreq'
    cases hreq'

theorem connected (h : TimersRunning socket blocked) (hreq : socket.connectReq = true) :
    TimersRunning ⟨{ socket.conn with writeTimer := stopTimer socket.conn.writeTimer }, false⟩
      (Function.update blocked socket.conn.luaWriterTid none) := by
  obtain ⟨writer, hwriter⟩ := h.connectReq hreq
  have hrecorded := (h.connecting writer hwriter).1
  have hblocked : blocked socket.conn.luaWriterTid = some .connect := hrecorded ▸ hwriter
  obtain ⟨hread, hreader, hone⟩ := h.reader_waits hblocked nofun
  have hnone := h.writer_resumed
  refine ⟨hread, stopTimer_iff _ ?_, hreader, hone, fun tid htid => absurd htid (hnone tid).1,
    fun tid htid => absurd htid (hnone tid).2, nofun, fun hpending => ?_⟩
  · rintro ⟨tid, htid | htid⟩
    · exact (hnone tid).1 htid
    · exact (hnone tid).2 htid
  · have hpending' : socket.conn.writePending = true := hpending
    rw [(h.connecting writer hwriter).2] at hpending'
    cases hpending'

theorem readWaits (h : TimersRunning socket blocked) (hcaller : blocked tid = none)
    {readTimeout : Int} (htimeout : 0 < readTimeout) (hnone : ∀ tid, blocked tid ≠ some .read) :
    TimersRunning { socket with
        conn := { socket.conn with
          luaReaderTid := tid
          readTimer := startTimer socket.conn.readTimer readTimeout } }
      (Function.update blocked tid (some .read)) := by
  have hself : Function.update blocked tid (some .read) tid = some .read := Function.update_self ..
  have honly : ∀ other, Function.update blocked tid (some .read) other = some .read →
      other = tid := by
    intro other hother
    by_contra hne
    rw [Function.update_of_ne hne] at hother
    exact hnone other hother
  have hiff : ∀ op, Op.read ≠ op → ∀ other,
      Function.update blocked tid (some .read) other = some op ↔ blocked other = some op :=
    fun op hop => update_some_iff hcaller hop
  refine ⟨iff_of_true (startTimer_active _ htimeout) ⟨tid, hself⟩, ?_, fun _ => hself,
    fun a b ha hb => (honly a ha).trans (honly b hb).symm, ?_, ?_, ?_, ?_⟩
  · simp only [hiff .connect nofun, hiff .write nofun]
    exact h.write
  · simp only [hiff .connect nofun]
    exact h.connecting
  · simp only [hiff .write nofun]
    exact h.writing
  · simp only [hiff .connect nofun]
    exact h.connectReq
  · simp only [hiff .write nofun]
    exact h.pending

theorem writeWaits (h : TimersRunning socket blocked) (hcaller : blocked tid = none)
    {writeTimeout : Int} (htimeout : 0 < writeTimeout)
    (hnone : ∀ tid, blocked tid ≠ some .connect ∧ blocked tid ≠ some .write) :
    TimersRunning { socket with
        conn := { socket.conn with
          writePending := true
          refCount := socket.conn.refCount + 1
          luaWriterTid := tid
          writeTimer := startTimer socket.conn.writeTimer writeTimeout } }
      (Function.update blocked tid (some .write)) := by
  have hself : Function.update blocked tid (some .write) tid = some .write :=
    Function.update_self ..
  have hiff : ∀ op, Op.write ≠ op → ∀ other,
      Function.update blocked tid (some .write) other = some op ↔ blocked other = some op :=
    fun op hop => update_some_iff hcaller hop
  have hnoConnect : ¬∃ other, blocked other = some .connect :=
    fun ⟨other, hother⟩ => (hnone other).1 hother
  refine ⟨?_, iff_of_true (startTimer_active _ htimeout) ⟨tid, .inr hself⟩, ?_, ?_, ?_, ?_, ?_,
    fun _ => ⟨tid, hself⟩⟩
  · simp only [hiff .read nofun]
    exact h.read
  · simp only [hiff .read nofun]
    exact h.reader
  · simp only [hiff .read nofun]
    exact h.oneReader
  · simp only [hiff .connect nofun]
    exact fun other hother => absurd hother (hnone other).1
  · intro other hother
    have hother' : other = tid := by
      by_contra hne
      rw [Function.update_of_ne hne] at hother
      exact (hnone other).2 hother
    refine ⟨hother'.symm, ?_⟩
    exact Bool.eq_false_iff.mpr fun hreq => hnoConnect (h.connectReq hreq)
  · exact fun hreq => absurd (h.connectReq hreq) hnoConnect

theorem step (h : TimersRunning socket blocked) {threads : Threads} {e : ConnEvent}
    {socket' : Socket} {woken : List Wakeup} {suspended : Option (Nat × Op)}
    (hblocked : threads.blocked = blocked) (hadmits : threads.Admits e) (hzero : blocked 0 = none)
    (hd : OneEach ⟨socket, threads⟩ (.conn e)) (hc : ReadsForReader ⟨socket, threads⟩ (.conn e))
    (heffect : Effect socket e socket' woken suspended) (hopen : socket'.conn.luaRef = true) :
    TimersRunning socket' ((threads.issue woken).suspend suspended).blocked := by
  subst hblocked
  cases heffect with
  | stays =>
    exact ⟨h.read, h.write, h.reader, h.oneReader, h.connecting, h.writing, h.connectReq, h.pending⟩
  | restarts =>
    exact ⟨h.read, h.write, fun hne => absurd rfl hne, h.oneReader, h.connecting, h.writing,
      h.connectReq, h.pending⟩
  | closes hclosed =>
    rw [hclosed.luaRef] at hopen
    cases hopen
  | readsNothing nread hnread =>
    exact ⟨stopTimer_iff _ fun ⟨tid, htid⟩ => hc hnread tid htid, h.write, h.reader, h.oneReader,
      h.connecting, h.writing, h.connectReq, h.pending⟩
  | receives bytes buffer hwoken =>
    rw [show ((threads.issue _).suspend none).blocked = _ from Threads.issue_one hzero hwoken]
    exact h.receives hzero hc buffer
  | written hpending hwoken =>
    rw [show ((threads.issue _).suspend none).blocked = _ from Threads.issue_one hzero hwoken]
    exact h.written hpending
  | connected hreq hwoken =>
    rw [show ((threads.issue _).suspend none).blocked = _ from Threads.issue_one hzero hwoken]
    exact h.connected hreq
  | readWaits readTimeout htid _ _ => exact h.readWaits (hadmits.1 _ rfl) hd.1 hd.2
  | writeWaits buff writeTimeout htid _ => exact h.writeWaits (hadmits.1 _ rfl) hd.1 hd.2

end TimersRunning

section Steps

variable {s s' : WaitState}

theorem TimersInvariant.conn (h : TimersInvariant s) {e : ConnEvent} (hd : OneEach s (.conn e))
    (hc : ReadsForReader s (.conn e)) (hs' : s.step (.conn e) = some s') : TimersInvariant s' := by
  have hafter := WaitState.closed_of_resumes h.wf h.closed hs'
  obtain ⟨hadmits, socket, woken, suspended, hstep, rfl⟩ := WaitState.step_conn hs'
  have hwf := Socket.step_wf h.wf hstep
  obtain ⟨hopen, hhandle⟩ | hclosed := h.wf
  · have heffect := Socket.step_open hopen hhandle hstep
    exact ⟨hwf, hafter, heffect.blocked_zero h.zero, fun hopen' =>
      (h.running hopen).step rfl hadmits h.zero hd hc heffect hopen'⟩
  · obtain ⟨hclosed', -, rfl, rfl⟩ := Socket.step_closed hclosed hstep
    refine ⟨hwf, hafter, h.zero, fun hopen => ?_⟩
    have hopen' : socket.conn.luaRef = true := hopen
    rw [hclosed'.luaRef] at hopen'
    cases hopen'

theorem TimersInvariant.resume (h : TimersInvariant s) (hs' : s.step .resume = some s') :
    TimersInvariant s' := by
  obtain ⟨w, resumes, hresumes, rfl⟩ := WaitState.step_resume hs'
  have hclosed := h.closed (hresumes ▸ List.cons_ne_nil _ _)
  refine ⟨h.wf, fun _ => hclosed, ?_, fun hopen => ?_⟩
  · show (Threads.wake { s.threads with resumes } w).blocked 0 = none
    rw [Threads.wake_blocked]
    split
    · rfl
    · exact h.zero
  · have hopen' : s.socket.conn.luaRef = true := hopen
    rw [hclosed.luaRef] at hopen'
    cases hopen'

theorem timersInvariant_starts {connectTimeout : Int} (htimeout : 0 < connectTimeout)
    (h : Starts connectTimeout s) : TimersInvariant s := by
  cases h with
  | accept =>
    refine ⟨.inl ⟨rfl, rfl⟩, fun hne => absurd rfl hne, rfl, fun _ => ?_⟩
    exact ⟨iff_of_false nofun nofun, iff_of_false nofun nofun, fun hne => absurd rfl hne, nofun,
      nofun, nofun, nofun, nofun⟩
  | @connect _ tid _ _ _ _ hconnect =>
    obtain ⟨htid, hconn⟩ := clientConnect_cases hconnect
    have hzero : Function.update (fun _ => none) tid (some Op.connect) 0 = none :=
      Function.update_of_ne htid.symm ..
    obtain ⟨-, hclosed⟩ | ⟨rfl, rfl⟩ := hconn
    · refine ⟨.inr hclosed, fun hne => absurd rfl hne, hzero, fun hopen => ?_⟩
      have hopen' := hclosed.luaRef.symm.trans hopen
      cases hopen'
    · refine ⟨.inl ⟨rfl, rfl⟩, fun hne => absurd rfl hne, hzero, fun _ => ?_⟩
      have hself : Function.update (fun _ => none) tid (some Op.connect) tid = some .connect :=
        Function.update_self ..
      have honly : ∀ other op, Function.update (fun _ => none) tid (some Op.connect) other =
          some op → other = tid ∧ op = .connect := by
        intro other op hother
        by_cases hne : other = tid
        · rw [hne, Function.update_self] at hother
          exact ⟨hne, (Option.some.inj hother).symm⟩
        · rw [Function.update_of_ne hne] at hother
          cases hother
      refine ⟨iff_of_false nofun ?_, iff_of_true (startTimer_active _ htimeout) ⟨tid, .inl hself⟩,
        fun hne => absurd rfl hne, ?_, ?_, ?_, fun _ => ⟨tid, hself⟩, nofun⟩
      · rintro ⟨other, hother⟩
        cases (honly other _ hother).2
      · intro other _ hother
        cases (honly other _ hother).2
      · exact fun other hother => ⟨(honly other _ hother).1.symm, rfl⟩
      · intro other hother
        cases (honly other _ hother).2

/-- A reader that goes on waiting without a timeout. -/
theorem not_armed_onRead {nread : NRead} {tid : Nat}
    (hnread : nread = .bytes 0 ∨ nread = .error .ENOBUFS) (hwf : s.socket.conn.Wf)
    (hblocked : s.threads.blocked tid = some .read)
    (hs' : s.step (.conn (.onRead nread)) = some s') : ¬TimersArmed s' := by
  obtain ⟨-, socket, woken, suspended, hstep, rfl⟩ := WaitState.step_conn hs'
  rw [Socket.step] at hstep
  split at hstep
  · next hread =>
    have hopen : s.socket.conn.luaRef = true := by
      obtain ⟨hopen, -⟩ | hclosed := hwf
      · exact hopen
      · rw [hclosed.inactive] at hread
        cases hread.1
    have honRead : onRead s.socket.conn nread =
        ({ s.socket.conn with readTimer := stopTimer s.socket.conn.readTimer }, []) := by
      obtain rfl | rfl := hnread <;> rfl
    rw [honRead] at hstep
    cases hstep
    intro harmed
    have hactive : (stopTimer s.socket.conn.readTimer).active = true :=
      (harmed hopen).1.mpr ⟨tid, hblocked⟩
    rw [stopTimer_active] at hactive
    cases hactive
  · cases hstep

/-- Data for a reader that is not recorded. -/
theorem not_armed_data {bytes : Bytes} {tid : Nat} (hwf : s.socket.conn.Wf)
    (hreader : s.socket.conn.luaReaderTid = 0) (hblocked : s.threads.blocked tid = some .read)
    (hs' : s.step (.conn (.data bytes)) = some s') : ¬TimersArmed s' := by
  obtain ⟨-, socket, woken, suspended, hstep, rfl⟩ := WaitState.step_conn hs'
  rw [Socket.step] at hstep
  split at hstep
  · cases hstep
  · split at hstep
    · next hdata =>
      have hopen : s.socket.conn.luaRef = true := by
        obtain ⟨hopen, -⟩ | hclosed := hwf
        · exact hopen
        · rw [hclosed.inactive] at hdata
          cases hdata.2.2
      obtain ⟨n, hn⟩ := Nat.exists_eq_succ_of_ne_zero
        (fun hzero => hdata.1 (List.length_eq_zero_iff.mp hzero))
      simp only [onRead, hn, hreader, resumeLuaThread, if_true] at hstep
      cases hstep
      intro harmed
      have hactive : (stopTimer s.socket.conn.readTimer).active = true :=
        (harmed hopen).1.mpr ⟨tid, hblocked⟩
      rw [stopTimer_active] at hactive
      cases hactive
    · cases hstep

theorem TimersInvariant.not_armed (h : TimersInvariant s) {e : WaitEvent}
    (hc : ¬ReadsForReader s e) (hs' : s.step e = some s') : ¬TimersArmed s' := by
  cases e with
  | resume => exact absurd trivial hc
  | conn e =>
    cases e with
    | onRead nread =>
      obtain ⟨hnread, hblocked⟩ := Classical.not_imp.mp hc
      obtain ⟨tid, htid⟩ := not_forall.mp hblocked
      exact not_armed_onRead hnread h.wf (not_not.mp htid) hs'
    | data bytes =>
      obtain ⟨hreader, hblocked⟩ := Classical.not_imp.mp hc
      obtain ⟨tid, htid⟩ := not_forall.mp hblocked
      exact not_armed_data h.wf hreader (not_not.mp htid) hs'
    | _ => exact absurd trivial hc

end Steps

/-- With one reader, one writer and positive timeouts, the timers run exactly while a thread waits,
along the runs in which `on_read` is not called without data while a thread waits for some. -/
theorem timers_armed_iff {connectTimeout : Int} (htimeout : 0 < connectTimeout) {s : WaitState}
    (hs : Starts connectTimeout s) (es : List WaitEvent)
    (hone : Guarded WaitState.step OneEach s es) :
    Always WaitState.step TimersArmed s es ↔ Guarded WaitState.step ReadsForReader s es := by
  refine always_iff_guarded_within hone (timersInvariant_starts htimeout hs)
    (fun s h => h.armed) ?_ ?_
  · intro s e s' h hd hc hs'
    cases e with
    | conn e => exact h.conn hd hc hs'
    | resume => exact h.resume hs'
  · exact fun s e s' h _ hc hs' => h.not_armed hc hs'

/-- A connection that the server has accepted. -/
def accepted : WaitState := ⟨⟨newConnection, false⟩, ⟨fun _ => none, [], []⟩⟩

theorem timers_armed_read : Always WaitState.step TimersArmed accepted
    [.conn (.startReading none), .conn (.read 7 3000), .conn (.data [71])] := by
  have hone : Guarded WaitState.step OneEach accepted
      [.conn (.startReading none), .conn (.read 7 3000), .conn (.data [71])] :=
    .cons rfl trivial (.cons rfl ⟨by decide, nofun⟩ (.cons rfl trivial trivial))
  exact (timers_armed_iff (by decide : (0 : Int) < 8000) .accept _ hone).mpr
    (.cons rfl trivial (.cons rfl trivial (.cons rfl nofun trivial)))

/-- A reader waits, and `on_read` is called with a length of zero. -/
theorem idle_read_disarms :
    ¬∀ (connectTimeout : Int) (s : WaitState) (es : List WaitEvent), 0 < connectTimeout →
      Starts connectTimeout s → Guarded WaitState.step OneEach s es →
        Always WaitState.step TimersArmed s es := by
  intro h
  have hone : Guarded WaitState.step OneEach accepted
      [.conn (.startReading none), .conn (.read 7 3000), .conn (.onRead (.bytes 0))] :=
    .cons rfl trivial (.cons rfl ⟨by decide, nofun⟩ (.cons rfl trivial trivial))
  have hrun := h 8000 accepted _ (by decide) .accept hone
  have harmed : TimersArmed _ := (((hrun.2 _ rfl).2 _ rfl).2 _ rfl).head
  have hactive := (harmed rfl).1.mpr ⟨7, rfl⟩
  cases hactive

end Luaw.Tcp
