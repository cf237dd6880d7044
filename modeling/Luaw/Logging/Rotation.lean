import Luaw.Foundations.Transition
import Luaw.Logging.LogFile

/-!
# Rotating the log

The calls of `logToFile` and the callbacks of the requests that they lead to, in any order. A run
keeps a record of the files that were opened, written and closed.
-/

namespace Luaw.Logging

open Transition

/-- A write that has not been completed. `since` is the number of changes before it. -/
structure PendingWrite where
  file : Descriptor
  rotate : Bool
  since : Nat
  deriving DecidableEq, Repr

/-- What happened to a file. A close follows a write: `used` is the file of that write. -/
inductive Effect where
  | opened (file : Descriptor)
  | wrote (file : Descriptor)
  | closed (file used : Descriptor)
  deriving DecidableEq, Repr

/-- The requests that libuv works on are in `opens`, `writes` and `closes`. The other fields are a
record that no function reads: the calls of `on_log_open`, these and the closes issued together,
and what happened, newest first. -/
structure LogRun where
  log : LogFile
  logger : Logger
  opens : List Bytes
  writes : List PendingWrite
  closes : List Descriptor
  openings : Nat
  changes : Nat
  history : List Effect

/-- A call of `logToFile` with what libuv does about its requests, or the completion of one of the
requests. -/
inductive LogEvent where
  | log (currentTimeStr logLine ts : Bytes) (writing opening : Submission)
  | opened (i : Nat) (result : Int)
  | written (i : Nat) (result : Int)
  | closed (i : Nat)
  deriving DecidableEq, Repr

namespace LogRun

def new : LogRun where
  log := ⟨.logNotOpen, ⟨0, 0⟩⟩
  logger := .new
  opens := []
  writes := []
  closes := []
  openings := 0
  changes := 0
  history := []

/-- A function of C returns, and libuv has the request that it made. -/
def follow (s : LogRun) (used : Descriptor) : LogFile × Option Request → LogRun
  | (log, none) => { s with log }
  | (log, some (.openFile filename)) => { s with log, opens := s.opens ++ [filename] }
  | (log, some (.write file _ rotate)) =>
    { s with
      log
      writes := s.writes ++ [⟨file, rotate, s.changes⟩]
      history := .wrote file :: s.history }
  | (log, some (.close file)) =>
    { s with
      log
      closes := s.closes ++ [file]
      changes := s.changes + 1
      history := .closed file used :: s.history }

/-- The first half of `logToFile`: a full buffer is written. -/
def writeBatch (cfg : Config) (s : LogRun) (writing : Submission) : LogRun :=
  if s.log.logState = .logIsOpen ∧ cfg.noOfLogLinesToBuffer ≤ s.logger.logBuffer.length then
    let logBatch := s.logger.concatLogLines
    let logSize := s.logger.logSize + logBatch.length
    let rotateLog := decide (cfg.logfileSizeLimit ≤ logSize)
    follow { s with logger := { s.logger with logBuffer := [], logSize } } s.log.logfile
      (s.log.writeLog logBatch rotateLog writing)
  else s

/-- The second half: a log that is not open is opened under a new name. -/
def openLog (cfg : Config) (s : LogRun) (ts : Bytes) (opening : Submission) : LogRun :=
  if s.log.logState = .logNotOpen then
    follow { s with logger := { s.logger with
        logSize := 0, logSequenceNum := s.logger.nextLogSequenceNum cfg } } s.log.logfile
      (s.log.openLogFile (s.logger.fileName cfg ts) opening)
  else s

def logToFile (cfg : Config) (s : LogRun) (currentTimeStr logLine ts : Bytes)
    (writing opening : Submission) : LogRun :=
  openLog cfg (writeBatch cfg
    { s with logger := s.logger.offer cfg (currentTimeStr ++ text " " ++ logLine) } writing)
    ts opening

/-- `on_log_open` with the result of a request. -/
def onLogOpen (s : LogRun) (i : Nat) (result : Int) : LogRun :=
  let file : Descriptor := ⟨result, s.openings + 1⟩
  { s with
    log := s.log.onLogOpen file
    opens := s.opens.eraseIdx i
    openings := s.openings + 1
    changes := s.changes + 1
    history := if 0 ≤ result then .opened file :: s.history else s.history }

/-- The callback of a write. -/
def onWritten (s : LogRun) (i : Nat) (w : PendingWrite) (result : Int) : LogRun :=
  follow { s with writes := s.writes.eraseIdx i } w.file
    (if w.rotate then s.log.onRotatingWrite else s.log.onLogWrite result)

def step (cfg : Config) (s : LogRun) : LogEvent → Option LogRun
  | .log currentTimeStr logLine ts writing opening =>
    some (s.logToFile cfg currentTimeStr logLine ts writing opening)
  | .opened i result => (s.opens[i]?).map fun _ => s.onLogOpen i result
  | .written i result => (s.writes[i]?).map fun w => s.onWritten i w result
  | .closed i => (s.closes[i]?).map fun _ => { s with closes := s.closes.eraseIdx i }

end LogRun

/-- The file was opened, and no close has been issued for it. -/
def IsOpen (history : List Effect) (file : Descriptor) : Prop :=
  .opened file ∈ history ∧ ∀ used, .closed file used ∉ history

/-- The close of a file. -/
def Effect.closes (file : Descriptor) : Effect → Bool
  | closed file' _ => file' = file
  | _ => false

/-- The log is written to the right file, and each file is closed by the writes to it, once. -/
structure RightFile (s : LogRun) : Prop where
  current : s.log.logState = .logIsOpen → IsOpen s.history s.log.logfile
  writes : ∀ later file past, s.history = later ++ .wrote file :: past → IsOpen past file
  once : ∀ file, .opened file ∈ s.history → s.history.countP (Effect.closes file) ≤ 1
  own : ∀ file used, .closed file used ∈ s.history → file = used

/-- No open fails; and no open has been completed and no close issued since a write that is
completed as a rotating or as a failed one. -/
def Undisturbed (s : LogRun) : LogEvent → Prop
  | .opened _ result => 0 ≤ result
  | .written i result => ∀ w, s.writes[i]? = some w → w.rotate = true ∨ result < 0 →
      w.since = s.changes
  | _ => True

/-- What holds of an undisturbed run. -/
structure Settled (s : LogRun) : Prop where
  right : RightFile s
  /-- Later openings have other numbers. -/
  current_le : s.log.logfile.opening ≤ s.openings
  opened_le : ∀ file, .opened file ∈ s.history → file.opening ≤ s.openings
  closed_opened : ∀ file used, .closed file used ∈ s.history → .opened file ∈ s.history
  pending_le : ∀ w ∈ s.writes, w.file.opening ≤ s.openings ∧ w.since ≤ s.changes
  /-- The file of a write that nothing has disturbed is still there, and still open. -/
  undisturbed : ∀ w ∈ s.writes, w.since = s.changes →
    w.file = s.log.logfile ∧ IsOpen s.history w.file ∧
      (w.rotate = true → s.log.logState ≠ .logIsOpen)
  /-- The file of any other write has made room for another one, or is closed. -/
  disturbed : ∀ w ∈ s.writes, w.since < s.changes → w.file ≠ s.log.logfile ∨
    ∃ used, .closed s.log.logfile used ∈ s.history

section Settled

variable {s : LogRun}

theorem Settled.withLogger (h : Settled s) (logger : Logger) : Settled { s with logger } :=
  ⟨⟨h.right.current, h.right.writes, h.right.once, h.right.own⟩, h.current_le, h.opened_le,
    h.closed_opened, h.pending_le, h.undisturbed, h.disturbed⟩

theorem Settled.withOpens (h : Settled s) (opens : List Bytes) : Settled { s with opens } :=
  ⟨⟨h.right.current, h.right.writes, h.right.once, h.right.own⟩, h.current_le, h.opened_le,
    h.closed_opened, h.pending_le, h.undisturbed, h.disturbed⟩

theorem Settled.eraseWrite (h : Settled s) (i : Nat) :
    Settled { s with writes := s.writes.eraseIdx i } :=
  ⟨⟨h.right.current, h.right.writes, h.right.once, h.right.own⟩, h.current_le, h.opened_le,
    h.closed_opened, fun w hw => h.pending_le w (List.mem_of_mem_eraseIdx hw),
    fun w hw => h.undisturbed w (List.mem_of_mem_eraseIdx hw),
    fun w hw => h.disturbed w (List.mem_of_mem_eraseIdx hw)⟩

/-- The state of the log changes, but not to open. -/
theorem Settled.withState (h : Settled s) (logState : LogState) (hstate : logState ≠ .logIsOpen) :
    Settled { s with log := { s.log with logState } } :=
  ⟨⟨fun hopen => absurd hopen hstate, h.right.writes, h.right.once, h.right.own⟩, h.current_le,
    h.opened_le, h.closed_opened, h.pending_le,
    fun w hw hsince =>
      ⟨(h.undisturbed w hw hsince).1, (h.undisturbed w hw hsince).2.1, fun _ => hstate⟩,
    h.disturbed⟩

theorem IsOpen.wrote {history : List Effect} {file file' : Descriptor}
    (h : IsOpen history file) : IsOpen (.wrote file' :: history) file :=
  ⟨List.mem_cons_of_mem _ h.1, fun used => by simpa using h.2 used⟩

/-- The current file is open, and a write to it is issued. -/
theorem Settled.write (h : Settled s) (hopen : IsOpen s.history s.log.logfile)
    (mesg : Bytes) {rotate : Bool} (hrotate : rotate = true → s.log.logState ≠ .logIsOpen) :
    Settled (s.follow s.log.logfile (s.log, some (.write s.log.logfile mesg rotate))) where
  right := by
    refine ⟨fun hstate => (h.right.current hstate).wrote, fun later file past hsplit => ?_,
      fun file hmem => ?_, fun file used hmem => ?_⟩
    · cases later with
      | nil =>
        cases hsplit
        exact hopen
      | cons e later => exact h.right.writes later file past (List.cons.inj hsplit).2
    · have hmem : .opened file ∈ s.history := by simpa [LogRun.follow] using hmem
      simpa [LogRun.follow, Effect.closes] using h.right.once file hmem
    · exact h.right.own file used (by simpa [LogRun.follow] using hmem)
  current_le := h.current_le
  opened_le file hmem := h.opened_le file (by simpa [LogRun.follow] using hmem)
  closed_opened file used hmem := List.mem_cons_of_mem _
    (h.closed_opened file used (by simpa [LogRun.follow] using hmem))
  pending_le w hw := by
    obtain hw | hw := List.mem_append.mp hw
    · exact h.pending_le w hw
    · rw [List.mem_singleton.mp hw]
      exact ⟨h.current_le, le_rfl⟩
  undisturbed w hw hsince := by
    obtain hw | hw := List.mem_append.mp hw
    · obtain ⟨hfile, hopen, hstate⟩ := h.undisturbed w hw hsince
      exact ⟨hfile, hopen.wrote, hstate⟩
    · rw [List.mem_singleton.mp hw]
      exact ⟨rfl, hopen.wrote, hrotate⟩
  disturbed w hw hsince := by
    obtain hw | hw := List.mem_append.mp hw
    · refine (h.disturbed w hw hsince).imp id fun ⟨used, hused⟩ => ⟨used, ?_⟩
      exact List.mem_cons_of_mem _ hused
    · rw [List.mem_singleton.mp hw] at hsince
      exact absurd hsince (lt_irrefl _)

/-- The current file is open, and a close is issued for it after a write to it. -/
theorem Settled.close (h : Settled s) (hopen : IsOpen s.history s.log.logfile)
    (hstate : s.log.logState ≠ .logIsOpen) :
    Settled (s.follow s.log.logfile (s.log, some s.log.closeLog)) where
  right := by
    refine ⟨fun hstate' => absurd hstate' hstate, fun later file past hsplit => ?_,
      fun file hmem => ?_, fun file used hmem => ?_⟩
    · cases later with
      | nil => cases hsplit
      | cons e later => exact h.right.writes later file past (List.cons.inj hsplit).2
    · have hmem : .opened file ∈ s.history := by
        simpa [LogRun.follow, LogFile.closeLog] using hmem
      have hcount := h.right.once file hmem
      by_cases hfile : s.log.logfile = file
      · -- nothing has closed it before
        have hnone : s.history.countP (Effect.closes file) = 0 := by
          refine List.countP_eq_zero.mpr fun e he hcloses => ?_
          cases e with
          | closed file' used =>
            obtain rfl : file' = file := by simpa [Effect.closes] using hcloses
            exact hopen.2 used (hfile ▸ he)
          | opened | wrote => cases hcloses
        simp [LogRun.follow, LogFile.closeLog, hnone, Effect.closes, hfile]
      · simpa [LogRun.follow, LogFile.closeLog, Effect.closes, hfile] using hcount
    · obtain heq | hmem := List.mem_cons.mp hmem
      · cases heq
        rfl
      · exact h.right.own file used hmem
  current_le := h.current_le
  opened_le file hmem := h.opened_le file (by simpa [LogRun.follow, LogFile.closeLog] using hmem)
  closed_opened file used hmem := by
    refine List.mem_cons_of_mem _ ?_
    obtain heq | hmem := List.mem_cons.mp hmem
    · cases heq
      exact hopen.1
    · exact h.closed_opened file used hmem
  pending_le w hw := ⟨(h.pending_le w hw).1, Nat.le_succ_of_le (h.pending_le w hw).2⟩
  undisturbed w hw hsince := by
    have hle := (h.pending_le w hw).2
    have hsince : w.since = s.changes + 1 := hsince
    omega
  disturbed w hw _ := .inr ⟨s.log.logfile, List.mem_cons_self⟩

/-- A file that is opened has a number of its own. -/
theorem Settled.opened (h : Settled s) (i : Nat) {result : Int} (hresult : 0 ≤ result) :
    Settled (s.onLogOpen i result) := by
  have hhistory : (s.onLogOpen i result).history =
      .opened ⟨result, s.openings + 1⟩ :: s.history := if_pos hresult
  have hnew : ∀ file used, .closed file used ∈ s.history → file.opening ≤ s.openings :=
    fun file used hmem => h.opened_le file (h.closed_opened file used hmem)
  refine ⟨⟨fun _ => ?_, fun later file past hsplit => ?_, fun file hmem => ?_,
    fun file used hmem => ?_⟩, le_rfl, fun file hmem => ?_, fun file used hmem => ?_,
    fun w hw => ?_, fun w hw hsince => ?_, fun w hw _ => .inl ?_⟩
  · rw [hhistory]
    -- no file of this number has been closed
    refine ⟨List.mem_cons_self, fun used hmem => ?_⟩
    have hle := hnew _ used (by simpa using hmem)
    exact absurd hle (Nat.not_succ_le_self s.openings)
  · rw [hhistory] at hsplit
    cases later with
    | nil => cases hsplit
    | cons e later => exact h.right.writes later file past (List.cons.inj hsplit).2
  · rw [hhistory] at hmem ⊢
    rw [List.countP_cons_of_neg (by simp [Effect.closes])]
    obtain heq | hmem := List.mem_cons.mp hmem
    · cases heq
      -- the new file has not been closed at all, the older ones at most once before
      refine (List.countP_eq_zero.mpr fun e he hcloses => ?_).le.trans (Nat.zero_le 1)
      cases e with
      | closed file' used =>
        obtain rfl : file' = _ := by simpa [Effect.closes] using hcloses
        exact absurd (hnew _ used he) (Nat.not_succ_le_self s.openings)
      | opened | wrote => cases hcloses
    · exact h.right.once file hmem
  · rw [hhistory] at hmem
    exact h.right.own file used (by simpa using hmem)
  · rw [hhistory] at hmem
    obtain heq | hmem := List.mem_cons.mp hmem
    · cases heq
      exact le_rfl
    · exact Nat.le_succ_of_le (h.opened_le file hmem)
  · rw [hhistory] at hmem ⊢
    exact List.mem_cons_of_mem _ (h.closed_opened file used (by simpa using hmem))
  · obtain ⟨hfile, hsince⟩ := h.pending_le w hw
    exact ⟨Nat.le_succ_of_le hfile, Nat.le_succ_of_le hsince⟩
  · have hle := (h.pending_le w hw).2
    have hsince : w.since = s.changes + 1 := hsince
    omega
  · intro hfile
    have hle := (h.pending_le w hw).1
    have hopening : w.file.opening = s.openings + 1 := congrArg Descriptor.opening hfile
    omega

/-- What `write_log` does to an open file. -/
theorem Settled.writeLog (h : Settled s) (mesg : Bytes) (rotateLog : Bool)
    (submission : Submission) (hstate : s.log.logState = .logIsOpen) :
    Settled (s.follow s.log.logfile (s.log.writeLog mesg rotateLog submission)) := by
  have hopen := h.right.current hstate
  have hnotOpen : Settled { s with log := { s.log with logState := .logNotOpen } } :=
    h.withState .logNotOpen nofun
  cases submission with
  | notAllocated =>
    rw [LogFile.writeLog, if_neg (fun hwrite => hwrite.2 rfl)]
    exact h
  | refused =>
    rw [LogFile.writeLog, if_pos ⟨hstate, nofun⟩]
    cases rotateLog with
    | true => exact hnotOpen
    | false => exact hnotOpen.close hopen nofun
  | queued =>
    rw [LogFile.writeLog, if_pos ⟨hstate, nofun⟩]
    cases rotateLog with
    | true => exact hnotOpen.write hopen mesg fun _ => nofun
    | false => exact h.write hopen mesg nofun

theorem Settled.writeBatch (h : Settled s) (cfg : Config) (writing : Submission) :
    Settled (s.writeBatch cfg writing) := by
  rw [LogRun.writeBatch]
  split
  · next hstate => exact (h.withLogger _).writeLog _ _ writing hstate.1
  · exact h

theorem Settled.openLog (h : Settled s) (cfg : Config) (ts : Bytes) (opening : Submission) :
    Settled (s.openLog cfg ts opening) := by
  rw [LogRun.openLog]
  split
  · have hlogger := h.withLogger { s.logger with
      logSize := 0, logSequenceNum := s.logger.nextLogSequenceNum cfg }
    rw [LogFile.openLogFile]
    split
    · exact (hlogger.withState .openingLog nofun).withOpens
        (s.opens ++ [s.logger.fileName cfg ts])
    · exact hlogger
  · exact h

/-- The write that is completed is one that nothing has disturbed, or it closes nothing. -/
theorem Settled.written (h : Settled s) {i : Nat} {w : PendingWrite} (hw : s.writes[i]? = some w)
    {result : Int} (hsince : w.rotate = true ∨ result < 0 → w.since = s.changes) :
    Settled (s.onWritten i w result) := by
  have hmem := List.mem_of_getElem? hw
  rw [LogRun.onWritten]
  cases hrotate : w.rotate with
  | true =>
    obtain ⟨hfile, hopen, hstate⟩ := h.undisturbed w hmem (hsince (.inl hrotate))
    rw [hfile] at hopen ⊢
    exact (h.eraseWrite i).close hopen (hstate hrotate)
  | false =>
    rw [if_neg Bool.false_ne_true, LogFile.onLogWrite]
    split
    · exact h.eraseWrite i
    · next hresult =>
      obtain ⟨hfile, hopen, -⟩ := h.undisturbed w hmem (hsince (.inr (Int.not_le.mp hresult)))
      rw [hfile] at hopen ⊢
      exact ((h.eraseWrite i).withState .logNotOpen nofun).close hopen nofun

theorem Settled.step {cfg : Config} {e : LogEvent} {s' : LogRun} (h : Settled s)
    (he : Undisturbed s e) (hstep : LogRun.step cfg s e = some s') : Settled s' := by
  cases e with
  | log currentTimeStr logLine ts writing opening =>
    cases hstep
    exact ((h.withLogger _).writeBatch cfg writing).openLog cfg ts opening
  | opened i result =>
    obtain ⟨filename, -, rfl⟩ := Option.map_eq_some_iff.mp hstep
    exact h.opened i he
  | written i result =>
    obtain ⟨w, hw, rfl⟩ := Option.map_eq_some_iff.mp hstep
    exact h.written hw (he w hw)
  | closed i =>
    obtain ⟨file, -, rfl⟩ := Option.map_eq_some_iff.mp hstep
    exact ⟨⟨h.right.current, h.right.writes, h.right.once, h.right.own⟩, h.current_le,
      h.opened_le, h.closed_opened, h.pending_le, h.undisturbed, h.disturbed⟩

theorem settled_new : Settled LogRun.new where
  right := ⟨nofun, fun later file past hsplit => by simp [LogRun.new] at hsplit, nofun, nofun⟩
  current_le := le_rfl
  opened_le := nofun
  closed_opened := nofun
  pending_le := nofun
  undisturbed := nofun
  disturbed := nofun

/-- A failed open leaves its error number as the file of an open log. -/
theorem Settled.not_opened (h : Settled s) (i : Nat) {result : Int} (hresult : result < 0) :
    ¬RightFile (s.onLogOpen i result) := by
  intro hright
  obtain ⟨hopened, -⟩ := hright.current rfl
  have hhistory : (s.onLogOpen i result).history = s.history := if_neg (Int.not_le.mpr hresult)
  rw [hhistory] at hopened
  exact Nat.not_succ_le_self s.openings (h.opened_le _ hopened)

/-- The close after a write that was disturbed is one of another file, or the second one. -/
theorem Settled.not_written (h : Settled s) {i : Nat} {w : PendingWrite}
    (hw : s.writes[i]? = some w) {result : Int} (hcloses : w.rotate = true ∨ result < 0)
    (hsince : w.since ≠ s.changes) : ¬RightFile (s.onWritten i w result) := by
  intro hright
  have hmem := List.mem_of_getElem? hw
  have hhistory : (s.onWritten i w result).history =
      .closed s.log.logfile w.file :: s.history := by
    rw [LogRun.onWritten]
    cases hrotate : w.rotate with
    | true => rfl
    | false =>
      rw [hrotate] at hcloses
      have hresult : ¬0 ≤ result := Int.not_le.mpr (hcloses.resolve_left Bool.false_ne_true)
      rw [if_neg Bool.false_ne_true, LogFile.onLogWrite, if_neg hresult]
      rfl
  have hlt := lt_of_le_of_ne (h.pending_le w hmem).2 hsince
  obtain hother | ⟨used, hclosed⟩ := h.disturbed w hmem hlt
  · refine hother (hright.own s.log.logfile w.file ?_).symm
    rw [hhistory]
    exact List.mem_cons_self
  · have hopened := h.closed_opened _ used hclosed
    have hcount := hright.once s.log.logfile (by
      rw [hhistory]
      exact List.mem_cons_of_mem _ hopened)
    rw [hhistory, List.countP_cons_of_pos (by simp [Effect.closes])] at hcount
    have hpos : 0 < s.history.countP (Effect.closes s.log.logfile) :=
      List.countP_pos_iff.mpr ⟨_, hclosed, by simp [Effect.closes]⟩
    omega

end Settled

/-- The right file is written and closed in exactly the undisturbed runs. -/
theorem right_file_iff (cfg : Config) (es : List LogEvent) :
    Always (LogRun.step cfg) RightFile .new es ↔
      Guarded (LogRun.step cfg) Undisturbed .new es := by
  refine always_iff_guarded settled_new (fun s h => h.right)
    (fun s e s' h he hstep => h.step he hstep) fun s e s' h he hstep => ?_
  cases e with
  | log | closed => exact absurd trivial he
  | opened i result =>
    obtain ⟨filename, -, rfl⟩ := Option.map_eq_some_iff.mp hstep
    exact h.not_opened i (Int.not_le.mp he)
  | written i result =>
    obtain ⟨w, hw, rfl⟩ := Option.map_eq_some_iff.mp hstep
    simp only [Undisturbed, not_forall] at he
    obtain ⟨w', hw', hcloses, hsince⟩ := he
    obtain rfl : w = w' := Option.some.inj (hw.symm.trans hw')
    exact h.not_written hw hcloses hsince

/-- Every line is written at once, and every write rotates the log. -/
def rotatingConfig : Config where
  logDir := text "log"
  noOfLogLinesToBuffer := 1
  logfileBaseName := text "luaw-log"
  logfileSizeLimit := 1
  logfileCountLimit := 99

/-- The second log is opened before the write to the first one is completed. -/
def openedBeforeWritten : List LogEvent :=
  [.log [] (text "a") [] .queued .queued, .opened 0 5, .log [] (text "b") [] .queued .queued,
    .opened 0 6, .written 0 3]

/-- The second file is closed in the place of the first. -/
theorem rotation_closes_new_file :
    ¬Always (LogRun.step rotatingConfig) RightFile .new openedBeforeWritten := by
  intro h
  have hrun : (exec (LogRun.step rotatingConfig) .new openedBeforeWritten).map LogRun.history =
      some [.closed ⟨6, 2⟩ ⟨5, 1⟩, .opened ⟨6, 2⟩, .wrote ⟨5, 1⟩, .opened ⟨5, 1⟩] := by
    decide
  obtain ⟨s, hs, hhistory⟩ := Option.map_eq_some_iff.mp hrun
  have hown := (h.of_exec hs).own ⟨6, 2⟩ ⟨5, 1⟩ (by simp [hhistory])
  exact absurd hown (by decide)

end Luaw.Logging
