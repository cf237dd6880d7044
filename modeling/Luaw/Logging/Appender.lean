import Mathlib.Data.List.InsertIdx
import Luaw.DataStructs.RingBuffer
import Luaw.Logging.Rotation

/-!
# The file appender

`logToFile` with the ring buffer that it keeps the lines in. A run records what was logged, what
left the buffer, what was handed to `writeLog`, and the numbers of the files. Lists in the place of
the ring buffer make it a run of `LogRun`.
-/

namespace Luaw.Logging

/-- The variables of `luaw_logging.lua`. -/
structure Appender where
  logSequenceNum : Nat
  logSize : Nat
  logBuffer : RingBuffer Bytes
  noOfLogLinesDropped : Nat

theorem filled_lt_of_take {logBuffer logBuffer' : RingBuffer Bytes} {logLine : Bytes}
    (h : logBuffer.take = (some logLine, logBuffer')) : logBuffer'.filled < logBuffer.filled := by
  rw [RingBuffer.take] at h
  split at h
  · next hfilled =>
    rw [← (Prod.mk.inj h).2]
    exact Nat.sub_lt hfilled Nat.zero_lt_one
  · cases (Prod.mk.inj h).1

/-- The loop of `concatLogLines`. -/
def takeLines (logBuffer : RingBuffer Bytes) : List Bytes × RingBuffer Bytes :=
  match _h : logBuffer.take with
  | (none, logBuffer') => ([], logBuffer')
  | (some logLine, logBuffer') =>
    (logLine :: (takeLines logBuffer').1, (takeLines logBuffer').2)
termination_by logBuffer.filled
decreasing_by all_goals exact filled_lt_of_take _h

namespace Appender

def new (cfg : Config) : Appender :=
  ⟨0, 0, newOverwrittingRingBuffer Bytes (cfg.noOfLogLinesToBuffer + 32), 0⟩

def nextLogSequenceNum (cfg : Config) (appender : Appender) : Nat :=
  (if cfg.logfileCountLimit < appender.logSequenceNum then 0 else appender.logSequenceNum) + 1

/-- `table.concat(temp, '\n')`, with an empty string behind the lines. -/
def concatLogLines (lines : List Bytes) : Bytes := List.intercalate [10] (lines ++ [[]])

/-- `ts` is the time in the format for file names. -/
def fileName (cfg : Config) (appender : Appender) (ts : Bytes) : Bytes :=
  cfg.logDir ++ text "/" ++ cfg.logfileBaseName ++ text "-" ++ ts ++ text "-" ++
    Lua.decimal (appender.nextLogSequenceNum cfg) ++ text ".log"

end Appender

/-- A call of `writeLog`: the state of the log, the file it writes to, and the string. -/
structure Batch where
  logState : LogState
  file : Descriptor
  logBatch : Bytes
  deriving DecidableEq, Repr

/-- The requests that libuv works on are in `opens`, `writes` and `closes`, a write with the mark
whether it rotates the log. No function reads the fields after these: the calls of `on_log_open`,
the lines logged, those that left the buffer with the mark whether they were written, the calls of
`writeLog`, and the numbers in the names of files. -/
structure FileLog where
  log : LogFile
  appender : Appender
  opens : List Bytes
  writes : List (Descriptor × Bool)
  closes : List Descriptor
  openings : Nat
  logged : List Bytes
  departed : List (Bytes × Bool)
  batches : List Batch
  numbers : List Nat

namespace FileLog

def new (cfg : Config) : FileLog where
  log := ⟨.logNotOpen, ⟨0, 0⟩⟩
  appender := .new cfg
  opens := []
  writes := []
  closes := []
  openings := 0
  logged := []
  departed := []
  batches := []
  numbers := []

/-- A function of C returns, and libuv has the request that it made. -/
def follow (s : FileLog) : LogFile × Option Request → FileLog
  | (log, none) => { s with log }
  | (log, some (.openFile filename)) => { s with log, opens := s.opens ++ [filename] }
  | (log, some (.write file _ rotate)) => { s with log, writes := s.writes ++ [(file, rotate)] }
  | (log, some (.close file)) => { s with log, closes := s.closes ++ [file] }

/-- `logBuffer:offer` at the beginning of `logToFile`. -/
def offer (s : FileLog) (logLine : Bytes) : FileLog :=
  let ((added, overwrittenObj), logBuffer) := s.appender.logBuffer.offerWithOverwrite logLine
  { s with
    appender := { s.appender with
      logBuffer
      noOfLogLinesDropped := s.appender.noOfLogLinesDropped + if added then 0 else 1 }
    logged := s.logged ++ [logLine]
    departed := s.departed ++ overwrittenObj.toList.map fun line => (line, false) }

/-- A full buffer is written if the log is open. -/
def writeBatch (cfg : Config) (s : FileLog) (writing : Submission) : FileLog :=
  if s.log.logState = .logIsOpen ∧ cfg.noOfLogLinesToBuffer ≤ s.appender.logBuffer.filled then
    let (lines, logBuffer) := takeLines s.appender.logBuffer
    let logBatch := Appender.concatLogLines lines
    let logSize := s.appender.logSize + logBatch.length
    let rotateLog := decide (cfg.logfileSizeLimit ≤ logSize)
    follow { s with
        appender := { s.appender with logBuffer, logSize }
        departed := s.departed ++ lines.map fun line => (line, true)
        batches := s.batches ++ [⟨s.log.logState, s.log.logfile, logBatch⟩] }
      (s.log.writeLog logBatch rotateLog writing)
  else s

/-- A log that is not open is opened under a new name. -/
def openLog (cfg : Config) (s : FileLog) (ts : Bytes) (opening : Submission) : FileLog :=
  if s.log.logState = .logNotOpen then
    follow { s with
        appender := { s.appender with
          logSize := 0
          logSequenceNum := s.appender.nextLogSequenceNum cfg }
        numbers := s.numbers ++ [s.appender.nextLogSequenceNum cfg] }
      (s.log.openLogFile (s.appender.fileName cfg ts) opening)
  else s

def logToFile (cfg : Config) (s : FileLog) (currentTimeStr logLine ts : Bytes)
    (writing opening : Submission) : FileLog :=
  openLog cfg (writeBatch cfg (s.offer (currentTimeStr ++ text " " ++ logLine)) writing) ts opening

/-- `on_log_open` with the result of a request. -/
def onLogOpen (s : FileLog) (i : Nat) (result : Int) : FileLog :=
  { s with
    log := s.log.onLogOpen ⟨result, s.openings + 1⟩
    opens := s.opens.eraseIdx i
    openings := s.openings + 1 }

/-- The callback of a write. -/
def onWritten (s : FileLog) (i : Nat) (rotate : Bool) (result : Int) : FileLog :=
  follow { s with writes := s.writes.eraseIdx i }
    (if rotate then s.log.onRotatingWrite else s.log.onLogWrite result)

def step (cfg : Config) (s : FileLog) : LogEvent → Option FileLog
  | .log currentTimeStr logLine ts writing opening =>
    some (s.logToFile cfg currentTimeStr logLine ts writing opening)
  | .opened i result => (s.opens[i]?).map fun _ => s.onLogOpen i result
  | .written i result => (s.writes[i]?).map fun w => s.onWritten i w.2 result
  | .closed i => (s.closes[i]?).map fun _ => { s with closes := s.closes.eraseIdx i }

end FileLog

section Buffer

theorem takeLines_holds {logBuffer : RingBuffer Bytes} {held : List Bytes}
    (h : logBuffer.Holds held) : (takeLines logBuffer).1 = held ∧
      (takeLines logBuffer).2.Holds [] ∧ (takeLines logBuffer).2.size = logBuffer.size := by
  induction held generalizing logBuffer with
  | nil =>
    have htake := h.take_empty
    rw [takeLines]
    split
    · next hnone =>
      cases htake.symm.trans hnone
      exact ⟨rfl, h, rfl⟩
    · next hsome => cases htake.symm.trans hsome
  | cons logLine held ih =>
    obtain ⟨htaken, hholds, hsize⟩ := h.take_cons
    rw [takeLines]
    split
    · next hnone =>
      rw [hnone] at htaken
      cases htaken
    · next hsome =>
      rw [hsome] at htaken hholds hsize
      cases htaken
      obtain ⟨hlines, hempty, hsize'⟩ := ih hholds
      exact ⟨congrArg _ hlines, hempty, hsize'.trans hsize⟩

/-- Each line ends with one newline. -/
theorem concatLogLines_eq (lines : List Bytes) :
    Appender.concatLogLines lines = lines.flatMap (· ++ [10]) := by
  induction lines with
  | nil => rfl
  | cons line lines ih =>
    have hne : lines ++ [[]] ≠ ([] : List Bytes) := by simp
    rw [Appender.concatLogLines, List.cons_append, List.intercalate_cons_of_ne_nil hne,
      List.flatMap_cons, ← ih]
    rfl

/-- A full buffer loses its oldest line to the new one. -/
theorem FileLog.offer_departed {s : FileLog} {held : List Bytes}
    (h : s.appender.logBuffer.Holds held) (logLine : Bytes) :
    (s.offer logLine).departed = s.departed ++
      (BoundedQueue.displace s.appender.logBuffer.size held logLine).1.2.toList.map
        fun line => (line, false) := by
  rw [← (h.offerWithOverwrite logLine).1]
  rfl

theorem FileLog.offer_dropped {s : FileLog} {held : List Bytes}
    (h : s.appender.logBuffer.Holds held) (logLine : Bytes) :
    (s.offer logLine).appender.noOfLogLinesDropped = s.appender.noOfLogLinesDropped +
      if held.length < s.appender.logBuffer.size then 0 else 1 := by
  have hadded := congrArg Prod.fst (h.offerWithOverwrite logLine).1
  rw [BoundedQueue.displace] at hadded
  show _ + (if (s.appender.logBuffer.offerWithOverwrite logLine).1.1 then 0 else 1) = _
  rw [hadded]
  split <;> rfl

end Buffer

/-- The state of a run of `LogRun`, for the same requests and with the lines that the ring buffer
holds. -/
structure Refines (cfg : Config) (s : FileLog) (r : LogRun) : Prop where
  log : s.log = r.log
  sequence : s.appender.logSequenceNum = r.logger.logSequenceNum
  logSize : s.appender.logSize = r.logger.logSize
  buffer : s.appender.logBuffer.Holds r.logger.logBuffer
  size : s.appender.logBuffer.size = cfg.noOfLogLinesToBuffer + 32
  dropped : s.appender.noOfLogLinesDropped = r.logger.noOfLogLinesDropped
  opens : s.opens = r.opens
  writes : s.writes = r.writes.map fun w => (w.file, w.rotate)
  closes : s.closes = r.closes
  openings : s.openings = r.openings

section Refinement

variable {cfg : Config} {s : FileLog} {r : LogRun}

theorem refines_new (cfg : Config) : Refines cfg (.new cfg) .new where
  log := rfl
  sequence := rfl
  logSize := rfl
  buffer := RingBuffer.holds_new (Nat.le_add_left 1 _)
  size := rfl
  dropped := rfl
  opens := rfl
  writes := rfl
  closes := rfl
  openings := rfl

theorem Refines.follow (h : Refines cfg s r) (used : Descriptor)
    (result : LogFile × Option Request) : Refines cfg (s.follow result) (r.follow used result) := by
  obtain ⟨log, _ | ⟨filename⟩ | ⟨file, mesg, rotate⟩ | ⟨file⟩⟩ := result
  · exact ⟨rfl, h.sequence, h.logSize, h.buffer, h.size, h.dropped, h.opens, h.writes, h.closes,
      h.openings⟩
  · exact ⟨rfl, h.sequence, h.logSize, h.buffer, h.size, h.dropped,
      congrArg (· ++ [filename]) h.opens, h.writes, h.closes, h.openings⟩
  · refine ⟨rfl, h.sequence, h.logSize, h.buffer, h.size, h.dropped, h.opens, ?_, h.closes,
      h.openings⟩
    show s.writes ++ _ = (r.writes ++ _).map _
    rw [h.writes, List.map_append]
    rfl
  · exact ⟨rfl, h.sequence, h.logSize, h.buffer, h.size, h.dropped, h.opens, h.writes,
      congrArg (· ++ [file]) h.closes, h.openings⟩

theorem Refines.offer (h : Refines cfg s r) (logLine : Bytes) :
    Refines cfg (s.offer logLine) { r with logger := r.logger.offer cfg logLine } := by
  obtain ⟨-, hholds, hsize⟩ := h.buffer.offerWithOverwrite logLine
  have hdropped := FileLog.offer_dropped h.buffer logLine
  rw [BoundedQueue.displace, h.size] at hholds
  rw [h.size, h.dropped] at hdropped
  by_cases hroom : r.logger.logBuffer.length < cfg.noOfLogLinesToBuffer + 32
  · rw [if_pos hroom] at hholds hdropped
    rw [Logger.offer, if_pos hroom]
    exact ⟨h.log, h.sequence, h.logSize, hholds, hsize.trans h.size, hdropped, h.opens, h.writes,
      h.closes, h.openings⟩
  · rw [if_neg hroom] at hholds hdropped
    rw [Logger.offer, if_neg hroom, List.drop_one]
    exact ⟨h.log, h.sequence, h.logSize, hholds, hsize.trans h.size, hdropped, h.opens, h.writes,
      h.closes, h.openings⟩

theorem Refines.writeBatch (h : Refines cfg s r) (writing : Submission) :
    Refines cfg (s.writeBatch cfg writing) (r.writeBatch cfg writing) := by
  obtain ⟨hlines, hempty, hsize⟩ := takeLines_holds h.buffer
  have hbatch : Appender.concatLogLines (takeLines s.appender.logBuffer).1 =
      r.logger.concatLogLines := by
    rw [hlines, concatLogLines_eq]
    rfl
  rw [FileLog.writeBatch, LogRun.writeBatch, h.log, h.buffer.filled]
  split
  · simp only [hbatch, h.logSize]
    refine Refines.follow ?_ _ _
    exact ⟨rfl, h.sequence, rfl, hempty, hsize.trans h.size, h.dropped, h.opens, h.writes,
      h.closes, h.openings⟩
  · exact h

theorem Refines.openLog (h : Refines cfg s r) (ts : Bytes) (opening : Submission) :
    Refines cfg (s.openLog cfg ts opening) (r.openLog cfg ts opening) := by
  have hnext : s.appender.nextLogSequenceNum cfg = r.logger.nextLogSequenceNum cfg := by
    rw [Appender.nextLogSequenceNum, h.sequence]
    rfl
  have hname : s.appender.fileName cfg ts = r.logger.fileName cfg ts := by
    rw [Appender.fileName, hnext]
    rfl
  rw [FileLog.openLog, LogRun.openLog, h.log, hnext, hname]
  split
  · refine Refines.follow ?_ _ _
    exact ⟨rfl, rfl, rfl, h.buffer, h.size, h.dropped, h.opens, h.writes, h.closes, h.openings⟩
  · exact h

theorem Refines.step (h : Refines cfg s r) {e : LogEvent} {s' : FileLog}
    (hstep : FileLog.step cfg s e = some s') :
    ∃ r', LogRun.step cfg r e = some r' ∧ Refines cfg s' r' := by
  cases e with
  | log currentTimeStr logLine ts writing opening =>
    cases hstep
    exact ⟨_, rfl, ((h.offer _).writeBatch writing).openLog ts opening⟩
  | opened i result =>
    obtain ⟨filename, hget, rfl⟩ := Option.map_eq_some_iff.mp hstep
    refine ⟨r.onLogOpen i result, ?_, ?_⟩
    · rw [LogRun.step, ← h.opens, hget]
      rfl
    · refine ⟨?_, h.sequence, h.logSize, h.buffer, h.size, h.dropped,
        congrArg (List.eraseIdx · i) h.opens, h.writes, h.closes, congrArg (· + 1) h.openings⟩
      show s.log.onLogOpen _ = r.log.onLogOpen _
      rw [h.log, h.openings]
  | written i result =>
    obtain ⟨w, hget, rfl⟩ := Option.map_eq_some_iff.mp hstep
    rw [h.writes, List.getElem?_map] at hget
    obtain ⟨w', hget', rfl⟩ := Option.map_eq_some_iff.mp hget
    refine ⟨r.onWritten i w' result, ?_, ?_⟩
    · rw [LogRun.step, hget']
      rfl
    · have herased : Refines cfg { s with writes := s.writes.eraseIdx i }
          { r with writes := r.writes.eraseIdx i } := by
        refine ⟨h.log, h.sequence, h.logSize, h.buffer, h.size, h.dropped, h.opens, ?_, h.closes,
          h.openings⟩
        show s.writes.eraseIdx i = (r.writes.eraseIdx i).map _
        rw [h.writes, List.eraseIdx_map]
      have hresult : (if w'.rotate then s.log.onRotatingWrite else s.log.onLogWrite result) =
          if w'.rotate then r.log.onRotatingWrite else r.log.onLogWrite result := by
        rw [h.log]
      rw [FileLog.onWritten, hresult]
      exact herased.follow _ _
  | closed i =>
    obtain ⟨file, hget, rfl⟩ := Option.map_eq_some_iff.mp hstep
    refine ⟨{ r with closes := r.closes.eraseIdx i }, ?_, ?_⟩
    · rw [LogRun.step, ← h.closes, hget]
      rfl
    · exact ⟨h.log, h.sequence, h.logSize, h.buffer, h.size, h.dropped, h.opens, h.writes,
        congrArg (List.eraseIdx · i) h.closes, h.openings⟩

/-- Every run with the ring buffer is one with the list of its lines. -/
theorem refines_run (cfg : Config) {es : List LogEvent} {s : FileLog}
    (hrun : Transition.exec (FileLog.step cfg) (.new cfg) es = some s) :
    ∃ r, Transition.exec (LogRun.step cfg) .new es = some r ∧ Refines cfg s r :=
  Transition.exec_simulates (fun _ _ _ _ h hstep => h.step hstep) (refines_new cfg) hrun

end Refinement

end Luaw.Logging
