import Mathlib.Data.List.Dedup
import Luaw.Logging.Appender

/-!
# The limits of the log files

The size of a file and the numbers in the names of the files, in the runs without a failed request.
`nextLogSequenceNum` begins again one number late.
-/

namespace Luaw.Logging

open Transition

/-- Nothing fails about the event. -/
def LogEvent.Succeeds : LogEvent → Prop
  | .log _ _ _ writing opening => writing = .queued ∧ opening = .queued
  | .opened _ result => 0 ≤ result
  | .written _ result => 0 ≤ result
  | .closed _ => True

instance : DecidablePred LogEvent.Succeeds
  | .log _ _ _ writing opening => inferInstanceAs (Decidable (writing = .queued ∧ opening = .queued))
  | .opened _ result => inferInstanceAs (Decidable (0 ≤ result))
  | .written _ result => inferInstanceAs (Decidable (0 ≤ result))
  | .closed _ => inferInstanceAs (Decidable True)

/-- The batches that were handed to `writeLog` for one file. -/
def FileLog.batchesOf (s : FileLog) (file : Descriptor) : List Batch :=
  s.batches.filter fun batch => batch.file = file

def totalSize (batches : List Batch) : Nat := (batches.map fun batch => batch.logBatch.length).sum

/-- What the configuration promises. -/
structure WithinLimits (cfg : Config) (s : FileLog) : Prop where
  size : ∀ file earlier last, s.batchesOf file = earlier ++ [last] →
    totalSize (earlier ++ [last]) < cfg.logfileSizeLimit + last.logBatch.length
  cyclic : s.numbers =
    (List.range s.numbers.length).map fun i => i % cfg.logfileCountLimit + 1
  count : s.numbers.dedup.length ≤ cfg.logfileCountLimit

/-- The call of `logToFile` opens a file: the log is not open, or the buffer is written and fills the
file. -/
def FileLog.Reopens (cfg : Config) (s : FileLog) (logLine : Bytes) : Prop :=
  s.log.logState = .logNotOpen ∨
    s.log.logState = .logIsOpen ∧
      cfg.noOfLogLinesToBuffer ≤ (s.offer logLine).appender.logBuffer.filled ∧
      cfg.logfileSizeLimit ≤ s.appender.logSize +
        (Appender.concatLogLines (takeLines (s.offer logLine).appender.logBuffer).1).length

/-- No file is opened when the numbers up to the limit have been used. -/
def NumberLeft (cfg : Config) (s : FileLog) : LogEvent → Prop
  | .log currentTimeStr logLine _ _ _ =>
    s.Reopens cfg (currentTimeStr ++ text " " ++ logLine) →
      s.appender.logSequenceNum < cfg.logfileCountLimit
  | _ => True

/-- What holds while numbers are left. -/
structure Numbered (cfg : Config) (s : FileLog) : Prop where
  numbers : s.numbers = (List.range s.appender.logSequenceNum).map (· + 1)
  le : s.appender.logSequenceNum ≤ cfg.logfileCountLimit
  size : ∀ file earlier last, s.batchesOf file = earlier ++ [last] →
    totalSize earlier < cfg.logfileSizeLimit
  /-- Later openings have other numbers. -/
  opened : s.log.logfile.opening ≤ s.openings
  batches : ∀ batch ∈ s.batches, batch.file.opening ≤ s.openings
  opens : s.opens.length = if s.log.logState = .openingLog then 1 else 0
  opening : s.log.logState = .openingLog → s.appender.logSize = 0
  current : s.log.logState = .logIsOpen →
    totalSize (s.batchesOf s.log.logfile) = s.appender.logSize ∧
      s.appender.logSize < cfg.logfileSizeLimit

section Steps

variable {cfg : Config} {s : FileLog}

theorem totalSize_append (earlier : List Batch) (last : Batch) :
    totalSize (earlier ++ [last]) = totalSize earlier + last.logBatch.length := by
  simp [totalSize]

theorem numbered_new (cfg : Config) : Numbered cfg (.new cfg) where
  numbers := rfl
  le := Nat.zero_le _
  size file earlier last h := by simp [FileLog.batchesOf, FileLog.new] at h
  opened := le_rfl
  batches := nofun
  opens := rfl
  opening := nofun
  current := nofun

theorem Numbered.offer (h : Numbered cfg s) (logLine : Bytes) : Numbered cfg (s.offer logLine) :=
  ⟨h.numbers, h.le, h.size, h.opened, h.batches, h.opens, h.opening, h.current⟩

theorem filter_current (s : FileLog) (logBatch : Bytes) :
    (s.batches ++ [Batch.mk s.log.logState s.log.logfile logBatch]).filter
        (fun b => b.file = s.log.logfile) =
      s.batchesOf s.log.logfile ++ [Batch.mk s.log.logState s.log.logfile logBatch] := by
  simp [FileLog.batchesOf]

theorem filter_other (s : FileLog) {batch : Batch} {file : Descriptor} (hne : batch.file ≠ file) :
    (s.batches ++ [batch]).filter (fun b => b.file = file) = s.batchesOf file := by
  simp [FileLog.batchesOf, hne]

/-- A batch for the current file, before what C does about it. -/
theorem Numbered.add_size (h : Numbered cfg s) (hstate : s.log.logState = .logIsOpen)
    (logBatch : Bytes) (file : Descriptor) (earlier : List Batch) (last : Batch)
    (hbatches : (s.batches ++ [Batch.mk s.log.logState s.log.logfile logBatch]).filter
      (fun batch => batch.file = file) = earlier ++ [last]) :
    totalSize earlier < cfg.logfileSizeLimit := by
  by_cases hfile : s.log.logfile = file
  · subst hfile
    rw [filter_current] at hbatches
    obtain ⟨rfl, -⟩ := List.append_inj' hbatches rfl
    obtain ⟨htotal, hlt⟩ := h.current hstate
    exact htotal ▸ hlt
  · rw [filter_other s hfile] at hbatches
    exact h.size file earlier last hbatches

theorem writeLog_queued {log : LogFile} (hstate : log.logState = .logIsOpen) (mesg : Bytes)
    (rotateLog : Bool) : log.writeLog mesg rotateLog .queued =
      ({ log with logState := if rotateLog then .logNotOpen else .logIsOpen },
        some (.write log.logfile mesg rotateLog)) := by
  obtain ⟨logState, logfile⟩ := log
  change logState = .logIsOpen at hstate
  subst hstate
  cases rotateLog <;> rfl

theorem Numbered.writeBatch (h : Numbered cfg s) : Numbered cfg (s.writeBatch cfg .queued) := by
  rw [FileLog.writeBatch]
  split
  · next hopen =>
    obtain ⟨hstate, -⟩ := hopen
    obtain ⟨htotal, -⟩ := h.current hstate
    have hopens : s.opens.length = 0 := by
      rw [h.opens, hstate]
      rfl
    have hbatches : ∀ logBatch : Bytes,
        ∀ batch ∈ s.batches ++ [Batch.mk s.log.logState s.log.logfile logBatch],
          batch.file.opening ≤ s.openings := by
      intro logBatch batch hmem
      obtain hmem | hmem := List.mem_append.mp hmem
      · exact h.batches batch hmem
      · rw [List.mem_singleton.mp hmem]
        exact h.opened
    simp only [writeLog_queued hstate]
    refine ⟨h.numbers, h.le, h.add_size hstate _, h.opened, hbatches _, hopens.trans ?_,
      fun hopening => ?_, fun hopen => ?_⟩
    · show 0 = if (if _ then LogState.logNotOpen else _) = _ then 1 else 0
      split <;> rfl
    · change (if _ then LogState.logNotOpen else _) = _ at hopening
      split at hopening <;> cases hopening
    · change (if _ then LogState.logNotOpen else _) = _ at hopen
      split at hopen
      · cases hopen
      · next hroom =>
        refine ⟨?_, Nat.lt_of_not_le fun hle => hroom (decide_eq_true hle)⟩
        refine (congrArg totalSize (filter_current s _)).trans ?_
        rw [totalSize_append, htotal]
        rfl
  · exact h

/-- The first half of `logToFile` leaves the log not open in the calls that open a file. -/
theorem writeBatch_notOpen_iff (cfg : Config) (s : FileLog) (logLine : Bytes) :
    ((s.offer logLine).writeBatch cfg .queued).log.logState = .logNotOpen ↔
      s.Reopens cfg logLine := by
  have hlog : (s.offer logLine).log = s.log := rfl
  have hsize : (s.offer logLine).appender.logSize = s.appender.logSize := rfl
  rw [FileLog.writeBatch, FileLog.Reopens, hlog]
  split
  · next hopen =>
    obtain ⟨hstate, hfull⟩ := hopen
    simp only [writeLog_queued hstate, hsize]
    change (if decide (_ ≤ _) = true then LogState.logNotOpen else _) = _ ↔ _
    rw [hstate]
    by_cases hrotate : cfg.logfileSizeLimit ≤ s.appender.logSize +
        (Appender.concatLogLines (takeLines (s.offer logLine).appender.logBuffer).1).length
    · rw [if_pos (decide_eq_true hrotate)]
      exact iff_of_true rfl (.inr ⟨rfl, hfull, hrotate⟩)
    · rw [if_neg (by simpa using hrotate)]
      refine iff_of_false (by rintro ⟨⟩) ?_
      rintro (hnotOpen | ⟨-, -, hfills⟩)
      · cases hnotOpen
      · exact hrotate hfills
  · next hclosed =>
    rw [hlog]
    exact (or_iff_left fun hfills => hclosed ⟨hfills.1, hfills.2.1⟩).symm

theorem Numbered.openLog (h : Numbered cfg s)
    (hleft : s.log.logState = .logNotOpen → s.appender.logSequenceNum < cfg.logfileCountLimit)
    (ts : Bytes) : Numbered cfg (s.openLog cfg ts .queued) := by
  rw [FileLog.openLog]
  split
  · next hstate =>
    have hlt := hleft hstate
    have hnext : s.appender.nextLogSequenceNum cfg = s.appender.logSequenceNum + 1 := by
      rw [Appender.nextLogSequenceNum, if_neg (by omega)]
    have hopens : s.opens = [] := by
      have := h.opens
      rw [hstate] at this
      exact List.eq_nil_of_length_eq_zero this
    rw [LogFile.openLogFile, if_pos ⟨hstate, rfl⟩, hnext]
    refine ⟨?_, hlt, h.size, h.opened, h.batches, ?_, fun _ => rfl, by rintro ⟨⟩⟩
    · show s.numbers ++ [s.appender.logSequenceNum + 1] = _
      rw [h.numbers]
      show _ = (List.range (s.appender.logSequenceNum + 1)).map _
      rw [List.range_succ, List.map_append]
      rfl
    · show (s.opens ++ [_]).length = 1
      rw [hopens]
      rfl
  · exact h

theorem follow_appender (s : FileLog) (result : LogFile × Option Request) :
    (s.follow result).appender = s.appender ∧ (s.follow result).numbers = s.numbers := by
  obtain ⟨log, _ | ⟨filename⟩ | ⟨file, mesg, rotate⟩ | ⟨file⟩⟩ := result <;> exact ⟨rfl, rfl⟩

/-- The numbers are of no concern to the first half of `logToFile`. -/
theorem writeBatch_numbers (cfg : Config) (s : FileLog) (logLine : Bytes) (writing : Submission) :
    ((s.offer logLine).writeBatch cfg writing).appender.logSequenceNum =
        s.appender.logSequenceNum ∧
      ((s.offer logLine).writeBatch cfg writing).numbers = s.numbers := by
  rw [FileLog.writeBatch]
  split
  · rw [(follow_appender _ _).1, (follow_appender _ _).2]
    exact ⟨rfl, rfl⟩
  · exact ⟨rfl, rfl⟩

theorem openLog_numbers (hstate : s.log.logState = .logNotOpen) (ts : Bytes)
    (opening : Submission) :
    (s.openLog cfg ts opening).numbers = s.numbers ++ [s.appender.nextLogSequenceNum cfg] := by
  rw [FileLog.openLog, if_pos hstate, (follow_appender _ _).2]

/-- A file that has just been opened has no batches. -/
theorem Numbered.opened_file (h : Numbered cfg s) (hsize : 1 ≤ cfg.logfileSizeLimit) {i : Nat}
    {filename : Bytes} (hget : s.opens[i]? = some filename) (result : Int) :
    Numbered cfg (s.onLogOpen i result) := by
  obtain ⟨hi, -⟩ := List.getElem?_eq_some_iff.mp hget
  have hopens := h.opens
  have hopening : s.log.logState = .openingLog := by
    by_contra hne
    rw [if_neg hne] at hopens
    omega
  rw [if_pos hopening] at hopens
  refine ⟨h.numbers, h.le, h.size, le_rfl, fun batch hmem => (h.batches batch hmem).trans
    (Nat.le_succ _), ?_, nofun, fun _ => ⟨?_, ?_⟩⟩
  · show (s.opens.eraseIdx i).length = 0
    rw [List.length_eraseIdx_of_lt hi]
    omega
  · have hnone : s.batchesOf ⟨result, s.openings + 1⟩ = [] := by
      refine List.filter_eq_nil_iff.mpr fun batch hmem hfile => ?_
      have hle := h.batches batch hmem
      rw [of_decide_eq_true hfile] at hle
      exact absurd hle (Nat.not_succ_le_self s.openings)
    show totalSize (s.batchesOf ⟨result, s.openings + 1⟩) = s.appender.logSize
    rw [hnone, h.opening hopening]
    rfl
  · show s.appender.logSize < cfg.logfileSizeLimit
    rw [h.opening hopening]
    exact hsize

/-- The callback of a write that succeeds changes nothing but the requests. -/
theorem Numbered.written (h : Numbered cfg s) (i : Nat) (rotate : Bool) {result : Int}
    (hresult : 0 ≤ result) : Numbered cfg (s.onWritten i rotate result) := by
  rw [FileLog.onWritten]
  cases rotate with
  | true => exact ⟨h.numbers, h.le, h.size, h.opened, h.batches, h.opens, h.opening, h.current⟩
  | false =>
    rw [if_neg Bool.false_ne_true, LogFile.onLogWrite, if_pos hresult]
    exact ⟨h.numbers, h.le, h.size, h.opened, h.batches, h.opens, h.opening, h.current⟩

theorem Numbered.step (h : Numbered cfg s) (hsize : 1 ≤ cfg.logfileSizeLimit) {e : LogEvent}
    {s' : FileLog} (hsucceeds : e.Succeeds) (hleft : NumberLeft cfg s e)
    (hstep : FileLog.step cfg s e = some s') : Numbered cfg s' := by
  cases e with
  | log currentTimeStr logLine ts writing opening =>
    obtain ⟨rfl, rfl⟩ := hsucceeds
    cases hstep
    refine (h.offer _).writeBatch.openLog (fun hstate => ?_) ts
    rw [(writeBatch_numbers cfg s _ _).1]
    exact hleft ((writeBatch_notOpen_iff cfg s _).mp hstate)
  | opened i result =>
    obtain ⟨filename, hget, rfl⟩ := Option.map_eq_some_iff.mp hstep
    exact h.opened_file hsize hget result
  | written i result =>
    obtain ⟨w, -, rfl⟩ := Option.map_eq_some_iff.mp hstep
    exact h.written i w.2 hsucceeds
  | closed i =>
    obtain ⟨file, -, rfl⟩ := Option.map_eq_some_iff.mp hstep
    exact ⟨h.numbers, h.le, h.size, h.opened, h.batches, h.opens, h.opening, h.current⟩

theorem Numbered.withinLimits (h : Numbered cfg s) : WithinLimits cfg s where
  size file earlier last hbatches := by
    rw [totalSize_append]
    exact Nat.add_lt_add_right (h.size file earlier last hbatches) _
  cyclic := by
    have hle := h.le
    rw [h.numbers, List.length_map, List.length_range]
    refine List.map_congr_left fun i hi => ?_
    have hlt := List.mem_range.mp hi
    rw [Nat.mod_eq_of_lt (by omega)]
  count := by
    refine (List.dedup_sublist _).length_le.trans ?_
    rw [h.numbers, List.length_map, List.length_range]
    exact h.le

/-- The number after the limit is not the first one again. -/
theorem Numbered.not_withinLimits (h : Numbered cfg s) (hcount : 1 ≤ cfg.logfileCountLimit)
    {e : LogEvent} {s' : FileLog} (hsucceeds : e.Succeeds) (hleft : ¬NumberLeft cfg s e)
    (hstep : FileLog.step cfg s e = some s') : ¬WithinLimits cfg s' := by
  cases e with
  | opened | written | closed => exact absurd trivial hleft
  | log currentTimeStr logLine ts writing opening =>
    obtain ⟨rfl, rfl⟩ := hsucceeds
    cases hstep
    obtain ⟨hreopens, hnone⟩ := Classical.not_imp.mp hleft
    have hlast : s.appender.logSequenceNum = cfg.logfileCountLimit :=
      le_antisymm h.le (Nat.le_of_not_lt hnone)
    -- the first half keeps the number, the second one takes the next
    have hnotOpen := (writeBatch_notOpen_iff cfg s _).mpr hreopens
    obtain ⟨hsequence, hkept⟩ :=
      writeBatch_numbers cfg s (currentTimeStr ++ text " " ++ logLine) .queued
    have hnumbers : (s.logToFile cfg currentTimeStr logLine ts .queued .queued).numbers =
        (List.range cfg.logfileCountLimit).map (· + 1) ++ [cfg.logfileCountLimit + 1] := by
      rw [FileLog.logToFile, openLog_numbers hnotOpen, Appender.nextLogSequenceNum, hsequence,
        hkept, h.numbers, hlast, if_neg (lt_irrefl _)]
    intro hlimits
    have hcyclic := hlimits.cyclic
    rw [hnumbers] at hcyclic
    have hlength : ((List.range cfg.logfileCountLimit).map (· + 1) ++
        [cfg.logfileCountLimit + 1]).length = cfg.logfileCountLimit + 1 := by simp
    rw [hlength, List.range_succ, List.map_append] at hcyclic
    have hnumber : cfg.logfileCountLimit + 1 =
        cfg.logfileCountLimit % cfg.logfileCountLimit + 1 :=
      (List.cons.inj (List.append_inj_right' hcyclic rfl)).1
    rw [Nat.mod_self] at hnumber
    omega

end Steps

/-- The limits are kept in exactly the runs that open no more files than there are numbers. -/
theorem within_limits_iff (cfg : Config) (hsize : 1 ≤ cfg.logfileSizeLimit)
    (hcount : 1 ≤ cfg.logfileCountLimit) (es : List LogEvent) (hes : ∀ e ∈ es, e.Succeeds) :
    Always (FileLog.step cfg) (WithinLimits cfg) (.new cfg) es ↔
      Guarded (FileLog.step cfg) (NumberLeft cfg) (.new cfg) es :=
  always_iff_guarded_within (guarded_of_forall hes) (numbered_new cfg)
    (fun _ h => h.withinLimits)
    (fun _ _ _ h hsucceeds hleft hstep => h.step hsize hsucceeds hleft hstep)
    fun _ _ _ h hsucceeds hleft hstep => h.not_withinLimits hcount hsucceeds hleft hstep

/-- One log file is to be kept. -/
def singleFileConfig : Config := { rotatingConfig with logfileCountLimit := 1 }

/-- The first file is full after one line. -/
def rotatedOnce : List LogEvent :=
  [.log [] (text "a") [] .queued .queued, .opened 0 5, .log [] (text "b") [] .queued .queued]

theorem rotatedOnce_within_limits_iff :
    Always (FileLog.step singleFileConfig) (WithinLimits singleFileConfig) (.new singleFileConfig)
        rotatedOnce ↔
      Guarded (FileLog.step singleFileConfig) (NumberLeft singleFileConfig)
        (.new singleFileConfig) rotatedOnce :=
  within_limits_iff singleFileConfig (by decide) (by decide) rotatedOnce (by decide)

/-- The second file gets the number two. -/
theorem second_number_exceeds_limit :
    ¬Always (FileLog.step singleFileConfig) (WithinLimits singleFileConfig)
      (.new singleFileConfig) rotatedOnce := by
  intro h
  have hrun : (exec (FileLog.step singleFileConfig) (.new singleFileConfig) rotatedOnce).map
      FileLog.numbers = some [1, 2] := by
    decide +kernel
  obtain ⟨s, hs, hnumbers⟩ := Option.map_eq_some_iff.mp hrun
  have hcyclic := (h.of_exec hs).cyclic
  rw [hnumbers] at hcyclic
  exact absurd hcyclic (by decide)

end Luaw.Logging
