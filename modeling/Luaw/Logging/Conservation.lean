import Luaw.Logging.Appender

/-!
# Conservation of log lines

Between the calls of `logToFile` and the callbacks of libuv every line is in the buffer, or has been
written or dropped.
-/

namespace Luaw.Logging

open Transition

namespace FileLog

def writtenLines (s : FileLog) : List Bytes := (s.departed.filter Prod.snd).map Prod.fst

def droppedLines (s : FileLog) : List Bytes := (s.departed.filter fun line => !line.2).map Prod.fst

end FileLog

/-- The buffer has the lines `held`. The lines that left it, each with its mark, and those it has
are the lines logged; the batches are the written ones, and the next call drops at most the oldest
line, to make room. -/
structure Conserves (cfg : Config) (s : FileLog) (held : List Bytes) : Prop where
  holds : s.appender.logBuffer.Holds held
  size : s.appender.logBuffer.size = cfg.noOfLogLinesToBuffer + 32
  order : s.departed.map Prod.fst ++ held = s.logged
  batches : ∃ chunks : List (List Bytes), chunks.flatten = s.writtenLines ∧
    s.batches.map Batch.logBatch = chunks.map fun lines => lines.flatMap (· ++ [10])
  dropped : s.appender.noOfLogLinesDropped = s.droppedLines.length
  drops : ∀ currentTimeStr logLine ts writing opening,
    (s.logToFile cfg currentTimeStr logLine ts writing opening).droppedLines =
      s.droppedLines ++ if held.length < cfg.noOfLogLinesToBuffer + 32 then [] else held.take 1
  isOpen : ∀ batch ∈ s.batches, batch.logState = .logIsOpen

/-- The part of `Conserves` that is about one state. -/
structure Kept (cfg : Config) (s : FileLog) (held : List Bytes) : Prop where
  holds : s.appender.logBuffer.Holds held
  size : s.appender.logBuffer.size = cfg.noOfLogLinesToBuffer + 32
  order : s.departed.map Prod.fst ++ held = s.logged
  batches : ∃ chunks : List (List Bytes), chunks.flatten = s.writtenLines ∧
    s.batches.map Batch.logBatch = chunks.map fun lines => lines.flatMap (· ++ [10])
  dropped : s.appender.noOfLogLinesDropped = s.droppedLines.length
  isOpen : ∀ batch ∈ s.batches, batch.logState = .logIsOpen

section Steps

variable {cfg : Config} {s : FileLog} {held : List Bytes}

theorem kept_new (cfg : Config) : Kept cfg (.new cfg) [] where
  holds := RingBuffer.holds_new (Nat.le_add_left 1 _)
  size := rfl
  order := rfl
  batches := ⟨[], rfl, rfl⟩
  dropped := rfl
  isOpen := nofun

/-- The requests that C makes do not touch the variables of Lua. -/
theorem Kept.follow (h : Kept cfg s held) (result : LogFile × Option Request) :
    Kept cfg (s.follow result) held := by
  obtain ⟨log, _ | ⟨filename⟩ | ⟨file, mesg, rotate⟩ | ⟨file⟩⟩ := result <;>
    exact ⟨h.holds, h.size, h.order, h.batches, h.dropped, h.isOpen⟩

theorem follow_droppedLines (s : FileLog) (result : LogFile × Option Request) :
    (s.follow result).droppedLines = s.droppedLines := by
  obtain ⟨log, _ | ⟨filename⟩ | ⟨file, mesg, rotate⟩ | ⟨file⟩⟩ := result <;> rfl

/-- The line that an offer drops. -/
theorem Kept.offer_droppedLines (h : Kept cfg s held) (logLine : Bytes) :
    (s.offer logLine).droppedLines = s.droppedLines ++
      if held.length < cfg.noOfLogLinesToBuffer + 32 then [] else held.take 1 := by
  rw [FileLog.droppedLines, FileLog.offer_departed h.holds, BoundedQueue.displace, h.size,
    List.filter_append, List.map_append]
  congr 1
  split
  · rfl
  · cases held <;> rfl

theorem offer_writtenLines (h : s.appender.logBuffer.Holds held) (logLine : Bytes) :
    (s.offer logLine).writtenLines = s.writtenLines := by
  rw [FileLog.writtenLines, FileLog.offer_departed h, List.filter_append, List.map_append,
    List.filter_map]
  simp [FileLog.writtenLines]

theorem Kept.offer (h : Kept cfg s held) (logLine : Bytes) :
    ∃ held', Kept cfg (s.offer logLine) held' := by
  obtain ⟨-, hholds, hsize⟩ := h.holds.offerWithOverwrite logLine
  refine ⟨_, ⟨hholds, hsize.trans h.size, ?_, ?_, ?_, h.isOpen⟩⟩
  · show (s.offer logLine).departed.map Prod.fst ++ _ = s.logged ++ [logLine]
    rw [FileLog.offer_departed h.holds, ← h.order, BoundedQueue.displace]
    split
    · simp
    · -- what leaves the buffer stood at its head
      cases hheld : held with
      | nil =>
        have := h.size
        simp_all
      | cons oldest held => simp
  · rw [offer_writtenLines h.holds]
    exact h.batches
  · rw [FileLog.offer_dropped h.holds, h.offer_droppedLines, h.dropped, h.size,
      List.length_append]
    split
    · rfl
    · next hfull =>
      rw [List.length_take, Nat.min_eq_left (by omega)]

theorem map_fst_marked (lines : List Bytes) (mark : Bool) :
    (lines.map fun line => (line, mark)).map Prod.fst = lines := by
  rw [List.map_map]
  exact List.map_id lines

theorem takeLines_marked (lines : List Bytes) :
    ((lines.map fun line => (line, true)).filter Prod.snd).map Prod.fst = lines := by
  rw [List.filter_eq_self.mpr (by simp), map_fst_marked]

theorem Kept.writeBatch (h : Kept cfg s held) (writing : Submission) :
    ∃ held', Kept cfg (s.writeBatch cfg writing) held' := by
  obtain ⟨hlines, hempty, hsize⟩ := takeLines_holds h.holds
  rw [FileLog.writeBatch]
  split
  · next hopen =>
    refine ⟨[], Kept.follow ?_ _⟩
    refine ⟨hempty, hsize.trans h.size, ?_, ?_, ?_, fun batch hmem => ?_⟩
    · show (s.departed ++ (takeLines s.appender.logBuffer).1.map _).map Prod.fst ++ [] = s.logged
      rw [hlines, ← h.order, List.map_append, map_fst_marked, List.append_nil]
    · obtain ⟨chunks, hflat, hbatches⟩ := h.batches
      refine ⟨chunks ++ [held], ?_, ?_⟩
      · rw [List.flatten_append, hflat, List.flatten_singleton]
        show _ = ((s.departed ++ (takeLines s.appender.logBuffer).1.map _).filter _).map _
        rw [hlines, List.filter_append, List.map_append, takeLines_marked]
        rfl
      · show (s.batches ++ [_]).map _ = _
        rw [List.map_append, hbatches, List.map_append, List.map_singleton, hlines,
          concatLogLines_eq]
        rfl
    · rw [h.dropped]
      show _ = (((s.departed ++ (takeLines s.appender.logBuffer).1.map _).filter _).map _).length
      simp [FileLog.droppedLines]
    · obtain hmem | hmem := List.mem_append.mp hmem
      · exact h.isOpen batch hmem
      · rw [List.mem_singleton.mp hmem]
        exact hopen.1
  · exact ⟨held, h⟩

theorem writeBatch_droppedLines (cfg : Config) (s : FileLog) (writing : Submission) :
    (s.writeBatch cfg writing).droppedLines = s.droppedLines := by
  rw [FileLog.writeBatch]
  split
  · rw [follow_droppedLines]
    simp [FileLog.droppedLines]
  · rfl

theorem openLog_droppedLines (cfg : Config) (s : FileLog) (ts : Bytes) (opening : Submission) :
    (s.openLog cfg ts opening).droppedLines = s.droppedLines := by
  rw [FileLog.openLog]
  split
  · rw [follow_droppedLines]
    rfl
  · rfl

theorem Kept.openLog (h : Kept cfg s held) (ts : Bytes) (opening : Submission) :
    Kept cfg (s.openLog cfg ts opening) held := by
  rw [FileLog.openLog]
  split
  · refine Kept.follow ?_ _
    exact ⟨h.holds, h.size, h.order, h.batches, h.dropped, h.isOpen⟩
  · exact h

theorem Kept.step {e : LogEvent} {s' : FileLog} (h : Kept cfg s held)
    (hstep : FileLog.step cfg s e = some s') : ∃ held', Kept cfg s' held' := by
  cases e with
  | log currentTimeStr logLine ts writing opening =>
    cases hstep
    obtain ⟨held₁, hoffered⟩ := h.offer (currentTimeStr ++ text " " ++ logLine)
    obtain ⟨held₂, hwritten⟩ := hoffered.writeBatch writing
    exact ⟨held₂, hwritten.openLog ts opening⟩
  | opened i result =>
    obtain ⟨filename, -, rfl⟩ := Option.map_eq_some_iff.mp hstep
    exact ⟨held, h.holds, h.size, h.order, h.batches, h.dropped, h.isOpen⟩
  | written i result =>
    obtain ⟨w, -, rfl⟩ := Option.map_eq_some_iff.mp hstep
    refine ⟨held, Kept.follow ?_ _⟩
    exact ⟨h.holds, h.size, h.order, h.batches, h.dropped, h.isOpen⟩
  | closed i =>
    obtain ⟨file, -, rfl⟩ := Option.map_eq_some_iff.mp hstep
    exact ⟨held, h.holds, h.size, h.order, h.batches, h.dropped, h.isOpen⟩

theorem Kept.conserves (h : Kept cfg s held) : Conserves cfg s held where
  holds := h.holds
  size := h.size
  order := h.order
  batches := h.batches
  dropped := h.dropped
  drops currentTimeStr logLine ts writing opening := by
    rw [FileLog.logToFile, openLog_droppedLines, writeBatch_droppedLines, h.offer_droppedLines]
  isOpen := h.isOpen

end Steps

end Luaw.Logging
