import Luaw.Lua.Number

/-!
# The log file

`luaw_logging.c` writes the log with asynchronous calls of libuv, and `logToFile` of
`luaw_logging.lua` decides when to write, to rotate and to open the log. The functions of C return
the calls of libuv that they make.
-/

namespace Luaw.Logging

open Lua (decimal)

/-- `logfile_sate`. -/
inductive LogState where
  | logNotOpen
  | openingLog
  | logIsOpen
  deriving DecidableEq, Repr

/-- A `uv_file`, which is the result of an open, also of one that failed. The number of the
opening is not in the source: a file number may be given out again after its file was closed. -/
structure Descriptor where
  fd : Int
  opening : Nat
  deriving DecidableEq, Repr

/-- The static variables of `luaw_logging.c`. -/
structure LogFile where
  logState : LogState
  logfile : Descriptor
  deriving DecidableEq, Repr

/-- A call of `uv_fs_open`, `uv_fs_write` or `uv_fs_close` that libuv has taken. -/
inductive Request where
  | openFile (filename : Bytes)
  | write (file : Descriptor) (mesg : Bytes) (rotate : Bool)
  | close (file : Descriptor)
  deriving DecidableEq, Repr

/-- What becomes of a call of libuv: there is no memory for it, libuv refuses it, or takes it. -/
inductive Submission where
  | notAllocated
  | refused
  | queued
  deriving DecidableEq, Repr

namespace LogFile

/-- The callback of an open, which does not look at the result. -/
def onLogOpen (log : LogFile) (result : Descriptor) : LogFile :=
  { log with logfile := result, logState := .logIsOpen }

def openLogFile (log : LogFile) (filename : Bytes) (submission : Submission) :
    LogFile × Option Request :=
  if log.logState = .logNotOpen ∧ submission = .queued then
    ({ log with logState := .openingLog }, some (.openFile filename))
  else (log, none)

/-- The data of the request is the address of `logfile`, so the file closed is the one that is
there now. -/
def closeLog (log : LogFile) : Request := .close log.logfile

/-- The callback of a write that does not rotate the log. -/
def onLogWrite (log : LogFile) (result : Int) : LogFile × Option Request :=
  if 0 ≤ result then (log, none)
  else
    let log := { log with logState := .logNotOpen }
    (log, some log.closeLog)

/-- The callback of a write that rotates the log is `close_log`. -/
def onRotatingWrite (log : LogFile) : LogFile × Option Request := (log, some log.closeLog)

/-- The state of the log afterwards is also what the caller gets. -/
def writeLog (log : LogFile) (mesg : Bytes) (rotateLog : Bool) (submission : Submission) :
    LogFile × Option Request :=
  if log.logState = .logIsOpen ∧ submission ≠ .notAllocated then
    if rotateLog then
      let log := { log with logState := .logNotOpen }
      (log, if submission = .queued then some (.write log.logfile mesg true) else none)
    else if submission = .queued then (log, some (.write log.logfile mesg false))
    else
      let log := { log with logState := .logNotOpen }
      (log, some log.closeLog)
  else (log, none)

end LogFile

/-- `luaw_log_config`. -/
structure Config where
  logDir : Bytes
  noOfLogLinesToBuffer : Nat
  logfileBaseName : Bytes
  logfileSizeLimit : Nat
  logfileCountLimit : Nat

/-- The variables of `luaw_logging.lua`. -/
structure Logger where
  logSequenceNum : Nat
  logSize : Nat
  logBuffer : List Bytes
  noOfLogLinesDropped : Nat

namespace Logger

def new : Logger := ⟨0, 0, [], 0⟩

/-- `logBuffer:offer`: a full ring buffer drops its oldest line. -/
def offer (cfg : Config) (logger : Logger) (logLine : Bytes) : Logger :=
  if logger.logBuffer.length < cfg.noOfLogLinesToBuffer + 32 then
    { logger with logBuffer := logger.logBuffer ++ [logLine] }
  else
    { logger with
      logBuffer := logger.logBuffer.drop 1 ++ [logLine]
      noOfLogLinesDropped := logger.noOfLogLinesDropped + 1 }

def nextLogSequenceNum (cfg : Config) (logger : Logger) : Nat :=
  (if cfg.logfileCountLimit < logger.logSequenceNum then 0 else logger.logSequenceNum) + 1

def concatLogLines (logger : Logger) : Bytes := logger.logBuffer.flatMap (· ++ [10])

/-- `ts` is the time in the format for file names. -/
def fileName (cfg : Config) (logger : Logger) (ts : Bytes) : Bytes :=
  cfg.logDir ++ text "/" ++ cfg.logfileBaseName ++ text "-" ++ ts ++ text "-" ++
    decimal (logger.nextLogSequenceNum cfg) ++ text ".log"

end Logger

end Luaw.Logging
