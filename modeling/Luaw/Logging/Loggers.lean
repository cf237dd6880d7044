import Luaw.Foundations.Program
import Luaw.Webapp.Routes

/-!
# Loggers

`getLogger` and the configuration calls of `luaw_logging.lua`. A logger is a table that has its
parent as the `__index` of its metatable. Its children, its levels and, in the root, the methods
are all fields of the same tables, and all are looked up through the parents.
-/

namespace Luaw.Logging

open Lua Program

/-- A table of a logger. The number tells it from the other tables. -/
inductive LoggerTable where
  | root
  | child (id : Nat) (parent : LoggerTable)
  deriving DecidableEq

inductive LogValue where
  | method
  | number (n : Int)
  | logger (l : LoggerTable)
  deriving DecidableEq

/-- The appenders `FILE_LOG` and `SYS_LOG`. -/
inductive LogType where
  | file
  | syslog
  deriving DecidableEq

def LogType.key : LogType → Bytes
  | file => text "FILE"
  | syslog => text "SYSLOG"

def ERROR : Int := 3

def methodNames : List Bytes :=
  ["log", "logf", "emergency", "alert", "critical", "error", "warning", "notice", "info", "debug",
    "emergencyf", "alertf", "criticalf", "errorf", "warningf", "noticef", "infof", "debugf"].map text

/-- The tables, by their own fields, and how many have been made. -/
structure Loggers where
  fields : LoggerTable → Bytes → Option LogValue
  created : Nat

namespace Loggers

/-- `logRoot` with its methods; `facility` is that of the configuration, or the default. -/
def start (facility : Int) : Loggers where
  fields l key :=
    if l = .root then
      if key ∈ methodNames then some .method
      else if key = text "facility" then some (.number facility) else none
    else none
  created := 0

/-- `logger[key]`, which looks into the parents for what the logger itself does not have. -/
def index (s : Loggers) : LoggerTable → Bytes → Option LogValue
  | .root, key => s.fields .root key
  | .child id parent, key => (s.fields (.child id parent) key).or (index s parent key)

def setField (s : Loggers) (l : LoggerTable) (key : Bytes) (value : Option LogValue) : Loggers :=
  { s with fields := fun l' key' => if l' = l ∧ key' = key then value else s.fields l' key' }

/-- A new table under `logger[namePart]`. -/
def create (s : Loggers) (l : LoggerTable) (namePart : Bytes) : Loggers where
  fields l' key :=
    if l' = .child s.created l then none
    else if l' = l ∧ key = namePart then some (.logger (.child s.created l))
    else s.fields l' key
  created := s.created + 1

/-- The level that `log` and `logf` compare with. -/
def level (s : Loggers) (l : LoggerTable) (logType : LogType) : LogValue :=
  (s.index l logType.key).getD (.number ERROR)

end Loggers

abbrev LoggersM := Program LuaError Loggers

/-- What is raised when a value that is no table is indexed. -/
def notIndexed (kind : String) : LuaError :=
  text "attempt to index local 'logger' (a " ++ text kind ++ text " value)"

/-- The loop of `getLogger`. -/
def getLoggerFrom : List Bytes → LogValue → LoggersM LogValue
  | [], logger => pure logger
  | namePart :: nameParts, .logger l => do
    let s ← get
    match s.index l namePart with
    | some child => getLoggerFrom nameParts child
    | none =>
      set (s.create l namePart)
      getLoggerFrom nameParts (.logger (.child s.created l))
  | _ :: _, .number _ => raise (notIndexed "number")
  | _ :: _, .method => raise (notIndexed "function")

def splitName : Option Bytes → List Bytes
  | none => []
  | some name => Webapp.segments 46 [] name

def getLogger (name : Option Bytes) : LoggersM LogValue :=
  if name = some (text "root") then pure (.logger .root)
  else getLoggerFrom (splitName name) (.logger .root)

structure LogCfg where
  name : Option Bytes
  level : Option Int
  facility : Option Int

def assertSome {α : Type} (value : Option α) (mesg : String) : LoggersM α :=
  ofExcept (match value with | some a => .ok a | none => .error (text mesg))

def configureLogger (logCfg : LogCfg) (logType : LogType) : LoggersM LoggerTable := do
  let loggerName ← assertSome logCfg.name "Logger name missing"
  let logLevel ← assertSome logCfg.level "Logger level missing"
  match ← getLogger (some loggerName) with
  | .logger logger =>
    modify fun s => s.setField logger logType.key (some (.number logLevel))
    pure logger
  | .number _ => raise (notIndexed "number")
  | .method => raise (notIndexed "function")

def file (logCfg : LogCfg) : LoggersM Unit := do
  let _ ← configureLogger logCfg .file

def syslog (logCfg : LogCfg) : LoggersM Unit := do
  let logger ← configureLogger logCfg .syslog
  modify fun s => s.setField logger (text "facility") (logCfg.facility.map .number)

end Luaw.Logging
