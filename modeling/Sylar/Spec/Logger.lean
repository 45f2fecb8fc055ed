import Sylar.Lib.Nodes
import Sylar.Spec.HttpDump
import Sylar.Spec.LogDefine
import Sylar.Spec.LogFormatter

/-! `LogEvent`, `LogAppender`, `Logger` and `LoggerManager` of `log.cc`, with the listener on `logs`
that sets the loggers. A logger is known by its name, an appender belongs to one logger, and the
listener is one step. `has_d` is `has("d")` of the environment; `strftime` also stands for
`localtime_r`. Reopening the files, and what cannot be written, is left out. -/

namespace Sylar

open Lib

def LogLevel.value : LogLevel → ℕ
  | UNKNOW => 0
  | DEBUG => 1
  | INFO => 2
  | WARN => 3
  | ERROR => 4
  | FATAL => 5

structure LogEvent where
  m_logger : List UInt8
  m_level : LogLevel
  m_file : List UInt8
  m_line : ℤ
  m_elapse : UInt32
  m_threadId : UInt32
  m_fiberId : UInt32
  m_time : UInt64
  m_threadName : List UInt8
  m_ss : List UInt8
deriving DecidableEq

section

variable (strftime : List UInt8 → UInt64 → List UInt8)

def FormatItem.format (level : LogLevel) (event : LogEvent) : FormatItem → List UInt8
  | MessageFormatItem => event.m_ss
  | LevelFormatItem => level.toString
  | ElapseFormatItem => decimalText event.m_elapse.toNat
  | NameFormatItem => event.m_logger
  | ThreadIdFormatItem => decimalText event.m_threadId.toNat
  | NewLineFormatItem => [0x0A]
  | DateTimeFormatItem m_format => strftime m_format event.m_time
  | FilenameFormatItem => event.m_file
  | LineFormatItem => ascii (toString event.m_line)
  | TabFormatItem => [0x09]
  | FiberIdFormatItem => decimalText event.m_fiberId.toNat
  | ThreadNameFormatItem => event.m_threadName
  | StringFormatItem m_string => m_string

def LogFormatter.format (f : LogFormatter) (level : LogLevel) (event : LogEvent) : List UInt8 :=
  f.m_items.flatMap (FormatItem.format strftime level event)

end

inductive LogTarget where
  | file (m_filename : List UInt8)
  | stdout
deriving DecidableEq

inductive LogFault where
  | nullPointer
  | deepRoot
deriving DecidableEq

structure LogAppender where
  target : LogTarget
  m_level : LogLevel
  m_hasFormatter : Bool
  m_formatter : Option LogFormatter
deriving DecidableEq

namespace LogAppender

def new (target : LogTarget) : LogAppender := ⟨target, .DEBUG, false, none⟩

def setLevel (a : LogAppender) (val : LogLevel) : LogAppender := { a with m_level := val }

def setFormatter (a : LogAppender) (val : Option LogFormatter) : LogAppender :=
  { a with m_formatter := val, m_hasFormatter := val.isSome }

def log (strftime : List UInt8 → UInt64 → List UInt8) (level : LogLevel) (event : LogEvent)
    (a : LogAppender) : Except LogFault (List (LogTarget × List UInt8)) :=
  if a.m_level.value ≤ level.value then
    match a.m_formatter with
    | none => .error .nullPointer
    | some f => .ok [(a.target, f.format strftime level event)]
  else .ok []

end LogAppender

/-- `m_root` is whether there is one: it is the logger of this name. -/
structure Logger where
  m_name : List UInt8
  m_level : LogLevel
  m_appenders : List LogAppender
  m_formatter : LogFormatter
  m_root : Bool
deriving DecidableEq

namespace Logger

def defaultPattern : List UInt8 :=
  ascii "%d\x7b%Y-%m-%d %H:%M:%S\x7d%T%t%T%N%T%F%T[%p]%T[%c]%T%f:%l%T%m%n"

def new (name : List UInt8) : Logger := ⟨name, .DEBUG, [], .init defaultPattern, false⟩

variable (l : Logger)

def setLevel (val : LogLevel) : Logger := { l with m_level := val }

def setFormatter (val : LogFormatter) : Logger :=
  { l with
    m_formatter := val
    m_appenders := l.m_appenders.map fun i =>
      if i.m_hasFormatter then i else { i with m_formatter := some val } }

def setPattern (val : List UInt8) : Logger :=
  let new_val := LogFormatter.init val
  if new_val.m_error then l else l.setFormatter new_val

def addAppender (appender : LogAppender) : Logger :=
  { l with m_appenders := l.m_appenders ++ [
      if appender.m_formatter.isNone then { appender with m_formatter := some l.m_formatter }
      else appender] }

def clearAppenders : Logger := { l with m_appenders := [] }

end Logger

structure LoggerManager where
  m_loggers : List (List UInt8 × Logger)
deriving DecidableEq

namespace LoggerManager

def root : List UInt8 := ascii "root"

def init : LoggerManager := ⟨[(root, (Logger.new root).addAppender (.new .stdout))]⟩

variable (m : LoggerManager)

def logger (name : List UInt8) : Logger :=
  (Assoc.find m.m_loggers name).getD { Logger.new name with m_root := true }

/-- A call on the logger that `getLogger` returns. -/
def on (name : List UInt8) (f : Logger → Logger) : LoggerManager :=
  ⟨Assoc.set m.m_loggers name (f (m.logger name))⟩

def getLogger (name : List UInt8) : LoggerManager := m.on name id

/-- `log` of the logger `name`, which goes on at most `fuel` times to a root. -/
def logFrom (strftime : List UInt8 → UInt64 → List UInt8) (level : LogLevel) (event : LogEvent) :
    ℕ → List UInt8 → Except LogFault (List (LogTarget × List UInt8))
  | 0, _ => .error .deepRoot
  | fuel + 1, name =>
      let l := m.logger name
      if l.m_level.value ≤ level.value then
        if l.m_appenders ≠ [] then (l.m_appenders.mapM (LogAppender.log strftime level event)).map List.flatten
        else if l.m_root then logFrom strftime level event fuel root
        else .ok []
      else .ok []

/-- `SYLAR_LOG_LEVEL(logger, level)`, with the event that the `LogEventWrap` logs at its end. -/
def logEvent (strftime : List UInt8 → UInt64 → List UInt8) (event : LogEvent) :
    Except LogFault (List (LogTarget × List UInt8)) :=
  if (m.logger event.m_logger).m_level.value ≤ event.m_level.value then
    m.logFrom strftime event.m_level event 2 event.m_logger
  else .ok []

variable (has_d : Bool)

/-- The appender of a definition, whose type is 1 or 2; none is `continue`. -/
def appenderOf (a : LogAppenderDefine) : Option LogAppender :=
  if a.type = 2 ∧ has_d then none
  else
    let ap := LogAppender.new (if a.type = 1 then .file a.file else .stdout)
    let ap := ap.setLevel a.level
    if a.formatter ≠ [] then
      let fmt := LogFormatter.init a.formatter
      some (if fmt.m_error then ap else ap.setFormatter (some fmt))
    else some ap

def addDefined (l : Logger) (a : LogAppenderDefine) : Logger :=
  match appenderOf has_d a with
  | none => l
  | some ap => l.addAppender ap

def configure (i : LogDefine) (l : Logger) : Logger :=
  let l := l.setLevel i.level
  let l := if i.formatter ≠ [] then l.setPattern i.formatter else l
  i.appenders.foldl (addDefined has_d) l.clearAppenders

def takeDown (l : Logger) : Logger := (l.setLevel .UNKNOW).clearAppenders

def configureChanged (old_value : List LogDefine) (m : LoggerManager) (i : LogDefine) : LoggerManager :=
  match old_value.find? fun it => it.name = i.name with
  | none => m.on i.name (configure has_d i)
  | some it => if i.eq it then m else m.on i.name (configure has_d i)

def takeDownGone (new_value : List LogDefine) (m : LoggerManager) (i : LogDefine) : LoggerManager :=
  match new_value.find? fun it => it.name = i.name with
  | none => m.on i.name takeDown
  | some _ => m

def onChange (old_value new_value : List LogDefine) : LoggerManager :=
  old_value.foldl (takeDownGone new_value) (new_value.foldl (configureChanged has_d old_value) m)

end LoggerManager

/-- A `std::set<LogDefine>`. There is no appender of another type. -/
structure LogDefines where
  defines : List LogDefine
  sorted : defines.Pairwise fun a b => a.name < b.name
  types : ∀ i ∈ defines, ∀ a ∈ i.appenders, a.type = 1 ∨ a.type = 2
deriving DecidableEq

/-- The loggers and `g_log_defines`. `values` is a record of the values that were given. -/
structure LogSystem where
  loggers : LoggerManager
  m_val : LogDefines
  values : List LogDefines
deriving DecidableEq

namespace LogSystem

inductive Move where
  | setValue (v : LogDefines)
  | getLogger (name : List UInt8)
deriving DecidableEq

def init : LogSystem := ⟨.init, ⟨[], .nil, fun _ h => by cases h⟩, []⟩

/-- `setValue` of `g_log_defines`, whose only listener is the one above, and `SYLAR_LOG_NAME`. -/
def step (has_d : Bool) (s : LogSystem) : Move → LogSystem
  | .setValue v =>
      { loggers := if v = s.m_val then s.loggers else s.loggers.onChange has_d s.m_val.defines v.defines
        m_val := v
        values := s.values ++ [v] }
  | .getLogger name => { s with loggers := s.loggers.getLogger name }

end LogSystem

end Sylar
