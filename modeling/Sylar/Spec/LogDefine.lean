import Sylar.Spec.Http

/-! `LogDefine` of `log.cc`, which is kept as YAML: the two `LexicalCast`s, and what a listener takes
for a change. The YAML library is a parameter: its nodes with what is done to them, `emit` and `load`.
What is written to `std::cout` is left out. -/

namespace Sylar

namespace YAML

inductive Exception where
  /-- `std::logic_error`, from the caller -/
  | logicError (what : String)
  | badSubscript
  | badConversion
  | parserException
deriving DecidableEq

end YAML

open YAML

/-- `YAML::Node`. `sequence` is what `push_back` makes. -/
class YamlNode (N : Type) where
  null : N
  scalar : List UInt8 → N
  sequence : List N → N
  /-- `n[key]`, with `none` for a node that is not defined -/
  get : N → String → Except Exception (Option N)
  /-- `n[key] = value` -/
  assign : N → String → N → N
  /-- `n[key].push_back(value)` -/
  pushBack : N → String → N → N
  /-- `as<std::string>()` -/
  asString : N → Except Exception (List UInt8)
  /-- `n[0]` to `n[n.size() - 1]` -/
  elements : N → List N

inductive LogLevel where
  | UNKNOW | DEBUG | INFO | WARN | ERROR | FATAL
deriving DecidableEq, Repr

namespace LogLevel

def toString : LogLevel → List UInt8
  | DEBUG => ascii "DEBUG"
  | INFO => ascii "INFO"
  | WARN => ascii "WARN"
  | ERROR => ascii "ERROR"
  | FATAL => ascii "FATAL"
  | UNKNOW => ascii "UNKNOW"

def fromString (str : List UInt8) : LogLevel :=
  if str = ascii "debug" ∨ str = ascii "DEBUG" then DEBUG
  else if str = ascii "info" ∨ str = ascii "INFO" then INFO
  else if str = ascii "warn" ∨ str = ascii "WARN" then WARN
  else if str = ascii "error" ∨ str = ascii "ERROR" then ERROR
  else if str = ascii "fatal" ∨ str = ascii "FATAL" then FATAL
  else UNKNOW

end LogLevel

/-- `type` is 1 for a file and 2 for the standard output. -/
structure LogAppenderDefine where
  type : ℤ
  level : LogLevel
  formatter : List UInt8
  file : List UInt8
deriving DecidableEq, Repr

def LogAppenderDefine.eq (a other : LogAppenderDefine) : Bool :=
  a.type = other.type ∧ a.level = other.level ∧ a.formatter = other.formatter ∧ a.file = other.file

structure LogDefine where
  name : List UInt8
  level : LogLevel
  formatter : List UInt8
  appenders : List LogAppenderDefine
deriving DecidableEq, Repr

/-- `operator==`, which compares the appenders one by one. -/
def LogDefine.eq (d other : LogDefine) : Bool :=
  d.name = other.name ∧ d.level = other.level ∧ d.formatter = other.formatter ∧
    d.appenders.length = other.appenders.length ∧
    (d.appenders.zip other.appenders).all fun p => p.1.eq p.2

section

open YamlNode

variable {N : Type} [YamlNode N]

/-- `if(a["formatter"].IsDefined()) lad.formatter = ..` -/
def readFormatter (a : N) : Except Exception (List UInt8) := do
  let formatter ← get a "formatter"
  formatter.elim (.ok []) asString

/-- The `file` and the rest of an appender; none without a file. -/
def readFileAppender (a : N) : Except Exception (Option LogAppenderDefine) := do
  let file ← get a "file"
  file.elim (.ok none) fun f => do
    let file ← asString f
    let formatter ← readFormatter a
    .ok (some { type := 1, level := .UNKNOW, formatter := formatter, file := file })

/-- The body of the loop over the appenders; none is `continue`. -/
def readAppender (a : N) : Except Exception (Option LogAppenderDefine) := do
  let type ← get a "type"
  type.elim (.ok none) fun t => do
    let type ← asString t
    if type = ascii "FileLogAppender" then readFileAppender a
    else if type = ascii "StdoutLogAppender" then do
      let formatter ← readFormatter a
      .ok (some { type := 2, level := .UNKNOW, formatter := formatter, file := [] })
    else .ok none

def readAppenders : List N → Except Exception (List LogAppenderDefine)
  | [] => .ok []
  | a :: rest => do
      let lad ← readAppender a
      let lads ← readAppenders rest
      .ok (lad.toList ++ lads)

def castToLogDefine (load : List UInt8 → Except Exception N) (v : List UInt8) :
    Except Exception LogDefine := do
  let n ← load v
  let name ← get n "name"
  name.elim (.error (.logicError "log config name is null")) fun nameNode => do
    let name ← asString nameNode
    let level ← get n "level"
    let level ← level.elim (.ok []) asString
    let formatter ← readFormatter n
    let appenders ← get n "appenders"
    let appenders ← readAppenders (appenders.elim [] elements)
    .ok {
      name := name
      level := LogLevel.fromString level
      formatter := formatter
      appenders := appenders }

def LogAppenderDefine.node (a : LogAppenderDefine) : N :=
  let na : N :=
    if a.type = 1 then
      assign (assign null "type" (scalar (ascii "FileLogAppender"))) "file" (scalar a.file)
    else if a.type = 2 then assign null "type" (scalar (ascii "StdoutLogAppender"))
    else null
  let na := if a.level ≠ .UNKNOW then assign na "level" (scalar a.level.toString) else na
  if a.formatter ≠ [] then assign na "formatter" (scalar a.formatter) else na

def LogDefine.node (i : LogDefine) : N :=
  let n : N := assign null "name" (scalar i.name)
  let n := if i.level ≠ .UNKNOW then assign n "level" (scalar i.level.toString) else n
  let n := if i.formatter ≠ [] then assign n "formatter" (scalar i.formatter) else n
  i.appenders.foldl (fun n a => pushBack n "appenders" a.node) n

def castToString (emit : N → List UInt8) (i : LogDefine) : List UInt8 := emit i.node

end

/-- The loggers that the listener on `logs` sets anew or takes down; a set is ordered by name, so
`find` looks for the name. -/
def changedLoggers (old_value new_value : List LogDefine) : List (List UInt8) :=
  (new_value.filter fun i =>
    (old_value.find? fun it => it.name = i.name).elim true fun it => !(i.eq it)).map LogDefine.name ++
  (old_value.filter fun i => (new_value.find? fun it => it.name = i.name).isNone).map LogDefine.name

end Sylar
