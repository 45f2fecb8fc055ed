import Sylar.Proofs.LogDefine
import Sylar.Spec.Logger

/-! What is logged depends on the values that `logs` has had, and on nothing else: level and
appenders come from the last one, while a formatter stays until another is given. The last value
of a history is the last of the list. -/

namespace Sylar

open Lib

/-- Where a line goes to, with the formatter if it is not that of the logger. -/
structure LogSink where
  target : LogTarget
  level : LogLevel
  own : Option LogFormatter
deriving DecidableEq

def usable (pattern : List UInt8) : Option LogFormatter :=
  if pattern = [] ∨ (LogFormatter.init pattern).m_error then none else some (.init pattern)

def LogAppenderDefine.sink (has_d : Bool) (a : LogAppenderDefine) : Option LogSink :=
  if a.type = 2 ∧ has_d then none
  else some ⟨if a.type = 1 then .file a.file else .stdout, a.level, usable a.formatter⟩

def LogDefine.sinks (has_d : Bool) (i : LogDefine) : List LogSink :=
  i.appenders.filterMap (LogAppenderDefine.sink has_d)

def LogDefines.define (v : LogDefines) (name : List UInt8) : Option LogDefine :=
  v.defines.find? fun i => i.name = name

namespace LogHistory

variable (has_d : Bool) (values : List LogDefines) (name : List UInt8)

def current : Option LogDefine := values.getLast?.bind fun v => v.define name

def everDefined : Bool := values.any fun v => (v.define name).isSome

/-- A logger that is no longer defined takes everything. -/
def level : LogLevel :=
  match current values name with
  | some i => i.level
  | none => if everDefined values name then .UNKNOW else .DEBUG

/-- The last usable formatter that was given, also if it is not in the last value. -/
def formatter : LogFormatter :=
  ((values.filterMap fun v => (v.define name).bind fun i => usable i.formatter).getLast?).getD
    (.init Logger.defaultPattern)

def sinks : List LogSink :=
  match current values name with
  | some i => i.sinks has_d
  | none =>
      if name = LoggerManager.root ∧ everDefined values name = false then [⟨.stdout, .DEBUG, none⟩] else []

section

variable (strftime : List UInt8 → UInt64 → List UInt8) (event : LogEvent)

def writes : List (LogTarget × List UInt8) :=
  (sinks has_d values name).filterMap fun k =>
    if k.level.value ≤ event.m_level.value then
      some (k.target, (k.own.getD (formatter values name)).format strftime event.m_level event)
    else none

/-- What is written of an event: a logger without sinks leaves it to the root. -/
def eventLines : List (LogTarget × List UInt8) :=
  let name := event.m_logger
  if (level values name).value ≤ event.m_level.value then
    if sinks has_d values name ≠ [] then writes has_d values name strftime event
    else if name ≠ LoggerManager.root ∧
        (level values LoggerManager.root).value ≤ event.m_level.value then
      writes has_d values LoggerManager.root strftime event
    else []
  else []

end

end LogHistory

/-- A sink as an appender of a logger with the formatter `f`. -/
def LogSink.attach (f : LogFormatter) (k : LogSink) : LogAppender :=
  ⟨k.target, k.level, k.own.isSome, some (k.own.getD f)⟩

namespace LoggerManager

variable {has_d : Bool}

theorem setPattern_eq (l : Logger) (pattern : List UInt8) :
    (if pattern ≠ [] then l.setPattern pattern else l).clearAppenders =
      { l with m_appenders := [], m_formatter := (usable pattern).getD l.m_formatter } := by
  unfold usable Logger.setPattern
  by_cases hnil : pattern = []
  · simp [hnil, Logger.clearAppenders]
  · by_cases herror : (LogFormatter.init pattern).m_error = true
    · simp [hnil, herror, Logger.clearAppenders]
    · simp [hnil, herror, Logger.clearAppenders, Logger.setFormatter]

theorem addDefined_eq (l : Logger) (a : LogAppenderDefine) : addDefined has_d l a =
    { l with m_appenders := l.m_appenders ++
      ((a.sink has_d).map (LogSink.attach l.m_formatter)).toList } := by
  unfold addDefined appenderOf LogAppenderDefine.sink usable
  by_cases hskip : a.type = 2 ∧ has_d = true
  · simp [hskip]
  · by_cases hnil : a.formatter = []
    · simp [hskip, hnil, Logger.addAppender, LogAppender.setLevel, LogAppender.new, LogSink.attach]
    · by_cases herror : (LogFormatter.init a.formatter).m_error = true
      · simp [hskip, hnil, herror, Logger.addAppender, LogAppender.setLevel, LogAppender.new, LogSink.attach]
      · simp [hskip, hnil, herror, Logger.addAppender, LogAppender.setLevel, LogAppender.setFormatter,
          LogAppender.new, LogSink.attach]

theorem foldl_addDefined (as : List LogAppenderDefine) (l : Logger) : as.foldl (addDefined has_d) l =
    { l with m_appenders := l.m_appenders ++
      (as.filterMap (LogAppenderDefine.sink has_d)).map (LogSink.attach l.m_formatter) } := by
  induction as generalizing l with
  | nil => simp
  | cons a as ih =>
    rw [List.foldl_cons, addDefined_eq, ih]
    cases hsink : a.sink has_d with
    | none => simp [hsink]
    | some k => simp [hsink]

/-- Nothing of the logger's old appenders is left, nor of its formatter when it gets another one. -/
theorem configure_eq (i : LogDefine) (l : Logger) : configure has_d i l =
    { l with
      m_level := i.level
      m_formatter := (usable i.formatter).getD l.m_formatter
      m_appenders := (i.sinks has_d).map (LogSink.attach ((usable i.formatter).getD l.m_formatter)) } := by
  have hpattern := setPattern_eq (l.setLevel i.level) i.formatter
  unfold configure
  simp only at hpattern ⊢
  rw [foldl_addDefined, hpattern]
  simp [LogDefine.sinks, Logger.setLevel]

theorem logger_on (m : LoggerManager) (name name' : List UInt8) (f : Logger → Logger) :
    (m.on name f).logger name' = if name = name' then f (m.logger name) else m.logger name' := by
  unfold on logger
  rw [Assoc.find_set]
  split
  · rfl
  · rfl

theorem logger_foldl {g : LoggerManager → LogDefine → LoggerManager} {h : LogDefine → Logger → Logger}
    (hg : ∀ m i name, (g m i).logger name = if i.name = name then h i (m.logger name) else m.logger name)
    (name : List UInt8) {defines : List LogDefine} (hnames : (defines.map LogDefine.name).Nodup)
    (m : LoggerManager) : (defines.foldl g m).logger name =
      match defines.find? fun i => i.name = name with
      | some i => h i (m.logger name)
      | none => m.logger name := by
  induction defines generalizing m with
  | nil => rfl
  | cons i defines ih =>
    rw [List.map_cons, List.nodup_cons] at hnames
    rw [List.foldl_cons, ih hnames.2, List.find?_cons, hg]
    by_cases hi : i.name = name
    · have hnone : (defines.find? fun i => i.name = name) = none := by
        rw [List.find?_eq_none]
        intro j hj hname
        exact hnames.1 (List.mem_map.mpr ⟨j, hj, (of_decide_eq_true hname).trans hi.symm⟩)
      simp [hi, hnone]
    · simp [hi]

theorem logger_configureChanged (old_value : List LogDefine) (m : LoggerManager) (i : LogDefine)
    (name : List UInt8) : (configureChanged has_d old_value m i).logger name =
      if i.name = name then
        if (old_value.find? fun it => it.name = i.name) = some i then m.logger name
        else configure has_d i (m.logger name)
      else m.logger name := by
  unfold configureChanged
  cases hit : old_value.find? fun it => it.name = i.name with
  | none =>
    simp only [logger_on, reduceCtorEq, if_false]
    split
    · next heq => rw [heq]
    · rfl
  | some it =>
    simp only [Option.some.injEq]
    by_cases heq : i.eq it = true
    · rw [if_pos heq, if_pos ((LogDefine.eq_iff i it).mp heq).symm, ite_self]
    · have hne : it ≠ i := fun h => heq ((LogDefine.eq_iff i it).mpr h.symm)
      rw [if_neg heq, if_neg hne, logger_on]
      split
      · next hname => rw [hname]
      · rfl

theorem logger_takeDownGone (new_value : List LogDefine) (m : LoggerManager) (i : LogDefine)
    (name : List UInt8) : (takeDownGone new_value m i).logger name =
      if i.name = name then
        if (new_value.find? fun it => it.name = i.name) = none then takeDown (m.logger name)
        else m.logger name
      else m.logger name := by
  unfold takeDownGone
  cases hit : new_value.find? fun it => it.name = i.name with
  | none =>
    simp only [logger_on, if_true]
    split
    · next heq => rw [heq]
    · rfl
  | some it => simp

/-- What becomes of a logger whose definition was `it` and is `i`. -/
def redefine (has_d : Bool) (it i : Option LogDefine) (l : Logger) : Logger :=
  match i with
  | some i => if it = some i then l else configure has_d i l
  | none => if it = none then l else takeDown l

theorem logger_onChange (m : LoggerManager) {old_value new_value : List LogDefine}
    (hold : (old_value.map LogDefine.name).Nodup) (hnew : (new_value.map LogDefine.name).Nodup)
    (name : List UInt8) : (m.onChange has_d old_value new_value).logger name =
      redefine has_d (old_value.find? fun it => it.name = name) (new_value.find? fun i => i.name = name)
        (m.logger name) := by
  have hgone := logger_foldl (h := fun i l => if (new_value.find? fun it => it.name = i.name) = none
    then takeDown l else l) (logger_takeDownGone new_value) name hold
  have hchanged := logger_foldl (h := fun i l => if (old_value.find? fun it => it.name = i.name) = some i
    then l else configure has_d i l) (logger_configureChanged old_value) name hnew
  unfold onChange redefine
  rw [hgone, hchanged]
  cases hi : new_value.find? fun i => i.name = name with
  | none =>
    cases hit : old_value.find? fun it => it.name = name with
    | none => simp
    | some it =>
      have hname : it.name = name := by simpa using List.find?_some hit
      simp [hname, hi]
  | some i =>
    have hname : i.name = name := by simpa using List.find?_some hi
    cases hit : old_value.find? fun it => it.name = name with
    | none => simp [hname, hit]
    | some it =>
      have hname' : it.name = name := by simpa using List.find?_some hit
      simp [hname, hname', hi, hit]

end LoggerManager

theorem LogDefines.nodup (v : LogDefines) : (v.defines.map LogDefine.name).Nodup := by
  rw [List.Nodup, List.pairwise_map]
  refine v.sorted.imp fun {a b} h heq => ?_
  rw [heq] at h
  exact List.lt_irrefl _ h

namespace LogHistory

open LoggerManager

variable {has_d : Bool} {values : List LogDefines} {name : List UInt8}

theorem current_append (v : LogDefines) : current (values ++ [v]) name = v.define name := by
  simp [current]

theorem everDefined_append (v : LogDefines) :
    everDefined (values ++ [v]) name = (everDefined values name || (v.define name).isSome) := by
  simp [everDefined]

theorem formatter_append (v : LogDefines) : formatter (values ++ [v]) name =
    ((v.define name).bind fun i => usable i.formatter).getD (formatter values name) := by
  unfold formatter
  rw [List.filterMap_append]
  cases h : (v.define name).bind fun i => usable i.formatter with
  | none => simp [h]
  | some f => simp [h]

theorem formatter_current {i : LogDefine} (h : current values name = some i) :
    (usable i.formatter).getD (formatter values name) = formatter values name := by
  induction values using List.reverseRecOn with
  | nil => cases h
  | append_singleton values v ih =>
    rw [current_append] at h
    rw [formatter_append, h]
    cases hi : usable i.formatter with
    | none => simp [hi]
    | some f => simp [hi]

theorem everDefined_of_current {i : LogDefine} (h : current values name = some i) :
    everDefined values name = true := by
  induction values using List.reverseRecOn with
  | nil => cases h
  | append_singleton values v ih =>
    rw [current_append] at h
    simp [everDefined_append, h]

def loggerOf (has_d : Bool) (values : List LogDefines) (name : List UInt8) : Logger :=
  { m_name := name
    m_level := level values name
    m_appenders := (sinks has_d values name).map (LogSink.attach (formatter values name))
    m_formatter := formatter values name
    m_root := decide (name ≠ root) }

theorem loggerOf_append (v : LogDefines) : loggerOf has_d (values ++ [v]) name =
    redefine has_d (current values name) (v.define name) (loggerOf has_d values name) := by
  unfold redefine loggerOf level sinks
  simp only [current_append, everDefined_append, formatter_append]
  cases hi : v.define name with
  | none =>
    cases hit : current values name with
    | none => simp
    | some it => simp [takeDown, Logger.setLevel, Logger.clearAppenders, everDefined_of_current hit]
  | some i =>
    by_cases hit : current values name = some i
    · simp [hit, formatter_current hit]
    · simp [hit, configure_eq]

end LogHistory

namespace LogSystem

open LogHistory

variable {has_d : Bool} {s : LogSystem}

/-- The state as the values that were given have it. -/
structure Inv (has_d : Bool) (s : LogSystem) : Prop where
  last : ∀ name, current s.values name = s.m_val.define name
  loggers : ∀ name, s.loggers.logger name = loggerOf has_d s.values name

theorem Inv.init : Inv has_d init where
  last := fun name => rfl
  loggers := fun name => by
    by_cases hname : LoggerManager.root = name
    · subst hname
      rfl
    · simp [LogSystem.init, LoggerManager.init, LoggerManager.logger, Assoc.find, hname, loggerOf, level,
        sinks, current, everDefined, formatter, Logger.new, Ne.symm hname]

theorem Inv.step (h : Inv has_d s) (m : Move) : Inv has_d (s.step has_d m) := by
  cases m with
  | setValue v =>
    refine ⟨fun name => current_append v, fun name => ?_⟩
    show (if v = s.m_val then s.loggers
      else s.loggers.onChange has_d s.m_val.defines v.defines).logger name = loggerOf has_d (s.values ++ [v]) name
    have hlogger : (if v = s.m_val then s.loggers else
        s.loggers.onChange has_d s.m_val.defines v.defines).logger name =
          LoggerManager.redefine has_d (s.m_val.define name) (v.define name) (s.loggers.logger name) := by
      split
      · next heq =>
        subst heq
        unfold LoggerManager.redefine
        cases s.m_val.define name <;> simp
      · exact LoggerManager.logger_onChange s.loggers s.m_val.nodup v.nodup name
    rw [hlogger, loggerOf_append, h.last, h.loggers]
  | getLogger name =>
    refine ⟨h.last, fun name' => ?_⟩
    show (s.loggers.on name id).logger name' = _
    rw [LoggerManager.logger_on]
    split
    · next heq => exact heq ▸ h.loggers name
    · exact h.loggers name'

theorem Inv.run (moves : List Move) : Inv has_d (moves.foldl (LogSystem.step has_d) LogSystem.init) := by
  have hall : ∀ (moves : List Move) {s : LogSystem}, Inv has_d s →
      Inv has_d (moves.foldl (LogSystem.step has_d) s) := by
    intro moves
    induction moves with
    | nil => exact fun h => h
    | cons m moves ih => exact fun h => ih (h.step m)
  exact hall moves .init

variable (strftime : List UInt8 → UInt64 → List UInt8)

theorem log_attach (level : LogLevel) (event : LogEvent) (f : LogFormatter) (k : LogSink) :
    LogAppender.log strftime level event (k.attach f) = .ok
      (if k.level.value ≤ level.value then [(k.target, (k.own.getD f).format strftime level event)] else []) := by
  unfold LogAppender.log LogSink.attach
  split <;> rfl

theorem mapM_log (level : LogLevel) (event : LogEvent) (f : LogFormatter) (ks : List LogSink) :
    ((ks.map (LogSink.attach f)).mapM (LogAppender.log strftime level event)).map List.flatten =
      .ok (ks.filterMap fun k =>
        if k.level.value ≤ level.value then some (k.target, (k.own.getD f).format strftime level event)
        else none) := by
  have hmapM : (ks.map (LogSink.attach f)).mapM (LogAppender.log strftime level event) =
      .ok (ks.map fun k => if k.level.value ≤ level.value then
        [(k.target, (k.own.getD f).format strftime level event)] else []) := by
    induction ks with
    | nil => rfl
    | cons k ks ih =>
      rw [List.map_cons, List.mapM_cons, log_attach, ih]
      rfl
  rw [hmapM]
  refine congrArg Except.ok ?_
  clear hmapM
  induction ks with
  | nil => rfl
  | cons k ks ih =>
    rw [List.map_cons, List.flatten_cons, ih]
    by_cases hlevel : k.level.value ≤ level.value
    · simp [hlevel]
    · simp [hlevel]

/-- Whatever values `logs` was given and whichever loggers were asked for, an event is written as the
values say, and without a null formatter. -/
theorem logged_by_history (has_d : Bool) (moves : List Move) (event : LogEvent) :
    let s := moves.foldl (LogSystem.step has_d) init
    s.loggers.logEvent strftime event = .ok (eventLines has_d s.values strftime event) := by
  intro s
  have h : Inv has_d s := Inv.run moves
  have hwrites : ∀ name, ((s.loggers.logger name).m_appenders.mapM
      (LogAppender.log strftime event.m_level event)).map List.flatten =
        .ok (writes has_d s.values name strftime event) := by
    intro name
    rw [h.loggers]
    exact mapM_log strftime event.m_level event _ _
  have hlevel : ∀ name, (s.loggers.logger name).m_level = level s.values name := by
    intro name
    rw [h.loggers]
    rfl
  have hempty : ∀ name, (s.loggers.logger name).m_appenders = [] ↔ sinks has_d s.values name = [] := by
    intro name
    rw [h.loggers]
    exact List.map_eq_nil_iff
  have hroot : ∀ name, (s.loggers.logger name).m_root = decide (name ≠ LoggerManager.root) := by
    intro name
    rw [h.loggers]
    rfl
  unfold LoggerManager.logEvent eventLines
  simp only [LoggerManager.logFrom, hwrites, hlevel, hroot, ne_eq, hempty]
  by_cases hle : (level s.values event.m_logger).value ≤ event.m_level.value
  · by_cases hsinks : sinks has_d s.values event.m_logger = []
    · by_cases hname : event.m_logger = LoggerManager.root
      · rw [hname] at hle hsinks
        simp [hle, hsinks, hname]
      · by_cases hsinks' : sinks has_d s.values LoggerManager.root = []
        · simp [hle, hsinks, hname, hsinks', writes]
        · by_cases hle' : (level s.values LoggerManager.root).value ≤ event.m_level.value
          · simp [hle, hsinks, hname, hsinks', hle']
          · simp [hle, hsinks, hname, hle']
    · simp [hle, hsinks]
  · simp [hle]

end LogSystem

end Sylar
