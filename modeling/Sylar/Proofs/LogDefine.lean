import Sylar.Lib.Entries
import Sylar.Spec.LogDefine

/-! A `LogDefine` written as YAML and read back. The name, the level and the formatter come back; of
an appender, the level does not. -/

namespace Sylar

theorem LogLevel.fromString_toString (level : LogLevel) : fromString level.toString = level := by
  cases level <;> decide

theorem LogAppenderDefine.eq_iff (a b : LogAppenderDefine) : a.eq b = true ↔ a = b := by
  rw [LogAppenderDefine.eq, decide_eq_true_eq, LogAppenderDefine.mk.injEq]

theorem LogDefine.eq_iff (d e : LogDefine) : d.eq e = true ↔ d = e := by
  have happenders : ∀ l m : List LogAppenderDefine,
      l.length = m.length ∧ ((l.zip m).all fun p => p.1.eq p.2) = true ↔ l = m := by
    intro l
    induction l with
    | nil =>
      intro m
      cases m <;> simp
    | cons a l ih =>
      intro m
      cases m with
      | nil => simp
      | cons b m =>
        rw [List.zip_cons_cons, List.all_cons, Bool.and_eq_true, List.length_cons, List.length_cons,
          Nat.add_right_cancel_iff, LogAppenderDefine.eq_iff, List.cons.injEq, ← ih m]
        tauto
  rw [LogDefine.eq, decide_eq_true_eq, happenders, LogDefine.mk.injEq]

open YAML YamlNode

/-- A node that is null, or a map by what was assigned to its keys. -/
inductive IsMap {N : Type} [YamlNode N] : N → Prop where
  | null : IsMap YamlNode.null
  | assign {n : N} (key : String) (value : N) (hn : IsMap n) : IsMap (YamlNode.assign n key value)

/-- What is assigned to a key is found under it and under no other, the first node that is pushed makes
a sequence, and every other one is put behind it. -/
class LawfulYamlNode (N : Type) [YamlNode N] : Prop where
  get_null : ∀ key, get (null : N) key = .ok none
  get_assign : ∀ (n : N) (key : String) (value : N) (key' : String), IsMap n →
    get (assign n key value) key' = if key' = key then .ok (some value) else get n key'
  pushBack_none : ∀ (n : N) (key : String) (value : N), IsMap n → get n key = .ok none →
    pushBack n key value = assign n key (sequence [value])
  pushBack_sequence : ∀ (n : N) (key : String) (value : N) (nodes : List N), IsMap n →
    get n key = .ok (some (sequence nodes)) →
    pushBack n key value = assign n key (sequence (nodes ++ [value]))
  asString_scalar : ∀ text, asString (scalar text : N) = .ok text
  elements_sequence : ∀ nodes : List N, elements (sequence nodes) = nodes

open LawfulYamlNode

section

variable {N : Type} [YamlNode N] [LawfulYamlNode N] {n : N} {key : String}

theorem get_foldl_pushBack {α : Type*} (f : α → N) (hn : IsMap n) (hnone : get n key = .ok none)
    (l : List α) : IsMap (l.foldl (fun n a => pushBack n key (f a)) n) ∧
      ∀ key', get (l.foldl (fun n a => pushBack n key (f a)) n) key' =
        if key' = key ∧ l ≠ [] then .ok (some (sequence (l.map f))) else get n key' := by
  induction l using List.reverseRecOn with
  | nil => exact ⟨hn, fun key' => by rw [if_neg fun h => h.2 rfl]; rfl⟩
  | append_singleton l a ih =>
    obtain ⟨hmap, hget⟩ := ih
    rw [List.foldl_append, List.foldl_cons, List.foldl_nil]
    have hpush : pushBack (l.foldl (fun n a => pushBack n key (f a)) n) key (f a) =
        assign (l.foldl (fun n a => pushBack n key (f a)) n) key (sequence (l.map f ++ [f a])) := by
      by_cases hnil : l = []
      · subst hnil
        exact pushBack_none n key (f a) hn hnone
      · refine pushBack_sequence _ key (f a) _ hmap ?_
        rw [hget key, if_pos ⟨rfl, hnil⟩]
    rw [hpush]
    refine ⟨.assign _ _ hmap, fun key' => ?_⟩
    rw [get_assign _ _ _ _ hmap, List.map_append, List.map_singleton]
    by_cases hkey : key' = key
    · rw [if_pos hkey, if_pos ⟨hkey, by simp⟩]
    · rw [if_neg hkey, if_neg fun h => hkey h.1, hget, if_neg fun h => hkey h.1]

/-- The level and the formatter, which both kinds of nodes get last of their texts. -/
def withLevel (n : N) (level : LogLevel) (formatter : List UInt8) : N :=
  let n := if level ≠ .UNKNOW then assign n "level" (scalar level.toString) else n
  if formatter ≠ [] then assign n "formatter" (scalar formatter) else n

theorem get_assign_if (key : String) (value : N) (c : Prop) [Decidable c] (hn : IsMap n) :
    IsMap (if c then assign n key value else n) ∧
      ∀ key', get (if c then assign n key value else n) key' =
        if key' = key ∧ c then .ok (some value) else get n key' := by
  by_cases hc : c
  · rw [if_pos hc]
    exact ⟨.assign key value hn, fun key' => by rw [get_assign n key value key' hn]; simp [hc]⟩
  · rw [if_neg hc]
    exact ⟨hn, fun key' => by rw [if_neg fun h => hc h.2]⟩

theorem get_withLevel (hn : IsMap n) (level : LogLevel) (formatter : List UInt8) :
    IsMap (withLevel n level formatter) ∧ ∀ key, get (withLevel n level formatter) key =
      if key = "formatter" ∧ formatter ≠ [] then .ok (some (scalar formatter))
      else if key = "level" ∧ level ≠ .UNKNOW then .ok (some (scalar level.toString))
      else get n key := by
  obtain ⟨hmap, hget⟩ := get_assign_if "level" (scalar level.toString) (level ≠ .UNKNOW) hn
  obtain ⟨hmap', hget'⟩ := get_assign_if "formatter" (scalar formatter) (formatter ≠ []) hmap
  exact ⟨hmap', fun key => (hget' key).trans (by rw [hget])⟩

variable (N) in
theorem read_optional (text : List UInt8) :
    (if text ≠ [] then some (scalar text : N) else none).elim (.ok []) asString = .ok text := by
  by_cases h : text = []
  · rw [if_neg (not_not.mpr h), h]
    rfl
  · rw [if_pos h]
    exact asString_scalar text

end

section

variable {N : Type} [YamlNode N] [LawfulYamlNode N] {n : N} (hn : IsMap n) (level : LogLevel)
  (formatter : List UInt8)
include hn

theorem get_withLevel_other {key : String} (hformatter : key ≠ "formatter") (hlevel : key ≠ "level") :
    get (withLevel n level formatter) key = get n key := by
  rw [(get_withLevel hn level formatter).2, if_neg fun h => hformatter h.1, if_neg fun h => hlevel h.1]

theorem readFormatter_withLevel (hnone : get n "formatter" = .ok none) :
    readFormatter (withLevel n level formatter) = .ok formatter := by
  have hget : get (withLevel n level formatter) "formatter" =
      .ok (if formatter ≠ [] then some (scalar formatter) else none) := by
    rw [(get_withLevel hn level formatter).2, if_neg (c := "formatter" = "level" ∧ _) (by simp), hnone]
    split_ifs <;> simp_all
  rw [readFormatter, hget]
  exact read_optional N formatter

theorem readLevel_withLevel (hnone : get n "level" = .ok none) :
    ∃ text, get (withLevel n level formatter) "level" = .ok text ∧
      ∃ str, text.elim (.ok []) asString = .ok str ∧ LogLevel.fromString str = level := by
  rw [(get_withLevel hn level formatter).2, if_neg (by simp), hnone]
  by_cases h : level = .UNKNOW
  · rw [if_neg fun hand => hand.2 h]
    exact ⟨none, rfl, [], rfl, by rw [h]; decide⟩
  · rw [if_pos ⟨rfl, h⟩]
    exact ⟨_, rfl, level.toString, asString_scalar _, level.fromString_toString⟩

end

/-- An appender as it comes back: the reader has no `level`. -/
def LogAppenderDefine.reread (a : LogAppenderDefine) : Option LogAppenderDefine :=
  if a.type = 1 then some { a with level := .UNKNOW }
  else if a.type = 2 then some { a with level := .UNKNOW, file := [] }
  else none

section

variable {N : Type} [YamlNode N] [LawfulYamlNode N]

theorem get_type (n : N) (hn : IsMap n) (type : List UInt8) (level : LogLevel)
    (formatter : List UInt8) (htype : get n "type" = .ok (some (scalar type)))
    (hnone : get n "formatter" = .ok none) :
    get (withLevel n level formatter) "type" = .ok (some (scalar type)) ∧
      readFormatter (withLevel n level formatter) = .ok formatter := by
  constructor
  · rw [get_withLevel_other hn level formatter (by decide) (by decide), htype]
  · exact readFormatter_withLevel hn level formatter hnone

theorem readAppender_file (level : LogLevel) (formatter file : List UInt8) :
    readAppender (LogAppenderDefine.node ⟨1, level, formatter, file⟩ : N) =
      .ok (some ⟨1, .UNKNOW, formatter, file⟩) := by
  let t : N := assign null "type" (scalar (ascii "FileLogAppender"))
  let n : N := assign t "file" (scalar file)
  have ht : IsMap t := .assign _ _ .null
  have hn : IsMap n := .assign _ _ ht
  have hget : ∀ key, get n key = if key = "file" then .ok (some (scalar file))
      else if key = "type" then .ok (some (scalar (ascii "FileLogAppender"))) else .ok none := by
    intro key
    rw [get_assign t _ _ _ ht, get_assign null _ _ _ .null, get_null]
  obtain ⟨htype, hformatter⟩ := get_type n hn (ascii "FileLogAppender") level formatter
    (by rw [hget]; rfl) (by rw [hget]; rfl)
  have hfile : get (withLevel n level formatter) "file" = .ok (some (scalar file)) := by
    rw [get_withLevel_other hn level formatter (by decide) (by decide), hget]
    rfl
  change readAppender (withLevel n level formatter) = _
  simp only [readAppender, htype, bind, Except.bind, Option.elim_some, asString_scalar, if_true,
    readFileAppender, hfile, hformatter]

theorem readAppender_stdout (level : LogLevel) (formatter file : List UInt8) :
    readAppender (LogAppenderDefine.node ⟨2, level, formatter, file⟩ : N) =
      .ok (some ⟨2, .UNKNOW, formatter, []⟩) := by
  let n : N := assign null "type" (scalar (ascii "StdoutLogAppender"))
  have hn : IsMap n := .assign _ _ .null
  have hget : ∀ key, get n key =
      if key = "type" then .ok (some (scalar (ascii "StdoutLogAppender"))) else .ok none := by
    intro key
    rw [get_assign null _ _ _ .null, get_null]
  obtain ⟨htype, hformatter⟩ := get_type n hn (ascii "StdoutLogAppender") level formatter
    (by rw [hget]; rfl) (by rw [hget]; rfl)
  have hother : ¬ ascii "StdoutLogAppender" = ascii "FileLogAppender" := by decide
  change readAppender (withLevel n level formatter) = _
  simp only [readAppender, htype, bind, Except.bind, Option.elim_some, asString_scalar, if_true,
    if_neg hother, hformatter]

theorem readAppender_other {a : LogAppenderDefine} (h1 : a.type ≠ 1) (h2 : a.type ≠ 2) :
    readAppender (a.node : N) = .ok none := by
  have hnode : (a.node : N) = withLevel null a.level a.formatter := by
    rw [LogAppenderDefine.node, if_neg h1, if_neg h2]
    rfl
  have htype : get (withLevel (null : N) a.level a.formatter) "type" = .ok none := by
    rw [get_withLevel_other .null a.level a.formatter (by decide) (by decide), get_null]
  rw [hnode, readAppender, htype]
  rfl

theorem readAppender_node (a : LogAppenderDefine) : readAppender (a.node : N) = .ok a.reread := by
  obtain ⟨type, level, formatter, file⟩ := a
  by_cases h1 : type = 1
  · subst h1
    exact readAppender_file level formatter file
  · by_cases h2 : type = 2
    · subst h2
      exact readAppender_stdout level formatter file
    · rw [readAppender_other h1 h2, LogAppenderDefine.reread, if_neg h1, if_neg h2]

theorem readAppenders_nodes (l : List LogAppenderDefine) :
    readAppenders (l.map (LogAppenderDefine.node : LogAppenderDefine → N)) =
      .ok (l.filterMap LogAppenderDefine.reread) := by
  induction l with
  | nil => rfl
  | cons a l ih =>
    rw [List.map_cons, readAppenders, readAppender_node, ih]
    cases h : a.reread with
    | none =>
      rw [List.filterMap_cons_none h]
      rfl
    | some b =>
      rw [List.filterMap_cons_some h]
      rfl

theorem castToLogDefine_castToString (load : List UInt8 → Except Exception N) (emit : N → List UInt8)
    (d : LogDefine) (hyaml : load (emit d.node) = .ok d.node) :
    castToLogDefine load (castToString emit d) =
      .ok { d with appenders := d.appenders.filterMap LogAppenderDefine.reread } := by
  let t : N := assign null "name" (scalar d.name)
  have ht : IsMap t := .assign _ _ .null
  have htget : ∀ key, get t key = if key = "name" then .ok (some (scalar d.name)) else .ok none := by
    intro key
    rw [get_assign null _ _ _ .null, get_null]
  let n : N := withLevel t d.level d.formatter
  have hn : IsMap n := (get_withLevel ht d.level d.formatter).1
  have happenders : get n "appenders" = .ok none := by
    rw [get_withLevel_other ht d.level d.formatter (by decide) (by decide), htget]
    rfl
  have hget : ∀ key, get (d.node : N) key = if key = "appenders" ∧ d.appenders ≠ [] then
      .ok (some (sequence (d.appenders.map LogAppenderDefine.node))) else get n key :=
    (get_foldl_pushBack LogAppenderDefine.node hn happenders d.appenders).2
  have hname : get (d.node : N) "name" = .ok (some (scalar d.name)) := by
    rw [hget, if_neg (by simp), get_withLevel_other ht d.level d.formatter (by decide) (by decide), htget]
    rfl
  obtain ⟨text, hlevel, str, hstr, hfrom⟩ := readLevel_withLevel ht d.level d.formatter
    (by rw [htget]; rfl)
  have hlevel' : get (d.node : N) "level" = .ok text := by rw [hget, if_neg (by simp), hlevel]
  have hformatter : readFormatter (d.node : N) = .ok d.formatter := by
    rw [readFormatter, hget, if_neg (by simp), ← readFormatter]
    exact readFormatter_withLevel ht d.level d.formatter (by rw [htget]; rfl)
  obtain ⟨nodes, hnodes, hread⟩ : ∃ nodes, get (d.node : N) "appenders" = .ok nodes ∧
      readAppenders (nodes.elim [] elements) =
        .ok (d.appenders.filterMap LogAppenderDefine.reread) := by
    by_cases hnil : d.appenders = []
    · refine ⟨none, by rw [hget, if_neg fun h => h.2 hnil, happenders], ?_⟩
      rw [hnil]
      rfl
    · refine ⟨some (sequence (d.appenders.map LogAppenderDefine.node)),
        by rw [hget, if_pos ⟨rfl, hnil⟩], ?_⟩
      rw [Option.elim_some, elements_sequence, readAppenders_nodes]
  rw [castToLogDefine, castToString, hyaml]
  simp only [bind, Except.bind, hname, Option.elim_some, asString_scalar, hlevel', hstr, hformatter,
    hnodes, hread, hfrom]

end

theorem reread_eq_some_iff (a : LogAppenderDefine) : a.reread = some a ↔
    (a.type = 1 ∨ a.type = 2) ∧ a.level = .UNKNOW ∧ (a.type = 2 → a.file = []) := by
  obtain ⟨type, level, formatter, file⟩ := a
  rw [LogAppenderDefine.reread]
  split_ifs with h1 h2
  · subst h1
    simp [eq_comm]
  · subst h2
    simp [eq_comm]
  · simp [h1, h2]

theorem changedLoggers_self (d : LogDefine) : changedLoggers [d] [d] = [] := by
  simp [changedLoggers, (LogDefine.eq_iff d d).mpr rfl]

/-- A definition that is dumped comes back the same, and changes no logger, where its appenders are
of the two known kinds and have nothing that the reader does not look at. -/
theorem reread_eq_iff {N : Type} [YamlNode N] [LawfulYamlNode N] (load : List UInt8 → Except Exception N)
    (emit : N → List UInt8) (d : LogDefine) (hyaml : load (emit d.node) = .ok d.node) :
    (∃ d', castToLogDefine load (castToString emit d) = .ok d' ∧ d'.eq d = true ∧
      changedLoggers [d] [d'] = []) ↔
    ∀ a ∈ d.appenders,
      (a.type = 1 ∨ a.type = 2) ∧ a.level = .UNKNOW ∧ (a.type = 2 → a.file = []) := by
  have hall : d.appenders.filterMap LogAppenderDefine.reread = d.appenders ↔ ∀ a ∈ d.appenders,
      (a.type = 1 ∨ a.type = 2) ∧ a.level = .UNKNOW ∧ (a.type = 2 → a.file = []) := by
    have hsame := List.filterMap_eq_map_iff_forall_eq_some (f := LogAppenderDefine.reread) (g := id)
      (l := d.appenders)
    rw [List.map_id] at hsame
    exact hsame.trans (forall₂_congr fun a _ => reread_eq_some_iff a)
  rw [castToLogDefine_castToString load emit d hyaml, ← hall]
  constructor
  · rintro ⟨d', heq, hsame, -⟩
    cases heq
    exact congrArg LogDefine.appenders ((LogDefine.eq_iff _ _).mp hsame)
  · intro heq
    rw [heq]
    exact ⟨d, rfl, (LogDefine.eq_iff d d).mpr rfl, changedLoggers_self d⟩

/-- The nodes of a YAML text, as trees. -/
inductive Tree where
  | null
  | scalar (text : List UInt8)
  | sequence (nodes : List Tree)
  | map (entries : List (String × Tree))

namespace Tree

def get : Tree → String → Except Exception (Option Tree)
  | map entries, key => .ok (entries.lookup key)
  | scalar _, _ => .error .badSubscript
  | _, _ => .ok none

def assign (n : Tree) (key : String) (value : Tree) : Tree :=
  match n with
  | map entries =>
      if (entries.lookup key).isSome then
        map (entries.map fun e => if e.1 = key then (key, value) else e)
      else map (entries ++ [(key, value)])
  | _ => map [(key, value)]

instance : YamlNode Tree where
  null := null
  scalar := scalar
  sequence := sequence
  get := get
  assign := assign
  pushBack n key value :=
    match n.get key with
    | .ok (some (sequence nodes)) => n.assign key (sequence (nodes ++ [value]))
    | _ => n.assign key (sequence [value])
  asString
    | scalar text => .ok text
    | _ => .error .badConversion
  elements
    | sequence nodes => nodes
    | _ => []

theorem assign_ne_scalar (n : Tree) (key : String) (value : Tree) (text : List UInt8) :
    n.assign key value ≠ scalar text := by
  intro h
  cases n with
  | map entries =>
    rw [assign] at h
    split_ifs at h
  | _ => cases h

theorem get_assign {n : Tree} (hn : ∀ text, n ≠ scalar text) (key : String) (value : Tree)
    (key' : String) :
    (n.assign key value).get key' = if key' = key then .ok (some value) else n.get key' := by
  cases n with
  | scalar text => exact absurd rfl (hn text)
  | map entries =>
    have hput := Lib.Entries.lookup_put key key' value entries
    have hget : ((map entries).assign key value).get key' =
        .ok (if key' = key then some value else entries.lookup key') := by
      rw [← hput, assign]
      split_ifs <;> rfl
    rw [hget, apply_ite Except.ok]
    rfl
  | _ =>
    change Except.ok (List.lookup key' [(key, value)]) = _
    rw [Lib.Entries.lookup_cons]
    split_ifs <;> rfl

theorem ne_scalar_of_isMap {n : Tree} (hn : IsMap n) (text : List UInt8) : n ≠ scalar text := by
  cases hn with
  | null => exact fun h => by cases h
  | assign key value hn => exact assign_ne_scalar _ key value text

instance : LawfulYamlNode Tree where
  get_null _ := rfl
  get_assign _ key value key' hn := get_assign (ne_scalar_of_isMap hn) key value key'
  pushBack_none n key value _ hnone := by
    change n.get key = .ok none at hnone
    simp only [pushBack, hnone]
    rfl
  pushBack_sequence n key value nodes _ hnodes := by
    change n.get key = .ok (some (sequence nodes)) at hnodes
    simp only [pushBack, hnodes]
    rfl
  asString_scalar _ := rfl
  elements_sequence _ := rfl

end Tree

def systemDefine : LogDefine :=
  { name := ascii "system"
    level := .INFO
    formatter := ascii "%d%T%m%n"
    appenders := [⟨1, .UNKNOW, [], ascii "system.txt"⟩, ⟨2, .UNKNOW, ascii "%m%n", []⟩] }

theorem reread_systemDefine :
    let text := ascii ("name: system\nlevel: INFO\nformatter: \"%d%T%m%n\"\nappenders:\n" ++
      "  - type: FileLogAppender\n    file: system.txt\n" ++
      "  - type: StdoutLogAppender\n    formatter: \"%m%n\"")
    ∃ d', castToLogDefine
        (fun v => if v = text then .ok (systemDefine.node : Tree) else .error .parserException)
        (castToString (fun _ : Tree => text) systemDefine) = .ok d' ∧ d'.eq systemDefine = true ∧
      changedLoggers [systemDefine] [d'] = [] := by
  intro text
  refine (reread_eq_iff
    (fun v => if v = text then .ok (systemDefine.node : Tree) else .error .parserException)
    (fun _ => text) systemDefine (if_pos rfl)).mpr ?_
  intro a ha
  fin_cases ha
  · exact ⟨.inl rfl, rfl, fun h => absurd h (by decide)⟩
  · exact ⟨.inr rfl, rfl, fun _ => rfl⟩

/-- The level of an appender is written and not read: the logger is set anew. -/
theorem reread_loses_level :
    let d : LogDefine := ⟨ascii "system", .INFO, [], [⟨2, .ERROR, [], []⟩]⟩
    let text := ascii ("name: system\nlevel: INFO\nappenders:\n" ++
      "  - type: StdoutLogAppender\n    level: ERROR")
    ∃ d', castToLogDefine
        (fun v => if v = text then .ok (d.node : Tree) else .error .parserException)
        (castToString (fun _ : Tree => text) d) = .ok d' ∧
      d' = { d with appenders := [⟨2, .UNKNOW, [], []⟩] } ∧ d'.eq d = false ∧
      changedLoggers [d] [d'] = [ascii "system"] := by
  intro d text
  have hread := castToLogDefine_castToString
    (fun v => if v = text then .ok (d.node : Tree) else .error .parserException) (fun _ => text) d
    (if_pos rfl)
  exact ⟨_, hread, rfl, by decide, by decide⟩

end Sylar
