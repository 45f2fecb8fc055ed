import Sylar.Spec.StringUtil

/-! `LogFormatter` of `log.cc`: the pattern of a log line, scanned into items. -/

namespace Sylar

open Lib

/-- The `FormatItem`s, with what they keep of their argument. -/
inductive FormatItem where
  | MessageFormatItem
  | LevelFormatItem
  | ElapseFormatItem
  | NameFormatItem
  | ThreadIdFormatItem
  | NewLineFormatItem
  | DateTimeFormatItem (m_format : List UInt8)
  | FilenameFormatItem
  | LineFormatItem
  | TabFormatItem
  | FiberIdFormatItem
  | ThreadNameFormatItem
  | StringFormatItem (m_string : List UInt8)
deriving DecidableEq, Repr

namespace LogFormatter

open FormatItem

def isalpha (c : UInt8) : Bool := (65 ≤ c && c ≤ 90) || (97 ≤ c && c ≤ 122)

def dateTimeFormatItem (format : List UInt8) : FormatItem :=
  DateTimeFormatItem (if format = [] then ascii "%Y-%m-%d %H:%M:%S" else format)

def s_format_items : List (List UInt8 × (List UInt8 → FormatItem)) :=
  [(ascii "m", fun _ => MessageFormatItem),
   (ascii "p", fun _ => LevelFormatItem),
   (ascii "r", fun _ => ElapseFormatItem),
   (ascii "c", fun _ => NameFormatItem),
   (ascii "t", fun _ => ThreadIdFormatItem),
   (ascii "n", fun _ => NewLineFormatItem),
   (ascii "d", dateTimeFormatItem),
   (ascii "f", fun _ => FilenameFormatItem),
   (ascii "l", fun _ => LineFormatItem),
   (ascii "T", fun _ => TabFormatItem),
   (ascii "F", fun _ => FiberIdFormatItem),
   (ascii "N", fun _ => ThreadNameFormatItem)]

/-- The variables of the inner loop; `fmt_status` is 1 between the braces. -/
structure Fmt where
  n : ℕ
  fmt_status : ℕ
  fmt_begin : ℕ
  str : List UInt8
  fmt : List UInt8
deriving DecidableEq

variable (m_pattern : List UInt8)

/-- `while(n < m_pattern.size())`, where the specifier is at `i`, with at most `fuel` turns. -/
def fmtLoop (i : ℕ) : ℕ → Fmt → Fmt
  | 0, s => s
  | fuel + 1, s =>
      if s.n < m_pattern.length then
        let c := m_pattern.getD s.n 0
        if s.fmt_status = 0 ∧ !isalpha c ∧ c ≠ 0x7B ∧ c ≠ 0x7D then
          { s with str := substr m_pattern (i + 1) (s.n - i - 1) }
        else if s.fmt_status = 0 ∧ c = 0x7B then
          fmtLoop i fuel { s with
            str := substr m_pattern (i + 1) (s.n - i - 1)
            fmt_status := 1
            fmt_begin := s.n
            n := s.n + 1 }
        else if s.fmt_status = 1 ∧ c = 0x7D then
          { s with
            fmt := substr m_pattern (s.fmt_begin + 1) (s.n - s.fmt_begin - 1)
            fmt_status := 0
            n := s.n + 1 }
        else
          fmtLoop i fuel { s with
            n := s.n + 1
            str := if s.n + 1 = m_pattern.length ∧ s.str = [] then m_pattern.drop (i + 1) else s.str }
      else s

/-- An element of `vec`: a text, or a specifier with its argument where the last is 1. -/
abbrev Entry := List UInt8 × List UInt8 × ℕ

/-- `nstr` as it is pushed when it is not empty. -/
def pushed (nstr : List UInt8) : List Entry := if nstr = [] then [] else [(nstr, [], 0)]

/-- The outer loop from `i` on, with at most `fuel` turns, and the push behind it. Gives what is
pushed to `vec` from here on, and whether `m_error` is set. -/
def initLoop : ℕ → ℕ → List UInt8 → List Entry × Bool
  | 0, _, nstr => (pushed nstr, false)
  | fuel + 1, i, nstr =>
      if i < m_pattern.length then
        if m_pattern.getD i 0 ≠ 0x25 then initLoop fuel (i + 1) (nstr ++ [m_pattern.getD i 0])
        -- only `i` moves on, to the second `%`
        else if i + 1 < m_pattern.length ∧ m_pattern.getD (i + 1) 0 = 0x25 then
          initLoop fuel (i + 1) (nstr ++ [0x25])
        else
          let s := fmtLoop m_pattern i m_pattern.length ⟨i + 1, 0, 0, [], []⟩
          if s.fmt_status = 0 then
            -- `i = n - 1`, and `++i`
            let r := initLoop fuel s.n []
            (pushed nstr ++ (s.str, s.fmt, 1) :: r.1, r.2)
          else
            let r := initLoop fuel (i + 1) nstr
            ((ascii "<<pattern_error>>", s.fmt, 0) :: r.1, true)
      else (pushed nstr, false)

/-- The item of an entry, and whether `m_error` is set. -/
def item : Entry → FormatItem × Bool
  | (str, fmt, kind) =>
      if kind = 0 then (StringFormatItem str, false)
      else
        match s_format_items.lookup str with
        | none => (StringFormatItem (ascii "<<error_format %" ++ str ++ ascii ">>"), true)
        | some create => (create fmt, false)

end LogFormatter

structure LogFormatter where
  m_pattern : List UInt8
  m_items : List FormatItem
  m_error : Bool
deriving DecidableEq

namespace LogFormatter

/-- `init`; a turn of the outer loop moves `i` on, so there are no more than `size()`. -/
def init (m_pattern : List UInt8) : LogFormatter :=
  let r := initLoop m_pattern m_pattern.length 0 []
  { m_pattern := m_pattern
    m_items := r.1.map fun e => (item e).1
    m_error := r.2 || r.1.any fun e => (item e).2 }

end LogFormatter

end Sylar
