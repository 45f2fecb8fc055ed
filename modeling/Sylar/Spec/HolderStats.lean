import Sylar.Spec.AsyncSocketStream

/-! `HolderStats` and `HolderStatsSet` of `streams/load_balance.cc`, and what
`RockSDLoadBalance::request` of `rock/rock_stream.cc` does with those of one item. An access
to `m_lastUpdateTime`, the clearing of a slot and an operation on a counter are one step each.
The weight itself is a floating-point number: of `getWeight` there is its `init`. -/

namespace Sylar

open Lib

structure HolderStats where
  m_usedTime : UInt32
  m_total : UInt32
  m_doing : UInt32
  m_timeouts : UInt32
  m_oks : UInt32
  m_errs : UInt32
deriving DecidableEq

namespace HolderStats

def new : HolderStats := ⟨0, 0, 0, 0, 0, 0⟩

def clear (_ : HolderStats) : HolderStats := ⟨0, 0, 0, 0, 0, 0⟩

def incUsedTime (v : UInt32) (x : HolderStats) : HolderStats :=
  { x with m_usedTime := x.m_usedTime + v }

def incTotal (v : UInt32) (x : HolderStats) : HolderStats := { x with m_total := x.m_total + v }

def incDoing (v : UInt32) (x : HolderStats) : HolderStats := { x with m_doing := x.m_doing + v }

def incTimeouts (v : UInt32) (x : HolderStats) : HolderStats :=
  { x with m_timeouts := x.m_timeouts + v }

def incOks (v : UInt32) (x : HolderStats) : HolderStats := { x with m_oks := x.m_oks + v }

def incErrs (v : UInt32) (x : HolderStats) : HolderStats := { x with m_errs := x.m_errs + v }

def decDoing (v : UInt32) (x : HolderStats) : HolderStats := { x with m_doing := x.m_doing - v }

end HolderStats

structure HolderStatsSet where
  m_lastUpdateTime : UInt32
  m_stats : List HolderStats
deriving DecidableEq

namespace HolderStatsSet

def new (size : ℕ) : HolderStatsSet := ⟨0, List.replicate size .new⟩

def slot (s : HolderStatsSet) (t : UInt32) : ℕ := t.toNat % s.m_stats.length

end HolderStatsSet

/-- The statistics of an item, and the milliseconds of `GetCurrentMS`. -/
structure ItemStats extends HolderStatsSet where
  clock : UInt64
deriving DecidableEq

namespace ItemStats

/-- A step of a call. `clearNext` is a turn of the loop of `init`, and a `slot` is an index of
`m_stats`, which stands for the reference that `get` returns. -/
inductive Instr where
  | getCurrentMS
  | time
  | init (now : UInt32)
  | initLoop (now : UInt32)
  | clearNext (now t : UInt32) (i : ℕ)
  | setLastUpdateTime (now : UInt32)
  | incDoing (slot : ℕ) (ts : UInt64)
  | incTotal (slot : ℕ)
  | request (slot : ℕ) (ts : UInt64)
  | incOks (slot : ℕ)
  | incUsedTime (slot : ℕ) (v : UInt32)
  | incTimeouts (slot : ℕ)
  | incErrs (slot : ℕ)
  | decDoing (slot : ℕ)
deriving DecidableEq

inductive Call where
  | request
  | getWeight
deriving DecidableEq

abbrev Calls := Threads ItemStats Call Instr

abbrev CallTurn := Turn ItemStats Call Instr

section

variable (s : ItemStats)

def set (slot : ℕ) (f : HolderStats → HolderStats) : ItemStats :=
  { s with m_stats := s.m_stats.modify slot f }

def outcome (slot : ℕ) (ts : UInt64) (result : Int32) : List Instr :=
  if result = 0 then [.incOks slot, .incUsedTime slot (s.clock - ts).toUInt32]
  else if result = TIMEOUT.toInt32 then [.incTimeouts slot]
  else if result < 0 then [.incErrs slot]
  else []

/-- The step `i` of a call. `result` is what the request on the stream gives, where that is
the step. -/
def exec (_k : ℕ) (_call : Call) : Instr → Int32 → Except StepFault CallTurn
  | .getCurrentMS, _ =>
      let now := (s.clock / 1000).toUInt32
      .ok (.only s [.init now, .incDoing (s.slot now) s.clock])
  | .time, _ => .ok (.only s [.init (s.clock / 1000).toUInt32])
  | .init now, _ =>
      .ok (.only s (if s.m_lastUpdateTime < now then [.initLoop now, .setLastUpdateTime now] else []))
  | .initLoop now, _ => .ok (.only s [.clearNext now (s.m_lastUpdateTime + 1) 0])
  | .clearNext now t i, _ =>
      if t ≤ now ∧ i < s.m_stats.length then
        .ok (.only (s.set (s.slot t) .clear) [.clearNext now (t + 1) (i + 1)])
      else .ok (.only s [])
  | .setLastUpdateTime now, _ => .ok (.only { s with m_lastUpdateTime := now } [])
  | .incDoing slot ts, _ =>
      .ok (.only (s.set slot (.incDoing 1)) [.incTotal slot, .request slot ts, .decDoing slot])
  | .incTotal slot, _ => .ok (.only (s.set slot (.incTotal 1)) [])
  | .request slot ts, result => .ok (.only s (s.outcome slot ts result))
  | .incOks slot, _ => .ok (.only (s.set slot (.incOks 1)) [])
  | .incUsedTime slot v, _ => .ok (.only (s.set slot (.incUsedTime v)) [])
  | .incTimeouts slot, _ => .ok (.only (s.set slot (.incTimeouts 1)) [])
  | .incErrs slot, _ => .ok (.only (s.set slot (.incErrs 1)) [])
  | .decDoing slot, _ => .ok (.only (s.set slot (.decDoing 1)) [])

end

/-- Time goes on, a call begins, or a call takes a step. -/
inductive Move where
  | tick (clock : UInt64)
  | request
  | getWeight
  | turn (k : ℕ) (result : Int32)
deriving DecidableEq

def init (clock : UInt64) : Calls := ⟨⟨.new 5, clock⟩, []⟩

def step (f : Calls) : Move → Except StepFault Calls
  | .tick clock =>
      if f.shared.clock ≤ clock then .ok { f with shared := { f.shared with clock := clock } }
      else .error .notEnabled
  | .request => .ok (f.start f.shared .request [.getCurrentMS])
  | .getWeight => .ok (f.start f.shared .getWeight [.time])
  | .turn k result => f.run id exec .notEnabled k result

end ItemStats

end Sylar
