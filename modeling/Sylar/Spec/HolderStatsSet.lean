import Sylar.Spec.HolderStats

/-! `HolderStatsSet::get` of `streams/load_balance.cc`, for calls that come one after the other.
What is counted through the reference it returns is counted before the next call. -/

namespace Sylar

namespace HolderStats

/-- A counter is changed through a reference. -/
inductive Update where
  | incUsedTime (v : UInt32)
  | incTotal (v : UInt32)
  | incDoing (v : UInt32)
  | incTimeouts (v : UInt32)
  | incOks (v : UInt32)
  | incErrs (v : UInt32)
  | decDoing (v : UInt32)
deriving DecidableEq

def update (x : HolderStats) : Update → HolderStats
  | .incUsedTime v => x.incUsedTime v
  | .incTotal v => x.incTotal v
  | .incDoing v => x.incDoing v
  | .incTimeouts v => x.incTimeouts v
  | .incOks v => x.incOks v
  | .incErrs v => x.incErrs v
  | .decDoing v => x.decDoing v

end HolderStats

namespace HolderStatsSet

/-- The loop of `init`, with the turns that `i < m_stats.size()` leaves. -/
def clearLoop (now : UInt32) : ℕ → UInt32 → List HolderStats → List HolderStats
  | 0, _, stats => stats
  | turns + 1, t, stats =>
      if t ≤ now then clearLoop now turns (t + 1) (stats.modify (t.toNat % stats.length) .clear)
      else stats

def init (s : HolderStatsSet) (now : UInt32) : HolderStatsSet :=
  if s.m_lastUpdateTime < now then
    { m_lastUpdateTime := now
      m_stats := clearLoop now s.m_stats.length (s.m_lastUpdateTime + 1) s.m_stats }
  else s

def get (s : HolderStatsSet) (now : UInt32) : ℕ × HolderStatsSet :=
  ((s.init now).slot now, s.init now)

/-- A `get(now)`, and what is counted in what it returns. -/
structure Call where
  now : UInt32
  updates : List HolderStats.Update
deriving DecidableEq

def call (s : HolderStatsSet) (c : Call) : HolderStatsSet :=
  let r := s.get c.now
  { r.2 with m_stats := r.2.m_stats.modify r.1 fun x => c.updates.foldl HolderStats.update x }

/-- A set and, as a record, the calls so far. -/
structure History where
  set : HolderStatsSet
  calls : List Call
deriving DecidableEq

namespace History

def init (size : UInt32) : History := ⟨.new size.toNat, []⟩

def latest (f : History) : UInt32 :=
  match f.calls.getLast? with
  | none => 0
  | some c => c.now

/-- `now` does not decrease. -/
def step (f : History) (c : Call) : Except StepFault History :=
  if f.latest ≤ c.now then .ok ⟨f.set.call c, f.calls ++ [c]⟩ else .error .notEnabled

def counted (f : History) (s : ℕ) : HolderStats :=
  ((f.calls.filter fun c => c.now.toNat = s).flatMap Call.updates).foldl HolderStats.update .new

end History

end HolderStatsSet

end Sylar
