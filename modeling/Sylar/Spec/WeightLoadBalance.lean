import Sylar.Lib.Probes
import Sylar.Lib.Search
import Sylar.Spec.Basic

/-! `RoundRobinLoadBalance` and `WeightLoadBalance` of `streams/load_balance.cc`. A `P` is a
pointer to an item, and `m_datas` has the items of the map in the order in which it is gone
through. -/

namespace Sylar

open Lib

/-- What a call finds: the time, which items are valid, their weights and what `rand` gives. -/
structure Seen (P : Type) where
  ts : UInt64
  isValid : P → Bool
  getWeight : P → Int32
  rand : UInt64

variable {P : Type}

structure RoundRobinLoadBalance (P : Type) where
  m_datas : List P
  m_lastInitTime : UInt64
  m_items : List P

namespace RoundRobinLoadBalance

variable (lb : RoundRobinLoadBalance P) (s : Seen P)

def initNolock : RoundRobinLoadBalance P := { lb with m_items := lb.m_datas.filter s.isValid }

def checkInit : RoundRobinLoadBalance P :=
  if s.ts - lb.m_lastInitTime > 500 then { lb.initNolock s with m_lastInitTime := s.ts } else lb

def get (v : UInt64) : Except Fault (Option P × RoundRobinLoadBalance P) := do
  let lb := lb.checkInit s
  if lb.m_items = [] then .ok (none, lb)
  else
    let r := UInt32.ofNat ((if v = -1 then s.rand else v).toNat % lb.m_items.length)
    let h ← probe .outOfBounds lb.m_items s.isValid (around lb.m_items.length r.toNat)
    .ok (h, lb)

end RoundRobinLoadBalance

structure WeightLoadBalance (P : Type) where
  m_datas : List P
  m_lastInitTime : UInt64
  m_items : List P
  m_weights : List Int64

namespace WeightLoadBalance

/-- The loop of `initNolock` that fills `m_weights`. -/
def addWeights (getWeight : P → Int32) : Int64 → List P → List Int64
  | _, [] => []
  | total, item :: items =>
      let total := total + (getWeight item).toInt64
      total :: addWeights getWeight total items

variable (lb : WeightLoadBalance P) (s : Seen P)

def initNolock : WeightLoadBalance P :=
  let items := lb.m_datas.filter s.isValid
  { lb with m_items := items, m_weights := addWeights s.getWeight 0 items }

def checkInit : WeightLoadBalance P :=
  if s.ts - lb.m_lastInitTime > 500 then { lb.initNolock s with m_lastInitTime := s.ts } else lb

/-- `total` is converted for the remainder, and each weight for the comparison with `dis`. A
remainder by zero has no meaning. -/
def getIdx (v : UInt64) : Except Fault Int32 :=
  match lb.m_weights.getLast? with
  | none => .ok (-1)
  | some total =>
      if total.toUInt64 = 0 then .error .undefined
      else
        let dis := (if v = -1 then s.rand else v) % total.toUInt64
        let it := upperBound (fun w => decide (dis < w.toUInt64)) lb.m_weights
        if it = lb.m_weights.length then .error .assertFailed else .ok (Int32.ofNat it)

def get (v : UInt64) : Except Fault (Option P × WeightLoadBalance P) := do
  let lb := lb.checkInit s
  let idx ← lb.getIdx s v
  if idx = -1 then .ok (none, lb)
  else
    let h ← probe .outOfBounds lb.m_items s.isValid
      (aroundWrapping (2 ^ 64) lb.m_items.length idx.toInt64.toUInt64.toNat)
    .ok (h, lb)

end WeightLoadBalance

end Sylar
