import Sylar.Spec.LruCache
import Sylar.Lib.OrderedSet

/-! `TimedLruCache` of `DataStructure/timed_lru_cache.h`: an index of keys, a recency
list, and the set of its nodes ordered by expiry. The set holds iterators and its
order follows them, so it depends on what the nodes hold at the time. -/

namespace Sylar

open Lib

abbrev Item (K V : Type) := K × V × ℕ

abbrev Item.key {K V : Type} (i : Item K V) : K := i.1
abbrev Item.val {K V : Type} (i : Item K V) : V := i.2.1
abbrev Item.ts {K V : Type} (i : Item K V) : ℕ := i.2.2

def expiry (expired now : ℕ) : ℕ := (expired + now) % 2 ^ 64

structure TimedLruCache (K V : Type) [LinearOrder K] where
  m_cache : AList fun _ : K => ℕ
  m_keys : Nodes (Item K V)
  m_timed : List ℕ
  m_maxSize : ℕ
  m_elasticity : ℕ
  m_cb : Bool
  m_status : CacheStatus
  next : ℕ

namespace TimedLruCache

variable {K V : Type} [LinearOrder K]

def itemTimeOp (l : Nodes (Item K V)) (a b : ℕ) : Except Fault Bool :=
  if a = b then .ok false
  else do
    let x ← deref l a
    let y ← deref l b
    if Item.ts x ≠ Item.ts y then .ok (Item.ts x < Item.ts y)
    else .ok (Item.key x < Item.key y)

def new (max_size elasticity : ℕ) (cb : Bool) : TimedLruCache K V :=
  ⟨∅, [], [], max_size, elasticity, cb, {}, 0⟩

def size (c : TimedLruCache K V) : ℕ := c.m_cache.keys.length

def getMaxAllowedSize (c : TimedLruCache K V) : ℕ := (c.m_maxSize + c.m_elasticity) % 2 ^ 64

/-- The loop of `prune`; the calls carry key and value. -/
def pruneLoop : ℕ → TimedLruCache K V → Except Fault (List (K × V) × ℕ × TimedLruCache K V)
  | 0, c => if c.size > c.m_maxSize then .error .outOfBounds else .ok ([], 0, c)
  | turns + 1, c =>
      if c.size > c.m_maxSize then
        match c.m_keys.getLast? with
        | none => .error .outOfBounds
        | some back => do
            let m_timed ← OrderedSet.erase (itemTimeOp c.m_keys) back.1 c.m_timed
            let (calls, count, c) ← pruneLoop turns { c with
              m_cache := c.m_cache.erase (Item.key back.2)
              m_timed := m_timed
              m_keys := c.m_keys.dropLast }
            .ok (if c.m_cb then (Item.key back.2, Item.val back.2) :: calls else calls, count + 1, c)
      else .ok ([], 0, c)

def prune (c : TimedLruCache K V) : Except Fault (List (K × V) × ℕ × TimedLruCache K V) :=
  if c.m_maxSize = 0 ∨ c.size < c.getMaxAllowedSize then .ok ([], 0, c)
  else do
    let (calls, count, c) ← pruneLoop c.m_keys.length c
    .ok (calls, count, { c with m_status := c.m_status.incPrune count })

def set (c : TimedLruCache K V) (k : K) (v : V) (expired now : ℕ) :
    Except Fault (List (K × V) × TimedLruCache K V) :=
  let c := { c with m_status := c.m_status.incSet }
  match c.m_cache.lookup k with
  | some it => do
      let item ← deref c.m_keys it
      let m_keys := c.m_keys.toFront it item
      let m_timed ← OrderedSet.erase (itemTimeOp m_keys) it c.m_timed
      let m_keys := m_keys.write it (Item.key item, v, expiry expired now)
      let (_, m_timed) ← OrderedSet.insert (itemTimeOp m_keys) it m_timed
      .ok ([], { c with m_keys := m_keys, m_timed := m_timed })
  | none => do
      let it := c.next
      let m_keys := (it, (k, v, expiry expired now)) :: c.m_keys
      let (_, m_timed) ← OrderedSet.insert (itemTimeOp m_keys) it c.m_timed
      let (calls, _, c) ← prune { c with
        m_keys := m_keys
        m_cache := c.m_cache.insert k it
        m_timed := m_timed
        next := c.next + 1 }
      .ok (calls, c)

def get (c : TimedLruCache K V) (k : K) : Except Fault (Option V × TimedLruCache K V) :=
  let c := { c with m_status := c.m_status.incGet }
  match c.m_cache.lookup k with
  | none => .ok (none, c)
  | some it => do
      let item ← deref c.m_keys it
      .ok (some (Item.val item), { c with
        m_keys := c.m_keys.toFront it item, m_status := c.m_status.incHit })

def getValue [Inhabited V] (c : TimedLruCache K V) (k : K) :
    Except Fault (V × TimedLruCache K V) := do
  let (v, c) ← c.get k
  .ok (v.getD default, c)

def del (c : TimedLruCache K V) (k : K) : Except Fault (Bool × TimedLruCache K V) :=
  let c := { c with m_status := c.m_status.incDel }
  match c.m_cache.lookup k with
  | none => .ok (false, c)
  | some it => do
      let _ ← deref c.m_keys it
      let m_timed ← OrderedSet.erase (itemTimeOp c.m_keys) it c.m_timed
      .ok (true, { c with
        m_timed := m_timed, m_keys := c.m_keys.remove it, m_cache := c.m_cache.erase k })

def exists_ (c : TimedLruCache K V) (k : K) : Bool := (c.m_cache.lookup k).isSome

def clear (c : TimedLruCache K V) : Bool × TimedLruCache K V :=
  (true, { c with m_cache := ∅, m_keys := [], m_timed := [] })

/-- The loop of `checkTimeout` over the rest of the set. -/
def timeoutLoop (ts : ℕ) :
    List ℕ → TimedLruCache K V → Except Fault (List (K × V) × ℕ × TimedLruCache K V)
  | [], c => .ok ([], 0, { c with m_timed := [] })
  | it :: rest, c => do
      let item ← deref c.m_keys it
      if Item.ts item ≤ ts then do
        let (calls, size, c) ← timeoutLoop ts rest { c with
          m_cache := c.m_cache.erase (Item.key item)
          m_keys := c.m_keys.remove it }
        .ok (if c.m_cb then (Item.key item, Item.val item) :: calls else calls, size + 1, c)
      else .ok ([], 0, { c with m_timed := it :: rest })

def checkTimeout (c : TimedLruCache K V) (ts : ℕ) :
    Except Fault (List (K × V) × ℕ × TimedLruCache K V) :=
  timeoutLoop ts c.m_timed c

end TimedLruCache

end Sylar
