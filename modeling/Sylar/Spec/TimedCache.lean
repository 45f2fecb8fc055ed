import Sylar.Spec.TimedLruCache

/-! `TimedCache` of `DataStructure/timed_cache.h`: a set of items ordered by expiry and
key, and an index from keys to its nodes. -/

namespace Sylar

open Lib

structure TimedCache (K V : Type) [LinearOrder K] where
  m_maxSize : ℕ
  m_elasticity : ℕ
  m_status : CacheStatus
  m_cache : AList fun _ : K => ℕ
  m_timed : Nodes (Item K V)
  m_cb : Bool
  next : ℕ

namespace TimedCache

variable {K V : Type} [LinearOrder K]

/-- `Item::operator<`, on the nodes of the set. -/
def less (a b : ℕ × Item K V) : Except Fault Bool :=
  if Item.ts a.2 ≠ Item.ts b.2 then .ok (Item.ts a.2 < Item.ts b.2)
  else .ok (Item.key a.2 < Item.key b.2)

def new (max_size elasticity : ℕ) (cb : Bool) : TimedCache K V :=
  ⟨max_size, elasticity, {}, ∅, [], cb, 0⟩

def size (c : TimedCache K V) : ℕ := c.m_cache.keys.length

def getMaxAllowedSize (c : TimedCache K V) : ℕ := (c.m_maxSize + c.m_elasticity) % 2 ^ 64

/-- The loop of `prune` over the set, from its first item on. -/
def pruneLoop : Nodes (Item K V) → TimedCache K V →
    Except Fault (List (K × V) × ℕ × TimedCache K V)
  | [], c =>
      if c.size > c.m_maxSize then .error .outOfBounds else .ok ([], 0, { c with m_timed := [] })
  | it :: rest, c =>
      if c.size > c.m_maxSize then do
        let (calls, count, c) ← pruneLoop rest { c with m_cache := c.m_cache.erase (Item.key it.2) }
        .ok (if c.m_cb then (Item.key it.2, Item.val it.2) :: calls else calls, count + 1, c)
      else .ok ([], 0, { c with m_timed := it :: rest })

def prune (c : TimedCache K V) : Except Fault (List (K × V) × ℕ × TimedCache K V) :=
  if c.m_maxSize = 0 ∨ c.size < c.getMaxAllowedSize then .ok ([], 0, c)
  else do
    let (calls, count, c) ← pruneLoop c.m_timed c
    .ok (calls, count, { c with m_status := c.m_status.incPrune count })

/-- `now` is what `GetCurrentMS` reads. An item that is already in the set stays as it
is and `insert` returns its node. -/
def set (c : TimedCache K V) (k : K) (v : V) (expired now : ℕ) :
    Except Fault (List (K × V) × TimedCache K V) := do
  let c := { c with m_status := c.m_status.incSet }
  let m_cache := if (c.m_cache.lookup k).isSome then c.m_cache.erase k else c.m_cache
  let (found, m_timed) ← OrderedSet.insert less (c.next, (k, v, expiry expired now)) c.m_timed
  let sit := (found.map Prod.fst).getD c.next
  let (calls, _, c) ← prune { c with
    m_cache := m_cache.insert k sit, m_timed := m_timed, next := c.next + 1 }
  .ok (calls, c)

def get (c : TimedCache K V) (k : K) : Except Fault (Option V × TimedCache K V) :=
  let c := { c with m_status := c.m_status.incGet }
  match c.m_cache.lookup k with
  | none => .ok (none, c)
  | some it => do
      let item ← deref c.m_timed it
      .ok (some (Item.val item), { c with m_status := c.m_status.incHit })

/-- `del`. When the key is there the function ends without returning a value, which leaves what the
caller gets undefined; the changes up to there are made. -/
def del (c : TimedCache K V) (k : K) : Except Fault (Option Bool × TimedCache K V) :=
  let c := { c with m_status := c.m_status.incDel }
  match c.m_cache.lookup k with
  | none => .ok (some false, c)
  | some it => do
      let _ ← deref c.m_timed it
      .ok (none, { c with
        m_timed := c.m_timed.remove it, m_cache := c.m_cache.erase k
        m_status := c.m_status.incHit })

/-- `expired`. The item that goes back into the set is the one that was taken out of it. -/
def expired (c : TimedCache K V) (k : K) (ts now : ℕ) : Except Fault (Bool × TimedCache K V) :=
  match c.m_cache.lookup k with
  | none => .ok (false, c)
  | some it => do
      let item ← deref c.m_timed it
      let tts := expiry ts now
      if Item.ts item = tts then .ok (true, c)
      else do
        let (found, m_timed) ← OrderedSet.insert less (c.next, item) (c.m_timed.remove it)
        let iit := (found.map Prod.fst).getD c.next
        .ok (true, { c with
          m_timed := m_timed, m_cache := c.m_cache.insert k iit, next := c.next + 1 })

def clear (c : TimedCache K V) : TimedCache K V := { c with m_timed := [], m_cache := ∅ }

def setMaxSize (c : TimedCache K V) (v : ℕ) : TimedCache K V := { c with m_maxSize := v }

def setElasticity (c : TimedCache K V) (v : ℕ) : TimedCache K V := { c with m_elasticity := v }

def setPruneCallback (c : TimedCache K V) (cb : Bool) : TimedCache K V := { c with m_cb := cb }

/-- The loop of `checkTimeout` over the rest of the set. -/
def timeoutLoop (ts : ℕ) : Nodes (Item K V) → TimedCache K V →
    List (K × V) × ℕ × TimedCache K V
  | [], c => ([], 0, { c with m_timed := [] })
  | it :: rest, c =>
      if Item.ts it.2 ≤ ts then
        let (calls, size, c) := timeoutLoop ts rest { c with
          m_cache := c.m_cache.erase (Item.key it.2) }
        (if c.m_cb then (Item.key it.2, Item.val it.2) :: calls else calls, size + 1, c)
      else ([], 0, { c with m_timed := it :: rest })

def checkTimeout (c : TimedCache K V) (ts : ℕ) : List (K × V) × ℕ × TimedCache K V :=
  timeoutLoop ts c.m_timed c

end TimedCache

end Sylar
