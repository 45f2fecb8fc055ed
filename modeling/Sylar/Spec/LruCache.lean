import Sylar.Spec.Basic
import Sylar.Lib.Nodes

/-! `LruCache` of `DataStructure/LRU_Cache.h` and the counters of `CacheStatus`. The
list `m_keys` is a linked list with stable node addresses, which are what the
iterators in the index `m_cache` hold. A prune callback does not use the cache;
what the cache does with it are the calls it makes, and each operation returns
them. -/

namespace Sylar

open Lib

structure CacheStatus where
  m_get : Int64 := 0
  m_set : Int64 := 0
  m_del : Int64 := 0
  m_prune : Int64 := 0
  m_hit : Int64 := 0

namespace CacheStatus

def incGet (s : CacheStatus) : CacheStatus := { s with m_get := s.m_get + 1 }
def incSet (s : CacheStatus) : CacheStatus := { s with m_set := s.m_set + 1 }
def incDel (s : CacheStatus) : CacheStatus := { s with m_del := s.m_del + 1 }
def incPrune (s : CacheStatus) (v : ℕ) : CacheStatus := { s with m_prune := s.m_prune + .ofNat v }
def incHit (s : CacheStatus) : CacheStatus := { s with m_hit := s.m_hit + 1 }

end CacheStatus

def deref {α : Type} (l : Nodes α) (p : ℕ) : Except Fault α :=
  match l.read p with
  | none => .error .nullDeref
  | some x => .ok x

/-- `next` is where the next node will be allocated, `m_cb` whether a prune
callback is set. -/
structure LruCache (K V : Type) [DecidableEq K] where
  m_cache : AList fun _ : K => ℕ
  m_keys : Nodes (K × V)
  m_maxSize : ℕ
  m_elasticity : ℕ
  m_cb : Bool
  m_status : CacheStatus
  next : ℕ

namespace LruCache

variable {K V : Type} [DecidableEq K]

def new (max_size elasticity : ℕ) (cb : Bool) : LruCache K V :=
  ⟨∅, [], max_size, elasticity, cb, {}, 0⟩

def size (c : LruCache K V) : ℕ := c.m_cache.keys.length

def getMaxAllowedSize (c : LruCache K V) : ℕ := (c.m_maxSize + c.m_elasticity) % 2 ^ 64

/-- The loop of `prune`, with the calls it makes and their number. Each turn pops a
node, so as many turns as nodes suffice; then `back` has no node to refer to. -/
def pruneLoop : ℕ → LruCache K V → Except Fault (List (K × V) × ℕ × LruCache K V)
  | 0, c => if c.size > c.m_maxSize then .error .outOfBounds else .ok ([], 0, c)
  | turns + 1, c =>
      if c.size > c.m_maxSize then
        match c.m_keys.getLast? with
        | none => .error .outOfBounds
        | some back => do
            let (calls, count, c) ← pruneLoop turns { c with
              m_cache := c.m_cache.erase back.2.1, m_keys := c.m_keys.dropLast }
            .ok (if c.m_cb then back.2 :: calls else calls, count + 1, c)
      else .ok ([], 0, c)

def prune (c : LruCache K V) : Except Fault (List (K × V) × ℕ × LruCache K V) :=
  if c.m_maxSize = 0 ∨ c.size < c.getMaxAllowedSize then .ok ([], 0, c)
  else do
    let (calls, count, c) ← pruneLoop c.m_keys.length c
    .ok (calls, count, { c with m_status := c.m_status.incPrune count })

def set (c : LruCache K V) (k : K) (v : V) : Except Fault (List (K × V) × LruCache K V) :=
  let c := { c with m_status := c.m_status.incSet }
  match c.m_cache.lookup k with
  | some it => do
      let item ← deref c.m_keys it
      let m_keys := c.m_keys.write it (item.1, v)
      .ok ([], { c with m_keys := m_keys.toFront it (item.1, v) })
  | none => do
      let (calls, _, c) ← prune { c with
        m_keys := (c.next, (k, v)) :: c.m_keys
        m_cache := c.m_cache.insert k c.next
        next := c.next + 1 }
      .ok (calls, c)

def get (c : LruCache K V) (k : K) : Except Fault (Option V × LruCache K V) :=
  let c := { c with m_status := c.m_status.incGet }
  match c.m_cache.lookup k with
  | none => .ok (none, c)
  | some it => do
      let item ← deref c.m_keys it
      .ok (some item.2, { c with
        m_keys := c.m_keys.toFront it item, m_status := c.m_status.incHit })

def getValue [Inhabited V] (c : LruCache K V) (k : K) : Except Fault (V × LruCache K V) := do
  let (v, c) ← c.get k
  .ok (v.getD default, c)

def del (c : LruCache K V) (k : K) : Except Fault (Bool × LruCache K V) :=
  let c := { c with m_status := c.m_status.incDel }
  match c.m_cache.lookup k with
  | none => .ok (false, c)
  | some it => do
      let _ ← deref c.m_keys it
      .ok (true, { c with m_keys := c.m_keys.remove it, m_cache := c.m_cache.erase k })

def exists_ (c : LruCache K V) (k : K) : Bool := (c.m_cache.lookup k).isSome

def clear (c : LruCache K V) : Bool × LruCache K V := (true, { c with m_cache := ∅, m_keys := [] })

end LruCache

end Sylar
