import Sylar.Spec.TimedLruCache
import Mathlib.Data.List.FinRange

/-! The sharded caches: `HashLruCache` of `DataStructure/LRU_Cache.h` and `HashTimedLruCache` of
`DataStructure/timed_lru_cache.h`. A key belongs to the shard `m_hash(k) % m_bucket`, and all shards
count in one `CacheStatus`. There is at least one shard; without one the remainder is undefined. -/

namespace Sylar

namespace LruCache

variable {K V : Type} [DecidableEq K]

def empty (c : LruCache K V) : Bool := c.m_cache.keys.isEmpty
def setMaxSize (c : LruCache K V) (v : ℕ) : LruCache K V := { c with m_maxSize := v }
def setElasticity (c : LruCache K V) (v : ℕ) : LruCache K V := { c with m_elasticity := v }
def setPruneCallback (c : LruCache K V) (cb : Bool) : LruCache K V := { c with m_cb := cb }
def withStatus (c : LruCache K V) (status : CacheStatus) : LruCache K V := { c with m_status := status }

end LruCache

namespace TimedLruCache

variable {K V : Type} [LinearOrder K]

def empty (c : TimedLruCache K V) : Bool := c.m_cache.keys.isEmpty
def setMaxSize (c : TimedLruCache K V) (v : ℕ) : TimedLruCache K V := { c with m_maxSize := v }
def setElasticity (c : TimedLruCache K V) (v : ℕ) : TimedLruCache K V := { c with m_elasticity := v }
def setPruneCallback (c : TimedLruCache K V) (cb : Bool) : TimedLruCache K V := { c with m_cb := cb }
def withStatus (c : TimedLruCache K V) (status : CacheStatus) : TimedLruCache K V :=
  { c with m_status := status }

end TimedLruCache

/-- What the templates ask of their `cache_type`. -/
class CacheType (C : Type) where
  new : ℕ → ℕ → C
  m_status : C → CacheStatus
  withStatus : C → CacheStatus → C
  size : C → ℕ
  empty : C → Bool
  clear : C → C
  setMaxSize : C → ℕ → C
  setElasticity : C → ℕ → C
  setPruneCallback : C → Bool → C

instance LruCache.cacheType {K V : Type} [DecidableEq K] : CacheType (LruCache K V) where
  new max_size elasticity := LruCache.new max_size elasticity false
  m_status := LruCache.m_status
  withStatus := LruCache.withStatus
  size := LruCache.size
  empty := LruCache.empty
  clear c := c.clear.2
  setMaxSize := LruCache.setMaxSize
  setElasticity := LruCache.setElasticity
  setPruneCallback := LruCache.setPruneCallback

instance TimedLruCache.cacheType {K V : Type} [LinearOrder K] : CacheType (TimedLruCache K V) where
  new max_size elasticity := TimedLruCache.new max_size elasticity false
  m_status := TimedLruCache.m_status
  withStatus := TimedLruCache.withStatus
  size := TimedLruCache.size
  empty := TimedLruCache.empty
  clear c := c.clear.2
  setMaxSize := TimedLruCache.setMaxSize
  setElasticity := TimedLruCache.setElasticity
  setPruneCallback := TimedLruCache.setPruneCallback

structure HashCache (C : Type) (m_bucket : ℕ) where
  m_datas : Fin m_bucket → C
  m_maxSize : ℕ
  m_elasticity : ℕ
  m_status : CacheStatus

namespace HashCache

variable {C ρ : Type} [CacheType C] {m_bucket : ℕ}

section

-- `ceil_div a b` is `std::ceil(a * 1.0 / b)`, computed in doubles and made a `size_t`.
variable (ceil_div : ℕ → ℕ → ℕ)

def new (max_size elasticity : ℕ) : HashCache C m_bucket :=
  let pre_max_size := ceil_div max_size m_bucket
  let pre_elasiticity := ceil_div elasticity m_bucket
  { m_datas := fun _ => CacheType.new pre_max_size pre_elasiticity
    m_maxSize := pre_max_size * m_bucket % 2 ^ 64
    m_elasticity := pre_elasiticity * m_bucket % 2 ^ 64
    m_status := {} }

/-- What `f` does with the shard `i`, which counts in `m_status`. -/
def on (h : HashCache C m_bucket) (i : Fin m_bucket) (f : C → Except Fault (ρ × C)) :
    Except Fault (ρ × HashCache C m_bucket) := do
  let (r, c) ← f (CacheType.withStatus (h.m_datas i) h.m_status)
  .ok (r, { h with m_datas := Function.update h.m_datas i c, m_status := CacheType.m_status c })

def forEach (f : C → Except Fault (ρ × C)) : List (Fin m_bucket) → HashCache C m_bucket →
    Except Fault (List ρ × HashCache C m_bucket)
  | [], h => .ok ([], h)
  | i :: is, h => do
      let (r, h) ← h.on i f
      let (rs, h) ← forEach f is h
      .ok (r :: rs, h)

def size (h : HashCache C m_bucket) : ℕ :=
  ((List.finRange m_bucket).map fun i => CacheType.size (h.m_datas i)).sum % 2 ^ 64

def empty (h : HashCache C m_bucket) : Bool :=
  (List.finRange m_bucket).all fun i => CacheType.empty (h.m_datas i)

def clear (h : HashCache C m_bucket) : Except Fault (HashCache C m_bucket) := do
  let (_, h) ← forEach (fun c => .ok ((), CacheType.clear c)) (List.finRange m_bucket) h
  .ok h

def getMaxAllowedSize (h : HashCache C m_bucket) : ℕ := (h.m_maxSize + h.m_elasticity) % 2 ^ 64

def setMaxSize (h : HashCache C m_bucket) (v : ℕ) : Except Fault (HashCache C m_bucket) := do
  let pre_max_size := ceil_div v m_bucket
  let (_, h) ← forEach (fun c => .ok ((), CacheType.setMaxSize c pre_max_size)) (List.finRange m_bucket)
    { h with m_maxSize := pre_max_size * m_bucket % 2 ^ 64 }
  .ok h

def setElasticity (h : HashCache C m_bucket) (v : ℕ) : Except Fault (HashCache C m_bucket) := do
  let pre_elasiticity := ceil_div v m_bucket
  let (_, h) ← forEach (fun c => .ok ((), CacheType.setElasticity c pre_elasiticity))
    (List.finRange m_bucket) { h with m_elasticity := pre_elasiticity * m_bucket % 2 ^ 64 }
  .ok h

def setPruneCallback (h : HashCache C m_bucket) (cb : Bool) : Except Fault (HashCache C m_bucket) := do
  let (_, h) ← forEach (fun c => .ok ((), CacheType.setPruneCallback c cb)) (List.finRange m_bucket) h
  .ok h

end

def bucketOf {K : Type} (m_hash : K → UInt64) [NeZero m_bucket] (k : K) : Fin m_bucket :=
  Fin.ofNat m_bucket (m_hash k).toNat

end HashCache

abbrev HashLruCache (K V : Type) [DecidableEq K] (m_bucket : ℕ) := HashCache (LruCache K V) m_bucket

namespace HashLruCache

open HashCache

variable {K V : Type} [DecidableEq K] {m_bucket : ℕ} [NeZero m_bucket] (m_hash : K → UInt64)

def set (h : HashLruCache K V m_bucket) (k : K) (v : V) :
    Except Fault (List (K × V) × HashLruCache K V m_bucket) :=
  h.on (bucketOf m_hash k) (·.set k v)

def get (h : HashLruCache K V m_bucket) (k : K) : Except Fault (Option V × HashLruCache K V m_bucket) :=
  h.on (bucketOf m_hash k) (·.get k)

def getValue [Inhabited V] (h : HashLruCache K V m_bucket) (k : K) :
    Except Fault (V × HashLruCache K V m_bucket) :=
  h.on (bucketOf m_hash k) (·.getValue k)

def del (h : HashLruCache K V m_bucket) (k : K) : Except Fault (Bool × HashLruCache K V m_bucket) :=
  h.on (bucketOf m_hash k) (·.del k)

def exists_ (h : HashLruCache K V m_bucket) (k : K) : Bool := (h.m_datas (bucketOf m_hash k)).exists_ k

end HashLruCache

abbrev HashTimedLruCache (K V : Type) [LinearOrder K] (m_bucket : ℕ) :=
  HashCache (TimedLruCache K V) m_bucket

namespace HashTimedLruCache

open HashCache

variable {K V : Type} [LinearOrder K] {m_bucket : ℕ}

section

variable [NeZero m_bucket] (m_hash : K → UInt64)

def set (h : HashTimedLruCache K V m_bucket) (k : K) (v : V) (expired now : ℕ) :
    Except Fault (List (K × V) × HashTimedLruCache K V m_bucket) :=
  h.on (bucketOf m_hash k) (·.set k v expired now)

def get (h : HashTimedLruCache K V m_bucket) (k : K) :
    Except Fault (Option V × HashTimedLruCache K V m_bucket) :=
  h.on (bucketOf m_hash k) (·.get k)

def getValue [Inhabited V] (h : HashTimedLruCache K V m_bucket) (k : K) :
    Except Fault (V × HashTimedLruCache K V m_bucket) :=
  h.on (bucketOf m_hash k) (·.getValue k)

def del (h : HashTimedLruCache K V m_bucket) (k : K) :
    Except Fault (Bool × HashTimedLruCache K V m_bucket) :=
  h.on (bucketOf m_hash k) (·.del k)

def exists_ (h : HashTimedLruCache K V m_bucket) (k : K) : Bool :=
  (h.m_datas (bucketOf m_hash k)).exists_ k

end

def checkTimeout (h : HashTimedLruCache K V m_bucket) (ts : ℕ) :
    Except Fault (List (K × V) × ℕ × HashTimedLruCache K V m_bucket) := do
  let (rs, h) ← forEach (fun c => do
    let (calls, n, c) ← c.checkTimeout ts
    .ok ((calls, n), c)) (List.finRange m_bucket) h
  .ok (rs.flatMap Prod.fst, (rs.map Prod.snd).sum % 2 ^ 64, h)

end HashTimedLruCache

end Sylar
