import Sylar.Spec.HashCache
import Sylar.Proofs.LruCache
import Sylar.Proofs.TimedLruCache
import Sylar.Lib.Shards

/-! A sharded cache is its shards side by side: what one of them holds and answers depends on the
operations on its own keys and on those that go to all shards, as if it were a cache alone. With
expiries, `checkTimeout` takes out of every shard what has expired. -/

namespace Sylar

open Lib

namespace HashCache

variable {C ω ρ ρ' α : Type} [CacheType C] {m_bucket : ℕ} {h : HashCache C m_bucket}

def shards (step : C → ω → Except Fault (ρ × C)) : Shards C CacheStatus ω Fault ρ where
  step := step
  enter e c := CacheType.withStatus c e
  leave := CacheType.m_status

/-- Only the shards and what they count have changed. -/
def with_ (h : HashCache C m_bucket) (s : (Fin m_bucket → C) × CacheStatus) : HashCache C m_bucket :=
  { h with m_datas := s.1, m_status := s.2 }

theorem on_eq (step : C → ω → Except Fault (ρ × C)) (h : HashCache C m_bucket) (i : Fin m_bucket) (o : ω) :
    h.on i (step · o) =
      ((shards step).one i o (h.m_datas, h.m_status)).map fun r => (r.1, h.with_ r.2) := by
  simp only [on, Shards.one, shards]
  cases step (CacheType.withStatus (h.m_datas i) h.m_status) o <;> rfl

theorem forEach_eq (step : C → ω → Except Fault (ρ × C)) (o : ω) (is : List (Fin m_bucket)) :
    ∀ h : HashCache C m_bucket, forEach (step · o) is h =
      ((shards step).all o is (h.m_datas, h.m_status)).map fun r => (r.1, h.with_ r.2) := by
  induction is with
  | nil => exact fun h => rfl
  | cons i is ih =>
    intro h
    rw [forEach, Shards.all, on_eq]
    cases (shards step).one i o (h.m_datas, h.m_status) with
    | error e => rfl
    | ok r =>
      have hpair : ((h.with_ r.2).m_datas, (h.with_ r.2).m_status) = r.2 := rfl
      simp only [Except.map, bind, Except.bind, ih, hpair]
      cases (shards step).all o is r.2 <;> rfl

theorem size_le {bound : ℕ} (hbound : ∀ i, CacheType.size (h.m_datas i) ≤ bound) :
    h.size ≤ m_bucket * bound := by
  refine (Nat.mod_le _ _).trans ?_
  have hle := List.sum_le_card_nsmul ((List.finRange m_bucket).map fun i => CacheType.size (h.m_datas i))
    bound fun n hn => by
      obtain ⟨i, -, rfl⟩ := List.mem_map.mp hn
      exact hbound i
  simpa using hle

theorem on_map (f : C → Except Fault (ρ × C)) (g : ρ → ρ') (h : HashCache C m_bucket) (i : Fin m_bucket) :
    (do let (r, h) ← h.on i f; .ok (g r, h)) = h.on i (fun c => do let (r, c) ← f c; .ok (g r, c)) := by
  simp only [on]
  cases f (CacheType.withStatus (h.m_datas i) h.m_status) <;> rfl

theorem forEach_map (f : C → Except Fault (ρ × C)) (g : ρ → ρ') (is : List (Fin m_bucket)) :
    ∀ h : HashCache C m_bucket, forEach (fun c => do let (r, c) ← f c; .ok (g r, c)) is h =
      (forEach f is h).map fun r => (r.1.map g, r.2) := by
  induction is with
  | nil => exact fun h => rfl
  | cons i is ih =>
    intro h
    rw [forEach, forEach, ← on_map]
    cases h.on i f with
    | error e => rfl
    | ok r =>
      have hrest := ih r.2
      simp only [bind, Except.bind] at hrest ⊢
      rw [hrest]
      cases forEach f is r.2 <;> rfl

theorem forEach_of_map {f : C → Except Fault (ρ × C)} {g : ρ → ρ'} {is : List (Fin m_bucket)}
    {h h' : HashCache C m_bucket} {rs : List ρ'}
    (hmap : forEach (fun c => do let (r, c) ← f c; .ok (g r, c)) is h = .ok (rs, h')) :
    ∃ us, forEach f is h = .ok (us, h') ∧ us.map g = rs := by
  rw [forEach_map] at hmap
  cases hf : forEach f is h with
  | error e => simp [hf, Except.map] at hmap
  | ok r =>
    rw [hf] at hmap
    cases hmap
    exact ⟨r.1, rfl, rfl⟩

theorem forEach_of_done {f : C → C} {g : ρ} {is : List (Fin m_bucket)} {h h' : HashCache C m_bucket}
    {rs : List ρ} (hmap : forEach (fun c => .ok (g, f c)) is h = .ok (rs, h')) :
    ∃ us, forEach (fun c => .ok ((), f c)) is h = .ok (us, h') := by
  obtain ⟨us, hus, -⟩ := forEach_of_map (f := fun c => .ok ((), f c)) (g := fun _ => g) hmap
  exact ⟨us, hus⟩

section

variable {step : C → ω → Except Fault (ρ × C)} {A : Machine α ω ρ} {R : C → α → Prop} {a : Fin m_bucket → α}

theorem on_refines (hR : (shards step).Refines A R) (hs : ∀ i, R (h.m_datas i) (a i)) (i : Fin m_bucket)
    {o : ω} (hok : A.ok (a i) o) :
    ∃ h', h.on i (step · o) = .ok ((A.step (a i) o).1, h') ∧
      ∀ j, R (h'.m_datas j) (Function.update a i (A.step (a i) o).2 j) := by
  obtain ⟨s, hone, hs'⟩ := hR.one (s := (h.m_datas, h.m_status)) hs hok
  exact ⟨h.with_ s, by rw [on_eq, hone]; rfl, hs'⟩

theorem forEach_refines (hR : (shards step).Refines A R) (hs : ∀ i, R (h.m_datas i) (a i)) {o : ω}
    (hok : ∀ i, A.ok (a i) o) :
    ∃ h', forEach (step · o) (List.finRange m_bucket) h =
        .ok ((List.finRange m_bucket).map fun i => (A.step (a i) o).1, h') ∧
      ∀ j, R (h'.m_datas j) (A.step (a j) o).2 := by
  obtain ⟨s, hall, hs'⟩ := hR.all o (List.finRange m_bucket) (s := (h.m_datas, h.m_status))
    (List.nodup_finRange m_bucket) hs fun i _ => hok i
  refine ⟨h.with_ s, by rw [forEach_eq, hall]; rfl, fun j => ?_⟩
  have hj := hs' j
  rwa [if_pos (List.mem_finRange j)] at hj

end

end HashCache

namespace LruCache

variable {K V : Type} [DecidableEq K]

/-- What changes a cache or asks it for a key. -/
inductive Call (K V : Type) where
  | set (k : K) (v : V)
  | get (k : K)
  | getValue (k : K)
  | del (k : K)
  | clear
  | setMaxSize (v : ℕ)
  | setElasticity (v : ℕ)
  | setPruneCallback (cb : Bool)

def call [Inhabited V] (c : LruCache K V) : Call K V → Except Fault (Reply K V × LruCache K V)
  | .set k v => do
      let (calls, c) ← c.set k v
      .ok (.done calls, c)
  | .get k => do
      let (v, c) ← c.get k
      .ok (.value v, c)
  | .getValue k => do
      let (v, c) ← c.getValue k
      .ok (.value (some v), c)
  | .del k => do
      let (b, c) ← c.del k
      .ok (.flag b, c)
  | .clear => .ok (.done [], c.clear.2)
  | .setMaxSize v => .ok (.done [], c.setMaxSize v)
  | .setElasticity v => .ok (.done [], c.setElasticity v)
  | .setPruneCallback cb => .ok (.done [], c.setPruneCallback cb)

/-- A recency list and what bounds it. -/
structure Bounded (K V : Type) where
  max : ℕ
  elasticity : ℕ
  cb : Bool
  mru : List (K × V)

namespace Bounded

def put (b : Bounded K V) (k : K) (v : V) : List (K × V) × List (K × V) :=
  Recency.put b.max ((b.max + b.elasticity) % 2 ^ 64) b.mru k v

/-- A list with these bounds, and no longer than `bound`. -/
structure Within (max elasticity bound : ℕ) (b : Bounded K V) : Prop where
  max_eq : b.max = max
  elasticity_eq : b.elasticity = elasticity
  length_le : b.mru.length ≤ bound

namespace Within

variable {max elasticity bound : ℕ} {b : Bounded K V}

omit [DecidableEq K] in
theorem list (h : b.Within max elasticity bound) {l : List (K × V)} (hl : l.length ≤ bound) :
    Within max elasticity bound { b with mru := l } :=
  ⟨h.max_eq, h.elasticity_eq, hl⟩

theorem put (h : b.Within max elasticity bound) (hmax : 0 < max)
    (hbound : Max.max max (max + elasticity - 1) ≤ bound) (k : K) (v : V) :
    Within max elasticity bound { b with mru := (b.put k v).1 } := by
  have hmod : (max + elasticity) % 2 ^ 64 ≤ max + elasticity := Nat.mod_le _ _
  refine h.list ?_
  unfold Bounded.put
  rw [h.max_eq, h.elasticity_eq]
  exact Recency.length_put_le hmax (by omega) h.length_le k v

end Within

def machine (K V : Type) [DecidableEq K] [Inhabited V] : Machine (Bounded K V) (Call K V) (Reply K V) where
  step b o :=
    match o with
    | .set k v => (.done (if b.cb then (b.put k v).2 else []), { b with mru := (b.put k v).1 })
    | .get k => (.value (Assoc.find b.mru k), { b with mru := Recency.use b.mru k })
    | .getValue k =>
        (.value (some ((Assoc.find b.mru k).getD default)), { b with mru := Recency.use b.mru k })
    | .del k => (.flag (Assoc.find b.mru k).isSome, { b with mru := Assoc.without b.mru k })
    | .clear => (.done [], { b with mru := [] })
    | .setMaxSize v => (.done [], { b with max := v })
    | .setElasticity v => (.done [], { b with elasticity := v })
    | .setPruneCallback cb => (.done [], { b with cb := cb })
  ok _ _ := True

end Bounded

omit [DecidableEq K] in
theorem within_update {max elasticity bound n : ℕ} {f : Fin n → Bounded K V} {b : Bounded K V}
    (h : ∀ i, (f i).Within max elasticity bound)
    (j : Fin n) (hb : b.Within max elasticity bound) (i : Fin n) :
    (Function.update f j b i).Within max elasticity bound := by
  by_cases hi : i = j
  · subst hi
    simpa using hb
  · simpa [Function.update_of_ne hi] using h i

theorem call_refines [Inhabited V] : (HashCache.shards (call (K := K) (V := V))).Refines
    (Bounded.machine K V) fun c b => Represents b.max b.elasticity b.cb c b.mru where
  step := by
    intro c b o h _
    cases o with
    | set k v =>
      obtain ⟨c', heq, hrep⟩ := set_eq h k v
      exact ⟨c', by simp only [HashCache.shards, call, heq]; rfl, hrep⟩
    | get k =>
      obtain ⟨c', heq, hrep⟩ := get_eq h k
      exact ⟨c', by simp only [HashCache.shards, call, heq]; rfl, hrep⟩
    | getValue k =>
      obtain ⟨c', heq, hrep⟩ := get_eq h k
      exact ⟨c', by simp only [HashCache.shards, call, getValue, heq]; rfl, hrep⟩
    | del k =>
      obtain ⟨c', heq, hrep⟩ := del_eq h k
      exact ⟨c', by simp only [HashCache.shards, call, heq]; rfl, hrep⟩
    | clear =>
      exact ⟨_, rfl, Recency.Holds.empty c.next, h.maxSize_eq, h.elasticity_eq, h.cb_eq⟩
    | setMaxSize v => exact ⟨_, rfl, h.holds, rfl, h.elasticity_eq, h.cb_eq⟩
    | setElasticity v => exact ⟨_, rfl, h.holds, h.maxSize_eq, rfl, h.cb_eq⟩
    | setPruneCallback cb => exact ⟨_, rfl, h.holds, h.maxSize_eq, h.elasticity_eq, rfl⟩
  enter h _ := ⟨h.holds, h.maxSize_eq, h.elasticity_eq, h.cb_eq⟩

end LruCache

namespace HashLruCache

open HashCache LruCache

variable {K V : Type} [DecidableEq K] [Inhabited V] {m_bucket : ℕ} [NeZero m_bucket]

inductive Op (K V : Type) where
  | set (k : K) (v : V)
  | get (k : K)
  | getValue (k : K)
  | del (k : K)
  | exists_ (k : K)
  | size
  | empty
  | clear
  | setMaxSize (v : ℕ)
  | setElasticity (v : ℕ)
  | setPruneCallback (cb : Bool)

section

variable (ceil_div : ℕ → ℕ → ℕ) (m_hash : K → UInt64)

def op (h : HashLruCache K V m_bucket) :
    Op K V → Except Fault (Reply K V × HashLruCache K V m_bucket)
  | .set k v => do
      let (calls, h) ← set m_hash h k v
      .ok (.done calls, h)
  | .get k => do
      let (v, h) ← get m_hash h k
      .ok (.value v, h)
  | .getValue k => do
      let (v, h) ← getValue m_hash h k
      .ok (.value (some v), h)
  | .del k => do
      let (b, h) ← del m_hash h k
      .ok (.flag b, h)
  | .exists_ k => .ok (.flag (exists_ m_hash h k), h)
  | .size => .ok (.number h.size, h)
  | .empty => .ok (.flag h.empty, h)
  | .clear => do
      let h ← h.clear
      .ok (.done [], h)
  | .setMaxSize v => do
      let h ← h.setMaxSize ceil_div v
      .ok (.done [], h)
  | .setElasticity v => do
      let h ← h.setElasticity ceil_div v
      .ok (.done [], h)
  | .setPruneCallback cb => do
      let h ← h.setPruneCallback cb
      .ok (.done [], h)

def after (h : HashLruCache K V m_bucket) (ops : List (Op K V)) : Except Fault (HashLruCache K V m_bucket) :=
  ops.foldlM (fun h o => (op ceil_div m_hash h o).map Prod.snd) h

def route : Op K V → Option (Shards.Op (Fin m_bucket) (Call K V))
  | .set k v => some (.one (bucketOf m_hash k) (.set k v))
  | .get k => some (.one (bucketOf m_hash k) (.get k))
  | .getValue k => some (.one (bucketOf m_hash k) (.getValue k))
  | .del k => some (.one (bucketOf m_hash k) (.del k))
  | .exists_ _ => none
  | .size => none
  | .empty => none
  | .clear => some (.all .clear)
  | .setMaxSize v => some (.all (.setMaxSize (ceil_div v m_bucket)))
  | .setElasticity v => some (.all (.setElasticity (ceil_div v m_bucket)))
  | .setPruneCallback cb => some (.all (.setPruneCallback cb))

def buckets (max_size elasticity : ℕ) (ops : List (Op K V)) : Fin m_bucket → Bounded K V :=
  Shards.stand (Bounded.machine K V)
    (fun _ => ⟨ceil_div max_size m_bucket, ceil_div elasticity m_bucket, false, []⟩)
    (ops.filterMap (route ceil_div m_hash))

def answer (b : Fin m_bucket → Bounded K V) : Op K V → Reply K V
  | .set k v =>
      let c := b (bucketOf m_hash k)
      .done (if c.cb then (c.put k v).2 else [])
  | .get k => .value (Assoc.find (b (bucketOf m_hash k)).mru k)
  | .getValue k => .value (some ((Assoc.find (b (bucketOf m_hash k)).mru k).getD default))
  | .del k => .flag (Assoc.find (b (bucketOf m_hash k)).mru k).isSome
  | .exists_ k => .flag (Assoc.find (b (bucketOf m_hash k)).mru k).isSome
  | .size => .number (((List.finRange m_bucket).map fun i => (b i).mru.length).sum % 2 ^ 64)
  | .empty => .flag ((List.finRange m_bucket).all fun i => (b i).mru.isEmpty)
  | _ => .done []

def Shows (h : HashLruCache K V m_bucket) (b : Fin m_bucket → Bounded K V) : Prop :=
  ∀ i, Represents (b i).max (b i).elasticity (b i).cb (h.m_datas i) (b i).mru

variable {h : HashLruCache K V m_bucket} {b : Fin m_bucket → Bounded K V}

omit [Inhabited V] [NeZero m_bucket] in
theorem Shows.empty_eq (hs : Shows h b) (i : Fin m_bucket) :
    CacheType.empty (h.m_datas i) = (b i).mru.isEmpty := by
  have hsize := (hs i).holds.size_eq
  change (h.m_datas i).m_cache.keys.isEmpty = _
  rw [Bool.eq_iff_iff, List.isEmpty_iff_length_eq_zero, List.isEmpty_iff_length_eq_zero, hsize]

def moved (b : Fin m_bucket → Bounded K V) (o : Op K V) :
    Fin m_bucket → Bounded K V :=
  (route ceil_div m_hash o).elim b (Shards.turn (Bounded.machine K V) b)

/-- Each operation answers by the lists, and moves the shards it is for. -/
theorem Shows.op (hs : Shows h b) (o : Op K V) :
    ∃ h', op ceil_div m_hash h o = .ok (answer m_hash b o, h') ∧ Shows h' (moved ceil_div m_hash b o) := by
  cases o with
  | set k v =>
    obtain ⟨h', heq, hs'⟩ := on_refines call_refines hs (bucketOf m_hash k) (o := .set k v) trivial
    exact ⟨h', (on_map (fun c : LruCache K V => c.set k v) Reply.done h (bucketOf m_hash k)).trans heq, hs'⟩
  | get k =>
    obtain ⟨h', heq, hs'⟩ := on_refines call_refines hs (bucketOf m_hash k) (o := .get k) trivial
    exact ⟨h', (on_map (fun c : LruCache K V => c.get k) Reply.value h (bucketOf m_hash k)).trans heq, hs'⟩
  | getValue k =>
    obtain ⟨h', heq, hs'⟩ := on_refines call_refines hs (bucketOf m_hash k) (o := .getValue k) trivial
    exact ⟨h', (on_map (fun c : LruCache K V => c.getValue k) (fun v => Reply.value (some v)) h (bucketOf m_hash k)).trans heq, hs'⟩
  | del k =>
    obtain ⟨h', heq, hs'⟩ := on_refines call_refines hs (bucketOf m_hash k) (o := .del k) trivial
    exact ⟨h', (on_map (fun c : LruCache K V => c.del k) Reply.flag h (bucketOf m_hash k)).trans heq, hs'⟩
  | exists_ k =>
    have hfind := (hs (bucketOf m_hash k)).holds.isSome_eq (k := k)
    exact ⟨h, by simp only [HashLruCache.op, exists_, LruCache.exists_, hfind, answer], hs⟩
  | size =>
    have hsize : ∀ i, CacheType.size (h.m_datas i) = (b i).mru.length := fun i => (hs i).holds.size_eq
    exact ⟨h, by simp only [HashLruCache.op, HashCache.size, hsize, answer], hs⟩
  | empty =>
    exact ⟨h, by simp only [HashLruCache.op, HashCache.empty, hs.empty_eq, answer], hs⟩
  | clear =>
    obtain ⟨h', heq, hs'⟩ := forEach_refines call_refines hs (o := .clear) fun _ => trivial
    obtain ⟨us, heq⟩ := forEach_of_done heq
    exact ⟨h', by simp only [HashLruCache.op, HashCache.clear, CacheType.clear, heq]; rfl, hs'⟩
  | setMaxSize v =>
    obtain ⟨h', heq, hs'⟩ := forEach_refines call_refines
      (h := { h with m_maxSize := ceil_div v m_bucket * m_bucket % 2 ^ 64 }) hs
      (o := .setMaxSize (ceil_div v m_bucket)) fun _ => trivial
    obtain ⟨us, heq⟩ := forEach_of_done heq
    exact ⟨h', by simp only [HashLruCache.op, HashCache.setMaxSize, CacheType.setMaxSize, heq]; rfl, hs'⟩
  | setElasticity v =>
    obtain ⟨h', heq, hs'⟩ := forEach_refines call_refines
      (h := { h with m_elasticity := ceil_div v m_bucket * m_bucket % 2 ^ 64 }) hs
      (o := .setElasticity (ceil_div v m_bucket)) fun _ => trivial
    obtain ⟨us, heq⟩ := forEach_of_done heq
    exact ⟨h', by simp only [HashLruCache.op, HashCache.setElasticity, CacheType.setElasticity, heq]; rfl,
      hs'⟩
  | setPruneCallback cb =>
    obtain ⟨h', heq, hs'⟩ := forEach_refines call_refines hs (o := .setPruneCallback cb) fun _ => trivial
    obtain ⟨us, heq⟩ := forEach_of_done heq
    exact ⟨h', by simp only [HashLruCache.op, HashCache.setPruneCallback, CacheType.setPruneCallback, heq]; rfl,
      hs'⟩

theorem buckets_concat (max_size elasticity : ℕ) (ops : List (Op K V)) (o : Op K V) :
    (buckets ceil_div m_hash max_size elasticity (ops ++ [o]) : Fin m_bucket → Bounded K V) =
      moved ceil_div m_hash (buckets ceil_div m_hash max_size elasticity ops) o := by
  unfold buckets moved
  rw [List.filterMap_append]
  cases hroute : (route ceil_div m_hash o : Option (Shards.Op (Fin m_bucket) (Call K V))) with
  | none => simp [hroute]
  | some r =>
    rw [List.filterMap_cons_some hroute, List.filterMap_nil, Shards.stand_concat]
    rfl

def written (f : K → Option V) : Op K V → K → Option V
  | .set k v => Function.update f k (some v)
  | _ => f

def latest (ops : List (Op K V)) : K → Option V := ops.foldl written fun _ => none

/-- The part of `f` that belongs to the shard `i`. -/
def own (f : K → Option V) (i : Fin m_bucket) (k : K) : Option V :=
  if bucketOf m_hash k = i then f k else none

omit [Inhabited V] in
theorem own_update (f : K → Option V) (k : K) (v : V) (i : Fin m_bucket) :
    own m_hash (Function.update f k (some v)) i =
      if bucketOf m_hash k = i then Function.update (own m_hash f i) k (some v) else own m_hash f i := by
  funext k'
  by_cases hk : k' = k
  · subst hk
    by_cases hi : bucketOf m_hash k' = i <;> simp [own, hi]
  · by_cases hi : bucketOf m_hash k = i <;> simp [own, hi, hk]

/-- Each shard has keys of its own, with what they were last set to. -/
def Kept (f : K → Option V) (b : Fin m_bucket → Bounded K V) : Prop :=
  ∀ i, Recency.Latest (own m_hash f i) (b i).mru

omit [DecidableEq K] [Inhabited V] in
theorem Kept.shard {f : K → Option V} (hb : Kept m_hash f b) (i : Fin m_bucket) {c : Bounded K V}
    (hc : Recency.Latest (own m_hash f i) c.mru) : Kept m_hash f (Function.update b i c) := by
  intro j
  by_cases hj : j = i
  · subst hj
    simpa using hc
  · simpa [Function.update_of_ne hj] using hb j

omit [Inhabited V] in
theorem Kept.put {f : K → Option V} (hb : Kept m_hash f b) (k : K) (v : V) :
    Kept m_hash (Function.update f k (some v)) (Function.update b (bucketOf m_hash k)
      { b (bucketOf m_hash k) with mru := ((b (bucketOf m_hash k)).put k v).1 }) := by
  intro j
  have hput := (hb (bucketOf m_hash k)).put (b (bucketOf m_hash k)).max
    (((b (bucketOf m_hash k)).max + (b (bucketOf m_hash k)).elasticity) % 2 ^ 64) k v
  rw [own_update]
  by_cases hj : bucketOf m_hash k = j
  · subst hj
    simpa [Bounded.put] using hput
  · rw [if_neg hj]
    simpa [Function.update_of_ne (Ne.symm hj)] using hb j

omit [DecidableEq K] [Inhabited V] in
theorem Kept.own_some {f : K → Option V} (hb : Kept m_hash f b) (i : Fin m_bucket) {p : K × V}
    (hp : p ∈ (b i).mru) : bucketOf m_hash p.1 = i ∧ f p.1 = some p.2 := by
  have hown := hb i p hp
  unfold own at hown
  split at hown
  · next hi => exact ⟨hi, hown⟩
  · cases hown

theorem Kept.moved {f : K → Option V} (hb : Kept m_hash f b) (o : Op K V) :
    Kept m_hash (written f o) (moved ceil_div m_hash b o) := by
  cases o with
  | set k v => exact hb.put m_hash k v
  | get k => exact hb.shard m_hash _ ((hb _).use k)
  | getValue k => exact hb.shard m_hash _ ((hb _).use k)
  | del k => exact hb.shard m_hash _ ((hb _).without k)
  | exists_ k => exact hb
  | size => exact hb
  | empty => exact hb
  | clear => exact fun i p hp => absurd hp List.not_mem_nil
  | setMaxSize v => exact hb
  | setElasticity v => exact hb
  | setPruneCallback cb => exact hb

def Steady : Op K V → Prop
  | .setMaxSize _ => False
  | .setElasticity _ => False
  | _ => True

theorem within_moved {max elasticity bound : ℕ} (hmax : 0 < max)
    (hbound : Max.max max (max + elasticity - 1) ≤ bound)
    (hb : ∀ i, (b i).Within max elasticity bound) {o : Op K V} (ho : Steady o) (i : Fin m_bucket) :
    (moved ceil_div m_hash b o i).Within max elasticity bound := by
  cases o with
  | set k v => exact within_update hb _ ((hb _).put hmax hbound k v) i
  | get k => exact within_update hb _ ((hb _).list ((Recency.length_use_le _ k).trans (hb _).length_le)) i
  | getValue k =>
    exact within_update hb _ ((hb _).list ((Recency.length_use_le _ k).trans (hb _).length_le)) i
  | del k =>
    exact within_update hb _ ((hb _).list ((Recency.length_without_le _ k).trans (hb _).length_le)) i
  | exists_ k => exact hb i
  | size => exact hb i
  | empty => exact hb i
  | clear => exact (hb i).list (Nat.zero_le _)
  | setMaxSize v => exact absurd ho id
  | setElasticity v => exact absurd ho id
  | setPruneCallback cb => exact ⟨(hb i).max_eq, (hb i).elasticity_eq, (hb i).length_le⟩

theorem after_shows (max_size elasticity : ℕ) (ops : List (Op K V)) :
    ∃ h, after ceil_div m_hash (new ceil_div max_size elasticity : HashLruCache K V m_bucket) ops = .ok h ∧
      Shows h (buckets ceil_div m_hash max_size elasticity ops) := by
  induction ops using List.reverseRecOn with
  | nil => exact ⟨_, rfl, fun i => ⟨Recency.Holds.empty 0, rfl, rfl, rfl⟩⟩
  | append_singleton ops o ih =>
    obtain ⟨h, hafter, hs⟩ := ih
    obtain ⟨h', hop, hs'⟩ := hs.op ceil_div m_hash o
    refine ⟨h', ?_, by rwa [buckets_concat]⟩
    unfold after at hafter ⊢
    rw [List.foldlM_append, hafter]
    exact (bind_pure (m := Except Fault) _).trans (by simp only [hop, Except.map])

theorem kept (max_size elasticity : ℕ) (ops : List (Op K V)) :
    Kept m_hash (latest ops)
      (buckets ceil_div m_hash max_size elasticity ops : Fin m_bucket → Bounded K V) := by
  induction ops using List.reverseRecOn with
  | nil => exact fun i p hp => absurd hp List.not_mem_nil
  | append_singleton ops o ih =>
    rw [buckets_concat, latest, List.foldl_append]
    exact ih.moved ceil_div m_hash o

theorem within {max_size elasticity : ℕ} (hmax : 0 < ceil_div max_size m_bucket) {bound : ℕ}
    (hbound : Max.max (ceil_div max_size m_bucket)
      (ceil_div max_size m_bucket + ceil_div elasticity m_bucket - 1) ≤ bound)
    (ops : List (Op K V)) (hops : ∀ o ∈ ops, Steady o) (i : Fin m_bucket) :
    (buckets ceil_div m_hash max_size elasticity ops i).Within (ceil_div max_size m_bucket)
      (ceil_div elasticity m_bucket) bound := by
  induction ops using List.reverseRecOn generalizing i with
  | nil => exact ⟨rfl, rfl, Nat.zero_le _⟩
  | append_singleton ops o ih =>
    rw [buckets_concat]
    exact within_moved ceil_div m_hash hmax hbound (ih fun o' ho' => hops o' (List.mem_append_left _ ho'))
      (hops o (List.mem_append_right _ (List.mem_singleton_self o))) i

/-- Whatever is done to a sharded cache, no operation fails; a shard holds, in the order of their use,
the keys that hash to it, with what they were last set to, as the operations that reached it make it
alone; every answer is what the shards' lists say; and with fixed bounds the cache stays bounded. -/
theorem buckets_apart (max_size elasticity : ℕ) (ops : List (Op K V)) :
    let b : Fin m_bucket → Bounded K V := buckets ceil_div m_hash max_size elasticity ops
    ∃ h, after ceil_div m_hash (new ceil_div max_size elasticity) ops = .ok h ∧
      (∀ i, (h.m_datas i).items = (b i).mru ∧ Consistent (h.m_datas i) ∧
        ∀ p ∈ (b i).mru, bucketOf m_hash p.1 = i ∧ latest ops p.1 = some p.2) ∧
      (∀ o, ∃ h', op ceil_div m_hash h o = .ok (answer m_hash b o, h')) ∧
      (0 < ceil_div max_size m_bucket → (∀ o ∈ ops, Steady o) → h.size ≤ m_bucket *
        Max.max (ceil_div max_size m_bucket)
          (ceil_div max_size m_bucket + ceil_div elasticity m_bucket - 1)) := by
  intro b
  obtain ⟨h, hafter, hs⟩ : ∃ h, after ceil_div m_hash (new ceil_div max_size elasticity) ops = .ok h ∧
      Shows h b := after_shows ceil_div m_hash max_size elasticity ops
  refine ⟨h, hafter, fun i => ⟨(hs i).holds.items_eq, (hs i).consistent, fun p hp => ?_⟩, fun o => ?_,
    fun hmax hops => ?_⟩
  · exact (kept ceil_div m_hash max_size elasticity ops).own_some m_hash i hp
  · obtain ⟨h', hop, -⟩ := hs.op ceil_div m_hash o
    exact ⟨h', hop⟩
  · refine size_le fun i => ?_
    have hsize : CacheType.size (h.m_datas i) = (b i).mru.length := (hs i).holds.size_eq
    rw [hsize]
    exact (within ceil_div m_hash hmax le_rfl ops hops i).length_le

/-- The keys 1 and 3 share a shard, which is cut down to one of them; 2 is in the other one. -/
theorem buckets_apart_two_shards :
    ∃ h, after (fun a b => (a + b - 1) / b) UInt64.ofNat (new (fun a b => (a + b - 1) / b) 2 1)
        [.set 1 10, .set 2 20, .set 3 30] = .ok h ∧
      (h.m_datas (0 : Fin 2)).items = [(2, 20)] ∧ (h.m_datas 1).items = [(3, 30)] ∧ h.size ≤ 2 := by
  obtain ⟨h, hafter, hshards, -, hsize⟩ := @buckets_apart ℕ ℕ _ _ 2 _
    (fun a b => (a + b - 1) / b) UInt64.ofNat 2 1 [.set 1 10, .set 2 20, .set 3 30]
  exact ⟨h, hafter, (hshards 0).1.trans (by decide), (hshards 1).1.trans (by decide),
    hsize (by decide) (by simp [Steady])⟩

end

end HashLruCache

namespace TimedLruCache

variable {K V : Type} [LinearOrder K]

/-- What changes a cache or asks it for a key. -/
inductive Call (K V : Type) where
  | set (k : K) (v : V) (expired now : ℕ)
  | get (k : K)
  | getValue (k : K)
  | del (k : K)
  | checkTimeout (ts : ℕ)
  | clear
  | setMaxSize (v : ℕ)
  | setElasticity (v : ℕ)
  | setPruneCallback (cb : Bool)

def call [Inhabited V] (c : TimedLruCache K V) : Call K V → Except Fault (Reply K V × TimedLruCache K V)
  | .set k v expired now => do
      let (calls, c) ← c.set k v expired now
      .ok (.done calls, c)
  | .get k => do
      let (v, c) ← c.get k
      .ok (.value v, c)
  | .getValue k => do
      let (v, c) ← c.getValue k
      .ok (.value (some v), c)
  | .del k => do
      let (b, c) ← c.del k
      .ok (.flag b, c)
  | .checkTimeout ts => do
      let (calls, n, c) ← c.checkTimeout ts
      .ok (.timeout calls n, c)
  | .clear => .ok (.done [], c.clear.2)
  | .setMaxSize v => .ok (.done [], c.setMaxSize v)
  | .setElasticity v => .ok (.done [], c.setElasticity v)
  | .setPruneCallback cb => .ok (.done [], c.setPruneCallback cb)

/-- A recency list with its bounds, where a value is kept with its expiry. -/
abbrev Bounded (K V : Type) := LruCache.Bounded K (V × ℕ)

namespace Bounded

/-- What has expired by `ts`, as the callback is told of it. -/
def reported (b : Bounded K V) (ts : ℕ) : List (K × V) :=
  if b.cb then (expiring b.mru ts).map Item.pair else []

/-- A bounded recency list with expiries as a machine; no expiry overflows. -/
def machine (K V : Type) [LinearOrder K] [Inhabited V] : Machine (Bounded K V) (Call K V) (Reply K V) where
  step b o :=
    match o with
    | .set k v expired now =>
        (.done (if b.cb then (b.put k (v, expired + now)).2.map Item.pair else []),
          { b with mru := (b.put k (v, expired + now)).1 })
    | .get k => (.value ((Assoc.find b.mru k).map Prod.fst), { b with mru := Recency.use b.mru k })
    | .getValue k =>
        (.value (some (((Assoc.find b.mru k).map Prod.fst).getD default)),
          { b with mru := Recency.use b.mru k })
    | .del k => (.flag (Assoc.find b.mru k).isSome, { b with mru := Assoc.without b.mru k })
    | .checkTimeout ts =>
        (.timeout (reported b ts) (expiring b.mru ts).length,
          { b with mru := b.mru.filter fun i => ts < Item.ts i })
    | .clear => (.done [], { b with mru := [] })
    | .setMaxSize v => (.done [], { b with max := v })
    | .setElasticity v => (.done [], { b with elasticity := v })
    | .setPruneCallback cb => (.done [], { b with cb := cb })
  ok _ o :=
    match o with
    | .set _ _ expired now => expired + now < 2 ^ 64
    | _ => True

end Bounded

theorem call_refines [Inhabited V] : (HashCache.shards (call (K := K) (V := V))).Refines
    (Bounded.machine K V) fun c b => Represents b.max b.elasticity b.cb c b.mru where
  step := by
    intro c b o h hok
    cases o with
    | set k v expired now =>
      obtain ⟨c', heq, hrep⟩ := set_eq h k v hok
      exact ⟨c', by simp only [HashCache.shards, call, heq]; rfl, hrep⟩
    | get k =>
      obtain ⟨c', heq, hrep⟩ := get_eq h k
      exact ⟨c', by simp only [HashCache.shards, call, heq]; rfl, hrep⟩
    | getValue k =>
      obtain ⟨c', heq, hrep⟩ := get_eq h k
      exact ⟨c', by simp only [HashCache.shards, call, getValue, heq]; rfl, hrep⟩
    | del k =>
      obtain ⟨c', heq, hrep⟩ := del_eq h k
      exact ⟨c', by simp only [HashCache.shards, call, heq]; rfl, hrep⟩
    | checkTimeout ts =>
      obtain ⟨c', heq, hrep⟩ := checkTimeout_eq h ts
      exact ⟨c', by simp only [HashCache.shards, call, heq]; rfl, hrep⟩
    | clear =>
      exact ⟨_, rfl, Recency.Holds.empty c.next, ⟨[], .nil, rfl, .nil⟩, h.maxSize_eq, h.elasticity_eq,
        h.cb_eq⟩
    | setMaxSize v => exact ⟨_, rfl, h.holds, h.timed, rfl, h.elasticity_eq, h.cb_eq⟩
    | setElasticity v => exact ⟨_, rfl, h.holds, h.timed, h.maxSize_eq, rfl, h.cb_eq⟩
    | setPruneCallback cb => exact ⟨_, rfl, h.holds, h.timed, h.maxSize_eq, h.elasticity_eq, rfl⟩
  enter h _ := ⟨h.holds, h.timed, h.maxSize_eq, h.elasticity_eq, h.cb_eq⟩

end TimedLruCache

namespace HashTimedLruCache

open HashCache TimedLruCache

variable {K V : Type} [LinearOrder K] [Inhabited V] {m_bucket : ℕ} [NeZero m_bucket]

inductive Op (K V : Type) where
  | set (k : K) (v : V) (expired now : ℕ)
  | get (k : K)
  | getValue (k : K)
  | del (k : K)
  | exists_ (k : K)
  | size
  | empty
  | checkTimeout (ts : ℕ)
  | clear
  | setMaxSize (v : ℕ)
  | setElasticity (v : ℕ)
  | setPruneCallback (cb : Bool)

/-- The expiry does not overflow. -/
def Op.Fits : Op K V → Prop
  | .set _ _ expired now => expired + now < 2 ^ 64
  | _ => True

section

variable (ceil_div : ℕ → ℕ → ℕ) (m_hash : K → UInt64)

def op (h : HashTimedLruCache K V m_bucket) :
    Op K V → Except Fault (Reply K V × HashTimedLruCache K V m_bucket)
  | .set k v expired now => do
      let (calls, h) ← set m_hash h k v expired now
      .ok (.done calls, h)
  | .get k => do
      let (v, h) ← get m_hash h k
      .ok (.value v, h)
  | .getValue k => do
      let (v, h) ← getValue m_hash h k
      .ok (.value (some v), h)
  | .del k => do
      let (b, h) ← del m_hash h k
      .ok (.flag b, h)
  | .exists_ k => .ok (.flag (exists_ m_hash h k), h)
  | .size => .ok (.number h.size, h)
  | .empty => .ok (.flag h.empty, h)
  | .checkTimeout ts => do
      let (calls, n, h) ← checkTimeout h ts
      .ok (.timeout calls n, h)
  | .clear => do
      let h ← h.clear
      .ok (.done [], h)
  | .setMaxSize v => do
      let h ← h.setMaxSize ceil_div v
      .ok (.done [], h)
  | .setElasticity v => do
      let h ← h.setElasticity ceil_div v
      .ok (.done [], h)
  | .setPruneCallback cb => do
      let h ← h.setPruneCallback cb
      .ok (.done [], h)

def after (h : HashTimedLruCache K V m_bucket) (ops : List (Op K V)) :
    Except Fault (HashTimedLruCache K V m_bucket) :=
  ops.foldlM (fun h o => (op ceil_div m_hash h o).map Prod.snd) h

def route : Op K V → Option (Shards.Op (Fin m_bucket) (Call K V))
  | .set k v expired now => some (.one (bucketOf m_hash k) (.set k v expired now))
  | .get k => some (.one (bucketOf m_hash k) (.get k))
  | .getValue k => some (.one (bucketOf m_hash k) (.getValue k))
  | .del k => some (.one (bucketOf m_hash k) (.del k))
  | .exists_ _ => none
  | .size => none
  | .empty => none
  | .checkTimeout ts => some (.all (.checkTimeout ts))
  | .clear => some (.all .clear)
  | .setMaxSize v => some (.all (.setMaxSize (ceil_div v m_bucket)))
  | .setElasticity v => some (.all (.setElasticity (ceil_div v m_bucket)))
  | .setPruneCallback cb => some (.all (.setPruneCallback cb))

def buckets (max_size elasticity : ℕ) (ops : List (Op K V)) : Fin m_bucket → Bounded K V :=
  Shards.stand (Bounded.machine K V)
    (fun _ => ⟨ceil_div max_size m_bucket, ceil_div elasticity m_bucket, false, []⟩)
    (ops.filterMap (route ceil_div m_hash))

def answer (b : Fin m_bucket → Bounded K V) : Op K V → Reply K V
  | .set k v expired now =>
      let c := b (bucketOf m_hash k)
      .done (if c.cb then (c.put k (v, expired + now)).2.map Item.pair else [])
  | .get k => .value ((Assoc.find (b (bucketOf m_hash k)).mru k).map Prod.fst)
  | .getValue k =>
      .value (some (((Assoc.find (b (bucketOf m_hash k)).mru k).map Prod.fst).getD default))
  | .del k => .flag (Assoc.find (b (bucketOf m_hash k)).mru k).isSome
  | .exists_ k => .flag (Assoc.find (b (bucketOf m_hash k)).mru k).isSome
  | .size => .number (((List.finRange m_bucket).map fun i => (b i).mru.length).sum % 2 ^ 64)
  | .empty => .flag ((List.finRange m_bucket).all fun i => (b i).mru.isEmpty)
  | .checkTimeout ts =>
      .timeout ((List.finRange m_bucket).flatMap fun i => Bounded.reported (b i) ts)
        (((List.finRange m_bucket).map fun i => (expiring (b i).mru ts).length).sum % 2 ^ 64)
  | _ => .done []

def Shows (h : HashTimedLruCache K V m_bucket) (b : Fin m_bucket → Bounded K V) : Prop :=
  ∀ i, Represents (b i).max (b i).elasticity (b i).cb (h.m_datas i) (b i).mru

def moved (b : Fin m_bucket → Bounded K V) (o : Op K V) : Fin m_bucket → Bounded K V :=
  (route ceil_div m_hash o).elim b (Shards.turn (Bounded.machine K V) b)

variable {h : HashTimedLruCache K V m_bucket} {b : Fin m_bucket → Bounded K V}

omit [Inhabited V] [NeZero m_bucket] in
theorem Shows.empty_eq (hs : Shows h b) (i : Fin m_bucket) :
    CacheType.empty (h.m_datas i) = (b i).mru.isEmpty := by
  have hsize := (hs i).holds.size_eq
  change (h.m_datas i).m_cache.keys.isEmpty = _
  rw [Bool.eq_iff_iff, List.isEmpty_iff_length_eq_zero, List.isEmpty_iff_length_eq_zero, hsize]

omit [NeZero m_bucket] in
theorem Shows.checkTimeout (hs : Shows h b) (ts : ℕ) :
    ∃ h', checkTimeout h ts = .ok ((List.finRange m_bucket).flatMap fun i => Bounded.reported (b i) ts,
        ((List.finRange m_bucket).map fun i => (expiring (b i).mru ts).length).sum % 2 ^ 64, h') ∧
      Shows h' fun i => { b i with mru := (b i).mru.filter fun x => ts < Item.ts x } := by
  obtain ⟨h', heq, hs'⟩ := forEach_refines call_refines hs (o := .checkTimeout ts) fun _ => trivial
  obtain ⟨us, heq, hus⟩ := forEach_of_map (f := fun c => do
    let (calls, n, c) ← c.checkTimeout ts
    .ok ((calls, n), c)) (g := fun r => Reply.timeout r.1 r.2)
    (show forEach _ (List.finRange m_bucket) h = _ by
      refine Eq.trans ?_ heq
      congr 1
      funext c
      simp only [call]
      cases c.checkTimeout ts <;> rfl)
  have hpairs : us = (List.finRange m_bucket).map fun i =>
      (Bounded.reported (b i) ts, (expiring (b i).mru ts).length) := by
    have hinj : Function.Injective fun r : List (K × V) × ℕ => Reply.timeout r.1 r.2 := by
      intro r r' hr
      obtain ⟨hcalls, hn⟩ := Reply.timeout.inj hr
      exact Prod.ext hcalls hn
    apply List.map_injective_iff.mpr hinj
    rw [hus, List.map_map]
    rfl
  refine ⟨h', ?_, hs'⟩
  unfold HashTimedLruCache.checkTimeout
  rw [heq, hpairs]
  simp [List.flatMap_map, bind, Except.bind, Function.comp_def]

/-- Each operation answers by the lists, and moves the shards it is for. -/
theorem Shows.op (hs : Shows h b) {o : Op K V} (ho : o.Fits) :
    ∃ h', op ceil_div m_hash h o = .ok (answer m_hash b o, h') ∧ Shows h' (moved ceil_div m_hash b o) := by
  cases o with
  | set k v expired now =>
    obtain ⟨h', heq, hs'⟩ := on_refines call_refines hs (bucketOf m_hash k) (o := .set k v expired now) ho
    exact ⟨h', (on_map (fun c : TimedLruCache K V => c.set k v expired now) Reply.done h
      (bucketOf m_hash k)).trans heq, hs'⟩
  | get k =>
    obtain ⟨h', heq, hs'⟩ := on_refines call_refines hs (bucketOf m_hash k) (o := .get k) trivial
    exact ⟨h', (on_map (fun c : TimedLruCache K V => c.get k) Reply.value h (bucketOf m_hash k)).trans heq,
      hs'⟩
  | getValue k =>
    obtain ⟨h', heq, hs'⟩ := on_refines call_refines hs (bucketOf m_hash k) (o := .getValue k) trivial
    exact ⟨h', (on_map (fun c : TimedLruCache K V => c.getValue k) (fun v => Reply.value (some v)) h
      (bucketOf m_hash k)).trans heq, hs'⟩
  | del k =>
    obtain ⟨h', heq, hs'⟩ := on_refines call_refines hs (bucketOf m_hash k) (o := .del k) trivial
    exact ⟨h', (on_map (fun c : TimedLruCache K V => c.del k) Reply.flag h (bucketOf m_hash k)).trans heq,
      hs'⟩
  | exists_ k =>
    have hfind := (hs (bucketOf m_hash k)).holds.isSome_eq (k := k)
    exact ⟨h, by simp only [HashTimedLruCache.op, exists_, TimedLruCache.exists_, hfind, answer], hs⟩
  | size =>
    have hsize : ∀ i, CacheType.size (h.m_datas i) = (b i).mru.length := fun i => (hs i).holds.size_eq
    exact ⟨h, by simp only [HashTimedLruCache.op, HashCache.size, hsize, answer], hs⟩
  | empty =>
    exact ⟨h, by simp only [HashTimedLruCache.op, HashCache.empty, hs.empty_eq, answer], hs⟩
  | checkTimeout ts =>
    obtain ⟨h', heq, hs'⟩ := hs.checkTimeout ts
    exact ⟨h', by simp only [HashTimedLruCache.op, heq]; rfl, hs'⟩
  | clear =>
    obtain ⟨h', heq, hs'⟩ := forEach_refines call_refines hs (o := .clear) fun _ => trivial
    obtain ⟨us, heq⟩ := forEach_of_done heq
    exact ⟨h', by simp only [HashTimedLruCache.op, HashCache.clear, CacheType.clear, heq]; rfl, hs'⟩
  | setMaxSize v =>
    obtain ⟨h', heq, hs'⟩ := forEach_refines call_refines
      (h := { h with m_maxSize := ceil_div v m_bucket * m_bucket % 2 ^ 64 }) hs
      (o := .setMaxSize (ceil_div v m_bucket)) fun _ => trivial
    obtain ⟨us, heq⟩ := forEach_of_done heq
    exact ⟨h', by simp only [HashTimedLruCache.op, HashCache.setMaxSize, CacheType.setMaxSize, heq]; rfl, hs'⟩
  | setElasticity v =>
    obtain ⟨h', heq, hs'⟩ := forEach_refines call_refines
      (h := { h with m_elasticity := ceil_div v m_bucket * m_bucket % 2 ^ 64 }) hs
      (o := .setElasticity (ceil_div v m_bucket)) fun _ => trivial
    obtain ⟨us, heq⟩ := forEach_of_done heq
    exact ⟨h', by
      simp only [HashTimedLruCache.op, HashCache.setElasticity, CacheType.setElasticity, heq]; rfl, hs'⟩
  | setPruneCallback cb =>
    obtain ⟨h', heq, hs'⟩ := forEach_refines call_refines hs (o := .setPruneCallback cb) fun _ => trivial
    obtain ⟨us, heq⟩ := forEach_of_done heq
    exact ⟨h', by
      simp only [HashTimedLruCache.op, HashCache.setPruneCallback, CacheType.setPruneCallback, heq]; rfl, hs'⟩

theorem buckets_concat (max_size elasticity : ℕ) (ops : List (Op K V)) (o : Op K V) :
    (buckets ceil_div m_hash max_size elasticity (ops ++ [o]) : Fin m_bucket → Bounded K V) =
      moved ceil_div m_hash (buckets ceil_div m_hash max_size elasticity ops) o := by
  unfold buckets moved
  rw [List.filterMap_append]
  cases hroute : (route ceil_div m_hash o : Option (Shards.Op (Fin m_bucket) (Call K V))) with
  | none => simp [hroute]
  | some r =>
    rw [List.filterMap_cons_some hroute, List.filterMap_nil, Shards.stand_concat]
    rfl

/-- What each key was last set to, with its expiry. -/
def written (f : K → Option (V × ℕ)) : Op K V → K → Option (V × ℕ)
  | .set k v expired now => Function.update f k (some (v, expired + now))
  | _ => f

def latest (ops : List (Op K V)) : K → Option (V × ℕ) := ops.foldl written fun _ => none

theorem kept_moved {f : K → Option (V × ℕ)} (hb : HashLruCache.Kept m_hash f b) (o : Op K V) :
    HashLruCache.Kept m_hash (written f o) (moved ceil_div m_hash b o) := by
  cases o with
  | set k v expired now => exact hb.put m_hash k (v, expired + now)
  | get k => exact hb.shard m_hash _ ((hb _).use k)
  | getValue k => exact hb.shard m_hash _ ((hb _).use k)
  | del k => exact hb.shard m_hash _ ((hb _).without k)
  | exists_ k => exact hb
  | size => exact hb
  | empty => exact hb
  | checkTimeout ts => exact fun i => (hb i).mono (List.filter_subset_self (b i).mru)
  | clear => exact fun i p hp => absurd hp List.not_mem_nil
  | setMaxSize v => exact hb
  | setElasticity v => exact hb
  | setPruneCallback cb => exact hb

def Steady : Op K V → Prop
  | .setMaxSize _ => False
  | .setElasticity _ => False
  | _ => True

theorem within_moved {max elasticity bound : ℕ} (hmax : 0 < max)
    (hbound : Max.max max (max + elasticity - 1) ≤ bound)
    (hb : ∀ i, (b i).Within max elasticity bound) {o : Op K V} (ho : Steady o) (i : Fin m_bucket) :
    (moved ceil_div m_hash b o i).Within max elasticity bound := by
  cases o with
  | set k v expired now => exact LruCache.within_update hb _ ((hb _).put hmax hbound k (v, expired + now)) i
  | get k =>
    exact LruCache.within_update hb _ ((hb _).list ((Recency.length_use_le _ k).trans (hb _).length_le)) i
  | getValue k =>
    exact LruCache.within_update hb _ ((hb _).list ((Recency.length_use_le _ k).trans (hb _).length_le)) i
  | del k =>
    exact LruCache.within_update hb _ ((hb _).list ((Recency.length_without_le _ k).trans (hb _).length_le)) i
  | exists_ k => exact hb i
  | size => exact hb i
  | empty => exact hb i
  | checkTimeout ts => exact (hb i).list ((List.length_filter_le _ _).trans (hb i).length_le)
  | clear => exact (hb i).list (Nat.zero_le _)
  | setMaxSize v => exact absurd ho id
  | setElasticity v => exact absurd ho id
  | setPruneCallback cb => exact ⟨(hb i).max_eq, (hb i).elasticity_eq, (hb i).length_le⟩

theorem after_shows (max_size elasticity : ℕ) (ops : List (Op K V)) (hops : ∀ o ∈ ops, o.Fits) :
    ∃ h, after ceil_div m_hash (new ceil_div max_size elasticity : HashTimedLruCache K V m_bucket) ops =
        .ok h ∧ Shows h (buckets ceil_div m_hash max_size elasticity ops) := by
  induction ops using List.reverseRecOn with
  | nil => exact ⟨_, rfl, fun i => ⟨Recency.Holds.empty 0, ⟨[], .nil, rfl, .nil⟩, rfl, rfl, rfl⟩⟩
  | append_singleton ops o ih =>
    obtain ⟨h, hafter, hs⟩ := ih fun o' ho' => hops o' (List.mem_append_left _ ho')
    obtain ⟨h', hop, hs'⟩ := hs.op ceil_div m_hash
      (hops o (List.mem_append_right _ (List.mem_singleton_self o)))
    refine ⟨h', ?_, by rwa [buckets_concat]⟩
    unfold after at hafter ⊢
    rw [List.foldlM_append, hafter]
    exact (bind_pure (m := Except Fault) _).trans (by simp only [hop, Except.map])

theorem kept (max_size elasticity : ℕ) (ops : List (Op K V)) : HashLruCache.Kept m_hash (latest ops)
    (buckets ceil_div m_hash max_size elasticity ops : Fin m_bucket → Bounded K V) := by
  induction ops using List.reverseRecOn with
  | nil => exact fun i p hp => absurd hp List.not_mem_nil
  | append_singleton ops o ih =>
    rw [buckets_concat, latest, List.foldl_append]
    exact kept_moved ceil_div m_hash ih o

theorem within {max_size elasticity : ℕ} (hmax : 0 < ceil_div max_size m_bucket) {bound : ℕ}
    (hbound : Max.max (ceil_div max_size m_bucket)
      (ceil_div max_size m_bucket + ceil_div elasticity m_bucket - 1) ≤ bound)
    (ops : List (Op K V)) (hops : ∀ o ∈ ops, Steady o) (i : Fin m_bucket) :
    (buckets ceil_div m_hash max_size elasticity ops i).Within (ceil_div max_size m_bucket)
      (ceil_div elasticity m_bucket) bound := by
  induction ops using List.reverseRecOn generalizing i with
  | nil => exact ⟨rfl, rfl, Nat.zero_le _⟩
  | append_singleton ops o ih =>
    rw [buckets_concat]
    exact within_moved ceil_div m_hash hmax hbound (ih fun o' ho' => hops o' (List.mem_append_left _ ho'))
      (hops o (List.mem_append_right _ (List.mem_singleton_self o))) i

/-- Whatever is done to a sharded cache with expiries that do not overflow, no operation fails; a shard
holds, in the order of their use, the keys that hash to it, with the value and the expiry they were last
set to, as the operations that reached it make it alone; every answer is what the shards' lists say;
with fixed bounds the cache stays bounded; and `checkTimeout` takes exactly what has expired out of every
shard and counts it. -/
theorem expiring_buckets_apart (max_size elasticity : ℕ) (ops : List (Op K V)) (hops : ∀ o ∈ ops, o.Fits) :
    let b : Fin m_bucket → Bounded K V := buckets ceil_div m_hash max_size elasticity ops
    ∃ h, after ceil_div m_hash (new ceil_div max_size elasticity) ops = .ok h ∧
      (∀ i, (h.m_datas i).items = (b i).mru ∧ Consistent (h.m_datas i) ∧
        ∀ p ∈ (b i).mru, bucketOf m_hash p.1 = i ∧ latest ops p.1 = some p.2) ∧
      (∀ o, o.Fits → ∃ h', op ceil_div m_hash h o = .ok (answer m_hash b o, h')) ∧
      (0 < ceil_div max_size m_bucket → (∀ o ∈ ops, Steady o) → h.size ≤ m_bucket *
        Max.max (ceil_div max_size m_bucket)
          (ceil_div max_size m_bucket + ceil_div elasticity m_bucket - 1)) ∧
      ∀ ts, ∃ calls h', checkTimeout h ts = .ok (calls, ((List.finRange m_bucket).map fun i =>
          ((b i).mru.filter fun x => Item.ts x ≤ ts).length).sum % 2 ^ 64, h') ∧
        ∀ i, Consistent (h'.m_datas i) ∧
          (h'.m_datas i).items = (b i).mru.filter fun x => ts < Item.ts x := by
  intro b
  obtain ⟨h, hafter, hs⟩ : ∃ h, after ceil_div m_hash (new ceil_div max_size elasticity) ops = .ok h ∧
      Shows h b := after_shows ceil_div m_hash max_size elasticity ops hops
  refine ⟨h, hafter, fun i => ⟨(hs i).holds.items_eq, (hs i).consistent, fun p hp => ?_⟩, fun o ho => ?_,
    fun hmax hops => ?_, fun ts => ?_⟩
  · exact (kept ceil_div m_hash max_size elasticity ops).own_some m_hash i hp
  · obtain ⟨h', hop, -⟩ := hs.op ceil_div m_hash ho
    exact ⟨h', hop⟩
  · refine size_le fun i => ?_
    have hsize : CacheType.size (h.m_datas i) = (b i).mru.length := (hs i).holds.size_eq
    rw [hsize]
    exact (within ceil_div m_hash hmax le_rfl ops hops i).length_le
  · obtain ⟨h', heq, hs'⟩ := hs.checkTimeout ts
    have hlength : ∀ i, (expiring (b i).mru ts).length =
        ((b i).mru.filter fun x => Item.ts x ≤ ts).length := fun i => (List.perm_insertionSort _ _).length_eq
    simp only [hlength] at heq
    exact ⟨_, h', heq, fun i => ⟨(hs' i).consistent, (hs' i).holds.items_eq⟩⟩

/-- 1 and 2 are in two shards, and both have expired by 105. -/
theorem expiring_buckets_apart_two_shards :
    ∃ h, after (fun a b => (a + b - 1) / b) UInt64.ofNat (new (fun a b => (a + b - 1) / b) 2 1)
        [.set 1 10 5 100, .set 2 20 4 100] = .ok h ∧
      (h.m_datas (0 : Fin 2)).items = [(2, 20, 104)] ∧ h.size ≤ 2 ∧
      ∃ calls h', checkTimeout h 105 = .ok (calls, 2, h') ∧ (h'.m_datas 0).items = [] := by
  obtain ⟨h, hafter, hshards, -, hsize, hts⟩ := @expiring_buckets_apart ℕ ℕ _ _ 2 _
    (fun a b => (a + b - 1) / b) UInt64.ofNat 2 1 [.set 1 10 5 100, .set 2 20 4 100] (by simp [Op.Fits])
  obtain ⟨calls, h', heq, hitems⟩ := hts 105
  exact ⟨h, hafter, (hshards 0).1.trans (by decide), hsize (by decide) (by simp [Steady]), calls, h',
    heq.trans (by congr), (hitems 0).2.trans (by decide)⟩

end

end HashTimedLruCache

end Sylar
