import Sylar.Spec.LruCache
import Sylar.Lib.Machine
import Sylar.Lib.Recency
import Mathlib.Data.List.Induction

/-! `LruCache` refines a bounded recency list. -/

namespace Sylar

open Lib

theorem deref_eq {α : Type} {l : Nodes α} {p : ℕ} {x : α} (h : l.read p = some x) :
    deref l p = .ok x := by
  rw [deref, h]

namespace LruCache

variable {K V : Type} [DecidableEq K]

inductive Op (K V : Type) where
  | set (k : K) (v : V)
  | get (k : K)
  | getValue (k : K)
  | del (k : K)
  | exists_ (k : K)
  | size
  | clear

/-- What an operation answers; `done` carries the calls of the prune callback. -/
inductive Reply (K V : Type) where
  | done (calls : List (K × V))
  | value (v : Option V)
  | flag (b : Bool)
  | number (n : ℕ)

def op [Inhabited V] (c : LruCache K V) : Op K V → Except Fault (Reply K V × LruCache K V)
  | .set k v => do
      let (calls, c) ← c.set k v
      .ok (.done calls, c)
  | .get k => do
      let (v, c) ← c.get k
      .ok (.value v, c)
  | .getValue k => do
      let (v, c) ← c.getValue k
      .ok (.value (some v), c)
  | .del k => do
      let (b, c) ← c.del k
      .ok (.flag b, c)
  | .exists_ k => .ok (.flag (c.exists_ k), c)
  | .size => .ok (.number c.size, c)
  | .clear => .ok (.flag c.clear.1, c.clear.2)

/-- The cache as a machine; an operation that fails leaves it as it is. -/
def machine (K V : Type) [DecidableEq K] [Inhabited V] :
    Machine (LruCache K V) (Op K V) (Except Fault (Reply K V)) where
  step c o :=
    match c.op o with
    | .ok (r, c) => (.ok r, c)
    | .error e => (.error e, c)
  ok _ _ := True

def mru [Inhabited V] (max allowed : ℕ) (cb : Bool) :
    Machine (List (K × V)) (Op K V) (Except Fault (Reply K V)) where
  step l o :=
    match o with
    | .set k v =>
        let r := Recency.put max allowed l k v
        (.ok (.done (if cb then r.2 else [])), r.1)
    | .get k => (.ok (.value (Assoc.find l k)), Recency.use l k)
    | .getValue k => (.ok (.value (some ((Assoc.find l k).getD default))), Recency.use l k)
    | .del k => (.ok (.flag (Assoc.find l k).isSome), Assoc.without l k)
    | .exists_ k => (.ok (.flag (Assoc.find l k).isSome), l)
    | .size => (.ok (.number l.length), l)
    | .clear => (.ok (.flag true), [])
  ok _ _ := True

def items (c : LruCache K V) : List (K × V) := c.m_keys.items

/-- `c` is well linked, set up as given, and stands for `l`. -/
structure Represents (max elasticity : ℕ) (cb : Bool) (c : LruCache K V) (l : List (K × V)) :
    Prop where
  holds : Recency.Holds c.m_cache c.m_keys c.next l
  maxSize_eq : c.m_maxSize = max
  elasticity_eq : c.m_elasticity = elasticity
  cb_eq : c.m_cb = cb

theorem pruneLoop_stop {c : LruCache K V} (h : c.size ≤ c.m_maxSize) :
    ∀ turns, pruneLoop turns c = .ok ([], 0, c)
  | 0 => if_neg (by omega)
  | _ + 1 => if_neg (by omega)

theorem pruneLoop_turn {c : LruCache K V} (h : c.m_maxSize < c.size) {keys : Nodes (K × V)}
    {back : ℕ × K × V} (hkeys : c.m_keys = keys ++ [back]) {turns count : ℕ}
    {calls : List (K × V)} {c' : LruCache K V}
    (hrest : pruneLoop turns { c with m_cache := c.m_cache.erase back.2.1, m_keys := keys } =
      .ok (calls, count, c')) :
    pruneLoop (turns + 1) c = .ok (if c'.m_cb then back.2 :: calls else calls, count + 1, c') := by
  rw [pruneLoop, if_pos h, hkeys, List.getLast?_concat]
  dsimp only
  rw [List.dropLast_concat, hrest]
  rfl

/-- The loop cuts the list down to `m_maxSize` nodes, from the back. -/
theorem pruneLoop_eq (c : LruCache K V) : ∀ (keys : Nodes (K × V)) (cache : AList fun _ : K => ℕ),
    Indexed Prod.fst cache keys → ∃ cache',
      pruneLoop keys.length { c with m_cache := cache, m_keys := keys } =
        .ok (if c.m_cb then (keys.items.drop c.m_maxSize).reverse else [],
          (keys.items.drop c.m_maxSize).length,
          { c with m_cache := cache', m_keys := keys.take c.m_maxSize }) ∧
      Indexed Prod.fst cache' (keys.take c.m_maxSize) := by
  intro keys
  induction keys using List.reverseRecOn with
  | nil =>
    intro cache h
    refine ⟨cache, ?_, by simpa using h⟩
    rw [pruneLoop_stop (by rw [size, h.size]; exact Nat.zero_le _)]
    simp [Nodes.items]
  | append_singleton keys n ih =>
    intro cache h
    have hsize : cache.keys.length = keys.length + 1 := by rw [h.size]; simp [Nodes.items]
    by_cases hmax : keys.length + 1 ≤ c.m_maxSize
    · -- the list fits
      have hlen : (keys ++ [n]).length ≤ c.m_maxSize := by simpa using hmax
      refine ⟨cache, ?_, by rwa [List.take_of_length_le hlen]⟩
      rw [pruneLoop_stop (by rw [size, hsize]; exact hmax), List.take_of_length_le hlen,
        List.drop_of_length_le (by simpa [Nodes.items] using hmax)]
      simp
    · obtain ⟨cache', heq, hind⟩ := ih (cache.erase n.2.1) h.popBack
      have hle : c.m_maxSize ≤ keys.length := by omega
      have hitems : (Nodes.items (keys ++ [n])).drop c.m_maxSize =
          (Nodes.items keys).drop c.m_maxSize ++ [n.2] := by
        rw [Nodes.items, List.map_append, List.drop_append_of_le_length (by simpa using hle)]
        rfl
      refine ⟨cache', ?_, by rwa [List.take_append_of_le_length hle]⟩
      rw [List.length_append, List.length_singleton, hitems, List.take_append_of_le_length hle,
        pruneLoop_turn (by rw [size, hsize]; exact Nat.lt_of_not_le hmax) rfl heq]
      dsimp only
      cases c.m_cb with
      | true => simp
      | false => simp

section

variable {max elasticity : ℕ} {cb : Bool} {c : LruCache K V} {l : List (K × V)}

theorem prune_eq (h : Represents max elasticity cb c l) :
    ∃ count c', c.prune =
        .ok (if cb then Recency.evicted max ((max + elasticity) % 2 ^ 64) l else [], count, c') ∧
      Represents max elasticity cb c' (Recency.kept max ((max + elasticity) % 2 ^ 64) l) := by
  obtain ⟨⟨hind, hfresh, rfl⟩, rfl, rfl, rfl⟩ := h
  have hsize : c.size = c.m_keys.items.length := hind.size
  rw [Recency.evicted, Recency.kept, prune, getMaxAllowedSize, hsize]
  by_cases hfit : c.m_maxSize = 0 ∨
      c.m_keys.items.length < (c.m_maxSize + c.m_elasticity) % 2 ^ 64
  · rw [if_pos hfit, if_pos hfit, if_pos hfit]
    exact ⟨0, c, by simp, ⟨hind, hfresh, rfl⟩, rfl, rfl, rfl⟩
  · rw [if_neg hfit, if_neg hfit, if_neg hfit]
    obtain ⟨cache', heq, hind'⟩ := pruneLoop_eq c c.m_keys c.m_cache hind
    refine ⟨(c.m_keys.items.drop c.m_maxSize).length, { c with
      m_cache := cache', m_keys := c.m_keys.take c.m_maxSize
      m_status := c.m_status.incPrune (c.m_keys.items.drop c.m_maxSize).length },
      by rw [heq]; rfl, ⟨hind', ?_, List.map_take⟩, rfl, rfl, rfl⟩
    exact fun n hn => hfresh n (List.mem_of_mem_take hn)

theorem set_eq (h : Represents max elasticity cb c l) (k : K) (v : V) :
    ∃ c', c.set k v =
        .ok (if cb then (Recency.put max ((max + elasticity) % 2 ^ 64) l k v).2 else [], c') ∧
      Represents max elasticity cb c' (Recency.put max ((max + elasticity) % 2 ^ 64) l k v).1 := by
  obtain ⟨hholds, hmax, helas, hcb⟩ := h
  rw [set]
  dsimp only
  cases hit : c.m_cache.lookup k with
  | some it =>
    obtain ⟨u, hread, hmem, hfind⟩ := hholds.find_some hit
    dsimp only
    rw [deref_eq hread, Recency.put_of_mem hfind, ite_self]
    refine ⟨{ c with m_keys := c.m_keys.toFront it (k, v), m_status := c.m_status.incSet }, ?_,
      hholds.toFront hmem v, hmax, helas, hcb⟩
    rw [← Nodes.toFront_write]
    rfl
  | none =>
    rw [Recency.put_of_absent (hholds.find_none hit)]
    obtain ⟨count, c', heq, hrep⟩ := prune_eq (c := { c with
      m_keys := (c.next, (k, v)) :: c.m_keys
      m_cache := c.m_cache.insert k c.next
      m_status := c.m_status.incSet
      next := c.next + 1 }) ⟨hholds.push hit v, hmax, helas, hcb⟩
    exact ⟨c', by dsimp only; rw [heq]; rfl, hrep⟩

theorem get_eq (h : Represents max elasticity cb c l) (k : K) :
    ∃ c', c.get k = .ok (Assoc.find l k, c') ∧
      Represents max elasticity cb c' (Recency.use l k) := by
  obtain ⟨hholds, hmax, helas, hcb⟩ := h
  rw [get, Recency.use]
  dsimp only
  cases hit : c.m_cache.lookup k with
  | some it =>
    obtain ⟨v, hread, hmem, hfind⟩ := hholds.find_some hit
    dsimp only
    rw [deref_eq hread, hfind]
    exact ⟨_, rfl, hholds.toFront hmem v, hmax, helas, hcb⟩
  | none =>
    rw [hholds.find_none hit]
    exact ⟨_, rfl, hholds, hmax, helas, hcb⟩

theorem del_eq (h : Represents max elasticity cb c l) (k : K) :
    ∃ c', c.del k = .ok ((Assoc.find l k).isSome, c') ∧
      Represents max elasticity cb c' (Assoc.without l k) := by
  obtain ⟨hholds, hmax, helas, hcb⟩ := h
  rw [del]
  dsimp only
  cases hit : c.m_cache.lookup k with
  | some it =>
    obtain ⟨v, hread, hmem, hfind⟩ := hholds.find_some hit
    dsimp only
    rw [deref_eq hread, hfind]
    exact ⟨_, rfl, hholds.remove hmem, hmax, helas, hcb⟩
  | none =>
    rw [hholds.find_none hit, Recency.without_of_absent (hholds.find_none hit)]
    exact ⟨_, rfl, hholds, hmax, helas, hcb⟩

/-- Each operation answers as the recency list does and keeps standing for it. -/
theorem step_refines [Inhabited V] (h : Represents max elasticity cb c l) (o : Op K V) :
    ((machine K V).step c o).1 = ((mru max ((max + elasticity) % 2 ^ 64) cb).step l o).1 ∧
      Represents max elasticity cb ((machine K V).step c o).2
        ((mru max ((max + elasticity) % 2 ^ 64) cb).step l o).2 := by
  cases o with
  | set k v =>
    obtain ⟨c', heq, hrep⟩ := set_eq h k v
    simp only [machine, mru, op, heq]
    exact ⟨rfl, hrep⟩
  | get k =>
    obtain ⟨c', heq, hrep⟩ := get_eq h k
    simp only [machine, mru, op, heq]
    exact ⟨rfl, hrep⟩
  | getValue k =>
    obtain ⟨c', heq, hrep⟩ := get_eq h k
    simp only [machine, mru, op, getValue, heq]
    exact ⟨rfl, hrep⟩
  | del k =>
    obtain ⟨c', heq, hrep⟩ := del_eq h k
    simp only [machine, mru, op, heq]
    exact ⟨rfl, hrep⟩
  | exists_ k =>
    simp only [machine, mru, op, exists_, h.holds.isSome_eq]
    exact ⟨trivial, h⟩
  | size =>
    simp only [machine, mru, op, size, h.holds.size_eq]
    exact ⟨trivial, h⟩
  | clear => exact ⟨rfl, Recency.Holds.empty c.next, h.maxSize_eq, h.elasticity_eq, h.cb_eq⟩

end

/-- The index and the list hold the same keys, each once, and an index entry points
at the node of its own key. -/
structure Consistent (c : LruCache K V) : Prop where
  keys_nodup : (c.items.map Prod.fst).Nodup
  same_keys : ∀ k, k ∈ c.m_cache ↔ k ∈ c.items.map Prod.fst
  points : ∀ k it, c.m_cache.lookup k = some it → ∃ v, deref c.m_keys it = .ok (k, v)

theorem Represents.consistent {max elasticity : ℕ} {cb : Bool} {c : LruCache K V}
    {l : List (K × V)} (h : Represents max elasticity cb c l) : Consistent c where
  keys_nodup := h.holds.indexed.keys_nodup
  same_keys := by
    intro k
    rw [h.holds.mem_iff, items, h.holds.items_eq]
  points := by
    intro k it hit
    obtain ⟨v, hread, -⟩ := h.holds.find_some hit
    exact ⟨v, deref_eq hread⟩

def written (f : K → Option V) : Op K V → K → Option V
  | .set k v => Function.update f k (some v)
  | _ => f

def latest (ops : List (Op K V)) : K → Option V := ops.foldl written fun _ => none

section

variable [Inhabited V]

theorem run_latest (max allowed : ℕ) (cb : Bool) : ∀ (ops : List (Op K V)) (f : K → Option V)
    (l : List (K × V)), Recency.Latest f l →
      Recency.Latest (ops.foldl written f) ((mru max allowed cb).run l ops).2 := by
  intro ops
  induction ops with
  | nil => intro f l h; exact h
  | cons o ops ih =>
    intro f l h
    refine ih _ _ ?_
    cases o with
    | set k v => exact h.put max allowed k v
    | get k => exact h.use k
    | getValue k => exact h.use k
    | del k => exact h.without k
    | exists_ k => exact h
    | size => exact h
    | clear => exact fun c hc => absurd hc List.not_mem_nil

theorem run_length_le {max : ℕ} (hmax : 0 < max) {allowed b : ℕ}
    (hb : Max.max max (allowed - 1) ≤ b) (cb : Bool) (ops : List (Op K V)) :
    ((mru max allowed cb).run [] ops).2.length ≤ b := by
  refine (mru max allowed cb).run_invariant (fun l => l.length ≤ b) ?_ ops [] (Nat.zero_le _)
    ((mru max allowed cb).admissible_of_total (fun _ _ => trivial) _ _)
  intro l o hl _
  cases o with
  | set k v => exact Recency.length_put_le hmax hb hl k v
  | get k => exact Nat.le_trans (Recency.length_use_le l k) hl
  | getValue k => exact Nat.le_trans (Recency.length_use_le l k) hl
  | del k => exact Nat.le_trans (Recency.length_without_le l k) hl
  | exists_ k => exact hl
  | size => exact hl
  | clear => exact Nat.zero_le _

theorem run_represents (max elasticity : ℕ) (cb : Bool) (ops : List (Op K V)) :
    let c := (machine K V).run (new max elasticity cb) ops
    let l := (mru max ((max + elasticity) % 2 ^ 64) cb).run [] ops
    c.1 = l.1 ∧ Represents max elasticity cb c.2 l.2 := by
  refine Machine.run_sim (machine K V) (mru max ((max + elasticity) % 2 ^ 64) cb)
    (Represents max elasticity cb) (fun c l o h _ => step_refines h o) ops _ [] ?_
    ((machine K V).admissible_of_total (fun _ _ => trivial) _ _)
  exact ⟨Recency.Holds.empty 0, rfl, rfl, rfl⟩

/-- Every run of a cache answers as the recency list does, without failing: the
index and the list stay in step, a present key yields what it was last set to, the
size stays bounded, and a set that prunes keeps the most recently used keys and
reports the others from the least recently used on. -/
theorem refines_recency_list (max elasticity : ℕ) (cb : Bool) (ops : List (Op K V)) :
    let c := (machine K V).run (new max elasticity cb) ops
    let l := (mru max ((max + elasticity) % 2 ^ 64) cb).run [] ops
    c.1 = l.1 ∧ c.2.items = l.2 ∧ Consistent c.2 ∧
    (∀ k, k ∈ c.2.m_cache → ∃ v c', c.2.get k = .ok (some v, c') ∧ latest ops k = some v) ∧
    (∀ k, k ∉ c.2.m_cache → ∃ c', c.2.get k = .ok (none, c')) ∧
    (0 < max → c.2.size ≤ Max.max max (max + elasticity - 1)) ∧
    (∀ k v, k ∉ c.2.m_cache → 0 < max → (max + elasticity) % 2 ^ 64 ≤ c.2.size + 1 →
      ∃ c', c.2.set k v =
          .ok (if cb then (((k, v) :: c.2.items).drop max).reverse else [], c') ∧
        c'.items = ((k, v) :: c.2.items).take max) := by
  intro c l
  obtain ⟨hreply, hrep⟩ : c.1 = l.1 ∧ Represents max elasticity cb c.2 l.2 :=
    run_represents max elasticity cb ops
  have hlatest : Recency.Latest (latest ops) l.2 :=
    run_latest max _ cb ops _ [] (fun c hc => absurd hc List.not_mem_nil)
  refine ⟨hreply, hrep.holds.items_eq, hrep.consistent, ?_, ?_, ?_, ?_⟩
  · intro k hk
    obtain ⟨it, hit⟩ := Option.isSome_iff_exists.mp (AList.lookup_isSome.mpr hk)
    obtain ⟨v, -, -, hfind⟩ := hrep.holds.find_some hit
    obtain ⟨c', hget, -⟩ := get_eq hrep k
    rw [hfind] at hget
    exact ⟨v, c', hget, hlatest.find hfind⟩
  · intro k hk
    obtain ⟨c', hget, -⟩ := get_eq hrep k
    rw [hrep.holds.find_none (AList.lookup_eq_none.mpr hk)] at hget
    exact ⟨c', hget⟩
  · intro hmax
    rw [size, hrep.holds.size_eq]
    have hmod : (max + elasticity) % 2 ^ 64 ≤ max + elasticity := Nat.mod_le _ _
    exact run_length_le hmax (by omega) cb ops
  · intro k v hk hmax hfull
    obtain ⟨c', hset, hrep'⟩ := set_eq hrep k v
    have hfit : ¬ (max = 0 ∨ ((k, v) :: l.2).length < (max + elasticity) % 2 ^ 64) := by
      rw [size, hrep.holds.size_eq] at hfull
      rw [List.length_cons]
      omega
    have hput : Recency.put max ((max + elasticity) % 2 ^ 64) l.2 k v = _ :=
      Recency.put_of_absent (hrep.holds.find_none (AList.lookup_eq_none.mpr hk)) v
    rw [Recency.kept, Recency.evicted, if_neg hfit, if_neg hfit] at hput
    rw [hput] at hset hrep'
    rw [items, hrep.holds.items_eq]
    exact ⟨c', hset, hrep'.holds.items_eq⟩

end

end LruCache

end Sylar
