import Sylar.Lib.Nodes
import Mathlib.Logic.Function.Basic

/-! Bounded recency lists: pairs of a key and a value, the most recently used
first. What does not fit is dropped from the end. `Holds` says that an indexed
linked list holds the pairs of a recency list. -/

namespace Lib

namespace Recency

variable {K V : Type*} [DecidableEq K]

/-- `k` becomes the most recently used key. -/
def touch (l : List (K × V)) (k : K) (v : V) : List (K × V) := (k, v) :: Assoc.without l k

/-- Reading `k` makes it the most recently used key. -/
def use (l : List (K × V)) (k : K) : List (K × V) :=
  match Assoc.find l k with
  | none => l
  | some v => touch l k v

/-- A list that reaches `allowed` is cut down to `max` pairs; zero is no limit. -/
def kept (max allowed : ℕ) (l : List (K × V)) : List (K × V) :=
  if max = 0 ∨ l.length < allowed then l else l.take max

/-- The pairs cut off, the least recently used first. -/
def evicted (max allowed : ℕ) (l : List (K × V)) : List (K × V) :=
  if max = 0 ∨ l.length < allowed then [] else (l.drop max).reverse

/-- Only a new key makes the list longer. -/
def put (max allowed : ℕ) (l : List (K × V)) (k : K) (v : V) : List (K × V) × List (K × V) :=
  if (Assoc.find l k).isSome then (touch l k v, [])
  else (kept max allowed ((k, v) :: l), evicted max allowed ((k, v) :: l))

theorem put_of_mem {max allowed : ℕ} {l : List (K × V)} {k : K} {u : V}
    (h : Assoc.find l k = some u) (v : V) : put max allowed l k v = (touch l k v, []) := by
  rw [put, h]
  rfl

theorem put_of_absent {max allowed : ℕ} {l : List (K × V)} {k : K}
    (h : Assoc.find l k = none) (v : V) :
    put max allowed l k v =
      (kept max allowed ((k, v) :: l), evicted max allowed ((k, v) :: l)) := by
  rw [put, h]
  rfl

omit [DecidableEq K] in
theorem kept_subset (max allowed : ℕ) (l : List (K × V)) : kept max allowed l ⊆ l := by
  rw [kept]
  split
  · exact List.Subset.refl l
  · exact List.take_subset max l

omit [DecidableEq K] in
theorem length_kept_le {max : ℕ} (hmax : 0 < max) (allowed : ℕ) (l : List (K × V)) :
    (kept max allowed l).length ≤ Max.max max (allowed - 1) := by
  rw [kept]
  split
  · omega
  · rw [List.length_take]
    omega

theorem length_without_le (l : List (K × V)) (k : K) : (Assoc.without l k).length ≤ l.length :=
  List.length_filter_le _ _

theorem length_touch_le {l : List (K × V)} {k : K} {u : V} (h : Assoc.find l k = some u) (v : V) :
    (touch l k v).length ≤ l.length := by
  have hsome : Assoc.find l k ≠ none := by rw [h]; simp
  rw [ne_eq, Assoc.find_eq_none] at hsome
  push Not at hsome
  obtain ⟨c, hc, hck⟩ := hsome
  have hlt : (Assoc.without l k).length < l.length :=
    List.length_filter_lt_length_iff_exists.mpr ⟨c, hc, by simp [hck]⟩
  rw [touch, List.length_cons]
  omega

theorem length_use_le (l : List (K × V)) (k : K) : (use l k).length ≤ l.length := by
  rw [use]
  split
  · exact le_rfl
  · exact length_touch_le ‹_› _

theorem length_put_le {max allowed b : ℕ} (hmax : 0 < max) (hb : Max.max max (allowed - 1) ≤ b)
    {l : List (K × V)} (hl : l.length ≤ b) (k : K) (v : V) :
    (put max allowed l k v).1.length ≤ b := by
  cases h : Assoc.find l k with
  | some u =>
    rw [put_of_mem h]
    exact Nat.le_trans (length_touch_le h v) hl
  | none =>
    rw [put_of_absent h]
    exact Nat.le_trans (length_kept_le hmax _ _) hb

/-- The list holds nothing but what was written last. -/
def Latest (f : K → Option V) (l : List (K × V)) : Prop := ∀ c ∈ l, f c.1 = some c.2

omit [DecidableEq K] in
theorem Latest.mono {f : K → Option V} {l l' : List (K × V)} (h : Latest f l) (hsub : l' ⊆ l) :
    Latest f l' := fun c hc => h c (hsub hc)

theorem Latest.without {f : K → Option V} {l : List (K × V)} (h : Latest f l) (k : K) :
    Latest f (Assoc.without l k) := h.mono (List.filter_subset_self l)

theorem Latest.find {f : K → Option V} {l : List (K × V)} (h : Latest f l) {k : K} {v : V}
    (hv : Assoc.find l k = some v) : f k = some v := by
  obtain ⟨c, hc, rfl⟩ := Option.map_eq_some_iff.mp hv
  have hk : c.1 = k := by simpa using List.find?_some hc
  exact hk ▸ h c (List.mem_of_find?_eq_some hc)

theorem Latest.touch {f : K → Option V} {l : List (K × V)} (h : Latest f l) (k : K) (v : V) :
    Latest (Function.update f k (some v)) (touch l k v) := by
  intro c hc
  rcases List.mem_cons.mp hc with rfl | hc
  · exact Function.update_self ..
  · obtain ⟨hl, hk⟩ := Assoc.mem_without.mp hc
    rw [Function.update_of_ne hk]
    exact h c hl

theorem Latest.use {f : K → Option V} {l : List (K × V)} (h : Latest f l) (k : K) :
    Latest f (use l k) := by
  rw [Recency.use]
  split
  · exact h
  · rename_i v hv
    have hupd := h.touch k v
    rwa [Function.update_eq_self_iff.mpr (h.find hv).symm] at hupd

theorem without_of_absent {l : List (K × V)} {k : K} (h : Assoc.find l k = none) :
    Assoc.without l k = l :=
  List.filter_eq_self.mpr fun c hc => decide_eq_true (Assoc.find_eq_none.mp h c hc)

theorem Latest.put {f : K → Option V} {l : List (K × V)} (h : Latest f l) (max allowed : ℕ)
    (k : K) (v : V) : Latest (Function.update f k (some v)) (put max allowed l k v).1 := by
  cases hf : Assoc.find l k with
  | some u =>
    rw [put_of_mem hf]
    exact h.touch k v
  | none =>
    rw [put_of_absent hf]
    refine Latest.mono ?_ (kept_subset max allowed _)
    have htouch := h.touch k v
    rwa [Recency.touch, without_of_absent hf] at htouch

/-- The nodes hold the pairs of `l` in order, the index knows them, and the address
`next` is free. -/
structure Holds (cache : AList fun _ : K => ℕ) (nodes : Nodes (K × V)) (next : ℕ)
    (l : List (K × V)) : Prop where
  indexed : Indexed Prod.fst cache nodes
  fresh : ∀ n ∈ nodes, n.1 < next
  items_eq : nodes.items = l

namespace Holds

variable {cache : AList fun _ : K => ℕ} {nodes : Nodes (K × V)} {next : ℕ} {l : List (K × V)} {k : K}

theorem empty (next : ℕ) : Holds (∅ : AList fun _ : K => ℕ) ([] : Nodes (K × V)) next [] :=
  ⟨Indexed.empty Prod.fst, fun _ hn => absurd hn List.not_mem_nil, rfl⟩

theorem keys_nodup (h : Holds cache nodes next l) : (l.map Prod.fst).Nodup :=
  h.items_eq ▸ h.indexed.keys_nodup

theorem mem_iff (h : Holds cache nodes next l) : k ∈ cache ↔ k ∈ l.map Prod.fst := by
  rw [AList.mem_keys, h.indexed.keys_perm.mem_iff, h.items_eq]

theorem size_eq (h : Holds cache nodes next l) : cache.keys.length = l.length := by
  rw [h.indexed.size, h.items_eq]

theorem find_some (h : Holds cache nodes next l) {it : ℕ} (hit : cache.lookup k = some it) :
    ∃ v, nodes.read it = some (k, v) ∧ (it, (k, v)) ∈ nodes ∧ Assoc.find l k = some v := by
  obtain ⟨⟨k', v⟩, hread, hmem, rfl⟩ := h.indexed.find hit
  refine ⟨v, hread, hmem, Assoc.find_of_mem h.keys_nodup ?_⟩
  rw [← h.items_eq]
  exact List.mem_map_of_mem hmem

theorem find_none (h : Holds cache nodes next l) (hit : cache.lookup k = none) :
    Assoc.find l k = none := by
  rw [← h.items_eq]
  exact Assoc.find_eq_none.mpr (h.indexed.absent.mp hit)

theorem isSome_eq (h : Holds cache nodes next l) :
    (cache.lookup k).isSome = (Assoc.find l k).isSome := by
  cases hit : cache.lookup k with
  | some it =>
    obtain ⟨v, -, -, hfind⟩ := h.find_some hit
    rw [hfind]
    rfl
  | none =>
    rw [h.find_none hit]
    rfl

/-- Moving a node to the front, with its own value or a new one. -/
theorem toFront (h : Holds cache nodes next l) {it : ℕ} {v : V} (hmem : (it, (k, v)) ∈ nodes)
    (u : V) : Holds cache (nodes.toFront it (k, u)) next (touch l k u) := by
  have hwrite := h.indexed.write (y := (k, u)) hmem rfl
  have hmem' : (it, (k, u)) ∈ nodes.write it (k, u) := List.mem_map.mpr ⟨_, hmem, if_pos rfl⟩
  have hind := hwrite.toFront hmem'
  rw [Nodes.toFront_write] at hind
  refine ⟨hind, ?_, ?_⟩
  · intro n hn
    rcases List.mem_cons.mp hn with rfl | hn
    · exact (h.fresh _ hmem : it < next)
    · exact h.fresh n (Assoc.mem_without.mp hn).1
  · rw [← h.items_eq]
    exact congrArg _ (h.indexed.items_remove hmem)

theorem remove (h : Holds cache nodes next l) {it : ℕ} {v : V} (hmem : (it, (k, v)) ∈ nodes) :
    Holds (cache.erase k) (nodes.remove it) next (Assoc.without l k) := by
  refine ⟨h.indexed.remove hmem, fun n hn => h.fresh n (Assoc.mem_without.mp hn).1, ?_⟩
  rw [← h.items_eq]
  exact h.indexed.items_remove hmem

theorem next_free (h : Holds cache nodes next l) : next ∉ nodes.map Prod.fst := by
  intro hn
  obtain ⟨n, hn, hnext⟩ := List.mem_map.mp hn
  exact absurd (h.fresh n hn) (by omega)

theorem push (h : Holds cache nodes next l) (hit : cache.lookup k = none) (v : V) :
    Holds (cache.insert k next) ((next, (k, v)) :: nodes) (next + 1) ((k, v) :: l) := by
  refine ⟨h.indexed.cons (x := (k, v)) h.next_free hit, ?_, congrArg _ h.items_eq⟩
  intro n hn
  rcases List.mem_cons.mp hn with rfl | hn
  · exact Nat.lt_succ_self _
  · exact Nat.lt_succ_of_lt (h.fresh n hn)

end Holds

end Recency

end Lib
