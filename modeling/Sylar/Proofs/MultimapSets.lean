import Sylar.Proofs.HashMultimap

/-! A multimap as a set of pairs. Insertion of one value, insertion of several and deletion
of a key are recorded in a set of pairs beside the multimap; the multimap shows that set
as long as no array with a repeated value is given to a new key. -/

namespace Sylar

open Lib

open scoped List

namespace HashMultimap

variable {K V : Type} [LinearOrder K] [LinearOrder V] {posHash : K → ℕ}

section

variable {vals : List V}

theorem searchValue_cases (hvals : vals.Pairwise (· < ·)) (v : V) :
    (∃ a c, vals = a ++ v :: c ∧ searchValue vals v = some a.length) ∨
      (v ∉ vals ∧ searchValue vals v = none) := by
  rcases binarySearch_cases id (hvals.imp le_of_lt) v with ⟨a, x, c, hsplit, hx, hs⟩ | ⟨hv, hs⟩
  · obtain rfl : x = v := hx
    exact .inl ⟨a, c, hsplit, hs⟩
  · exact .inr ⟨fun hmem => hv v hmem rfl, hs⟩

/-- A sorted array is strictly sorted exactly if no value occurs twice. -/
theorem pairwise_lt_iff (hvals : vals.Pairwise (· ≤ ·)) : vals.Pairwise (· < ·) ↔ vals.Nodup := by
  constructor
  · intro h
    exact h.imp ne_of_lt
  · intro h
    exact (hvals.and h).imp fun hab => lt_of_le_of_ne hab.1 hab.2

theorem mem_sortValues (vals : List V) (v : V) : v ∈ sortValues vals ↔ v ∈ vals :=
  (List.perm_insertionSort _ vals).mem_iff

theorem sortValues_pairwise (vals : List V) :
    (sortValues vals).Pairwise (· < ·) ↔ vals.Nodup := by
  rw [sortValues, pairwise_lt_iff (List.pairwise_insertionSort _ vals)]
  exact (List.perm_insertionSort _ vals).nodup_iff

/-- The loop over the inserted values collects those that are not in the array, each once. -/
theorem foldl_absorb (hvals : vals.Pairwise (· < ·)) (v : List V) : ∀ news : List V,
    news.Nodup → (∀ x ∈ news, x ∉ vals) →
      ∃ news', v.foldl absorb (vals, news) = (vals, news') ∧ news'.Nodup ∧
        ∀ x, x ∈ news' ↔ x ∈ news ∨ (x ∈ v ∧ x ∉ vals) := by
  induction v with
  | nil =>
    intro news hnodup _
    exact ⟨news, rfl, hnodup, by simp⟩
  | cons y v ih =>
    intro news hnodup hnews
    rw [List.foldl_cons, absorb]
    rcases searchValue_cases hvals y with ⟨a, c, hsplit, hs⟩ | ⟨hy, hs⟩
    · -- the value is there and is written over itself
      have hset : vals.set a.length y = vals := by
        rw [hsplit]
        simp
      have hy : y ∈ vals := by
        rw [hsplit]
        simp
      obtain ⟨news', hfold, hnodup', hmem⟩ := ih news hnodup hnews
      refine ⟨news', ?_, hnodup', fun x => ?_⟩
      · rw [hs]
        dsimp only
        rw [hset, hfold]
      · rw [hmem, List.mem_cons]
        grind
    · rw [hs]
      dsimp only
      have hins : ∃ news₁, (if y ∈ news then news else news.orderedInsert (· ≤ ·) y) = news₁ ∧
          news₁.Nodup ∧ ∀ x, x ∈ news₁ ↔ x = y ∨ x ∈ news := by
        refine ⟨_, rfl, ?_⟩
        split
        · rename_i hyn
          refine ⟨hnodup, fun x => ⟨.inr, ?_⟩⟩
          rintro (rfl | h)
          · exact hyn
          · exact h
        · rename_i hyn
          refine ⟨?_, fun x => List.mem_orderedInsert _⟩
          exact (List.perm_orderedInsert _ y news).nodup_iff.mpr (List.nodup_cons.mpr ⟨hyn, hnodup⟩)
      obtain ⟨news₁, hnews₁, hnodup₁, hmem₁⟩ := hins
      rw [hnews₁]
      obtain ⟨news', hfold, hnodup', hmem⟩ := ih news₁ hnodup₁ fun x hx => by
        rcases (hmem₁ x).mp hx with rfl | h
        · exact hy
        · exact hnews x h
      refine ⟨news', hfold, hnodup', fun x => ?_⟩
      rw [hmem, hmem₁, List.mem_cons]
      grind

end

/-- The arrays are strictly sorted and hold exactly the pairs of `S`. -/
structure Lists (t : Table K (List V)) (S : Finset (K × V)) : Prop where
  increasing : ∀ k, ∀ vals ∈ Assoc.find t.nodes k, vals.Pairwise (· < ·)
  mem : ∀ k v, (k, v) ∈ S ↔ ∃ vals ∈ Assoc.find t.nodes k, v ∈ vals

variable {t t' : Table K (List V)} {S S' : Finset (K × V)}

/-- The array of one key is replaced by one that holds the pairs of the key in `S'`. -/
theorem Lists.replace_iff (h : Lists t S) {k : K} {vals : List V}
    (hfind : ∀ k', Assoc.find t'.nodes k' = if k = k' then some vals else Assoc.find t.nodes k')
    (hS : ∀ k' v, (k', v) ∈ S' ↔ if k = k' then v ∈ vals else (k', v) ∈ S) :
    Lists t' S' ↔ vals.Pairwise (· < ·) := by
  constructor
  · intro h'
    exact h'.increasing k vals (by rw [hfind, if_pos rfl]; rfl)
  · intro hvals
    refine ⟨fun k' l hl => ?_, fun k' v => ?_⟩
    · rw [hfind] at hl
      split at hl
      · obtain rfl := Option.some.inj hl
        exact hvals
      · exact h.increasing k' l hl
    · rw [hS, hfind]
      split
      · simp
      · exact h.mem k' v

theorem Lists.erase (h : Lists t S) {k : K}
    (hfind : ∀ k', Assoc.find t'.nodes k' = if k = k' then none else Assoc.find t.nodes k') :
    Lists t' (S.filter fun p => p.1 ≠ k) := by
  refine ⟨fun k' l hl => ?_, fun k' v => ?_⟩
  · rw [hfind] at hl
    split at hl
    · exact absurd hl (by rintro ⟨⟩)
    · exact h.increasing k' l hl
  · rw [hfind, Finset.mem_filter, h.mem]
    by_cases hk : k = k'
    · simp [hk]
    · simp [hk, Ne.symm hk]

omit [LinearOrder V] in
theorem find_rehash_store (h : Usual posHash t) (hlen : t.nodes.length + 1 < 2 ^ 64)
    {load : ℕ → ℕ → Bool} {t₁ : Table K (List V)} (hre : t.rehashIfNeeded posHash load = .ok t₁)
    {k : K} {vals : List V} (hst : store posHash t₁ k vals = .ok t') (hsmall : t'.Small) :
    vals.length < 2 ^ 31 ∧
      ∀ k', Assoc.find t'.nodes k' = if k = k' then some vals else Assoc.find t.nodes k' := by
  obtain ⟨hinv, hperm⟩ := Table.rehashIfNeeded_inv h.inv hre
  have hsame := (h.perm hinv hperm).2.2
  obtain ⟨hsize, hinv', rest, hold, hnew⟩ := store_eq hinv (by rw [hperm.length_eq]; exact hlen) hst
  refine ⟨hsize, fun k' => ?_⟩
  rw [Assoc.find_replace hinv.keys_nodup (hinv' hsmall).keys_nodup hold hnew, hsame]

/-- The pairs after the values `A` were inserted for `k`. -/
def record (S : Finset (K × V)) (k : K) (A : List V) : Finset (K × V) :=
  S ∪ (A.map (k, ·)).toFinset

variable {m m' : HashMultimap K V}

theorem Lists.record_iff (h : Lists t S) {k : K} {A vals : List V}
    (hfind : ∀ k', Assoc.find t'.nodes k' = if k = k' then some vals else Assoc.find t.nodes k')
    (hvals : ∀ v, v ∈ vals ↔ v ∈ A ∨ ∃ l ∈ Assoc.find t.nodes k, v ∈ l) :
    Lists t' (record S k A) ↔ vals.Pairwise (· < ·) := by
  apply h.replace_iff hfind
  intro k' v
  rw [record, Finset.mem_union, List.mem_toFinset, List.mem_map]
  split
  · rename_i hk
    rw [hvals, h.mem, ← hk]
    constructor
    · rintro (hv | ⟨x, hx, heq⟩)
      · exact .inr hv
      · exact .inl ((Prod.mk.inj heq).2 ▸ hx)
    · rintro (hv | hv)
      · exact .inr ⟨v, hv, rfl⟩
      · exact .inl hv
  · rename_i hk
    refine or_iff_left ?_
    rintro ⟨x, -, heq⟩
    exact hk (Prod.mk.inj heq).1

theorem insert_lists (h : Usual posHash m.table) (hlen : m.table.nodes.length + 1 < 2 ^ 64)
    (hS : Lists m.table S) {load : ℕ → ℕ → Bool} {k : K} {v : V} {b : Bool}
    (hm : m.insert posHash load k v = .ok (b, m')) (hsmall : m'.table.Small) :
    Lists m'.table (record S k [v]) := by
  obtain ⟨t, vals, hre, hst, hvals⟩ := insert_stores h hm
  obtain ⟨hsize, hfind⟩ := find_rehash_store h hlen hre hst hsmall
  rcases hvals with ⟨hk, rfl, -⟩ | ⟨old, hk, hfound⟩
  · exact (hS.record_iff hfind (by simp [hk])).mpr (List.pairwise_singleton _ _)
  · have hold := hS.increasing k old hk
    rcases searchValue_cases hold v with ⟨a, c, hsplit, hs⟩ | ⟨hv, hs⟩
    · have hset : old.set a.length v = old := by
        rw [hsplit]
        simp
      have hv : v ∈ old := by
        rw [hsplit]
        simp
      have hvals : vals = old := by
        rcases hfound with ⟨i, hi, hvals, -⟩ | ⟨hnone, -⟩
        · rw [hvals, ← Option.some.inj (hs.symm.trans hi), hset]
        · exact absurd (hs.symm.trans hnone) (by simp)
      rw [hvals] at hfind
      refine (hS.record_iff hfind fun x => ?_).mpr hold
      simp only [List.mem_singleton, hk, Option.mem_some_iff, exists_eq_left', iff_or_self]
      intro hx
      exact hx ▸ hv
    · have hvals : vals = sortLast (fun a b => decide (a < b)) (old ++ [v]) := by
        rcases hfound with ⟨i, hi, -⟩ | ⟨-, hvals, -⟩
        · exact absurd (hs.symm.trans hi) (by simp)
        · exact hvals
      rw [hvals] at hsize hfind
      have hperm : sortLast (fun a b => decide (a < b)) (old ++ [v]) ~ v :: old :=
        (sortLast_perm _ _).trans (List.perm_append_singleton _ _)
      rw [hperm.length_eq, List.length_cons] at hsize
      have hle := @sortLast_sorted V V _ id old v (hold.imp le_of_lt) hsize
      refine (hS.record_iff hfind fun x => ?_).mpr ?_
      · rw [hperm.mem_iff]
        simp [hk]
      · refine (pairwise_lt_iff hle).mpr (hperm.nodup_iff.mpr (List.nodup_cons.mpr ⟨hv, ?_⟩))
        exact hold.imp ne_of_lt

/-- Several values at once: a new key gets them as they are, sorted. -/
theorem insertAll_lists_iff (h : Usual posHash m.table) (hlen : m.table.nodes.length + 1 < 2 ^ 64)
    (hS : Lists m.table S) {load : ℕ → ℕ → Bool} {k : K} {v : List V} {b : Bool}
    (hm : m.insertAll posHash load k v = .ok (b, m')) (hsmall : m'.table.Small) :
    Lists m'.table (record S k v) ↔ (m.exists_ posHash k = .ok false → v.Nodup) := by
  have hexists : m.exists_ posHash k = .ok (Assoc.find m.table.nodes k).isSome := by
    rw [exists_, Table.find_eq h.inv]
    rfl
  rw [hexists]
  obtain ⟨t, vals, hre, hst, hvals⟩ := insertAll_stores h hm
  obtain ⟨-, hfind⟩ := find_rehash_store h hlen hre hst hsmall
  rcases hvals with ⟨hk, rfl, -⟩ | ⟨old, hk, hvals, -⟩
  · rw [hS.record_iff hfind (by simp [hk, mem_sortValues]), sortValues_pairwise, hk]
    simp
  · have hold := hS.increasing k old hk
    obtain ⟨news, hfold, hnodup, hmem⟩ := foldl_absorb hold v [] List.nodup_nil (by simp)
    rw [hvals, hfold] at hfind
    have hdisjoint : (old ++ news).Nodup := by
      refine List.nodup_append.mpr ⟨hold.imp ne_of_lt, hnodup, ?_⟩
      rintro x hx y hy rfl
      simpa [hx] using (hmem x).mp hy
    rw [hS.record_iff hfind, sortValues_pairwise]
    · simp [hk, hdisjoint]
    · intro x
      rw [mem_sortValues, List.mem_append, hmem]
      simp only [hk, Option.mem_some_iff, exists_eq_left', List.not_mem_nil, false_or]
      grind

omit [LinearOrder V] in
theorem find_del (h : Usual posHash m.table) (hlen : m.table.nodes.length < 2 ^ 64) {k : K}
    {b : Bool} (hm : m.del posHash k = .ok (b, m')) (k' : K) :
    Assoc.find m'.table.nodes k' = if k = k' then none else Assoc.find m.table.nodes k' := by
  obtain ⟨t', her, -, hold⟩ := Table.erase_eq h.inv hlen k
  have herased := Assoc.find_erase h.inv.keys_nodup hold k'
  obtain ⟨⟨old, t⟩, her', hm⟩ := ok_of_bind hm
  obtain ⟨rfl, rfl⟩ := Prod.mk.inj (Except.ok.inj (her.symm.trans her'))
  rcases hk : Assoc.find m.table.nodes k with _ | vals
  · rw [hk] at hm
    obtain rfl := (Prod.mk.inj (Except.ok.inj hm)).2
    split
    · rename_i heq
      rw [← heq, hk]
    · rfl
  · rw [hk] at hm
    obtain rfl := (Prod.mk.inj (Except.ok.inj hm)).2
    exact herased

/-- The multimap shows the set of pairs: each key's array is strictly increasing and holds
the values of the key, a key without values has none, and both counts are right. -/
structure Shows (posHash : K → ℕ) (m : HashMultimap K V) (S : Finset (K × V)) : Prop where
  get : ∀ k, ∃ vals, m.get posHash k = .ok vals ∧ (vals = none ↔ ∀ v, (k, v) ∉ S) ∧
    ∀ l ∈ vals, l.Pairwise (· < ·) ∧ ∀ v, v ∈ l ↔ (k, v) ∈ S
  existsValue : ∀ k v, m.existsValue posHash k v = .ok (decide ((k, v) ∈ S))
  getValue : ∀ k v, m.getValue posHash k v = .ok (if (k, v) ∈ S then some v else none)
  total : m.getTotal = (S.image Prod.fst).card
  elements : m.getElements = S.card

omit [LinearOrder V] in
theorem Usual.length_le (h : Usual posHash t) : t.nodes.length ≤ valueCount t := by
  have hle := List.length_le_sum_of_one_le (t.nodes.map fun n => n.2.length) (by
    intro i hi
    obtain ⟨n, hn, rfl⟩ := List.mem_map.mp hi
    exact (h.arrays n hn).1)
  rwa [List.length_map] at hle

omit [LinearOrder V] in
theorem Usual.nonempty (h : Usual posHash t) {k : K} {vals : List V}
    (hk : vals ∈ Assoc.find t.nodes k) : ∃ v, v ∈ vals :=
  List.exists_mem_of_length_pos (h.sizeAt_of_find hk).2.1

theorem Lists.pairs (h : Usual posHash t) (hS : Lists t S) :
    (t.nodes.flatMap fun n => n.2.map (n.1, ·)).Nodup ∧
      (t.nodes.flatMap fun n => n.2.map (n.1, ·)).toFinset = S := by
  have hfind : ∀ n ∈ t.nodes, n.2 ∈ Assoc.find t.nodes n.1 := fun n hn =>
    Assoc.find_of_mem h.inv.keys_nodup hn
  constructor
  · refine List.nodup_flatMap.mpr ⟨fun n hn => ?_, ?_⟩
    · have hinc := hS.increasing n.1 n.2 (hfind n hn)
      have hnodup : n.2.Nodup := hinc.imp ne_of_lt
      exact hnodup.map fun a b hab => (Prod.mk.inj hab).2
    · refine (List.pairwise_map.mp h.inv.keys_nodup).imp fun {a b} hab => ?_
      intro p hpa hpb
      obtain ⟨x, -, rfl⟩ := List.mem_map.mp hpa
      obtain ⟨y, -, heq⟩ := List.mem_map.mp hpb
      exact hab (Prod.mk.inj heq).1.symm
  · ext ⟨k, v⟩
    rw [List.mem_toFinset, List.mem_flatMap, hS.mem]
    constructor
    · rintro ⟨n, hn, hp⟩
      obtain ⟨x, hx, heq⟩ := List.mem_map.mp hp
      obtain ⟨rfl, rfl⟩ := Prod.mk.inj heq
      exact ⟨n.2, hfind n hn, hx⟩
    · rintro ⟨vals, hk, hv⟩
      exact ⟨(k, vals), Assoc.mem_of_find hk, List.mem_map.mpr ⟨v, hv, rfl⟩⟩

theorem Lists.keys (h : Usual posHash t) (hS : Lists t S) :
    S.image Prod.fst = (t.nodes.map Prod.fst).toFinset := by
  ext k
  rw [Finset.mem_image, List.mem_toFinset, List.mem_map]
  constructor
  · rintro ⟨⟨k', v⟩, hp, rfl⟩
    obtain ⟨vals, hk, -⟩ := (hS.mem k' v).mp hp
    exact ⟨(k', vals), Assoc.mem_of_find hk, rfl⟩
  · rintro ⟨n, hn, rfl⟩
    have hk : n.2 ∈ Assoc.find t.nodes n.1 := Assoc.find_of_mem h.inv.keys_nodup hn
    obtain ⟨v, hv⟩ := h.nonempty hk
    exact ⟨(n.1, v), (hS.mem n.1 v).mpr ⟨n.2, hk, hv⟩, rfl⟩

theorem shows_of_lists (h : Usual posHash m.table) (hcount : m.m_elements = valueCount m.table)
    (hS : Lists m.table S) : Shows posHash m S where
  get k := by
    refine ⟨Assoc.find m.table.nodes k, Table.find_eq h.inv k, ?_, fun l hl => ?_⟩
    · rcases hk : Assoc.find m.table.nodes k with _ | vals
      · simp [hS.mem, hk]
      · obtain ⟨v, hv⟩ := h.nonempty hk
        simp only [reduceCtorEq, false_iff, not_forall, not_not]
        exact ⟨v, (hS.mem k v).mpr ⟨vals, hk, hv⟩⟩
    · refine ⟨hS.increasing k l hl, fun v => ?_⟩
      rw [hS.mem, Option.mem_def.mp hl]
      simp
  existsValue k v := by
    rw [existsValue_eq (Table.find_eq h.inv k)]
    rcases hk : Assoc.find m.table.nodes k with _ | vals
    · simp [hS.mem, hk]
    · rcases searchValue_cases (hS.increasing k vals hk) v with ⟨a, c, hsplit, hs⟩ | ⟨hv, hs⟩
      · have hv : v ∈ vals := by
          rw [hsplit]
          simp
        simp [hS.mem, hk, hs, hv]
      · simp [hS.mem, hk, hs, hv]
  getValue k v := by
    rw [getValue, Table.find_eq h.inv k]
    rcases hk : Assoc.find m.table.nodes k with _ | vals
    · simp [hS.mem, hk, bind, Except.bind]
    · rcases searchValue_cases (hS.increasing k vals hk) v with ⟨a, c, hsplit, hs⟩ | ⟨hv, hs⟩
      · have hv : v ∈ vals := by
          rw [hsplit]
          simp
        have hat : vals[a.length]? = some v := by
          rw [hsplit]
          simp
        simp [hS.mem, hk, hs, hv, hat, bind, Except.bind]
      · simp [hS.mem, hk, hs, hv, bind, Except.bind]
  total := by
    rw [hS.keys h, List.toFinset_card_of_nodup h.inv.keys_nodup, List.length_map]
    exact h.inv.total
  elements := by
    obtain ⟨hnodup, hpairs⟩ := hS.pairs h
    rw [← hpairs, List.toFinset_card_of_nodup hnodup, getElements, hcount, valueCount,
      List.length_flatMap]
    simp

theorem shows_iff_lists (h : Usual posHash m.table) (hcount : m.m_elements = valueCount m.table) :
    Shows posHash m S ↔ Lists m.table S := by
  refine ⟨fun hshows => ⟨fun k vals hk => ?_, fun k v => ?_⟩, shows_of_lists h hcount⟩
  · obtain ⟨vals', hget, -, hall⟩ := hshows.get k
    obtain rfl := Except.ok.inj ((Table.find_eq h.inv k).symm.trans hget)
    exact (hall vals hk).1
  · obtain ⟨vals', hget, hnone, hall⟩ := hshows.get k
    obtain rfl := Except.ok.inj ((Table.find_eq h.inv k).symm.trans hget)
    constructor
    · intro hp
      rcases hk : Assoc.find m.table.nodes k with _ | vals
      · exact absurd hp (hnone.mp hk v)
      · exact ⟨vals, rfl, ((hall vals hk).2 v).mpr hp⟩
    · rintro ⟨vals, hk, hv⟩
      exact ((hall vals hk).2 v).mp hv

inductive SetOp (K V : Type) where
  | insert (k : K) (v : V) (load : ℕ → ℕ → Bool)
  | insertAll (k : K) (v : List V) (load : ℕ → ℕ → Bool)
  | del (k : K)

/-- The multimap, and the pairs inserted for each key since its last `del`. -/
def setStep (posHash : K → ℕ) (s : HashMultimap K V × Finset (K × V)) :
    SetOp K V → Except Fault (HashMultimap K V × Finset (K × V))
  | .insert k v load => do
      let (_, m) ← s.1.insert posHash load k v
      .ok (m, record s.2 k [v])
  | .insertAll k v load => do
      let (_, m) ← s.1.insertAll posHash load k v
      .ok (m, record s.2 k v)
  | .del k => do
      let (_, m) ← s.1.del posHash k
      .ok (m, s.2.filter fun p => p.1 ≠ k)

/-- The `size` of an `insert(k, v, size)` is at least 1. -/
def SetOp.Sized : SetOp K V → Prop
  | .insertAll _ v _ => v ≠ []
  | _ => True

/-- A key that is not there is given no value twice. -/
def Distinct (posHash : K → ℕ) (s : HashMultimap K V × Finset (K × V)) : SetOp K V → Prop
  | .insertAll k v _ => s.1.exists_ posHash k = .ok false → v.Nodup
  | _ => True

/-- The size of each bucket is an `int`, and there are fewer than 2^63 values. -/
def InMemory (m : HashMultimap K V) : Prop := m.table.Small ∧ valueCount m.table < 2 ^ 63

/-- In order, in memory, and with the right count. -/
structure Sound (posHash : K → ℕ) (m : HashMultimap K V) : Prop where
  usual : Usual posHash m.table
  memory : InMemory m
  count : m.m_elements = valueCount m.table

omit [LinearOrder V] in
theorem Counts.sound {gain : ℕ} (hcounts : Counts posHash m m' gain)
    (hcount : m.m_elements = valueCount m.table) (hmem : InMemory m') : Sound posHash m' := by
  obtain ⟨husual, hel, hval⟩ := hcounts
  have := hmem.2
  exact ⟨husual hmem.1, hmem, by omega⟩

/-- The next multimap is sound, and shows the pairs if the step gives no new key a
value twice. -/
theorem setStep_lists {s s' : HashMultimap K V × Finset (K × V)} {o : SetOp K V}
    (h : Sound posHash s.1) (hS : Lists s.1.table s.2) (ho : o.Sized)
    (hstep : setStep posHash s o = .ok s') (hmem : InMemory s'.1) :
    Sound posHash s'.1 ∧ (Lists s'.1.table s'.2 ↔ Distinct posHash s o) := by
  have hlen := h.usual.length_le
  have hval := h.memory.2
  have hel : s.1.m_elements < 2 ^ 64 := by
    rw [h.count]
    omega
  cases o with
  | insert k v load =>
    obtain ⟨⟨b, m⟩, hins, hstep⟩ := ok_of_bind hstep
    obtain rfl := Except.ok.inj hstep
    obtain ⟨gain, hcounts⟩ := insert_counts h.usual (by omega) hel hins
    refine ⟨hcounts.sound h.count hmem, fun _ => trivial, fun _ => ?_⟩
    exact insert_lists h.usual (by omega) hS hins hmem.1
  | insertAll k v load =>
    obtain ⟨⟨b, m⟩, hins, hstep⟩ := ok_of_bind hstep
    obtain rfl := Except.ok.inj hstep
    obtain ⟨gain, hcounts⟩ := insertAll_counts h.usual (by omega) ho hins
    refine ⟨hcounts.sound h.count hmem, ?_⟩
    exact insertAll_lists_iff h.usual (by omega) hS hins hmem.1
  | del k =>
    obtain ⟨⟨b, m⟩, hdel, hstep⟩ := ok_of_bind hstep
    obtain rfl := Except.ok.inj hstep
    obtain ⟨husual, hel', hval'⟩ := del_counts h.usual (by omega) hel hdel
    have hsize := h.usual.sizeAt_lt k
    have hcount := h.count
    refine ⟨⟨husual, hmem, by dsimp only; omega⟩, fun _ => trivial, fun _ => ?_⟩
    exact hS.erase (find_del h.usual (by omega) hdel)

variable (posHash) in
theorem new_sound {size : ℕ} (h : new size = .ok m) :
    Sound posHash m ∧ Lists m.table (∅ : Finset (K × V)) := by
  obtain ⟨t, ht, hm⟩ := ok_of_bind h
  obtain rfl := Except.ok.inj hm
  obtain ⟨hinv, hnodes⟩ := Table.new_eq posHash ht
  have hcount : valueCount t = 0 := by
    rw [valueCount, hnodes]
    rfl
  refine ⟨⟨⟨hinv, fun n hn => absurd (hnodes ▸ hn) List.not_mem_nil⟩, ⟨?_, ?_⟩, hcount.symm⟩, ⟨?_, ?_⟩⟩
  · exact Table.small_of_nodes (by rw [hnodes]; exact Nat.two_pow_pos 31)
  · rw [hcount]
    exact Nat.two_pow_pos 63
  · simp [hnodes, Assoc.find]
  · simp [hnodes, Assoc.find]

/-- In a run whose states fit in memory, every state shows the pairs inserted so far
exactly when no key that is not there is given a value twice. -/
theorem shows_pairs_iff_distinct {size : ℕ} {m : HashMultimap K V} (hnew : new size = .ok m)
    {os : List (SetOp K V)} (hos : ∀ o ∈ os, o.Sized)
    (hmem : Along (setStep posHash) (fun s => InMemory s.1) (m, ∅) os) :
    Along (setStep posHash) (fun s => Shows posHash s.1 s.2) (m, ∅) os ↔
      Each (setStep posHash) (Distinct posHash) (m, ∅) os := by
  obtain ⟨hsound, hlists⟩ := new_sound posHash hnew
  refine along_iff_each (fun s => Sound posHash s.1) _ _ _ ?_ os _ hsound
    (shows_of_lists hsound.usual hsound.count hlists) (hmem.each hos)
  intro s o s' hs hshows ho hstep
  have hS := (shows_iff_lists hs.usual hs.count).mp hshows
  obtain ⟨hs', hiff⟩ := setStep_lists hs hS ho.1 hstep (ho.2 s' hstep)
  exact ⟨hs', (shows_iff_lists hs'.usual hs'.count).trans hiff⟩

instance : DecidablePred (InMemory (K := K) (V := V)) := fun m =>
  inferInstanceAs (Decidable ((∀ b ∈ m.table.m_datas, b.length < 2 ^ 31) ∧
    valueCount m.table < 2 ^ 63))

instance (s : HashMultimap K V × Finset (K × V)) : ∀ o, Decidable (Distinct posHash s o)
  | .insertAll k v _ => inferInstanceAs (Decidable (s.1.exists_ posHash k = .ok false → v.Nodup))
  | .insert _ _ _ | .del _ => .isTrue trivial

/-- The keys 1 and 3 share a bucket; 7 and 8 are inserted again for a key that is there. -/
def setOps : List (SetOp ℕ ℕ) :=
  [.insertAll 1 [9, 7] fun _ _ => false, .insert 3 4 fun _ _ => false,
    .insert 1 7 fun _ _ => false, .insertAll 1 [8, 7, 8] fun _ _ => true, .del 3,
    .insertAll 3 [5] fun _ _ => false]

theorem shows_pairs_iff_distinct_colliding :
    (new 1 : Except Fault (HashMultimap ℕ ℕ)) = .ok ⟨⟨2, 0, [[], []]⟩, 0⟩ ∧
      Along (setStep id) (fun s => Shows id s.1 s.2) (⟨⟨2, 0, [[], []]⟩, 0⟩, ∅) setOps :=
  have hnew : (new 1 : Except Fault (HashMultimap ℕ ℕ)) = .ok ⟨⟨2, 0, [[], []]⟩, 0⟩ := rfl
  ⟨hnew, (shows_pairs_iff_distinct hnew (by simp [setOps, SetOp.Sized])
    (by decide +kernel)).mpr (by decide +kernel)⟩

/-- A new key is given 7 twice: its array holds both, and `getElements` counts both. -/
theorem repeated_value_is_kept :
    (new 1 : Except Fault (HashMultimap ℕ ℕ)) = .ok ⟨⟨2, 0, [[], []]⟩, 0⟩ ∧
      (insertAll id (fun _ _ => false) ⟨⟨2, 0, [[], []]⟩, 0⟩ 1 [7, 7]).map
        (fun r => (r.2.get id 1, r.2.getElements)) = .ok (.ok (some [7, 7]), 2) ∧
      ¬ Along (setStep id) (fun s => Shows id s.1 s.2) (⟨⟨2, 0, [[], []]⟩, 0⟩, ∅)
        [.insertAll 1 [7, 7] fun _ _ => false] := by
  refine ⟨rfl, rfl, fun h => ?_⟩
  have hcount := (h.2 _ rfl).elements
  exact absurd hcount (by decide +kernel)

end HashMultimap

end Sylar
