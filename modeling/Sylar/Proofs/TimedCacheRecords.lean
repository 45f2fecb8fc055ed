import Sylar.Proofs.TimedCache

/-! What holds of every `TimedCache`, also when the index and the expiry set have parted: each key
leads to a record of its own. The set may hold further records of the key, from earlier calls of
`set`. -/

namespace Sylar

open Lib

namespace TimedCache

open Item (rank)

variable {K V : Type} [LinearOrder K]

/-- Every key leads to a record of its own. -/
structure Pointed (c : TimedCache K V) : Prop where
  sorted : c.m_timed.Pairwise fun a b => rank a.2 < rank b.2
  addrs : (c.m_timed.map Prod.fst).Nodup
  fresh : ∀ n ∈ c.m_timed, n.1 < c.next
  points : ∀ k it, c.m_cache.lookup k = some it →
    ∃ item, (it, item) ∈ c.m_timed ∧ Item.key item = k

theorem Pointed.unique {c : TimedCache K V} (h : Pointed c) {n m : ℕ × Item K V}
    (hn : n ∈ c.m_timed) (hm : m ∈ c.m_timed) (hrank : rank n.2 = rank m.2) : n = m := by
  have hnodup : (c.m_timed.map fun n => rank n.2).Nodup :=
    List.pairwise_map.mpr (h.sorted.imp ne_of_lt)
  exact List.inj_on_of_nodup_map hnodup hn hm hrank

theorem Pointed.deref {c : TimedCache K V} (h : Pointed c) {it : ℕ} {item : Item K V}
    (hmem : (it, item) ∈ c.m_timed) : deref c.m_timed it = .ok item :=
  deref_eq (Assoc.find_of_mem h.addrs hmem)

theorem Pointed.same {c c' : TimedCache K V} (h : Pointed c) (hcache : c'.m_cache = c.m_cache)
    (htimed : c'.m_timed = c.m_timed) (hnext : c'.next = c.next) : Pointed c' where
  sorted := by rw [htimed]; exact h.sorted
  addrs := by rw [htimed]; exact h.addrs
  fresh := by rw [htimed, hnext]; exact h.fresh
  points := by rw [htimed, hcache]; exact h.points

def eraseKeys (cache : AList fun _ : K => ℕ) : Nodes (Item K V) → AList fun _ : K => ℕ
  | [] => cache
  | n :: ns => eraseKeys (cache.erase (Item.key n.2)) ns

theorem lookup_eraseKeys (ns : Nodes (Item K V)) (cache : AList fun _ : K => ℕ) (k : K) :
    (eraseKeys cache ns).lookup k =
      if k ∈ ns.map fun n => Item.key n.2 then none else cache.lookup k := by
  induction ns generalizing cache with
  | nil => rfl
  | cons n ns ih =>
    rw [eraseKeys, ih, List.map_cons]
    by_cases hk : k = Item.key n.2
    · rw [hk, AList.lookup_erase, ite_self, if_pos List.mem_cons_self]
    · rw [AList.lookup_erase_ne hk]
      refine if_congr ?_ rfl rfl
      rw [List.mem_cons, or_iff_right hk]

/-- `c'` is `c` without the records `ns`, which stand at the front, and without their keys. -/
structure Pops (c c' : TimedCache K V) (ns : Nodes (Item K V)) : Prop where
  timed : c.m_timed = ns ++ c'.m_timed
  cache : c'.m_cache = eraseKeys c.m_cache ns
  next : c'.next = c.next

section

variable {c c' : TimedCache K V} {ns : Nodes (Item K V)}

theorem Pops.lookup_eq_some_iff (h : Pops c c' ns) {k : K} {it : ℕ} :
    c'.m_cache.lookup k = some it ↔
      c.m_cache.lookup k = some it ∧ ∀ n ∈ ns, Item.key n.2 ≠ k := by
  rw [h.cache, lookup_eraseKeys]
  by_cases hk : k ∈ ns.map fun n => Item.key n.2
  · rw [if_pos hk]
    obtain ⟨n, hn, hkey⟩ := List.mem_map.mp hk
    exact iff_of_false (by simp) fun hnot => hnot.2 n hn hkey
  · rw [if_neg hk]
    refine (and_iff_left fun n hn hkey => ?_).symm
    exact hk (List.mem_map.mpr ⟨n, hn, hkey⟩)

theorem Pops.pointed (h : Pops c c' ns) (hc : Pointed c) : Pointed c' where
  sorted := (List.pairwise_append.mp (h.timed ▸ hc.sorted)).2.1
  addrs := by
    have := hc.addrs
    rw [h.timed, List.map_append] at this
    exact this.of_append_right
  fresh n hn := by
    rw [h.next]
    exact hc.fresh n (h.timed ▸ List.mem_append_right ns hn)
  points k it hit := by
    obtain ⟨hold, hnone⟩ := h.lookup_eq_some_iff.mp hit
    obtain ⟨item, hmem, hkey⟩ := hc.points k it hold
    rw [h.timed] at hmem
    rcases List.mem_append.mp hmem with hmem | hmem
    · exact absurd hkey (hnone _ hmem)
    · exact ⟨item, hmem, hkey⟩

/-- As long as there are more keys than allowed, there is a record to take. -/
theorem pruneLoop_pops (c : TimedCache K V) (timed : Nodes (Item K V))
    (cache : AList fun _ : K => ℕ) (h : ∀ k it, cache.lookup k = some it →
      ∃ item, (it, item) ∈ timed ∧ Item.key item = k) :
    ∃ calls count ns rest, timed = ns ++ rest ∧
      pruneLoop timed { c with m_cache := cache } =
        .ok (calls, count, { c with m_cache := eraseKeys cache ns, m_timed := rest }) := by
  induction timed generalizing cache with
  | nil =>
    have hempty : cache.keys = [] := by
      refine List.eq_nil_iff_forall_not_mem.mpr fun k hk => ?_
      obtain ⟨it, hit⟩ :=
        Option.isSome_iff_exists.mp (AList.lookup_isSome.mpr (AList.mem_keys.mpr hk))
      obtain ⟨item, hmem, -⟩ := h k it hit
      exact absurd hmem List.not_mem_nil
    refine ⟨[], 0, [], [], rfl, ?_⟩
    rw [pruneLoop, if_neg (by rw [size, hempty]; exact Nat.not_lt_zero _)]
    rfl
  | cons n timed ih =>
    by_cases hmax : cache.keys.length > c.m_maxSize
    · obtain ⟨calls, count, ns, rest, hsplit, heq⟩ := ih (cache.erase (Item.key n.2)) (by
        intro k it hit
        have hk : k ≠ Item.key n.2 := by
          rintro rfl
          rw [AList.lookup_erase] at hit
          cases hit
        rw [AList.lookup_erase_ne hk] at hit
        obtain ⟨item, hmem, hkey⟩ := h k it hit
        rcases List.mem_cons.mp hmem with rfl | hmem
        · exact absurd hkey.symm hk
        · exact ⟨item, hmem, hkey⟩)
      rw [pruneLoop, if_pos (by rw [size]; exact hmax)]
      dsimp only
      rw [heq]
      exact ⟨_, _, n :: ns, rest, by rw [hsplit]; rfl, rfl⟩
    · rw [pruneLoop, if_neg (by rw [size]; exact hmax)]
      exact ⟨[], 0, [], n :: timed, rfl, rfl⟩

theorem prune_pops (hc : Pointed c) :
    ∃ calls count c' ns, c.prune = .ok (calls, count, c') ∧ Pops c c' ns := by
  rw [prune]
  by_cases hfit : c.m_maxSize = 0 ∨ c.size < c.getMaxAllowedSize
  · rw [if_pos hfit]
    exact ⟨[], 0, c, [], rfl, rfl, rfl, rfl⟩
  · obtain ⟨calls, count, ns, rest, hsplit, heq⟩ := pruneLoop_pops c c.m_timed c.m_cache hc.points
    rw [if_neg hfit, heq]
    exact ⟨calls, count, _, ns, rfl, hsplit, rfl, rfl⟩

theorem timeoutLoop_pops (c : TimedCache K V) (ts : ℕ) (timed : Nodes (Item K V))
    (cache : AList fun _ : K => ℕ) (h : timed.Pairwise fun a b => rank a.2 < rank b.2) :
    ∃ calls count ns rest, timed = ns ++ rest ∧
      timeoutLoop ts timed { c with m_cache := cache } =
        (calls, count, { c with m_cache := eraseKeys cache ns, m_timed := rest }) ∧
      (∀ n ∈ ns, Item.ts n.2 ≤ ts) ∧ ∀ n ∈ rest, ts < Item.ts n.2 := by
  induction timed generalizing cache with
  | nil => exact ⟨[], 0, [], [], rfl, rfl, by simp, by simp⟩
  | cons n timed ih =>
    rw [List.pairwise_cons] at h
    by_cases hts : Item.ts n.2 ≤ ts
    · obtain ⟨calls, count, ns, rest, hsplit, heq, hdue, hlater⟩ :=
        ih (cache.erase (Item.key n.2)) h.2
      rw [timeoutLoop, if_pos hts]
      dsimp only
      rw [heq]
      exact ⟨_, _, n :: ns, rest, by rw [hsplit]; rfl, rfl, List.forall_mem_cons.mpr ⟨hts, hdue⟩,
        hlater⟩
    · rw [timeoutLoop, if_neg hts]
      refine ⟨[], 0, [], n :: timed, rfl, rfl, by simp,
        List.forall_mem_cons.mpr ⟨not_le.mp hts, ?_⟩⟩
      exact fun m hm => lt_of_lt_of_le (not_le.mp hts) (Item.ts_le_of_rank_lt (h.1 m hm))

theorem checkTimeout_pops (hc : Pointed c) (ts : ℕ) :
    ∃ ns, Pops c (c.checkTimeout ts).2.2 ns ∧ (∀ n ∈ ns, Item.ts n.2 ≤ ts) ∧
      ∀ n ∈ (c.checkTimeout ts).2.2.m_timed, ts < Item.ts n.2 := by
  obtain ⟨calls, count, ns, rest, hsplit, heq, hdue, hlater⟩ :=
    timeoutLoop_pops c ts c.m_timed c.m_cache hc.sorted
  refine ⟨ns, ?_⟩
  rw [checkTimeout, heq]
  exact ⟨⟨hsplit, rfl, rfl⟩, hdue, hlater⟩

end

/-- `timed'` is `timed` with a record for the expiry and the key of `item`: one that was there, or
`item` itself. -/
structure Enters (timed : Nodes (Item K V)) (next : ℕ) (item : Item K V) (it : ℕ)
    (found : Item K V) (timed' : Nodes (Item K V)) : Prop where
  sorted : timed'.Pairwise fun a b => rank a.2 < rank b.2
  addrs : (timed'.map Prod.fst).Nodup
  fresh : ∀ n ∈ timed', n.1 < next + 1
  mem : (it, found) ∈ timed'
  rank : rank found = rank item
  others : ∀ n, Item.key n.2 ≠ Item.key item → (n ∈ timed' ↔ n ∈ timed)
  found : (it, found) ∈ timed ∨
    (∀ n ∈ timed, Item.rank n.2 ≠ Item.rank item) ∧ timed'.Perm ((it, item) :: timed) ∧ found = item

theorem Enters.key {timed timed' : Nodes (Item K V)} {next it : ℕ} {item found : Item K V}
    (h : Enters timed next item it found timed') : Item.key found = Item.key item :=
  (Prod.mk.inj (toLex.injective h.rank)).2

theorem insert_enters {timed : Nodes (Item K V)}
    (hsorted : timed.Pairwise fun a b => rank a.2 < rank b.2) (haddrs : (timed.map Prod.fst).Nodup)
    {next : ℕ} (hfresh : ∀ n ∈ timed, n.1 < next) (item : Item K V) :
    ∃ res found timed', OrderedSet.insert less (next, item) timed = .ok (res, timed') ∧
      Enters timed next item ((res.map Prod.fst).getD next) found timed' := by
  by_cases hex : ∃ m ∈ timed, rank m.2 = rank item
  · obtain ⟨m, hm, hrank⟩ := hex
    have hins := OrderedSet.insert_present (n := (next, item))
      (fun m _ => compares_less (next, item) m) hsorted hm hrank
    rw [List.map_id, id, id] at hins
    exact ⟨_, m.2, timed, hins, hsorted, haddrs, fun n hn => Nat.lt_succ_of_lt (hfresh n hn), hm,
      hrank, fun _ _ => Iff.rfl, .inl hm⟩
  · have hne : ∀ m ∈ timed, rank m.2 ≠ rank item := fun m hm hrank => hex ⟨m, hm, hrank⟩
    obtain ⟨timed', hins, hperm, hsorted', hfresh'⟩ :=
      insert_new hsorted hfresh (n := (next, item)) rfl hne
    refine ⟨none, item, timed', hins, hsorted', ?_, hfresh', hperm.mem_iff.mpr List.mem_cons_self,
      rfl, fun n hn => ?_, .inr ⟨hne, hperm, rfl⟩⟩
    · exact (hperm.map Prod.fst).nodup_iff.mpr (List.nodup_cons.mpr ⟨next_free hfresh, haddrs⟩)
    · rw [hperm.mem_iff, List.mem_cons]
      refine or_iff_right ?_
      rintro rfl
      exact hn rfl

section

variable {c c' : TimedCache K V} {k : K} {it : ℕ} {item found : Item K V}

theorem Pointed.enter (h : Pointed c) {timed timed' : Nodes (Item K V)}
    (henters : Enters timed c.next item it found timed')
    (htimed : ∀ n ∈ c.m_timed, Item.key n.2 ≠ Item.key item → n ∈ timed)
    {cache : AList fun _ : K => ℕ}
    (hcache : ∀ k ≠ Item.key item, cache.lookup k = c.m_cache.lookup k) (status : CacheStatus) :
    Pointed { c with m_status := status, m_cache := cache.insert (Item.key item) it,
                     m_timed := timed', next := c.next + 1 } where
  sorted := henters.sorted
  addrs := henters.addrs
  fresh := henters.fresh
  points k it' hit := by
    dsimp only at hit
    by_cases hk : k = Item.key item
    · rw [hk, AList.lookup_insert] at hit
      obtain rfl := Option.some.inj hit
      exact ⟨found, henters.mem, henters.key.trans hk.symm⟩
    · rw [AList.lookup_insert_ne hk, hcache k hk] at hit
      obtain ⟨item', hmem', rfl⟩ := h.points k it' hit
      exact ⟨item', (henters.others _ hk).mpr (htimed _ hmem' hk), rfl⟩

/-- `set` finds a record with the expiry and the key, or makes one; then it prunes. -/
theorem set_spec (h : Pointed c) (k : K) (v : V) (e now : ℕ) :
    ∃ calls c₁ c' ns it found, c.set k v e now = .ok (calls, c') ∧ Pointed c₁ ∧ Pops c₁ c' ns ∧
      Enters c.m_timed c.next (k, v, expiry e now) it found c₁.m_timed ∧
      c₁.m_cache.lookup k = some it ∧ ∀ k' ≠ k, c₁.m_cache.lookup k' = c.m_cache.lookup k' := by
  obtain ⟨res, found, timed, hins, henters⟩ :=
    insert_enters h.sorted h.addrs h.fresh (k, v, expiry e now)
  set cache := if (c.m_cache.lookup k).isSome then c.m_cache.erase k else c.m_cache with hcache
  have hlookup : ∀ k' ≠ k, cache.lookup k' = c.m_cache.lookup k' := by
    intro k' hk
    rw [hcache]
    split
    · rw [AList.lookup_erase_ne hk]
    · rfl
  have hpointed := h.enter henters (fun _ hn _ => hn) hlookup c.m_status.incSet
  obtain ⟨calls, count, c', ns, hprune, hpops⟩ := prune_pops hpointed
  refine ⟨calls, _, c', ns, _, found, set_of_prune hins hprune, hpointed, hpops, henters,
    AList.lookup_insert _, fun k' hk => ?_⟩
  exact (AList.lookup_insert_ne hk).trans (hlookup k' hk)

/-- The index entry and the records of the key are as before. -/
structure Keeps (k : K) (c c' : TimedCache K V) : Prop where
  lookup : c'.m_cache.lookup k = c.m_cache.lookup k
  mem : ∀ n, Item.key n.2 = k → (n ∈ c'.m_timed ↔ n ∈ c.m_timed)

theorem Keeps.refl (k : K) (c : TimedCache K V) : Keeps k c c := ⟨rfl, fun _ _ => Iff.rfl⟩

theorem Keeps.trans {c₁ : TimedCache K V} (h : Keeps k c c₁) (h' : Keeps k c₁ c') :
    Keeps k c c' where
  lookup := h'.lookup.trans h.lookup
  mem n hn := (h'.mem n hn).trans (h.mem n hn)

theorem Pops.keeps {ns : Nodes (Item K V)} (h : Pops c c' ns) (hk : k ∈ c'.m_cache) :
    Keeps k c c' := by
  obtain ⟨it, hit⟩ := Option.isSome_iff_exists.mp (AList.lookup_isSome.mpr hk)
  obtain ⟨hold, hnone⟩ := h.lookup_eq_some_iff.mp hit
  refine ⟨hit.trans hold.symm, fun n hn => ?_⟩
  rw [h.timed, List.mem_append]
  exact (or_iff_right fun hmem => hnone n hmem hn).symm

theorem Pointed.mem_remove (h : Pointed c) (hmem : (it, item) ∈ c.m_timed) (n : ℕ × Item K V)
    (hn : Item.key n.2 ≠ Item.key item) : n ∈ c.m_timed.remove it ↔ n ∈ c.m_timed := by
  refine Assoc.mem_without.trans (and_iff_left_of_imp fun hnmem hit => ?_)
  have heq : n = (it, item) := List.inj_on_of_nodup_map h.addrs hnmem hmem hit
  rw [heq] at hn
  exact hn rfl

theorem Pointed.mem_items_remove (h : Pointed c) (hmem : (it, item) ∈ c.m_timed) (i : Item K V) :
    i = item ∨ i ∈ (c.m_timed.remove it).items ↔ i ∈ c.m_timed.items := by
  rw [Nodes.items, Nodes.items, List.mem_map, List.mem_map]
  constructor
  · rintro (rfl | ⟨n, hn, rfl⟩)
    · exact ⟨(it, i), hmem, rfl⟩
    · exact ⟨n, (Assoc.mem_without.mp hn).1, rfl⟩
  · rintro ⟨n, hn, rfl⟩
    by_cases hit : n.1 = it
    · have heq : n = (it, item) := List.inj_on_of_nodup_map h.addrs hn hmem hit
      exact .inl (congrArg Prod.snd heq)
    · exact .inr ⟨n, Assoc.mem_without.mpr ⟨hn, hit⟩, rfl⟩

theorem del_spec (h : Pointed c) (k : K) :
    ∃ b c', c.del k = .ok (b, c') ∧ Pointed c' ∧ ∀ k' ≠ k, Keeps k' c c' := by
  rw [del]
  dsimp only
  cases hit : c.m_cache.lookup k with
  | none =>
    exact ⟨_, _, rfl, h.same rfl rfl rfl, fun _ _ => ⟨rfl, fun _ _ => Iff.rfl⟩⟩
  | some it =>
    obtain ⟨item, hmem, rfl⟩ := h.points k it hit
    dsimp only
    rw [h.deref hmem]
    refine ⟨_, _, rfl, ⟨h.sorted.filter _, Assoc.nodup_without h.addrs it, fun n hn => ?_,
      fun k it' hit' => ?_⟩, fun k' hk => ⟨AList.lookup_erase_ne hk, fun n hn => ?_⟩⟩
    · exact h.fresh n (Assoc.mem_without.mp hn).1
    · have hk : k ≠ Item.key item := by
        rintro rfl
        rw [AList.lookup_erase] at hit'
        cases hit'
      rw [AList.lookup_erase_ne hk] at hit'
      obtain ⟨item', hmem', rfl⟩ := h.points k it' hit'
      exact ⟨item', (h.mem_remove hmem _ hk).mpr hmem', rfl⟩
    · exact h.mem_remove hmem n (by rw [hn]; exact hk)

theorem expired_spec (h : Pointed c) (hit : c.m_cache.lookup (Item.key item) = some it)
    (hmem : (it, item) ∈ c.m_timed) (d t : ℕ) :
    ∃ c' it', c.expired (Item.key item) d t = .ok (true, c') ∧ Pointed c' ∧
      c'.m_cache.lookup (Item.key item) = some it' ∧ (it', item) ∈ c'.m_timed ∧
      (∀ i, i ∈ c'.m_timed.items ↔ i ∈ c.m_timed.items) ∧ ∀ k ≠ Item.key item, Keeps k c c' := by
  rw [expired, hit]
  dsimp only
  rw [h.deref hmem]
  simp only [bind, Except.bind]
  by_cases hts : Item.ts item = expiry d t
  · rw [if_pos hts]
    exact ⟨c, it, rfl, h, hit, hmem, fun _ => Iff.rfl, fun k _ => .refl k c⟩
  · rw [if_neg hts]
    have hsorted : (c.m_timed.remove it).Pairwise fun a b => rank a.2 < rank b.2 :=
      h.sorted.filter _
    have hfresh : ∀ n ∈ c.m_timed.remove it, n.1 < c.next := fun n hn =>
      h.fresh n (Assoc.mem_without.mp hn).1
    obtain ⟨res, found, timed, hins, henters⟩ :=
      insert_enters hsorted (Assoc.nodup_without h.addrs it) hfresh item
    rw [hins]
    -- the record was the only one with its expiry and key
    obtain ⟨-, hperm, rfl⟩ := henters.found.resolve_left fun hold => by
      have hold := Assoc.mem_without.mp hold
      exact hold.2 (congrArg Prod.fst (h.unique hold.1 hmem henters.rank))
    refine ⟨_, _, rfl, h.enter henters (fun n hn hk => (h.mem_remove hmem n hk).mpr hn)
      (fun _ _ => rfl) c.m_status, AList.lookup_insert _, henters.mem, fun i => ?_, fun k hk => ?_⟩
    · rw [Nodes.items, (hperm.map Prod.snd).mem_iff, List.map_cons, List.mem_cons]
      exact h.mem_items_remove hmem i
    · refine ⟨AList.lookup_insert_ne hk, fun n hn => ?_⟩
      have hne : Item.key n.2 ≠ Item.key found := by
        rw [hn]
        exact hk
      exact (henters.others n hne).trans (h.mem_remove hmem n hne)

end

inductive Call (K V : Type) where
  | set (k : K) (v : V) (expired now : ℕ)
  | get (k : K)
  | del (k : K)
  | expired (k : K) (ts now : ℕ)
  | checkTimeout (ts : ℕ)
  | clear
  | setMaxSize (v : ℕ)
  | setElasticity (v : ℕ)
  | setPruneCallback (cb : Bool)

def call (c : TimedCache K V) : Call K V → Except Fault (TimedCache K V)
  | .set k v expired now => do
      let (_, c) ← c.set k v expired now
      .ok c
  | .get k => do
      let (_, c) ← c.get k
      .ok c
  | .del k => do
      let (_, c) ← c.del k
      .ok c
  | .expired k ts now => do
      let (_, c) ← c.expired k ts now
      .ok c
  | .checkTimeout ts => .ok (c.checkTimeout ts).2.2
  | .clear => .ok c.clear
  | .setMaxSize v => .ok (c.setMaxSize v)
  | .setElasticity v => .ok (c.setElasticity v)
  | .setPruneCallback cb => .ok (c.setPruneCallback cb)

/-- The call sets or takes out the key, or its expiry. -/
def Call.Concerns (k : K) : Call K V → Prop
  | .set k' _ _ _ | .del k' | .expired k' _ _ => k' = k
  | .clear => True
  | _ => False

inductive Reachable : TimedCache K V → Prop where
  | new (max_size elasticity : ℕ) (cb : Bool) : Reachable (new max_size elasticity cb)
  | call {c c' : TimedCache K V} (o : Call K V) (h : Reachable c) (hcall : call c o = .ok c') :
      Reachable c'

section

variable {c c' : TimedCache K V}

theorem get_pointed (h : Pointed c) {k : K} {it : ℕ} {item : Item K V}
    (hit : c.m_cache.lookup k = some it) (hmem : (it, item) ∈ c.m_timed) :
    c.get k = .ok (some (Item.val item), { c with m_status := c.m_status.incGet.incHit }) := by
  rw [get]
  dsimp only
  rw [hit]
  dsimp only
  rw [h.deref hmem]
  rfl

/-- A call keeps the cache in order, and each key that it does not concern and does not drop. -/
theorem call_spec (h : Pointed c) {o : Call K V} (hcall : call c o = .ok c') :
    Pointed c' ∧ ∀ k, ¬ o.Concerns k → k ∈ c'.m_cache → Keeps k c c' := by
  cases o with
  | set k v e now =>
    obtain ⟨calls, c₁, c₂, ns, it, found, heq, h₁, hpops, henters, -, hcache⟩ :=
      set_spec h k v e now
    rw [call, heq] at hcall
    obtain rfl := Except.ok.inj hcall
    refine ⟨hpops.pointed h₁, fun k' hk hmem => ?_⟩
    have hk : k' ≠ k := fun heq => hk heq.symm
    refine .trans ⟨hcache k' hk, fun n hn => henters.others n ?_⟩ (hpops.keeps hmem)
    rw [hn]
    exact hk
  | get k =>
    rw [call] at hcall
    cases hit : c.m_cache.lookup k with
    | none =>
      rw [get, hit] at hcall
      obtain rfl := Except.ok.inj hcall
      exact ⟨h.same rfl rfl rfl, fun k _ _ => ⟨rfl, fun _ _ => Iff.rfl⟩⟩
    | some it =>
      obtain ⟨item, hmem, -⟩ := h.points k it hit
      rw [get_pointed h hit hmem] at hcall
      obtain rfl := Except.ok.inj hcall
      exact ⟨h.same rfl rfl rfl, fun k _ _ => ⟨rfl, fun _ _ => Iff.rfl⟩⟩
  | del k =>
    obtain ⟨b, c₁, heq, h₁, hkeeps⟩ := del_spec h k
    rw [call, heq] at hcall
    obtain rfl := Except.ok.inj hcall
    exact ⟨h₁, fun k' hk _ => hkeeps k' fun heq => hk heq.symm⟩
  | expired k d t =>
    rw [call] at hcall
    cases hit : c.m_cache.lookup k with
    | none =>
      rw [expired, hit] at hcall
      obtain rfl := Except.ok.inj hcall
      exact ⟨h, fun k _ _ => .refl k c⟩
    | some it =>
      obtain ⟨item, hmem, rfl⟩ := h.points k it hit
      obtain ⟨c₁, it', heq, h₁, -, -, -, hkeeps⟩ := expired_spec h hit hmem d t
      rw [heq] at hcall
      obtain rfl := Except.ok.inj hcall
      exact ⟨h₁, fun k' hk _ => hkeeps k' fun heq => hk heq.symm⟩
  | checkTimeout ts =>
    obtain ⟨ns, hpops, -, -⟩ := checkTimeout_pops h ts
    obtain rfl := Except.ok.inj hcall
    exact ⟨hpops.pointed h, fun k _ hk => hpops.keeps hk⟩
  | clear =>
    obtain rfl := Except.ok.inj hcall
    refine ⟨⟨List.Pairwise.nil, List.nodup_nil, fun n hn => absurd hn List.not_mem_nil,
      fun k it hit => by cases hit⟩, fun k hk => absurd trivial hk⟩
  | setMaxSize v =>
    obtain rfl := Except.ok.inj hcall
    exact ⟨h.same rfl rfl rfl, fun k _ _ => ⟨rfl, fun _ _ => Iff.rfl⟩⟩
  | setElasticity v =>
    obtain rfl := Except.ok.inj hcall
    exact ⟨h.same rfl rfl rfl, fun k _ _ => ⟨rfl, fun _ _ => Iff.rfl⟩⟩
  | setPruneCallback cb =>
    obtain rfl := Except.ok.inj hcall
    exact ⟨h.same rfl rfl rfl, fun k _ _ => ⟨rfl, fun _ _ => Iff.rfl⟩⟩

theorem Reachable.pointed (h : Reachable c) : Pointed c := by
  induction h with
  | new max_size elasticity cb =>
    exact ⟨List.Pairwise.nil, List.nodup_nil, fun n hn => absurd hn List.not_mem_nil,
      fun k it hit => by cases hit⟩
  | call o _ hcall ih => exact (call_spec ih hcall).1

/-- A key that no call of a run concerns, and that is there at its end, was there all along. -/
theorem calls_keep {k : K} {os : List (Call K V)} (hos : ∀ o ∈ os, ¬ o.Concerns k) (h : Pointed c)
    (hrun : os.foldlM call c = .ok c') (hk : k ∈ c'.m_cache) : Pointed c' ∧ Keeps k c c' := by
  induction os generalizing c with
  | nil =>
    obtain rfl := Except.ok.inj hrun
    exact ⟨h, .refl k c⟩
  | cons o os ih =>
    rw [List.foldlM_cons] at hrun
    obtain ⟨c₁, hcall, hrun⟩ := ok_of_bind hrun
    obtain ⟨h₁, hkeeps⟩ := call_spec h hcall
    obtain ⟨h', hrest⟩ := ih (fun o ho => hos o (List.mem_cons_of_mem _ ho)) h₁ hrun
    have hk₁ : k ∈ c₁.m_cache := by
      rw [← AList.lookup_isSome, hrest.lookup.symm, AList.lookup_isSome]
      exact hk
    exact ⟨h', (hkeeps k (hos o List.mem_cons_self) hk₁).trans hrest⟩

/-- `get` returns the value that was last set, unless `set` has found a record of the key with
the same expiry and another value. -/
theorem get_set_iff (h : Reachable c) (k : K) (v : V) (e now : ℕ) :
    ∃ calls c', c.set k v e now = .ok (calls, c') ∧ (k ∈ c'.m_cache →
      ((∃ c₂, c'.get k = .ok (some v, c₂)) ↔ ∀ n ∈ c.m_timed,
        Item.key n.2 = k → Item.ts n.2 = expiry e now → Item.val n.2 = v)) := by
  obtain ⟨calls, c₁, c', ns, it, found, hset, h₁, hpops, henters, hit, -⟩ :=
    set_spec h.pointed k v e now
  refine ⟨calls, c', hset, fun hk => ?_⟩
  have hkeeps := hpops.keeps hk
  have hkey : Item.key found = k := henters.key
  have hmem : (it, found) ∈ c'.m_timed := (hkeeps.mem _ hkey).mpr henters.mem
  rw [get_pointed (hpops.pointed h₁) (hkeeps.lookup.trans hit) hmem]
  have hval : (∃ c₂, Except.ok (some (Item.val found),
      { c' with m_status := c'.m_status.incGet.incHit }) = (Except.ok (some v, c₂) :
        Except Fault (Option V × TimedCache K V))) ↔ Item.val found = v := by
    constructor
    · rintro ⟨c₂, heq⟩
      exact Option.some.inj (Prod.mk.inj (Except.ok.inj heq)).1
    · rintro rfl
      exact ⟨_, rfl⟩
  rw [hval]
  rcases henters.found with hold | ⟨hne, -, rfl⟩
  · constructor
    · intro hv n hn hnk hnts
      have hrank : rank n.2 = rank found :=
        (congrArg toLex (Prod.ext hnts hnk)).trans henters.rank.symm
      obtain rfl := h.pointed.unique hn hold hrank
      exact hv
    · intro hall
      exact hall _ hold hkey (Prod.mk.inj (toLex.injective henters.rank)).1
  · refine iff_of_true rfl fun n hn hnk hnts => ?_
    exact absurd (congrArg toLex (Prod.ext hnts hnk)) (hne n hn)

end

/-- The key 1 with the value 7, which expires at 10. -/
def oneSet : TimedCache ℕ ℕ :=
  ⟨0, 0, CacheStatus.incSet {}, AList.insert 1 0 ∅, [(0, (1, 7, 10))], false, 1⟩

theorem oneSet_reachable : Reachable oneSet := .call (.set 1 7 10 0) (.new 0 0 false) rfl

theorem get_set_iff_later : ∃ calls c', oneSet.set 1 8 20 0 = .ok (calls, c') ∧
    ∃ c₂, c'.get 1 = .ok (some 8, c₂) := by
  obtain ⟨calls, c', hset, hget⟩ := get_set_iff oneSet_reachable 1 8 20 0
  refine ⟨calls, c', hset, (hget ?_).mpr (by decide)⟩
  obtain rfl := (Prod.mk.inj (Except.ok.inj hset)).2
  decide

/-- A second set with the same expiry leaves the first value. -/
theorem get_set_not_last : Reachable oneSet ∧ ∃ c', oneSet.set 1 8 10 0 = .ok ([], c') ∧
    1 ∈ c'.m_cache ∧ ∃ c₂, c'.get 1 = .ok (some 7, c₂) :=
  ⟨oneSet_reachable, _, rfl, by decide, _, rfl⟩

section

variable {c : TimedCache K V} {k : K}

def Entry (c : TimedCache K V) (k : K) (item : Item K V) : Prop :=
  ∃ it, c.m_cache.lookup k = some it ∧ deref c.m_timed it = .ok item

/-- As long as no call concerns the key or drops it, `checkTimeout` takes it from `due` on and
not before. -/
def Expires (c : TimedCache K V) (k : K) (due : ℕ) : Prop :=
  ∀ (os : List (Call K V)) c', (∀ o ∈ os, ¬ o.Concerns k) → os.foldlM call c = .ok c' →
    k ∈ c'.m_cache → ∀ ts, (k ∉ (c'.checkTimeout ts).2.2.m_cache ↔ due ≤ ts)

theorem checkTimeout_takes_iff (h : Pointed c) (hk : k ∈ c.m_cache) (ts : ℕ) :
    k ∉ (c.checkTimeout ts).2.2.m_cache ↔
      ∃ n ∈ c.m_timed, Item.key n.2 = k ∧ Item.ts n.2 ≤ ts := by
  obtain ⟨ns, hpops, hdue, hlater⟩ := checkTimeout_pops h ts
  constructor
  · intro hnot
    by_contra hnone
    push Not at hnone
    obtain ⟨it, hit⟩ := Option.isSome_iff_exists.mp (AList.lookup_isSome.mpr hk)
    have hkept := hpops.lookup_eq_some_iff.mpr ⟨hit, fun n hn hkey =>
      absurd (hdue n hn) (not_le.mpr (hnone n (hpops.timed ▸ List.mem_append_left _ hn) hkey))⟩
    exact hnot (AList.lookup_isSome.mp (by rw [hkept]; rfl))
  · rintro ⟨n, hn, hkey, hts⟩ hmem
    have hn' := ((hpops.keeps hmem).mem n hkey).mpr hn
    exact absurd hts (not_le.mpr (hlater n hn'))

/-- A key expires with its entry unless it has a record that is due before. -/
theorem expires_iff (h : Pointed c) {it : ℕ} {item : Item K V} (hit : c.m_cache.lookup k = some it)
    (hmem : (it, item) ∈ c.m_timed) (hkey : Item.key item = k) :
    Expires c k (Item.ts item) ↔
      ∀ i ∈ c.m_timed.items, Item.key i = k → Item.ts item ≤ Item.ts i := by
  constructor
  · intro hexp i hi hik
    obtain ⟨n, hn, rfl⟩ := List.mem_map.mp hi
    have hk : k ∈ c.m_cache := AList.lookup_isSome.mp (by rw [hit]; rfl)
    have htakes := checkTimeout_takes_iff h hk (Item.ts n.2)
    exact (hexp [] c (by simp) rfl hk _).mp (htakes.mpr ⟨n, hn, hik, le_refl _⟩)
  · intro hall os c' hos hrun hk ts
    obtain ⟨h', hkeeps⟩ := calls_keep hos h hrun hk
    rw [checkTimeout_takes_iff h' hk]
    constructor
    · rintro ⟨n, hn, hnk, hts⟩
      have hn := (hkeeps.mem n hnk).mp hn
      exact (hall n.2 (List.mem_map_of_mem hn) hnk).trans hts
    · intro hts
      exact ⟨(it, item), (hkeeps.mem _ hkey).mpr hmem, hkey, hts⟩

/-- `expired` moves no expiry: the key expires at `t + d` exactly if its entry does already, and
none of its records is due before. -/
theorem expired_postpones_iff (h : Reachable c) (hk : k ∈ c.m_cache) (d t : ℕ) :
    ∃ item c', Entry c k item ∧ c.expired k d t = .ok (true, c') ∧
      (Entry c' k (k, Item.val item, t + d) ∧ Expires c' k (t + d) ↔
        Item.ts item = t + d ∧ ∀ i ∈ c.m_timed.items, Item.key i = k → t + d ≤ Item.ts i) := by
  obtain ⟨it, hit⟩ := Option.isSome_iff_exists.mp (AList.lookup_isSome.mpr hk)
  obtain ⟨item, hmem, rfl⟩ := h.pointed.points k it hit
  obtain ⟨c', it', hexpired, h', hit', hmem', hitems, -⟩ := expired_spec h.pointed hit hmem d t
  refine ⟨item, c', ⟨it, hit, h.pointed.deref hmem⟩, hexpired, ?_⟩
  have hall : (∀ i ∈ c'.m_timed.items, Item.key i = Item.key item → Item.ts item ≤ Item.ts i) ↔
      ∀ i ∈ c.m_timed.items, Item.key i = Item.key item → Item.ts item ≤ Item.ts i :=
    forall_congr' fun i => imp_congr_left (hitems i)
  constructor
  · rintro ⟨⟨it₂, hit₂, hderef⟩, hexp⟩
    obtain rfl := Option.some.inj (hit'.symm.trans hit₂)
    rw [h'.deref hmem'] at hderef
    have hts : Item.ts item = t + d := congrArg Item.ts (Except.ok.inj hderef)
    rw [← hts] at hexp ⊢
    exact ⟨rfl, hall.mp ((expires_iff h' hit' hmem' rfl).mp hexp)⟩
  · rintro ⟨hts, hnone⟩
    rw [← hts] at hnone ⊢
    refine ⟨⟨it', hit', h'.deref hmem'⟩, (expires_iff h' hit' hmem' rfl).mpr (hall.mpr hnone)⟩

end

theorem expired_postpones_same :
    ∃ c', oneSet.expired 1 10 0 = .ok (true, c') ∧ Expires c' 1 10 := by
  obtain ⟨item, c', ⟨it, hit, hitem⟩, hexpired, hiff⟩ :=
    expired_postpones_iff oneSet_reachable (by decide : 1 ∈ oneSet.m_cache) 10 0
  obtain rfl : 0 = it := Option.some.inj hit
  obtain rfl : (1, 7, 10) = item := Except.ok.inj hitem
  exact ⟨c', hexpired, (hiff.mpr (by decide)).2⟩

/-- A key that expires at 10 and is postponed to 100 is taken at 10. -/
theorem expired_postpones_not_later : Reachable oneSet ∧
    ∃ c', oneSet.expired 1 100 0 = .ok (true, c') ∧ Entry c' 1 (1, 7, 10) ∧ ¬ Expires c' 1 100 := by
  refine ⟨oneSet_reachable, _, rfl, ⟨1, rfl, rfl⟩, fun hexp => ?_⟩
  exact absurd ((hexp [] _ (by simp) rfl (by decide) 10).mp (by decide)) (by decide)

end TimedCache

end Sylar
