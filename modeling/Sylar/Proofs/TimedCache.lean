import Sylar.Spec.TimedCache
import Sylar.Proofs.TimedLruCache
import Sylar.Lib.Partial

/-! When the index and the expiry set of `TimedCache` stay in step. `set` drops the
index entry of a key it overwrites and leaves the record of the key in the set, so
the two part as soon as a key is set again with another expiry. -/

namespace Sylar

open Lib

namespace TimedCache

open Item (rank pair)

variable {K V : Type} [LinearOrder K]

/-- The index and the set hold the same entries: every record is the one its key
leads to, and every key leads to a record. -/
def Sync (c : TimedCache K V) : Prop := Indexed Prod.fst c.m_cache c.m_timed

/-- What holds whether or not the two are in step. -/
structure Sound (c : TimedCache K V) : Prop where
  sorted : c.m_timed.Pairwise fun a b => rank a.2 < rank b.2
  fresh : ∀ n ∈ c.m_timed, n.1 < c.next
  bounded : c.m_maxSize = 0 ∨ c.size ≤ c.m_maxSize ∨ c.size < c.getMaxAllowedSize

theorem compares_less (n m : ℕ × Item K V) :
    OrderedSet.ComparesAt less id (fun n => rank n.2) n m :=
  ⟨Item.compare_eq n.2 m.2, Item.compare_eq m.2 n.2⟩

/-- The loop takes items from the front until `m_maxSize` are left. -/
theorem pruneLoop_eq (c : TimedCache K V) : ∀ (timed : Nodes (Item K V))
    (cache : AList fun _ : K => ℕ), Indexed Prod.fst cache timed → ∃ calls count cache',
      pruneLoop timed { c with m_cache := cache } = .ok (calls, count, { c with
        m_cache := cache', m_timed := timed.drop (timed.length - c.m_maxSize) }) ∧
      Indexed Prod.fst cache' (timed.drop (timed.length - c.m_maxSize)) := by
  intro timed
  induction timed with
  | nil =>
    intro cache h
    refine ⟨[], 0, cache, ?_, by simpa using h⟩
    rw [pruneLoop, if_neg (by rw [size, h.size]; exact Nat.not_lt_zero _)]
    simp
  | cons n timed ih =>
    intro cache h
    have hsize : cache.keys.length = timed.length + 1 := by rw [h.size]; simp [Nodes.items]
    by_cases hmax : timed.length + 1 ≤ c.m_maxSize
    · have hdrop : timed.length + 1 - c.m_maxSize = 0 := by omega
      rw [List.length_cons, hdrop, List.drop_zero, pruneLoop,
        if_neg (by rw [size, hsize]; exact Nat.not_lt.mpr hmax)]
      exact ⟨[], 0, cache, rfl, h⟩
    · obtain ⟨calls, count, cache', heq, hind⟩ := ih (cache.erase n.2.1) h.popFront
      have hdrop : (n :: timed).drop ((n :: timed).length - c.m_maxSize) =
          timed.drop (timed.length - c.m_maxSize) := by
        rw [List.length_cons, Nat.succ_sub (by omega), List.drop_succ_cons]
      rw [hdrop, pruneLoop, if_pos (by rw [size, hsize]; exact Nat.lt_of_not_le hmax)]
      dsimp only
      rw [heq]
      exact ⟨_, _, cache', rfl, hind⟩

theorem timeoutLoop_eq (c : TimedCache K V) (ts : ℕ) : ∀ (timed : Nodes (Item K V))
    (cache : AList fun _ : K => ℕ), (timed.Pairwise fun a b => rank a.2 < rank b.2) →
    Indexed Prod.fst cache timed → ∃ cache',
      timeoutLoop ts timed { c with m_cache := cache } =
        (if c.m_cb then (timed.filter fun n => Item.ts n.2 ≤ ts).map (fun n => pair n.2) else [],
          (timed.filter fun n => Item.ts n.2 ≤ ts).length, { c with
            m_cache := cache', m_timed := timed.filter fun n => ts < Item.ts n.2 }) ∧
      Indexed Prod.fst cache' (timed.filter fun n => ts < Item.ts n.2) := by
  intro timed
  induction timed with
  | nil => intro cache _ h; exact ⟨cache, by simp [timeoutLoop], h⟩
  | cons n timed ih =>
    intro cache hsorted h
    rw [List.pairwise_cons] at hsorted
    by_cases hts : Item.ts n.2 ≤ ts
    · obtain ⟨cache', heq, hind⟩ := ih (cache.erase n.2.1) hsorted.2 h.popFront
      rw [timeoutLoop, if_pos hts, List.filter_cons_of_pos (by simpa using hts),
        List.filter_cons_of_neg (by simpa using hts)]
      dsimp only
      rw [heq]
      refine ⟨cache', ?_, hind⟩
      cases c.m_cb with
      | true => simp [pair]
      | false => simp
    · -- the first item expires later, and so do all others
      have hlater : ∀ m ∈ n :: timed, ts < Item.ts m.2 := by
        intro m hm
        rcases List.mem_cons.mp hm with rfl | hm
        · exact not_le.mp hts
        · exact lt_of_lt_of_le (not_le.mp hts) (Item.ts_le_of_rank_lt (hsorted.1 m hm))
      rw [timeoutLoop, if_neg hts, List.filter_eq_nil_iff.mpr fun m hm => by simpa using hlater m hm,
        List.filter_eq_self.mpr fun m hm => decide_eq_true (hlater m hm)]
      exact ⟨cache, by simp, h⟩

theorem prune_sync {c : TimedCache K V} (hsync : Sync c)
    (hsorted : c.m_timed.Pairwise fun a b => rank a.2 < rank b.2)
    (hfresh : ∀ n ∈ c.m_timed, n.1 < c.next) :
    ∃ calls count c', c.prune = .ok (calls, count, c') ∧ Sync c' ∧ Sound c' ∧
      c'.m_timed ⊆ c.m_timed := by
  rw [prune]
  by_cases hfit : c.m_maxSize = 0 ∨ c.size < c.getMaxAllowedSize
  · rw [if_pos hfit]
    exact ⟨[], 0, c, rfl, hsync, ⟨hsorted, hfresh, hfit.imp_right Or.inr⟩, List.Subset.refl _⟩
  · obtain ⟨calls, count, cache', heq, hind⟩ := pruneLoop_eq c c.m_timed c.m_cache hsync
    rw [if_neg hfit, heq]
    have hsub : c.m_timed.drop (c.m_timed.length - c.m_maxSize) ⊆ c.m_timed :=
      List.drop_subset _ _
    refine ⟨_, _, _, rfl, hind, ⟨hsorted.drop, fun n hn => hfresh n (hsub hn), ?_⟩, hsub⟩
    right; left
    rw [size, hind.size, Nodes.items, List.length_map, List.length_drop]
    dsimp only
    omega

theorem prune_bounded {c : TimedCache K V} (h : Sound c) :
    ∃ count status, c.prune = .ok ([], count, { c with m_status := status }) := by
  rw [prune]
  by_cases hfit : c.m_maxSize = 0 ∨ c.size < c.getMaxAllowedSize
  · rw [if_pos hfit]
    exact ⟨0, c.m_status, rfl⟩
  · have hle : ¬ c.size > c.m_maxSize := by
      have := h.bounded
      omega
    have hloop : pruneLoop c.m_timed c = .ok ([], 0, c) := by
      cases hl : c.m_timed with
      | nil => rw [pruneLoop, if_neg hle, ← hl]
      | cons n rest => rw [pruneLoop, if_neg hle, ← hl]
    rw [if_neg hfit, hloop]
    exact ⟨0, _, rfl⟩

/-- `set` is an insertion into the set, then `prune` on the cache with the new index
entry. -/
def entered (c : TimedCache K V) (cache : AList fun _ : K => ℕ) (timed : Nodes (Item K V)) :
    TimedCache K V :=
  { c with m_status := c.m_status.incSet, m_cache := cache, m_timed := timed, next := c.next + 1 }

theorem set_of_prune {c c' : TimedCache K V} {k : K} {v : V} {expired now count : ℕ}
    {found : Option (ℕ × Item K V)} {timed : Nodes (Item K V)} {calls : List (K × V)}
    (hins : OrderedSet.insert less (c.next, (k, v, expiry expired now)) c.m_timed =
      .ok (found, timed))
    (hprune : prune (c.entered ((if (c.m_cache.lookup k).isSome then c.m_cache.erase k
      else c.m_cache).insert k ((found.map Prod.fst).getD c.next)) timed) =
        .ok (calls, count, c')) : c.set k v expired now = .ok (calls, c') := by
  rw [set]
  dsimp only
  rw [hins]
  change (prune (c.entered _ timed) >>= _) = _
  rw [hprune]
  rfl

section

variable {c : TimedCache K V} {k : K}

theorem insert_new {timed : Nodes (Item K V)} {next : ℕ}
    (hsorted : timed.Pairwise fun a b => rank a.2 < rank b.2) (hfresh : ∀ m ∈ timed, m.1 < next)
    {n : ℕ × Item K V} (hn : n.1 = next) (hne : ∀ m ∈ timed, rank m.2 ≠ rank n.2) :
    ∃ timed', OrderedSet.insert less n timed = .ok (none, timed') ∧
      timed'.Perm (n :: timed) ∧ (timed'.Pairwise fun a b => rank a.2 < rank b.2) ∧
      ∀ m ∈ timed', m.1 < next + 1 := by
  have hins := OrderedSet.insert_fresh (n := n) (fun m _ => compares_less n m) hne
  rw [List.map_id, List.map_id, id] at hins
  have hperm := List.perm_orderedInsert (fun a b => rank a.2 ≤ rank b.2) n timed
  refine ⟨_, hins, hperm, OrderedSet.pairwise_insert hsorted hne, fun m hm => ?_⟩
  rcases List.mem_cons.mp (hperm.mem_iff.mp hm) with rfl | hm
  · rw [hn]
    exact Nat.lt_succ_self _
  · exact Nat.lt_succ_of_lt (hfresh m hm)

omit [LinearOrder K] in
theorem next_free {timed : Nodes (Item K V)} {next : ℕ} (hfresh : ∀ m ∈ timed, m.1 < next) :
    next ∉ timed.map Prod.fst := by
  intro hmem
  obtain ⟨m, hm, hnext⟩ := List.mem_map.mp hmem
  exact absurd (hfresh m hm) (by omega)

/-- A key that is not there gets a new record and a new index entry. -/
theorem set_absent (hsync : Sync c) (h : Sound c) (hit : c.m_cache.lookup k = none) (v : V)
    (expired now : ℕ) :
    ∃ calls c', c.set k v expired now = .ok (calls, c') ∧ Sync c' ∧ Sound c' ∧
      c'.m_timed ⊆ (c.next, (k, v, expiry expired now)) :: c.m_timed := by
  have hne : ∀ m ∈ c.m_timed, rank m.2 ≠ rank (k, v, expiry expired now) := fun m hm hrank =>
    hsync.absent.mp hit m.2 (List.mem_map_of_mem hm) (Prod.mk.inj (toLex.injective hrank)).2
  obtain ⟨timed, hins, hperm, hsorted, hfresh⟩ :=
    insert_new h.sorted h.fresh (n := (c.next, (k, v, expiry expired now))) rfl hne
  have hcons := hsync.cons (x := (k, v, expiry expired now)) (next_free h.fresh) hit
  obtain ⟨calls, count, c', hprune, hsync', hsound', hsub⟩ :=
    prune_sync (c := c.entered (c.m_cache.insert k c.next) timed) (hcons.perm hperm.symm) hsorted
      hfresh
  have hcache : (if (c.m_cache.lookup k).isSome then c.m_cache.erase k else c.m_cache) = c.m_cache :=
    if_neg (by simp [hit])
  refine ⟨calls, c', set_of_prune hins (by rw [hcache]; exact hprune), hsync', hsound', ?_⟩
  exact fun m hm => hperm.mem_iff.mp (hsub hm)

/-- Setting a key to the expiry it has finds its record and changes nothing in the
set. -/
theorem set_same (hsync : Sync c) (h : Sound c) {it : ℕ} (hit : c.m_cache.lookup k = some it)
    {u : V} {expired now : ℕ} (hmem : (it, (k, u, expiry expired now)) ∈ c.m_timed) (v : V) :
    ∃ calls c', c.set k v expired now = .ok (calls, c') ∧ Sync c' ∧ Sound c' ∧
      c'.m_timed ⊆ c.m_timed := by
  set n : ℕ × Item K V := (c.next, (k, v, expiry expired now)) with hn
  have hins := OrderedSet.insert_present (n := n) (fun m _ => compares_less n m) h.sorted hmem rfl
  rw [List.map_id, id, id] at hins
  have hlookup : ∀ k', ((c.m_cache.erase k).insert k it).lookup k' = c.m_cache.lookup k' := by
    intro k'
    by_cases hk : k' = k
    · rw [hk, AList.lookup_insert, hit]
    · rw [AList.lookup_insert_ne hk, AList.lookup_erase_ne hk]
  obtain ⟨calls, count, c', hprune, hsync', hsound', hsub⟩ :=
    prune_sync (c := c.entered ((c.m_cache.erase k).insert k it) c.m_timed)
      ⟨hsync.addrs, fun k' p => (Eq.congr_left (hlookup k')).trans (hsync.index k' p)⟩ h.sorted
      fun m hm => Nat.lt_succ_of_lt (h.fresh m hm)
  have hcache : (if (c.m_cache.lookup k).isSome then c.m_cache.erase k else c.m_cache) =
      c.m_cache.erase k := if_pos (by simp [hit])
  exact ⟨calls, c', set_of_prune hins (by rw [hcache]; exact hprune), hsync', hsound', hsub⟩

/-- Setting a key to another expiry leaves its old record behind. -/
theorem set_other (hsync : Sync c) (h : Sound c) {it : ℕ} (hit : c.m_cache.lookup k = some it)
    {u : V} {x : ℕ} (hmem : (it, (k, u, x)) ∈ c.m_timed) (v : V) {expired now : ℕ}
    (hx : x ≠ expiry expired now) :
    ∃ calls c', c.set k v expired now = .ok (calls, c') ∧ ¬ Sync c' ∧ Sound c' := by
  have hne : ∀ m ∈ c.m_timed, rank m.2 ≠ rank (k, v, expiry expired now) := by
    intro m hm hrank
    obtain ⟨hts, hkey⟩ := Prod.mk.inj (toLex.injective hrank)
    obtain rfl : m = (it, (k, u, x)) := hsync.inj hm hmem hkey
    exact hx hts
  obtain ⟨timed, hins, hperm, hsorted, hfresh⟩ :=
    insert_new h.sorted h.fresh (n := (c.next, (k, v, expiry expired now))) rfl hne
  -- the number of keys is as before, so there is nothing to prune
  have hsize : (c.entered ((c.m_cache.erase k).insert k c.next) timed).size = c.size := by
    have hk : k ∈ c.m_cache.keys := AList.mem_keys.mp (AList.lookup_isSome.mp (by rw [hit]; rfl))
    rw [size, size, entered, AList.keys_insert, List.length_cons, AList.keys_erase,
      List.erase_of_not_mem (List.Nodup.not_mem_erase c.m_cache.keys_nodup),
      List.length_erase_of_mem hk]
    have := List.length_pos_of_mem hk
    omega
  have hsound : Sound (c.entered ((c.m_cache.erase k).insert k c.next) timed) :=
    ⟨hsorted, hfresh, by rw [hsize]; exact h.bounded⟩
  obtain ⟨count, status, hprune⟩ := prune_bounded hsound
  have hcache : (if (c.m_cache.lookup k).isSome then c.m_cache.erase k else c.m_cache) =
      c.m_cache.erase k := if_pos (by simp [hit])
  have hset := set_of_prune hins (by rw [hcache]; exact hprune)
  refine ⟨[], _, hset, fun hsync' => ?_, ⟨hsorted, hfresh, hsound.bounded⟩⟩
  -- the old record and the index disagree about where the key is
  have hlookup : ((c.m_cache.erase k).insert k c.next).lookup k = some it :=
    hsync'.lookup (hperm.mem_iff.mpr (List.mem_cons_of_mem _ hmem))
  rw [AList.lookup_insert] at hlookup
  exact absurd (h.fresh _ hmem) (by rw [Option.some.inj hlookup]; exact lt_irrefl _)

end

theorem Sound.shrink {c c' : TimedCache K V} (h : Sound c) (hsize : c'.size ≤ c.size)
    (hmax : c'.m_maxSize = c.m_maxSize) (helas : c'.m_elasticity = c.m_elasticity)
    (hnext : c'.next = c.next) (hsub : c'.m_timed.Sublist c.m_timed) : Sound c' where
  sorted := h.sorted.sublist hsub
  fresh := fun n hn => hnext ▸ h.fresh n (hsub.subset hn)
  bounded := by
    have := h.bounded
    rw [getMaxAllowedSize] at this ⊢
    rw [hmax, helas]
    omega

section

variable {c : TimedCache K V}

theorem get_sync (hsync : Sync c) (k : K) :
    ∃ v status, c.get k = .ok (v, { c with m_status := status }) := by
  rw [get]
  dsimp only
  cases hit : c.m_cache.lookup k with
  | none => exact ⟨none, _, rfl⟩
  | some it =>
    obtain ⟨x, hread, -, -⟩ := hsync.find hit
    dsimp only
    rw [deref_eq hread]
    exact ⟨_, _, rfl⟩

theorem del_sync (hsync : Sync c) (h : Sound c) (k : K) :
    ∃ b c', c.del k = .ok (b, c') ∧ Sync c' ∧ Sound c' ∧ c'.m_timed ⊆ c.m_timed := by
  rw [del]
  dsimp only
  cases hit : c.m_cache.lookup k with
  | none => exact ⟨_, _, rfl, hsync, ⟨h.sorted, h.fresh, h.bounded⟩, List.Subset.refl _⟩
  | some it =>
    obtain ⟨x, hread, hmem, rfl⟩ := hsync.find hit
    have hsub : (c.m_timed.remove it).Sublist c.m_timed := List.filter_sublist
    dsimp only
    rw [deref_eq hread]
    refine ⟨_, _, rfl, hsync.remove hmem, h.shrink ?_ rfl rfl rfl hsub, hsub.subset⟩
    rw [size, size, AList.keys_erase]
    exact List.length_erase_le

theorem checkTimeout_sync (hsync : Sync c) (h : Sound c) (ts : ℕ) :
    ∃ c', c.checkTimeout ts =
        (if c.m_cb then (c.m_timed.filter fun n => Item.ts n.2 ≤ ts).map (fun n => pair n.2) else [],
          (c.m_timed.filter fun n => Item.ts n.2 ≤ ts).length, c') ∧
      Sync c' ∧ Sound c' ∧ c'.m_timed = c.m_timed.filter fun n => ts < Item.ts n.2 := by
  obtain ⟨cache', heq, hind⟩ := timeoutLoop_eq c ts c.m_timed c.m_cache h.sorted hsync
  refine ⟨_, heq, hind, h.shrink ?_ rfl rfl rfl List.filter_sublist, rfl⟩
  rw [size, size, hsync.size, hind.size, Nodes.items, Nodes.items, List.length_map, List.length_map]
  exact List.length_filter_le _ _

end

inductive Op (K V : Type) where
  | set (k : K) (v : V) (expired now : ℕ)
  | get (k : K)
  | del (k : K)
  | checkTimeout (ts : ℕ)

/-- A cache and, for every key, when the value it was last set to is due. -/
abbrev Dated (K V : Type) [LinearOrder K] := TimedCache K V × (K → Option ℕ)

def step (s : Dated K V) : Op K V → Except Fault (Dated K V)
  | .set k v expired now => do
      let (_, c) ← s.1.set k v expired now
      .ok (c, Function.update s.2 k (some (expired + now)))
  | .get k => do
      let (_, c) ← s.1.get k
      .ok (c, s.2)
  | .del k => do
      let (_, c) ← s.1.del k
      .ok (c, s.2)
  | .checkTimeout ts => .ok ((s.1.checkTimeout ts).2.2, s.2)

/-- A set finds its key absent or with a record of the same expiry. -/
def KeepsRecord (s : Dated K V) : Op K V → Prop
  | .set k _ expired now =>
      ∀ it, s.1.m_cache.lookup k = some it → ∀ item, deref s.1.m_timed it = .ok item →
        Item.ts item = expiry expired now
  | _ => True

/-- The sum of an expiry and the clock does not overflow. -/
def Fits : Op K V → Prop
  | .set _ _ expired now => expired + now < 2 ^ 64
  | _ => True

/-- `checkTimeout` leaves a key alone that is not due, and no operation fails. -/
def NotEarly (s : Dated K V) : Prop :=
  (∀ k due, s.2 k = some due → k ∈ s.1.m_cache → ∀ ts < due,
    k ∈ (s.1.checkTimeout ts).2.2.m_cache ∧ ∀ v, (k, v) ∉ (s.1.checkTimeout ts).1) ∧
  ∀ o, ∃ s', step s o = .ok s'

section

variable {s s' : Dated K V}

theorem set_keeps (hsync : Sync s.1) (h : Sound s.1) {k : K} {v : V} {expired now : ℕ}
    (hkeeps : KeepsRecord s (.set k v expired now)) :
    ∃ calls c', s.1.set k v expired now = .ok (calls, c') ∧ Sync c' ∧ Sound c' ∧
      ∀ n ∈ c'.m_timed, Item.key n.2 = k ∧ Item.ts n.2 = expiry expired now ∨
        n ∈ s.1.m_timed ∧ Item.key n.2 ≠ k := by
  cases hit : s.1.m_cache.lookup k with
  | none =>
    obtain ⟨calls, c', heq, hsync', hsound', hsub⟩ := set_absent hsync h hit v expired now
    refine ⟨calls, c', heq, hsync', hsound', fun n hn => ?_⟩
    rcases List.mem_cons.mp (hsub hn) with rfl | hn
    · exact Or.inl ⟨rfl, rfl⟩
    · exact Or.inr ⟨hn, hsync.absent.mp hit n.2 (List.mem_map_of_mem hn)⟩
  | some it =>
    obtain ⟨⟨k', u, x⟩, hread, hmem, rfl⟩ := hsync.find hit
    obtain rfl : x = expiry expired now := hkeeps it hit _ (deref_eq hread)
    obtain ⟨calls, c', heq, hsync', hsound', hsub⟩ := set_same hsync h hit hmem v
    refine ⟨calls, c', heq, hsync', hsound', fun n hn => ?_⟩
    by_cases hk : Item.key n.2 = k'
    · obtain rfl := hsync.inj (hsub hn) hmem hk
      exact Or.inl ⟨rfl, rfl⟩
    · exact Or.inr ⟨hsub hn, hk⟩

theorem set_drops (hsync : Sync s.1) (h : Sound s.1) {k : K} {v : V} {expired now : ℕ}
    (hdrops : ¬ KeepsRecord s (.set k v expired now)) :
    ∃ calls c', s.1.set k v expired now = .ok (calls, c') ∧ ¬ Sync c' ∧ Sound c' := by
  rw [KeepsRecord] at hdrops
  push Not at hdrops
  obtain ⟨it, hit, item, hitem, hts⟩ := hdrops
  obtain ⟨⟨k', u, x⟩, hread, hmem, rfl⟩ := hsync.find hit
  rw [deref_eq hread] at hitem
  obtain rfl := Except.ok.inj hitem
  exact set_other hsync h hit hmem v hts

/-- From a cache in step, an operation leads to one in step exactly if it keeps the
record of its key. -/
theorem step_sync (o : Op K V) (hsound : Sound s.1) (hsync : Sync s.1) (h : step s o = .ok s') :
    Sound s'.1 ∧ (Sync s'.1 ↔ KeepsRecord s o) := by
  cases o with
  | set k v expired now =>
    by_cases hkeeps : KeepsRecord s (.set k v expired now)
    · obtain ⟨calls, c', heq, hsync', hsound', -⟩ := set_keeps hsync hsound hkeeps
      rw [step, heq] at h
      obtain rfl := Except.ok.inj h
      exact ⟨hsound', iff_of_true hsync' hkeeps⟩
    · obtain ⟨calls, c', heq, hsync', hsound'⟩ := set_drops hsync hsound hkeeps
      rw [step, heq] at h
      obtain rfl := Except.ok.inj h
      exact ⟨hsound', iff_of_false hsync' hkeeps⟩
  | get k =>
    obtain ⟨v, status, heq⟩ := get_sync hsync k
    rw [step, heq] at h
    obtain rfl := Except.ok.inj h
    exact ⟨⟨hsound.sorted, hsound.fresh, hsound.bounded⟩, iff_of_true hsync trivial⟩
  | del k =>
    obtain ⟨b, c', heq, hsync', hsound', -⟩ := del_sync hsync hsound k
    rw [step, heq] at h
    obtain rfl := Except.ok.inj h
    exact ⟨hsound', iff_of_true hsync' trivial⟩
  | checkTimeout ts =>
    obtain ⟨c', heq, hsync', hsound', -⟩ := checkTimeout_sync hsync hsound ts
    rw [step, heq] at h
    obtain rfl := Except.ok.inj h
    exact ⟨hsound', iff_of_true hsync' trivial⟩

/-- In step, and every record expires when its key is due. -/
structure Current (s : Dated K V) : Prop where
  sound : Sound s.1
  sync : Sync s.1
  due : ∀ n ∈ s.1.m_timed, s.2 (Item.key n.2) = some (Item.ts n.2)

theorem step_current (o : Op K V) (hs : Current s) (hkeeps : KeepsRecord s o) (hfits : Fits o)
    (h : step s o = .ok s') : Current s' := by
  obtain ⟨hsound', hiff⟩ := step_sync o hs.sound hs.sync h
  refine ⟨hsound', hiff.mpr hkeeps, ?_⟩
  cases o with
  | set k v expired now =>
    obtain ⟨calls, c', heq, -, -, hrecords⟩ := set_keeps hs.sync hs.sound hkeeps
    rw [step, heq] at h
    obtain rfl := Except.ok.inj h
    intro n hn
    dsimp only at hn ⊢
    rcases hrecords n hn with ⟨hk, hts⟩ | ⟨hold, hk⟩
    · rw [hk, Function.update_self, hts, expiry, Nat.mod_eq_of_lt hfits]
    · rw [Function.update_of_ne hk]
      exact hs.due n hold
  | get k =>
    obtain ⟨v, status, heq⟩ := get_sync hs.sync k
    rw [step, heq] at h
    obtain rfl := Except.ok.inj h
    exact hs.due
  | del k =>
    obtain ⟨b, c', heq, -, -, hsub⟩ := del_sync hs.sync hs.sound k
    rw [step, heq] at h
    obtain rfl := Except.ok.inj h
    exact fun n hn => hs.due n (hsub hn)
  | checkTimeout ts =>
    obtain ⟨c', heq, -, -, htimed⟩ := checkTimeout_sync hs.sync hs.sound ts
    rw [step, heq] at h
    obtain rfl := Except.ok.inj h
    intro n hn
    rw [htimed] at hn
    exact hs.due n (List.mem_of_mem_filter hn)

theorem Current.notEarly (hs : Current s) : NotEarly s := by
  constructor
  · intro k due hdue hk ts hts
    obtain ⟨c', heq, hsync', -, htimed⟩ := checkTimeout_sync hs.sync hs.sound ts
    obtain ⟨it, hit⟩ := Option.isSome_iff_exists.mp (AList.lookup_isSome.mpr hk)
    obtain ⟨⟨k', u, x⟩, -, hmem, rfl⟩ := hs.sync.find hit
    obtain rfl : x = due := Option.some.inj ((hs.due _ hmem).symm.trans hdue)
    rw [heq]
    constructor
    · have hkept : (it, (k', u, x)) ∈ c'.m_timed := by
        rw [htimed]
        exact List.mem_filter.mpr ⟨hmem, decide_eq_true hts⟩
      exact AList.lookup_isSome.mp (by rw [hsync'.lookup hkept]; rfl)
    · intro v hv
      split at hv
      · obtain ⟨n, hn, hpair⟩ := List.mem_map.mp hv
        obtain ⟨hnmem, hnts⟩ := List.mem_filter.mp hn
        -- the record of the key is the only one, and it is not due
        have hkey : Item.key n.2 = k' := congrArg Prod.fst hpair
        obtain rfl := hs.sync.inj hnmem hmem hkey
        exact absurd (of_decide_eq_true hnts) (not_le.mpr hts)
      · exact absurd hv List.not_mem_nil
  · intro o
    cases o with
    | set k v expired now =>
      by_cases hkeeps : KeepsRecord s (.set k v expired now)
      · obtain ⟨calls, c', heq, -⟩ := set_keeps hs.sync hs.sound hkeeps
        exact ⟨_, by rw [step, heq]; rfl⟩
      · obtain ⟨calls, c', heq, -⟩ := set_drops hs.sync hs.sound hkeeps
        exact ⟨_, by rw [step, heq]; rfl⟩
    | get k =>
      obtain ⟨v, status, heq⟩ := get_sync hs.sync k
      exact ⟨_, by rw [step, heq]; rfl⟩
    | del k =>
      obtain ⟨b, c', heq, -⟩ := del_sync hs.sync hs.sound k
      exact ⟨_, by rw [step, heq]; rfl⟩
    | checkTimeout ts => exact ⟨_, rfl⟩

end

/-- In every run the index and the expiry set stay in step exactly if every set finds
its key absent or with a record of the same expiry; and in such a run, if no expiry
overflows, `checkTimeout` takes no key before it is due. -/
theorem sync_iff_keeps_record (max_size elasticity : ℕ) (cb : Bool) (ops : List (Op K V)) :
    (Along step (fun s => Sync s.1) (new max_size elasticity cb, fun _ => none) ops ↔
      Each step KeepsRecord (new max_size elasticity cb, fun _ => none) ops) ∧
    (Each step (fun s o => KeepsRecord s o ∧ Fits o) (new max_size elasticity cb, fun _ => none) ops →
      Along step (fun s => Sync s.1 ∧ NotEarly s) (new max_size elasticity cb, fun _ => none) ops) := by
  have hsound : Sound (new max_size elasticity cb : TimedCache K V) :=
    ⟨List.Pairwise.nil, fun n hn => absurd hn List.not_mem_nil, Or.inr (Or.inl (Nat.zero_le _))⟩
  have hsync : Sync (new max_size elasticity cb : TimedCache K V) := Indexed.empty Prod.fst
  constructor
  · refine along_iff_each (fun s => Sound s.1) (fun s => Sync s.1) (fun _ _ => True) KeepsRecord
      (fun s o s' hI hP _ h => step_sync o hI hP h) ops (new max_size elasticity cb, fun _ => none)
      hsound hsync ?_
    exact each_true ops _
  · intro heach
    refine Along.mono (fun s hs => ⟨hs.sync, hs.notEarly⟩) (along_of_each Current _ ?_ ops _ ?_ heach)
    · exact fun s o s' hs hC h => step_current o hs hC.1 hC.2 h
    · exact ⟨hsound, hsync, fun n hn => absurd hn List.not_mem_nil⟩

/-- A key set to expire at 10 and then at 100 is taken at 10. -/
theorem second_set_expires_early :
    ¬ Along step (fun s => Sync s.1 ∧ NotEarly s)
      ((new 0 0 true : TimedCache ℕ ℕ), fun _ => none) [.set 1 7 10 0, .set 1 8 100 0] := by
  intro h
  have hearly := ((h.2 _ rfl).2 _ rfl).2.1 1 100 rfl (by decide) 10 (by decide)
  exact absurd hearly.1 (by decide)

end TimedCache

end Sylar
