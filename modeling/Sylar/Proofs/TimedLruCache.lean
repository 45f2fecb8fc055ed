import Sylar.Spec.TimedLruCache
import Sylar.Proofs.LruCache
import Mathlib.Data.Prod.Lex

/-! `TimedLruCache` refines a bounded recency list whose values carry an expiry. -/

namespace Sylar

open Lib

namespace Item

variable {K V : Type}

/-- What items are ordered by: the expiry, then the key. -/
def rank (i : Item K V) : ℕ ×ₗ K := toLex (ts i, key i)

def pair (i : Item K V) : K × V := (key i, val i)

theorem eq_of_rank_eq {l : List (Item K V)} (h : (l.map Prod.fst).Nodup) {x y : Item K V}
    (hx : x ∈ l) (hy : y ∈ l) (hrank : rank x = rank y) : x = y :=
  List.inj_on_of_nodup_map h hx hy (Prod.mk.inj (toLex.injective hrank)).2

variable [LinearOrder K]

theorem rank_lt_iff {x y : Item K V} :
    rank x < rank y ↔ ts x < ts y ∨ ts x = ts y ∧ key x < key y := Prod.Lex.toLex_lt_toLex

theorem ts_le_of_rank_lt {x y : Item K V} (h : rank x < rank y) : ts x ≤ ts y := by
  rcases rank_lt_iff.mp h with h | h
  · exact h.le
  · exact h.1.le

theorem compare_eq (x y : Item K V) :
    (if ts x ≠ ts y then Except.ok (decide (ts x < ts y)) else Except.ok (decide (key x < key y))) =
      (Except.ok (decide (rank x < rank y)) : Except Fault Bool) := by
  by_cases hts : ts x = ts y
  · rw [if_neg (not_not.mpr hts)]
    refine congrArg _ (decide_eq_decide.mpr ?_)
    rw [rank_lt_iff]
    simp [hts]
  · rw [if_pos hts]
    refine congrArg _ (decide_eq_decide.mpr ?_)
    rw [rank_lt_iff]
    simp [hts]

end Item

namespace TimedLruCache

open Item (rank pair)

variable {K V : Type} [LinearOrder K]

theorem itemTimeOp_eq {l : Nodes (Item K V)} (h : (l.map Prod.fst).Nodup) {n m : ℕ × Item K V}
    (hn : n ∈ l) (hm : m ∈ l) :
    itemTimeOp l n.1 m.1 = .ok (decide (rank n.2 < rank m.2)) := by
  rw [itemTimeOp]
  by_cases hp : n.1 = m.1
  · rw [if_pos hp, List.inj_on_of_nodup_map h hn hm hp, decide_eq_false (lt_irrefl _)]
  · rw [if_neg hp, deref_eq (Assoc.find_of_mem h hn), deref_eq (Assoc.find_of_mem h hm)]
    exact Item.compare_eq n.2 m.2

def Timed (l : Nodes (Item K V)) (timed : List ℕ) : Prop :=
  ∃ ns : Nodes (Item K V), ns.Perm l ∧ ns.map Prod.fst = timed ∧
    ns.Pairwise fun a b => rank a.2 < rank b.2

section

variable {cache : AList fun _ : K => ℕ} {l : Nodes (Item K V)} {timed : List ℕ} {p : ℕ}
  {x : Item K V}

theorem Timed.perm {l' : Nodes (Item K V)} (h : Timed l timed) (hl : l.Perm l') :
    Timed l' timed := by
  obtain ⟨ns, hperm, hmap, hsorted⟩ := h
  exact ⟨ns, hperm.trans hl, hmap, hsorted⟩

theorem rank_eq_iff (hind : Indexed Prod.fst cache l) {n m : ℕ × Item K V} (hn : n ∈ l)
    (hm : m ∈ l) : rank n.2 = rank m.2 ↔ n.1 = m.1 := by
  constructor
  · intro h
    have hk : n.2.1 = m.2.1 := (Prod.mk.inj (toLex.injective h)).2
    rw [hind.inj hn hm hk]
  · intro h
    rw [List.inj_on_of_nodup_map hind.addrs hn hm h]

theorem Timed.erase (hind : Indexed Prod.fst cache l) (h : Timed l timed) (hx : (p, x) ∈ l) :
    ∃ timed', OrderedSet.erase (itemTimeOp l) p timed = .ok timed' ∧
      Timed (l.remove p) timed' := by
  obtain ⟨ns, hperm, rfl, hsorted⟩ := h
  have hcmp : ∀ m ∈ ns, OrderedSet.ComparesAt (itemTimeOp l) Prod.fst (fun n => rank n.2) (p, x) m := by
    intro m hm
    have hml := hperm.mem_iff.mp hm
    exact ⟨itemTimeOp_eq hind.addrs hx hml, itemTimeOp_eq hind.addrs hml hx⟩
  refine ⟨_, OrderedSet.erase_present (n := (p, x)) hcmp hsorted (hperm.mem_iff.mpr hx),
    ns.filter fun m => rank m.2 ≠ rank x, ?_, rfl, hsorted.filter _⟩
  have hfilter : l.remove p = l.filter fun m => rank m.2 ≠ rank x :=
    List.filter_congr fun m hm => decide_eq_decide.mpr (not_congr (rank_eq_iff hind hm hx).symm)
  rw [hfilter]
  exact hperm.filter _

theorem Timed.insert (hind : Indexed Prod.fst cache ((p, x) :: l)) (h : Timed l timed) :
    ∃ timed', OrderedSet.insert (itemTimeOp ((p, x) :: l)) p timed = .ok (none, timed') ∧
      Timed ((p, x) :: l) timed' := by
  obtain ⟨ns, hperm, rfl, hsorted⟩ := h
  have hmem : ∀ m ∈ ns, m ∈ (p, x) :: l := fun m hm =>
    List.mem_cons_of_mem _ (hperm.mem_iff.mp hm)
  have hcmp : ∀ m ∈ ns, OrderedSet.ComparesAt (itemTimeOp ((p, x) :: l)) Prod.fst
      (fun n => rank n.2) (p, x) m := fun m hm =>
    ⟨itemTimeOp_eq hind.addrs List.mem_cons_self (hmem m hm),
      itemTimeOp_eq hind.addrs (hmem m hm) List.mem_cons_self⟩
  have hne : ∀ m ∈ ns, rank m.2 ≠ rank x := by
    intro m hm hrank
    have hp : m.1 = p := (rank_eq_iff hind (hmem m hm) List.mem_cons_self).mp hrank
    have hnodup := (List.nodup_cons.mp hind.addrs).1
    exact hnodup (List.mem_map.mpr ⟨m, hperm.mem_iff.mp hm, hp⟩)
  refine ⟨_, OrderedSet.insert_fresh (n := (p, x)) hcmp hne, _, ?_, rfl,
    OrderedSet.pairwise_insert hsorted hne⟩
  exact (List.perm_orderedInsert _ _ _).trans (hperm.cons _)

end

theorem pruneLoop_stop {c : TimedLruCache K V} (h : c.size ≤ c.m_maxSize) :
    ∀ turns, pruneLoop turns c = .ok ([], 0, c)
  | 0 => if_neg (by omega)
  | _ + 1 => if_neg (by omega)

theorem pruneLoop_turn {c : TimedLruCache K V} (h : c.m_maxSize < c.size)
    {keys : Nodes (Item K V)} {back : ℕ × Item K V} (hkeys : c.m_keys = keys ++ [back])
    {timed : List ℕ} (htimed : OrderedSet.erase (itemTimeOp c.m_keys) back.1 c.m_timed = .ok timed)
    {turns count : ℕ} {calls : List (K × V)} {c' : TimedLruCache K V}
    (hrest : pruneLoop turns { c with
      m_cache := c.m_cache.erase (Item.key back.2), m_timed := timed, m_keys := keys } =
        .ok (calls, count, c')) :
    pruneLoop (turns + 1) c =
      .ok (if c'.m_cb then pair back.2 :: calls else calls, count + 1, c') := by
  rw [hkeys] at htimed
  rw [pruneLoop, if_pos h, hkeys, List.getLast?_concat]
  dsimp only
  rw [List.dropLast_concat, htimed]
  change (pruneLoop turns _ >>= _) = _
  rw [hrest]
  rfl

/-- The loop cuts the list down to `m_maxSize` nodes and the index and the set with
it. -/
theorem pruneLoop_eq (c : TimedLruCache K V) : ∀ (keys : Nodes (Item K V))
    (cache : AList fun _ : K => ℕ) (timed : List ℕ), Indexed Prod.fst cache keys →
    Timed keys timed → ∃ cache' timed',
      pruneLoop keys.length { c with m_cache := cache, m_keys := keys, m_timed := timed } =
        .ok (if c.m_cb then (keys.items.drop c.m_maxSize).reverse.map pair else [],
          (keys.items.drop c.m_maxSize).length, { c with
            m_cache := cache', m_keys := keys.take c.m_maxSize, m_timed := timed' }) ∧
      Indexed Prod.fst cache' (keys.take c.m_maxSize) ∧
      Timed (keys.take c.m_maxSize) timed' := by
  intro keys
  induction keys using List.reverseRecOn with
  | nil =>
    intro cache timed h htimed
    refine ⟨cache, timed, ?_, by simpa using h, by simpa using htimed⟩
    rw [pruneLoop_stop (by rw [size, h.size]; exact Nat.zero_le _)]
    simp [Nodes.items]
  | append_singleton keys n ih =>
    intro cache timed h htimed
    have hsize : cache.keys.length = keys.length + 1 := by rw [h.size]; simp [Nodes.items]
    by_cases hmax : keys.length + 1 ≤ c.m_maxSize
    · -- the list fits
      have hlen : (keys ++ [n]).length ≤ c.m_maxSize := by simpa using hmax
      rw [List.take_of_length_le hlen]
      refine ⟨cache, timed, ?_, h, htimed⟩
      rw [pruneLoop_stop (by rw [size, hsize]; exact hmax),
        List.drop_of_length_le (by simpa [Nodes.items] using hmax)]
      simp
    · have hmem : n ∈ keys ++ [n] := List.mem_append_right _ (List.mem_singleton.mpr rfl)
      obtain ⟨timed₁, herase, htimed₁⟩ := htimed.erase h hmem
      rw [h.remove_last] at htimed₁
      obtain ⟨cache', timed', heq, hind, htimed'⟩ := ih (cache.erase n.2.1) timed₁ h.popBack htimed₁
      have hle : c.m_maxSize ≤ keys.length := by omega
      have hitems : (Nodes.items (keys ++ [n])).drop c.m_maxSize =
          (Nodes.items keys).drop c.m_maxSize ++ [n.2] := by
        rw [Nodes.items, List.map_append, List.drop_append_of_le_length (by simpa using hle)]
        rfl
      rw [List.take_append_of_le_length hle]
      refine ⟨cache', timed', ?_, hind, htimed'⟩
      rw [List.length_append, List.length_singleton, hitems,
        pruneLoop_turn (by rw [size, hsize]; exact Nat.lt_of_not_le hmax) rfl herase heq]
      dsimp only
      cases c.m_cb with
      | true => simp
      | false => simp

/-- The loop over the nodes by rank removes those that expire by `ts`. -/
theorem timeoutLoop_eq (c : TimedLruCache K V) (ts : ℕ) : ∀ (ns l : Nodes (Item K V))
    (cache : AList fun _ : K => ℕ), ns.Perm l → (ns.Pairwise fun a b => rank a.2 < rank b.2) →
    Indexed Prod.fst cache l → ∃ cache',
      timeoutLoop ts (ns.map Prod.fst) { c with m_cache := cache, m_keys := l } =
        .ok (if c.m_cb then (ns.filter fun n => Item.ts n.2 ≤ ts).map (fun n => pair n.2) else [],
          (ns.filter fun n => Item.ts n.2 ≤ ts).length, { c with
            m_cache := cache', m_keys := l.filter fun n => ts < Item.ts n.2
            m_timed := (ns.filter fun n => ts < Item.ts n.2).map Prod.fst }) ∧
      Indexed Prod.fst cache' (l.filter fun n => ts < Item.ts n.2) := by
  intro ns
  induction ns with
  | nil =>
    intro l cache hperm _ hind
    obtain rfl := hperm.nil_eq
    exact ⟨cache, by simp [timeoutLoop], hind⟩
  | cons n ns ih =>
    intro l cache hperm hsorted hind
    rw [List.pairwise_cons] at hsorted
    have hn : n ∈ l := hperm.mem_iff.mp List.mem_cons_self
    rw [List.map_cons, timeoutLoop, deref_eq (Assoc.find_of_mem hind.addrs hn)]
    change ∃ cache', (if Item.ts n.2 ≤ ts then _ else _) = _ ∧ _
    by_cases hts : Item.ts n.2 ≤ ts
    · have hnodup : ((n :: ns).map Prod.fst).Nodup := (hperm.map Prod.fst).nodup_iff.mpr hind.addrs
      have hperm' : ns.Perm (l.remove n.1) := by
        have hrem := hperm.filter fun m => decide (m.1 ≠ n.1)
        rwa [show (n :: ns).filter _ = ns from Nodes.remove_head hnodup] at hrem
      have hfilter : (l.remove n.1).filter (fun n => ts < Item.ts n.2) =
          l.filter fun n => ts < Item.ts n.2 := by
        rw [Nodes.remove, Assoc.without, List.filter_filter]
        refine List.filter_congr fun m hm => ?_
        rw [Bool.and_eq_left_iff_imp]
        intro hlt
        refine decide_eq_true fun hmn => ?_
        rw [List.inj_on_of_nodup_map hind.addrs hm hn hmn] at hlt
        exact absurd hts (not_le.mpr (of_decide_eq_true hlt))
      obtain ⟨cache', heq, hind'⟩ := ih (l.remove n.1) (cache.erase n.2.1) hperm' hsorted.2
        (hind.remove hn)
      rw [hfilter] at heq hind'
      refine ⟨cache', ?_, hind'⟩
      rw [if_pos hts, List.filter_cons_of_pos (by simpa using hts),
        List.filter_cons_of_neg (by simpa using hts)]
      dsimp only
      rw [heq]
      cases c.m_cb with
      | true => simp [bind, Except.bind, pair]
      | false => simp [bind, Except.bind]
    · -- the first node expires later, and so do all others
      have hlater : ∀ m ∈ n :: ns, ts < Item.ts m.2 := by
        intro m hm
        rcases List.mem_cons.mp hm with rfl | hm
        · exact not_le.mp hts
        · exact lt_of_lt_of_le (not_le.mp hts) (Item.ts_le_of_rank_lt (hsorted.1 m hm))
      have hgone : (n :: ns).filter (fun n => Item.ts n.2 ≤ ts) = [] :=
        List.filter_eq_nil_iff.mpr fun m hm => by simpa using hlater m hm
      have hkept : (n :: ns).filter (fun n => ts < Item.ts n.2) = n :: ns :=
        List.filter_eq_self.mpr fun m hm => decide_eq_true (hlater m hm)
      have hkept' : l.filter (fun n => ts < Item.ts n.2) = l :=
        List.filter_eq_self.mpr fun m hm => decide_eq_true (hlater m (hperm.mem_iff.mpr hm))
      rw [hgone, hkept, hkept', if_neg hts]
      exact ⟨cache, by simp, hind⟩

inductive Op (K V : Type) where
  | set (k : K) (v : V) (expired now : ℕ)
  | get (k : K)
  | getValue (k : K)
  | del (k : K)
  | exists_ (k : K)
  | size
  | checkTimeout (ts : ℕ)
  | clear

/-- What an operation answers; `done` and `timeout` carry the calls of the prune
callback. -/
inductive Reply (K V : Type) where
  | done (calls : List (K × V))
  | value (v : Option V)
  | flag (b : Bool)
  | number (n : ℕ)
  | timeout (calls : List (K × V)) (n : ℕ)

def op [Inhabited V] (c : TimedLruCache K V) :
    Op K V → Except Fault (Reply K V × TimedLruCache K V)
  | .set k v expired now => do
      let (calls, c) ← c.set k v expired now
      .ok (.done calls, c)
  | .get k => do
      let (v, c) ← c.get k
      .ok (.value v, c)
  | .getValue k => do
      let (v, c) ← c.getValue k
      .ok (.value (some v), c)
  | .del k => do
      let (b, c) ← c.del k
      .ok (.flag b, c)
  | .exists_ k => .ok (.flag (c.exists_ k), c)
  | .size => .ok (.number c.size, c)
  | .checkTimeout ts => do
      let (calls, n, c) ← c.checkTimeout ts
      .ok (.timeout calls n, c)
  | .clear => .ok (.flag c.clear.1, c.clear.2)

/-- The cache as a machine; the sum of an expiry and the clock does not overflow. -/
def machine (K V : Type) [LinearOrder K] [Inhabited V] :
    Machine (TimedLruCache K V) (Op K V) (Except Fault (Reply K V)) where
  step c o :=
    match c.op o with
    | .ok (r, c) => (.ok r, c)
    | .error e => (.error e, c)
  ok _ o :=
    match o with
    | .set _ _ expired now => expired + now < 2 ^ 64
    | _ => True

/-- The pairs that expire by `ts`, in the order of their expiry. -/
def expiring (l : List (Item K V)) (ts : ℕ) : List (Item K V) :=
  (l.filter fun i => Item.ts i ≤ ts).insertionSort fun a b => rank a ≤ rank b

/-- The recency list a cache stands for: a value is kept with its expiry. -/
def mru [Inhabited V] (max allowed : ℕ) (cb : Bool) :
    Machine (List (Item K V)) (Op K V) (Except Fault (Reply K V)) where
  step l o :=
    match o with
    | .set k v expired now =>
        let r := Recency.put max allowed l k (v, expired + now)
        (.ok (.done (if cb then r.2.map pair else [])), r.1)
    | .get k => (.ok (.value ((Assoc.find l k).map Prod.fst)), Recency.use l k)
    | .getValue k =>
        (.ok (.value (some (((Assoc.find l k).map Prod.fst).getD default))), Recency.use l k)
    | .del k => (.ok (.flag (Assoc.find l k).isSome), Assoc.without l k)
    | .exists_ k => (.ok (.flag (Assoc.find l k).isSome), l)
    | .size => (.ok (.number l.length), l)
    | .checkTimeout ts =>
        (.ok (.timeout (if cb then (expiring l ts).map pair else []) (expiring l ts).length),
          l.filter fun i => ts < Item.ts i)
    | .clear => (.ok (.flag true), [])
  ok _ _ := True

def items (c : TimedLruCache K V) : List (Item K V) := c.m_keys.items

/-- `c` is well linked, set up as given, and stands for `l`. -/
structure Represents (max elasticity : ℕ) (cb : Bool) (c : TimedLruCache K V)
    (l : List (Item K V)) : Prop where
  holds : Recency.Holds c.m_cache c.m_keys c.next l
  timed : Timed c.m_keys c.m_timed
  maxSize_eq : c.m_maxSize = max
  elasticity_eq : c.m_elasticity = elasticity
  cb_eq : c.m_cb = cb

section

variable {max elasticity : ℕ} {cb : Bool} {c : TimedLruCache K V} {l : List (Item K V)}

theorem perm_toFront {cache : AList fun _ : K => ℕ} {keys : Nodes (Item K V)}
    (h : Indexed Prod.fst cache keys) {it : ℕ} {x : Item K V} (hmem : (it, x) ∈ keys) :
    keys.Perm (keys.toFront it x) := by
  refine (List.perm_ext_iff_of_nodup h.addrs.of_map (h.toFront hmem).addrs.of_map).mpr fun n => ?_
  rw [Nodes.toFront, List.mem_cons, Assoc.mem_without]
  constructor
  · intro hn
    by_cases hp : n.1 = it
    · exact Or.inl (List.inj_on_of_nodup_map h.addrs hn hmem hp)
    · exact Or.inr ⟨hn, hp⟩
  · rintro (rfl | hn)
    · exact hmem
    · exact hn.1

theorem prune_eq (h : Represents max elasticity cb c l) :
    ∃ count c', c.prune =
        .ok (if cb then (Recency.evicted max ((max + elasticity) % 2 ^ 64) l).map pair else [],
          count, c') ∧
      Represents max elasticity cb c' (Recency.kept max ((max + elasticity) % 2 ^ 64) l) := by
  obtain ⟨⟨hind, hfresh, rfl⟩, htimed, rfl, rfl, rfl⟩ := h
  have hsize : c.size = c.m_keys.items.length := hind.size
  rw [Recency.evicted, Recency.kept, prune, getMaxAllowedSize, hsize]
  by_cases hfit : c.m_maxSize = 0 ∨
      c.m_keys.items.length < (c.m_maxSize + c.m_elasticity) % 2 ^ 64
  · rw [if_pos hfit, if_pos hfit, if_pos hfit]
    exact ⟨0, c, by simp, ⟨hind, hfresh, rfl⟩, htimed, rfl, rfl, rfl⟩
  · rw [if_neg hfit, if_neg hfit, if_neg hfit]
    obtain ⟨cache', timed', heq, hind', htimed'⟩ :=
      pruneLoop_eq c c.m_keys c.m_cache c.m_timed hind htimed
    refine ⟨(c.m_keys.items.drop c.m_maxSize).length, { c with
      m_cache := cache', m_keys := c.m_keys.take c.m_maxSize, m_timed := timed'
      m_status := c.m_status.incPrune (c.m_keys.items.drop c.m_maxSize).length },
      by rw [heq]; rfl, ⟨hind', ?_, List.map_take⟩, htimed', rfl, rfl, rfl⟩
    exact fun n hn => hfresh n (List.mem_of_mem_take hn)

theorem set_eq (h : Represents max elasticity cb c l) (k : K) (v : V) {expired now : ℕ}
    (hsum : expired + now < 2 ^ 64) :
    ∃ c', c.set k v expired now =
        .ok (if cb then
          (Recency.put max ((max + elasticity) % 2 ^ 64) l k (v, expired + now)).2.map pair
          else [], c') ∧
      Represents max elasticity cb c'
        (Recency.put max ((max + elasticity) % 2 ^ 64) l k (v, expired + now)).1 := by
  obtain ⟨hholds, htimed, hmax, helas, hcb⟩ := h
  have hexp : expiry expired now = expired + now := Nat.mod_eq_of_lt hsum
  rw [set]
  dsimp only
  rw [hexp]
  cases hit : c.m_cache.lookup k with
  | some it =>
    obtain ⟨⟨u, e⟩, hread, hmem, hfind⟩ := hholds.find_some hit
    have hfront := hholds.toFront hmem (u, e)
    have hnew := hholds.toFront hmem (v, expired + now)
    -- out of the set before the item changes, and in again after it
    obtain ⟨timed₁, herase, htimed₁⟩ :=
      (htimed.perm (perm_toFront hholds.indexed hmem)).erase hfront.indexed List.mem_cons_self
    rw [Nodes.remove_toFront] at htimed₁
    obtain ⟨timed₂, hinsert, htimed₂⟩ := htimed₁.insert hnew.indexed
    dsimp only
    rw [deref_eq hread, Recency.put_of_mem hfind, List.map_nil, ite_self]
    refine ⟨{ c with
      m_keys := c.m_keys.toFront it (k, v, expired + now), m_timed := timed₂
      m_status := c.m_status.incSet }, ?_, hnew, htimed₂, hmax, helas, hcb⟩
    change (OrderedSet.erase (itemTimeOp (c.m_keys.toFront it (k, u, e))) it c.m_timed >>= _) = _
    rw [herase]
    change (OrderedSet.insert (itemTimeOp ((c.m_keys.toFront it (k, u, e)).write it
      (k, v, expired + now))) it timed₁ >>= _) = _
    rw [Nodes.write_toFront, Nodes.toFront, hinsert]
    rfl
  | none =>
    have hpush := hholds.push hit (v, expired + now)
    obtain ⟨timed₁, hinsert, htimed₁⟩ := htimed.insert hpush.indexed
    rw [Recency.put_of_absent (hholds.find_none hit)]
    obtain ⟨count, c', heq, hrep⟩ := prune_eq (c := { c with
      m_keys := (c.next, (k, v, expired + now)) :: c.m_keys
      m_cache := c.m_cache.insert k c.next
      m_timed := timed₁
      m_status := c.m_status.incSet
      next := c.next + 1 }) ⟨hpush, htimed₁, hmax, helas, hcb⟩
    refine ⟨c', ?_, hrep⟩
    dsimp only
    rw [hinsert]
    change (prune _ >>= _) = _
    rw [heq]
    rfl

theorem get_eq (h : Represents max elasticity cb c l) (k : K) :
    ∃ c', c.get k = .ok ((Assoc.find l k).map Prod.fst, c') ∧
      Represents max elasticity cb c' (Recency.use l k) := by
  obtain ⟨hholds, htimed, hmax, helas, hcb⟩ := h
  rw [get, Recency.use]
  dsimp only
  cases hit : c.m_cache.lookup k with
  | some it =>
    obtain ⟨u, hread, hmem, hfind⟩ := hholds.find_some hit
    dsimp only
    rw [deref_eq hread, hfind]
    exact ⟨_, rfl, hholds.toFront hmem u, htimed.perm (perm_toFront hholds.indexed hmem), hmax,
      helas, hcb⟩
  | none =>
    rw [hholds.find_none hit]
    exact ⟨_, rfl, hholds, htimed, hmax, helas, hcb⟩

theorem del_eq (h : Represents max elasticity cb c l) (k : K) :
    ∃ c', c.del k = .ok ((Assoc.find l k).isSome, c') ∧
      Represents max elasticity cb c' (Assoc.without l k) := by
  obtain ⟨hholds, htimed, hmax, helas, hcb⟩ := h
  rw [del]
  dsimp only
  cases hit : c.m_cache.lookup k with
  | some it =>
    obtain ⟨u, hread, hmem, hfind⟩ := hholds.find_some hit
    obtain ⟨timed', herase, htimed'⟩ := htimed.erase hholds.indexed hmem
    dsimp only
    rw [deref_eq hread, hfind, herase]
    exact ⟨_, rfl, hholds.remove hmem, htimed', hmax, helas, hcb⟩
  | none =>
    rw [hholds.find_none hit, Recency.without_of_absent (hholds.find_none hit)]
    exact ⟨_, rfl, hholds, htimed, hmax, helas, hcb⟩

theorem checkTimeout_eq (h : Represents max elasticity cb c l) (ts : ℕ) :
    ∃ c', c.checkTimeout ts =
        .ok (if cb then (expiring l ts).map pair else [], (expiring l ts).length, c') ∧
      Represents max elasticity cb c' (l.filter fun i => ts < Item.ts i) := by
  obtain ⟨hholds, ⟨ns, hperm, hns, hsorted⟩, rfl, rfl, rfl⟩ := h
  obtain ⟨cache', heq, hind⟩ := timeoutLoop_eq c ts ns c.m_keys c.m_cache hperm hsorted
    hholds.indexed
  have hgone : (ns.filter fun n => Item.ts n.2 ≤ ts).map Prod.snd = expiring l ts := by
    have hnodup := hholds.keys_nodup
    have hl := hholds.items_eq
    have hmap : (ns.filter fun n => Item.ts n.2 ≤ ts).map Prod.snd =
        (ns.map Prod.snd).filter fun i => Item.ts i ≤ ts := by
      rw [List.filter_map]
      rfl
    have hitems : (ns.map Prod.snd).Perm l := hl ▸ hperm.map Prod.snd
    rw [hmap, expiring]
    refine List.Perm.eq_of_pairwise (fun a b ha hb hab hba => ?_) ?_
      (List.pairwise_insertionSort _ _) ((hitems.filter _).trans (List.perm_insertionSort _ _).symm)
    · refine Item.eq_of_rank_eq hnodup ?_ ?_ (le_antisymm hab hba)
      · exact hitems.mem_iff.mp (List.mem_of_mem_filter ha)
      · exact List.mem_of_mem_filter ((List.mem_insertionSort _).mp hb)
    · refine List.Pairwise.filter _ (List.pairwise_map.mpr ?_)
      exact hsorted.imp fun h => h.le
  have hcalls : (ns.filter fun n => Item.ts n.2 ≤ ts).map (fun n => pair n.2) =
      (expiring l ts).map pair := by
    rw [← hgone, List.map_map]
    rfl
  rw [checkTimeout, ← hns, heq, hcalls, ← hgone, List.length_map]
  refine ⟨_, rfl, ⟨hind, ?_, ?_⟩, ⟨_, hperm.filter _, rfl, hsorted.filter _⟩, rfl, rfl, rfl⟩
  · exact fun n hn => hholds.fresh n (List.mem_of_mem_filter hn)
  · rw [← hholds.items_eq, Nodes.items, Nodes.items, List.filter_map]
    rfl

/-- Each operation answers as the recency list does and keeps standing for it. -/
theorem step_refines [Inhabited V] (h : Represents max elasticity cb c l) (o : Op K V)
    (hok : (machine K V).ok c o) :
    ((machine K V).step c o).1 = ((mru max ((max + elasticity) % 2 ^ 64) cb).step l o).1 ∧
      Represents max elasticity cb ((machine K V).step c o).2
        ((mru max ((max + elasticity) % 2 ^ 64) cb).step l o).2 := by
  cases o with
  | set k v expired now =>
    obtain ⟨c', heq, hrep⟩ := set_eq h k v hok
    simp only [machine, mru, op, heq]
    exact ⟨rfl, hrep⟩
  | get k =>
    obtain ⟨c', heq, hrep⟩ := get_eq h k
    simp only [machine, mru, op, heq]
    exact ⟨rfl, hrep⟩
  | getValue k =>
    obtain ⟨c', heq, hrep⟩ := get_eq h k
    simp only [machine, mru, op, getValue, heq]
    exact ⟨rfl, hrep⟩
  | del k =>
    obtain ⟨c', heq, hrep⟩ := del_eq h k
    simp only [machine, mru, op, heq]
    exact ⟨rfl, hrep⟩
  | exists_ k =>
    simp only [machine, mru, op, exists_, h.holds.isSome_eq]
    exact ⟨trivial, h⟩
  | size =>
    simp only [machine, mru, op, size, h.holds.size_eq]
    exact ⟨trivial, h⟩
  | checkTimeout ts =>
    obtain ⟨c', heq, hrep⟩ := checkTimeout_eq h ts
    simp only [machine, mru, op, heq]
    exact ⟨rfl, hrep⟩
  | clear =>
    exact ⟨rfl, Recency.Holds.empty c.next, ⟨[], .nil, rfl, .nil⟩, h.maxSize_eq, h.elasticity_eq,
      h.cb_eq⟩

end

/-- The index, the list and the set hold the same entries: every key once, each
index entry pointing at the node of its own key, and every node once in the set,
which is ordered by expiry and key. -/
structure Consistent (c : TimedLruCache K V) : Prop where
  keys_nodup : (c.items.map Item.key).Nodup
  same_keys : ∀ k, k ∈ c.m_cache ↔ k ∈ c.items.map Item.key
  points : ∀ k it, c.m_cache.lookup k = some it → ∃ u, deref c.m_keys it = .ok (k, u)
  same_nodes : c.m_timed.Perm (c.m_keys.map Prod.fst)
  ordered : c.m_timed.Pairwise fun a b => ∃ x y, deref c.m_keys a = .ok x ∧
    deref c.m_keys b = .ok y ∧ rank x < rank y

theorem Represents.consistent {max elasticity : ℕ} {cb : Bool} {c : TimedLruCache K V}
    {l : List (Item K V)} (h : Represents max elasticity cb c l) : Consistent c where
  keys_nodup := h.holds.indexed.keys_nodup
  same_keys := by
    intro k
    rw [h.holds.mem_iff, items, h.holds.items_eq]
  points := by
    intro k it hit
    obtain ⟨u, hread, -⟩ := h.holds.find_some hit
    exact ⟨u, deref_eq hread⟩
  same_nodes := by
    obtain ⟨ns, hperm, hns, -⟩ := h.timed
    rw [← hns]
    exact hperm.map Prod.fst
  ordered := by
    obtain ⟨ns, hperm, hns, hsorted⟩ := h.timed
    have hread : ∀ n ∈ ns, deref c.m_keys n.1 = .ok n.2 := fun n hn =>
      deref_eq (Assoc.find_of_mem h.holds.indexed.addrs (hperm.mem_iff.mp hn))
    rw [← hns, List.pairwise_map]
    refine hsorted.imp_of_mem fun {a b} ha hb hab => ?_
    exact ⟨a.2, b.2, hread a ha, hread b hb, hab⟩

/-- What each key was last set to, and the expiry it was given. -/
def written (f : K → Option (V × ℕ)) : Op K V → K → Option (V × ℕ)
  | .set k v expired now => Function.update f k (some (v, expired + now))
  | _ => f

def latest (ops : List (Op K V)) : K → Option (V × ℕ) := ops.foldl written fun _ => none

section

variable [Inhabited V]

theorem run_latest (max allowed : ℕ) (cb : Bool) : ∀ (ops : List (Op K V))
    (f : K → Option (V × ℕ)) (l : List (Item K V)), Recency.Latest f l →
      Recency.Latest (ops.foldl written f) ((mru max allowed cb).run l ops).2 := by
  intro ops
  induction ops with
  | nil => intro f l h; exact h
  | cons o ops ih =>
    intro f l h
    refine ih _ _ ?_
    cases o with
    | set k v expired now => exact h.put max allowed k (v, expired + now)
    | get k => exact h.use k
    | getValue k => exact h.use k
    | del k => exact h.without k
    | exists_ k => exact h
    | size => exact h
    | checkTimeout ts => exact h.mono (List.filter_subset_self l)
    | clear => exact fun c hc => absurd hc List.not_mem_nil

theorem run_represents (max elasticity : ℕ) (cb : Bool) (ops : List (Op K V))
    (hops : (machine K V).Admissible (new max elasticity cb) ops) :
    let c := (machine K V).run (new max elasticity cb) ops
    let l := (mru max ((max + elasticity) % 2 ^ 64) cb).run [] ops
    c.1 = l.1 ∧ Represents max elasticity cb c.2 l.2 := by
  refine Machine.run_sim (machine K V) (mru max ((max + elasticity) % 2 ^ 64) cb)
    (Represents max elasticity cb) (fun c l o h hok => step_refines h o hok) ops _ [] ?_ hops
  exact ⟨Recency.Holds.empty 0, ⟨[], .nil, rfl, .nil⟩, rfl, rfl, rfl⟩

/-- Every run of a cache answers as the recency list does, without failing: the three
containers stay in step; `checkTimeout` removes what was last set to expire by `ts`,
reports each such entry once and returns their number, and leaves the others in
order; and a set that prunes keeps the most recently used entries in all three. -/
theorem refines_timed_recency_list (max elasticity : ℕ) (cb : Bool) (ops : List (Op K V))
    (hops : (machine K V).Admissible (new max elasticity cb) ops) :
    let c := (machine K V).run (new max elasticity cb) ops
    let l := (mru max ((max + elasticity) % 2 ^ 64) cb).run [] ops
    c.1 = l.1 ∧ c.2.items = l.2 ∧ Consistent c.2 ∧
    (∀ ts, ∃ calls n c', c.2.checkTimeout ts = .ok (calls, n, c') ∧ Consistent c' ∧
      c'.items = c.2.items.filter (fun i => ts < Item.ts i) ∧
      (∀ k ∈ c.2.m_cache, ∃ v e, latest ops k = some (v, e) ∧ (k ∉ c'.m_cache ↔ e ≤ ts)) ∧
      n = (c.2.items.filter fun i => Item.ts i ≤ ts).length ∧
      (cb = true → calls.Perm ((c.2.items.filter fun i => Item.ts i ≤ ts).map pair)) ∧
      (cb = false → calls = [])) ∧
    (∀ k v expired now, k ∉ c.2.m_cache → 0 < max →
      (max + elasticity) % 2 ^ 64 ≤ c.2.size + 1 → expired + now < 2 ^ 64 →
      ∃ c', c.2.set k v expired now =
          .ok (if cb then (((k, v, expired + now) :: c.2.items).drop max).reverse.map pair else [],
            c') ∧
        Consistent c' ∧ c'.items = ((k, v, expired + now) :: c.2.items).take max) := by
  intro c l
  obtain ⟨hreply, hrep⟩ : c.1 = l.1 ∧ Represents max elasticity cb c.2 l.2 :=
    run_represents max elasticity cb ops hops
  have hlatest : Recency.Latest (latest ops) l.2 :=
    run_latest max _ cb ops _ [] (fun c hc => absurd hc List.not_mem_nil)
  have hitems : c.2.items = l.2 := hrep.holds.items_eq
  refine ⟨hreply, hitems, hrep.consistent, ?_, ?_⟩
  · intro ts
    obtain ⟨c', heq, hrep'⟩ := checkTimeout_eq hrep ts
    have hperm : (expiring l.2 ts).Perm (l.2.filter fun i => Item.ts i ≤ ts) :=
      List.perm_insertionSort _ _
    rw [hitems]
    refine ⟨_, _, c', heq, hrep'.consistent, hrep'.holds.items_eq, ?_, hperm.length_eq, ?_, ?_⟩
    · intro k hk
      obtain ⟨⟨k', v, e⟩, hmem, rfl⟩ := List.mem_map.mp (hrep.holds.mem_iff.mp hk)
      refine ⟨v, e, hlatest _ hmem, ?_⟩
      rw [hrep'.holds.mem_iff, List.mem_map]
      constructor
      · intro hgone
        by_contra hlater
        exact hgone ⟨_, List.mem_filter.mpr ⟨hmem, decide_eq_true (not_le.mp hlater)⟩, rfl⟩
      · rintro hle ⟨i, hi, hkey⟩
        obtain ⟨hil, hts⟩ := List.mem_filter.mp hi
        rw [List.inj_on_of_nodup_map hrep.holds.keys_nodup hil hmem hkey] at hts
        exact absurd hle (not_le.mpr (of_decide_eq_true hts))
    · intro hcb
      rw [if_pos hcb]
      exact hperm.map pair
    · intro hcb
      rw [if_neg (by simp [hcb])]
  · intro k v expired now hk hmax hfull hsum
    obtain ⟨c', hset, hrep'⟩ := set_eq hrep k v hsum
    have hfit : ¬ (max = 0 ∨
        ((k, v, expired + now) :: l.2).length < (max + elasticity) % 2 ^ 64) := by
      rw [size, hrep.holds.size_eq] at hfull
      rw [List.length_cons]
      omega
    have hput : Recency.put max ((max + elasticity) % 2 ^ 64) l.2 k (v, expired + now) = _ :=
      Recency.put_of_absent (hrep.holds.find_none (AList.lookup_eq_none.mpr hk)) _
    rw [Recency.kept, Recency.evicted, if_neg hfit, if_neg hfit] at hput
    rw [hput] at hset hrep'
    rw [hitems]
    exact ⟨c', hset, hrep'.consistent, hrep'.holds.items_eq⟩

end

theorem refines_timed_recency_list_expiring :
    (machine ℕ ℕ).Admissible (new 2 1 true)
        [.set 1 10 5 100, .set 2 20 1 100, .get 1, .checkTimeout 103] ∧
      Consistent ((machine ℕ ℕ).run (new 2 1 true)
        [.set 1 10 5 100, .set 2 20 1 100, .get 1, .checkTimeout 103]).2 := by
  have hops : (machine ℕ ℕ).Admissible (new 2 1 true)
      [.set 1 10 5 100, .set 2 20 1 100, .get 1, .checkTimeout 103] := by
    simp [machine, Machine.Admissible]
  exact ⟨hops, (refines_timed_recency_list 2 1 true _ hops).2.2.1⟩

end TimedLruCache

end Sylar
