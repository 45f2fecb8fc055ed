import Mathlib.Data.List.AList
import Mathlib.Data.List.Perm.Basic
import Mathlib.Data.List.Dedup

/-! A linked list whose nodes keep their address, and an index from keys to the
addresses of nodes. `Indexed` says that the index knows exactly the nodes of the
list; each operation on the two that keeps it is described by what it does to the
items of the list, front first. -/

namespace Lib

namespace Assoc

variable {K V : Type*} [DecidableEq K]

def find (l : List (K × V)) (k : K) : Option V := (l.find? fun c => c.1 = k).map Prod.snd

def without (l : List (K × V)) (k : K) : List (K × V) := l.filter fun c => c.1 ≠ k

def set (l : List (K × V)) (k : K) (v : V) : List (K × V) := (k, v) :: without l k

theorem mem_without {l : List (K × V)} {k : K} {c : K × V} :
    c ∈ without l k ↔ c ∈ l ∧ c.1 ≠ k := by
  rw [without, List.mem_filter, decide_eq_true_iff]

theorem find_of_mem {l : List (K × V)} (h : (l.map Prod.fst).Nodup) {k : K} {v : V}
    (hv : (k, v) ∈ l) : find l k = some v := by
  have hfind : ∃ c, l.find? (fun c => c.1 = k) = some c :=
    Option.isSome_iff_exists.mp (List.find?_isSome.mpr ⟨(k, v), hv, decide_eq_true rfl⟩)
  obtain ⟨c, hc⟩ := hfind
  have hk : c.1 = (k, v).1 := by simpa using List.find?_some hc
  obtain rfl := List.inj_on_of_nodup_map h (List.mem_of_find?_eq_some hc) hv hk
  rw [find, hc]
  rfl

theorem mem_of_find {l : List (K × V)} {k : K} {v : V} (h : find l k = some v) : (k, v) ∈ l := by
  obtain ⟨c, hc, rfl⟩ := Option.map_eq_some_iff.mp h
  have hk : c.1 = k := by simpa using List.find?_some hc
  rw [← hk]
  exact List.mem_of_find?_eq_some hc

theorem find_eq_none {l : List (K × V)} {k : K} : find l k = none ↔ ∀ c ∈ l, c.1 ≠ k := by
  rw [find, Option.map_eq_none_iff, List.find?_eq_none]
  simp

theorem find_cons (c : K × V) (l : List (K × V)) (k : K) :
    find (c :: l) k = if c.1 = k then some c.2 else find l k := by
  rw [find, List.find?_cons]
  by_cases h : c.1 = k
  · simp [h]
  · simp [h, find]

theorem find_without (l : List (K × V)) (k k' : K) :
    find (without l k) k' = if k = k' then none else find l k' := by
  induction l with
  | nil => simp [without, find]
  | cons c l ih =>
    unfold without at ih ⊢
    rw [List.filter_cons]
    by_cases hc : c.1 = k
    · simp only [hc, ne_eq, not_true, decide_false, Bool.false_eq_true, if_false, ih, find_cons]
      split <;> simp_all
    · simp only [hc, ne_eq, not_false_eq_true, decide_true, if_true, find_cons, ih]
      by_cases hk : c.1 = k'
      · have hne : k ≠ k' := fun heq => hc (hk.trans heq.symm)
        rw [if_pos hk, if_pos hk, if_neg hne]
      · rw [if_neg hk, if_neg hk]

theorem find_set (l : List (K × V)) (k k' : K) (v : V) :
    find (set l k v) k' = if k = k' then some v else find l k' := by
  unfold set
  rw [find_cons, find_without]
  by_cases h : k = k'
  · rw [if_pos h, if_pos h]
  · rw [if_neg h, if_neg h, if_neg h]

theorem find_perm {l l' : List (K × V)} (h : (l.map Prod.fst).Nodup) (hl : l.Perm l') (k : K) :
    find l k = find l' k := by
  have h' : (l'.map Prod.fst).Nodup := (hl.map Prod.fst).nodup_iff.mp h
  rcases hk : find l' k with _ | v
  · rw [find_eq_none] at hk ⊢
    exact fun c hc => hk c (hl.mem_iff.mp hc)
  · exact find_of_mem h (hl.mem_iff.mpr (mem_of_find hk))

theorem find_erase {l rest : List (K × V)} (h : (l.map Prod.fst).Nodup) {k : K}
    (hl : l.Perm ((find l k).toList.map (k, ·) ++ rest)) (k' : K) :
    find rest k' = if k = k' then none else find l k' := by
  rcases hk : find l k with _ | v
  · rw [hk, Option.toList_none, List.map_nil, List.nil_append] at hl
    rw [← find_perm h hl]
    split
    · rename_i heq
      rw [← heq, hk]
    · rfl
  · rw [hk] at hl
    have hnodup : (k :: rest.map Prod.fst).Nodup := (hl.map Prod.fst).nodup_iff.mp h
    rw [find_perm h hl, Option.toList_some, List.map_singleton, List.singleton_append, find_cons]
    split
    · rename_i heq
      rw [← heq, find_eq_none]
      rintro c hc rfl
      exact (List.nodup_cons.mp hnodup).1 (List.mem_map_of_mem hc)
    · rfl

theorem find_replace {l l' rest : List (K × V)} (h : (l.map Prod.fst).Nodup)
    (h' : (l'.map Prod.fst).Nodup) {k : K} {v : V}
    (hl : l.Perm ((find l k).toList.map (k, ·) ++ rest)) (hl' : l'.Perm ((k, v) :: rest)) (k' : K) :
    find l' k' = if k = k' then some v else find l k' := by
  rw [find_perm h' hl', find_cons, find_erase h hl]
  split
  · rfl
  · rfl

theorem keys_without (l : List (K × V)) (k : K) :
    (without l k).map Prod.fst = (l.map Prod.fst).filter (· ≠ k) := by
  rw [List.filter_map]
  rfl

theorem nodup_without {l : List (K × V)} (h : (l.map Prod.fst).Nodup) (k : K) :
    ((without l k).map Prod.fst).Nodup := by
  rw [keys_without]
  exact h.filter _

theorem nodup_set {l : List (K × V)} (h : (l.map Prod.fst).Nodup) (k : K) (v : V) :
    ((set l k v).map Prod.fst).Nodup := by
  refine List.nodup_cons.mpr ⟨?_, nodup_without h k⟩
  rw [keys_without, List.mem_filter]
  simp

theorem set_set (l : List (K × V)) (k : K) (v w : V) : set (set l k v) k w = set l k w := by
  simp [set, without, List.filter_filter]

theorem length_without {l : List (K × V)} (h : (l.map Prod.fst).Nodup) {k : K} {v : V}
    (hk : find l k = some v) : (without l k).length + 1 = l.length := by
  induction l with
  | nil => cases hk
  | cons c l ih =>
    obtain ⟨hc, hl⟩ := List.nodup_cons.mp h
    rw [find_cons] at hk
    by_cases hck : c.1 = k
    · have hrest : without l k = l := List.filter_eq_self.mpr fun d hd =>
        decide_eq_true fun hdk => hc (List.mem_map.mpr ⟨d, hd, hdk.trans hck.symm⟩)
      unfold without at hrest ⊢
      rw [List.filter_cons_of_neg (by simp [hck]), hrest, List.length_cons]
    · rw [if_neg hck] at hk
      have hlen := ih hl hk
      unfold without at hlen ⊢
      rw [List.filter_cons_of_pos (by simp [hck]), List.length_cons, List.length_cons, hlen]

theorem length_set_of_find {l : List (K × V)} (h : (l.map Prod.fst).Nodup) {k : K} {v : V}
    (hk : find l k = some v) (w : V) : (set l k w).length = l.length :=
  List.length_cons.trans (length_without h hk)

end Assoc

/-- The nodes from the front: address and item. -/
abbrev Nodes (α : Type*) := List (ℕ × α)

namespace Nodes

variable {α : Type*}

def items (l : Nodes α) : List α := l.map Prod.snd

abbrev read (l : Nodes α) (p : ℕ) : Option α := Assoc.find l p

abbrev remove (l : Nodes α) (p : ℕ) : Nodes α := Assoc.without l p

def write (l : Nodes α) (p : ℕ) (x : α) : Nodes α := l.map fun c => if c.1 = p then (p, x) else c

/-- Move the node at `p`, which holds `x`, to the front. -/
def toFront (l : Nodes α) (p : ℕ) (x : α) : Nodes α := (p, x) :: l.remove p

theorem addrs_write (l : Nodes α) (p : ℕ) (x : α) :
    (l.write p x).map Prod.fst = l.map Prod.fst := by
  rw [write, List.map_map]
  refine List.map_congr_left fun c _ => ?_
  dsimp only [Function.comp]
  split
  · rename_i h
    exact h.symm
  · rfl

theorem remove_write (l : Nodes α) (p : ℕ) (x : α) : (l.write p x).remove p = l.remove p := by
  induction l with
  | nil => rfl
  | cons c l ih =>
    rw [remove, remove, Assoc.without, Assoc.without] at ih
    rw [remove, write, List.map_cons, Assoc.without, List.filter_cons, remove, Assoc.without,
      List.filter_cons]
    by_cases hc : c.1 = p
    · rw [if_pos hc, if_neg (by simp), if_neg (by simp [hc])]
      exact ih
    · rw [if_neg hc, if_pos (by simp [hc]), if_pos (by simp [hc])]
      exact congrArg _ ih

theorem toFront_write (l : Nodes α) (p : ℕ) (x : α) :
    (l.write p x).toFront p x = l.toFront p x := congrArg _ (remove_write l p x)

theorem remove_toFront (l : Nodes α) (p : ℕ) (x : α) : (l.toFront p x).remove p = l.remove p := by
  rw [toFront, remove, Assoc.without, List.filter_cons_of_neg (by simp), remove, Assoc.without,
    List.filter_filter]
  simp

theorem write_toFront (l : Nodes α) (p : ℕ) (x y : α) :
    (l.toFront p x).write p y = l.toFront p y := by
  have hrest : (l.remove p).write p y = l.remove p := by
    refine List.map_congr_left (fun c hc => if_neg (Assoc.mem_without.mp hc).2) |>.trans ?_
    exact List.map_id _
  rw [toFront, write, List.map_cons, if_pos rfl]
  exact congrArg _ hrest

theorem remove_head {n : ℕ × α} {l : Nodes α} (h : ((n :: l).map Prod.fst).Nodup) :
    Nodes.remove (n :: l) n.1 = l := by
  rw [Nodes.remove, Assoc.without, List.filter_cons_of_neg (by simp)]
  refine List.filter_eq_self.mpr fun m hm => decide_eq_true fun hmn => ?_
  exact (List.nodup_cons.mp h).1 (List.mem_map.mpr ⟨m, hm, hmn⟩)

end Nodes

open Nodes

variable {K α : Type*} [DecidableEq K] {key : α → K} {cache : AList fun _ : K => ℕ} {l : Nodes α}

/-- The index maps the key of each node to its address, and knows no other key. -/
structure Indexed (key : α → K) (cache : AList fun _ : K => ℕ) (l : Nodes α) : Prop where
  addrs : (l.map Prod.fst).Nodup
  index : ∀ k p, cache.lookup k = some p ↔ ∃ x, (p, x) ∈ l ∧ key x = k

namespace Indexed

theorem empty (key : α → K) : Indexed key ∅ [] where
  addrs := List.nodup_nil
  index := by simp

theorem perm (h : Indexed key cache l) {l' : Nodes α} (hl : l.Perm l') : Indexed key cache l' where
  addrs := (hl.map Prod.fst).nodup_iff.mp h.addrs
  index := by
    intro k p
    rw [h.index]
    exact exists_congr fun x => and_congr_left fun _ => hl.mem_iff

theorem lookup (h : Indexed key cache l) {p : ℕ} {x : α} (hx : (p, x) ∈ l) :
    cache.lookup (key x) = some p := (h.index _ _).mpr ⟨x, hx, rfl⟩

theorem find (h : Indexed key cache l) {k : K} {p : ℕ} (hp : cache.lookup k = some p) :
    ∃ x, l.read p = some x ∧ (p, x) ∈ l ∧ key x = k := by
  obtain ⟨x, hx, hk⟩ := (h.index k p).mp hp
  exact ⟨x, Assoc.find_of_mem h.addrs hx, hx, hk⟩

theorem absent (h : Indexed key cache l) {k : K} :
    cache.lookup k = none ↔ ∀ x ∈ l.items, key x ≠ k := by
  rw [Option.eq_none_iff_forall_ne_some]
  constructor
  · intro hnone x hx hk
    obtain ⟨c, hc, rfl⟩ := List.mem_map.mp hx
    exact hnone c.1 (hk ▸ h.lookup hc)
  · intro hall p hp
    obtain ⟨x, -, hx, hk⟩ := h.find hp
    exact hall x (List.mem_map_of_mem hx) hk

theorem inj (h : Indexed key cache l) {c d : ℕ × α} (hc : c ∈ l) (hd : d ∈ l)
    (hk : key c.2 = key d.2) : c = d := by
  have hp : some c.1 = some d.1 := by rw [← h.lookup hc, ← h.lookup hd, hk]
  exact List.inj_on_of_nodup_map h.addrs hc hd (Option.some.inj hp)

theorem keys_nodup (h : Indexed key cache l) : (l.items.map key).Nodup := by
  rw [items, List.map_map]
  exact (h.addrs.of_map).map_on fun c hc d hd hk => h.inj hc hd hk

theorem keys_perm (h : Indexed key cache l) : cache.keys.Perm (l.items.map key) := by
  refine (List.perm_ext_iff_of_nodup cache.keys_nodup h.keys_nodup).mpr fun k => ?_
  rw [← AList.mem_keys, ← not_iff_not, ← AList.lookup_eq_none, h.absent, List.mem_map]
  simp

theorem size (h : Indexed key cache l) : cache.keys.length = l.items.length := by
  rw [h.keys_perm.length_eq, List.length_map]

/-- A node with the address of `x` is the node of the key of `x`. -/
theorem addr_eq_iff (h : Indexed key cache l) {p : ℕ} {x : α} (hx : (p, x) ∈ l) {c : ℕ × α}
    (hc : c ∈ l) : c.1 = p ↔ key c.2 = key x := by
  constructor
  · intro hp
    rw [List.inj_on_of_nodup_map h.addrs hc hx hp]
  · intro hk
    rw [h.inj hc hx hk]

theorem items_remove (h : Indexed key cache l) {p : ℕ} {x : α} (hx : (p, x) ∈ l) :
    (l.remove p).items = l.items.filter fun y => key y ≠ key x := by
  rw [items, items, List.filter_map, Nodes.remove, Assoc.without]
  congr 1
  refine List.filter_congr fun c hc => ?_
  exact decide_eq_decide.mpr (not_congr (h.addr_eq_iff hx hc))

theorem remove (h : Indexed key cache l) {p : ℕ} {x : α} (hx : (p, x) ∈ l) :
    Indexed key (cache.erase (key x)) (l.remove p) where
  addrs := by
    rw [Assoc.keys_without]
    exact h.addrs.filter _
  index := by
    intro k q
    by_cases hk : k = key x
    · subst hk
      rw [AList.lookup_erase]
      refine iff_of_false (by simp) ?_
      rintro ⟨y, hy, hyx⟩
      exact (Assoc.mem_without.mp hy).2 ((h.addr_eq_iff hx (Assoc.mem_without.mp hy).1).mpr hyx)
    · rw [AList.lookup_erase_ne hk, h.index]
      refine exists_congr fun y => ⟨fun ⟨hy, hyk⟩ => ⟨Assoc.mem_without.mpr ⟨hy, fun hq => ?_⟩, hyk⟩,
        fun ⟨hy, hyk⟩ => ⟨(Assoc.mem_without.mp hy).1, hyk⟩⟩
      exact hk (hyk.symm.trans ((h.addr_eq_iff hx hy).mp hq))

/-- A new node in front, at an address and with a key the list does not have. -/
theorem cons (h : Indexed key cache l) {p : ℕ} {x : α} (hp : p ∉ l.map Prod.fst)
    (hk : cache.lookup (key x) = none) : Indexed key (cache.insert (key x) p) ((p, x) :: l) where
  addrs := List.nodup_cons.mpr ⟨hp, h.addrs⟩
  index := by
    intro k q
    by_cases hkx : k = key x
    · subst hkx
      rw [AList.lookup_insert]
      constructor
      · intro hpq
        exact ⟨x, by rw [Option.some.inj hpq]; exact List.mem_cons_self, rfl⟩
      · rintro ⟨y, hy, hyx⟩
        rcases List.mem_cons.mp hy with hy | hy
        · rw [(Prod.mk.inj hy).1]
        · exact absurd hyx (h.absent.mp hk y (List.mem_map_of_mem hy))
    · rw [AList.lookup_insert_ne hkx, h.index]
      refine exists_congr fun y => ⟨fun ⟨hy, hyk⟩ => ⟨List.mem_cons_of_mem _ hy, hyk⟩,
        fun ⟨hy, hyk⟩ => ⟨?_, hyk⟩⟩
      rcases List.mem_cons.mp hy with hy | hy
      · exact absurd (hyk.symm.trans (congrArg key (Prod.mk.inj hy).2)) hkx
      · exact hy

/-- Rewriting the item of a node without changing its key. -/
theorem write (h : Indexed key cache l) {p : ℕ} {x y : α} (hx : (p, x) ∈ l)
    (hk : key y = key x) : Indexed key cache (l.write p y) where
  addrs := by
    rw [addrs_write]
    exact h.addrs
  index := by
    intro k q
    rw [h.index]
    constructor
    · rintro ⟨z, hz, hzk⟩
      by_cases hq : q = p
      · subst hq
        have hzx : key z = key x := (h.addr_eq_iff hx hz).mp rfl
        exact ⟨y, List.mem_map.mpr ⟨(q, z), hz, if_pos rfl⟩, hk.trans (hzx.symm.trans hzk)⟩
      · exact ⟨z, List.mem_map.mpr ⟨(q, z), hz, if_neg hq⟩, hzk⟩
    · rintro ⟨z, hz, hzk⟩
      obtain ⟨c, hc, hcz⟩ := List.mem_map.mp hz
      split at hcz
      · obtain ⟨rfl, rfl⟩ := Prod.mk.inj hcz
        exact ⟨x, hx, hk.symm.trans hzk⟩
      · exact ⟨z, hcz ▸ hc, hzk⟩

theorem toFront (h : Indexed key cache l) {p : ℕ} {x : α} (hx : (p, x) ∈ l) :
    Indexed key cache (l.toFront p x) where
  addrs := by
    rw [Nodes.toFront, List.map_cons, List.nodup_cons, Assoc.keys_without]
    exact ⟨by simp, h.addrs.filter _⟩
  index := by
    intro k q
    rw [h.index]
    refine exists_congr fun y => and_congr_left fun _ => ?_
    rw [Nodes.toFront, List.mem_cons, Assoc.mem_without]
    constructor
    · intro hy
      by_cases hq : q = p
      · exact Or.inl (List.inj_on_of_nodup_map h.addrs hy hx hq)
      · exact Or.inr ⟨hy, hq⟩
    · rintro (hy | hy)
      · exact hy ▸ hx
      · exact hy.1

theorem popFront {n : ℕ × α} (h : Indexed key cache (n :: l)) :
    Indexed key (cache.erase (key n.2)) l := by
  have hrem := h.remove (p := n.1) (x := n.2) List.mem_cons_self
  rwa [remove_head h.addrs] at hrem

theorem remove_last {p : ℕ} {x : α} (h : Indexed key cache (l ++ [(p, x)])) :
    Nodes.remove (l ++ [(p, x)]) p = l := by
  have hne : ∀ c ∈ l, c.1 ≠ p := by
    have hnodup := h.addrs
    rw [List.map_append, List.nodup_append'] at hnodup
    intro c hc hp
    exact hnodup.2.2 (List.mem_map_of_mem hc) (by simp [hp])
  rw [Nodes.remove, Assoc.without, List.filter_append, List.filter_eq_self.mpr (by simpa using hne)]
  simp

theorem popBack {p : ℕ} {x : α} (h : Indexed key cache (l ++ [(p, x)])) :
    Indexed key (cache.erase (key x)) l := by
  have hmem : (p, x) ∈ l ++ [(p, x)] := List.mem_append_right _ (List.mem_singleton.mpr rfl)
  have hrem := h.remove hmem
  rwa [h.remove_last] at hrem

end Indexed

end Lib
