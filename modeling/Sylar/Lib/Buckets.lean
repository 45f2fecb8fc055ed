import Sylar.Lib.Nodes
import Mathlib.Tactic

/-! Buckets: a list of lists of pairs, where a pair lies in the bucket its key names
and a bucket is strictly sorted by key. Put together, the buckets are one list of pairs
with distinct keys, and a key is found there when it is found in its bucket. -/

namespace Lib

open scoped List

variable {K P : Type*}

/-- Every pair lies in the bucket `pos` names, and there is a bucket for every key. -/
structure Placed (pos : K → ℕ) (l : List (List (K × P))) : Prop where
  bound : ∀ k, pos k < l.length
  placed : ∀ i b, l[i]? = some b → ∀ n ∈ b, pos n.1 = i

/-- Every bucket is strictly sorted as well. -/
structure Bucketed [LT K] (pos : K → ℕ) (l : List (List (K × P))) : Prop extends
    Placed pos l where
  sorted : ∀ b ∈ l, b.Pairwise fun a b => a.1 < b.1

/-- Replacing one bucket changes that part of the whole and nothing else. -/
theorem flatten_set_perm {α : Type*} {l : List (List α)} {i : ℕ} {b : List α}
    (hb : l[i]? = some b) :
    ∃ rest, l.flatten.Perm (b ++ rest) ∧ ∀ b', (l.set i b').flatten.Perm (b' ++ rest) := by
  obtain ⟨hi, rfl⟩ := List.getElem?_eq_some_iff.mp hb
  refine ⟨(l.take i).flatten ++ (l.drop (i + 1)).flatten, ?_, fun b' => ?_⟩
  · have hl : l = l.take i ++ l[i] :: l.drop (i + 1) := by simp
    nth_rewrite 1 [hl]
    rw [List.flatten_append, List.flatten_cons]
    exact List.perm_append_comm_assoc _ _ _
  · rw [List.set_eq_take_append_cons_drop, if_pos hi, List.flatten_append, List.flatten_cons]
    exact List.perm_append_comm_assoc _ _ _

theorem flatten_map_perm {α : Type*} {f : List α → List α} (hf : ∀ b, (f b).Perm b) :
    ∀ l : List (List α), (l.map f).flatten.Perm l.flatten
  | [] => List.Perm.refl _
  | b :: l => (hf b).append (flatten_map_perm hf l)

namespace Placed

variable {pos : K → ℕ} {l : List (List (K × P))}

theorem bucket (h : Placed pos l) (k : K) : ∃ b, l[pos k]? = some b :=
  ⟨_, List.getElem?_eq_getElem (h.bound k)⟩

theorem set (h : Placed pos l) {i : ℕ} {b : List (K × P)} (hb : ∀ n ∈ b, pos n.1 = i) :
    Placed pos (l.set i b) where
  bound k := by
    rw [List.length_set]
    exact h.bound k
  placed j c hc := by
    rw [List.getElem?_set] at hc
    split at hc
    · rename_i hij
      obtain rfl : b = c := by
        split at hc
        · exact Option.some.inj hc
        · exact absurd hc (by rintro ⟨⟩)
      rw [← hij]
      exact hb
    · exact h.placed j c hc

/-- What a pair's own bucket holds for a key is what all buckets hold for it. -/
theorem mem_flatten (h : Placed pos l) {k : K} {b : List (K × P)} (hb : l[pos k]? = some b) {p : P} :
    (k, p) ∈ l.flatten ↔ (k, p) ∈ b := by
  rw [List.mem_flatten]
  constructor
  · rintro ⟨c, hc, hkp⟩
    obtain ⟨j, hj⟩ := List.mem_iff_getElem?.mp hc
    rw [h.placed j c hj _ hkp] at hb
    rw [← Option.some.inj (hj.symm.trans hb)]
    exact hkp
  · intro hkp
    exact ⟨b, List.mem_of_getElem? hb, hkp⟩

theorem empty {size : ℕ} (hpos : ∀ k, pos k < size) :
    Placed pos (List.replicate size ([] : List (K × P))) where
  bound k := by
    rw [List.length_replicate]
    exact hpos k
  placed i b hb n hn := by
    rw [List.eq_of_mem_replicate (List.mem_of_getElem? hb)] at hn
    exact absurd hn List.not_mem_nil

theorem push (h : Placed pos l) (n : K × P) :
    Placed pos (l.modify (pos n.1) (· ++ [n])) ∧
      (l.modify (pos n.1) (· ++ [n])).flatten.Perm (n :: l.flatten) := by
  obtain ⟨b, hb⟩ := h.bucket n.1
  have hmod : l.modify (pos n.1) (· ++ [n]) = l.set (pos n.1) (b ++ [n]) := by
    rw [List.modify_eq_set_getElem?, hb]
    rfl
  rw [hmod]
  constructor
  · apply h.set
    intro c hc
    rcases List.mem_append.mp hc with hc | hc
    · exact h.placed _ b hb c hc
    · rw [List.mem_singleton.mp hc]
  · obtain ⟨rest, hl, hset⟩ := flatten_set_perm hb
    calc (l.set (pos n.1) (b ++ [n])).flatten
      _ ~ b ++ [n] ++ rest := hset _
      _ ~ n :: (b ++ rest) := by
        rw [List.append_assoc]
        exact List.perm_middle
      _ ~ n :: l.flatten := hl.symm.cons n

/-- Adding pairs one after the other, each at the end of its bucket. -/
theorem pushAll : ∀ (ns : List (K × P)) {l : List (List (K × P))}, Placed pos l →
    Placed pos (ns.foldl (fun l n => l.modify (pos n.1) (· ++ [n])) l) ∧
      (ns.foldl (fun l n => l.modify (pos n.1) (· ++ [n])) l).flatten.Perm (ns ++ l.flatten) := by
  intro ns
  induction ns with
  | nil => intro l h; exact ⟨h, List.Perm.refl _⟩
  | cons n ns ih =>
    intro l h
    obtain ⟨hpush, hperm⟩ := h.push n
    obtain ⟨hall, hrest⟩ := ih hpush
    refine ⟨hall, hrest.trans ?_⟩
    exact (hperm.append_left ns).trans List.perm_middle

variable (pos) in
theorem length_pushAll (ns : List (K × P)) : ∀ l : List (List (K × P)),
    (ns.foldl (fun l n => l.modify (pos n.1) (· ++ [n])) l).length = l.length := by
  induction ns with
  | nil => intro l; rfl
  | cons n ns ih =>
    intro l
    rw [List.foldl_cons, ih, List.length_modify]

theorem map_perm (h : Placed pos l) {f : List (K × P) → List (K × P)} (hf : ∀ b, (f b).Perm b) :
    Placed pos (l.map f) where
  bound k := by
    rw [List.length_map]
    exact h.bound k
  placed i c hc n hn := by
    rw [List.getElem?_map] at hc
    obtain ⟨b, hb, rfl⟩ := Option.map_eq_some_iff.mp hc
    exact h.placed i b hb n ((hf b).mem_iff.mp hn)

end Placed

namespace Bucketed

variable [LinearOrder K] {pos : K → ℕ} {l : List (List (K × P))}

theorem empty {size : ℕ} (hpos : ∀ k, pos k < size) :
    Bucketed pos (List.replicate size ([] : List (K × P))) where
  toPlaced := Placed.empty hpos
  sorted b hb := by
    rw [List.eq_of_mem_replicate hb]
    exact List.Pairwise.nil

theorem keys_nodup (h : Bucketed pos l) : (l.flatten.map Prod.fst).Nodup := by
  rw [List.Nodup, List.pairwise_map, List.pairwise_flatten]
  refine ⟨fun b hb => (h.sorted b hb).imp ne_of_lt, ?_⟩
  rw [List.pairwise_iff_getElem]
  intro i j hi hj hij x hx y hy hxy
  have hxi : pos x.1 = i := h.placed i _ (List.getElem?_eq_getElem hi) x hx
  have hyj : pos y.1 = j := h.placed j _ (List.getElem?_eq_getElem hj) y hy
  rw [hxy] at hxi
  omega

theorem bucket_keys_nodup (h : Bucketed pos l) {b : List (K × P)} (hb : b ∈ l) :
    (b.map Prod.fst).Nodup := by
  rw [List.Nodup, List.pairwise_map]
  exact (h.sorted b hb).imp ne_of_lt

theorem find_eq (h : Bucketed pos l) {k : K} {b : List (K × P)} (hb : l[pos k]? = some b) :
    Assoc.find l.flatten k = Assoc.find b k := by
  rcases hk : Assoc.find b k with _ | p
  · rw [Assoc.find_eq_none] at hk ⊢
    rintro ⟨k', p⟩ hc rfl
    exact hk _ ((h.mem_flatten hb).mp hc) rfl
  · exact Assoc.find_of_mem h.keys_nodup ((h.mem_flatten hb).mpr (Assoc.mem_of_find hk))

theorem set (h : Bucketed pos l) {i : ℕ} {b : List (K × P)} (hpos : ∀ n ∈ b, pos n.1 = i)
    (hb : b.Pairwise fun a b => a.1 < b.1) : Bucketed pos (l.set i b) where
  toPlaced := h.toPlaced.set hpos
  sorted c hc := by
    rcases List.mem_or_eq_of_mem_set hc with hc | rfl
    · exact h.sorted c hc
    · exact hb

theorem of_keys {l' : List (List (K × P))} (h : Bucketed pos l)
    (hkeys : l'.map (·.map Prod.fst) = l.map (·.map Prod.fst)) : Bucketed pos l' := by
  have hbucket : ∀ (i : ℕ) (b : List (K × P)), l'[i]? = some b →
      ∃ c : List (K × P), l[i]? = some c ∧ c.map Prod.fst = b.map Prod.fst := by
    intro i b hb
    have hi : (l.map (·.map Prod.fst))[i]? = some (b.map Prod.fst) := by
      rw [← hkeys, List.getElem?_map, hb]
      rfl
    rw [List.getElem?_map] at hi
    exact Option.map_eq_some_iff.mp hi
  refine ⟨⟨fun k => ?_, fun i b hb n hn => ?_⟩, fun b hb => ?_⟩
  · have hlen : l'.length = l.length := by simpa using congrArg List.length hkeys
    rw [hlen]
    exact h.bound k
  · obtain ⟨c, hc, hcb⟩ := hbucket i b hb
    have hn' : n.1 ∈ c.map Prod.fst := by
      rw [hcb]
      exact List.mem_map_of_mem hn
    obtain ⟨n', hmem, hkey⟩ := List.mem_map.mp hn'
    rw [← hkey]
    exact h.placed i c hc n' hmem
  · obtain ⟨i, hi⟩ := List.mem_iff_getElem?.mp hb
    obtain ⟨c, hc, hcb⟩ := hbucket i b hi
    have hsorted := h.sorted c (List.mem_of_getElem? hc)
    rw [← List.pairwise_map (f := Prod.fst)] at hsorted ⊢
    rwa [hcb] at hsorted

end Bucketed

end Lib
