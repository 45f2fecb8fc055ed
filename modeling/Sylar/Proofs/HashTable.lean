import Sylar.Spec.HashTable
import Sylar.Lib.Buckets
import Sylar.Lib.Partial

/-! The table under `HashMap`, `Dict` and `HashMultimap`. Binary search, insertion at the
end of a bucket and deletion from it are right on sorted buckets and leave them sorted, and
a table whose size changes keeps its nodes. Each operation is described by what it does
to the nodes as a whole, up to their order. -/

namespace Sylar

open Lib

open scoped List

section

variable {α K : Type} [LinearOrder K] {key : α → K}

theorem exists_split {b : List α} (hb : b.Pairwise fun x y => key x ≤ key y) (k : K) :
    ∃ a c, b = a ++ c ∧ (∀ x ∈ a, key x < k) ∧ ∀ x ∈ c, k ≤ key x := by
  induction b with
  | nil => exact ⟨[], [], rfl, by simp, by simp⟩
  | cons y b ih =>
    rw [List.pairwise_cons] at hb
    by_cases hy : key y < k
    · obtain ⟨a, c, rfl, ha, hc⟩ := ih hb.2
      exact ⟨y :: a, c, rfl, List.forall_mem_cons.mpr ⟨hy, ha⟩, hc⟩
    · have hk : k ≤ key y := not_lt.mp hy
      exact ⟨[], y :: b, rfl, by simp, List.forall_mem_cons.mpr
        ⟨hk, fun x hx => hk.trans (hb.1 x hx)⟩⟩

variable (key) in
/-- `BinarySearch` finds the first element with the key, if there is one. -/
theorem binarySearch_cases {b : List α} (hb : b.Pairwise fun x y => key x ≤ key y) (k : K) :
    (∃ a x c, b = a ++ x :: c ∧ key x = k ∧
      binarySearch (fun x => decide (key x < k)) (fun x => decide (k < key x)) b = some a.length) ∨
    ((∀ x ∈ b, key x ≠ k) ∧
      binarySearch (fun x => decide (key x < k)) (fun x => decide (k < key x)) b = none) := by
  obtain ⟨a, c, rfl, ha, hc⟩ := exists_split hb k
  have hlow : lowerBound (fun x => decide (key x < k)) (a ++ c) = a.length :=
    lowerBound_eq (fun x hx => by simpa using ha x hx) fun x hx => by simpa using hc x hx
  rw [binarySearch, hlow]
  cases c with
  | nil =>
    refine .inr ⟨fun x hx => ?_, by simp⟩
    rw [List.append_nil] at hx
    exact (ha x hx).ne
  | cons x c =>
    simp only [List.getElem?_append_right (Nat.le_refl _), Nat.sub_self, List.getElem?_cons_zero]
    by_cases hx : k < key x
    · refine .inr ⟨fun y hy => ?_, by simp [hx]⟩
      rcases List.mem_append.mp hy with hy | hy
      · exact (ha y hy).ne
      · -- the elements from `x` on are at least as large as `x`
        rcases List.mem_cons.mp hy with rfl | hy
        · exact hx.ne'
        · have hxy := (List.pairwise_cons.mp (List.pairwise_append.mp hb).2.1).1 y hy
          exact (hx.trans_le hxy).ne'
    · exact .inl ⟨a, x, c, rfl, le_antisymm (not_lt.mp hx) (hc x List.mem_cons_self), by simp [hx]⟩

theorem sortLastLoop_sorted {x : α} (pre : List α) : ∀ post : List α,
    (pre ++ post).Pairwise (fun x y => key x ≤ key y) → (∀ y ∈ post, key x ≤ key y) →
      (sortLastLoop (fun x y => decide (key x < key y)) pre.length (pre ++ x :: post)).Pairwise
        fun x y => key x ≤ key y := by
  induction pre using List.reverseRecOn with
  | nil =>
    intro post hsorted hx
    exact List.pairwise_cons.mpr ⟨hx, hsorted⟩
  | append_singleton pre z ih =>
    intro post hsorted hx
    have hz : (pre ++ [z] ++ x :: post)[pre.length]? = some z := by simp
    have hx' : (pre ++ [z] ++ x :: post)[pre.length + 1]? = some x := by simp
    rw [List.length_append, List.length_singleton, sortLastLoop, hz, hx']
    dsimp only
    by_cases hlt : key x < key z
    · have hset : ((pre ++ [z] ++ x :: post).set pre.length x).set (pre.length + 1) z =
          pre ++ x :: z :: post := by simp
      rw [if_pos (decide_eq_true hlt), hset]
      exact ih (z :: post) (by simpa using hsorted) (List.forall_mem_cons.mpr ⟨hlt.le, hx⟩)
    · -- `x` has reached its place
      rw [if_neg (by simpa using hlt)]
      have hzx : key z ≤ key x := not_lt.mp hlt
      obtain ⟨hpre, hpost, hcross⟩ := List.pairwise_append.mp hsorted
      refine List.pairwise_append.mpr ⟨hpre, List.pairwise_cons.mpr ⟨hx, hpost⟩, ?_⟩
      intro y hy w hw
      have hyz : key y ≤ key z := by
        rcases List.mem_append.mp hy with hy | hy
        · exact (List.pairwise_append.mp hpre).2.2 y hy z List.mem_cons_self
        · rw [List.mem_singleton.mp hy]
      rcases List.mem_cons.mp hw with rfl | hw
      · exact hyz.trans hzx
      · exact hcross y hy w hw

theorem sortLastLoop_perm (lt : α → α → Bool) : ∀ (i : ℕ) (data : List α),
    sortLastLoop lt i data ~ data := by
  intro i
  induction i with
  | zero => intro data; exact List.Perm.refl _
  | succ i ih =>
    intro data
    rw [sortLastLoop]
    split
    · rename_i x y hx hy
      obtain ⟨hi, rfl⟩ := List.getElem?_eq_some_iff.mp hx
      obtain ⟨hi', rfl⟩ := List.getElem?_eq_some_iff.mp hy
      split
      · exact (ih _).trans (List.set_set_perm hi hi')
      · exact List.Perm.refl _
    · exact List.Perm.refl _

theorem sortLast_perm (lt : α → α → Bool) (data : List α) : sortLast lt data ~ data := by
  rw [sortLast]
  split
  · exact List.Perm.refl _
  · exact sortLastLoop_perm lt _ data

theorem toInt_of_lt {n : ℕ} (h : n < 2 ^ 31) : toInt n = n := by
  unfold toInt
  rw [Int.bmod_eq_of_le] <;> push_cast <;> omega

/-- `SortLast` sorts an element at the end into place, as long as the size is an `int`. -/
theorem sortLast_sorted {b : List α} {x : α} (hb : b.Pairwise fun x y => key x ≤ key y)
    (hlen : b.length + 1 < 2 ^ 31) :
    (sortLast (fun x y => decide (key x < key y)) (b ++ [x])).Pairwise
      fun x y => key x ≤ key y := by
  have hlen' : (b ++ [x]).length = b.length + 1 := by simp
  rw [sortLast, hlen', toInt_of_lt hlen]
  split
  · rename_i hle
    obtain rfl : b = [] := List.length_eq_zero_iff.mp (by push_cast at hle; omega)
    exact List.pairwise_singleton _ _
  · exact sortLastLoop_sorted b [] (by simpa using hb) (by simp)

theorem swapRemove_perm (a : List α) (x : α) (c : List α) :
    swapRemove (a ++ x :: c) a.length ~ a ++ c := by
  rw [swapRemove]
  cases c using List.reverseRecOn with
  | nil => simp
  | append_singleton c y =>
    have hlen : (a ++ x :: (c ++ [y])).length - 1 = (a ++ y :: c).length := by simp
    have hset : ((a ++ x :: (c ++ [y])).set a.length y).set ((a ++ x :: (c ++ [y])).length - 1) x =
        (a ++ y :: c) ++ [x] := by
      have hfirst : (a ++ x :: (c ++ [y])).set a.length y = (a ++ y :: c) ++ [y] := by simp
      rw [hlen, hfirst, List.set_append_right _ _ (Nat.le_refl _)]
      simp
    have hget : (a ++ x :: (c ++ [y]))[a.length]? = some x := by simp
    have hlast : (a ++ x :: (c ++ [y])).getLast? = some y := by
      rw [← List.cons_append, ← List.append_assoc, List.getLast?_concat]
    rw [if_pos (by simp; omega), hget, hlast]
    dsimp only
    rw [hset, List.dropLast_concat]
    exact (List.perm_append_singleton y c).symm.append_left a

theorem pairwise_lt_of_le {b : List α} (hb : b.Pairwise fun x y => key x ≤ key y)
    (hnodup : (b.map key).Nodup) : b.Pairwise fun x y => key x < key y := by
  rw [List.Nodup, List.pairwise_map] at hnodup
  exact hb.imp₂ (fun _ _ hle hne => lt_of_le_of_ne hle hne) hnodup

end

theorem basket_ok {n : ℤ} {s : ℕ} (h : basket n = .ok s) : ∃ j ≤ 30, s = 2 ^ j := by
  unfold basket at h
  split at h
  · exact absurd h (by rintro ⟨⟩)
  · refine ⟨min (Nat.log 2 n.natAbs + 1) 30, Nat.min_le_right _ _, ?_⟩
    rw [← Except.ok.inj h, Nat.one_shiftLeft]

theorem basket_of_pos {n : ℤ} (h0 : n ≠ 0) (h1 : n ≠ -2 ^ 31) : ∃ s, basket n = .ok s :=
  ⟨_, if_neg (by rintro (h | h) <;> contradiction)⟩

namespace Table

variable {K P : Type} [LinearOrder K] {posHash : K → ℕ} {m : Table K P}

theorem sortNodes_perm (b : List (K × P)) : sortNodes b ~ b := List.perm_insertionSort _ b

theorem sortNodes_sorted {b : List (K × P)} (h : (b.map Prod.fst).Nodup) :
    (sortNodes b).Pairwise fun x y => x.1 < y.1 := by
  refine pairwise_lt_of_le ?_ (((sortNodes_perm b).map Prod.fst).nodup_iff.mpr h)
  exact List.pairwise_insertionSort (fun a b : K × P => a.1 ≤ b.1) b

theorem search_cases {b : List (K × P)} (hb : b.Pairwise fun x y => x.1 < y.1) (k : K) :
    (∃ a p c, b = a ++ (k, p) :: c ∧ search b k = some a.length ∧ Assoc.find b k = some p) ∨
    (search b k = none ∧ Assoc.find b k = none) := by
  have hnodup : (b.map Prod.fst).Nodup := by
    rw [List.Nodup, List.pairwise_map]
    exact hb.imp ne_of_lt
  rcases binarySearch_cases Prod.fst (hb.imp le_of_lt) k with
    ⟨a, ⟨k', p⟩, c, rfl, hk, hs⟩ | ⟨hk, hs⟩
  · obtain rfl : k' = k := hk
    exact .inl ⟨a, p, c, rfl, hs, Assoc.find_of_mem hnodup (by simp)⟩
  · exact .inr ⟨hs, Assoc.find_eq_none.mpr hk⟩

/-- The size is a power of two, each bucket is strictly sorted by key, each key lies in
the bucket `posHash k % m_size`, and `m_total` counts the nodes. -/
structure Inv (posHash : K → ℕ) (m : Table K P) : Prop where
  size : ∃ j ≤ 30, m.m_size = 2 ^ j
  count : m.m_datas.length = m.m_size
  bucketed : Bucketed (fun k => posHash k % m.m_size) m.m_datas
  total : m.m_total = m.nodes.length

/-- The size of every bucket is an `int`, which is what `SortLast` takes. -/
def Small (m : Table K P) : Prop := ∀ b ∈ m.m_datas, b.length < 2 ^ 31

omit [LinearOrder K] in
theorem small_of_nodes (h : m.nodes.length < 2 ^ 31) : m.Small :=
  fun _ hb => Nat.lt_of_le_of_lt (List.sublist_flatten_of_mem hb).length_le h

theorem Inv.size_pos (h : Inv posHash m) : 0 < m.m_size := by
  obtain ⟨j, _, hj⟩ := h.size
  rw [hj]
  exact Nat.two_pow_pos j

theorem Inv.keys_nodup (h : Inv posHash m) : (m.nodes.map Prod.fst).Nodup := h.bucketed.keys_nodup

theorem Inv.pos_eq (h : Inv posHash m) (k : K) :
    posHash k % 2 ^ 32 % m.m_size = posHash k % m.m_size := by
  obtain ⟨j, hj, hsize⟩ := h.size
  rw [hsize]
  exact Nat.mod_mod_of_dvd _ (pow_dvd_pow 2 (by omega))

theorem Inv.bucketOf_eq (h : Inv posHash m) (k : K) :
    ∃ b, m.m_datas[posHash k % m.m_size]? = some b ∧
      bucketOf posHash m k = .ok (posHash k % m.m_size, b) := by
  obtain ⟨b, hb⟩ := h.bucketed.bucket k
  refine ⟨b, hb, ?_⟩
  rw [bucketOf, if_neg h.size_pos.ne', h.pos_eq k]
  dsimp only
  rw [hb]

omit [LinearOrder K] in
theorem nodeAt_append (a : List (K × P)) (n : K × P) (c : List (K × P)) :
    nodeAt (a ++ n :: c) a.length = .ok n := by
  simp [nodeAt]

theorem find_eq (h : Inv posHash m) (k : K) :
    m.find posHash k = .ok (Assoc.find m.nodes k) := by
  obtain ⟨b, hb, hof⟩ := h.bucketOf_eq k
  rw [nodes, h.bucketed.find_eq hb, find, hof]
  rcases search_cases (h.bucketed.sorted b (List.mem_of_getElem? hb)) k with
    ⟨a, p, c, rfl, hs, hf⟩ | ⟨hs, hf⟩
  · simp only [bind, Except.bind, hs, hf, nodeAt_append]
  · simp only [bind, Except.bind, hs, hf]

/-- A key's bucket is replaced by one with no other keys than it has, the key apart. -/
theorem Inv.replace (h : Inv posHash m) {k : K} {b b' : List (K × P)} {total : ℕ}
    (hb : m.m_datas[posHash k % m.m_size]? = some b) (hkeys : ∀ n ∈ b', n.1 = k ∨ n ∈ b)
    (hsorted : b'.Pairwise fun x y => x.1 < y.1) (htotal : total + b.length = m.m_total + b'.length) :
    Inv posHash { m with
      m_datas := m.m_datas.set (posHash k % m.m_size) b'
      m_total := total } where
  size := h.size
  count := by
    dsimp only
    rw [List.length_set]
    exact h.count
  bucketed := by
    refine h.bucketed.set (fun n hn => ?_) hsorted
    rcases hkeys n hn with hk | hn
    · rw [hk]
    · exact h.bucketed.placed _ b hb n hn
  total := by
    obtain ⟨others, hnodes, hset⟩ := flatten_set_perm hb
    have hbefore := hnodes.length_eq
    have hafter := (hset b').length_eq
    rw [List.length_append] at hbefore hafter
    rw [h.total, nodes] at htotal
    rw [nodes]
    dsimp only
    omega

/-- `upsert` takes the old node of the key out, if there is one, and puts the new one in.
The buckets stay in order as long as their sizes are `int`s. -/
theorem upsert_eq (h : Inv posHash m) (hlen : m.nodes.length + 1 < 2 ^ 64) (k : K)
    (f : Option P → P) :
    ∃ m' rest, m.upsert posHash k f = .ok (Assoc.find m.nodes k, m') ∧
      (m'.Small → Inv posHash m') ∧
      m.nodes ~ (Assoc.find m.nodes k).toList.map (k, ·) ++ rest ∧
      m'.nodes ~ (k, f (Assoc.find m.nodes k)) :: rest := by
  obtain ⟨b, hb, hof⟩ := h.bucketOf_eq k
  have hsorted := h.bucketed.sorted b (List.mem_of_getElem? hb)
  have hnodup := h.bucketed.bucket_keys_nodup (List.mem_of_getElem? hb)
  obtain ⟨others, hnodes, hset⟩ := flatten_set_perm hb
  rw [nodes, h.bucketed.find_eq hb, upsert, hof]
  rcases search_cases hsorted k with ⟨a, p, c, rfl, hs, hf⟩ | ⟨hs, hf⟩
  · -- the node is written in place
    have hwrite : (a ++ (k, p) :: c).set a.length (k, f (some p)) = a ++ (k, f (some p)) :: c := by
      simp
    have hmiddle : ∀ q, a ++ (k, q) :: c ++ others ~ (k, q) :: (a ++ c ++ others) := by
      intro q
      simp only [List.append_assoc, List.cons_append]
      exact List.perm_middle
    simp only [bind, Except.bind, hs, hf, nodeAt_append, hwrite]
    refine ⟨_, a ++ c ++ others, rfl, fun _ => ?_, hnodes.trans (hmiddle p),
      (hset _).trans (hmiddle _)⟩
    refine h.replace hb (fun n hn => ?_) ?_ (by simp)
    · rcases List.mem_append.mp hn with hn | hn
      · exact .inr (List.mem_append_left _ hn)
      · rcases List.mem_cons.mp hn with rfl | hn
        · exact .inl rfl
        · exact .inr (by simp [hn])
    · rw [← List.pairwise_map (f := Prod.fst)] at hsorted ⊢
      simpa using hsorted
  · -- a new node is sorted in
    have hperm : sortLast nodeLt (b ++ [(k, f none)]) ~ (k, f none) :: b :=
      (sortLast_perm _ _).trans (List.perm_append_singleton _ _)
    simp only [bind, Except.bind, hs, hf]
    refine ⟨_, m.m_datas.flatten, rfl, fun hsmall => ?_, List.Perm.refl _,
      (hset _).trans ((hperm.append_right others).trans (hnodes.symm.cons _))⟩
    have hblen : b.length + 1 < 2 ^ 31 := by
      have hmem := hsmall _ (List.mem_set (h.bucketed.bound k) (sortLast nodeLt (b ++ [(k, f none)])))
      rwa [hperm.length_eq] at hmem
    have hle := sortLast_sorted (x := (k, f none)) (hsorted.imp le_of_lt) hblen
    refine h.replace hb (fun n hn => ?_) (pairwise_lt_of_le hle ?_) ?_
    · rcases List.mem_cons.mp (hperm.mem_iff.mp hn) with rfl | hn
      · exact .inl rfl
      · exact .inr hn
    · refine ((hperm.map Prod.fst).nodup_iff).mpr (List.nodup_cons.mpr ⟨?_, hnodup⟩)
      intro hk
      obtain ⟨n, hn, rfl⟩ := List.mem_map.mp hk
      exact Assoc.find_eq_none.mp hf n hn rfl
    · rw [hperm.length_eq, h.total, List.length_cons]
      omega

theorem erase_eq (h : Inv posHash m) (hlen : m.nodes.length < 2 ^ 64) (k : K) :
    ∃ m', m.erase posHash k = .ok (Assoc.find m.nodes k, m') ∧ Inv posHash m' ∧
      m.nodes ~ (Assoc.find m.nodes k).toList.map (k, ·) ++ m'.nodes := by
  obtain ⟨b, hb, hof⟩ := h.bucketOf_eq k
  have hsorted := h.bucketed.sorted b (List.mem_of_getElem? hb)
  have hnodup := h.bucketed.bucket_keys_nodup (List.mem_of_getElem? hb)
  obtain ⟨others, hnodes, hset⟩ := flatten_set_perm hb
  rw [nodes, h.bucketed.find_eq hb, erase, hof]
  rcases search_cases hsorted k with ⟨a, p, c, rfl, hs, hf⟩ | ⟨hs, hf⟩
  · have hperm : sortNodes (swapRemove (a ++ (k, p) :: c) a.length) ~ a ++ c :=
      (sortNodes_perm _).trans (swapRemove_perm a (k, p) c)
    have hsub : (a ++ c).Sublist (a ++ (k, p) :: c) := (List.sublist_cons_self _ _).append_left a
    have hkeys : ((a ++ c).map Prod.fst).Nodup := hnodup.sublist (hsub.map _)
    simp only [bind, Except.bind, hs, hf, nodeAt_append]
    refine ⟨_, rfl, ?_, ?_⟩
    · refine h.replace hb (fun n hn => .inr (hsub.mem (hperm.mem_iff.mp hn))) (sortNodes_sorted ?_) ?_
      · exact ((swapRemove_perm a (k, p) c).map Prod.fst).nodup_iff.mpr hkeys
      · have hcount := hnodes.length_eq
        rw [hperm.length_eq, h.total, nodes]
        rw [nodes] at hlen
        simp only [List.length_append, List.length_cons] at hcount ⊢
        omega
    · calc m.m_datas.flatten
        _ ~ a ++ (k, p) :: c ++ others := hnodes
        _ ~ (k, p) :: (a ++ c ++ others) := by
          simp only [List.append_assoc, List.cons_append]
          exact List.perm_middle
        _ ~ (k, p) :: _ := ((hset _).trans (hperm.append_right others)).symm.cons _
  · simp only [bind, Except.bind, hs, hf]
    exact ⟨m, rfl, h, List.Perm.refl _⟩

variable (posHash) in
theorem new_eq {size : ℕ} (h : (new size : Except Fault (Table K P)) = .ok m) :
    Inv posHash m ∧ m.nodes = [] := by
  obtain ⟨s, hs, hm⟩ := ok_of_bind h
  obtain rfl := (Except.ok.inj hm).symm
  obtain ⟨j, hj, rfl⟩ := basket_ok hs
  have hnodes : (List.replicate (2 ^ j) ([] : List (K × P))).flatten = [] := by simp
  refine ⟨⟨⟨j, hj, rfl⟩, List.length_replicate, ?_, ?_⟩, hnodes⟩
  · exact Bucketed.empty fun k => Nat.mod_lt _ (Nat.two_pow_pos j)
  · rw [nodes, hnodes]
    rfl

variable (posHash) in
theorem distribute_eq {size : ℕ} (hsize : 0 < size) {ns : List (K × P)}
    (hns : (ns.map Prod.fst).Nodup) :
    Bucketed (fun k => posHash k % size) (distribute posHash size ns) ∧
      (distribute posHash size ns).length = size ∧ (distribute posHash size ns).flatten ~ ns := by
  have hempty : Placed (fun k => posHash k % size) (List.replicate size ([] : List (K × P))) :=
    Placed.empty fun k => Nat.mod_lt _ hsize
  obtain ⟨hplaced, hperm⟩ := Placed.pushAll ns hempty
  have hflat : (List.replicate size ([] : List (K × P))).flatten = [] := by simp
  rw [hflat, List.append_nil] at hperm
  refine ⟨⟨hplaced.map_perm sortNodes_perm, ?_⟩, ?_, (flatten_map_perm sortNodes_perm _).trans hperm⟩
  · intro b hb
    obtain ⟨c, hc, rfl⟩ := List.mem_map.mp hb
    refine sortNodes_sorted (List.Nodup.sublist ?_ ((hperm.map Prod.fst).nodup_iff.mpr hns))
    exact (List.sublist_flatten_of_mem hc).map _
  · rw [distribute, List.length_map]
    exact (Placed.length_pushAll (fun k => posHash k % size) ns _).trans List.length_replicate

theorem rehashUnlock_inv (h : Inv posHash m) {m' : Table K P}
    (hm : m.rehashUnlock posHash = .ok m') : Inv posHash m' ∧ m'.nodes ~ m.nodes := by
  obtain ⟨size, hsize, hm⟩ := ok_of_bind hm
  by_cases heq : size = m.m_size
  · rw [if_pos heq] at hm
    obtain rfl := Except.ok.inj hm
    exact ⟨h, List.Perm.refl _⟩
  · rw [if_neg heq] at hm
    obtain rfl := Except.ok.inj hm
    obtain ⟨j, hj, rfl⟩ := basket_ok hsize
    obtain ⟨hb, hcount, hperm⟩ := distribute_eq posHash (Nat.two_pow_pos j) h.keys_nodup
    exact ⟨⟨⟨j, hj, rfl⟩, hcount, hb, h.total.trans hperm.length_eq.symm⟩, hperm⟩

theorem rehash_inv (h : Inv posHash m) {load : ℕ → ℕ → Bool} {m' : Table K P}
    (hm : m.rehash posHash load = .ok m') : Inv posHash m' ∧ m'.nodes ~ m.nodes := by
  rw [rehash] at hm
  split at hm
  · exact rehashUnlock_inv h hm
  · obtain rfl := Except.ok.inj hm
    exact ⟨h, List.Perm.refl _⟩

theorem rehashIfNeeded_inv (h : Inv posHash m) {load : ℕ → ℕ → Bool} {m' : Table K P}
    (hm : m.rehashIfNeeded posHash load = .ok m') : Inv posHash m' ∧ m'.nodes ~ m.nodes := by
  rw [rehashIfNeeded] at hm
  split at hm
  · exact rehash_inv h hm
  · obtain rfl := Except.ok.inj hm
    exact ⟨h, List.Perm.refl _⟩

theorem rehash_ok (h : Inv posHash m) (hlen : m.nodes.length < 2 ^ 31) (load : ℕ → ℕ → Bool) :
    ∃ m', m.rehash posHash load = .ok m' := by
  rw [rehash]
  split
  · rename_i hneed
    have h0 : m.m_total ≠ 0 := by
      rw [needRehash, Bool.and_eq_true] at hneed
      simpa using hneed.1
    have htotal : toInt m.m_total = m.m_total := toInt_of_lt (by rw [h.total]; exact hlen)
    obtain ⟨size, hsize⟩ := basket_of_pos (n := m.m_total) (by omega) (by omega)
    rw [rehashUnlock, htotal, hsize]
    simp only [bind, Except.bind]
    split
    · exact ⟨_, rfl⟩
    · exact ⟨_, rfl⟩
  · exact ⟨m, rfl⟩

theorem rehashIfNeeded_ok (h : Inv posHash m) (hlen : m.nodes.length < 2 ^ 31)
    (load : ℕ → ℕ → Bool) : ∃ m', m.rehashIfNeeded posHash load = .ok m' := by
  rw [rehashIfNeeded]
  split
  · exact rehash_ok h hlen load
  · exact ⟨m, rfl⟩

end Table

end Sylar
