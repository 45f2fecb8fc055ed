import Sylar.Proofs.MultimapSets

/-! Deletion of one value, and the count of values along a run. Out of an array of several
values `del(k, v)` copies the wrong memory and does not count; `set` counts the new array of a
key and not the one it throws away. -/

namespace Sylar

open Lib

open scoped List

namespace HashMultimap

variable {K V : Type} [LinearOrder K] [LinearOrder V] {posHash : K → ℕ} {m m' : HashMultimap K V}
  {S : Finset (K × V)}

/-- A multimap reached by single inserts, in memory, and the pairs inserted. -/
inductive Inserted (posHash : K → ℕ) : HashMultimap K V → Finset (K × V) → Prop
  | new {m : HashMultimap K V} (size : ℕ) : new size = .ok m → Inserted posHash m ∅
  | insert {m m' : HashMultimap K V} {S : Finset (K × V)} {b : Bool} (load : ℕ → ℕ → Bool) (k : K)
      (v : V) : Inserted posHash m S → m.insert posHash load k v = .ok (b, m') → InMemory m' →
        Inserted posHash m' (record S k [v])

theorem Inserted.lists (h : Inserted posHash m S) : Sound posHash m ∧ Lists m.table S := by
  induction h with
  | new size hnew => exact new_sound posHash hnew
  | @insert m m' S b load k v hm hins hmem ih =>
    obtain ⟨hsound, hS⟩ := ih
    have hstep : setStep posHash (m, S) (.insert k v load) = .ok (m', record S k [v]) := by
      rw [setStep, hins]
      rfl
    obtain ⟨hsound', hiff⟩ := setStep_lists (o := .insert k v load) hsound hS trivial hstep hmem
    exact ⟨hsound', hiff.mpr trivial⟩

/-- What `del(k, v)` should do: `S` is the pairs that are there. -/
structure Deletes (posHash : K → ℕ) (S : Finset (K × V)) (m m' : HashMultimap K V) (k : K) (v : V)
    (r : Bool) : Prop where
  result : r = true ↔ (k, v) ∈ S
  values : ∀ old, m.get posHash k = .ok old →
    m'.get posHash k = .ok (old.bind fun vals =>
      if vals.erase v = [] then none else some (vals.erase v))
  others : ∀ k', k' ≠ k → m'.get posHash k' = m.get posHash k'
  elements : m'.getElements + (if r then 1 else 0) = m.getElements

omit [LinearOrder V] in
theorem store_ok {t : Table K (List V)} (h : t.Inv posHash) (hlen : t.nodes.length + 1 < 2 ^ 64)
    (k : K) {vals : List V} (hvals : vals.length < 2 ^ 31) :
    ∃ t', store posHash t k vals = .ok t' := by
  obtain ⟨t', rest, hup, -⟩ := Table.upsert_eq h hlen k fun _ => vals
  refine ⟨t', ?_⟩
  rw [store, nodeArray, if_pos hvals]
  simp only [bind, Except.bind, hup]

theorem Lists.pair_iff {t : Table K (List V)} (hS : Lists t S) {k : K} {vals : List V}
    (hk : Assoc.find t.nodes k = some vals) (v : V) : (k, v) ∈ S ↔ v ∈ vals := by
  rw [hS.mem, hk]
  simp

section

variable [Inhabited V] {behind : ℕ → V} {k : K} {v : V}

theorem deletes_absent (h : Sound posHash m) (hS : Lists m.table S) (hv : (k, v) ∉ S)
    (hdel : m.delValue posHash behind k v = .ok (false, m)) : ∃ r m',
      m.delValue posHash behind k v = .ok (r, m') ∧ Deletes posHash S m m' k v r := by
  refine ⟨false, m, hdel, ⟨by simp [hv], fun old hold => ?_, fun _ _ => rfl, rfl⟩⟩
  rw [hold]
  rw [get, Table.find_eq h.usual.inv] at hold
  obtain rfl := Except.ok.inj hold
  rcases hk : Assoc.find m.table.nodes k with _ | vals
  · rfl
  · have hnot : v ∉ vals := (hS.pair_iff hk v).not.mp hv
    have hne : vals ≠ [] := List.ne_nil_of_length_pos (h.usual.sizeAt_of_find hk).2.1
    rw [Option.bind_some, List.erase_of_not_mem hnot, if_neg hne]

theorem deletes_last (h : Sound posHash m) (hv : (k, v) ∈ S)
    (hk : Assoc.find m.table.nodes k = some [v]) : ∃ r m',
      m.delValue posHash behind k v = .ok (r, m') ∧ Deletes posHash S m m' k v r := by
  have hlen := h.usual.length_le
  have hmem := h.memory.2
  obtain ⟨t', her, husual, hval⟩ := erase_spec h.usual (by omega) k
  obtain ⟨t₁, her₁, -, hold⟩ := Table.erase_eq h.usual.inv (by omega) k
  obtain ⟨-, rfl⟩ := Prod.mk.inj (Except.ok.inj (her.symm.trans her₁))
  have hfind := Assoc.find_erase h.usual.inv.keys_nodup hold
  rw [hk] at her
  have hs : searchValue [v] v = some 0 := by
    rcases searchValue_cases (List.pairwise_singleton _ v) v with ⟨a, c, hsplit, hs⟩ | ⟨hno, -⟩
    · have hnil : a.length = 0 := by
        have := congrArg List.length hsplit
        simp at this
        omega
      rw [hs, hnil]
    · exact absurd List.mem_cons_self hno
  have hdel : m.delValue posHash behind k v =
      .ok (true, ⟨t', (m.m_elements + (2 ^ 64 - 1)) % 2 ^ 64⟩) := by
    rw [delValue, Table.find_eq h.usual.inv, hk]
    simp only [bind, Except.bind, hs, List.length_singleton, if_true, her]
  have hone : sizeAt m.table k = 1 := (h.usual.sizeAt_of_find hk).1
  have hcount := h.count
  refine ⟨_, _, hdel, ⟨by simp [hv], fun old hget => ?_, fun k' hk' => ?_, ?_⟩⟩
  · rw [get, Table.find_eq h.usual.inv, hk] at hget
    obtain rfl := Except.ok.inj hget
    rw [get, Table.find_eq husual.inv, hfind, if_pos rfl]
    simp
  · rw [get, get, Table.find_eq husual.inv, Table.find_eq h.usual.inv, hfind, if_neg (Ne.symm hk')]
  · rw [getElements, getElements, if_pos rfl]
    dsimp only
    omega

theorem not_deletes_several (h : Sound posHash m) {vals : List V} {i : ℕ}
    (hk : Assoc.find m.table.nodes k = some vals) (hs : searchValue vals v = some i)
    (hlen : vals.length ≠ 1) : ∃ r m',
      m.delValue posHash behind k v = .ok (r, m') ∧ ¬ Deletes posHash S m m' k v r := by
  have hnodes := h.usual.length_le
  have hmem := h.memory.2
  have hi := searchValue_lt hs
  obtain ⟨-, hpos, hint⟩ := h.usual.sizeAt_of_find hk
  obtain ⟨t', hst⟩ := @store_ok K V _ posHash m.table h.usual.inv (by omega) k
    ((List.range (vals.length - i - 1)).map behind ++
      (vals.take i ++ (List.replicate (vals.length - 1) default).drop i).drop
        ((List.range (vals.length - i - 1)).map behind).length) (by
      simp only [List.length_append, List.length_map, List.length_range, List.length_drop,
        List.length_take, List.length_replicate]
      omega)
  have hdel : m.delValue posHash behind k v = .ok (true, ⟨t', m.m_elements⟩) := by
    rw [delValue, Table.find_eq h.usual.inv, hk]
    simp only [bind, Except.bind, hs, if_neg hlen, hst]
  refine ⟨_, _, hdel, fun hright => ?_⟩
  have hel := hright.elements
  rw [getElements, getElements, if_pos rfl] at hel
  dsimp only at hel
  omega

/-- `del(k, v)` does what it should exactly when the pair is not there or `v` is the only value of
`k`. -/
theorem delValue_deletes_iff (h : Inserted posHash m S) (behind : ℕ → V) (k : K) (v : V) :
    ∃ r m', m.delValue posHash behind k v = .ok (r, m') ∧
      (Deletes posHash S m m' k v r ↔ ((k, v) ∈ S → ∀ v', (k, v') ∈ S → v' = v)) := by
  obtain ⟨hsound, hS⟩ := h.lists
  have hfind := Table.find_eq hsound.usual.inv k
  by_cases hv : (k, v) ∈ S
  · obtain ⟨vals, hk, hmem⟩ := (hS.mem k v).mp hv
    have hk : Assoc.find m.table.nodes k = some vals := hk
    have hinc := hS.increasing k vals hk
    by_cases hlen : vals.length = 1
    · obtain ⟨x, rfl⟩ := List.length_eq_one_iff.mp hlen
      obtain rfl := List.mem_singleton.mp hmem
      obtain ⟨r, m', hdel, hright⟩ := deletes_last hsound hv hk
      refine ⟨r, m', hdel, iff_of_true hright fun _ v' hv' => ?_⟩
      exact List.mem_singleton.mp ((hS.pair_iff hk v').mp hv')
    · rcases searchValue_cases hinc v with ⟨a, c, hsplit, hs⟩ | ⟨hno, -⟩
      · obtain ⟨r, m', hdel, hwrong⟩ := not_deletes_several hsound hk hs hlen
        refine ⟨r, m', hdel, iff_of_false hwrong fun honly => ?_⟩
        -- an array without repetition whose elements are all `v` has one element
        have hall : ∀ x ∈ vals, x = v := fun x hx => honly hv x ((hS.pair_iff hk x).mpr hx)
        have hnodup : vals.Nodup := hinc.imp ne_of_lt
        have hle : vals.length ≤ 1 := by
          rw [List.eq_replicate_of_mem hall] at hnodup
          exact List.nodup_replicate.mp hnodup
        have hpos := List.length_pos_of_mem hmem
        omega
      · exact absurd hmem hno
  · have hdel : m.delValue posHash behind k v = .ok (false, m) := by
      rw [delValue, hfind]
      rcases hk : Assoc.find m.table.nodes k with _ | vals
      · rfl
      · rcases searchValue_cases (hS.increasing k vals hk) v with ⟨a, c, hsplit, -⟩ | ⟨-, hs⟩
        · refine absurd ((hS.pair_iff hk v).mpr ?_) hv
          rw [hsplit]
          simp
        · simp only [bind, Except.bind, hs]
    obtain ⟨r, m', hdel', hright⟩ := deletes_absent hsound hS hv hdel
    exact ⟨r, m', hdel', iff_of_true hright fun hyes => absurd hyes hv⟩

/-- 7 is the only value of the key 1. -/
theorem delValue_deletes_only : ∃ r m', (⟨⟨2, 1, [[], [(1, [7])]]⟩, 1⟩ : HashMultimap ℕ ℕ).delValue
    id id 1 7 = .ok (r, m') ∧ Deletes id {(1, 7)} ⟨⟨2, 1, [[], [(1, [7])]]⟩, 1⟩ m' 1 7 r := by
  have hins : Inserted id (⟨⟨2, 1, [[], [(1, [7])]]⟩, 1⟩ : HashMultimap ℕ ℕ) {(1, 7)} :=
    .insert (fun _ _ => false) 1 7 (.new (m := ⟨⟨2, 0, [[], []]⟩, 0⟩) 1 rfl) (b := true) rfl
      (by decide +kernel)
  obtain ⟨r, m', hdel, hiff⟩ := delValue_deletes_iff hins id 1 7
  exact ⟨r, m', hdel, hiff.mpr (by simp)⟩

/-- Of 7 and 8 the first goes: `getElements` stays, and the array holds what is behind the node. -/
theorem delValue_deletes_not_first : ∃ r m',
    Inserted id (⟨⟨2, 1, [[], [(1, [7, 8])]]⟩, 2⟩ : HashMultimap ℕ ℕ) {(1, 7), (1, 8)} ∧
      (⟨⟨2, 1, [[], [(1, [7, 8])]]⟩, 2⟩ : HashMultimap ℕ ℕ).delValue id (fun _ => 5) 1 7 =
        .ok (r, m') ∧ m'.get id 1 = .ok (some [5]) ∧
      ¬ Deletes id {(1, 7), (1, 8)} ⟨⟨2, 1, [[], [(1, [7, 8])]]⟩, 2⟩ m' 1 7 r := by
  have hfirst : Inserted id (⟨⟨2, 1, [[], [(1, [7])]]⟩, 1⟩ : HashMultimap ℕ ℕ) {(1, 7)} :=
    .insert (fun _ _ => false) 1 7 (.new (m := ⟨⟨2, 0, [[], []]⟩, 0⟩) 1 rfl) (b := true) rfl
      (by decide +kernel)
  refine ⟨true, ⟨⟨2, 1, [[], [(1, [5])]]⟩, 2⟩, ?_, rfl, rfl, fun h => ?_⟩
  · exact .insert (fun _ _ => false) 1 8 hfirst (b := true) rfl (by decide +kernel)
  · exact absurd h.elements (by decide)

end

inductive CountOp (K V : Type) where
  | insert (k : K) (v : V) (load : ℕ → ℕ → Bool)
  | set (k : K) (v : List V) (load : ℕ → ℕ → Bool)
  | del (k : K)

def countStep (posHash : K → ℕ) (m : HashMultimap K V) :
    CountOp K V → Except Fault (HashMultimap K V)
  | .insert k v load => do
      let (_, m) ← m.insert posHash load k v
      .ok m
  | .set k v load => do
      let (_, m) ← m.set posHash load k v
      .ok m
  | .del k => do
      let (_, m) ← m.del posHash k
      .ok m

/-- An array that is set has distinct values, at least one. -/
def CountOp.Sized : CountOp K V → Prop
  | .set _ v _ => v ≠ [] ∧ v.Nodup
  | _ => True

def SetsNew (posHash : K → ℕ) (m : HashMultimap K V) : CountOp K V → Prop
  | .set k _ _ => m.exists_ posHash k = .ok false
  | _ => True

/-- A step from a right count leads to a right one exactly if it sets no key that is there. -/
theorem countStep_count (h : Sound posHash m) {o : CountOp K V} (ho : o.Sized)
    (hstep : countStep posHash m o = .ok m') (hmem : InMemory m') :
    Usual posHash m'.table ∧ (m'.getElements = valueCount m'.table ↔ SetsNew posHash m o) := by
  have hlen := h.usual.length_le
  have hval := h.memory.2
  have hval' := hmem.2
  have hcount := h.count
  rw [getElements]
  cases o with
  | insert k v load =>
    obtain ⟨⟨b, m₁⟩, hins, hstep⟩ := ok_of_bind hstep
    obtain rfl := Except.ok.inj hstep
    obtain ⟨gain, hcounts⟩ := insert_counts h.usual (by omega) (by omega) hins
    have hsound := hcounts.sound hcount hmem
    exact ⟨hsound.usual, iff_of_true hsound.count trivial⟩
  | set k v load =>
    obtain ⟨⟨b, m₁⟩, hset, hstep⟩ := ok_of_bind hstep
    obtain rfl := Except.ok.inj hstep
    obtain ⟨husual, hel, hnew⟩ := set_counts h.usual (by omega) ho.1 hset
    have hint := h.usual.sizeAt_lt k
    refine ⟨husual hmem.1, ?_⟩
    rw [SetsNew, h.usual.existsKey_eq]
    omega
  | del k =>
    obtain ⟨⟨b, m₁⟩, hdel, hstep⟩ := ok_of_bind hstep
    obtain rfl := Except.ok.inj hstep
    obtain ⟨husual, hel, hold⟩ := del_counts h.usual (by omega) (by omega) hdel
    have hint := h.usual.sizeAt_lt k
    exact ⟨husual, iff_of_true (by omega) trivial⟩

/-- In a run whose states fit in memory, `getElements` is the sum of the sizes of all arrays in
every state exactly when no step sets a key that is there. -/
theorem elements_counted_iff {size : ℕ} (hnew : new size = .ok m) {os : List (CountOp K V)}
    (hos : ∀ o ∈ os, o.Sized) (hmem : Along (countStep posHash) InMemory m os) :
    Along (countStep posHash) (fun m => m.getElements = valueCount m.table) m os ↔
      Each (countStep posHash) (SetsNew posHash) m os := by
  obtain ⟨hsound, -⟩ := new_sound posHash hnew
  refine along_iff_each (fun m => Usual posHash m.table ∧ InMemory m) _ _ _ ?_ os _
    ⟨hsound.usual, hmem.head⟩ hsound.count (hmem.each hos)
  intro s o s' hs hcount ho hstep
  obtain ⟨husual, hiff⟩ := countStep_count ⟨hs.1, hs.2, hcount⟩ ho.1 hstep (ho.2 s' hstep)
  exact ⟨⟨husual, ho.2 s' hstep⟩, hiff⟩

instance (m : HashMultimap K V) : ∀ o, Decidable (SetsNew posHash m o)
  | .set k _ _ => inferInstanceAs (Decidable (m.exists_ posHash k = .ok false))
  | .insert _ _ _ | .del _ => .isTrue trivial

def countOps : List (CountOp ℕ ℕ) :=
  [.insert 1 7 fun _ _ => false, .insert 1 8 fun _ _ => true, .del 1,
    .set 1 [9, 4] fun _ _ => false, .set 3 [5] fun _ _ => false]

theorem elements_counted_set_after_del :
    (new 1 : Except Fault (HashMultimap ℕ ℕ)) = .ok ⟨⟨2, 0, [[], []]⟩, 0⟩ ∧
      Along (countStep id) (fun m => m.getElements = valueCount m.table)
        (⟨⟨2, 0, [[], []]⟩, 0⟩ : HashMultimap ℕ ℕ) countOps :=
  have hnew : (new 1 : Except Fault (HashMultimap ℕ ℕ)) = .ok ⟨⟨2, 0, [[], []]⟩, 0⟩ := rfl
  ⟨hnew, (elements_counted_iff hnew (by simp [countOps, CountOp.Sized])
    (by decide +kernel)).mpr (by decide +kernel)⟩

/-- A key is set twice, to one value each time: two are counted. -/
theorem elements_counted_not_twice :
    (new 1 : Except Fault (HashMultimap ℕ ℕ)) = .ok ⟨⟨2, 0, [[], []]⟩, 0⟩ ∧
      ¬ Along (countStep id) (fun m => m.getElements = valueCount m.table)
        (⟨⟨2, 0, [[], []]⟩, 0⟩ : HashMultimap ℕ ℕ)
        [.set 1 [7] fun _ _ => false, .set 1 [8] fun _ _ => false] :=
  ⟨rfl, by decide +kernel⟩

end HashMultimap

end Sylar
