import Sylar.Proofs.HashMapClear

/-! `HashMap::wforeach`. The loop variable is a copy of the node, so the map stays as it is
whatever the callback writes. -/

namespace Sylar

open Lib

namespace HashMap

variable {K V : Type} [LinearOrder K] {posHash : K → ℕ} {m : HashMap K V}

/-- The maps that a program can come by; none has `2 ^ 30` keys. -/
inductive Reachable (posHash : K → ℕ) : HashMap K V → Prop
  | new {m : HashMap K V} (size : ℕ) : Table.new size = .ok m → Reachable posHash m
  | set {m m' : HashMap K V} {b : Bool} (load : ℕ → ℕ → Bool) (k : K) (v : V) :
      Reachable posHash m → m.nodes.length < 2 ^ 30 → m.set posHash load k v = .ok (b, m') →
        Reachable posHash m'
  | del {m m' : HashMap K V} {b : Bool} (k : K) : Reachable posHash m →
      m.nodes.length < 2 ^ 30 → m.del posHash k = .ok (b, m') → Reachable posHash m'
  | rehash {m m' : HashMap K V} (load : ℕ → ℕ → Bool) : Reachable posHash m →
      m.rehash posHash load = .ok m' → Reachable posHash m'
  | merge {m oth m' : HashMap K V} (load : ℕ → ℕ → Bool) : Reachable posHash m →
      Reachable posHash oth → m.nodes.length + oth.nodes.length < 2 ^ 30 →
        m.merge posHash load oth = .ok m' → Reachable posHash m'
  | clear {m : HashMap K V} : Reachable posHash m → Reachable posHash m.clear

theorem Reachable.inv (h : Reachable posHash m) : m.Inv posHash ∨ m = ⟨0, 0, []⟩ := by
  induction h with
  | new size hnew => exact .inl (Table.new_eq posHash hnew).1
  | @set m m' b load k v hm hlen hset ih =>
    rcases ih with h | rfl
    · obtain ⟨m₁, hset₁, h₁, -⟩ := set_eq h (by omega) load k v
      rw [hset] at hset₁
      obtain ⟨-, rfl⟩ := Prod.mk.inj (Except.ok.inj hset₁)
      exact .inl h₁
    · rw [set_cleared] at hset
      cases hset
  | @del m m' b k hm hlen hdel ih =>
    rcases ih with h | rfl
    · obtain ⟨m₁, hdel₁, h₁, -⟩ := del_eq h (by omega) k
      rw [hdel] at hdel₁
      obtain ⟨-, rfl⟩ := Prod.mk.inj (Except.ok.inj hdel₁)
      exact .inl h₁
    · rw [HashMap.del, Table.erase, bucketOf_cleared] at hdel
      cases hdel
  | rehash load hm hrehash ih =>
    rcases ih with h | rfl
    · exact .inl (Table.rehash_inv h hrehash).1
    · exact .inr (Except.ok.inj hrehash).symm
  | @merge m oth m' load hm hoth hlen hmerge ih ihoth =>
    rcases ih with h | rfl
    · rcases ihoth with h' | rfl
      · obtain ⟨m₁, hmerge₁, h₁, -⟩ := merge_eq h h' (by omega) load
        rw [hmerge] at hmerge₁
        rw [Except.ok.inj hmerge₁]
        exact .inl h₁
      · rw [← Except.ok.inj hmerge]
        exact .inl h
    · -- a cleared map takes nothing in
      rw [HashMap.merge] at hmerge
      cases hnodes : oth.nodes with
      | nil =>
        rw [hnodes] at hmerge
        exact .inr (Except.ok.inj hmerge).symm
      | cons n ns =>
        rw [hnodes, setAll, set_cleared] at hmerge
        cases hmerge
  | clear _ _ => exact .inr rfl

variable {S : Type}

omit [LinearOrder K] in
theorem visitCopies_append (cb : S → K → V → S × Bool) (a b : List (K × V)) : ∀ s,
    visitCopies cb s (a ++ b) =
      if (visitCopies cb s a).2 then visitCopies cb (visitCopies cb s a).1 b
      else visitCopies cb s a := by
  induction a with
  | nil => exact fun s => rfl
  | cons n a ih =>
    intro s
    rw [List.cons_append, visitCopies, visitCopies]
    cases hgo : (cb s n.1 n.2).2 with
    | true =>
      simp only [hgo, if_true]
      exact ih _
    | false => simp [hgo]

omit [LinearOrder K] in
theorem visitBuckets_eq (cb : S → K → V → S × Bool) (datas : List (List (K × V))) : ∀ s,
    visitBuckets cb datas.length s datas = .ok (visitCopies cb s datas.flatten).1 := by
  induction datas with
  | nil => exact fun s => rfl
  | cons b datas ih =>
    intro s
    rw [List.length_cons, visitBuckets, List.flatten_cons, visitCopies_append]
    cases hgo : (visitCopies cb s b).2 with
    | true =>
      simp only [hgo, if_true]
      exact ih _
    | false => simp [hgo]

theorem Reachable.count (h : Reachable posHash m) : m.m_datas.length = m.m_size := by
  rcases h.inv with h | rfl
  · exact h.count
  · rfl

theorem wforeach_eq (h : Reachable posHash m) (cb : S → K → V → S × Bool × V) (s : S) :
    wforeach cb s m =
      .ok ((visitCopies (fun s k v => ((cb s k v).1, (cb s k v).2.1)) s m.nodes).1, m) := by
  rw [wforeach, ← h.count, visitBuckets_eq]
  rfl

/-- The keys that `cb` is called with, up to the first `false`, and what it leaves in its
`V&`. -/
def left (cb : S → K → V → S × Bool × V) : S → List (K × V) → List (K × V)
  | _, [] => []
  | s, n :: ns =>
      (n.1, (cb s n.1 n.2).2.2) ::
        if (cb s n.1 n.2).2.1 then left cb (cb s n.1 n.2).1 ns else []

/-- Each call of `cb`, up to the first `false`, leaves the value that it gets. -/
def KeepsValues (cb : S → K → V → S × Bool × V) : S → List (K × V) → Prop
  | _, [] => True
  | s, n :: ns =>
      (cb s n.1 n.2).2.2 = n.2 ∧
        ((cb s n.1 n.2).2.1 = true → KeepsValues cb (cb s n.1 n.2).1 ns)

def noting (cb : S → K → V → S × Bool × V) (s : S × List (K × V)) (k : K) (v : V) :
    (S × List (K × V)) × Bool × V :=
  (((cb s.1 k v).1, s.2 ++ [(k, (cb s.1 k v).2.2)]), (cb s.1 k v).2)

omit [LinearOrder K] in
theorem visitCopies_noting (cb : S → K → V → S × Bool × V) (ns : List (K × V)) : ∀ s noted,
    ((visitCopies (fun s k v => ((noting cb s k v).1, (noting cb s k v).2.1)) (s, noted) ns).1).2 =
      noted ++ left cb s ns := by
  induction ns with
  | nil => simp [visitCopies, left]
  | cons n ns ih =>
    intro s noted
    rw [visitCopies, left]
    cases hgo : (cb s n.1 n.2).2.1 with
    | true =>
      have hrest := ih (cb s n.1 n.2).1 (noted ++ [(n.1, (cb s n.1 n.2).2.2)])
      simpa [noting, hgo] using hrest
    | false => simp [noting, hgo]

theorem wforeach_noting (h : Reachable posHash m) (cb : S → K → V → S × Bool × V) (s : S) :
    ∃ s', wforeach (noting cb) (s, []) m = .ok ((s', left cb s m.nodes), m) := by
  rw [wforeach_eq h]
  refine ⟨_, congrArg (fun t => Except.ok (t, m)) (Prod.ext rfl ?_)⟩
  exact visitCopies_noting cb m.nodes s []

/-- What a callback should have done to the map. -/
structure Wrote (posHash : K → ℕ) (cb : S → K → V → S × Bool × V) (s : S) (m m' : HashMap K V) :
    Prop where
  visited : ∀ k v, (k, v) ∈ left cb s m.nodes → m'.get posHash k = .ok (some v)
  others : ∀ k, (∀ v, (k, v) ∉ left cb s m.nodes) → m'.get posHash k = m.get posHash k
  total : m'.getTotal = m.getTotal
  order : m'.m_datas.map (List.map Prod.fst) = m.m_datas.map (List.map Prod.fst)

/-- Where no key comes twice, the values left are those of the nodes exactly if each call keeps
its value. -/
theorem keepsValues_iff (cb : S → K → V → S × Bool × V) {l : List (K × V)}
    (hl : (l.map Prod.fst).Nodup) (ns : List (K × V)) : ∀ s, ns ⊆ l →
      (KeepsValues cb s ns ↔ ∀ k v, (k, v) ∈ left cb s ns → Assoc.find l k = some v) := by
  induction ns with
  | nil => exact fun s _ => iff_of_true trivial fun k v hkv => absurd hkv List.not_mem_nil
  | cons n ns ih =>
    intro s hsub
    obtain ⟨hn, hns⟩ := List.cons_subset.mp hsub
    have hfind : Assoc.find l n.1 = some n.2 := Assoc.find_of_mem hl hn
    rw [KeepsValues, left]
    cases hgo : (cb s n.1 n.2).2.1 with
    | true =>
      rw [if_pos rfl, ih _ hns]
      constructor
      · rintro ⟨hv, hrest⟩ k v hkv
        rcases List.mem_cons.mp hkv with heq | hkv
        · obtain ⟨rfl, rfl⟩ := Prod.mk.inj heq
          rw [hv, hfind]
        · exact hrest rfl k v hkv
      · intro hall
        refine ⟨?_, fun _ k v hkv => hall k v (List.mem_cons_of_mem _ hkv)⟩
        have hhead := hall _ _ List.mem_cons_self
        rw [hfind] at hhead
        exact (Option.some.inj hhead).symm
    | false =>
      constructor
      · rintro ⟨hv, -⟩ k v hkv
        rcases List.mem_cons.mp hkv with heq | hkv
        · obtain ⟨rfl, rfl⟩ := Prod.mk.inj heq
          rw [hv, hfind]
        · exact absurd hkv List.not_mem_nil
      · intro hall
        have hhead := hall _ _ List.mem_cons_self
        rw [hfind] at hhead
        exact ⟨(Option.some.inj hhead).symm, fun h => absurd h Bool.false_ne_true⟩

/-- After `wforeach` the values that `cb` left are there exactly if it left every value as it
was. -/
theorem wforeach_wrote_iff (h : Reachable posHash m) (cb : S → K → V → S × Bool × V) (s : S) :
    ∃ s' m', wforeach cb s m = .ok (s', m') ∧
      (Wrote posHash cb s m m' ↔ KeepsValues cb s m.nodes) := by
  refine ⟨_, m, wforeach_eq h cb s, ?_⟩
  rcases h.inv with hinv | rfl
  · rw [keepsValues_iff cb hinv.keys_nodup m.nodes s (List.Subset.refl _)]
    have hget : ∀ k v, m.get posHash k = .ok (some v) ↔ Assoc.find m.nodes k = some v := by
      intro k v
      rw [get, Table.find_eq hinv]
      exact ⟨Except.ok.inj, congrArg _⟩
    constructor
    · exact fun hw k v hkv => (hget k v).mp (hw.visited k v hkv)
    · exact fun hk => ⟨fun k v hkv => (hget k v).mpr (hk k v hkv), fun _ _ => rfl, rfl, rfl⟩
  · exact iff_of_true ⟨fun k v hkv => absurd hkv List.not_mem_nil, fun _ _ => rfl, rfl, rfl⟩ trivial

def single : HashMap ℕ ℕ := ⟨2, 1, [[], [(1, 10)]]⟩

theorem single_reachable : Reachable id single :=
  .set (fun _ _ => false) 1 10 (.new (m := ⟨2, 0, [[], []]⟩) 1 rfl) (by decide)
    (b := true) rfl

/-- A callback that only looks. -/
theorem wforeach_wrote_looking : ∃ s' m', wforeach (fun (n : ℕ) _ v => (n + v, true, v)) 0 single =
    .ok (s', m') ∧ Wrote id (fun (n : ℕ) _ v => (n + v, true, v)) 0 single m' := by
  obtain ⟨s', m', heq, hiff⟩ :=
    wforeach_wrote_iff single_reachable (fun (n : ℕ) _ v => (n + v, true, v)) 0
  exact ⟨s', m', heq, hiff.mpr ⟨rfl, fun _ => trivial⟩⟩

/-- A callback that doubles every value; `get` still finds the old one. -/
theorem wforeach_wrote_not_doubling : ∃ s' m', Reachable id single ∧
    wforeach (fun (_ : Unit) _ v => ((), true, 2 * v)) () single = .ok (s', m') ∧
      ¬ Wrote id (fun (_ : Unit) _ v => ((), true, 2 * v)) () single m' := by
  refine ⟨(), single, single_reachable, rfl, fun h => ?_⟩
  have hget := h.visited 1 20 List.mem_cons_self
  exact absurd hget (by decide)

end HashMap

end Sylar
