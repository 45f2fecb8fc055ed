import Sylar.Proofs.Dump

/-! Changes of a multimap: what each does to the buckets, to the arrays and to the count
of values. -/

namespace Sylar

open Lib

open scoped List

namespace HashMultimap

variable {K V : Type} [LinearOrder K] {posHash : K → ℕ} {F : Format K V}

/-- In order, with arrays that are not empty and whose size is an `int`. -/
structure Usual (posHash : K → ℕ) (t : Table K (List V)) : Prop where
  inv : t.Inv posHash
  arrays : Arrays t

variable {t t' : Table K (List V)}

def sizeAt (t : Table K (List V)) (k : K) : ℕ := (Assoc.find t.nodes k).elim 0 List.length

theorem valueCount_split {k : K} {rest : List (K × List V)}
    (hold : t.nodes ~ (Assoc.find t.nodes k).toList.map (k, ·) ++ rest) :
    valueCount t = sizeAt t k + (rest.map fun n => n.2.length).sum := by
  rw [valueCount, (hold.map _).sum_eq, sizeAt]
  rcases Assoc.find t.nodes k with _ | vals
  · simp
  · simp

theorem Usual.perm (h : Usual posHash t) (hinv : t'.Inv posHash) (hperm : t'.nodes ~ t.nodes) :
    Usual posHash t' ∧ valueCount t' = valueCount t ∧ ∀ k, Assoc.find t'.nodes k = Assoc.find t.nodes k :=
  ⟨⟨hinv, fun n hn => h.arrays n (hperm.mem_iff.mp hn)⟩, (hperm.map _).sum_eq,
    Assoc.find_perm hinv.keys_nodup hperm⟩

theorem store_eq (hinv : t.Inv posHash) (hlen : t.nodes.length + 1 < 2 ^ 64) {k : K}
    {vals : List V} (hst : store posHash t k vals = .ok t') :
    vals.length < 2 ^ 31 ∧ (t'.Small → t'.Inv posHash) ∧ ∃ rest,
      t.nodes ~ (Assoc.find t.nodes k).toList.map (k, ·) ++ rest ∧ t'.nodes ~ (k, vals) :: rest := by
  obtain ⟨vals', hvals, hst⟩ := ok_of_bind hst
  obtain ⟨rfl, hsize⟩ := nodeArray_ok hvals
  obtain ⟨t₁, rest, hup, hinv', hold, hnew⟩ := Table.upsert_eq hinv hlen k fun _ => vals
  rw [hup] at hst
  obtain rfl := Except.ok.inj hst
  exact ⟨hsize, hinv', rest, hold, hnew⟩

theorem store_spec (h : Usual posHash t) (hlen : t.nodes.length + 1 < 2 ^ 64) {k : K}
    {vals : List V} (hne : 0 < vals.length) (hst : store posHash t k vals = .ok t') :
    (t'.Small → Usual posHash t') ∧ valueCount t' + sizeAt t k = valueCount t + vals.length := by
  obtain ⟨hsize, hinv, rest, hold, hnew⟩ := store_eq h.inv hlen hst
  constructor
  · intro hsmall
    refine ⟨hinv hsmall, fun n hn => ?_⟩
    rcases List.mem_cons.mp (hnew.mem_iff.mp hn) with rfl | hn
    · exact ⟨hne, hsize⟩
    · exact h.arrays n (hold.mem_iff.mpr (List.mem_append_right _ hn))
  · have hcount : valueCount t' = vals.length + (rest.map fun n => n.2.length).sum := by
      rw [valueCount, (hnew.map _).sum_eq, List.map_cons, List.sum_cons]
    rw [hcount, valueCount_split hold]
    omega

theorem rehash_store_spec (h : Usual posHash t) (hlen : t.nodes.length + 1 < 2 ^ 64)
    {load : ℕ → ℕ → Bool} {t₁ : Table K (List V)} (hre : t.rehashIfNeeded posHash load = .ok t₁)
    {k : K} {vals : List V} (hne : 0 < vals.length) (hst : store posHash t₁ k vals = .ok t') :
    (t'.Small → Usual posHash t') ∧ valueCount t' + sizeAt t k = valueCount t + vals.length := by
  obtain ⟨hinv, hperm⟩ := Table.rehashIfNeeded_inv h.inv hre
  obtain ⟨h₁, hcount, hfind⟩ := h.perm hinv hperm
  obtain ⟨husual, hcount'⟩ := store_spec h₁ (by rw [hperm.length_eq]; exact hlen) hne hst
  refine ⟨husual, ?_⟩
  rw [sizeAt, hfind, ← sizeAt, hcount] at hcount'
  exact hcount'

theorem erase_spec (h : Usual posHash t) (hlen : t.nodes.length < 2 ^ 64) (k : K) :
    ∃ t', t.erase posHash k = .ok (Assoc.find t.nodes k, t') ∧ Usual posHash t' ∧
      valueCount t' + sizeAt t k = valueCount t := by
  obtain ⟨t', her, hinv, hold⟩ := Table.erase_eq h.inv hlen k
  refine ⟨t', her, ⟨hinv, fun n hn => ?_⟩, ?_⟩
  · exact h.arrays n (hold.mem_iff.mpr (List.mem_append_right _ hn))
  · rw [valueCount_split hold, valueCount]
    omega

/-- `behind` is the memory behind the node at a `del(k, v)`. -/
inductive Change (K V : Type) where
  | insert (k : K) (v : V) (load : ℕ → ℕ → Bool)
  | insertAll (k : K) (v : List V) (load : ℕ → ℕ → Bool)
  | set (k : K) (v : List V) (load : ℕ → ℕ → Bool)
  | del (k : K)
  | delValue (k : K) (v : V) (behind : ℕ → V)
  | wforeach (cb : K → List V → Bool × List V)
  | rehash (load : ℕ → ℕ → Bool)
  | readFrom (oth : HashMultimap K V) (s₁ s₂ : ℕ)

section

variable [LinearOrder V] [Inhabited V]

def step (posHash : K → ℕ) (F : Format K V) (m : HashMultimap K V) :
    Change K V → Except Fault (HashMultimap K V)
  | .insert k v load => do
      let (_, m) ← m.insert posHash load k v
      .ok m
  | .insertAll k v load => do
      let (_, m) ← m.insertAll posHash load k v
      .ok m
  | .set k v load => do
      let (_, m) ← m.set posHash load k v
      .ok m
  | .del k => do
      let (_, m) ← m.del posHash k
      .ok m
  | .delValue k v behind => do
      let (_, m) ← m.delValue posHash behind k v
      .ok m
  | .wforeach cb => .ok (m.wforeach cb)
  | .rehash load => m.rehash posHash load
  | .readFrom oth s₁ s₂ => do
      let (_, m, _) ← m.readFrom posHash F ⟨(oth.writeTo F [] s₁).2, true⟩ s₂
      .ok m

/-- No key is given an empty array. -/
def Permitted (posHash : K → ℕ) (F : Format K V) : Change K V → Prop
  | .insertAll _ v _ | .set _ v _ => v ≠ []
  | .readFrom oth _ _ => Usual posHash oth.table ∧ F.Fits oth.table
  | _ => True

/-- The change keeps the count of values: it sets no key that is there, and takes no
value from an array of several. -/
def KeepsCount (posHash : K → ℕ) (m : HashMultimap K V) : Change K V → Prop
  | .set k _ _ => m.exists_ posHash k = .ok false
  | .delValue k v _ => m.existsValue posHash k v = .ok true →
      ∃ vals, m.get posHash k = .ok (some vals) ∧ vals.length = 1
  | _ => True

variable {m m' : HashMultimap K V}

omit [Inhabited V] in
theorem length_sortValues (vals : List V) : (sortValues vals).length = vals.length :=
  (List.perm_insertionSort _ vals).length_eq

omit [Inhabited V] in
theorem length_absorb (v : List V) : ∀ acc : List V × List V,
    (v.foldl absorb acc).1.length = acc.1.length := by
  induction v with
  | nil => intro acc; rfl
  | cons x v ih =>
    intro acc
    rw [List.foldl_cons, ih, absorb]
    split
    · rfl
    · exact List.length_set

omit [LinearOrder V] [Inhabited V] in
theorem Usual.sizeAt_of_find (h : Usual posHash t) {k : K} {vals : List V}
    (hk : Assoc.find t.nodes k = some vals) :
    sizeAt t k = vals.length ∧ 0 < vals.length ∧ vals.length < 2 ^ 31 := by
  refine ⟨?_, h.arrays _ (Assoc.mem_of_find hk)⟩
  rw [sizeAt, hk]
  rfl

omit [LinearOrder V] [Inhabited V] in
/-- The node an insertion finds, after it may have changed the size of the table. -/
theorem Usual.find_rehashed (h : Usual posHash t) {load : ℕ → ℕ → Bool}
    (hre : t.rehashIfNeeded posHash load = .ok t') {k : K} {old : Option (List V)}
    (hold : t'.find posHash k = .ok old) : Assoc.find t.nodes k = old := by
  obtain ⟨hinv, hperm⟩ := Table.rehashIfNeeded_inv h.inv hre
  rw [Table.find_eq hinv, (h.perm hinv hperm).2.2 k] at hold
  exact Except.ok.inj hold

/-- The change leaves the multimap in order, and `gain` is added to the count and to the
number of values. -/
def Counts (posHash : K → ℕ) (m m' : HashMultimap K V) (gain : ℕ) : Prop :=
  (m'.table.Small → Usual posHash m'.table) ∧
    m'.m_elements = (m.m_elements + gain) % 2 ^ 64 ∧
    valueCount m'.table = valueCount m.table + gain

omit [Inhabited V] in
theorem insert_stores (h : Usual posHash m.table) {load : ℕ → ℕ → Bool} {k : K} {v : V} {b : Bool}
    (hm : m.insert posHash load k v = .ok (b, m')) :
    ∃ t vals, m.table.rehashIfNeeded posHash load = .ok t ∧
      store posHash t k vals = .ok m'.table ∧
      (Assoc.find m.table.nodes k = none ∧ vals = [v] ∧
          m'.m_elements = (m.m_elements + 1) % 2 ^ 64 ∨
        ∃ old, Assoc.find m.table.nodes k = some old ∧
          ((∃ i, searchValue old v = some i ∧ vals = old.set i v ∧ m'.m_elements = m.m_elements) ∨
            searchValue old v = none ∧ vals = sortLast (fun a b => decide (a < b)) (old ++ [v]) ∧
              m'.m_elements = (m.m_elements + 1) % 2 ^ 64)) := by
  obtain ⟨t, hre, hm⟩ := ok_of_bind hm
  obtain ⟨old, hold, hm⟩ := ok_of_bind hm
  have hk := h.find_rehashed hre hold
  cases old with
  | none =>
    obtain ⟨t', hst, hm⟩ := ok_of_bind hm
    obtain rfl := (Prod.mk.inj (Except.ok.inj hm)).2
    exact ⟨t, _, hre, hst, .inl ⟨hk, rfl, rfl⟩⟩
  | some old =>
    dsimp only at hm
    split at hm
    · next i hs =>
      obtain ⟨t', hst, hm⟩ := ok_of_bind hm
      obtain rfl := (Prod.mk.inj (Except.ok.inj hm)).2
      exact ⟨t, _, hre, hst, .inr ⟨old, hk, .inl ⟨i, hs, rfl, rfl⟩⟩⟩
    · next hs =>
      obtain ⟨t', hst, hm⟩ := ok_of_bind hm
      obtain rfl := (Prod.mk.inj (Except.ok.inj hm)).2
      exact ⟨t, _, hre, hst, .inr ⟨old, hk, .inr ⟨hs, rfl, rfl⟩⟩⟩

omit [Inhabited V] in
theorem insertAll_stores (h : Usual posHash m.table) {load : ℕ → ℕ → Bool} {k : K} {v : List V}
    {b : Bool} (hm : m.insertAll posHash load k v = .ok (b, m')) :
    ∃ t vals, m.table.rehashIfNeeded posHash load = .ok t ∧
      store posHash t k vals = .ok m'.table ∧
      (Assoc.find m.table.nodes k = none ∧ vals = sortValues v ∧
          m'.m_elements = (m.m_elements + v.length) % 2 ^ 64 ∨
        ∃ old, Assoc.find m.table.nodes k = some old ∧
          vals = sortValues ((v.foldl absorb (old, [])).1 ++ (v.foldl absorb (old, [])).2) ∧
          m'.m_elements = (m.m_elements + (v.foldl absorb (old, [])).2.length) % 2 ^ 64) := by
  obtain ⟨t, hre, hm⟩ := ok_of_bind hm
  obtain ⟨old, hold, hm⟩ := ok_of_bind hm
  have hk := h.find_rehashed hre hold
  cases old with
  | none =>
    obtain ⟨t', hst, hm⟩ := ok_of_bind hm
    obtain rfl := (Prod.mk.inj (Except.ok.inj hm)).2
    exact ⟨t, _, hre, hst, .inl ⟨hk, rfl, rfl⟩⟩
  | some old =>
    dsimp only at hm
    rcases hfold : v.foldl absorb (old, []) with ⟨vals, news⟩
    rw [hfold] at hm
    obtain ⟨t', hst, hm⟩ := ok_of_bind hm
    obtain rfl := (Prod.mk.inj (Except.ok.inj hm)).2
    refine ⟨t, _, hre, hst, .inr ⟨old, hk, ?_⟩⟩
    rw [hfold]
    exact ⟨rfl, rfl⟩

omit [Inhabited V] in
theorem insert_counts (h : Usual posHash m.table) (hlen : m.table.nodes.length + 1 < 2 ^ 64)
    (hel : m.m_elements < 2 ^ 64) {load : ℕ → ℕ → Bool} {k : K} {v : V} {b : Bool}
    (hm : m.insert posHash load k v = .ok (b, m')) : ∃ gain, Counts posHash m m' gain := by
  obtain ⟨t, vals, hre, hst, ⟨hk, rfl, hels⟩ | ⟨old, hk, hfound⟩⟩ := insert_stores h hm
  · obtain ⟨husual, hcount⟩ := rehash_store_spec h hlen hre (by simp) hst
    rw [sizeAt, hk] at hcount
    exact ⟨1, husual, hels, hcount⟩
  · obtain ⟨hsize, hpos, -⟩ := h.sizeAt_of_find hk
    rcases hfound with ⟨i, -, hvals, hels⟩ | ⟨-, hvals, hels⟩
    · rw [hvals] at hst
      have hsame : (old.set i v).length = old.length := List.length_set
      obtain ⟨husual, hcount⟩ := rehash_store_spec h hlen hre (by omega) hst
      exact ⟨0, husual, hels.trans (Nat.mod_eq_of_lt hel).symm, by omega⟩
    · -- the value is new
      rw [hvals] at hst
      have hnew := (sortLast_perm (fun a b => decide (a < b)) (old ++ [v])).length_eq
      rw [List.length_append, List.length_singleton] at hnew
      obtain ⟨husual, hcount⟩ := rehash_store_spec h hlen hre (by omega) hst
      exact ⟨1, husual, hels, by omega⟩

omit [Inhabited V] in
theorem insertAll_counts (h : Usual posHash m.table) (hlen : m.table.nodes.length + 1 < 2 ^ 64)
    {load : ℕ → ℕ → Bool} {k : K} {v : List V} (hv : v ≠ []) {b : Bool}
    (hm : m.insertAll posHash load k v = .ok (b, m')) : ∃ gain, Counts posHash m m' gain := by
  have hvpos : 0 < v.length := List.length_pos_iff.mpr hv
  obtain ⟨t, vals, hre, hst, ⟨hk, rfl, hels⟩ | ⟨old, hk, rfl, hels⟩⟩ := insertAll_stores h hm
  · obtain ⟨husual, hcount⟩ := rehash_store_spec h hlen hre (by rw [length_sortValues]; exact hvpos) hst
    rw [sizeAt, hk, length_sortValues] at hcount
    exact ⟨v.length, husual, hels, hcount⟩
  · obtain ⟨hsize, hpos, -⟩ := h.sizeAt_of_find hk
    have hsame := length_absorb v (old, [])
    have hnew := length_sortValues ((v.foldl absorb (old, [])).1 ++ (v.foldl absorb (old, [])).2)
    rw [List.length_append, hsame] at hnew
    dsimp only at hnew
    obtain ⟨husual, hcount⟩ := rehash_store_spec h hlen hre (by omega) hst
    exact ⟨_, husual, hels, by omega⟩

omit [Inhabited V] in
theorem set_counts (h : Usual posHash m.table) (hlen : m.table.nodes.length + 1 < 2 ^ 64)
    {load : ℕ → ℕ → Bool} {k : K} {v : List V} (hv : v ≠ []) {b : Bool}
    (hm : m.set posHash load k v = .ok (b, m')) :
    (m'.table.Small → Usual posHash m'.table) ∧
      m'.m_elements = (m.m_elements + v.length) % 2 ^ 64 ∧
      valueCount m'.table + sizeAt m.table k = valueCount m.table + v.length := by
  have hvpos : 0 < v.length := List.length_pos_iff.mpr hv
  obtain ⟨t, hre, hm⟩ := ok_of_bind hm
  obtain ⟨t', hst, hm⟩ := ok_of_bind hm
  obtain rfl := (Prod.mk.inj (Except.ok.inj hm)).2
  obtain ⟨husual, hcount⟩ := rehash_store_spec h hlen hre (by rw [length_sortValues]; exact hvpos) hst
  rw [length_sortValues] at hcount
  exact ⟨husual, rfl, hcount⟩

omit [LinearOrder V] [Inhabited V] in
theorem del_counts (h : Usual posHash m.table) (hlen : m.table.nodes.length < 2 ^ 64)
    (hel : m.m_elements < 2 ^ 64) {k : K} {b : Bool} (hm : m.del posHash k = .ok (b, m')) :
    Usual posHash m'.table ∧
      m'.m_elements = (m.m_elements + (2 ^ 64 - sizeAt m.table k)) % 2 ^ 64 ∧
      valueCount m'.table + sizeAt m.table k = valueCount m.table := by
  obtain ⟨t', her, husual, hcount⟩ := erase_spec h hlen k
  obtain ⟨⟨old, t⟩, her', hm⟩ := ok_of_bind hm
  obtain ⟨rfl, rfl⟩ := Prod.mk.inj (Except.ok.inj (her.symm.trans her'))
  rcases hk : Assoc.find m.table.nodes k with _ | vals
  · rw [hk] at hm
    obtain rfl := (Prod.mk.inj (Except.ok.inj hm)).2
    have hzero : sizeAt m.table k = 0 := by
      rw [sizeAt, hk]
      rfl
    rw [hzero]
    exact ⟨h, by omega, rfl⟩
  · obtain ⟨hsize, -, -⟩ := h.sizeAt_of_find hk
    rw [hk] at hm
    obtain rfl := (Prod.mk.inj (Except.ok.inj hm)).2
    rw [hsize] at hcount ⊢
    exact ⟨husual, rfl, hcount⟩

omit [Inhabited V] in
theorem searchValue_lt {vals : List V} {v : V} {i : ℕ} (h : searchValue vals v = some i) :
    i < vals.length := by
  unfold searchValue binarySearch at h
  dsimp only at h
  split at h
  · exact absurd h (by rintro ⟨⟩)
  · rename_i x hx
    split at h
    · exact absurd h (by rintro ⟨⟩)
    · obtain rfl := Option.some.inj h
      exact (List.getElem?_eq_some_iff.mp hx).1

omit [Inhabited V] in
theorem existsValue_eq {k : K} {v : V} {old : Option (List V)}
    (hold : m.table.find posHash k = .ok old) :
    m.existsValue posHash k v = .ok (old.elim false fun vals => (searchValue vals v).isSome) := by
  rw [existsValue, hold]
  cases old with
  | none => rfl
  | some vals => rfl

/-- `del(k, v)` counts the value only where it was the last of its key. -/
theorem delValue_counts (h : Usual posHash m.table) (hlen : m.table.nodes.length + 1 < 2 ^ 64)
    {behind : ℕ → V} {k : K} {v : V} {b : Bool}
    (hm : m.delValue posHash behind k v = .ok (b, m')) :
    (m'.table.Small → Usual posHash m'.table) ∧
      ((m' = m ∧ m.existsValue posHash k v = .ok false) ∨
        (m.existsValue posHash k v = .ok true ∧
          valueCount m'.table + 1 = valueCount m.table ∧
          ∃ vals, m.get posHash k = .ok (some vals) ∧
            (vals.length = 1 ∧ m'.m_elements = (m.m_elements + (2 ^ 64 - 1)) % 2 ^ 64 ∨
              vals.length ≠ 1 ∧ m'.m_elements = m.m_elements))) := by
  obtain ⟨old, hold, hm⟩ := ok_of_bind hm
  have hk : Assoc.find m.table.nodes k = old := by
    rw [Table.find_eq h.inv] at hold
    exact Except.ok.inj hold
  have hexists := existsValue_eq (v := v) hold
  cases old with
  | none =>
    obtain rfl := (Prod.mk.inj (Except.ok.inj hm)).2
    exact ⟨fun _ => h, .inl ⟨rfl, hexists⟩⟩
  | some vals =>
    obtain ⟨hsize, hpos, hint⟩ := h.sizeAt_of_find hk
    dsimp only [Option.elim] at hm hexists
    rcases hv : searchValue vals v with _ | i
    · rw [hv] at hm hexists
      obtain rfl := (Prod.mk.inj (Except.ok.inj hm)).2
      exact ⟨fun _ => h, .inl ⟨rfl, hexists⟩⟩
    · rw [hv] at hm hexists
      have hi := searchValue_lt hv
      dsimp only at hm
      by_cases h1 : vals.length = 1
      · rw [if_pos h1] at hm
        obtain ⟨t', her, husual, hcount⟩ := erase_spec h (by omega) k
        rw [her] at hm
        obtain rfl := (Prod.mk.inj (Except.ok.inj hm)).2
        exact ⟨fun _ => husual, .inr ⟨hexists, by dsimp only; omega, vals, hold, .inl ⟨h1, rfl⟩⟩⟩
      · rw [if_neg h1] at hm
        obtain ⟨t', hst, hm⟩ := ok_of_bind hm
        obtain rfl := (Prod.mk.inj (Except.ok.inj hm)).2
        -- whatever was copied, one value fewer is left
        have hleft : ∀ datas : List V, datas.length = vals.length - 1 →
            ((List.range (vals.length - i - 1)).map behind ++
              (vals.take i ++ datas.drop i).drop ((List.range (vals.length - i - 1)).map behind).length).length =
              vals.length - 1 := by
          intro datas hdatas
          simp only [List.length_append, List.length_map, List.length_range, List.length_drop,
            List.length_take]
          omega
        have hlen' := hleft (List.replicate (vals.length - 1) default) List.length_replicate
        obtain ⟨husual, hcount⟩ := store_spec h hlen (by omega) hst
        exact ⟨husual, .inr ⟨hexists, by dsimp only; omega, vals, hold, .inr ⟨h1, rfl⟩⟩⟩

/-- What a callback cannot change: the key and the size. -/
def shape (n : K × List V) : K × ℕ := (n.1, n.2.length)

omit [LinearOrder K] [LinearOrder V] [Inhabited V] in
theorem shape_visit (cb : K → List V → Bool × List V) (b : List (K × List V)) : ∀ go,
    (visit cb go b).2.map shape = b.map shape := by
  induction b with
  | nil => intro go; cases go <;> rfl
  | cons n b ih =>
    intro go
    cases go with
    | false => rfl
    | true =>
      rw [visit]
      dsimp only
      rw [List.map_cons, ih, List.map_cons]
      congr 1
      rw [shape, shape]
      congr 1
      simp only [List.length_append, List.length_take, List.length_drop]
      omega

omit [LinearOrder K] [LinearOrder V] [Inhabited V] in
theorem shape_visitAll (cb : K → List V → Bool × List V) (bs : List (List (K × List V))) : ∀ go,
    (visitAll cb go bs).map (·.map shape) = bs.map (·.map shape) := by
  induction bs with
  | nil => intro go; rfl
  | cons b bs ih =>
    intro go
    rw [visitAll]
    dsimp only
    rw [List.map_cons, ih, shape_visit, List.map_cons]

omit [LinearOrder V] [Inhabited V] in
theorem wforeach_counts (h : Usual posHash m.table) (cb : K → List V → Bool × List V) :
    Usual posHash (m.wforeach cb).table ∧ (m.wforeach cb).m_elements = m.m_elements ∧
      valueCount (m.wforeach cb).table = valueCount m.table := by
  have hshape := shape_visitAll cb m.table.m_datas true
  have hnodes : (m.wforeach cb).table.nodes.map shape = m.table.nodes.map shape := by
    rw [Table.nodes, Table.nodes, List.map_flatten, List.map_flatten]
    exact congrArg List.flatten hshape
  have hkeys : (m.wforeach cb).table.m_datas.map (·.map Prod.fst) =
      m.table.m_datas.map (·.map Prod.fst) := by
    have hfst := congrArg (List.map (List.map Prod.fst)) hshape
    simp only [List.map_map, Function.comp_def, shape] at hfst
    exact hfst
  refine ⟨⟨⟨h.inv.size, ?_, h.inv.bucketed.of_keys hkeys, ?_⟩, fun n hn => ?_⟩, rfl, ?_⟩
  · have hlen := congrArg List.length hkeys
    rw [List.length_map, List.length_map] at hlen
    exact hlen.trans h.inv.count
  · exact h.inv.total.trans (by simpa using (congrArg List.length hnodes).symm)
  · have hmem : shape n ∈ m.table.nodes.map shape := by
      rw [← hnodes]
      exact List.mem_map_of_mem hn
    obtain ⟨n', hn', heq⟩ := List.mem_map.mp hmem
    have hsize : n'.2.length = n.2.length := congrArg Prod.snd heq
    rw [← hsize]
    exact h.arrays n' hn'
  · have hsum := congrArg (fun l => (l.map Prod.snd).sum) hnodes
    simp only [List.map_map, Function.comp_def, shape] at hsum
    exact hsum

omit [LinearOrder V] [Inhabited V] in
theorem Usual.sizeAt_lt (h : Usual posHash t) (k : K) : sizeAt t k < 2 ^ 31 := by
  rcases hk : Assoc.find t.nodes k with _ | vals
  · rw [sizeAt, hk]
    exact Nat.two_pow_pos 31
  · obtain ⟨hsize, -, hint⟩ := h.sizeAt_of_find hk
    rw [hsize]
    exact hint

omit [LinearOrder V] [Inhabited V] in
theorem Usual.existsKey_eq (h : Usual posHash m.table) (k : K) :
    m.exists_ posHash k = .ok false ↔ sizeAt m.table k = 0 := by
  rw [exists_, Table.find_eq h.inv]
  rcases hk : Assoc.find m.table.nodes k with _ | vals
  · simp [bind, Except.bind, sizeAt, hk]
  · obtain ⟨hsize, hpos, -⟩ := h.sizeAt_of_find hk
    simp only [bind, Except.bind, Option.isSome_some, hsize]
    constructor
    · rintro ⟨⟩
    · omega

/-- One change of a multimap whose count is right: the count is right again exactly when
the change keeps it. -/
theorem step_counts (h : Usual posHash m.table) (hfits : F.Fits m.table)
    (hcount : m.m_elements = valueCount m.table) {o : Change K V} (ho : Permitted posHash F o)
    (hm : step posHash F m o = .ok m') (hfits' : F.Fits m'.table) :
    Usual posHash m'.table ∧ (m'.m_elements = valueCount m'.table ↔ KeepsCount posHash m o) := by
  have hlen := hfits.length_nodes
  have hsmall := hfits'.1
  have hvalues := hfits.length_values
  have hvalues' := hfits'.length_values
  rw [← valueCount_eq] at hvalues hvalues'
  have hel : m.m_elements < 2 ^ 64 := by omega
  cases o with
  | insert k v load =>
    obtain ⟨⟨b, m₁⟩, hins, hm⟩ := ok_of_bind hm
    obtain rfl := Except.ok.inj hm
    obtain ⟨gain, husual, hel', hval⟩ := insert_counts h (by omega) hel hins
    exact ⟨husual hsmall, fun _ => trivial, fun _ => by omega⟩
  | insertAll k v load =>
    obtain ⟨⟨b, m₁⟩, hins, hm⟩ := ok_of_bind hm
    obtain rfl := Except.ok.inj hm
    obtain ⟨gain, husual, hel', hval⟩ := insertAll_counts h (by omega) ho hins
    exact ⟨husual hsmall, fun _ => trivial, fun _ => by omega⟩
  | set k v load =>
    obtain ⟨⟨b, m₁⟩, hset, hm⟩ := ok_of_bind hm
    obtain rfl := Except.ok.inj hm
    obtain ⟨husual, hel', hval⟩ := set_counts h (by omega) ho hset
    have hint := h.sizeAt_lt k
    refine ⟨husual hsmall, ?_⟩
    rw [KeepsCount, h.existsKey_eq]
    omega
  | del k =>
    obtain ⟨⟨b, m₁⟩, hdel, hm⟩ := ok_of_bind hm
    obtain rfl := Except.ok.inj hm
    obtain ⟨husual, hel', hval⟩ := del_counts h (by omega) hel hdel
    exact ⟨husual, fun _ => trivial, fun _ => by omega⟩
  | delValue k v behind =>
    obtain ⟨⟨b, m₁⟩, hdel, hm⟩ := ok_of_bind hm
    obtain rfl := Except.ok.inj hm
    obtain ⟨husual, ⟨rfl, hno⟩ | ⟨hyes, hval, vals, hget, hcase⟩⟩ := delValue_counts h (by omega) hdel
    · refine ⟨h, fun _ hyes => ?_, fun _ => hcount⟩
      rw [hno] at hyes
      exact absurd hyes (by rintro ⟨⟩)
    · refine ⟨husual hsmall, fun hright _ => ⟨vals, hget, ?_⟩, fun hkeeps => ?_⟩
      · rcases hcase with ⟨h1, -⟩ | ⟨-, hel'⟩
        · exact h1
        · omega
      · obtain ⟨vals', hget', h1⟩ := hkeeps hyes
        obtain rfl := Option.some.inj (Except.ok.inj (hget.symm.trans hget'))
        rcases hcase with ⟨-, hel'⟩ | ⟨hne, -⟩
        · omega
        · exact absurd h1 hne
  | wforeach cb =>
    obtain rfl := Except.ok.inj hm
    obtain ⟨husual, hel', hval⟩ := wforeach_counts h cb
    exact ⟨husual, fun _ => trivial, fun _ => by rw [hel', hval, hcount]⟩
  | rehash load =>
    obtain ⟨t, hre, hm⟩ := ok_of_bind hm
    obtain rfl := Except.ok.inj hm
    obtain ⟨hinv, hperm⟩ := Table.rehash_inv h.inv hre
    obtain ⟨husual, hval, -⟩ := h.perm hinv hperm
    exact ⟨husual, fun _ => trivial, fun _ => hcount.trans hval.symm⟩
  | readFrom oth s₁ s₂ =>
    have hread := readFrom_eq ho.2 ho.1.arrays ho.1.inv m s₁ s₂ []
    rw [List.append_nil] at hread
    rw [step, hread] at hm
    obtain rfl := Except.ok.inj hm
    obtain ⟨hinv, hperm⟩ := ho.1.inv.reread
    obtain ⟨husual, hval, -⟩ := ho.1.perm hinv hperm
    exact ⟨husual, fun _ => trivial, fun _ => hval.symm⟩

/-- In a run whose states fit in memory, every state is read back from its dump exactly
when every change keeps the count of values. -/
theorem runs_round_trip {size : ℕ} {m : HashMultimap K V} (hnew : new size = .ok m)
    {os : List (Change K V)} (hos : ∀ o ∈ os, Permitted posHash F o)
    (hfits : Along (step posHash F) (fun m => F.Fits m.table) m os) :
    Along (step posHash F) (RoundTrips posHash F) m os ↔
      Each (step posHash F) (KeepsCount posHash) m os := by
  obtain ⟨t, ht, hm⟩ := ok_of_bind hnew
  obtain rfl := Except.ok.inj hm
  obtain ⟨h, hnodes⟩ := Table.new_eq posHash ht
  have husual : Usual posHash t := ⟨h, fun n hn => absurd (hnodes ▸ hn) List.not_mem_nil⟩
  have hcount : 0 = valueCount t := by
    rw [valueCount, hnodes]
    rfl
  refine along_iff_each (fun m => Usual posHash m.table ∧ F.Fits m.table) _ _ _ ?_ os _
    ⟨husual, hfits.head⟩ ((roundTrips_iff hfits.head husual.arrays h).mpr hcount) (hfits.each hos)
  intro s o s' hs hround ho hstep
  have hright := (roundTrips_iff hs.2 hs.1.arrays hs.1.inv).mp hround
  have hfits' := ho.2 s' hstep
  obtain ⟨husual', hiff⟩ := step_counts hs.1 hs.2 hright ho.1 hstep hfits'
  exact ⟨⟨husual', hfits'⟩, (roundTrips_iff hfits' husual'.arrays husual'.inv).trans hiff⟩

end

end HashMultimap

end Sylar
