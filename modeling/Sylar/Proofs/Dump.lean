import Sylar.Spec.HashMap
import Sylar.Spec.HashMultimap
import Sylar.Proofs.HashTable
import Sylar.Proofs.Stream

/-! Dumps of the containers. What `writeTo` writes at any speed, `readFrom` reads at any
speed, into any container: a node's array comes back from the offset it was written with,
and the nodes are dealt out to as many buckets as before. -/

namespace Sylar

open Lib

open scoped List

namespace Table

variable {K P : Type} [LinearOrder K] {posHash : K → ℕ}

omit [LinearOrder K] in
theorem readSize_eq (y : Table K P) {size : ℕ} (hsize : size < 2 ^ 64) (rest : List UInt8) :
    y.readSize ⟨leBytes 8 size ++ rest, true⟩ =
      (true, { y with m_size := size, m_datas := [] }, ⟨rest, true⟩) := by
  obtain ⟨hread, hnat⟩ := readField_eq hsize rest
  have hdrop : (leBytes 8 y.m_size).drop (leBytes 8 size).length = [] := by
    apply List.drop_eq_nil_of_le
    rw [length_leBytes, length_leBytes]
  rw [readSize, hread]
  dsimp only
  rw [hdrop, List.append_nil, hnat]

def reread (posHash : K → ℕ) (x : Table K P) : Table K P where
  m_size := x.m_size
  m_total := x.nodes.length
  m_datas := distribute posHash x.m_size x.nodes

theorem rebuild_eq {allocates : ℕ → Bool} (x y : Table K P) (hsize : y.m_size = x.m_size)
    (halloc : allocates (24 * x.m_size) = true) (hbuckets : x.m_size = 0 → x.nodes = []) :
    y.rebuild posHash allocates x.nodes.length (.ok x.nodes) = .ok (true, x.reread posHash) := by
  have hzero : ¬ (x.m_size = 0 ∧ x.nodes.length ≠ 0) := by
    rintro ⟨h0, hne⟩
    rw [hbuckets h0] at hne
    exact hne rfl
  rw [rebuild, hsize, halloc, if_pos rfl]
  simp only [bind, Except.bind, if_neg hzero]
  rfl

theorem Inv.size_le {x : Table K P} (h : Inv posHash x) : x.m_size ≤ 2 ^ 30 := by
  obtain ⟨j, hj, hsize⟩ := h.size
  rw [hsize]
  exact Nat.pow_le_pow_right (by omega) hj

/-- What is read back is in order, has the nodes of `x` and so binds each key as `x` does. -/
theorem Inv.reread {x : Table K P} (h : Inv posHash x) :
    Inv posHash (x.reread posHash) ∧ (x.reread posHash).nodes ~ x.nodes := by
  obtain ⟨hb, hcount, hperm⟩ := distribute_eq posHash h.size_pos h.keys_nodup
  exact ⟨⟨h.size, hcount, hb, hperm.length_eq.symm⟩, hperm⟩

/-- `y` is in order and cannot be told from `x` by looking up keys or by its total. -/
structure Same (posHash : K → ℕ) (x y : Table K P) : Prop where
  inv : Inv posHash y
  find : ∀ k, y.find posHash k = x.find posHash k
  total : y.getTotal = x.getTotal

theorem Inv.same_reread {x : Table K P} (h : Inv posHash x) : Same posHash x (x.reread posHash) := by
  obtain ⟨hinv, hperm⟩ := h.reread
  refine ⟨hinv, fun k => ?_, h.total.symm⟩
  rw [find_eq hinv, find_eq h, Assoc.find_perm hinv.keys_nodup hperm]

end Table

namespace HashMap

variable {K V : Type} [LinearOrder K] {posHash : K → ℕ}

/-- The bytes of all nodes fit in memory, and memory can be had for them and for the buckets. -/
def Fits (node : Pod (K × V)) (allocates : ℕ → Bool) (x : HashMap K V) : Prop :=
  x.Small ∧ x.nodes.length * node.size < 2 ^ 63 ∧ allocates (x.nodes.length * node.size) = true ∧
    allocates (24 * x.m_size) = true

/-- Whatever is written of `x` is read back into any `y`, which is then as `x`. -/
def RoundTrips (posHash : K → ℕ) (rate : ℕ → ℕ) (node : Pod (K × V)) (allocates : ℕ → Bool)
    (x : HashMap K V) : Prop :=
  ∀ (y : HashMap K V) (s₁ s₂ : ℕ) (rest : List UInt8),
    (x.writeTo rate node [] s₁).1 = true ∧
      ∃ y', y.readFrom posHash rate node allocates ⟨(x.writeTo rate node [] s₁).2 ++ rest, true⟩ s₂ =
        .ok (true, y', ⟨rest, true⟩) ∧ x.Same posHash y'

omit [LinearOrder K] in
theorem writeTo_eq (rate : ℕ → ℕ) (node : Pod (K × V)) (x : HashMap K V) (s : ℕ) :
    x.writeTo rate node [] s = (true, leBytes 8 x.m_size ++ blockBytes node x.nodes) := by
  rw [writeTo, writeBlock_eq, List.nil_append]

theorem readFrom_eq {rate : ℕ → ℕ} {node : Pod (K × V)} {allocates : ℕ → Bool} {x : HashMap K V}
    (hfits : Fits node allocates x) (hle : x.m_size ≤ 2 ^ 30) (hbuckets : x.m_size = 0 → x.nodes = []) (y : HashMap K V)
    (s₁ s₂ : ℕ) (rest : List UInt8) :
    y.readFrom posHash rate node allocates ⟨(x.writeTo rate node [] s₁).2 ++ rest, true⟩ s₂ =
      .ok (true, x.reread posHash, ⟨rest, true⟩) := by
  rw [writeTo_eq, readFrom, List.append_assoc, Table.readSize_eq y (by omega)]
  dsimp only
  rw [readBlock_eq rate node x.nodes hfits.2.1 hfits.2.2.1 s₂ rest]
  simp only [Bool.not_true, Bool.false_eq_true, if_false, bind, Except.bind]
  rw [Table.rebuild_eq x { y with m_size := x.m_size, m_datas := [] } rfl hfits.2.2.2 hbuckets]

theorem roundTrips (rate : ℕ → ℕ) (node : Pod (K × V)) {allocates : ℕ → Bool} {x : HashMap K V}
    (hfits : Fits node allocates x) (h : x.Inv posHash) :
    RoundTrips posHash rate node allocates x := by
  intro y s₁ s₂ rest
  refine ⟨by rw [writeTo_eq], x.reread posHash, ?_, h.same_reread⟩
  exact readFrom_eq hfits h.size_le (fun h0 => absurd h0 h.size_pos.ne') y s₁ s₂ rest

end HashMap

namespace Stored

variable {K V : Type}

/-- The nodes as they are written when the first array starts at `offset`. -/
def storedAt : ℕ → List (K × List V) → List (Stored K)
  | _, [] => []
  | offset, n :: ns =>
      ⟨n.1, BitVec.ofNat 32 n.2.length, BitVec.ofNat 64 offset⟩ :: storedAt (offset + n.2.length) ns

theorem length_storedAt (ns : List (K × List V)) : ∀ offset, (storedAt offset ns).length = ns.length := by
  induction ns with
  | nil => intro offset; rfl
  | cons n ns ih =>
    intro offset
    rw [storedAt, List.length_cons, ih, List.length_cons]

theorem foldl_collect (ns : List (K × List V)) : ∀ (vs : List V) (st : List (Stored K)),
    ns.foldl collect (vs, st) = (vs ++ ns.flatMap Prod.snd, st ++ storedAt vs.length ns) := by
  induction ns with
  | nil => intro vs st; simp [storedAt]
  | cons n ns ih =>
    intro vs st
    rw [List.foldl_cons, collect, ih]
    simp [storedAt]

theorem rebase_at (vs : List V) (n : K × List V) (more : List V) (hn : n.2.length < 2 ^ 31)
    (hvs : vs.length < 2 ^ 64) :
    rebase (vs ++ (n.2 ++ more)) ⟨n.1, BitVec.ofNat 32 n.2.length, BitVec.ofNat 64 vs.length⟩ =
      .ok n := by
  have hsize : (BitVec.ofNat 32 n.2.length).toNat = n.2.length := by
    rw [BitVec.toNat_ofNat]
    exact Nat.mod_eq_of_lt (by omega)
  have hval : (BitVec.ofNat 64 vs.length).toNat = vs.length := by
    rw [BitVec.toNat_ofNat]
    exact Nat.mod_eq_of_lt hvs
  have hint : 0 ≤ (BitVec.ofNat 32 n.2.length).toInt := by
    rw [BitVec.toInt_eq_toNat_of_lt (by rw [hsize]; omega)]
    exact Int.natCast_nonneg _
  rw [rebase]
  dsimp only
  rw [hsize, hval, if_pos ⟨hint, by simp⟩, List.drop_left, List.take_left]

theorem mapM_rebase (ns : List (K × List V)) (hns : ∀ n ∈ ns, n.2.length < 2 ^ 31) :
    ∀ vs : List V, (vs ++ ns.flatMap Prod.snd).length < 2 ^ 64 →
      (storedAt vs.length ns).mapM (rebase (vs ++ ns.flatMap Prod.snd)) = .ok ns := by
  induction ns with
  | nil => intro vs _; rfl
  | cons n ns ih =>
    intro vs hlen
    rw [List.forall_mem_cons] at hns
    have hlen' : (vs ++ n.2 ++ ns.flatMap Prod.snd).length < 2 ^ 64 := by
      simpa [List.flatMap_cons] using hlen
    have hvs : vs.length < 2 ^ 64 := by
      simp only [List.length_append] at hlen'
      omega
    have htail := ih hns.2 (vs ++ n.2) hlen'
    rw [List.length_append, List.append_assoc] at htail
    rw [List.flatMap_cons, storedAt, List.mapM_cons, rebase_at vs n _ hns.1 hvs, htail]
    rfl

end Stored

namespace Format

variable {K V : Type} (F : Format K V)

theorem writeArrays_eq (os : List UInt8) (vs : List V) (ns : List (Stored K)) (s : ℕ) :
    F.writeArrays os (vs, ns) s = os ++ (blockBytes F.value vs ++ blockBytes F.node ns) := by
  rw [writeArrays, writeBlock_eq, writeBlock_eq, List.append_assoc]

theorem readArrays_eq {vs : List V} {ns : List (Stored K)}
    (hvs : vs.length * F.value.size < 2 ^ 63)
    (hvsAlloc : F.allocates (vs.length * F.value.size) = true)
    (hns : ns.length * F.node.size < 2 ^ 63)
    (hnsAlloc : F.allocates (ns.length * F.node.size) = true) (s : ℕ) (rest : List UInt8) :
    F.readArrays ⟨blockBytes F.value vs ++ (blockBytes F.node ns ++ rest), true⟩ s =
      .ok (some (vs, ns), ⟨rest, true⟩) := by
  rw [readArrays, readBlock_eq F.rate F.value vs hvs hvsAlloc]
  simp only [bind, Except.bind]
  rw [readBlock_eq F.rate F.node ns hns hnsAlloc]

/-- The bytes of all nodes and of all values fit in memory, and memory can be had for them and for
the buckets. -/
@[mk_iff]
structure Fits (t : Table K (List V)) : Prop where
  small : t.Small
  nodes : t.nodes.length * F.node.size < 2 ^ 63
  values : (t.nodes.flatMap Prod.snd).length * F.value.size < 2 ^ 63
  nodesAlloc : F.allocates (t.nodes.length * F.node.size) = true
  valuesAlloc : F.allocates ((t.nodes.flatMap Prod.snd).length * F.value.size) = true
  bucketsAlloc : F.allocates (24 * t.m_size) = true

theorem Fits.length_values {F : Format K V} {t : Table K (List V)} (h : F.Fits t) :
    (t.nodes.flatMap Prod.snd).length < 2 ^ 63 :=
  Nat.lt_of_le_of_lt (Nat.le_mul_of_pos_right _ F.value.size_pos) h.values

theorem Fits.length_nodes {F : Format K V} {t : Table K (List V)} (h : F.Fits t) :
    t.nodes.length < 2 ^ 63 :=
  Nat.lt_of_le_of_lt (Nat.le_mul_of_pos_right _ F.node.size_pos) h.nodes

/-- The dump of a table whose nodes hold arrays: its size, all values, the nodes. -/
def dump (t : Table K (List V)) : List UInt8 :=
  leBytes 8 t.m_size ++ (blockBytes F.value (t.nodes.flatMap Prod.snd) ++
    blockBytes F.node (Stored.storedAt 0 t.nodes))

theorem readArrays_dump {t : Table K (List V)} (h : F.Fits t) (s : ℕ) (rest : List UInt8) :
    F.readArrays ⟨blockBytes F.value (t.nodes.flatMap Prod.snd) ++
        (blockBytes F.node (Stored.storedAt 0 t.nodes) ++ rest), true⟩ s =
      .ok (some (t.nodes.flatMap Prod.snd, Stored.storedAt 0 t.nodes), ⟨rest, true⟩) :=
  F.readArrays_eq h.values h.valuesAlloc (by rw [Stored.length_storedAt]; exact h.nodes)
    (by rw [Stored.length_storedAt]; exact h.nodesAlloc) s rest

end Format

def ArraysFit {K V : Type} (t : Table K (List V)) : Prop := ∀ n ∈ t.nodes, n.2.length < 2 ^ 31

theorem nodeArray_ok {V : Type} {v w : List V} (h : nodeArray v = .ok w) :
    v = w ∧ w.length < 2 ^ 31 := by
  unfold nodeArray at h
  split at h
  · obtain rfl := Except.ok.inj h
    exact ⟨rfl, by assumption⟩
  · exact absurd h (by rintro ⟨⟩)

theorem rebase_dump {K V : Type} {F : Format K V} {t : Table K (List V)} (h : F.Fits t)
    (ha : ArraysFit t) :
    (Stored.storedAt 0 t.nodes).mapM (Stored.rebase (t.nodes.flatMap Prod.snd)) = .ok t.nodes := by
  have hlen := h.length_values
  exact Stored.mapM_rebase t.nodes ha [] (by rw [List.nil_append]; omega)

namespace Dict

variable {K V : Type} [LinearOrder K] {posHash : K → ℕ} {F : Format K V}

def RoundTrips (posHash : K → ℕ) (F : Format K V) (x : Dict K V) : Prop :=
  ∀ (y : Dict K V) (s₁ s₂ : ℕ) (rest : List UInt8),
    (x.writeTo F [] s₁).1 = true ∧
      ∃ y', y.readFrom posHash F ⟨(x.writeTo F [] s₁).2 ++ rest, true⟩ s₂ =
        .ok (true, y', ⟨rest, true⟩) ∧ x.Same posHash y'

omit [LinearOrder K] in
theorem writeTo_eq (x : Dict K V) (s : ℕ) : x.writeTo F [] s = (true, F.dump x) := by
  rw [writeTo, Stored.foldl_collect, Format.writeArrays_eq, Format.dump]
  rfl

theorem readFrom_eq {x : Dict K V} (hfits : F.Fits x) (ha : ArraysFit x) (h : x.Inv posHash)
    (y : Dict K V) (s₁ s₂ : ℕ) (rest : List UInt8) :
    y.readFrom posHash F ⟨(x.writeTo F [] s₁).2 ++ rest, true⟩ s₂ =
      .ok (true, x.reread posHash, ⟨rest, true⟩) := by
  have hle := h.size_le
  rw [writeTo_eq, Format.dump, readFrom, List.append_assoc, List.append_assoc,
    Table.readSize_eq y (by omega)]
  simp only [Bool.not_true, Bool.false_eq_true, if_false, F.readArrays_dump hfits, bind, Except.bind]
  rw [rebase_dump hfits ha, Stored.length_storedAt,
    Table.rebuild_eq x { y with m_size := x.m_size, m_datas := [] } rfl hfits.bucketsAlloc
      fun h0 => absurd h0 h.size_pos.ne']

theorem roundTrips {x : Dict K V} (hfits : F.Fits x) (ha : ArraysFit x) (h : x.Inv posHash) :
    RoundTrips posHash F x := by
  intro y s₁ s₂ rest
  exact ⟨by rw [writeTo_eq], x.reread posHash, readFrom_eq hfits ha h y s₁ s₂ rest, h.same_reread⟩

end Dict

namespace HashMultimap

variable {K V : Type} [LinearOrder K] {posHash : K → ℕ} {F : Format K V}

def valueCount (t : Table K (List V)) : ℕ := (t.nodes.map fun n => n.2.length).sum

/-- No array is empty, and every array has an `int` size. -/
def Arrays (t : Table K (List V)) : Prop := ∀ n ∈ t.nodes, 0 < n.2.length ∧ n.2.length < 2 ^ 31

def RoundTrips (posHash : K → ℕ) (F : Format K V) (x : HashMultimap K V) : Prop :=
  ∀ (y : HashMultimap K V) (s₁ s₂ : ℕ) (rest : List UInt8),
    (x.writeTo F [] s₁).1 = true ∧
      ∃ y', y.readFrom posHash F ⟨(x.writeTo F [] s₁).2 ++ rest, true⟩ s₂ =
        .ok (true, y', ⟨rest, true⟩) ∧ x.table.Same posHash y'.table ∧
        y'.getElements = x.getElements

omit [LinearOrder K] in
theorem valueCount_eq (t : Table K (List V)) :
    valueCount t = (t.nodes.flatMap Prod.snd).length := by
  rw [valueCount, List.length_flatMap]

omit [LinearOrder K] in
theorem writeTo_eq {x : HashMultimap K V} (ha : Arrays x.table) (s : ℕ) :
    x.writeTo F [] s = (true, F.dump x.table) := by
  have hskip : x.table.nodes.foldl
      (fun acc n => if n.2.length = 0 then acc else Stored.collect acc n) ([], []) =
      x.table.nodes.foldl Stored.collect ([], []) := by
    refine List.foldl_ext _ _ _ fun acc n hn => ?_
    rw [if_neg (ha n hn).1.ne']
  rw [writeTo, hskip, Stored.foldl_collect, Format.writeArrays_eq, Format.dump]
  rfl

omit [LinearOrder K] in
theorem foldl_addSize (ns : List (K × List V)) (hns : ∀ n ∈ ns, n.2.length < 2 ^ 31) :
    ∀ offset e : ℕ, e + (ns.map fun n => n.2.length).sum < 2 ^ 64 →
      (Stored.storedAt offset ns).foldl addSize e = e + (ns.map fun n => n.2.length).sum := by
  induction ns with
  | nil => intro offset e _; rfl
  | cons n ns ih =>
    intro offset e he
    rw [List.forall_mem_cons] at hns
    rw [List.map_cons, List.sum_cons] at he ⊢
    have hadd : addSize e (⟨n.1, BitVec.ofNat 32 n.2.length, BitVec.ofNat 64 offset⟩ : Stored K) =
        e + n.2.length := by
      have hsize : (BitVec.ofNat 32 n.2.length).toNat = n.2.length := by
        rw [BitVec.toNat_ofNat]
        exact Nat.mod_eq_of_lt (by omega)
      rw [addSize]
      dsimp only
      rw [BitVec.toInt_eq_toNat_of_lt (by rw [hsize]; omega), hsize]
      omega
    rw [Stored.storedAt, List.foldl_cons, hadd, ih hns.2 _ _ (by omega)]
    omega

theorem readFrom_eq {x : HashMultimap K V} (hfits : F.Fits x.table) (ha : Arrays x.table)
    (h : x.table.Inv posHash) (y : HashMultimap K V) (s₁ s₂ : ℕ) (rest : List UInt8) :
    y.readFrom posHash F ⟨(x.writeTo F [] s₁).2 ++ rest, true⟩ s₂ =
      .ok (true, ⟨x.table.reread posHash, valueCount x.table⟩, ⟨rest, true⟩) := by
  have hle := h.size_le
  have hlen := hfits.length_values
  have hcount : (Stored.storedAt 0 x.table.nodes).foldl addSize 0 = valueCount x.table := by
    rw [← valueCount_eq] at hlen
    rw [foldl_addSize x.table.nodes (fun n hn => (ha n hn).2) 0 0 (by rw [← valueCount]; omega)]
    exact Nat.zero_add _
  rw [writeTo_eq ha, Format.dump, readFrom, List.append_assoc, List.append_assoc,
    Table.readSize_eq y.table (by omega)]
  simp only [Bool.not_true, Bool.false_eq_true, if_false, F.readArrays_dump hfits, bind, Except.bind]
  rw [rebase_dump hfits fun n hn => (ha n hn).2, Stored.length_storedAt,
    Table.rebuild_eq x.table { y.table with m_size := x.table.m_size, m_datas := [] } rfl
      hfits.bucketsAlloc fun h0 => absurd h0 h.size_pos.ne']
  simp only [if_true, hcount]

/-- The count of values is the one thing that the dump does not carry. -/
theorem roundTrips_iff {x : HashMultimap K V} (hfits : F.Fits x.table) (ha : Arrays x.table)
    (h : x.table.Inv posHash) :
    RoundTrips posHash F x ↔ x.m_elements = valueCount x.table := by
  constructor
  · intro hx
    obtain ⟨-, y', hread, -, hcount⟩ := hx x 1 1 []
    rw [readFrom_eq hfits ha h] at hread
    obtain rfl := (Prod.mk.inj (Prod.mk.inj (Except.ok.inj hread)).2).1
    exact hcount.symm
  · intro hcount y s₁ s₂ rest
    exact ⟨by rw [writeTo_eq ha], _, readFrom_eq hfits ha h y s₁ s₂ rest, h.same_reread,
      hcount.symm⟩

end HashMultimap

end Sylar
