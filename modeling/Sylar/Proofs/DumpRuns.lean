import Sylar.Proofs.HashMultimap

/-! Dumps of the containers that a run can reach. -/

namespace Sylar

open Lib

open scoped List

namespace HashMap

variable {K V : Type} [LinearOrder K] {posHash : K → ℕ} {rate : ℕ → ℕ} {node : Pod (K × V)}
  {allocates : ℕ → Bool}

/-- What changes a map. `swap` and `readFrom` have the other map, which is swapped in or
whose dump is read. -/
inductive Change (K V : Type) where
  | set (k : K) (v : V) (load : ℕ → ℕ → Bool)
  | del (k : K)
  | rehash (load : ℕ → ℕ → Bool)
  | clear
  | swap (oth : HashMap K V)
  | readFrom (oth : HashMap K V) (s₁ s₂ : ℕ)

def step (posHash : K → ℕ) (rate : ℕ → ℕ) (node : Pod (K × V)) (allocates : ℕ → Bool)
    (m : HashMap K V) : Change K V → Except Fault (HashMap K V)
  | .set k v load => do
      let (_, m) ← m.set posHash load k v
      .ok m
  | .del k => do
      let (_, m) ← m.del posHash k
      .ok m
  | .rehash load => m.rehash posHash load
  | .clear => .ok m.clear
  | .swap oth => .ok (m.swap oth).1
  | .readFrom oth s₁ s₂ => do
      let (_, m, _) ←
        m.readFrom posHash rate node allocates ⟨(oth.writeTo rate node [] s₁).2, true⟩ s₂
      .ok m

theorem merge_eq_run (m oth : HashMap K V) (load : ℕ → ℕ → Bool) :
    m.merge posHash load oth =
      (oth.nodes.map fun i => Change.set i.1 i.2 load).foldlM (step posHash rate node allocates) m := by
  rw [merge]
  generalize oth.nodes = tmp
  induction tmp generalizing m with
  | nil => rfl
  | cons i tmp ih =>
    rw [setAll, List.map_cons, List.foldlM_cons, step]
    rcases set posHash load m i.1 i.2 with e | ⟨b, m'⟩
    · rfl
    · exact ih m'

def Usual (posHash : K → ℕ) (m : HashMap K V) : Prop := m.Inv posHash ∨ m = ⟨0, 0, []⟩

variable (rate) in
theorem Usual.readFrom {oth : HashMap K V} (h : Usual posHash oth)
    (hfits : Fits node allocates oth) (m : HashMap K V) (s₁ s₂ : ℕ) (rest : List UInt8) :
    m.readFrom posHash rate node allocates ⟨(oth.writeTo rate node [] s₁).2 ++ rest, true⟩ s₂ =
        .ok (true, oth.reread posHash, ⟨rest, true⟩) ∧
      Usual posHash (oth.reread posHash) := by
  rcases h with h | rfl
  · exact ⟨readFrom_eq hfits h.size_le (fun h0 => absurd h0 h.size_pos.ne') m s₁ s₂ rest,
      .inl h.reread.1⟩
  · exact ⟨readFrom_eq hfits (Nat.zero_le _) (fun _ => rfl) m s₁ s₂ rest, .inr rfl⟩

theorem Usual.inv_iff {m : HashMap K V} (h : Usual posHash m) : m.Inv posHash ↔ m.m_size ≠ 0 := by
  rcases h with h | rfl
  · exact ⟨fun _ => h.size_pos.ne', fun _ => h⟩
  · exact ⟨fun h => absurd h.size_pos (Nat.lt_irrefl 0), fun h => absurd rfl h⟩

/-- A map that has buckets is read back as it was. One without is read back without, and
no operation works on it. -/
theorem Usual.roundTrips_iff {m : HashMap K V} (h : Usual posHash m) (hfits : Fits node allocates m) :
    RoundTrips posHash rate node allocates m ↔ m.m_size ≠ 0 := by
  constructor
  · intro hm
    obtain ⟨-, y', hread, hsame⟩ := hm m 1 1 []
    rw [(h.readFrom rate hfits m 1 1 []).1] at hread
    obtain rfl := (Prod.mk.inj (Prod.mk.inj (Except.ok.inj hread)).2).1
    exact hsame.inv.size_pos.ne'
  · intro h0
    exact roundTrips rate node hfits (h.inv_iff.mpr h0)

/-- The other map is one that a run can reach and that fits in memory. -/
def Permitted (posHash : K → ℕ) (node : Pod (K × V)) (allocates : ℕ → Bool) : Change K V → Prop
  | .swap oth | .readFrom oth _ _ => Usual posHash oth ∧ Fits node allocates oth
  | _ => True

def KeepsBuckets : Change K V → Prop
  | .clear => False
  | .swap oth | .readFrom oth _ _ => oth.m_size ≠ 0
  | _ => True

omit [LinearOrder K] in
theorem Fits.length_nodes {m : HashMap K V} (h : Fits node allocates m) : m.nodes.length < 2 ^ 63 :=
  Nat.lt_of_le_of_lt (Nat.le_mul_of_pos_right _ node.size_pos) h.2.1

theorem step_usual {m m' : HashMap K V} {o : Change K V} (h : m.Inv posHash)
    (hfits : Fits node allocates m) (ho : Permitted posHash node allocates o)
    (hm : step posHash rate node allocates m o = .ok m') (hfits' : Fits node allocates m') : Usual posHash m' ∧ (m'.m_size ≠ 0 ↔ KeepsBuckets o) := by
  have hlen := hfits.length_nodes
  cases o with
  | set k v load =>
    obtain ⟨⟨b, m₂⟩, hset, hm⟩ := ok_of_bind hm
    obtain rfl := Except.ok.inj hm
    obtain ⟨m₁, hre, hset⟩ := ok_of_bind hset
    obtain ⟨h₁, hperm⟩ := Table.rehashIfNeeded_inv h hre
    obtain ⟨m₃, rest, hup, hinv, -⟩ :=
      Table.upsert_eq h₁ (by rw [hperm.length_eq]; omega) k fun _ => v
    rw [hup] at hset
    obtain rfl := (Prod.mk.inj (Except.ok.inj hset)).2
    have h' := hinv hfits'.1
    exact ⟨.inl h', fun _ => trivial, fun _ => h'.size_pos.ne'⟩
  | del k =>
    obtain ⟨⟨b, m₂⟩, hdel, hm⟩ := ok_of_bind hm
    obtain rfl := Except.ok.inj hm
    obtain ⟨m₁, her, h', -⟩ := Table.erase_eq h (by omega) k
    rw [del, her] at hdel
    obtain rfl := (Prod.mk.inj (Except.ok.inj hdel)).2
    exact ⟨.inl h', fun _ => trivial, fun _ => h'.size_pos.ne'⟩
  | rehash load =>
    have h' := (Table.rehash_inv h hm).1
    exact ⟨.inl h', fun _ => trivial, fun _ => h'.size_pos.ne'⟩
  | clear =>
    obtain rfl := Except.ok.inj hm
    exact ⟨.inr rfl, fun h0 => absurd rfl h0, False.elim⟩
  | swap oth =>
    obtain rfl := Except.ok.inj hm
    exact ⟨ho.1, Iff.rfl⟩
  | readFrom oth s₁ s₂ =>
    obtain ⟨hread, husual⟩ := ho.1.readFrom rate ho.2 m s₁ s₂ []
    rw [List.append_nil] at hread
    rw [step, hread] at hm
    obtain rfl := Except.ok.inj hm
    exact ⟨husual, Iff.rfl⟩

/-- In a run whose states fit in memory, every state is read back from its dump exactly
when every change leaves buckets. -/
theorem runs_round_trip {size : ℕ} {m : HashMap K V} (hnew : Table.new size = .ok m)
    {os : List (Change K V)} (hos : ∀ o ∈ os, Permitted posHash node allocates o)
    (hfits : Along (step posHash rate node allocates) (Fits node allocates) m os) :
    Along (step posHash rate node allocates) (RoundTrips posHash rate node allocates) m os ↔
      Each (step posHash rate node allocates) (fun _ o => KeepsBuckets o) m os := by
  have h := (Table.new_eq posHash hnew).1
  refine along_iff_each (fun m => Usual posHash m ∧ Fits node allocates m) _ _ _ ?_ os m
    ⟨.inl h, hfits.head⟩ (roundTrips rate node hfits.head h) (hfits.each hos)
  intro s o s' hs hround ho hstep
  have hinv := hs.1.inv_iff.mpr ((hs.1.roundTrips_iff hs.2).mp hround)
  obtain ⟨husual, hiff⟩ := step_usual hinv hs.2 ho.1 hstep (ho.2 s' hstep)
  exact ⟨⟨husual, ho.2 s' hstep⟩, (husual.roundTrips_iff (ho.2 s' hstep)).trans hiff⟩

end HashMap

namespace Dict

variable {K V : Type} [LinearOrder K] {posHash : K → ℕ} {F : Format K V}

inductive Change (K V : Type) where
  | insert (k : K) (v : List V) (load : ℕ → ℕ → Bool)
  | del (k : K)
  | rehash (load : ℕ → ℕ → Bool)
  | readFrom (oth : Dict K V) (s₁ s₂ : ℕ)

def step (posHash : K → ℕ) (F : Format K V) (d : Dict K V) : Change K V → Except Fault (Dict K V)
  | .insert k v load => do
      let (_, d) ← d.insert posHash load k v
      .ok d
  | .del k => do
      let (_, d) ← d.del posHash k
      .ok d
  | .rehash load => d.rehash posHash load
  | .readFrom oth s₁ s₂ => do
      let (_, d, _) ← d.readFrom posHash F ⟨(oth.writeTo F [] s₁).2, true⟩ s₂
      .ok d

/-- In order, with arrays whose size is an `int`. -/
structure Usual (posHash : K → ℕ) (d : Dict K V) : Prop where
  inv : d.Inv posHash
  arrays : ArraysFit d

def Permitted (posHash : K → ℕ) (F : Format K V) : Change K V → Prop
  | .readFrom oth _ _ => Usual posHash oth ∧ F.Fits oth
  | _ => True

theorem step_usual {d d' : Dict K V} {o : Change K V} (h : Usual posHash d) (hfits : F.Fits d)
    (ho : Permitted posHash F o) (hd : step posHash F d o = .ok d') (hfits' : F.Fits d') :
    Usual posHash d' := by
  have hlen := hfits.length_nodes
  cases o with
  | insert k v load =>
    obtain ⟨⟨b, d₃⟩, hins, hd⟩ := ok_of_bind hd
    obtain rfl := Except.ok.inj hd
    rw [insert] at hins
    split at hins
    · rw [← (Prod.mk.inj (Except.ok.inj hins)).2]
      exact h
    · obtain ⟨d₁, hre, hins⟩ := ok_of_bind hins
      obtain ⟨v', hv, hins⟩ := ok_of_bind hins
      obtain ⟨h₁, hperm⟩ := Table.rehashIfNeeded_inv h.inv hre
      obtain ⟨d₂, rest, hup, hinv, hold, hnodes⟩ :=
        Table.upsert_eq h₁ (by rw [hperm.length_eq]; omega) k fun _ => v'
      rw [hup] at hins
      obtain rfl := (Prod.mk.inj (Except.ok.inj hins)).2
      refine ⟨hinv hfits'.1, fun n hn => ?_⟩
      rcases List.mem_cons.mp (hnodes.mem_iff.mp hn) with rfl | hn
      · exact (nodeArray_ok hv).2
      · exact h.arrays n (hperm.mem_iff.mp (hold.mem_iff.mpr (List.mem_append_right _ hn)))
  | del k =>
    obtain ⟨⟨b, d₂⟩, hdel, hd⟩ := ok_of_bind hd
    obtain rfl := Except.ok.inj hd
    obtain ⟨d₁, her, h', hold⟩ := Table.erase_eq h.inv (by omega) k
    rw [del, her] at hdel
    obtain rfl := (Prod.mk.inj (Except.ok.inj hdel)).2
    exact ⟨h', fun n hn => h.arrays n (hold.mem_iff.mpr (List.mem_append_right _ hn))⟩
  | rehash load =>
    obtain ⟨h', hperm⟩ := Table.rehash_inv h.inv hd
    exact ⟨h', fun n hn => h.arrays n (hperm.mem_iff.mp hn)⟩
  | readFrom oth s₁ s₂ =>
    have hread := readFrom_eq ho.2 ho.1.arrays ho.1.inv d s₁ s₂ []
    rw [List.append_nil] at hread
    rw [step, hread] at hd
    obtain rfl := Except.ok.inj hd
    obtain ⟨h', hperm⟩ := ho.1.inv.reread
    exact ⟨h', fun n hn => ho.1.arrays n (hperm.mem_iff.mp hn)⟩

/-- In a run whose states fit in memory, every state is read back from its dump. -/
theorem runs_round_trip {size : ℕ} {d : Dict K V} (hnew : Table.new size = .ok d)
    {os : List (Change K V)} (hos : ∀ o ∈ os, Permitted posHash F o)
    (hfits : Along (step posHash F) F.Fits d os) :
    Along (step posHash F) (RoundTrips posHash F) d os := by
  obtain ⟨h, hnodes⟩ := Table.new_eq posHash hnew
  have husual : Usual posHash d := ⟨h, fun n hn => absurd (hnodes ▸ hn) List.not_mem_nil⟩
  have hall : Along (step posHash F) (fun d => Usual posHash d ∧ F.Fits d) d os := by
    refine along_of_each _ _ ?_ os d ⟨husual, hfits.head⟩ (hfits.each hos)
    intro s o s' hs ho hstep
    exact ⟨step_usual hs.1 hs.2 ho.1 hstep (ho.2 s' hstep), ho.2 s' hstep⟩
  exact hall.mono fun x hx => roundTrips hx.2 hx.1.arrays hx.1.inv

end Dict

/-- The containers that a run can reach are read back from their dumps: a `Dict` always, a
`HashMap` as long as every change leaves buckets, and a `HashMultimap` as long as every
change keeps the count of values. -/
theorem dumps_read_back_iff {K V : Type} [LinearOrder K] [LinearOrder V] [Inhabited V]
    (posHash : K → ℕ) (node : Pod (K × V)) (F : Format K V) (size : ℕ) :
    (∀ m os, Table.new size = .ok m → (∀ o ∈ os, HashMap.Permitted posHash node F.allocates o) →
      Along (HashMap.step posHash F.rate node F.allocates) (HashMap.Fits node F.allocates) m os →
      (Along (HashMap.step posHash F.rate node F.allocates)
          (HashMap.RoundTrips posHash F.rate node F.allocates) m os ↔
        Each (HashMap.step posHash F.rate node F.allocates) (fun _ o => HashMap.KeepsBuckets o) m
          os)) ∧
    (∀ d os, Table.new size = .ok d → (∀ o ∈ os, Dict.Permitted posHash F o) →
      Along (Dict.step posHash F) F.Fits d os →
      Along (Dict.step posHash F) (Dict.RoundTrips posHash F) d os) ∧
    (∀ m os, HashMultimap.new size = .ok m → (∀ o ∈ os, HashMultimap.Permitted posHash F o) →
      Along (HashMultimap.step posHash F) (fun m => F.Fits m.table) m os →
      (Along (HashMultimap.step posHash F) (HashMultimap.RoundTrips posHash F) m os ↔
        Each (HashMultimap.step posHash F) (HashMultimap.KeepsCount posHash) m os)) :=
  ⟨fun _ _ hnew hos hfits => HashMap.runs_round_trip hnew hos hfits,
    fun _ _ hnew hos hfits => Dict.runs_round_trip hnew hos hfits,
    fun _ _ hnew hos hfits => HashMultimap.runs_round_trip hnew hos hfits⟩

def bytePod : Pod (Fin 256) where
  size := 1
  size_pos := Nat.one_pos
  enc x := [UInt8.ofNat x]
  dec bs := Fin.ofNat 256 (leNat (bs.take 1))
  length_enc _ := rfl
  dec_enc x := by
    apply Fin.ext
    simp [leNat]

def bytePairPod : Pod (Fin 256 × Fin 256) where
  size := 2
  size_pos := Nat.two_pos
  enc x := bytePod.enc x.1 ++ bytePod.enc x.2
  dec bs := (bytePod.dec bs, bytePod.dec (bs.drop 1))
  length_enc _ := rfl
  dec_enc x := Prod.ext (bytePod.dec_enc x.1) (bytePod.dec_enc x.2)

/-- A node with a byte as key, which is followed by three bytes of padding. -/
def byteNodePod : Pod (Stored (Fin 256)) where
  size := 16
  size_pos := by decide
  enc n := bytePod.enc n.key ++ [0, 0, 0] ++ (leBytes 4 n.size.toNat ++ leBytes 8 n.val.toNat)
  dec bs := ⟨bytePod.dec bs, BitVec.ofNat 32 (leNat ((bs.drop 4).take 4)),
    BitVec.ofNat 64 (leNat (bs.drop 8))⟩
  length_enc n := by simp [bytePod]
  dec_enc n := by
    obtain ⟨key, size, val⟩ := n
    have hkey := bytePod.dec_enc key
    have hsize : BitVec.ofNat 32 (leNat (leBytes 4 size.toNat)) = size := by
      rw [leNat_leBytes, Nat.mod_eq_of_lt (by have := size.isLt; norm_num; omega), BitVec.ofNat_toNat,
        BitVec.setWidth_eq]
    have hval : BitVec.ofNat 64 (leNat (leBytes 8 val.toNat)) = val := by
      rw [leNat_leBytes, Nat.mod_eq_of_lt (by have := val.isLt; norm_num; omega), BitVec.ofNat_toNat,
        BitVec.setWidth_eq]
    exact Stored.mk.injEq .. ▸ ⟨hkey, hsize, hval⟩

def byteFormat : Format (Fin 256) (Fin 256) where
  rate speed := (speed + 99) / 100
  allocates bytes := bytes < 2 ^ 63
  value := bytePod
  node := byteNodePod

instance (node : Pod (Fin 256 × Fin 256)) (allocates : ℕ → Bool) :
    DecidablePred (HashMap.Fits (K := Fin 256) (V := Fin 256) node allocates) := fun x =>
  inferInstanceAs (Decidable ((∀ b ∈ x.m_datas, b.length < 2 ^ 31) ∧
    x.nodes.length * node.size < 2 ^ 63 ∧ allocates (x.nodes.length * node.size) = true ∧
      allocates (24 * x.m_size) = true))

instance (t : Table (Fin 256) (List (Fin 256))) : Decidable t.Small :=
  inferInstanceAs (Decidable (∀ b ∈ t.m_datas, b.length < 2 ^ 31))

instance (F : Format (Fin 256) (Fin 256)) : DecidablePred F.Fits := fun t =>
  decidable_of_iff' _ (F.fits_iff t)

def never : ℕ → ℕ → Bool := fun _ _ => false

def mapChanges : List (HashMap.Change (Fin 256) (Fin 256)) := [.set 3 30 never, .set 1 10 never, .del 3]

def dictChanges : List (Dict.Change (Fin 256) (Fin 256)) :=
  [.insert 3 [30, 31] never, .insert 1 [10] never, .insert 3 [32] never]

def multimapChanges : List (HashMultimap.Change (Fin 256) (Fin 256)) :=
  [.insert 3 30 never, .insertAll 1 [11, 10, 12] never, .insert 3 20 never, .del 1]

theorem dumps_read_back_iff_bytes :
    Along (HashMap.step Fin.val byteFormat.rate bytePairPod byteFormat.allocates)
      (HashMap.RoundTrips Fin.val byteFormat.rate bytePairPod byteFormat.allocates)
      ⟨2, 0, [[], []]⟩ mapChanges ∧
    Along (Dict.step Fin.val byteFormat) (Dict.RoundTrips Fin.val byteFormat) ⟨2, 0, [[], []]⟩
      dictChanges ∧
    Along (HashMultimap.step Fin.val byteFormat) (HashMultimap.RoundTrips Fin.val byteFormat)
      ⟨⟨2, 0, [[], []]⟩, 0⟩ multimapChanges := by
  obtain ⟨hmap, hdict, hmulti⟩ := dumps_read_back_iff Fin.val bytePairPod byteFormat 1
  refine ⟨(hmap _ _ rfl ?_ (by decide +kernel)).mpr ?_, hdict _ _ rfl ?_ (by decide +kernel),
    (hmulti _ _ rfl ?_ (by decide +kernel)).mpr ?_⟩
  · simp [mapChanges, HashMap.Permitted]
  · exact fun _ _ => ⟨trivial, fun _ _ => ⟨trivial, fun _ _ => ⟨trivial, trivial⟩⟩⟩
  · simp [dictChanges, Dict.Permitted]
  · simp [multimapChanges, HashMultimap.Permitted]
  · exact fun _ _ => ⟨trivial, fun _ _ => ⟨trivial, fun _ _ => ⟨trivial, fun _ _ =>
      ⟨trivial, trivial⟩⟩⟩⟩

/-- What is left when the key 1 is set to `[10]` and then to `[20]`. -/
def setTwice : HashMultimap (Fin 256) (Fin 256) := ⟨⟨2, 1, [[], [(1, [20])]]⟩, 2⟩

/-- The multimap counts two values there, and what is read back from its dump counts one. -/
theorem second_set_is_miscounted :
    (HashMultimap.new 1 >>= [.set 1 [10] never, .set 1 [20] never].foldlM
      (HashMultimap.step Fin.val byteFormat)) = .ok setTwice ∧
    setTwice.getElements = 2 ∧
    (setTwice.readFrom Fin.val byteFormat ⟨(setTwice.writeTo byteFormat [] 1).2, true⟩ 1).map
      (fun r => (r.1, r.2.1.getElements)) = .ok (true, 1) ∧
    ¬ HashMultimap.RoundTrips Fin.val byteFormat setTwice := by
  have hread : (setTwice.readFrom Fin.val byteFormat
      ⟨(setTwice.writeTo byteFormat [] 1).2, true⟩ 1).map
      (fun r => (r.1, r.2.1.getElements)) = .ok (true, 1) := by
    decide +kernel
  refine ⟨rfl, rfl, hread, fun h => ?_⟩
  obtain ⟨-, y', hy, -, hel⟩ := h setTwice 1 1 []
  rw [List.append_nil] at hy
  rw [hy] at hread
  have hone : y'.getElements = 1 := (Prod.mk.inj (Except.ok.inj hread)).2
  rw [hone] at hel
  exact absurd hel (by decide)

end Sylar
