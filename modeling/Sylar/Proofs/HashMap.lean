import Sylar.Spec.HashMap
import Sylar.Proofs.HashTable
import Sylar.Lib.Machine
import Mathlib.Data.Finmap

/-! Hash maps refine finite maps. Any number of maps are created, changed, merged and
swapped; each stands for a finite map, and the replies are those of the finite maps. -/

namespace Sylar

open Lib

namespace HashMap

variable {K V : Type} [LinearOrder K] {posHash : K → ℕ} {m oth : HashMap K V}

theorem set_eq (h : m.Inv posHash) (hlen : m.nodes.length + 1 < 2 ^ 31) (load : ℕ → ℕ → Bool)
    (k : K) (v : V) :
    ∃ m', set posHash load m k v = .ok ((Assoc.find m.nodes k).isNone, m') ∧ m'.Inv posHash ∧
      (∀ k', Assoc.find m'.nodes k' = if k = k' then some v else Assoc.find m.nodes k') ∧
      m'.nodes.length ≤ m.nodes.length + 1 := by
  obtain ⟨m₁, hrehash⟩ := Table.rehashIfNeeded_ok h (by omega) load
  obtain ⟨h₁, hperm⟩ := Table.rehashIfNeeded_inv h hrehash
  have hfind : ∀ k, Assoc.find m₁.nodes k = Assoc.find m.nodes k :=
    Assoc.find_perm h₁.keys_nodup hperm
  obtain ⟨m₂, rest, hup, hinv, hold, hnew⟩ :=
    Table.upsert_eq h₁ (by rw [hperm.length_eq]; omega) k fun _ => v
  have hcount : m₂.nodes.length ≤ m.nodes.length + 1 := by
    have hrest := hold.length_eq
    rw [List.length_append, hperm.length_eq] at hrest
    rw [hnew.length_eq, List.length_cons]
    omega
  have h₂ := hinv (Table.small_of_nodes (by omega))
  refine ⟨m₂, ?_, h₂, fun k' => ?_, hcount⟩
  · rw [set, hrehash]
    simp only [bind, Except.bind, hup, hfind]
  · rw [Assoc.find_replace h₁.keys_nodup h₂.keys_nodup hold hnew, hfind]

theorem del_eq (h : m.Inv posHash) (hlen : m.nodes.length < 2 ^ 31) (k : K) :
    ∃ m', del posHash m k = .ok ((Assoc.find m.nodes k).isSome, m') ∧ m'.Inv posHash ∧
      ∀ k', Assoc.find m'.nodes k' = if k = k' then none else Assoc.find m.nodes k' := by
  obtain ⟨m', her, h', hperm⟩ := Table.erase_eq h (by omega) k
  refine ⟨m', ?_, h', Assoc.find_erase h.keys_nodup hperm⟩
  rw [del, her]
  rfl

theorem setAll_eq (load : ℕ → ℕ → Bool) : ∀ (tmp : List (K × V)) (m : HashMap K V),
    (tmp.map Prod.fst).Nodup → m.Inv posHash → m.nodes.length + tmp.length < 2 ^ 31 →
    ∃ m', setAll posHash load m tmp = .ok m' ∧ m'.Inv posHash ∧
      ∀ k, Assoc.find m'.nodes k = (Assoc.find tmp k).or (Assoc.find m.nodes k) := by
  intro tmp
  induction tmp with
  | nil =>
    intro m _ h _
    exact ⟨m, rfl, h, fun k => rfl⟩
  | cons i tmp ih =>
    intro m hnodup h hlen
    rw [List.length_cons] at hlen
    rw [List.map_cons, List.nodup_cons] at hnodup
    obtain ⟨m₁, hset, h₁, hbinds, hcount⟩ := set_eq h (by omega) load i.1 i.2
    obtain ⟨m₂, hall, h₂, hbinds₂⟩ := ih m₁ hnodup.2 h₁ (by omega)
    refine ⟨m₂, ?_, h₂, fun k => ?_⟩
    · rw [setAll, hset]
      simp only [bind, Except.bind, hall]
    · rw [hbinds₂ k, hbinds k, Assoc.find_cons]
      by_cases hk : i.1 = k
      · -- the key does not come again
        have hnone : Assoc.find tmp k = none := by
          rw [Assoc.find_eq_none]
          rintro c hc rfl
          exact hnodup.1 (hk ▸ List.mem_map_of_mem hc)
        rw [if_pos hk, if_pos hk, hnone]
        rfl
      · rw [if_neg hk, if_neg hk]

theorem merge_eq (h : m.Inv posHash) (hoth : oth.Inv posHash)
    (hlen : m.nodes.length + oth.nodes.length < 2 ^ 31) (load : ℕ → ℕ → Bool) :
    ∃ m', merge posHash load m oth = .ok m' ∧ m'.Inv posHash ∧
      ∀ k, Assoc.find m'.nodes k = (Assoc.find oth.nodes k).or (Assoc.find m.nodes k) :=
  setAll_eq load oth.nodes m hoth.keys_nodup h hlen

/-- `load` is the outcome of the load test at the sets of this operation. -/
inductive Op (K V : Type) where
  | create (size : ℕ)
  | get (i : ℕ) (k : K)
  | exists_ (i : ℕ) (k : K)
  | set (i : ℕ) (k : K) (v : V) (load : ℕ → ℕ → Bool)
  | del (i : ℕ) (k : K)
  | getTotal (i : ℕ)
  | rehash (i : ℕ) (load : ℕ → ℕ → Bool)
  | merge (i j : ℕ) (load : ℕ → ℕ → Bool)
  | swap (i j : ℕ)

inductive Reply (V : Type) where
  | done
  | value (v : Option V)
  | flag (b : Bool)
  | number (n : ℕ)
deriving DecidableEq

def at_ {α : Type} (s : List α) (i : ℕ) : Except Fault α :=
  match s[i]? with
  | none => .error .nullDeref
  | some x => .ok x

def op (posHash : K → ℕ) (s : List (HashMap K V)) :
    Op K V → Except Fault (Reply V × List (HashMap K V))
  | .create size => do
      let m ← Table.new size
      .ok (.done, s ++ [m])
  | .get i k => do
      let m ← at_ s i
      let v ← m.get posHash k
      .ok (.value v, s)
  | .exists_ i k => do
      let m ← at_ s i
      let b ← m.exists_ posHash k
      .ok (.flag b, s)
  | .set i k v load => do
      let m ← at_ s i
      let (b, m) ← m.set posHash load k v
      .ok (.flag b, s.set i m)
  | .del i k => do
      let m ← at_ s i
      let (b, m) ← m.del posHash k
      .ok (.flag b, s.set i m)
  | .getTotal i => do
      let m ← at_ s i
      .ok (.number m.getTotal, s)
  | .rehash i load => do
      let m ← at_ s i
      let m ← m.rehash posHash load
      .ok (.done, s.set i m)
  | .merge i j load => do
      let m ← at_ s i
      let oth ← at_ s j
      let m ← m.merge posHash load oth
      .ok (.done, s.set i m)
  | .swap i j => do
      let m ← at_ s i
      let oth ← at_ s j
      let (m, oth) := m.swap oth
      .ok (.done, (s.set i m).set j oth)

/-- A map is created with a positive `uint32_t`, and its `abs` as an `int` is defined. -/
def Constructs : Op K V → Bool
  | .create size => 1 ≤ size && size < 2 ^ 32 && size ≠ 2 ^ 31
  | _ => true

/-- The maps as a machine; an operation that fails leaves them as they are. No map has
`2 ^ 30` keys. -/
def machine (V : Type) (posHash : K → ℕ) :
    Machine (List (HashMap K V)) (Op K V) (Except Fault (Reply V)) where
  step s o :=
    match op posHash s o with
    | .ok (r, s) => (.ok r, s)
    | .error e => (.error e, s)
  ok s o := (∀ m ∈ s, m.getTotal < 2 ^ 30) ∧ Constructs o = true

instance (posHash : K → ℕ) (s : List (HashMap K V)) (o : Op K V) :
    Decidable ((machine V posHash).ok s o) :=
  inferInstanceAs (Decidable ((∀ m ∈ s, m.getTotal < 2 ^ 30) ∧ Constructs o = true))

def finmapOp (s : List (Finmap fun _ : K => V)) :
    Op K V → Except Fault (Reply V × List (Finmap fun _ : K => V))
  | .create _ => .ok (.done, s ++ [∅])
  | .get i k => do
      let f ← at_ s i
      .ok (.value (f.lookup k), s)
  | .exists_ i k => do
      let f ← at_ s i
      .ok (.flag (f.lookup k).isSome, s)
  | .set i k v _ => do
      let f ← at_ s i
      .ok (.flag (f.lookup k).isNone, s.set i (f.insert k v))
  | .del i k => do
      let f ← at_ s i
      .ok (.flag (f.lookup k).isSome, s.set i (f.erase k))
  | .getTotal i => do
      let f ← at_ s i
      .ok (.number f.keys.card, s)
  | .rehash i _ => do
      let _ ← at_ s i
      .ok (.done, s)
  | .merge i j _ => do
      let f ← at_ s i
      let g ← at_ s j
      .ok (.done, s.set i (g ∪ f))
  | .swap i j => do
      let f ← at_ s i
      let g ← at_ s j
      .ok (.done, (s.set i g).set j f)

def finmaps (K V : Type) [LinearOrder K] :
    Machine (List (Finmap fun _ : K => V)) (Op K V) (Except Fault (Reply V)) where
  step s o :=
    match finmapOp s o with
    | .ok (r, s) => (.ok r, s)
    | .error e => (.error e, s)
  ok _ _ := True

/-- `m` is in order and stands for `f`. -/
structure Represents (posHash : K → ℕ) (m : HashMap K V) (f : Finmap fun _ : K => V) : Prop where
  inv : m.Inv posHash
  lookup : ∀ k, Assoc.find m.nodes k = f.lookup k

variable {f g : Finmap fun _ : K => V}

theorem Represents.total (h : Represents posHash m f) : m.getTotal = f.keys.card := by
  have hkeys : f.keys = (m.nodes.map Prod.fst).toFinset := by
    ext k
    rw [Finmap.mem_keys, ← Finmap.lookup_isSome, ← h.lookup, List.mem_toFinset]
    rcases hk : Assoc.find m.nodes k with _ | v
    · have habsent := Assoc.find_eq_none.mp hk
      simp only [Option.isSome_none, Bool.false_eq_true, false_iff, List.mem_map, not_exists]
      exact fun c hc => habsent c hc.1 hc.2
    · simpa using ⟨v, Assoc.mem_of_find hk⟩
  rw [hkeys, List.toFinset_card_of_nodup h.inv.keys_nodup, List.length_map]
  exact h.inv.total

theorem Represents.perm (h : Represents posHash m f) (hinv : oth.Inv posHash)
    (hperm : oth.nodes.Perm m.nodes) : Represents posHash oth f where
  inv := hinv
  lookup k := (Assoc.find_perm hinv.keys_nodup hperm k).trans (h.lookup k)

theorem Represents.insert (h : Represents posHash m f) (hinv : oth.Inv posHash) {k : K} {v : V}
    (hfind : ∀ k', Assoc.find oth.nodes k' = if k = k' then some v else Assoc.find m.nodes k') :
    Represents posHash oth (f.insert k v) where
  inv := hinv
  lookup k' := by
    rw [hfind k', h.lookup k']
    split
    · rename_i heq
      rw [heq, Finmap.lookup_insert]
    · rename_i hne
      rw [Finmap.lookup_insert_of_ne _ (Ne.symm hne)]

theorem Represents.erase (h : Represents posHash m f) (hinv : oth.Inv posHash) {k : K}
    (hfind : ∀ k', Assoc.find oth.nodes k' = if k = k' then none else Assoc.find m.nodes k') :
    Represents posHash oth (f.erase k) where
  inv := hinv
  lookup k' := by
    rw [hfind k', h.lookup k']
    split
    · rename_i heq
      rw [heq, Finmap.lookup_erase]
    · rename_i hne
      rw [Finmap.lookup_erase_ne (Ne.symm hne)]

theorem Represents.union {m' : HashMap K V} (h : Represents posHash m f)
    (hoth : Represents posHash oth g) (hinv : m'.Inv posHash)
    (hfind : ∀ k, Assoc.find m'.nodes k = (Assoc.find oth.nodes k).or (Assoc.find m.nodes k)) :
    Represents posHash m' (g ∪ f) where
  inv := hinv
  lookup k := by
    rw [hfind k, h.lookup k, hoth.lookup k]
    by_cases hk : k ∈ g
    · obtain ⟨v, hv⟩ := Option.isSome_iff_exists.mp (Finmap.lookup_isSome.mpr hk)
      rw [Finmap.lookup_union_left hk, hv]
      rfl
    · rw [Finmap.lookup_union_right hk, Finmap.lookup_eq_none.mpr hk]
      rfl

theorem at_related {α β : Type} {R : α → β → Prop} {s : List α} {t : List β}
    (h : List.Forall₂ R s t) (i : ℕ) :
    (∃ x y, at_ s i = .ok x ∧ at_ t i = .ok y ∧ x ∈ s ∧ R x y) ∨
      (at_ s i = .error .nullDeref ∧ at_ t i = .error .nullDeref) := by
  by_cases hi : i < s.length
  · have hit : i < t.length := by rw [← h.length_eq]; exact hi
    refine .inl ⟨s[i], t[i], ?_, ?_, List.getElem_mem hi, ?_⟩
    · rw [at_, List.getElem?_eq_getElem hi]
    · rw [at_, List.getElem?_eq_getElem hit]
    · exact h.get hi hit
  · have hit : ¬ i < t.length := by rw [← h.length_eq]; exact hi
    refine .inr ⟨?_, ?_⟩
    · rw [at_, List.getElem?_eq_none (not_lt.mp hi)]
    · rw [at_, List.getElem?_eq_none (not_lt.mp hit)]

theorem at_ok {α : Type} {s : List α} {i : ℕ} {x : α} (h : at_ s i = .ok x) :
    ∃ hi : i < s.length, s[i] = x := by
  rw [at_] at h
  split at h
  · exact absurd h (by rintro ⟨⟩)
  · rename_i y hy
    rw [← Except.ok.inj h]
    exact List.getElem?_eq_some_iff.mp hy

theorem set_related {α β : Type} {R : α → β → Prop} {s : List α} {t : List β}
    (h : List.Forall₂ R s t) {x : α} {y : β} (hxy : R x y) (i : ℕ) :
    List.Forall₂ R (s.set i x) (t.set i y) := by
  induction h generalizing i with
  | nil => exact .nil
  | cons hR hrest ih =>
    cases i with
    | zero => exact .cons hxy hrest
    | succ i => exact .cons hR (ih i)

section

variable {s : List (HashMap K V)} {a : List (Finmap fun _ : K => V)}

variable (posHash) in
theorem create_represents {size : ℕ} (h : Constructs (.create size : Op K V) = true) :
    ∃ m : HashMap K V, Table.new size = .ok m ∧ Represents posHash m ∅ := by
  simp only [Constructs, Bool.and_eq_true, decide_eq_true_eq] at h
  have htoInt : toInt size ≠ 0 ∧ toInt size ≠ -2 ^ 31 := by
    unfold toInt
    rw [Int.bmod_def]
    split <;> omega
  obtain ⟨n, hn⟩ := basket_of_pos htoInt.1 htoInt.2
  have hnew : (Table.new size : Except Fault (HashMap K V)) = .ok ⟨n, 0, List.replicate n []⟩ := by
    rw [Table.new, hn]
    rfl
  obtain ⟨hinv, hnodes⟩ := Table.new_eq posHash hnew
  refine ⟨_, hnew, hinv, fun k => ?_⟩
  rw [hnodes, Finmap.lookup_empty]
  rfl

/-- Both fail because there is no such object, or they reply alike and stay related. -/
def Refines (posHash : K → ℕ) (x : Except Fault (Reply V × List (HashMap K V)))
    (y : Except Fault (Reply V × List (Finmap fun _ : K => V))) : Prop :=
  (∃ r s' a', x = .ok (r, s') ∧ y = .ok (r, a') ∧ List.Forall₂ (Represents posHash) s' a') ∨
    (x = .error .nullDeref ∧ y = .error .nullDeref)

theorem refines_at (h : List.Forall₂ (Represents posHash) s a) (i : ℕ)
    {x : HashMap K V → Except Fault (Reply V × List (HashMap K V))}
    {y : (Finmap fun _ : K => V) → Except Fault (Reply V × List (Finmap fun _ : K => V))}
    (hxy : ∀ m f, m ∈ s → at_ a i = .ok f → Represents posHash m f → Refines posHash (x m) (y f)) :
    Refines posHash (at_ s i >>= x) (at_ a i >>= y) := by
  rcases at_related h i with ⟨m, f, hm, hf, hmem, hrep⟩ | ⟨hm, hf⟩
  · rw [hm, hf]
    exact hxy m f hmem hf hrep
  · exact .inr ⟨by rw [hm]; rfl, by rw [hf]; rfl⟩

theorem op_refines (h : List.Forall₂ (Represents posHash) s a) {o : Op K V}
    (hok : (machine V posHash).ok s o) : Refines posHash (op posHash s o) (finmapOp a o) := by
  have hlen : ∀ m ∈ s, ∀ f, Represents posHash m f → m.nodes.length < 2 ^ 30 := by
    intro m hm f hrep
    rw [← hrep.inv.total]
    exact hok.1 m hm
  cases o with
  | create size =>
    obtain ⟨m, hm, hrep⟩ := create_represents posHash hok.2
    refine .inl ⟨.done, s ++ [m], a ++ [∅], ?_, rfl, List.rel_append h (.cons hrep .nil)⟩
    rw [op, hm]
    rfl
  | get i k =>
    refine refines_at h i fun m f hmem hf hrep => .inl ⟨.value (f.lookup k), s, a, ?_, rfl, h⟩
    rw [get, Table.find_eq hrep.inv, hrep.lookup]
    rfl
  | exists_ i k =>
    refine refines_at h i fun m f hmem hf hrep =>
      .inl ⟨.flag (f.lookup k).isSome, s, a, ?_, rfl, h⟩
    rw [exists_, Table.find_eq hrep.inv, hrep.lookup]
    rfl
  | set i k v load =>
    refine refines_at h i fun m f hmem hf hrep => ?_
    have := hlen m hmem f hrep
    obtain ⟨m', hset, hinv, hfind, -⟩ := set_eq hrep.inv (by omega) load k v
    refine .inl ⟨.flag (f.lookup k).isNone, s.set i m', a.set i (f.insert k v), ?_, rfl,
      set_related h (hrep.insert hinv hfind) i⟩
    rw [hset, hrep.lookup]
    rfl
  | del i k =>
    refine refines_at h i fun m f hmem hf hrep => ?_
    have := hlen m hmem f hrep
    obtain ⟨m', hdel, hinv, hfind⟩ := del_eq hrep.inv (by omega) k
    refine .inl ⟨.flag (f.lookup k).isSome, s.set i m', a.set i (f.erase k), ?_, rfl,
      set_related h (hrep.erase hinv hfind) i⟩
    rw [hdel, hrep.lookup]
    rfl
  | getTotal i =>
    refine refines_at h i fun m f hmem hf hrep => .inl ⟨.number f.keys.card, s, a, ?_, rfl, h⟩
    rw [hrep.total]
  | rehash i load =>
    refine refines_at h i fun m f hmem hf hrep => ?_
    have := hlen m hmem f hrep
    obtain ⟨m', hrehash⟩ := Table.rehash_ok hrep.inv (by omega) load
    obtain ⟨hinv, hperm⟩ := Table.rehash_inv hrep.inv hrehash
    have hsame : a.set i f = a := by
      obtain ⟨hi, rfl⟩ := at_ok hf
      exact List.set_getElem_self hi
    refine .inl ⟨.done, s.set i m', a, by rw [hrehash]; rfl, rfl, ?_⟩
    rw [← hsame]
    exact set_related h (hrep.perm hinv hperm) i
  | merge i j load =>
    refine refines_at h i fun m f hmem hf hrep => refines_at h j fun oth g hmem' hg hrep' => ?_
    have := hlen m hmem f hrep
    have := hlen oth hmem' g hrep'
    obtain ⟨m', hmerge, hinv, hfind⟩ := merge_eq hrep.inv hrep'.inv (by omega) load
    refine .inl ⟨.done, s.set i m', a.set i (g ∪ f), by rw [hmerge]; rfl, rfl, ?_⟩
    exact set_related h (hrep.union hrep' hinv hfind) i
  | swap i j =>
    refine refines_at h i fun m f hmem hf hrep => refines_at h j fun oth g hmem' hg hrep' => ?_
    exact .inl ⟨.done, (s.set i oth).set j m, (a.set i g).set j f, rfl, rfl,
      set_related (set_related h hrep' i) hrep j⟩

theorem step_refines (o : Op K V) (h : List.Forall₂ (Represents posHash) s a)
    (hok : (machine V posHash).ok s o) :
    ((machine V posHash).step s o).1 = ((finmaps K V).step a o).1 ∧
      List.Forall₂ (Represents posHash) ((machine V posHash).step s o).2
        ((finmaps K V).step a o).2 := by
  rcases op_refines h hok with ⟨r, s', a', hs, ha, h'⟩ | ⟨hs, ha⟩
  · simpa only [machine, finmaps, hs, ha, true_and] using h'
  · simpa only [machine, finmaps, hs, ha, true_and] using h

end

/-- Every bucket is strictly sorted by key and every key lies in the bucket
`posHash k % m_size`. -/
def Ordered (posHash : K → ℕ) (m : HashMap K V) : Prop :=
  (∀ b ∈ m.m_datas, b.Pairwise fun x y => x.1 < y.1) ∧
    ∀ i b, m.m_datas[i]? = some b → ∀ n ∈ b, posHash n.1 % m.m_size = i

/-- In any run on any number of maps, the replies are those of finite maps, and every
map binds each key as its finite map does, counts its keys and is in order. -/
theorem refines_finite_maps (posHash : K → ℕ) (ops : List (Op K V))
    (h : (machine V posHash).Admissible [] ops) :
    ((machine V posHash).run [] ops).1 = ((finmaps K V).run [] ops).1 ∧
      List.Forall₂ (fun m f => (∀ k, m.get posHash k = .ok (f.lookup k)) ∧
        m.getTotal = f.keys.card ∧ Ordered posHash m)
        ((machine V posHash).run [] ops).2 ((finmaps K V).run [] ops).2 := by
  obtain ⟨hreplies, hpools⟩ := Machine.run_sim (machine V posHash) (finmaps K V)
    (List.Forall₂ (Represents posHash)) (fun s a o => step_refines o) ops [] [] .nil h
  refine ⟨hreplies, hpools.imp fun m f hrep => ⟨fun k => ?_, hrep.total, ?_⟩⟩
  · rw [get, Table.find_eq hrep.inv, hrep.lookup]
  · exact ⟨hrep.inv.bucketed.sorted, hrep.inv.bucketed.placed⟩

/-- Two maps with two buckets each; the keys 1 and 3 share one. -/
def collidingOps : List (Op ℕ ℕ) :=
  [.create 1, .create 1, .set 0 1 10 fun _ _ => false, .set 0 3 30 fun _ _ => true,
    .set 1 3 31 fun _ _ => false, .merge 0 1 fun _ _ => true, .del 0 1, .swap 0 1, .get 1 3]

theorem refines_finite_maps_colliding :
    (machine ℕ id).Admissible [] collidingOps ∧
      ((machine ℕ id).run [] collidingOps).1 = ((finmaps ℕ ℕ).run [] collidingOps).1 :=
  ⟨by decide +kernel, (refines_finite_maps id collidingOps (by decide +kernel)).1⟩

end HashMap

end Sylar
