import Sylar.Proofs.ArraySearch
import Sylar.Lib.Partial

/-! Runs of `insert(v)` and `erase(exists(v))` on an `Array`: it is kept strictly sorted and
holds what was inserted and not erased since. -/

namespace Sylar

open Lib

namespace Array

variable {T : Type} [LinearOrder T]

inductive Op (T : Type) where
  | insert (v : T)
  | erase (v : T)

/-- `erase(exists(v))` is called where `exists(v)` is not negative. -/
def step (fresh : ℕ → T) (a : Array T) : Op T → Except Fault (Array T)
  | .insert v => do
      let (_, a) ← a.insert fresh v
      .ok a
  | .erase v => do
      let idx ← a.exists_ v
      if 0 ≤ idx then do
        let (_, a) ← a.erase idx
        .ok a
      else .ok a

def run (fresh : ℕ → T) (ops : List (Op T)) : Except Fault (Array T) :=
  ops.foldlM (step fresh) new

def keep (held : Finset T) : Op T → Finset T
  | .insert v => Insert.insert v held
  | .erase v => held.erase v

/-- The array holds exactly these values, in order. -/
structure Holds (a : Array T) (held : Finset T) : Prop where
  size : a.m_size = a.m_data.length
  sorted : a.m_data.Pairwise (· < ·)
  mem : ∀ v, v ∈ a.m_data ↔ v ∈ held

variable {a : Array T} {held : Finset T}

theorem Holds.toSorted (h : Holds a held) : Sorted less a where
  size := h.size
  sorted := h.sorted.imp fun hxy => decide_eq_false (not_lt.mpr (le_of_lt hxy))

theorem incomp_less {x v : T} : Incomp less x v ↔ x = v := by
  rw [Incomp, less, less, decide_eq_false_iff_not, decide_eq_false_iff_not, not_lt, not_lt]
  exact ⟨fun h => le_antisymm h.2 h.1, fun h => by simp [h]⟩

theorem Holds.exists_eq (h : Holds a held) (v : T) :
    (∃ b c, a.exists_ v = .ok (b.length : ℕ) ∧ a.m_data = b ++ v :: c ∧ v ∈ held) ∨
      a.exists_ v = .ok (-((a.m_data.countP fun x => less x v : ℕ) : ℤ) - 1) ∧ v ∉ held := by
  obtain ⟨r, hr, hfound⟩ := exists_found less_strictWeak h.toSorted v
  rcases hfound with ⟨i, x, rfl, hx, hinc⟩ | ⟨hno, rfl⟩
  · obtain rfl := incomp_less.mp hinc
    obtain ⟨b, c, hdata, rfl⟩ := eq_append_of_getElem? hx
    exact Or.inl ⟨b, c, hr, hdata, (h.mem x).mp (List.mem_of_getElem? hx)⟩
  · exact Or.inr ⟨hr, fun hv => hno v ((h.mem v).mpr hv) (incomp_less.mpr rfl)⟩

/-- `insert(v)` returns `false` where `v` is there, and puts it in its place where it is not. -/
theorem Holds.insert (h : Holds a held) (fresh : ℕ → T) (v : T) :
    ∃ a', a.insert fresh v = .ok (decide (v ∉ held), a') ∧ Holds a' (Insert.insert v held) := by
  obtain ⟨size, data⟩ := a
  obtain rfl : size = data.length := h.size
  rcases h.exists_eq v with ⟨b, c, hr, hdata, hv⟩ | ⟨hr, hv⟩
  · obtain rfl : data = b ++ v :: c := hdata
    refine ⟨_, ?_, Finset.insert_eq_of_mem hv ▸ h⟩
    rw [Array.insert, hr, decide_eq_false (not_not.mpr hv)]
    exact insertFound_present fresh b c v v _
  · set p := data.countP fun x => less x v with hp
    have hlen : (data.take p).length = p := List.length_take_of_le List.countP_le_length
    have habsent := insertFound_absent fresh (data.take p) (data.drop p) v
    rw [List.take_append_drop, hlen] at habsent
    refine ⟨⟨data.length + 1, data.take p ++ v :: data.drop p⟩, ?_, ⟨?_, ?_, fun x => ?_⟩⟩
    · rw [Array.insert, hr, decide_eq_true hv]
      exact habsent
    · simp; omega
    · -- `v` stands between the elements below it and the others
      have hclosed : data.Pairwise fun x y => less y v = true → less x v = true :=
        h.sorted.imp fun hxy hy => decide_eq_true (hxy.trans (of_decide_eq_true hy))
      have hsplit : (data.take p ++ data.drop p).Pairwise (· < ·) := by
        rw [List.take_append_drop]
        exact h.sorted
      rw [List.pairwise_append] at hsplit ⊢
      obtain ⟨htake, hdrop, hcross⟩ := hsplit
      have hbelow : ∀ x ∈ data.take p, x < v := fun x hx =>
        of_decide_eq_true (of_mem_take_countP hclosed hx)
      have habove : ∀ x ∈ data.drop p, v < x := by
        intro x hx
        have hnot : ¬ x < v := fun hxv => not_of_mem_drop_countP hclosed hx (decide_eq_true hxv)
        refine lt_of_le_of_ne (not_lt.mp hnot) ?_
        rintro rfl
        exact hv ((h.mem v).mp (List.mem_of_mem_drop hx))
      refine ⟨htake, List.pairwise_cons.mpr ⟨habove, hdrop⟩, fun x hx y hy => ?_⟩
      rcases List.mem_cons.mp hy with rfl | hy
      · exact hbelow x hx
      · exact hcross x hx y hy
    · have hmem := h.mem x
      rw [← List.take_append_drop p data, List.mem_append] at hmem
      rw [Finset.mem_insert, ← hmem, List.mem_append, List.mem_cons]
      tauto

theorem step_erase_present {fresh : ℕ → T} {v : T} {idx : ℤ} {b : Bool} {a' : Array T}
    (hidx : a.exists_ v = .ok idx) (h0 : 0 ≤ idx) (herase : a.erase idx = .ok (b, a')) :
    step fresh a (.erase v) = .ok a' := by
  rw [step, hidx]
  change (ite (0 ≤ idx) _ _ : Except Fault (Array T)) = _
  rw [if_pos h0, herase]
  rfl

theorem step_erase_absent {fresh : ℕ → T} {v : T} {idx : ℤ} (hidx : a.exists_ v = .ok idx)
    (h0 : ¬ 0 ≤ idx) : step fresh a (.erase v) = .ok a := by
  rw [step, hidx]
  change (ite (0 ≤ idx) _ _ : Except Fault (Array T)) = _
  rw [if_neg h0]

theorem Holds.erase (h : Holds a held) (fresh : ℕ → T) (v : T) :
    ∃ a', step fresh a (.erase v) = .ok a' ∧ Holds a' (held.erase v) := by
  obtain ⟨size, data⟩ := a
  obtain rfl : size = data.length := h.size
  rcases h.exists_eq v with ⟨b, c, hr, hdata, hv⟩ | ⟨hr, hv⟩
  · obtain rfl : data = b ++ v :: c := hdata
    have hsub : (b ++ c).Sublist (b ++ v :: c) := by simp
    refine ⟨⟨(b ++ c).length, b ++ c⟩, ?_, ⟨rfl, h.sorted.sublist hsub, fun x => ?_⟩⟩
    · exact step_erase_present hr (by omega) (erase_eq b c v)
    · have hnodup : (b ++ v :: c).Nodup := h.sorted.imp ne_of_lt
      rw [Finset.mem_erase, ← h.mem x]
      have hnot : v ∉ b ++ c := (List.nodup_middle.mp hnodup).notMem
      rw [List.mem_append, List.mem_append, List.mem_cons]
      rw [List.mem_append] at hnot
      constructor
      · intro hx
        refine ⟨?_, by tauto⟩
        rintro rfl
        exact hnot hx
      · rintro ⟨hne, hx⟩
        tauto
  · exact ⟨_, step_erase_absent hr (by omega), by rw [Finset.erase_eq_of_notMem hv]; exact h⟩

theorem Holds.step (h : Holds a held) (fresh : ℕ → T) (op : Op T) :
    ∃ a', Array.step fresh a op = .ok a' ∧ Holds a' (keep held op) := by
  cases op with
  | insert v =>
    obtain ⟨a', hins, h'⟩ := h.insert fresh v
    refine ⟨a', ?_, h'⟩
    rw [Array.step, hins]
    rfl
  | erase v => exact h.erase fresh v

theorem Holds.run (fresh : ℕ → T) (ops : List (Op T)) : ∀ {a : Array T} {held : Finset T},
    Holds a held → ∃ a', ops.foldlM (Array.step fresh) a = .ok a' ∧
      Holds a' (ops.foldl keep held) := by
  induction ops with
  | nil => exact fun h => ⟨_, rfl, h⟩
  | cons op ops ih =>
    intro a held h
    obtain ⟨a₁, hstep, h₁⟩ := h.step fresh op
    obtain ⟨a₂, hrun, h₂⟩ := ih h₁
    refine ⟨a₂, ?_, h₂⟩
    rw [List.foldlM_cons, hstep]
    exact hrun

theorem holds_new : Holds (new : Array T) ∅ where
  size := rfl
  sorted := List.Pairwise.nil
  mem := fun v => iff_of_false List.not_mem_nil (Finset.notMem_empty v)

/-- `BinarySearch` returns what `exists` does, where its sums of bounds are still an `int`. -/
theorem binarySearch_eq_exists (h : Holds a held) (hlen : a.m_data.length ≤ 2 ^ 30) (v : T) :
    Util.binarySearch a.m_data a.m_data.length v = a.exists_ v := by
  have hhalf : ∀ first last : ℤ, 0 ≤ first → first ≤ last → last < a.m_data.length →
      Util.middle first last = middle first last := by
    intro first last h0 hle hlast
    rw [Util.middle, if_pos (by omega), middle]
  rw [Util.binarySearch, exists_, h.size]
  rw [searchLoop_half hhalf _ _ _ (Int.le_refl 0) (by omega)]

/-- After every run the array is strictly sorted and holds the values inserted and not erased
since; what `insert(v)` and `exists(v)` return says whether `v` is there, and where. -/
theorem run_sorted (fresh : ℕ → T) (ops : List (Op T)) :
    ∃ a : Array T, run fresh ops = .ok a ∧ a.m_size = a.m_data.length ∧
      a.m_data.Pairwise (· < ·) ∧ (∀ v, v ∈ a.m_data ↔ v ∈ ops.foldl keep ∅) ∧
      ∀ v, (∃ a', a.insert fresh v = .ok (decide (v ∉ a.m_data), a')) ∧
        ∃ r, a.exists_ v = .ok r ∧
          (v ∈ a.m_data → ∃ i : ℕ, r = i ∧ a.m_data[i]? = some v) ∧
          (v ∉ a.m_data → r = -((a.m_data.countP fun x => x < v : ℕ) : ℤ) - 1) ∧
          (a.m_data.length ≤ 2 ^ 30 →
            Util.binarySearch a.m_data a.m_data.length v = .ok r) := by
  obtain ⟨a, hrun, h⟩ := Holds.run fresh ops holds_new
  refine ⟨a, hrun, h.size, h.sorted, h.mem, fun v => ⟨?_, ?_⟩⟩
  · obtain ⟨a', hins, -⟩ := h.insert fresh v
    exact ⟨a', by rw [hins, decide_eq_decide.mpr (not_congr (h.mem v))]⟩
  · rcases h.exists_eq v with ⟨b, c, hr, hdata, hv⟩ | ⟨hr, hv⟩
    · refine ⟨_, hr, fun _ => ⟨b.length, rfl, ?_⟩, fun hno => absurd ((h.mem v).mpr hv) hno, ?_⟩
      · rw [hdata, List.getElem?_append_right (Nat.le_refl _), Nat.sub_self]
        rfl
      · exact fun hlen => (binarySearch_eq_exists h hlen v).trans hr
    · refine ⟨_, hr, fun hyes => absurd ((h.mem v).mp hyes) hv, fun _ => rfl, ?_⟩
      exact fun hlen => (binarySearch_eq_exists h hlen v).trans hr

end Array

end Sylar
