import Mathlib.Data.List.Basic
import Mathlib.Data.List.Count
import Mathlib.Order.RelClasses

/-! Binary search for the point where a list stops satisfying a test. Where a list is sorted,
the elements below a value are the first ones, and so are those that are not above it. -/

namespace Lib

variable {α : Type*}

/-- `count` elements from `first` on are undecided. Each turn at least halves them, so
`count` turns suffice. -/
def lowerBoundLoop (below : α → Bool) (l : List α) : ℕ → ℕ → ℕ → ℕ
  | 0, first, _ => first
  | turns + 1, first, count =>
      if count = 0 then first
      else
        match l[first + count / 2]? with
        | none => first
        | some x =>
            if below x then
              lowerBoundLoop below l turns (first + count / 2 + 1) (count - (count / 2 + 1))
            else lowerBoundLoop below l turns first (count / 2)

/-- The index of the first element that is not `below`. -/
def lowerBound (below : α → Bool) (l : List α) : ℕ := lowerBoundLoop below l l.length 0 l.length

theorem lowerBoundLoop_eq {below : α → Bool} {a b : List α} (ha : ∀ x ∈ a, below x = true)
    (hb : ∀ x ∈ b, below x = false) : ∀ turns first count, count ≤ turns → first ≤ a.length →
      a.length ≤ first + count → first + count ≤ (a ++ b).length →
      lowerBoundLoop below (a ++ b) turns first count = a.length := by
  intro turns
  induction turns with
  | zero =>
    intro first count hturns hfirst hcount _
    rw [lowerBoundLoop]
    omega
  | succ turns ih =>
    intro first count hturns hfirst hcount hlen
    rw [lowerBoundLoop]
    by_cases h0 : count = 0
    · rw [if_pos h0]
      omega
    · have hmid : first + count / 2 < (a ++ b).length := by omega
      rw [if_neg h0, List.getElem?_eq_getElem hmid]
      dsimp only
      by_cases hside : first + count / 2 < a.length
      · -- the middle element lies in the first part
        have hx : below (a ++ b)[first + count / 2] = true := by
          rw [List.getElem_append_left hside]
          exact ha _ (List.getElem_mem hside)
        rw [if_pos hx]
        exact ih _ _ (by omega) (by omega) (by omega) (by omega)
      · have hx : below (a ++ b)[first + count / 2] = false := by
          rw [List.getElem_append_right (by omega)]
          exact hb _ (List.getElem_mem _)
        rw [if_neg (by simp [hx])]
        exact ih _ _ (by omega) (by omega) (by omega) (by omega)

theorem lowerBound_eq {below : α → Bool} {a b : List α} (ha : ∀ x ∈ a, below x = true)
    (hb : ∀ x ∈ b, below x = false) : lowerBound below (a ++ b) = a.length :=
  lowerBoundLoop_eq ha hb _ _ _ (Nat.le_refl _) (Nat.zero_le _) (by simp) (by simp)

/-- A test that no element passes behind one that fails it holds of the first elements, as many
as pass it. -/
theorem lt_countP_iff {f : α → Bool} {l : List α} (h : l.Pairwise fun x y => f y → f x) {i : ℕ}
    {x : α} (hx : l[i]? = some x) : f x = true ↔ i < l.countP f := by
  induction l generalizing i with
  | nil => simp at hx
  | cons a l ih =>
    rw [List.pairwise_cons] at h
    by_cases ha : f a = true
    · rw [List.countP_cons_of_pos ha]
      cases i with
      | zero =>
        obtain rfl : a = x := by simpa using hx
        simp [ha]
      | succ i =>
        rw [ih h.2 (by simpa using hx)]
        exact Nat.succ_lt_succ_iff.symm
    · have hfail : ∀ y ∈ a :: l, ¬ f y = true := by
        intro y hy
        rcases List.mem_cons.mp hy with rfl | hy
        · exact ha
        · exact fun hf => ha (h.1 y hy hf)
      rw [List.countP_eq_zero.mpr hfail]
      exact iff_of_false (hfail x (List.mem_of_getElem? hx)) (Nat.not_lt_zero i)

theorem of_mem_take_countP {f : α → Bool} {l : List α} (h : l.Pairwise fun x y => f y → f x)
    {x : α} (hx : x ∈ l.take (l.countP f)) : f x = true := by
  obtain ⟨i, hi⟩ := List.getElem?_of_mem hx
  have hlt := (List.getElem?_eq_some_iff.mp hi).1
  rw [List.length_take] at hlt
  rw [List.getElem?_take_of_lt (by omega)] at hi
  exact (lt_countP_iff h hi).mpr (by omega)

theorem not_of_mem_drop_countP {f : α → Bool} {l : List α} (h : l.Pairwise fun x y => f y → f x)
    {x : α} (hx : x ∈ l.drop (l.countP f)) : ¬ f x = true := by
  obtain ⟨i, hi⟩ := List.getElem?_of_mem hx
  rw [List.getElem?_drop] at hi
  exact (lt_countP_iff h hi).not.mpr (by omega)

/-- On such a list the search counts the elements that pass. -/
theorem lowerBound_eq_countP {f : α → Bool} {l : List α} (h : l.Pairwise fun x y => f y → f x) :
    lowerBound f l = l.countP f := by
  have heq := lowerBound_eq (fun x hx => of_mem_take_countP h hx)
    fun x hx => by simpa using not_of_mem_drop_countP h hx
  rwa [List.take_append_drop, List.length_take_of_le List.countP_le_length] at heq

/-- The index of the first element that is `above`. The search does the same steps. -/
def upperBound (above : α → Bool) (l : List α) : ℕ := lowerBound (fun x => !above x) l

/-- Whatever the list, the search stays in it, and it comes behind an element only where that
one is `below`. -/
theorem lowerBoundLoop_spec (below : α → Bool) (l : List α) : ∀ turns first count,
    first + count ≤ l.length →
      first ≤ lowerBoundLoop below l turns first count ∧
      lowerBoundLoop below l turns first count ≤ first + count ∧
      (first < lowerBoundLoop below l turns first count →
        ∃ x, l[lowerBoundLoop below l turns first count - 1]? = some x ∧ below x = true) := by
  intro turns
  induction turns with
  | zero =>
    intro first count _
    rw [lowerBoundLoop]
    exact ⟨Nat.le_refl _, by omega, fun h => absurd h (Nat.lt_irrefl _)⟩
  | succ turns ih =>
    intro first count hlen
    rw [lowerBoundLoop]
    split
    · exact ⟨Nat.le_refl _, by omega, fun h => absurd h (Nat.lt_irrefl _)⟩
    · next h0 =>
      obtain ⟨x, hx⟩ : ∃ x, l[first + count / 2]? = some x :=
        ⟨_, List.getElem?_eq_getElem (by omega)⟩
      simp only [hx]
      split
      · next hbelow =>
        obtain ⟨hge, hle, hlast⟩ := ih (first + count / 2 + 1) (count - (count / 2 + 1)) (by omega)
        refine ⟨by omega, by omega, fun _ => ?_⟩
        rcases Nat.lt_or_eq_of_le hge with hlt | heq
        · exact hlast hlt
        · rw [← heq]
          exact ⟨x, hx, hbelow⟩
      · obtain ⟨hge, hle, hlast⟩ := ih first (count / 2) (by omega)
        exact ⟨hge, by omega, hlast⟩

/-- The search ends before the end of a list, also one that is in no order, when the last
element is `above`. -/
theorem upperBound_lt {above : α → Bool} {l : List α} {x : α} (hlast : l.getLast? = some x)
    (hx : above x = true) : upperBound above l < l.length := by
  obtain ⟨-, hle, hbehind⟩ := lowerBoundLoop_spec (fun x => !above x) l l.length 0 l.length
    (by omega)
  have hpos : 0 < l.length := by
    cases l with
    | nil => cases hlast
    | cons y l => exact Nat.succ_pos _
  unfold upperBound lowerBound
  by_contra hend
  have heq : lowerBoundLoop (fun x => !above x) l l.length 0 l.length = l.length := by omega
  obtain ⟨y, hy, hbelow⟩ := hbehind (by omega)
  rw [heq, ← List.getLast?_eq_getElem?, hlast] at hy
  cases hy
  rw [hx] at hbelow
  cases hbelow

section StrictWeak

variable {lt : α → α → Bool}

def Incomp (lt : α → α → Bool) (x y : α) : Prop := lt x y = false ∧ lt y x = false

instance (x y : α) : Decidable (Incomp lt x y) := inferInstanceAs (Decidable (_ ∧ _))

/-- An element between two ordered ones is not equivalent to both. -/
theorem lt_or_lt (h : IsStrictWeakOrder α fun x y => lt x y = true) {x z : α} (hxz : lt x z = true)
    (y : α) : lt x y = true ∨ lt y z = true := by
  by_contra hno
  rw [not_or] at hno
  obtain ⟨hxy, hyz⟩ := hno
  by_cases hyx : lt y x = true
  · exact hyz (h.trans y x z hyx hxz)
  · by_cases hzy : lt z y = true
    · exact hxy (h.trans x z y hxz hzy)
    · exact (h.incomp_trans x y z ⟨hxy, hyx⟩ ⟨hyz, hzy⟩).1 hxz

theorem lt_asymm_of (h : IsStrictWeakOrder α fun x y => lt x y = true) {x y : α}
    (hxy : lt x y = true) : lt y x = false := by
  by_contra hyx
  exact h.irrefl x (h.trans x y x hxy (by simpa using hyx))

variable {l : List α}

/-- In a sorted list the elements below `v` are the first ones. -/
theorem below_iff (h : IsStrictWeakOrder α fun x y => lt x y = true)
    (hl : l.Pairwise fun x y => lt y x = false) (v : α) {i : ℕ} {x : α} (hx : l[i]? = some x) :
    lt x v = true ↔ i < l.countP fun y => lt y v := by
  refine lt_countP_iff (f := fun y => lt y v) (hl.imp fun {a b} hba hb => ?_) hx
  rcases lt_or_lt h hb a with hlt | hlt
  · rw [hba] at hlt
    exact absurd hlt Bool.false_ne_true
  · exact hlt

/-- In a sorted list the elements above `v` are the last ones. -/
theorem above_iff (h : IsStrictWeakOrder α fun x y => lt x y = true)
    (hl : l.Pairwise fun x y => lt y x = false) (v : α) {i : ℕ} {x : α} (hx : l[i]? = some x) :
    lt v x = true ↔ (l.countP fun y => !lt v y) ≤ i := by
  have hpre : l.Pairwise fun a b => (!lt v b) = true → (!lt v a) = true := by
    refine hl.imp fun {a b} hba hb => ?_
    rw [Bool.not_eq_true'] at hb ⊢
    by_contra hva
    rcases lt_or_lt h (by simpa using hva) b with hlt | hlt
    · rw [hb] at hlt
      exact absurd hlt Bool.false_ne_true
    · rw [hba] at hlt
      exact absurd hlt Bool.false_ne_true
  have hiff := lt_countP_iff hpre hx
  rw [← Nat.not_lt, ← hiff]
  simp

theorem below_le_above (h : IsStrictWeakOrder α fun x y => lt x y = true) (v : α) :
    (l.countP fun y => lt y v) ≤ l.countP fun y => !lt v y :=
  List.countP_mono_left fun y _ hy => by simp [lt_asymm_of h hy]

end StrictWeak

end Lib
