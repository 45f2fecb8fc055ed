import Mathlib.Algebra.BigOperators.Group.List.Basic
import Mathlib.Algebra.Order.BigOperators.Group.List
import Mathlib.Data.Nat.Periodic
import Mathlib.Order.Interval.Finset.Nat
import Mathlib.Tactic
import Sylar.Lib.Search

/-! The numbers below a total, shared out: each weight has as many numbers as it says, next to
those of the weight before it. Consecutive numbers, reduced modulo the total, come to each share
as often as it is long. -/

namespace Lib

/-- The sums of the first weights, from `t` on. -/
def partialSums : ℤ → List ℤ → List ℤ
  | _, [] => []
  | t, w :: ws => (t + w) :: partialSums (t + w) ws

theorem length_partialSums (t : ℤ) (ws : List ℤ) : (partialSums t ws).length = ws.length := by
  induction ws generalizing t with
  | nil => rfl
  | cons w ws ih => rw [partialSums, List.length_cons, List.length_cons, ih]

theorem getElem?_partialSums (t : ℤ) (ws : List ℤ) {i : ℕ} (hi : i < ws.length) :
    (partialSums t ws)[i]? = some (t + (ws.take (i + 1)).sum) := by
  induction ws generalizing t i with
  | nil => cases hi
  | cons w ws ih =>
    cases i with
    | zero => simp [partialSums]
    | succ i =>
      rw [partialSums, List.getElem?_cons_succ, ih (t + w) (by simpa using hi), List.take_succ_cons,
        List.sum_cons, add_assoc]

theorem getLast?_partialSums (t : ℤ) {ws : List ℤ} (h : ws ≠ []) :
    (partialSums t ws).getLast? = some (t + ws.sum) := by
  have hpos : 0 < ws.length := List.length_pos_of_ne_nil h
  rw [List.getLast?_eq_getElem?, length_partialSums, getElem?_partialSums t ws (by omega),
    show ws.length - 1 + 1 = ws.length by omega, List.take_length]

theorem lt_of_mem_partialSums {t s : ℤ} {ws : List ℤ} (hpos : ∀ w ∈ ws, 0 < w)
    (hs : s ∈ partialSums t ws) : t < s ∧ s ≤ t + ws.sum := by
  induction ws generalizing t with
  | nil => cases hs
  | cons w ws ih =>
    have hw := hpos w List.mem_cons_self
    have hws : ∀ w ∈ ws, 0 < w := fun x hx => hpos x (List.mem_cons_of_mem w hx)
    have hsum : 0 ≤ ws.sum := List.sum_nonneg fun x hx => (hws x hx).le
    rw [List.sum_cons]
    rcases List.mem_cons.mp hs with rfl | hs
    · omega
    · have := ih hws hs
      omega

theorem pairwise_partialSums (t : ℤ) {ws : List ℤ} (hpos : ∀ w ∈ ws, 0 < w) :
    (partialSums t ws).Pairwise (· < ·) := by
  induction ws generalizing t with
  | nil => exact List.Pairwise.nil
  | cons w ws ih =>
    have hws : ∀ w ∈ ws, 0 < w := fun x hx => hpos x (List.mem_cons_of_mem w hx)
    exact List.pairwise_cons.mpr ⟨fun s hs => (lt_of_mem_partialSums hws hs).1, ih (t + w) hws⟩

/-- The share of a number is found by counting the sums that are not above it. -/
theorem countP_partialSums_eq_iff {ws : List ℤ} (hpos : ∀ w ∈ ws, 0 < w) {d : ℤ} (hd : 0 ≤ d)
    {i : ℕ} (hi : i < ws.length) :
    ((partialSums 0 ws).countP fun s => decide (s ≤ d)) = i ↔
      (ws.take i).sum ≤ d ∧ d < (ws.take (i + 1)).sum := by
  have hsorted : (partialSums 0 ws).Pairwise fun x y => decide (y ≤ d) → decide (x ≤ d) := by
    refine (pairwise_partialSums 0 hpos).imp fun {x y} hxy hy => ?_
    simp only [decide_eq_true_eq] at hy ⊢
    omega
  have hat : ∀ {j}, j < ws.length → ((ws.take (j + 1)).sum ≤ d ↔
      j < (partialSums 0 ws).countP fun s => decide (s ≤ d)) := fun hj => by
    rw [← lt_countP_iff hsorted (getElem?_partialSums 0 ws hj), decide_eq_true_eq, zero_add]
  have hupper := hat hi
  cases i with
  | zero =>
    simp only [List.take_zero, List.sum_nil]
    omega
  | succ i =>
    have hlower := hat (show i < ws.length by omega)
    omega

/-- Of as many consecutive numbers as there are below the total, each share gets its own. -/
theorem card_share {a b n : ℕ} (hb : b ≤ n) (v : ℕ) :
    ((Finset.Ico v (v + n)).filter fun x => a ≤ x % n ∧ x % n < b).card = b - a := by
  have hperiodic : Function.Periodic (fun x => a ≤ x % n ∧ x % n < b) n := fun x => by
    simp only [Nat.add_mod_right]
  rw [Nat.filter_Ico_card_eq_of_periodic v n _ hperiodic, Nat.count_eq_card_filter_range]
  have heq : ((Finset.range n).filter fun x => a ≤ x % n ∧ x % n < b) = Finset.Ico a b := by
    ext x
    simp only [Finset.mem_filter, Finset.mem_range, Finset.mem_Ico]
    constructor
    · rintro ⟨hx, h⟩
      rwa [Nat.mod_eq_of_lt hx] at h
    · intro h
      have hx : x < n := by omega
      rw [Nat.mod_eq_of_lt hx]
      exact ⟨hx, h⟩
  rw [heq, Nat.card_Ico]

end Lib
