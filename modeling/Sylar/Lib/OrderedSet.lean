import Mathlib.Data.List.Sort

/-! Ordered sets with a comparator that may fail, as when it follows pointers. A set
is the list of its elements in order; two elements neither of which comes before the
other count as equal. The elements stand for objects with a rank, and as long as
the comparator compares ranks, the set lists the objects by rank. -/

namespace Lib

namespace OrderedSet

variable {ε α : Type}

/-- Add `x`, unless an equal element is there, which is then returned. -/
def insert (lt : α → α → Except ε Bool) (x : α) : List α → Except ε (Option α × List α)
  | [] => .ok (none, [x])
  | y :: ys => do
      let before ← lt x y
      if before then .ok (none, x :: y :: ys)
      else do
        let after ← lt y x
        if after then do
          let (found, zs) ← insert lt x ys
          .ok (found, y :: zs)
        else .ok (some y, y :: ys)

def erase (lt : α → α → Except ε Bool) (x : α) : List α → Except ε (List α)
  | [] => .ok []
  | y :: ys => do
      let before ← lt x y
      if before then .ok (y :: ys)
      else do
        let after ← lt y x
        if after then do
          let zs ← erase lt x ys
          .ok (y :: zs)
        else .ok ys

section

variable {β ρ : Type} [LinearOrder ρ] {lt : α → α → Except ε Bool} {elem : β → α} {rank : β → ρ}

/-- The comparator compares `n` with `m` by rank. -/
def ComparesAt (lt : α → α → Except ε Bool) (elem : β → α) (rank : β → ρ) (n m : β) : Prop :=
  lt (elem n) (elem m) = .ok (decide (rank n < rank m)) ∧
    lt (elem m) (elem n) = .ok (decide (rank m < rank n))

theorem insert_fresh {n : β} {ns : List β} (hlt : ∀ m ∈ ns, ComparesAt lt elem rank n m)
    (hne : ∀ m ∈ ns, rank m ≠ rank n) :
    insert lt (elem n) (ns.map elem) =
      .ok (none, (ns.orderedInsert (fun a b => rank a ≤ rank b) n).map elem) := by
  induction ns with
  | nil => rfl
  | cons m ns ih =>
    obtain ⟨hbefore, hafter⟩ := hlt m List.mem_cons_self
    have hm : rank m ≠ rank n := hne m List.mem_cons_self
    rw [List.map_cons, insert, hbefore]
    rcases lt_or_gt_of_ne hm with h | h
    · rw [List.orderedInsert_cons, if_neg (not_le.mpr h), decide_eq_false (not_lt.mpr h.le),
        hafter, decide_eq_true h, ih (fun m hm => hlt m (List.mem_cons_of_mem _ hm))
          fun m hm => hne m (List.mem_cons_of_mem _ hm)]
      rfl
    · rw [List.orderedInsert_cons, if_pos h.le, decide_eq_true h]
      rfl

theorem insert_present {n m : β} {ns : List β} (hlt : ∀ m ∈ ns, ComparesAt lt elem rank n m)
    (hsorted : ns.Pairwise fun a b => rank a < rank b) (hm : m ∈ ns) (hrank : rank m = rank n) :
    insert lt (elem n) (ns.map elem) = .ok (some (elem m), ns.map elem) := by
  induction ns with
  | nil => exact absurd hm List.not_mem_nil
  | cons a ns ih =>
    obtain ⟨hbefore, hafter⟩ := hlt a List.mem_cons_self
    rw [List.pairwise_cons] at hsorted
    rw [List.map_cons, insert, hbefore]
    rcases List.mem_cons.mp hm with rfl | hm
    · rw [decide_eq_false (not_lt.mpr hrank.le), hafter, decide_eq_false (not_lt.mpr hrank.ge)]
      rfl
    · have ha : rank a < rank n := hrank ▸ hsorted.1 m hm
      rw [decide_eq_false (not_lt.mpr ha.le), hafter, decide_eq_true ha,
        ih (fun m hm => hlt m (List.mem_cons_of_mem _ hm)) hsorted.2 hm]
      rfl

theorem erase_present {n : β} {ns : List β} (hlt : ∀ m ∈ ns, ComparesAt lt elem rank n m)
    (hsorted : ns.Pairwise fun a b => rank a < rank b) (hn : n ∈ ns) :
    erase lt (elem n) (ns.map elem) = .ok ((ns.filter fun m => rank m ≠ rank n).map elem) := by
  induction ns with
  | nil => exact absurd hn List.not_mem_nil
  | cons a ns ih =>
    obtain ⟨hbefore, hafter⟩ := hlt a List.mem_cons_self
    rw [List.pairwise_cons] at hsorted
    rw [List.map_cons, erase, hbefore]
    rcases List.mem_cons.mp hn with rfl | hn
    · -- every later element ranks higher, so the filter keeps it
      have hkeep : ns.filter (fun m => rank m ≠ rank n) = ns :=
        List.filter_eq_self.mpr fun m hm => decide_eq_true (hsorted.1 m hm).ne'
      rw [decide_eq_false (lt_irrefl _), hafter, decide_eq_false (lt_irrefl _),
        List.filter_cons_of_neg (by simp), hkeep]
      rfl
    · have ha : rank a < rank n := hsorted.1 n hn
      rw [decide_eq_false (not_lt.mpr ha.le), hafter, decide_eq_true ha,
        ih (fun m hm => hlt m (List.mem_cons_of_mem _ hm)) hsorted.2 hn,
        List.filter_cons_of_pos (by simp [ha.ne])]
      rfl

theorem pairwise_insert {n : β} {ns : List β} (hsorted : ns.Pairwise fun a b => rank a < rank b)
    (hne : ∀ m ∈ ns, rank m ≠ rank n) :
    (ns.orderedInsert (fun a b => rank a ≤ rank b) n).Pairwise fun a b => rank a < rank b := by
  induction ns with
  | nil => exact List.pairwise_singleton _ _
  | cons m ns ih =>
    have hm : rank m ≠ rank n := hne m List.mem_cons_self
    rw [List.pairwise_cons] at hsorted
    rcases lt_or_gt_of_ne hm with h | h
    · rw [List.orderedInsert_cons, if_neg (not_le.mpr h), List.pairwise_cons]
      refine ⟨fun b hb => ?_, ih hsorted.2 fun m hm => hne m (List.mem_cons_of_mem _ hm)⟩
      rcases (List.mem_orderedInsert _).mp hb with rfl | hb
      · exact h
      · exact hsorted.1 b hb
    · rw [List.orderedInsert_cons, if_pos h.le, List.pairwise_cons, List.pairwise_cons]
      refine ⟨fun b hb => ?_, hsorted⟩
      rcases List.mem_cons.mp hb with rfl | hb
      · exact h
      · exact h.trans (hsorted.1 b hb)

end

end OrderedSet

end Lib
