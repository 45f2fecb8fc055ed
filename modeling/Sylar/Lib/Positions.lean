import Mathlib.Data.List.Basic
import Mathlib.Tactic

/-! The places of a stretch of numbers where a predicate holds: as a list, as the next one up or
down from a place, and given one by one to a callback that may say stop. -/

namespace Lib

variable (P : ℕ → Prop) [DecidablePred P]

/-- The places from `lo` on and below `hi`, in ascending order. -/
def between (lo hi : ℕ) : List ℕ := (List.range' lo (hi - lo)).filter P

/-- `q` is the first place from `lo` on, or not below `hi` if none is. -/
structure First (lo hi q : ℕ) : Prop where
  le : lo ≤ q
  before : ∀ j, lo ≤ j → j < q → j < hi → ¬ P j
  at_ : q < hi → P q

/-- `q` is the last place below `hi`, or `-1` if there is none. -/
structure Last (hi : ℕ) (q : ℤ) : Prop where
  ge : -1 ≤ q
  lt : q < hi
  after : ∀ j : ℕ, q < j → j < hi → ¬ P j
  at_ : ∀ j : ℕ, q = j → P j

variable {P} {lo mid hi q : ℕ}

theorem mem_between {i : ℕ} : i ∈ between P lo hi ↔ lo ≤ i ∧ i < hi ∧ P i := by
  simp only [between, List.mem_filter, List.mem_range'_1, decide_eq_true_eq]
  constructor
  · rintro ⟨⟨hlo, hhi⟩, hP⟩
    exact ⟨hlo, by omega, hP⟩
  · rintro ⟨hlo, hhi, hP⟩
    exact ⟨⟨hlo, by omega⟩, hP⟩

theorem between_of_le (h : hi ≤ lo) : between P lo hi = [] := by
  rw [between, Nat.sub_eq_zero_of_le h]
  rfl

theorem between_append (mid : ℕ) (hlo : lo ≤ mid) (hhi : mid ≤ hi) :
    between P lo hi = between P lo mid ++ between P mid hi := by
  have hsplit : List.range' lo (hi - lo) = List.range' lo (mid - lo) ++ List.range' mid (hi - mid) := by
    have h := List.range'_append_1 (s := lo) (m := mid - lo) (n := hi - mid)
    rw [show lo + (mid - lo) = mid by omega, show mid - lo + (hi - mid) = hi - lo by omega] at h
    exact h.symm
  rw [between, hsplit, List.filter_append]
  rfl

theorem between_succ (h : lo < hi) :
    between P lo hi = if P lo then lo :: between P (lo + 1) hi else between P (lo + 1) hi := by
  have hlen : hi - lo = hi - (lo + 1) + 1 := by omega
  rw [between, hlen, List.range'_succ, List.filter_cons]
  by_cases hP : P lo
  · rw [if_pos (decide_eq_true hP), if_pos hP]
    rfl
  · rw [if_neg (by simpa using hP), if_neg hP]
    rfl

theorem between_succ_right (h : lo ≤ hi) :
    between P lo (hi + 1) = between P lo hi ++ if P hi then [hi] else [] := by
  rw [between_append hi h (Nat.le_succ hi), between_succ (Nat.lt_succ_self hi)]
  rw [between_of_le (show hi + 1 ≤ hi + 1 from le_rfl)]

theorem between_eq_nil (h : ∀ j, lo ≤ j → j < hi → ¬ P j) : between P lo hi = [] := by
  rw [List.eq_nil_iff_forall_not_mem]
  intro i hi'
  obtain ⟨hlo, hhi, hP⟩ := mem_between.mp hi'
  exact h i hlo hhi hP

theorem First.between_eq_nil (h : First P lo hi q) (hq : hi ≤ q) : between P lo hi = [] :=
  Lib.between_eq_nil fun j hlo hhi => h.before j hlo (by omega) hhi

theorem First.between_eq_cons (h : First P lo hi q) (hq : q < hi) :
    between P lo hi = q :: between P (q + 1) hi := by
  have hnone : between P lo q = [] := Lib.between_eq_nil fun j hlo hj => h.before j hlo hj (by omega)
  rw [between_append q h.le hq.le, hnone, List.nil_append, between_succ hq, if_pos (h.at_ hq)]

theorem Last.between_eq_nil (h : Last P hi (-1)) : between P 0 hi = [] :=
  Lib.between_eq_nil fun j _ hj => h.after j (by omega) hj

theorem Last.between_eq_concat (h : Last P hi q) : between P 0 hi = between P 0 q ++ [q] := by
  have hlt : q < hi := by exact_mod_cast h.lt
  have hnone : between P (q + 1) hi = [] :=
    Lib.between_eq_nil fun j hj hhi => h.after j (by exact_mod_cast hj) hhi
  rw [between_append q (Nat.zero_le q) hlt.le, between_succ hlt, if_pos (h.at_ q rfl), hnone]

variable {σ : Type} (cb : ℕ → σ → Bool × σ)

/-- Whether it has never said so, and its state. -/
def feed : List ℕ → σ → Bool × σ
  | [], s => (true, s)
  | p :: ps, s => if (cb p s).1 then feed ps (cb p s).2 else (false, (cb p s).2)

theorem feed_going (h : ∀ p s, (cb p s).1 = true) (ps : List ℕ) (s : σ) : (feed cb ps s).1 = true := by
  induction ps generalizing s with
  | nil => rfl
  | cons p ps ih =>
    rw [feed, if_pos (h p s)]
    exact ih _

theorem feed_append (ps qs : List ℕ) (s : σ) :
    feed cb (ps ++ qs) s = if (feed cb ps s).1 then feed cb qs (feed cb ps s).2 else feed cb ps s := by
  induction ps generalizing s with
  | nil => rfl
  | cons p ps ih =>
    rw [List.cons_append, feed, feed]
    split
    · exact ih _
    · next h => rw [if_neg Bool.false_ne_true]

/-- The callback, with the places it is given recorded. -/
def logged (p : ℕ) (s : σ × List ℕ) : Bool × (σ × List ℕ) :=
  ((cb p s.1).1, (cb p s.1).2, s.2 ++ [p])

theorem feed_logged (ps : List ℕ) (s : σ) (log : List ℕ) (h : (feed cb ps s).1 = true) :
    feed (logged cb) ps (s, log) = (true, (feed cb ps s).2, log ++ ps) := by
  induction ps generalizing s log with
  | nil => rw [List.append_nil]; rfl
  | cons p ps ih =>
    rw [feed] at h ⊢
    by_cases hp : (cb p s).1 = true
    · rw [if_pos hp] at h
      rw [if_pos (show (logged cb p (s, log)).1 = true from hp), feed, if_pos hp, logged, ih _ _ h,
        List.append_assoc]
      rfl
    · rw [if_neg hp] at h
      exact absurd h Bool.false_ne_true

/-- It is given the places up to the one where it says stop. -/
theorem feed_logged_stop {pre post : List ℕ} {p : ℕ} {s : σ} (h : (feed cb pre s).1 = true)
    (hp : (cb p (feed cb pre s).2).1 = false) :
    (feed (logged cb) (pre ++ p :: post) (s, [])).2 = ((cb p (feed cb pre s).2).2, pre ++ [p]) := by
  have hstop : (logged cb p ((feed cb pre s).2, pre)).1 = false := hp
  rw [feed_append, feed_logged cb pre s [] h, if_pos rfl, feed]
  simp only [List.nil_append, hstop, if_neg Bool.false_ne_true]
  rfl

theorem feed_count (ps : List ℕ) (n m : ℕ) :
    feed (fun _ count => (true, (count + 1) % m)) ps (n % m) = (true, (n + ps.length) % m) := by
  induction ps generalizing n with
  | nil => rfl
  | cons p ps ih =>
    rw [feed, if_pos rfl, Nat.mod_add_mod, ih, List.length_cons]
    congr 2
    omega

end Lib
