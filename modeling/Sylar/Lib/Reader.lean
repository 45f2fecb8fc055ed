import Mathlib.Data.List.Basic
import Mathlib.Tactic

/-! A reader that is given a text in pieces and says of each how much of it it took. It follows a
text if, however the text is cut, it takes the text to its end and no further. -/

namespace Lib

structure Reader (σ α : Type*) where
  execute : σ → List α → ℕ × σ
  hasError : σ → Bool
  isFinished : σ → Bool

namespace Reader

variable {σ α : Type*} {r : Reader σ α} {states : ℕ → σ} {text : List α}

/-- `states i` is the state when the first `i` of the text are taken. -/
structure Follows (r : Reader σ α) (states : ℕ → σ) (text : List α) : Prop where
  nonempty : 0 < text.length
  piece : ∀ i n, 0 < n → i + n < text.length →
    r.execute (states i) ((text.drop i).take n) = (n, states (i + n))
  last : ∀ i < text.length, ∀ more,
    r.execute (states i) (text.drop i ++ more) = (text.length - i, states text.length)
  noError : ∀ i ≤ text.length, 0 < i → r.hasError (states i) = false
  finished : ∀ i ≤ text.length, 0 < i → (r.isFinished (states i) = true ↔ i = text.length)

theorem Follows.execute_take (h : Follows r states text) {i n : ℕ} (hi : i < text.length)
    (hn : 0 < n) (post : List α) :
    r.execute (states i) ((text.drop i ++ post).take n) =
      (min n (text.length - i), states (i + min n (text.length - i))) := by
  have hlength : (text.drop i).length = text.length - i := List.length_drop
  by_cases hlt : n < text.length - i
  · rw [List.take_append_of_le_length (by omega), h.piece i n hn (by omega), Nat.min_eq_left (by omega)]
  · have htake : (text.drop i ++ post).take n = text.drop i ++ post.take (n - (text.length - i)) := by
      rw [List.take_append, hlength, List.take_of_length_le (by omega)]
    rw [htake, h.last i hi, Nat.min_eq_right (by omega), Nat.add_sub_cancel' (by omega)]

theorem drop_piece (text post : List α) (n : ℕ) :
    ((text ++ post).take n).drop (min n text.length) = post.take (n - text.length) := by
  rw [List.take_append]
  exact List.drop_left' List.length_take

def takeUntil (step : σ → α → σ) (stop : σ → Bool) : σ → List α → ℕ × σ
  | s, [] => (0, s)
  | s, x :: xs =>
      if stop (step s x) then (1, step s x)
      else ((takeUntil step stop (step s x) xs).1 + 1, (takeUntil step stop (step s x) xs).2)

def stepwise (step : σ → α → σ) (stop : σ → Bool) : Reader σ α where
  execute := takeUntil step stop
  hasError := fun _ => false
  isFinished := stop

variable {step : σ → α → σ} {stop : σ → Bool}

theorem takeUntil_piece : ∀ (l : List α) (s : σ),
    (∀ i, 0 < i → i ≤ l.length → stop ((l.take i).foldl step s) = false) →
    takeUntil step stop s l = (l.length, l.foldl step s) := by
  intro l
  induction l with
  | nil => intro s _; rfl
  | cons x xs ih =>
    intro s h
    have hx : stop (step s x) = false := h 1 (by omega) (by simp)
    have hxs : ∀ i, 0 < i → i ≤ xs.length → stop ((xs.take i).foldl step (step s x)) = false :=
      fun i _ hi => h (i + 1) (by omega) (by simpa using hi)
    rw [takeUntil, hx, ih (step s x) hxs]
    rfl

theorem takeUntil_last (more : List α) : ∀ (l : List α) (s : σ), 0 < l.length →
    (∀ i, 0 < i → i < l.length → stop ((l.take i).foldl step s) = false) →
    stop (l.foldl step s) = true →
    takeUntil step stop s (l ++ more) = (l.length, l.foldl step s) := by
  intro l
  induction l with
  | nil => intro s h _ _; simp at h
  | cons x xs ih =>
    intro s _ h hstop
    rw [List.cons_append, takeUntil]
    by_cases hnil : xs = []
    · subst hnil
      have hx : stop (step s x) = true := hstop
      rw [hx]
      rfl
    · have hpos : 0 < xs.length := List.length_pos_iff.mpr hnil
      have hx : stop (step s x) = false := h 1 (by omega) (by rw [List.length_cons]; omega)
      have hxs : ∀ i, 0 < i → i < xs.length → stop ((xs.take i).foldl step (step s x)) = false :=
        fun i _ hi => h (i + 1) (by omega) (by simpa using hi)
      rw [hx, ih (step s x) hpos hxs hstop]
      rfl

/-- It follows a text of which it wants the whole, and no part that the text begins with. -/
theorem follows_stepwise (s : σ) (hpos : 0 < text.length)
    (going : ∀ i, 0 < i → i < text.length → stop ((text.take i).foldl step s) = false)
    (stops : stop (text.foldl step s) = true) :
    Follows (stepwise step stop) (fun i => (text.take i).foldl step s) text := by
  have hall : (text.take text.length).foldl step s = text.foldl step s := by rw [List.take_length]
  have hskip : ∀ i n, ((text.drop i).take n).foldl step ((text.take i).foldl step s) =
      (text.take (i + n)).foldl step s := by
    intro i n
    rw [← List.foldl_append, List.take_add]
  refine ⟨hpos, ?_, ?_, fun _ _ _ => rfl, ?_⟩
  · intro i n hn hin
    have hlength : ((text.drop i).take n).length = n := by
      rw [List.length_take, List.length_drop]
      omega
    have hgoing : ∀ j, 0 < j → j ≤ ((text.drop i).take n).length →
        stop ((((text.drop i).take n).take j).foldl step ((text.take i).foldl step s)) = false := by
      intro j hj hjn
      rw [List.take_take, hskip]
      exact going _ (by omega) (by omega)
    change takeUntil step stop _ _ = _
    rw [takeUntil_piece _ _ hgoing, hlength, hskip]
  · intro i hi more
    have hlength : (text.drop i).length = text.length - i := List.length_drop
    have hdrop : (text.drop i).foldl step ((text.take i).foldl step s) = text.foldl step s := by
      rw [← List.foldl_append, List.take_append_drop]
    have hgoing : ∀ j, 0 < j → j < (text.drop i).length →
        stop (((text.drop i).take j).foldl step ((text.take i).foldl step s)) = false := by
      intro j hj hjn
      rw [hskip]
      exact going _ (by omega) (by omega)
    change takeUntil step stop _ _ = _
    rw [takeUntil_last more _ _ (by omega) hgoing (by rw [hdrop]; exact stops), hlength, hdrop, hall]
  · intro i hi hpos'
    constructor
    · intro hstop
      by_contra hne
      have hfalse : stop ((text.take i).foldl step s) = false := going i hpos' (by omega)
      exact absurd (hstop.symm.trans hfalse) (by decide)
    · rintro rfl
      change stop _ = true
      rw [hall, stops]

end Reader

end Lib
