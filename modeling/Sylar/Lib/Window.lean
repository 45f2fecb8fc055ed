import Mathlib.Data.List.Basic
import Mathlib.Data.Nat.ModEq
import Mathlib.Logic.Function.Basic
import Mathlib.Tactic

/-! The last `n` times, kept in a ring of `n` cells: time `s` has cell `s % n`. When time goes on,
the cells of the times that come in have to be cleared, and no other that is in use. -/

namespace Lib

variable {α : Type}

/-- The times of the window are kept, and a cell that none of them has is `zero`. -/
structure Window (n : ℕ) (zero : α) (val : ℕ → α) (now : ℕ) (l : List α) : Prop where
  length_eq : l.length = n
  kept : ∀ s, now < s + n → s ≤ now → l[s % n]? = some (val s)
  unused : ∀ j < n, (∀ s, now < s + n → s ≤ now → s % n ≠ j) → l[j]? = some zero

theorem eq_of_mod_eq {n s t : ℕ} (hle : s ≤ t) (hlt : t < s + n) (h : s % n = t % n) : s = t := by
  have hdvd : n ∣ t - s := (Nat.modEq_iff_dvd' hle).mp h
  have hzero := Nat.eq_zero_of_dvd_of_lt hdvd (by omega)
  omega

theorem eq_of_window {n now s t : ℕ} (hs : now < s + n) (hs' : s ≤ now) (ht : now < t + n)
    (ht' : t ≤ now) (h : s % n = t % n) : s = t := by
  rcases Nat.le_total s t with hle | hle
  · exact eq_of_mod_eq hle (by omega) h
  · exact (eq_of_mod_eq hle (by omega) h.symm).symm

/-- A time as far from `t` as it must be to be one of the `n` after it. -/
theorem mod_shift {n s t : ℕ} (hle : t ≤ s) : (t + (s - t) % n) % n = s % n := by
  rw [Nat.add_mod_mod, show t + (s - t) = s by omega]

section

variable {n : ℕ} {zero : α} {val : ℕ → α} {last now : ℕ} {l l' : List α}

theorem window_replicate (n : ℕ) (zero : α) (now : ℕ) :
    Window n zero (fun _ => zero) now (List.replicate n zero) where
  length_eq := List.length_replicate
  kept := fun s hs hs' => by
    rw [List.getElem?_replicate, if_pos (Nat.mod_lt s (by omega))]
  unused := fun j hj _ => by rw [List.getElem?_replicate, if_pos hj]

/-- Cells are cleared, among them those of the times after `last`. The window has then moved
exactly where no cleared cell is that of a time that stays and for which there is something. -/
theorem Window.move_iff (h : Window n zero val last l) (hle : last ≤ now)
    (hval : ∀ s, last < s → val s = zero) {cleared : ℕ → Prop}
    (hin : ∀ s, last < s → s ≤ now → cleared (s % n)) (hlen : l'.length = n)
    (hcleared : ∀ j < n, cleared j → l'[j]? = some zero)
    (hother : ∀ j < n, ¬ cleared j → l'[j]? = l[j]?) :
    Window n zero val now l' ↔
      ∀ s, s ≤ last → now < s + n → cleared (s % n) → val s = zero := by
  constructor
  · intro h' s hs hs' hclear
    have hkept := h'.kept s hs' (by omega)
    rw [hcleared _ (Nat.mod_lt s (by omega)) hclear] at hkept
    exact (Option.some.inj hkept).symm
  · intro hzero
    refine ⟨hlen, fun s hs hs' => ?_, fun j hj hnone => ?_⟩
    · have hmod : s % n < n := Nat.mod_lt s (by omega)
      by_cases hnew : last < s
      · rw [hcleared _ hmod (hin s hnew hs'), hval s hnew]
      · by_cases hclear : cleared (s % n)
        · rw [hcleared _ hmod hclear, hzero s (by omega) hs hclear]
        · rw [hother _ hmod hclear]
          exact h.kept s (by omega) (by omega)
    · by_cases hclear : cleared j
      · exact hcleared j hj hclear
      · rw [hother j hj hclear]
        refine h.unused j hj fun s hs hs' hsj => ?_
        by_cases hstays : now < s + n
        · exact hnone s hstays (by omega) hsj
        · -- `s` has left the window, and a time that has come in has its cell
          have hlater : last < s + n := hs
          refine hclear (hsj ▸ ?_)
          have hcell := hin (s + n) hlater (by omega)
          rwa [Nat.add_mod_right] at hcell

/-- Something is put into the cell of the present time. -/
theorem Window.modify_iff (hnow : l[now % n]? = some (val now)) (f : α → α) :
    Window n zero (Function.update val now (f (val now))) now (l.modify (now % n) f) ↔
      Window n zero val now l := by
  have hat : (l.modify (now % n) f)[now % n]? = some (f (val now)) := by
    rw [List.getElem?_modify_eq, hnow]
    rfl
  have hother : ∀ {j}, now % n ≠ j → (l.modify (now % n) f)[j]? = l[j]? := fun hj =>
    List.getElem?_modify_ne f l hj
  have hcell : ∀ {s}, now < s + n → s ≤ now → s ≠ now → now % n ≠ s % n := fun hs hs' hne heq =>
    hne (eq_of_window hs hs' (by omega) le_rfl heq.symm)
  constructor
  · rintro ⟨hlen, hkept, hunused⟩
    refine ⟨(List.length_modify _ _ _).symm.trans hlen, fun s hs hs' => ?_, fun j hj hnone => ?_⟩
    · by_cases hne : s = now
      · rw [hne, hnow]
      · rw [← hother (hcell hs hs' hne), hkept s hs hs', Function.update_of_ne hne]
    · rw [← hother (hnone now (by omega) le_rfl), hunused j hj hnone]
  · rintro ⟨hlen, hkept, hunused⟩
    refine ⟨(List.length_modify _ _ _).trans hlen, fun s hs hs' => ?_, fun j hj hnone => ?_⟩
    · by_cases hne : s = now
      · rw [hne, hat, Function.update_self]
      · rw [hother (hcell hs hs' hne), hkept s hs hs', Function.update_of_ne hne]
    · rw [hother (hnone now (by omega) le_rfl), hunused j hj hnone]

end

end Lib
