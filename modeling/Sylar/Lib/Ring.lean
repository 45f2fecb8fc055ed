import Mathlib.Data.List.Rotate
import Mathlib.Data.List.GetD
import Mathlib.Tactic

/-! A ring of cells with a current position `c`: the cells in the order in which they are
met from there on are `l.rotate c`. A change of one cell is a change at its distance from
the current position, and a step leaves the cell it passes as the last one. -/

namespace Lib

variable {α β : Type*}

/-- The distance from position `c` to position `i` in a ring of `n` cells. -/
def ringDist (n c i : ℕ) : ℕ := if c ≤ i then i - c else i + n - c

theorem ringDist_lt {n c i : ℕ} (hc : c < n) (hi : i < n) : ringDist n c i < n := by
  unfold ringDist
  split <;> omega

theorem rotate_modify {l : List α} {c i : ℕ} (hc : c < l.length) (hi : i < l.length) (f : α → α) :
    (l.modify i f).rotate c = (l.rotate c).modify (ringDist l.length c i) f := by
  apply List.ext_getElem?
  intro j
  by_cases hj : j < l.length
  · have hpos : (j + c) % l.length = if j + c < l.length then j + c else j + c - l.length := by
      split
      · rename_i hlt
        exact Nat.mod_eq_of_lt hlt
      · rw [Nat.mod_eq_sub_mod (by omega), Nat.mod_eq_of_lt (by omega)]
    have hsame : i = (j + c) % l.length ↔ ringDist l.length c i = j := by
      rw [hpos]
      unfold ringDist
      split <;> split <;> omega
    rw [List.getElem?_rotate (by simpa using hj), List.length_modify, List.getElem?_modify,
      List.getElem?_modify, List.getElem?_rotate hj]
    simp only [hsame]
  · rw [List.getElem?_eq_none (by simpa using hj), List.getElem?_eq_none (by simpa using hj)]

theorem rotate_set_succ {l : List α} {c : ℕ} (hc : c < l.length) (y : α) :
    ∃ rest, l.rotate c = l.get ⟨c, hc⟩ :: rest ∧
      (l.set c y).rotate ((c + 1) % l.length) = rest ++ [y] := by
  refine ⟨l.drop (c + 1) ++ l.take c, ?_, ?_⟩
  · rw [List.rotate_eq_drop_append_take hc.le, List.drop_eq_getElem_cons hc]
    rfl
  · have hlen : (l.set c y).length = l.length := List.length_set
    have hlast : (l.take (c + 1)).set c y = l.take c ++ [y] := by
      rw [List.take_succ_eq_append_getElem hc, List.set_append_right _ _ (by simp)]
      simp [Nat.min_eq_left hc.le]
    rw [← hlen, List.rotate_mod, List.rotate_eq_drop_append_take (by omega),
      List.drop_set_of_lt (by omega), List.take_set, hlast, List.append_assoc]

end Lib
