import Sylar.Spec.HashUtil

/-! `split` at a character, with a limit that counts down through zero. -/

namespace Sylar

open Lib

variable {delim : UInt8}

theorem splitLoop_last (pre : List UInt8) {rest : List UInt8} (h : delim ∉ rest) (max : UInt64) :
    splitLoop (pre ++ rest) delim pre.length max = [rest] := by
  rw [splitLoop]
  split
  · rw [List.drop_left]
  · rename_i pos hpos
    rw [findFrom_singleton_eq_none pre h] at hpos
    cases hpos

theorem splitLoop_piece (pre : List UInt8) {x : List UInt8} (hx : delim ∉ x) (y : List UInt8)
    (max : UInt64) : splitLoop (pre ++ (x ++ delim :: y)) delim pre.length max =
      x :: if max - 1 = 1 then [y]
        else splitLoop (pre ++ (x ++ [delim]) ++ y) delim (pre ++ (x ++ [delim])).length (max - 1) := by
  have hstr : pre ++ (x ++ delim :: y) = pre ++ (x ++ [delim]) ++ y := by simp
  have hlast : pre.length + x.length + 1 = (pre ++ (x ++ [delim])).length := by
    simp only [List.length_append, List.length_singleton, Nat.add_assoc]
  rw [splitLoop]
  split
  · rename_i hpos
    rw [findFrom_singleton_eq_some pre hx y] at hpos
    cases hpos
  · rename_i pos hpos
    rw [findFrom_singleton_eq_some pre hx y, Option.some.injEq] at hpos
    subst hpos
    rw [Nat.add_sub_cancel_left, substr_append, hlast, hstr, List.drop_left]

theorem splitLoop_ne_nil (rest pre : List UInt8) (max : UInt64) :
    splitLoop (pre ++ rest) delim pre.length max ≠ [] := by
  rcases cut_singleton_cases delim rest with h | ⟨x, y, rfl, hx⟩
  · rw [splitLoop_last pre h]
    exact List.cons_ne_nil _ _
  · rw [splitLoop_piece pre hx]
    exact List.cons_ne_nil _ _

theorem intercalate_splitLoop (rest pre : List UInt8) (max : UInt64) :
    [delim].intercalate (splitLoop (pre ++ rest) delim pre.length max) = rest := by
  induction rest using cut_induction delim generalizing pre max with
  | none rest h => rw [splitLoop_last pre h, List.intercalate_singleton]
  | some x y hx ih =>
    rw [splitLoop_piece pre hx]
    split_ifs
    · rw [List.intercalate_cons_cons, List.intercalate_singleton, List.append_assoc,
        List.singleton_append]
    · rw [List.intercalate_cons_of_ne_nil (splitLoop_ne_nil y _ _), ih, List.append_assoc,
        List.singleton_append]

theorem not_mem_dropLast_splitLoop (rest pre : List UInt8) (max : UInt64) :
    ∀ piece ∈ (splitLoop (pre ++ rest) delim pre.length max).dropLast, delim ∉ piece := by
  induction rest using cut_induction delim generalizing pre max with
  | none rest h =>
    rw [splitLoop_last pre h]
    simp
  | some x y hx ih =>
    rw [splitLoop_piece pre hx]
    split_ifs
    · simpa using hx
    · rw [List.dropLast_cons_of_ne_nil (splitLoop_ne_nil y _ _), List.forall_mem_cons]
      exact ⟨hx, ih _ _⟩

theorem not_mem_splitLoop (rest pre : List UInt8) (max : UInt64)
    (hmax : rest.count delim < (max - 1).toNat) :
    ∀ piece ∈ splitLoop (pre ++ rest) delim pre.length max, delim ∉ piece := by
  induction rest using cut_induction delim generalizing pre max with
  | none rest h =>
    rw [splitLoop_last pre h]
    simpa using h
  | some x y hx ih =>
    rw [List.count_append, List.count_cons_self] at hmax
    have hval : (1 : UInt64).toNat = 1 := rfl
    have hne : max - 1 ≠ 1 := fun h => by
      rw [h] at hmax
      omega
    have hone : (1 : UInt64) ≤ max - 1 := by
      rw [UInt64.le_iff_toNat_le]
      omega
    rw [splitLoop_piece pre hx, if_neg hne, List.forall_mem_cons]
    refine ⟨hx, ih _ _ ?_⟩
    rw [UInt64.toNat_sub_of_le _ _ hone]
    omega

theorem split_pieces (str : List UInt8) (delim : UInt8) (max : UInt64) (hne : str ≠ [])
    (hlen : str.length < 2 ^ 63) :
    [delim].intercalate (split str delim max) = str ∧
      (max = 0 ∨ max = 0xffffffffffffffff → ∀ piece ∈ split str delim max, delim ∉ piece) ∧
      ∀ piece ∈ (split str delim max).dropLast, delim ∉ piece := by
  rw [split, if_neg hne]
  refine ⟨intercalate_splitLoop str [] max, fun hmax => ?_, not_mem_dropLast_splitLoop str [] max⟩
  refine not_mem_splitLoop str [] max (Nat.lt_of_le_of_lt List.count_le_length ?_)
  rcases hmax with rfl | rfl
  · exact Nat.lt_trans hlen (by decide)
  · exact Nat.lt_trans hlen (by decide)

theorem split_pieces_commas :
    [44].intercalate (split (ascii "a,,b") 44 0) = ascii "a,,b" ∧
      ((0 : UInt64) = 0 ∨ (0 : UInt64) = 0xffffffffffffffff →
        ∀ piece ∈ split (ascii "a,,b") 44 0, 44 ∉ piece) ∧
      ∀ piece ∈ (split (ascii "a,,b") 44 0).dropLast, 44 ∉ piece :=
  split_pieces (ascii "a,,b") 44 0 (by decide) (by decide)

end Sylar
