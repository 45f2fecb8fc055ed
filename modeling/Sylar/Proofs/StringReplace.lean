import Sylar.Spec.HashUtil

/-! `replace`. The index moves on by what was put in, so what is behind it is what is left of the
first string; with nothing to be found it stays as far from the end as it is. -/

namespace Sylar

open Lib

def Returns (f : ℕ → Option (List UInt8)) (r : List UInt8) : Prop := ∃ n, ∀ turns ≥ n, f turns = some r

/-- What is said of the three overloads. -/
structure Replaces (str find replaceWith : List UInt8) : Prop where
  returns : ∃ r, Returns (fun turns => replace turns str find replaceWith) r
  text : find ≠ [] →
    Returns (fun turns => replace turns str find replaceWith) (replaceAll find replaceWith str)
  charString : ∀ c, find = [c] →
    ∀ turns, replaceCharString turns str c replaceWith = replace turns str find replaceWith
  char : ∀ c c', find = [c] → replaceWith = [c'] →
    ∀ turns, replaceChar turns str c c' = replace turns str find replaceWith

variable {find : List UInt8} (replaceWith : List UInt8)

/-- `done` is what the loop has made so far, `rest` what it has not looked at. -/
theorem replaceLoop_done (hne : find ≠ []) (rest done : List UInt8) (turns : ℕ)
    (hturns : rest.length ≤ turns) :
    replaceLoop find replaceWith turns (done ++ rest) (findFrom find (done ++ rest) done.length) =
      some (done ++ replaceAll find replaceWith rest) := by
  induction turns generalizing rest done with
  | zero =>
    obtain rfl : rest = [] := List.length_eq_zero_iff.mp (Nat.le_zero.mp hturns)
    rw [findFrom_append, cut, if_neg hne, Option.map_none, replaceLoop, replaceAll]
  | succ turns ih =>
    rw [findFrom_append]
    cases h : cut find rest with
    | none => rw [Option.map_none, replaceLoop, replaceAll_of_cut_eq_none h]
    | some c =>
      obtain ⟨x, y⟩ := c
      have hrest := eq_of_cut h
      have hpos := List.length_pos_iff.mpr hne
      have hy : y.length ≤ turns := by
        have := congrArg List.length hrest
        simp only [List.length_append] at this
        omega
      have hfront : substr (done ++ rest) 0 (done.length + x.length) = done ++ x := by
        rw [hrest, substr, List.drop_zero, ← List.append_assoc,
          List.take_left' (by rw [List.length_append])]
      have hback : (done ++ rest).drop (done.length + x.length + find.length) = y := by
        rw [hrest, ← List.append_assoc, ← List.append_assoc,
          List.drop_left' (by simp only [List.length_append])]
      rw [Option.map_some, replaceLoop]
      dsimp only
      rw [hfront, hback, ← List.length_append, ← List.length_append, ih y _ hy,
        replaceAll_of_cut hne h]
      simp only [List.append_assoc]

theorem replace_returns (hne : find ≠ []) (str : List UInt8) :
    Returns (fun turns => replace turns str find replaceWith) (replaceAll find replaceWith str) :=
  ⟨str.length, fun turns hturns => replaceLoop_done replaceWith hne str [] turns hturns⟩

theorem findFrom_empty {str : List UInt8} {pos : ℕ} (h : pos ≤ str.length) :
    findFrom [] str pos = some pos := by
  rw [findFrom, if_pos h, cut_nil_part, Option.map_some, List.length_nil, Nat.add_zero]

theorem replaceLoop_empty (turns : ℕ) (str : List UInt8) (index : ℕ) (h : index ≤ str.length) :
    replaceLoop [] replaceWith turns str (some index) = none := by
  induction turns generalizing str index with
  | zero => rw [replaceLoop]
  | succ turns ih =>
    have hle : index + replaceWith.length ≤
        (substr str 0 index ++ replaceWith ++ str.drop (index + ([] : List UInt8).length)).length := by
      simp only [substr, List.drop_zero, List.length_append, List.length_take]
      omega
    rw [replaceLoop, findFrom_empty hle]
    exact ih _ _ hle

theorem not_returns_empty (str r : List UInt8) :
    ¬ Returns (fun turns => replace turns str [] replaceWith) r := by
  rintro ⟨n, hr⟩
  have hnone : replace n str [] replaceWith = none := by
    rw [replace, findFrom_empty (Nat.zero_le _)]
    exact replaceLoop_empty replaceWith n str 0 (Nat.zero_le _)
  have hsome : replace n str [] replaceWith = some r := hr n (Nat.le_refl n)
  rw [hnone] at hsome
  cases hsome

theorem replaceCharStringLoop_eq (c : UInt8) (turns : ℕ) (str : List UInt8) (index : Option ℕ) :
    replaceCharStringLoop c replaceWith turns str index =
      replaceLoop [c] replaceWith turns str index := by
  induction turns generalizing str index with
  | zero => cases index <;> rfl
  | succ turns ih =>
    cases index with
    | none => rfl
    | some index => exact ih _ _

theorem replaceCharLoop_eq (c c' : UInt8) (turns : ℕ) (str : List UInt8) (index : Option ℕ)
    (h : ∀ i, index = some i → i < str.length) :
    replaceCharLoop c c' turns str index = replaceLoop [c] [c'] turns str index := by
  induction turns generalizing str index with
  | zero => cases index <;> rfl
  | succ turns ih =>
    cases index with
    | none => rfl
    | some index =>
      have hset : str.set index c' =
          substr str 0 index ++ [c'] ++ str.drop (index + [c].length) := by
        rw [List.set_eq_take_append_cons_drop, if_pos (h index rfl), substr, List.drop_zero,
          List.append_assoc]
        rfl
      rw [replaceCharLoop, replaceLoop, ← hset]
      exact ih _ _ fun i hi => (findFrom_singleton_lt hi).2

theorem replaces_iff (str find replaceWith : List UInt8) :
    Replaces str find replaceWith ↔ find ≠ [] := by
  constructor
  · rintro h rfl
    obtain ⟨r, hr⟩ := h.returns
    exact not_returns_empty replaceWith str r hr
  · intro hne
    constructor
    · exact ⟨_, replace_returns replaceWith hne str⟩
    · exact fun _ => replace_returns replaceWith hne str
    · rintro c rfl turns
      exact replaceCharStringLoop_eq replaceWith c turns _ _
    · rintro c c' rfl rfl turns
      exact replaceCharLoop_eq c c' turns _ _ fun i hi => (findFrom_singleton_lt hi).2

theorem replace_of_nothing : ¬ Replaces (ascii "a") [] [] := by
  intro h
  obtain ⟨r, hr⟩ := h.returns
  exact not_returns_empty [] (ascii "a") r hr

end Sylar
