import Sylar.Spec.StringUtil

/-! `Trim`, `TrimLeft` and `TrimRight`. `TrimRight` gives the length as `end` where `Trim` adds one, so
the last character that it is to keep is gone too. -/

namespace Sylar

open Lib

namespace StringUtil

variable {str delimit a m b : List UInt8}

/-- What is said of the three together. -/
structure TrimsTogether (str delimit : List UInt8) : Prop where
  right_left : Trim str delimit = TrimRight (TrimLeft str delimit) delimit
  left_right : Trim str delimit = TrimLeft (TrimRight str delimit) delimit
  right : TrimRight str delimit = str.rdropWhile delimit.contains
  left : TrimLeft str delimit = str.dropWhile delimit.contains
  right_right : TrimRight (TrimRight str delimit) delimit = TrimRight str delimit
  left_left : TrimLeft (TrimLeft str delimit) delimit = TrimLeft str delimit

theorem find_first_not_of_eq_none (h : ∀ c ∈ str, delimit.contains c = true) :
    find_first_not_of str delimit = none := by
  rw [find_first_not_of, List.findIdx?_eq_none_iff]
  simpa using h

theorem find_last_not_of_eq_none (h : ∀ c ∈ str, delimit.contains c = true) :
    find_last_not_of str delimit = none := by
  rw [find_last_not_of, Option.map_eq_none_iff, List.findIdx?_eq_none_iff]
  simpa using h

theorem trims_eq_nil (h : ∀ c ∈ str, delimit.contains c = true) :
    Trim str delimit = [] ∧ TrimLeft str delimit = [] ∧ TrimRight str delimit = [] := by
  rw [Trim, TrimLeft, TrimRight, find_first_not_of_eq_none h, find_last_not_of_eq_none h]
  exact ⟨rfl, rfl, rfl⟩

theorem find_first_not_of_eq (h : Ends delimit.contains str a m b) :
    find_first_not_of str delimit = some a.length := h.findIdx

theorem find_last_not_of_eq (h : Ends delimit.contains str a m b) :
    find_last_not_of str delimit = some (a.length + (m.length - 1)) := by
  have hpos := h.pos
  rw [find_last_not_of, h.findIdx_reverse, Option.map_some, h.eq]
  simp only [List.length_append]
  congr 1
  omega

theorem Trim_of_ends (h : Ends delimit.contains str a m b) : Trim str delimit = m := by
  have hpos := h.pos
  rw [Trim, find_first_not_of_eq h, find_last_not_of_eq h]
  dsimp only
  rw [show a.length + (m.length - 1) - a.length + 1 = m.length by omega, h.eq, substr_append]

theorem Trim_eq (str delimit : List UInt8) :
    Trim str delimit = (str.dropWhile delimit.contains).rdropWhile delimit.contains := by
  rcases ends_cases delimit.contains str with hall | ⟨a, m, b, h⟩
  · rw [(trims_eq_nil hall).1, List.dropWhile_eq_nil_iff.mpr hall, List.rdropWhile_nil]
  · rw [Trim_of_ends h, h.dropWhile, h.of_front.rdropWhile, List.nil_append]

theorem TrimLeft_eq (str delimit : List UInt8) :
    TrimLeft str delimit = str.dropWhile delimit.contains := by
  rcases ends_cases delimit.contains str with hall | ⟨a, m, b, h⟩
  · rw [(trims_eq_nil hall).2.1, List.dropWhile_eq_nil_iff.mpr hall]
  · rw [h.dropWhile, TrimLeft, find_first_not_of_eq h]
    dsimp only
    rw [h.eq, List.drop_left]

theorem TrimRight_eq (str delimit : List UInt8) :
    TrimRight str delimit = (str.rdropWhile delimit.contains).dropLast := by
  rcases ends_cases delimit.contains str with hall | ⟨a, m, b, h⟩
  · rw [(trims_eq_nil hall).2.2, List.rdropWhile_eq_nil_iff.mpr hall, List.dropLast_nil]
  · have hpos := h.pos
    rw [h.rdropWhile, TrimRight, find_last_not_of_eq h]
    dsimp only
    rw [h.eq, substr, List.drop_zero, ← List.append_assoc,
      List.take_append_of_le_length (by rw [List.length_append]; omega), List.dropLast_eq_take,
      List.length_append, Nat.add_sub_assoc hpos]

theorem trimsTogether_iff (str delimit : List UInt8) :
    TrimsTogether str delimit ↔ ∀ c ∈ str, c ∈ delimit := by
  constructor
  · intro h
    -- only of nothing can one character more be gone
    have hright := congrArg List.length h.right
    rw [TrimRight_eq, List.length_dropLast] at hright
    have hnil : str.rdropWhile delimit.contains = [] := List.length_eq_zero_iff.mp (by omega)
    simpa using List.rdropWhile_eq_nil_iff.mp hnil
  · intro h
    have hall : ∀ c ∈ str, delimit.contains c = true := by simpa using h
    obtain ⟨htrim, hleft, hright⟩ := trims_eq_nil hall
    obtain ⟨-, hleft', hright'⟩ := trims_eq_nil (List.forall_mem_nil fun c => delimit.contains c = true)
    constructor
    · rw [htrim, hleft, hright']
    · rw [htrim, hright, hleft']
    · rw [hright, List.rdropWhile_eq_nil_iff.mpr hall]
    · exact TrimLeft_eq str delimit
    · rw [hright, hright']
    · rw [hleft, hleft']

theorem TrimRight_takes_the_last : ¬ TrimsTogether (ascii "ab ") whitespace := by
  intro h
  have := h.right
  revert this
  decide

end StringUtil

end Sylar
