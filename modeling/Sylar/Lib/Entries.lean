import Mathlib.Tactic

/-! Entries under keys, in a list of which the first under a key is the one that is found. Putting an
entry replaces what is under its key, or adds it behind the others. -/

namespace Lib

namespace Entries

variable {K V : Type*} [DecidableEq K] {key key' : K} {value : V}

theorem lookup_cons (key key' : K) (value : V) (entries : List (K × V)) :
    ((key, value) :: entries).lookup key' =
      if key' = key then some value else entries.lookup key' := by
  rw [List.lookup_cons]
  by_cases h : key' = key
  · rw [if_pos h, h, beq_self_eq_true]
  · rw [if_neg h, beq_eq_false_iff_ne.mpr h]

theorem lookup_replaced {entries : List (K × V)} (h : (entries.lookup key).isSome) :
    (entries.map fun e => if e.1 = key then (key, value) else e).lookup key = some value := by
  induction entries with
  | nil => cases h
  | cons e entries ih =>
    obtain ⟨k, v⟩ := e
    rw [List.map_cons]
    by_cases hk : k = key
    · rw [if_pos hk, lookup_cons, if_pos rfl]
    · rw [lookup_cons, if_neg (Ne.symm hk)] at h
      rw [if_neg hk, lookup_cons, if_neg (Ne.symm hk), ih h]

theorem lookup_replaced_ne (hne : key' ≠ key) (entries : List (K × V)) :
    (entries.map fun e => if e.1 = key then (key, value) else e).lookup key' =
      entries.lookup key' := by
  induction entries with
  | nil => rfl
  | cons e entries ih =>
    obtain ⟨k, v⟩ := e
    rw [List.map_cons]
    by_cases hk : k = key
    · rw [if_pos hk, lookup_cons, lookup_cons, if_neg hne, if_neg (hk ▸ hne), ih]
    · rw [if_neg hk, lookup_cons, lookup_cons, ih]

theorem lookup_put (key key' : K) (value : V) (entries : List (K × V)) :
    (if (entries.lookup key).isSome then
        entries.map fun e => if e.1 = key then (key, value) else e
      else entries ++ [(key, value)]).lookup key' =
      if key' = key then some value else entries.lookup key' := by
  by_cases hkey : key' = key
  · subst hkey
    rw [if_pos rfl]
    split_ifs with hsome
    · exact lookup_replaced hsome
    · rw [Option.not_isSome_iff_eq_none] at hsome
      rw [List.lookup_append, hsome, Option.none_or, lookup_cons, if_pos rfl]
  · rw [if_neg hkey]
    split_ifs
    · exact lookup_replaced_ne hkey entries
    · rw [List.lookup_append, lookup_cons, if_neg hkey, List.lookup_nil, Option.or_none]

end Entries

end Lib
