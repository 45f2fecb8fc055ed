import Sylar.Spec.HttpParams

/-! `MapType`: keys are equal that differ in their case only, or behind a zero. -/

namespace Sylar

def folded (key : List UInt8) : List UInt8 := (key.takeWhile (· ≠ 0)).map tolower

theorem strcasecmp_eq_iff (lhs rhs : List UInt8) :
    strcasecmp lhs rhs = .eq ↔ folded lhs = folded rhs := by
  rw [strcasecmp]
  exact Std.LawfulEqCmp.compare_eq_iff_eq

namespace MapType

variable (m : MapType) (kv : List UInt8 × List UInt8) (key : List UInt8)

theorem find_eq : m.find key = (m.find? fun i => folded i.1 = folded key).map Prod.snd := by
  simp only [find, strcasecmp_eq_iff]

theorem find_eq_none_iff : m.find key = none ↔ ∀ i ∈ m, folded i.1 ≠ folded key := by
  rw [find_eq, Option.map_eq_none_iff, List.find?_eq_none]
  simp

theorem find_congr {key' : List UInt8} (h : folded key = folded key') : m.find key = m.find key' := by
  rw [find_eq, find_eq, h]

theorem place_perm : (m.place kv).Perm (kv :: m) := by
  rw [place]
  refine List.perm_middle.trans ?_
  rw [List.takeWhile_append_dropWhile]

theorem mem_of_mem_insert {i : List UInt8 × List UInt8} (h : i ∈ m.insert kv) : i = kv ∨ i ∈ m := by
  rw [insert] at h
  split_ifs at h
  · exact .inr h
  · exact List.mem_cons.mp ((place_perm m kv).mem_iff.mp h)

theorem find_place (hnew : m.find kv.1 = none) :
    (m.place kv).find key = if folded kv.1 = folded key then some kv.2 else m.find key := by
  rw [find_eq_none_iff] at hnew
  have hsplit : ∀ l : MapType, (∀ i ∈ l, i ∈ m) → folded kv.1 = folded key →
      l.find? (fun i => folded i.1 = folded key) = none := fun l hl hkey =>
    List.find?_eq_none.mpr fun i hi => by simpa [← hkey] using hnew i (hl i hi)
  rw [find_eq, find_eq, place, List.find?_append, List.find?_cons]
  split_ifs with hkey
  · rw [hsplit _ (fun i hi => (List.takeWhile_prefix _).subset hi) hkey, decide_eq_true hkey]
    rfl
  · rw [decide_eq_false hkey]
    dsimp only
    rw [← List.find?_append, List.takeWhile_append_dropWhile]

theorem find_insert :
    (m.insert kv).find key = (m.find key).or (if folded kv.1 = folded key then some kv.2 else none) := by
  rw [insert]
  cases hold : m.find kv.1 with
  | none =>
    rw [Option.isSome_none, if_neg Bool.false_ne_true, find_place m kv key hold]
    split_ifs with hkey
    · rw [← find_congr m kv.1 hkey, hold, Option.none_or]
    · rw [Option.or_none]
  | some val =>
    rw [Option.isSome_some, if_pos rfl]
    split_ifs with hkey
    · rw [← find_congr m kv.1 hkey, hold, Option.some_or]
    · rw [Option.or_none]

theorem find_foldl_insert (kvs : List (List UInt8 × List UInt8)) :
    (kvs.foldl insert m).find key = (m.find key).or (find kvs key) := by
  induction kvs generalizing m with
  | nil => exact (Option.or_none).symm
  | cons kv kvs ih =>
    rw [List.foldl_cons, ih, find_insert, Option.or_assoc, find_eq kvs, find_eq (kv :: kvs),
      List.find?_cons]
    split_ifs with hkey
    · rw [decide_eq_true hkey]
      rfl
    · rw [decide_eq_false hkey, Option.none_or]

theorem mem_of_mem_foldl_insert (kvs : List (List UInt8 × List UInt8)) {i : List UInt8 × List UInt8}
    (h : i ∈ kvs.foldl insert m) : i ∈ m ∨ i ∈ kvs := by
  induction kvs generalizing m with
  | nil => exact .inl h
  | cons kv kvs ih =>
    rcases ih (m.insert kv) h with hm | hkvs
    · rcases mem_of_mem_insert m kv hm with rfl | hm
      · exact .inr List.mem_cons_self
      · exact .inl hm
    · exact .inr (List.mem_cons_of_mem _ hkvs)

theorem foldl_insert_perm (kvs : List (List UInt8 × List UInt8))
    (h : (m ++ kvs).Pairwise fun i j => folded i.1 ≠ folded j.1) :
    (kvs.foldl insert m).Perm (m ++ kvs) := by
  induction kvs generalizing m with
  | nil => rw [List.foldl_nil, List.append_nil]
  | cons kv kvs ih =>
    have hnew : m.find kv.1 = none := (find_eq_none_iff m kv.1).mpr fun i hi =>
      (List.pairwise_append.mp h).2.2 i hi kv List.mem_cons_self
    have hplace : (m.place kv ++ kvs).Perm (m ++ kv :: kvs) :=
      ((place_perm m kv).append_right kvs).trans List.perm_middle.symm
    have hinsert : m.insert kv = m.place kv := by
      rw [insert, hnew, Option.isSome_none, if_neg Bool.false_ne_true]
    rw [List.foldl_cons, hinsert]
    exact (ih _ (hplace.symm.pairwise h fun hij hji => hij hji.symm)).trans hplace

end MapType

end Sylar
