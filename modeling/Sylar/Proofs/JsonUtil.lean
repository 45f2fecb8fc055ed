import Sylar.Spec.JsonUtil

/-! `Escape`. The two passes agree, but the second adds its text to a string that has its length
already, so that it comes behind as many zeros. -/

namespace Sylar

namespace JsonUtil

/-- The escapes of two characters read back; any other character stands for itself. -/
def unescape : List UInt8 → Option (List UInt8)
  | [] => some []
  | c :: rest =>
      if c = 0x5C then
        match rest with
        | [] => none
        | e :: rest => do
            let c ← [(0x66, 0x0C), (0x74, 0x09), (0x72, 0x0D), (0x6E, 0x0A), (0x62, 0x08), (0x22, 0x22),
              (0x5C, 0x5C), (0x2F, 0x2F)].lookup e
            (unescape rest).map (c :: ·)
      else (unescape rest).map (c :: ·)

/-- What is said of the text for `v`. -/
structure Escapes (v : List UInt8) : Prop where
  text : Escape v = v.flatMap escaped
  size : (Escape v).length = escapedSize v
  back : unescape (Escape v) = some v
  same : NeedEscape v = false ↔ Escape v = v

theorem length_escaped (c : UInt8) : (escaped c).length = if special c then 2 else 1 := by
  unfold escaped special
  split_ifs <;> simp_all [ascii]

theorem escaped_eq_self {c : UInt8} (h : special c = false) : escaped c = [c] := by
  simp only [special, Bool.or_eq_false_iff, decide_eq_false_iff_not] at h
  simp [escaped, h]

theorem unescape_escaped (c : UInt8) (rest : List UInt8) :
    unescape (escaped c ++ rest) = (unescape rest).map (c :: ·) := by
  by_cases hc : special c
  · simp only [special, Bool.or_eq_true, decide_eq_true_eq] at hc
    rcases hc with (((((rfl | rfl) | rfl) | rfl) | rfl) | rfl) | rfl <;> rfl
  · have hne : c ≠ 0x5C := by
      rintro rfl
      exact hc rfl
    rw [escaped_eq_self (by simpa using hc), List.singleton_append, unescape.eq_def]
    exact if_neg hne

theorem escapedSize_eq (v : List UInt8) : escapedSize v = v.length + v.countP special := by
  have h : ∀ (v : List UInt8) (size : ℕ),
      v.foldl (fun size c => if special c then size + 2 else size + 1) size =
        size + (v.length + v.countP special) := by
    intro v
    induction v with
    | nil => simp
    | cons c v ih =>
      intro size
      rw [List.foldl_cons, ih, List.length_cons, List.countP_cons]
      split_ifs <;> omega
  simpa [escapedSize] using h v 0

theorem length_flatMap_escaped (v : List UInt8) : (v.flatMap escaped).length = escapedSize v := by
  induction v with
  | nil => rfl
  | cons c v ih =>
    rw [escapedSize_eq] at ih ⊢
    rw [List.flatMap_cons, List.length_append, ih, length_escaped, List.length_cons, List.countP_cons]
    split_ifs <;> omega

theorem unescape_flatMap (v : List UInt8) : unescape (v.flatMap escaped) = some v := by
  induction v with
  | nil => rfl
  | cons c v ih => rw [List.flatMap_cons, unescape_escaped, ih, Option.map_some]

theorem escapedSize_eq_length_iff (v : List UInt8) : escapedSize v = v.length ↔ NeedEscape v = false := by
  rw [escapedSize_eq, NeedEscape, Nat.add_eq_left, List.countP_eq_zero, List.any_eq_false]

theorem foldl_escaped (v rt : List UInt8) :
    v.foldl (fun rt c => rt ++ escaped c) rt = rt ++ v.flatMap escaped := by
  induction v generalizing rt with
  | nil => simp
  | cons c v ih => rw [List.foldl_cons, ih, List.flatMap_cons, List.append_assoc]

theorem Escape_of_not_need {v : List UInt8} (h : NeedEscape v = false) : Escape v = v := by
  rw [Escape, if_pos ((escapedSize_eq_length_iff v).mpr h)]

theorem Escape_of_need {v : List UInt8} (h : NeedEscape v = true) :
    Escape v = List.replicate (escapedSize v) 0 ++ v.flatMap escaped := by
  have hne : escapedSize v ≠ v.length := fun he => by
    simp [(escapedSize_eq_length_iff v).mp he] at h
  rw [Escape, if_neg hne, foldl_escaped]

theorem escapes_iff (v : List UInt8) : Escapes v ↔ NeedEscape v = false := by
  constructor
  · intro h
    by_contra hneed
    rw [Bool.not_eq_false] at hneed
    -- the zeros in front make the text longer than its size
    have hsize := h.size
    rw [Escape_of_need hneed, List.length_append, List.length_replicate, length_flatMap_escaped,
      escapedSize_eq] at hsize
    have hnil : v = [] := List.length_eq_zero_iff.mp (by omega)
    rw [hnil] at hneed
    cases hneed
  · intro h
    have htext : v.flatMap escaped = v := by
      rw [NeedEscape, List.any_eq_false] at h
      rw [List.flatMap_congr fun c hc => escaped_eq_self (by simpa using h c hc),
        List.flatMap_singleton']
    constructor
    · rw [Escape_of_not_need h, htext]
    · rw [Escape_of_not_need h, (escapedSize_eq_length_iff v).mpr h]
    · rw [Escape_of_not_need h]
      conv_lhs => rw [← htext]
      exact unescape_flatMap v
    · exact ⟨fun _ => Escape_of_not_need h, fun _ => h⟩

theorem Escape_puts_zeros : ¬ Escapes (ascii "a\"b") := by
  intro h
  have := h.size
  revert this
  decide

end JsonUtil

end Sylar
