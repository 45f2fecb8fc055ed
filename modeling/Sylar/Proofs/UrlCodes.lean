import Sylar.Spec.StringUtil

/-! `UrlEncode` and `UrlDecode`. The copy that is made late is at each place what would have been
made from the start, so one works byte by byte and the other code by code. -/

namespace Sylar

open Lib

namespace StringUtil

variable (space_as_plus : Bool)

def encodeByte (c : UInt8) : List UInt8 :=
  if CHAR_IS_UNRESERVED c then [c]
  else if c = 0x20 && space_as_plus then [0x2B]
  else [0x25, hexdigit (c >>> 4), hexdigit (c &&& 0xF)]

def decodeBytes : List UInt8 → List UInt8
  | [] => []
  | c :: rest =>
      if c = 0x2B && space_as_plus then 0x20 :: decodeBytes rest
      else if c = 0x25 && 2 ≤ rest.length && isxdigit (rest.getD 0 0) && isxdigit (rest.getD 1 0) then
        (xdigit (rest.getD 0 0) <<< 4 ||| xdigit (rest.getD 1 0)) :: decodeBytes (rest.drop 2)
      else c :: decodeBytes rest
termination_by rest => rest.length
decreasing_by
  all_goals
    simp only [List.length_drop, List.length_cons]
    omega

theorem UrlEncodeLoop_getD (rest done : List UInt8) (ss : Option (List UInt8)) :
    (UrlEncodeLoop space_as_plus done ss rest).getD (done ++ rest) =
      ss.getD done ++ rest.flatMap (encodeByte space_as_plus) := by
  induction rest generalizing done ss with
  | nil => simp [UrlEncodeLoop]
  | cons c rest ih =>
    have hdone : done ++ c :: rest = done ++ [c] ++ rest := by simp
    rw [UrlEncodeLoop, List.flatMap_cons, hdone, encodeByte]
    by_cases hc : CHAR_IS_UNRESERVED c
    · rw [if_neg (by simp [hc]), if_pos hc, ih]
      cases ss <;> simp
    · rw [if_pos (by simp [hc]), if_neg hc]
      split_ifs
      · rw [ih]
        simp
      · rw [ih]
        simp

theorem UrlEncode_eq (str : List UInt8) :
    UrlEncode str space_as_plus = str.flatMap (encodeByte space_as_plus) := by
  simpa [UrlEncode] using UrlEncodeLoop_getD space_as_plus str [] none

theorem UrlDecodeLoop_getD (rest done : List UInt8) (ss : Option (List UInt8)) :
    (UrlDecodeLoop space_as_plus done ss rest).getD (done ++ rest) =
      ss.getD done ++ decodeBytes space_as_plus rest := by
  fun_induction decodeBytes space_as_plus rest generalizing done ss with
  | case1 => simp [UrlDecodeLoop]
  | case2 c rest hplus ih =>
    rw [UrlDecodeLoop, if_pos hplus, show done ++ c :: rest = done ++ [c] ++ rest by simp, ih]
    simp
  | case3 c rest hplus hcode ih =>
    have hdone : done ++ c :: rest = done ++ c :: rest.take 2 ++ rest.drop 2 := by simp
    rw [UrlDecodeLoop, if_neg hplus, if_pos hcode, hdone, ih]
    simp
  | case4 c rest hplus hcode ih =>
    rw [UrlDecodeLoop, if_neg hplus, if_neg hcode,
      show done ++ c :: rest = done ++ [c] ++ rest by simp, ih]
    cases ss <;> simp

theorem UrlDecode_eq (str : List UInt8) :
    UrlDecode str space_as_plus = decodeBytes space_as_plus str := by
  simpa [UrlDecode] using UrlDecodeLoop_getD space_as_plus str [] none

/-- The table has no code of its own for what stands for something else. -/
theorem ne_of_unreserved {c : UInt8} (hc : CHAR_IS_UNRESERVED c) : c ≠ 0x25 ∧ c ≠ 0x2B := by
  constructor
  · rintro rfl
    cases hc
  · rintro rfl
    cases hc

def isUpperHex (c : UInt8) : Bool := (48 ≤ c && c ≤ 57) || (65 ≤ c && c ≤ 70)

theorem hexdigit_nibble {v : UInt8} (hv : v < 16) :
    isUpperHex (hexdigit v) ∧ isxdigit (hexdigit v) ∧ xdigit (hexdigit v) = v :=
  forall_nibble (P := fun v => isUpperHex (hexdigit v) ∧ isxdigit (hexdigit v) ∧
    xdigit (hexdigit v) = v) (by decide) hv

theorem digits_of_byte (c : UInt8) :
    isxdigit (hexdigit (c >>> 4)) ∧ isxdigit (hexdigit (c &&& 0xF)) ∧
      xdigit (hexdigit (c >>> 4)) <<< 4 ||| xdigit (hexdigit (c &&& 0xF)) = c := by
  obtain ⟨hhigh, hlow, hbyte⟩ := nibbles c
  obtain ⟨-, hhexHigh, hvalHigh⟩ := hexdigit_nibble hhigh
  obtain ⟨-, hhexLow, hvalLow⟩ := hexdigit_nibble hlow
  rw [hvalHigh, hvalLow]
  exact ⟨hhexHigh, hhexLow, hbyte⟩

theorem decodeBytes_encodeByte (c : UInt8) (rest : List UInt8) :
    decodeBytes space_as_plus (encodeByte space_as_plus c ++ rest) =
      c :: decodeBytes space_as_plus rest := by
  rw [encodeByte]
  split_ifs with hc hspace
  · obtain ⟨hpercent, hplus⟩ := ne_of_unreserved hc
    rw [List.singleton_append, decodeBytes, if_neg (by simp [hplus]), if_neg (by simp [hpercent])]
  · obtain ⟨rfl, rfl⟩ : c = 0x20 ∧ space_as_plus = true := by simpa using hspace
    rw [List.singleton_append, decodeBytes, if_pos (by simp)]
  · obtain ⟨hhigh, hlow, hbyte⟩ := digits_of_byte c
    rw [List.cons_append, decodeBytes, if_neg (by simp), if_pos (by simp [hhigh, hlow])]
    simp [hbyte]

theorem decodeBytes_flatMap (str : List UInt8) :
    decodeBytes space_as_plus (str.flatMap (encodeByte space_as_plus)) = str := by
  induction str with
  | nil => rw [List.flatMap_nil, decodeBytes]
  | cons c str ih => rw [List.flatMap_cons, decodeBytes_encodeByte, ih]

/-- Unreserved characters, `%` with two digits behind it, and `+` only for a blank. -/
inductive UrlText : List UInt8 → Prop
  | nil : UrlText []
  | unreserved {c : UInt8} {text : List UInt8} (hc : CHAR_IS_UNRESERVED c) (h : UrlText text) :
      UrlText (c :: text)
  | code {high low : UInt8} {text : List UInt8} (hhigh : isUpperHex high) (hlow : isUpperHex low)
      (h : UrlText text) : UrlText (0x25 :: high :: low :: text)
  | plus {text : List UInt8} (hplus : space_as_plus = true) (h : UrlText text) :
      UrlText (0x2B :: text)

theorem urlText_encodeByte (c : UInt8) {text : List UInt8} (h : UrlText space_as_plus text) :
    UrlText space_as_plus (encodeByte space_as_plus c ++ text) := by
  rw [encodeByte]
  split_ifs with hc hspace
  · exact .unreserved hc h
  · exact .plus (by simpa using (Bool.and_eq_true_iff.mp hspace).2) h
  · obtain ⟨hhigh, hlow, -⟩ := nibbles c
    exact .code (hexdigit_nibble hhigh).1 (hexdigit_nibble hlow).1 h

theorem urlText_flatMap (str : List UInt8) :
    UrlText space_as_plus (str.flatMap (encodeByte space_as_plus)) := by
  induction str with
  | nil => exact .nil
  | cons c str ih =>
    rw [List.flatMap_cons]
    exact urlText_encodeByte space_as_plus c ih

theorem UrlText.not_mem {space_as_plus : Bool} {a : UInt8} (hunreserved : CHAR_IS_UNRESERVED a = false)
    (hhex : isUpperHex a = false) (hpercent : a ≠ 0x25) (hplus : a ≠ 0x2B) {text : List UInt8}
    (h : UrlText space_as_plus text) : a ∉ text := by
  induction h with
  | nil => exact List.not_mem_nil
  | unreserved hc _ ih =>
    refine List.not_mem_cons_of_ne_of_not_mem ?_ ih
    rintro rfl
    rw [hunreserved] at hc
    cases hc
  | code hhigh hlow _ ih =>
    have hne : ∀ c, isUpperHex c = true → a ≠ c := by
      rintro c hc rfl
      rw [hhex] at hc
      cases hc
    exact List.not_mem_cons_of_ne_of_not_mem hpercent
      (List.not_mem_cons_of_ne_of_not_mem (hne _ hhigh)
        (List.not_mem_cons_of_ne_of_not_mem (hne _ hlow) ih))
  | plus _ _ ih => exact List.not_mem_cons_of_ne_of_not_mem hplus ih

theorem UrlDecode_UrlEncode (str : List UInt8) :
    UrlDecode (UrlEncode str space_as_plus) space_as_plus = str ∧
      UrlText space_as_plus (UrlEncode str space_as_plus) := by
  rw [UrlDecode_eq, UrlEncode_eq]
  exact ⟨decodeBytes_flatMap space_as_plus str, urlText_flatMap space_as_plus str⟩

end StringUtil

end Sylar
