import Sylar.Spec.HashUtil
import Sylar.Spec.StringUtil

/-! Hexadecimal digits there and back. The first `switch` gives what the second does, shifted, so that
each digit is looked at once. -/

namespace Sylar

open Lib

open StringUtil (isxdigit)

theorem isSome_lowNibble (c : UInt8) : (lowNibble c).isSome = isxdigit c := by
  rw [lowNibble, isxdigit]
  split_ifs with hlower hupper hdigit
  · simp [hlower]
  · simp [hupper]
  · simp [hdigit]
  · simp [hlower, hupper, hdigit]

theorem highNibble_eq (c : UInt8) : highNibble c = (lowNibble c).map fun v : UInt8 => v <<< 4 := by
  rw [highNibble, lowNibble]
  split_ifs <;> rfl

theorem hexchar_of_lowNibble {c v : UInt8} (h : lowNibble c = some v) :
    v < 16 ∧ hexchar v = tolower c := by
  have hall := forall_byte (P := fun c => (lowNibble c).all fun v => v < 16 && hexchar v = tolower c)
    (by decide +kernel) c
  simpa [h] using hall

theorem nibbles_of_byte {v w : UInt8} (hv : v < 16) (hw : w < 16) :
    (v <<< 4 ||| w) >>> 4 &&& 0xf = v ∧ (v <<< 4 ||| w) &&& 0xf = w := by
  have h : ∀ n < 16, ∀ m < 16,
      (UInt8.ofNat n <<< 4 ||| UInt8.ofNat m) >>> 4 &&& 0xf = UInt8.ofNat n ∧
        (UInt8.ofNat n <<< 4 ||| UInt8.ofNat m) &&& 0xf = UInt8.ofNat m := by decide +kernel
  simpa using h v.toNat hv w.toNat hw

theorem lowNibble_hexchar {v : UInt8} (hv : v < 16) : lowNibble (hexchar v) = some v :=
  forall_nibble (P := fun v => lowNibble (hexchar v) = some v) (by decide) hv

theorem and_nibble {v : UInt8} (hv : v < 16) : v &&& 0xf = v :=
  forall_nibble (P := fun v => v &&& 0xf = v) (by decide) hv

theorem hexstring_from_data_eq (data : List UInt8) : hexstring_from_data data =
    data.flatMap fun c : UInt8 => [hexchar (c >>> 4 &&& 0xf), hexchar (c &&& 0xf)] := by
  rw [hexstring_from_data]
  split_ifs with h
  · rw [List.length_eq_zero_iff.mp h, List.flatMap_nil]
  · rfl

theorem hexstring_from_data_cons (c : UInt8) (data : List UInt8) : hexstring_from_data (c :: data) =
    hexchar (c >>> 4 &&& 0xf) :: hexchar (c &&& 0xf) :: hexstring_from_data data := by
  rw [hexstring_from_data_eq, hexstring_from_data_eq, List.flatMap_cons]
  rfl

theorem length_hexstring_from_data (data : List UInt8) :
    (hexstring_from_data data).length = 2 * data.length := by
  induction data with
  | nil => rfl
  | cons c data ih =>
    rw [hexstring_from_data_cons, List.length_cons, List.length_cons, List.length_cons, ih]
    omega

theorem data_from_hexstring_eq {h : List UInt8} (heven : h.length % 2 = 0) :
    data_from_hexstring h = data_from_hexstringLoop h := by
  rw [data_from_hexstring, if_neg (by omega)]
  split_ifs with hnil
  · rw [List.length_eq_zero_iff.mp hnil, data_from_hexstringLoop]
  · rfl

theorem hexLoop_of_digits {high low v w : UInt8} (hv : lowNibble high = some v)
    (hw : lowNibble low = some w) (rest : List UInt8) :
    data_from_hexstringLoop (high :: low :: rest) =
      (data_from_hexstringLoop rest).map ((v <<< 4 ||| w) :: ·) := by
  rw [data_from_hexstringLoop, highNibble_eq, hv, hw]
  cases data_from_hexstringLoop rest <;> rfl

theorem hexLoop_of_not_digit {high low : UInt8} (h : lowNibble high = none ∨ lowNibble low = none)
    (rest : List UInt8) : data_from_hexstringLoop (high :: low :: rest) =
      .error "data_from_hexstring invalid hexstring" := by
  rw [data_from_hexstringLoop, highNibble_eq]
  cases hv : lowNibble high with
  | none => rfl
  | some v =>
    have hlow : lowNibble low = none := h.resolve_left (by simp [hv])
    rw [hlow]
    rfl

theorem hexLoop_hexstring (data : List UInt8) :
    data_from_hexstringLoop (hexstring_from_data data) = .ok data := by
  induction data with
  | nil => rfl
  | cons c data ih =>
    obtain ⟨hhigh, hlow, hbyte⟩ := nibbles c
    rw [hexstring_from_data_cons, and_nibble hhigh,
      hexLoop_of_digits (lowNibble_hexchar hhigh) (lowNibble_hexchar hlow), ih, hbyte]
    rfl

/-- Two digits are written as they were read, but for their case. -/
theorem hexstring_of_digits {high low v w : UInt8} (hv : lowNibble high = some v)
    (hw : lowNibble low = some w) (data : List UInt8) :
    hexstring_from_data ((v <<< 4 ||| w) :: data) =
      tolower high :: tolower low :: hexstring_from_data data := by
  obtain ⟨hvlt, hvchar⟩ := hexchar_of_lowNibble hv
  obtain ⟨hwlt, hwchar⟩ := hexchar_of_lowNibble hw
  obtain ⟨hhigh, hlow⟩ := nibbles_of_byte hvlt hwlt
  rw [hexstring_from_data_cons, hhigh, hlow, hvchar, hwchar]

theorem hexLoop_ok : ∀ h : List UInt8, h.length % 2 = 0 → (∀ c ∈ h, isxdigit c = true) →
    ∃ data, data_from_hexstringLoop h = .ok data ∧ hexstring_from_data data = h.map tolower
  | [], _, _ => ⟨[], rfl, rfl⟩
  | [_], heven, _ => by simp at heven
  | high :: low :: rest, heven, hdigits => by
    obtain ⟨v, hv⟩ := Option.isSome_iff_exists.mp ((isSome_lowNibble high).trans (hdigits _ (by simp)))
    obtain ⟨w, hw⟩ := Option.isSome_iff_exists.mp ((isSome_lowNibble low).trans (hdigits _ (by simp)))
    obtain ⟨data, hdata, hstring⟩ := hexLoop_ok rest
      (by simp only [List.length_cons] at heven; omega)
      fun c hc => hdigits c (List.mem_cons_of_mem _ (List.mem_cons_of_mem _ hc))
    refine ⟨(v <<< 4 ||| w) :: data, ?_, ?_⟩
    · rw [hexLoop_of_digits hv hw, hdata]
      rfl
    · rw [hexstring_of_digits hv hw, hstring, List.map_cons, List.map_cons]

theorem hexLoop_error : ∀ h : List UInt8, (∃ c ∈ h, isxdigit c = false) →
    ∃ e, data_from_hexstringLoop h = .error e
  | [], hbad => by simp at hbad
  | [_], _ => ⟨_, rfl⟩
  | high :: low :: rest, hbad => by
    by_cases hnone : lowNibble high = none ∨ lowNibble low = none
    · exact ⟨_, hexLoop_of_not_digit hnone rest⟩
    · rw [not_or] at hnone
      obtain ⟨v, hv⟩ := Option.ne_none_iff_exists'.mp hnone.1
      obtain ⟨w, hw⟩ := Option.ne_none_iff_exists'.mp hnone.2
      obtain ⟨c, hc, hnot⟩ := hbad
      have hrest : c ∈ rest := by
        rcases List.mem_cons.mp hc with rfl | hc
        · rw [← isSome_lowNibble, hv] at hnot
          cases hnot
        · rcases List.mem_cons.mp hc with rfl | hc
          · rw [← isSome_lowNibble, hw] at hnot
            cases hnot
          · exact hc
      obtain ⟨e, he⟩ := hexLoop_error rest ⟨c, hrest, hnot⟩
      exact ⟨e, by rw [hexLoop_of_digits hv hw, he]; rfl⟩

theorem hexstring_codec (data h : List UInt8) :
    data_from_hexstring (hexstring_from_data data) = .ok data ∧
      ((∃ e, data_from_hexstring h = .error e) ↔
        h.length % 2 = 1 ∨ ∃ c ∈ h, isxdigit c = false) ∧
      ∀ bytes, data_from_hexstring h = .ok bytes → hexstring_from_data bytes = h.map tolower := by
  refine ⟨?_, ?_⟩
  · rw [data_from_hexstring_eq (by rw [length_hexstring_from_data]; omega), hexLoop_hexstring]
  · rcases Nat.mod_two_eq_zero_or_one h.length with heven | hodd
    · rw [data_from_hexstring_eq heven]
      by_cases hbad : ∃ c ∈ h, isxdigit c = false
      · obtain ⟨e, he⟩ := hexLoop_error h hbad
        rw [he]
        exact ⟨⟨fun _ => .inr hbad, fun _ => ⟨e, rfl⟩⟩, by rintro _ ⟨⟩⟩
      · obtain ⟨bytes, hbytes, hstring⟩ := hexLoop_ok h heven (by simpa using hbad)
        rw [hbytes]
        refine ⟨⟨by rintro ⟨_, ⟨⟩⟩, fun hor => ?_⟩, fun _ hok => Except.ok.inj hok ▸ hstring⟩
        exact absurd hor (not_or.mpr ⟨by omega, hbad⟩)
    · rw [data_from_hexstring, if_pos (by omega)]
      exact ⟨⟨fun _ => .inl hodd, fun _ => ⟨_, rfl⟩⟩, by rintro _ ⟨⟩⟩

end Sylar
