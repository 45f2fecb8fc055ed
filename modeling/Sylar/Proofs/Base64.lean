import Sylar.Spec.HashUtil

/-! Base 64 there and back. `Coded` says group by group which bytes a text stands for; the decoder
follows it, or gives nothing where there is no such text, and never fills more than its buffer. -/

namespace Sylar

open Lib

/-- A sequence of groups of four characters with at most two `=` at its end. -/
structure Base64Text (s : List UInt8) : Prop where
  nonempty : s ≠ []
  groups : s.length % 4 = 0
  padded : ∃ body padding, s = body ++ List.replicate padding 61 ∧ padding ≤ 2 ∧
    ∀ c ∈ body, ∃ i < 64, base64 i = c

/-- What the last character has beyond the last byte. -/
structure UnusedBitsZero (s : List UInt8) : Prop where
  two : ∀ pre, ∀ i < 64, s = pre ++ [base64 i, 61] → i % 4 = 0
  four : ∀ pre, ∀ i < 64, s = pre ++ [base64 i, 61, 61] → i % 16 = 0

theorem base64val_base64 {i : ℕ} (h : i < 64) : base64val (base64 i) = some i :=
  (by decide +kernel : ∀ i < 64, base64val (base64 i) = some i) i h

theorem base64_of_base64val {c : UInt8} {v : ℕ} (h : base64val c = some v) : v < 64 ∧ base64 v = c :=
  forall_byte (P := fun c => ∀ v ∈ base64val c, v < 64 ∧ base64 v = c) (by decide +kernel) c v h

theorem ne_padding {c : UInt8} {v : ℕ} (h : base64val c = some v) : c ≠ 61 := by
  rintro rfl
  cases h

inductive Coded : List UInt8 → List UInt8 → Prop
  | nil : Coded [] []
  | three {c₁ c₂ c₃ c₄ : UInt8} {v₁ v₂ v₃ v₄ n : ℕ} {rest data : List UInt8}
      (h₁ : base64val c₁ = some v₁) (h₂ : base64val c₂ = some v₂) (h₃ : base64val c₃ = some v₃)
      (h₄ : base64val c₄ = some v₄) (hn : n = ((v₁ * 64 + v₂) * 64 + v₃) * 64 + v₄)
      (h : Coded rest data) :
      Coded (c₁ :: c₂ :: c₃ :: c₄ :: rest)
        (UInt8.ofNat (n / 65536) :: UInt8.ofNat (n / 256) :: UInt8.ofNat n :: data)
  | two {c₁ c₂ c₃ : UInt8} {v₁ v₂ v₃ n : ℕ}
      (h₁ : base64val c₁ = some v₁) (h₂ : base64val c₂ = some v₂) (h₃ : base64val c₃ = some v₃)
      (hn : n = ((v₁ * 64 + v₂) * 64 + v₃) * 64) :
      Coded [c₁, c₂, c₃, 61] [UInt8.ofNat (n / 65536), UInt8.ofNat (n / 256)]
  | one {c₁ c₂ : UInt8} {v₁ v₂ n : ℕ}
      (h₁ : base64val c₁ = some v₁) (h₂ : base64val c₂ = some v₂)
      (hn : n = ((v₁ * 64 + v₂) * 64) * 64) :
      Coded [c₁, c₂, 61, 61] [UInt8.ofNat (n / 65536)]

theorem base64encode_nil : base64encode [] = [] := by
  rw [base64encode, if_pos rfl]

theorem packed_byte (packed : ℕ) (c : UInt8) : packed <<< 8 ||| c.toNat = packed * 256 + c.toNat := by
  have hc := c.toNat_lt
  rw [← Nat.shiftLeft_add_eq_or_of_lt (by simpa using hc), Nat.shiftLeft_eq]

theorem and_3f (n : ℕ) : n &&& 0x3f = n % 64 := Nat.and_two_pow_sub_one_eq_mod n 6

theorem base64encode_three (a b c : UInt8) (rest : List UInt8) (n : ℕ)
    (hn : n = (a.toNat * 256 + b.toNat) * 256 + c.toNat) :
    base64encode (a :: b :: c :: rest) =
      base64 (n / 262144) :: base64 (n / 4096 % 64) :: base64 (n / 64 % 64) :: base64 (n % 64) ::
        base64encode rest := by
  rw [base64encode, if_neg (by simp)]
  simp [packed_byte, and_3f, Nat.shiftRight_eq_div_pow, ← hn]

theorem base64encode_two (a b : UInt8) (n : ℕ) (hn : n = (a.toNat * 256 + b.toNat) * 256) :
    base64encode [a, b] = [base64 (n / 262144), base64 (n / 4096 % 64), base64 (n / 64 % 64), 61] := by
  rw [base64encode, if_neg (by simp)]
  simp only [List.take_succ_cons, List.take_nil, List.foldl_cons, List.foldl_nil, packed_byte]
  simp [and_3f, Nat.shiftRight_eq_div_pow, Nat.shiftLeft_eq, hn, base64encode_nil]

theorem base64encode_one (a : UInt8) (n : ℕ) (hn : n = a.toNat * 65536) :
    base64encode [a] = [base64 (n / 262144), base64 (n / 4096 % 64), 61, 61] := by
  rw [base64encode, if_neg (by simp)]
  simp [and_3f, Nat.shiftRight_eq_div_pow, Nat.shiftLeft_eq, ← hn, base64encode_nil]

theorem groups_induction {P : List UInt8 → Prop} (nil : P []) (one : ∀ a, P [a])
    (two : ∀ a b, P [a, b]) (three : ∀ a b c rest, P rest → P (a :: b :: c :: rest)) :
    ∀ data, P data
  | [] => nil
  | [a] => one a
  | [a, b] => two a b
  | a :: b :: c :: rest => three a b c rest (groups_induction nil one two three rest)

theorem ofNat_eq {n : ℕ} {c : UInt8} (h : n % 256 = c.toNat) : UInt8.ofNat n = c := by
  apply UInt8.toNat_inj.mp
  rw [UInt8.toNat_ofNat', ← h]

theorem coded_base64encode (data : List UInt8) : Coded (base64encode data) data := by
  induction data using groups_induction with
  | nil =>
    rw [base64encode_nil]
    exact .nil
  | one a =>
    have ha := a.toNat_lt
    rw [base64encode_one a _ rfl]
    have h := Coded.one (base64val_base64 (i := a.toNat * 65536 / 262144) (by omega))
      (base64val_base64 (i := a.toNat * 65536 / 4096 % 64) (by omega)) rfl
    rwa [ofNat_eq (c := a) (by omega)] at h
  | two a b =>
    have ha := a.toNat_lt
    have hb := b.toNat_lt
    obtain ⟨n, hn⟩ : ∃ n, n = (a.toNat * 256 + b.toNat) * 256 := ⟨_, rfl⟩
    rw [base64encode_two a b n hn]
    have h := Coded.two (base64val_base64 (i := n / 262144) (by omega))
      (base64val_base64 (i := n / 4096 % 64) (by omega))
      (base64val_base64 (i := n / 64 % 64) (by omega)) rfl
    rwa [ofNat_eq (c := a) (by omega), ofNat_eq (c := b) (by omega)] at h
  | three a b c rest ih =>
    have ha := a.toNat_lt
    have hb := b.toNat_lt
    have hc := c.toNat_lt
    obtain ⟨n, hn⟩ : ∃ n, n = (a.toNat * 256 + b.toNat) * 256 + c.toNat := ⟨_, rfl⟩
    rw [base64encode_three a b c rest n hn]
    have h := Coded.three (base64val_base64 (i := n / 262144) (by omega))
      (base64val_base64 (i := n / 4096 % 64) (by omega))
      (base64val_base64 (i := n / 64 % 64) (by omega))
      (base64val_base64 (i := n % 64) (by omega)) rfl ih
    rwa [ofNat_eq (c := a) (by omega), ofNat_eq (c := b) (by omega), ofNat_eq (c := c) (by omega)]
      at h

/-- Of a text without unused bits the bytes say all there is in it. -/
theorem base64encode_of_coded {s data : List UInt8} (h : Coded s data) (hzero : UnusedBitsZero s) :
    base64encode data = s := by
  induction h with
  | nil => exact base64encode_nil
  | @three c₁ c₂ c₃ c₄ v₁ v₂ v₃ v₄ n rest data h₁ h₂ h₃ h₄ hn _ ih =>
    obtain ⟨hv₁, rfl⟩ := base64_of_base64val h₁
    obtain ⟨hv₂, rfl⟩ := base64_of_base64val h₂
    obtain ⟨hv₃, rfl⟩ := base64_of_base64val h₃
    obtain ⟨hv₄, rfl⟩ := base64_of_base64val h₄
    have hrest : UnusedBitsZero rest :=
      ⟨fun pre i hi hs => hzero.two (_ :: _ :: _ :: _ :: pre) i hi (by rw [hs]; rfl),
        fun pre i hi hs => hzero.four (_ :: _ :: _ :: _ :: pre) i hi (by rw [hs]; rfl)⟩
    have hnum : n = ((UInt8.ofNat (n / 65536)).toNat * 256 + (UInt8.ofNat (n / 256)).toNat) * 256 +
        (UInt8.ofNat n).toNat := by
      simp only [UInt8.toNat_ofNat']
      omega
    rw [base64encode_three _ _ _ _ n hnum, ih hrest, show n / 262144 = v₁ by omega,
      show n / 4096 % 64 = v₂ by omega, show n / 64 % 64 = v₃ by omega, show n % 64 = v₄ by omega]
  | @two c₁ c₂ c₃ v₁ v₂ v₃ n h₁ h₂ h₃ hn =>
    obtain ⟨hv₁, rfl⟩ := base64_of_base64val h₁
    obtain ⟨hv₂, rfl⟩ := base64_of_base64val h₂
    obtain ⟨hv₃, rfl⟩ := base64_of_base64val h₃
    have hbits := hzero.two [base64 v₁, base64 v₂] v₃ hv₃ rfl
    have hnum : n = ((UInt8.ofNat (n / 65536)).toNat * 256 + (UInt8.ofNat (n / 256)).toNat) * 256 := by
      simp only [UInt8.toNat_ofNat']
      omega
    rw [base64encode_two _ _ n hnum, show n / 262144 = v₁ by omega,
      show n / 4096 % 64 = v₂ by omega, show n / 64 % 64 = v₃ by omega]
  | @one c₁ c₂ v₁ v₂ n h₁ h₂ hn =>
    obtain ⟨hv₁, rfl⟩ := base64_of_base64val h₁
    obtain ⟨hv₂, rfl⟩ := base64_of_base64val h₂
    have hbits := hzero.four [base64 v₁] v₂ hv₂ rfl
    have hnum : n = (UInt8.ofNat (n / 65536)).toNat * 65536 := by
      simp only [UInt8.toNat_ofNat']
      omega
    rw [base64encode_one _ n hnum, show n / 262144 = v₁ by omega, show n / 4096 % 64 = v₂ by omega]

theorem unpack_val {c : UInt8} {v : ℕ} (h : base64val c = some v) (rest : List UInt8) (packed : ℕ) :
    base64unpack (c :: rest) 0 packed = base64unpack rest 0 (packed * 64 + v) := by
  have hv := (base64_of_base64val h).1
  have hpack : packed <<< 6 ||| v = packed * 64 + v := by
    rw [← Nat.shiftLeft_add_eq_or_of_lt (by simpa using hv), Nat.shiftLeft_eq]
  rw [base64unpack, if_neg (ne_padding h), if_neg (by omega), h, ← hpack]

theorem unpack_padding (rest : List UInt8) (padding packed : ℕ) :
    base64unpack (61 :: rest) padding packed = base64unpack rest (padding + 1) (packed * 64) := by
  rw [base64unpack, if_pos rfl, Nat.shiftLeft_eq]

theorem unpack_behind {c : UInt8} (hc : c ≠ 61) (rest : List UInt8) {padding packed : ℕ}
    (hp : 0 < padding) : base64unpack (c :: rest) padding packed = none := by
  rw [base64unpack, if_neg hc, if_pos hp]

theorem unpack_foreign {c : UInt8} (hc : c ≠ 61) (h : base64val c = none) (rest : List UInt8)
    (padding packed : ℕ) : base64unpack (c :: rest) padding packed = none := by
  rw [base64unpack, if_neg hc]
  split_ifs
  · rfl
  · rw [h]

/-- What stands in a group of four: no text, too much padding, or characters up to the padding. -/
inductive Group : UInt8 → UInt8 → UInt8 → UInt8 → Option (ℕ × ℕ) → Prop
  | foreign {c₁ c₂ c₃ c₄ : UInt8} : Group c₁ c₂ c₃ c₄ none
  | padding {c₁ c₂ c₃ c₄ : UInt8} {padding packed : ℕ} (h : 2 < padding) :
      Group c₁ c₂ c₃ c₄ (some (padding, packed))
  | three {c₁ c₂ c₃ c₄ : UInt8} {v₁ v₂ v₃ v₄ : ℕ}
      (h₁ : base64val c₁ = some v₁) (h₂ : base64val c₂ = some v₂) (h₃ : base64val c₃ = some v₃)
      (h₄ : base64val c₄ = some v₄) :
      Group c₁ c₂ c₃ c₄ (some (0, ((v₁ * 64 + v₂) * 64 + v₃) * 64 + v₄))
  | two {c₁ c₂ c₃ : UInt8} {v₁ v₂ v₃ : ℕ}
      (h₁ : base64val c₁ = some v₁) (h₂ : base64val c₂ = some v₂) (h₃ : base64val c₃ = some v₃) :
      Group c₁ c₂ c₃ 61 (some (1, ((v₁ * 64 + v₂) * 64 + v₃) * 64))
  | one {c₁ c₂ : UInt8} {v₁ v₂ : ℕ} (h₁ : base64val c₁ = some v₁) (h₂ : base64val c₂ = some v₂) :
      Group c₁ c₂ 61 61 (some (2, (v₁ * 64 + v₂) * 64 * 64))

theorem char_cases (c : UInt8) :
    c = 61 ∨ (c ≠ 61 ∧ base64val c = none) ∨ ∃ v, base64val c = some v := by
  by_cases hc : c = 61
  · exact .inl hc
  · cases h : base64val c with
    | none => exact .inr (.inl ⟨hc, rfl⟩)
    | some v => exact .inr (.inr ⟨v, rfl⟩)

/-- With an `=` first or second there is too much padding, or something behind it. -/
theorem unpack_padded (l : List UInt8) {padding packed : ℕ} (hp : 0 < padding) :
    base64unpack l padding packed = none ∨
      ∃ packed', base64unpack l padding packed = some (padding + l.length, packed') := by
  induction l generalizing padding packed with
  | nil => exact .inr ⟨packed, rfl⟩
  | cons c l ih =>
    by_cases hc : c = 61
    · subst hc
      rw [unpack_padding, List.length_cons, Nat.add_comm l.length, ← Nat.add_assoc]
      exact ih (by omega)
    · exact .inl (unpack_behind hc l hp)

theorem group_padded {c₁ c₂ c₃ c₄ : UInt8} {l l' : List UInt8} {padding packed : ℕ}
    (h : base64unpack l' 0 0 = base64unpack l padding packed) (hp : 0 < padding)
    (hlen : 2 < padding + l.length) : Group c₁ c₂ c₃ c₄ (base64unpack l' 0 0) := by
  rw [h]
  rcases unpack_padded l hp with hnone | ⟨packed', hsome⟩
  · rw [hnone]
    exact .foreign
  · rw [hsome]
    exact .padding hlen

theorem group_cases (c₁ c₂ c₃ c₄ : UInt8) : Group c₁ c₂ c₃ c₄ (base64unpack [c₁, c₂, c₃, c₄] 0 0) := by
  rcases char_cases c₁ with rfl | ⟨hne, hnone⟩ | ⟨v₁, h₁⟩
  · refine group_padded (unpack_padding [c₂, c₃, c₄] 0 0) ?_ ?_ <;> simp
  · rw [unpack_foreign hne hnone]
    exact .foreign
  have hv₁ : base64unpack [c₁, c₂, c₃, c₄] 0 0 = base64unpack [c₂, c₃, c₄] 0 v₁ := by
    rw [unpack_val h₁, Nat.zero_mul, Nat.zero_add]
  rcases char_cases c₂ with rfl | ⟨hne, hnone⟩ | ⟨v₂, h₂⟩
  · refine group_padded (hv₁.trans (unpack_padding [c₃, c₄] 0 v₁)) ?_ ?_ <;> simp
  · rw [hv₁, unpack_foreign hne hnone]
    exact .foreign
  rw [hv₁, unpack_val h₂]
  rcases char_cases c₃ with rfl | ⟨hne, hnone⟩ | ⟨v₃, h₃⟩
  · rw [unpack_padding]
    by_cases hc : c₄ = 61
    · subst hc
      rw [unpack_padding]
      exact .one h₁ h₂
    · rw [unpack_behind hc _ (by omega)]
      exact .foreign
  · rw [unpack_foreign hne hnone]
    exact .foreign
  rw [unpack_val h₃]
  rcases char_cases c₄ with rfl | ⟨hne, hnone⟩ | ⟨v₄, h₄⟩
  · rw [unpack_padding]
    exact .two h₁ h₂ h₃
  · rw [unpack_foreign hne hnone]
    exact .foreign
  · rw [unpack_val h₄]
    exact .three h₁ h₂ h₃ h₄

theorem and_ff (c : UInt8) : c &&& 255 = c := by
  rw [← UInt8.toNat_inj, UInt8.toNat_and]
  exact Nat.and_two_pow_sub_one_of_lt_two_pow c.toNat_lt

theorem decodeLoop_nil (room : ℕ) (result : List UInt8) :
    base64decodeLoop room result [] = .ok result := by
  rw [base64decodeLoop, if_pos rfl]

theorem decodeLoop_short {s : List UInt8} (hne : s ≠ []) (hlen : s.length < 4) (room : ℕ)
    (result : List UInt8) : base64decodeLoop room result s = .ok [] := by
  rw [base64decodeLoop, if_neg hne]
  cases base64unpack (s.take 4) 0 0 with
  | none => rfl
  | some p => exact if_pos (by rw [List.length_take]; omega)

section

variable {c₁ c₂ c₃ c₄ : UInt8} {rest result : List UInt8} {room padding packed : ℕ}

theorem decodeLoop_none (h : base64unpack [c₁, c₂, c₃, c₄] 0 0 = none) :
    base64decodeLoop room result (c₁ :: c₂ :: c₃ :: c₄ :: rest) = .ok [] := by
  rw [base64decodeLoop, if_neg (by simp)]
  simp [h]

theorem decodeLoop_padding (h : base64unpack [c₁, c₂, c₃, c₄] 0 0 = some (padding, packed))
    (hp : 2 < padding ∨ 0 < padding ∧ rest ≠ []) :
    base64decodeLoop room result (c₁ :: c₂ :: c₃ :: c₄ :: rest) = .ok [] := by
  rw [base64decodeLoop, if_neg (by simp)]
  by_cases hrest : rest = []
  · have hp : 2 < padding := hp.resolve_right fun hand => hand.2 hrest
    simp [h, hrest, hp]
  · have hp : 0 < padding := by omega
    simp [h, hrest, hp]

theorem decodeLoop_three (h : base64unpack [c₁, c₂, c₃, c₄] 0 0 = some (0, packed))
    (hroom : result.length + 3 ≤ room) :
    base64decodeLoop room result (c₁ :: c₂ :: c₃ :: c₄ :: rest) =
      base64decodeLoop room (result ++
        [UInt8.ofNat (packed / 65536), UInt8.ofNat (packed / 256), UInt8.ofNat packed]) rest := by
  rw [base64decodeLoop, if_neg (by simp)]
  simp [h, and_ff, writeBuf, bind, Except.bind, Nat.shiftRight_eq_div_pow,
    show result.length < room by omega, show result.length + 1 < room by omega,
    show result.length + 1 + 1 < room by omega]

theorem decodeLoop_two (h : base64unpack [c₁, c₂, c₃, c₄] 0 0 = some (1, packed))
    (hroom : result.length + 2 ≤ room) :
    base64decodeLoop room result [c₁, c₂, c₃, c₄] =
      .ok (result ++ [UInt8.ofNat (packed / 65536), UInt8.ofNat (packed / 256)]) := by
  rw [base64decodeLoop, if_neg (by simp)]
  simp [h, and_ff, writeBuf, bind, Except.bind, Nat.shiftRight_eq_div_pow, decodeLoop_nil,
    show result.length < room by omega, show result.length + 1 < room by omega]

theorem decodeLoop_one (h : base64unpack [c₁, c₂, c₃, c₄] 0 0 = some (2, packed))
    (hroom : result.length + 1 ≤ room) :
    base64decodeLoop room result [c₁, c₂, c₃, c₄] = .ok (result ++ [UInt8.ofNat (packed / 65536)]) := by
  rw [base64decodeLoop, if_neg (by simp)]
  simp [h, and_ff, writeBuf, bind, Except.bind, Nat.shiftRight_eq_div_pow, decodeLoop_nil,
    show result.length < room by omega]

end

/-- A text of which the room holds the bytes is decoded; of any other there is nothing. -/
theorem base64decodeLoop_cases (room : ℕ) : ∀ s result : List UInt8,
    result.length + s.length * 3 / 4 ≤ room →
      base64decodeLoop room result s = .ok [] ∨
        ∃ data, Coded s data ∧ base64decodeLoop room result s = .ok (result ++ data)
  | [], result, _ => .inr ⟨[], .nil, by rw [decodeLoop_nil, List.append_nil]⟩
  | [_], result, _ => .inl (decodeLoop_short (by simp) (by simp) _ _)
  | [_, _], result, _ => .inl (decodeLoop_short (by simp) (by simp) _ _)
  | [_, _, _], result, _ => .inl (decodeLoop_short (by simp) (by simp) _ _)
  | c₁ :: c₂ :: c₃ :: c₄ :: rest, result, hroom => by
    have hlen : (c₁ :: c₂ :: c₃ :: c₄ :: rest).length = rest.length + 4 := rfl
    rw [hlen] at hroom
    have hgroup := group_cases c₁ c₂ c₃ c₄
    generalize hr : base64unpack [c₁, c₂, c₃, c₄] 0 0 = r at hgroup
    cases hgroup with
    | foreign => exact .inl (decodeLoop_none hr)
    | padding h => exact .inl (decodeLoop_padding hr (.inl h))
    | three h₁ h₂ h₃ h₄ =>
      have hroom' : ∀ a b c : UInt8, (result ++ [a, b, c]).length + rest.length * 3 / 4 ≤ room := by
        intro a b c
        simp only [List.length_append, List.length_cons, List.length_nil]
        omega
      rw [decodeLoop_three hr (by omega)]
      rcases base64decodeLoop_cases room rest _ (hroom' _ _ _) with hnil | ⟨data, hcoded, hdata⟩
      · exact .inl hnil
      · refine .inr ⟨_, .three h₁ h₂ h₃ h₄ rfl hcoded, ?_⟩
        rw [hdata, List.append_assoc]
        rfl
    | two h₁ h₂ h₃ =>
      by_cases hrest : rest = []
      · subst hrest
        exact .inr ⟨_, .two h₁ h₂ h₃ rfl, decodeLoop_two hr (by omega)⟩
      · exact .inl (decodeLoop_padding hr (.inr ⟨by omega, hrest⟩))
    | one h₁ h₂ =>
      by_cases hrest : rest = []
      · subst hrest
        exact .inr ⟨_, .one h₁ h₂ rfl, decodeLoop_one hr (by omega)⟩
      · exact .inl (decodeLoop_padding hr (.inr ⟨by omega, hrest⟩))

theorem base64decodeLoop_coded {s data : List UInt8} (h : Coded s data) (room : ℕ) :
    ∀ result : List UInt8, result.length + s.length * 3 / 4 ≤ room →
      base64decodeLoop room result s = .ok (result ++ data) := by
  induction h with
  | nil =>
    intro result _
    rw [decodeLoop_nil, List.append_nil]
  | @three c₁ c₂ c₃ c₄ v₁ v₂ v₃ v₄ n rest data h₁ h₂ h₃ h₄ hn _ ih =>
    intro result hroom
    have hlen : (c₁ :: c₂ :: c₃ :: c₄ :: rest).length = rest.length + 4 := rfl
    rw [hlen] at hroom
    have hunpack : base64unpack [c₁, c₂, c₃, c₄] 0 0 = some (0, n) := by
      rw [unpack_val h₁, Nat.zero_mul, Nat.zero_add, unpack_val h₂, unpack_val h₃, unpack_val h₄, hn]
      rfl
    rw [decodeLoop_three hunpack (by omega), ih, List.append_assoc]
    · rfl
    · rw [List.length_append, List.length_cons, List.length_cons, List.length_singleton]
      omega
  | two h₁ h₂ h₃ hn =>
    intro result hroom
    simp only [List.length_cons, List.length_nil] at hroom
    refine decodeLoop_two ?_ (by omega)
    rw [unpack_val h₁, Nat.zero_mul, Nat.zero_add, unpack_val h₂, unpack_val h₃, unpack_padding, hn]
    rfl
  | one h₁ h₂ hn =>
    intro result hroom
    simp only [List.length_cons, List.length_nil] at hroom
    refine decodeLoop_one ?_ (by omega)
    rw [unpack_val h₁, Nat.zero_mul, Nat.zero_add, unpack_val h₂, unpack_padding, unpack_padding, hn]
    rfl

theorem Coded.padded {s data : List UInt8} (h : Coded s data) : s.length % 4 = 0 ∧
    ∃ body padding, s = body ++ List.replicate padding 61 ∧ padding ≤ 2 ∧
      ∀ c ∈ body, ∃ i < 64, base64 i = c := by
  induction h with
  | nil => exact ⟨rfl, [], 0, rfl, by omega, by simp⟩
  | @three c₁ c₂ c₃ c₄ v₁ v₂ v₃ v₄ n rest data h₁ h₂ h₃ h₄ hn _ ih =>
    obtain ⟨hlen, body, padding, rfl, hpadding, hbody⟩ := ih
    refine ⟨?_, c₁ :: c₂ :: c₃ :: c₄ :: body, padding, rfl, hpadding, ?_⟩
    · simp only [List.length_cons]
      omega
    · simpa using ⟨⟨_, base64_of_base64val h₁⟩, ⟨_, base64_of_base64val h₂⟩,
        ⟨_, base64_of_base64val h₃⟩, ⟨_, base64_of_base64val h₄⟩, hbody⟩
  | @two c₁ c₂ c₃ v₁ v₂ v₃ n h₁ h₂ h₃ hn =>
    refine ⟨by simp, [c₁, c₂, c₃], 1, rfl, by omega, ?_⟩
    simpa using ⟨⟨_, base64_of_base64val h₁⟩, ⟨_, base64_of_base64val h₂⟩, ⟨_, base64_of_base64val h₃⟩⟩
  | @one c₁ c₂ v₁ v₂ n h₁ h₂ hn =>
    refine ⟨by simp, [c₁, c₂], 2, rfl, by omega, ?_⟩
    simpa using ⟨⟨_, base64_of_base64val h₁⟩, ⟨_, base64_of_base64val h₂⟩⟩

theorem exists_coded (padding : ℕ) (hpadding : padding ≤ 2) : ∀ body : List UInt8,
    (∀ c ∈ body, ∃ i < 64, base64 i = c) → (body.length + padding) % 4 = 0 →
      ∃ data, Coded (body ++ List.replicate padding 61) data
  | [], _, hlen => by
    obtain rfl : padding = 0 := by
      rw [List.length_nil] at hlen
      omega
    exact ⟨[], .nil⟩
  | [_], _, hlen => by
    rw [List.length_singleton] at hlen
    omega
  | [c₁, c₂], hbody, hlen => by
    obtain rfl : padding = 2 := by
      simp only [List.length_cons, List.length_nil] at hlen
      omega
    obtain ⟨v₁, hv₁, rfl⟩ := hbody c₁ (by simp)
    obtain ⟨v₂, hv₂, rfl⟩ := hbody c₂ (by simp)
    exact ⟨_, .one (base64val_base64 hv₁) (base64val_base64 hv₂) rfl⟩
  | [c₁, c₂, c₃], hbody, hlen => by
    obtain rfl : padding = 1 := by
      simp only [List.length_cons, List.length_nil] at hlen
      omega
    obtain ⟨v₁, hv₁, rfl⟩ := hbody c₁ (by simp)
    obtain ⟨v₂, hv₂, rfl⟩ := hbody c₂ (by simp)
    obtain ⟨v₃, hv₃, rfl⟩ := hbody c₃ (by simp)
    exact ⟨_, .two (base64val_base64 hv₁) (base64val_base64 hv₂) (base64val_base64 hv₃) rfl⟩
  | c₁ :: c₂ :: c₃ :: c₄ :: body, hbody, hlen => by
    obtain ⟨v₁, hv₁, rfl⟩ := hbody c₁ (by simp)
    obtain ⟨v₂, hv₂, rfl⟩ := hbody c₂ (by simp)
    obtain ⟨v₃, hv₃, rfl⟩ := hbody c₃ (by simp)
    obtain ⟨v₄, hv₄, rfl⟩ := hbody c₄ (by simp)
    obtain ⟨data, hdata⟩ := exists_coded padding hpadding body (fun c hc => hbody c (by simp [hc]))
      (by simp only [List.length_cons] at hlen; omega)
    exact ⟨_, .three (base64val_base64 hv₁) (base64val_base64 hv₂) (base64val_base64 hv₃)
      (base64val_base64 hv₄) rfl hdata⟩

theorem base64_codec (data s : List UInt8) :
    base64decode (base64encode data) = .ok data ∧
      ∃ bytes, base64decode s = .ok bytes ∧ (bytes ≠ [] → Base64Text s) ∧
        (Base64Text s → UnusedBitsZero s → base64encode bytes = s) := by
  refine ⟨base64decodeLoop_coded (coded_base64encode data) _ _ (by simp), ?_⟩
  have hroom : ([] : List UInt8).length + s.length * 3 / 4 ≤ s.length * 3 / 4 := by simp
  by_cases htext : Base64Text s
  · have hlen := htext.groups
    obtain ⟨body, padding, rfl, hpadding, hbody⟩ := htext.padded
    obtain ⟨bytes, hcoded⟩ := exists_coded padding hpadding body hbody (by simpa using hlen)
    exact ⟨bytes, base64decodeLoop_coded hcoded _ _ hroom, fun _ => htext,
      fun _ hzero => base64encode_of_coded hcoded hzero⟩
  · refine ⟨[], ?_, fun h => absurd rfl h, fun h => absurd h htext⟩
    rcases base64decodeLoop_cases _ s [] hroom with hnil | ⟨bytes, hcoded, hbytes⟩
    · exact hnil
    · -- only the empty text stands for bytes and is none of the sequences
      have hs : s = [] := by_contra fun hne => htext ⟨hne, hcoded.padded.1, hcoded.padded.2⟩
      rw [base64decode, hs]
      exact decodeLoop_nil _ _

end Sylar
