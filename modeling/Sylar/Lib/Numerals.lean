import Mathlib.Tactic

/-! Numbers written out in a base of at most 16, and read back. -/

namespace Lib

/-- The digits of `n`, the highest first, without leading zeros; letters are small. -/
def numeral (base n : ℕ) : List UInt8 := (Nat.toDigits base n).map fun c => UInt8.ofNat c.toNat

def digitValue (c : UInt8) : Option ℕ :=
  if 48 ≤ c ∧ c ≤ 57 then some (c.toNat - 48)
  else if 97 ≤ c ∧ c ≤ 102 then some (c.toNat - 87)
  else if 65 ≤ c ∧ c ≤ 70 then some (c.toNat - 55)
  else none

def readDigit (base n : ℕ) (c : UInt8) : Option ℕ :=
  match digitValue c with
  | some d => if d < base then some (base * n + d) else none
  | none => none

/-- The number that a text is in this base, if it is one. -/
def number (base : ℕ) (text : List UInt8) : Option ℕ :=
  if text = [] then none else text.foldlM (readDigit base) 0

variable {base : ℕ}

theorem digitValue_digitChar {d : ℕ} (hd : d < 16) :
    digitValue (UInt8.ofNat (Nat.digitChar d).toNat) = some d := by
  have hall : ∀ d < 16, digitValue (UInt8.ofNat (Nat.digitChar d).toNat) = some d := by decide
  exact hall d hd

theorem numeral_of_lt {n : ℕ} (h : n < base) :
    numeral base n = [UInt8.ofNat (Nat.digitChar n).toNat] := by
  rw [numeral, Nat.toDigits_of_lt_base h, List.map_singleton]

theorem numeral_of_le (hb : 1 < base) {n : ℕ} (h : base ≤ n) :
    numeral base n = numeral base (n / base) ++ [UInt8.ofNat (Nat.digitChar (n % base)).toNat] := by
  rw [numeral, Nat.toDigits_of_base_le hb h, List.map_append, List.map_singleton, ← numeral]

theorem numeral_ne_nil (base n : ℕ) : numeral base n ≠ [] := by
  rw [numeral, ne_eq, List.map_eq_nil_iff]
  exact Nat.toDigits_ne_nil

theorem length_numeral_le (hb : 1 < base) {n k : ℕ} (hk : 0 < k) (h : n < base ^ k) :
    (numeral base n).length ≤ k := by
  rw [numeral, List.length_map]
  exact (Nat.length_toDigits_le_iff hb hk).mpr h

section

variable (hb : 1 < base) (hle : base ≤ 16)
include hb hle

theorem foldlM_numeral (n : ℕ) : (numeral base n).foldlM (readDigit base) 0 = some n := by
  induction n using Nat.strong_induction_on with
  | _ n ih =>
    have hlast : ∀ m d, d < base →
        readDigit base m (UInt8.ofNat (Nat.digitChar d).toNat) = some (base * m + d) := by
      intro m d hd
      rw [readDigit, digitValue_digitChar (by omega)]
      exact if_pos hd
    rcases Nat.lt_or_ge n base with hlt | hge
    · rw [numeral_of_lt hlt, List.foldlM_cons, hlast 0 n hlt, Nat.mul_zero, Nat.zero_add]
      rfl
    · rw [numeral_of_le hb hge, List.foldlM_append, ih (n / base) (Nat.div_lt_self (by omega) hb)]
      change [UInt8.ofNat (Nat.digitChar (n % base)).toNat].foldlM (readDigit base) (n / base) = some n
      rw [List.foldlM_cons, hlast _ _ (Nat.mod_lt n (by omega)), Nat.div_add_mod]
      rfl

theorem number_numeral (n : ℕ) : number base (numeral base n) = some n := by
  rw [number, if_neg (numeral_ne_nil base n), foldlM_numeral hb hle]

theorem not_mem_numeral {c : UInt8} (hc : digitValue c = none) (n : ℕ) : c ∉ numeral base n := by
  induction n using Nat.strong_induction_on with
  | _ n ih =>
    have hdigit : ∀ d < base, c ≠ UInt8.ofNat (Nat.digitChar d).toNat := by
      rintro d hd rfl
      rw [digitValue_digitChar (by omega)] at hc
      cases hc
    rcases Nat.lt_or_ge n base with hlt | hge
    · rw [numeral_of_lt hlt, List.mem_singleton]
      exact hdigit n hlt
    · rw [numeral_of_le hb hge, List.mem_append, not_or, List.mem_singleton]
      exact ⟨ih (n / base) (Nat.div_lt_self (by omega) hb), hdigit _ (Nat.mod_lt n (by omega))⟩

end

end Lib
