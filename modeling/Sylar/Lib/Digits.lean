import Mathlib.Data.Nat.Bitwise
import Mathlib.Data.Nat.Digits.Lemmas
import Mathlib.Tactic

/-! Numbers as little-endian bytes, as groups of seven bits, and as folded signed
numbers (zigzag); what is lost when digits are added up without their weights. -/

namespace Lib

/-- The low `n` bytes of `v`, the lowest first. -/
def leBytes : ℕ → ℕ → List UInt8
  | 0, _ => []
  | n + 1, v => UInt8.ofNat v :: leBytes n (v / 256)

def leNat : List UInt8 → ℕ
  | [] => 0
  | b :: bs => b.toNat + 256 * leNat bs

@[simp] theorem length_leBytes (n v : ℕ) : (leBytes n v).length = n := by
  induction n generalizing v with
  | zero => rfl
  | succ n ih => simp [leBytes, ih]

theorem leNat_leBytes (n v : ℕ) : leNat (leBytes n v) = v % 256 ^ n := by
  induction n generalizing v with
  | zero => simp [leBytes, leNat, Nat.mod_one]
  | succ n ih =>
    rw [leBytes, leNat, ih, UInt8.toNat_ofNat', pow_succ' 256 n, Nat.mod_mul]

theorem leNat_lt (bs : List UInt8) : leNat bs < 256 ^ bs.length := by
  induction bs with
  | nil => simp [leNat]
  | cons b bs ih =>
    have hb := b.toNat_lt
    rw [leNat, List.length_cons, pow_succ']
    omega

theorem leBytes_leNat (bs : List UInt8) : leBytes bs.length (leNat bs) = bs := by
  induction bs with
  | nil => rfl
  | cons b bs ih =>
    have hb := b.toNat_lt
    have hlow : UInt8.ofNat (b.toNat + 256 * leNat bs) = b := by
      apply UInt8.toNat_inj.mp
      rw [UInt8.toNat_ofNat']
      omega
    have hhigh : (b.toNat + 256 * leNat bs) / 256 = leNat bs := by omega
    rw [List.length_cons, leNat, leBytes, hlow, hhigh, ih]

theorem and_127 (v : ℕ) : v &&& 0x7F = v % 128 := Nat.and_two_pow_sub_one_eq_mod v 7

theorem or_128 {v : ℕ} (h : v < 128) : v ||| 0x80 = v + 128 := by
  have := Nat.two_pow_add_eq_or_of_lt (i := 7) (b := v) (by simpa using h) 1
  rw [Nat.or_comm]
  simpa [Nat.add_comm] using this.symm

theorem or_shiftLeft {low digit i : ℕ} (h : low < 2 ^ i) :
    low ||| digit <<< i = low + 2 ^ i * digit := by
  rw [Nat.or_comm, Nat.shiftLeft_eq, Nat.mul_comm, ← Nat.two_pow_add_eq_or_of_lt h]
  omega

variable {w : ℕ}

def zigzag (v : BitVec w) : BitVec w := if v.slt 0#w then -v * 2#w - 1#w else v * 2#w

def unzigzag (v : BitVec w) : BitVec w := (v >>> 1) ^^^ -(v &&& 1#w)

theorem and_one_toNat (v : BitVec w) (hw : 1 ≤ w) : (v &&& 1#w).toNat = v.toNat % 2 := by
  have : 1 < 2 ^ w := Nat.one_lt_two_pow (by omega)
  rw [BitVec.toNat_and, BitVec.toNat_ofNat, Nat.mod_eq_of_lt this, Nat.and_one_is_mod]

theorem unzigzag_even {v : BitVec w} (hw : 1 ≤ w) (h : v.toNat % 2 = 0) : unzigzag v = v >>> 1 := by
  have hand : v &&& 1#w = 0#w := by
    apply BitVec.eq_of_toNat_eq
    rw [and_one_toNat v hw, h, BitVec.toNat_ofNat, Nat.zero_mod]
  rw [unzigzag, hand, BitVec.neg_zero, BitVec.xor_zero]

theorem unzigzag_odd {v : BitVec w} (hw : 1 ≤ w) (h : v.toNat % 2 = 1) :
    unzigzag v = ~~~(v >>> 1) := by
  have hand : v &&& 1#w = 1#w := by
    apply BitVec.eq_of_toNat_eq
    rw [and_one_toNat v hw, h, BitVec.toNat_ofNat,
      Nat.mod_eq_of_lt (Nat.one_lt_two_pow (by omega))]
  rw [unzigzag, hand, BitVec.neg_one_eq_allOnes, BitVec.xor_allOnes]

/-- Twice the magnitude less one, computed modulo `2 * H` from the upper half on;
at `H` itself the doubling wraps to 0 and the decrement back to `2 * H - 1`. -/
theorem fold_negative {H x : ℕ} (hH : 1 ≤ H) (hlow : H ≤ x) (hx : x < 2 * H) :
    (2 * H - 1 + (2 * H - x) % (2 * H) * 2 % (2 * H)) % (2 * H) = 2 * (2 * H - x) - 1 := by
  rw [Nat.mod_eq_of_lt (a := 2 * H - x) (by omega)]
  rcases Nat.eq_or_lt_of_le hlow with rfl | hlt
  · rw [show (2 * H - H) * 2 = 2 * H by omega, Nat.mod_self, Nat.mod_eq_of_lt (by omega)]
    omega
  · rw [Nat.mod_eq_of_lt (a := (2 * H - x) * 2) (by omega),
      show 2 * H - 1 + (2 * H - x) * 2 = 2 * (2 * H - x) - 1 + 2 * H by omega, Nat.add_mod_right,
      Nat.mod_eq_of_lt (by omega)]

theorem unzigzag_zigzag (hw : 2 ≤ w) (v : BitVec w) : unzigzag (zigzag v) = v := by
  obtain ⟨k, rfl⟩ : ∃ k, w = k + 2 := ⟨w - 2, by omega⟩
  have hv := v.isLt
  have hpow : 2 ^ (k + 2) = 2 * 2 ^ (k + 1) := pow_succ' 2 (k + 1)
  have hhalf : 2 ^ (k + 1) = 2 * 2 ^ k := pow_succ' 2 k
  have hpos := Nat.two_pow_pos k
  have htwo : (2#(k + 2)).toNat = 2 := by
    rw [BitVec.toNat_ofNat, Nat.mod_eq_of_lt]
    rw [hpow, hhalf]
    omega
  have hone : (1#(k + 2)).toNat = 1 := by
    rw [BitVec.toNat_ofNat, Nat.mod_eq_of_lt]
    rw [hpow, hhalf]
    omega
  have hsign : v.slt 0#(k + 2) = decide (2 ^ (k + 1) ≤ v.toNat) := by
    rw [BitVec.slt_zero_eq_msb, BitVec.msb_eq_decide]
    rfl
  rw [hpow] at hv
  by_cases hneg : 2 ^ (k + 1) ≤ v.toNat
  · have hz : (zigzag v).toNat = 2 * (2 * 2 ^ (k + 1) - v.toNat) - 1 := by
      rw [zigzag, if_pos (by rw [hsign]; exact decide_eq_true hneg), BitVec.toNat_sub,
        BitVec.toNat_mul, BitVec.toNat_neg, htwo, hone, hpow]
      exact fold_negative (by omega) hneg hv
    rw [unzigzag_odd (by omega) (by omega)]
    apply BitVec.eq_of_toNat_eq
    rw [BitVec.toNat_not, BitVec.toNat_ushiftRight, hz, Nat.shiftRight_eq_div_pow, hpow]
    omega
  · have hz : (zigzag v).toNat = 2 * v.toNat := by
      rw [zigzag, if_neg (by rw [hsign]; simpa using hneg), BitVec.toNat_mul, htwo, hpow,
        Nat.mod_eq_of_lt (by omega), Nat.mul_comm]
    rw [unzigzag_even (by omega) (by omega)]
    apply BitVec.eq_of_toNat_eq
    rw [BitVec.toNat_ushiftRight, hz, Nat.shiftRight_eq_div_pow]
    omega

/-- A number is the sum of its digits only if it has no more than one. -/
theorem digits_sum_eq_iff {b c : ℕ} (hb : 1 < b) : (b.digits c).sum = c ↔ c < b := by
  by_cases hc : c = 0
  · subst hc
    simp only [Nat.digits_zero, List.sum_nil, true_iff]
    omega
  · rw [Nat.digits_def' hb (by omega), List.sum_cons]
    have hsum := Nat.digit_sum_le b (c / b)
    have hdiv := Nat.mod_add_div c b
    constructor
    · intro h
      by_contra hge
      have hpos : 1 ≤ c / b := Nat.div_pos (by omega) (by omega)
      have hmul : 2 * (c / b) ≤ b * (c / b) := Nat.mul_le_mul_right _ hb
      omega
    · intro hlt
      rw [Nat.div_eq_of_lt hlt, Nat.mod_eq_of_lt hlt, Nat.digits_zero]
      rfl

/-- Sums of which each term is at most that of the other are equal only term by term. -/
theorem sum_map_eq_iff {α : Type*} {f g : α → ℕ} {l : List α} (h : ∀ x ∈ l, f x ≤ g x) :
    (l.map f).sum = (l.map g).sum ↔ ∀ x ∈ l, f x = g x := by
  induction l with
  | nil => simp
  | cons x l ih =>
    have hx := h x (by simp)
    have hl := fun y hy => h y (List.mem_cons_of_mem x hy)
    have hle := List.sum_le_sum hl
    rw [List.forall_mem_cons, ← ih hl]
    simp only [List.map_cons, List.sum_cons]
    omega

end Lib
