import Sylar.Lib.Digits

/-! Bytes as a string of bits, of which the first is the highest of the first byte. -/

namespace Lib

def bitAt (bytes : List UInt8) (i : ℕ) : Bool := (bytes.getD (i / 8) 0).toNat.testBit (7 - i % 8)

theorem bitAt_modify {bytes : List UInt8} {i : ℕ} (hi : i / 8 < bytes.length) (k : ℕ)
    (f : UInt8 → UInt8) : bitAt (bytes.modify k f) i =
      if i / 8 = k then (f (bytes.getD (i / 8) 0)).toNat.testBit (7 - i % 8) else bitAt bytes i := by
  rw [bitAt, bitAt, List.getD_eq_getElem _ _ (by rwa [List.length_modify]),
    List.getD_eq_getElem _ _ hi, List.getElem_modify]
  by_cases hk : i / 8 = k
  · rw [if_pos hk.symm, if_pos hk]
  · rw [if_neg (Ne.symm hk), if_neg hk]

theorem testBit_complement (b : UInt8) {j : ℕ} (hj : j < 8) :
    (~~~ b).toNat.testBit j = !b.toNat.testBit j := by
  rw [← UInt8.toNat_toBitVec, ← UInt8.toNat_toBitVec, UInt8.toBitVec_not, ← BitVec.getLsbD,
    ← BitVec.getLsbD, BitVec.getLsbD_not, decide_eq_true hj, Bool.true_and]

theorem testBit_0xff {j : ℕ} (hj : j < 8) : (0xff : UInt8).toNat.testBit j = true := by
  rw [show (0xff : UInt8).toNat = 2 ^ 8 - 1 from rfl, Nat.testBit_two_pow_sub_one]
  exact decide_eq_true hj

theorem getD_leBytes {n k : ℕ} (h : k < n) (v : ℕ) :
    (leBytes n v).getD k 0 = UInt8.ofNat (v / 256 ^ k) := by
  induction n generalizing v k with
  | zero => omega
  | succ n ih =>
    cases k with
    | zero => rw [leBytes, List.getD_cons_zero, pow_zero, Nat.div_one]
    | succ k => rw [leBytes, List.getD_cons_succ, ih (by omega), Nat.div_div_eq_div_mul, pow_succ']

theorem testBit_ofNat {v j : ℕ} (hj : j < 8) : (UInt8.ofNat v).toNat.testBit j = v.testBit j := by
  rw [UInt8.toNat_ofNat', Nat.testBit_mod_two_pow, decide_eq_true hj,
    Bool.true_and]

theorem testBit_div_256_pow (v k j : ℕ) : (v / 256 ^ k).testBit j = v.testBit (8 * k + j) := by
  have hpow : 256 ^ k = 2 ^ (8 * k) := by
    rw [pow_mul]
    norm_num
  rw [hpow, Nat.testBit_div_two_pow, Nat.add_comm]

theorem bitAt_leBytes {n i : ℕ} (h : i < 8 * n) (v : ℕ) :
    bitAt (leBytes n v) i = v.testBit (8 * (i / 8) + (7 - i % 8)) := by
  rw [bitAt, getD_leBytes (by omega), testBit_ofNat (by omega), testBit_div_256_pow]

/-- With the highest byte first, bit `i` of the bytes is the bit `i` below the highest. -/
theorem bitAt_leBytes_reverse {n i : ℕ} (h : i < 8 * n) (v : ℕ) :
    bitAt (leBytes n v).reverse i = v.testBit (8 * n - 1 - i) := by
  have hk : i / 8 < (leBytes n v).reverse.length := by
    rw [List.length_reverse, length_leBytes]
    omega
  have hrev : (leBytes n v).reverse.getD (i / 8) 0 = (leBytes n v).getD (n - 1 - i / 8) 0 := by
    rw [List.getD_eq_getElem _ _ hk, List.getElem_reverse,
      ← List.getD_eq_getElem _ 0, length_leBytes]
  rw [bitAt, hrev, getD_leBytes (by omega), testBit_ofNat (by omega), testBit_div_256_pow]
  congr 1
  omega

end Lib
