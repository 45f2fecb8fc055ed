import Mathlib.Tactic

/-! Numbers as bit-fields. A field is its width and its value, and the first one has the low
bits. -/

namespace Lib

def pack : List (ℕ × ℕ) → ℕ
  | [] => 0
  | (w, v) :: fs => v + 2 ^ w * pack fs

def unpack : List ℕ → ℕ → List ℕ
  | [], _ => []
  | w :: ws, n => n % 2 ^ w :: unpack ws (n / 2 ^ w)

theorem unpack_pack {fs : List (ℕ × ℕ)} (h : ∀ f ∈ fs, f.2 < 2 ^ f.1) :
    unpack (fs.map Prod.fst) (pack fs) = fs.map Prod.snd := by
  induction fs with
  | nil => rfl
  | cons f fs ih =>
    have hf := h f List.mem_cons_self
    have hlow : (f.2 + 2 ^ f.1 * pack fs) % 2 ^ f.1 = f.2 := by
      rw [Nat.add_mul_mod_self_left, Nat.mod_eq_of_lt hf]
    have hhigh : (f.2 + 2 ^ f.1 * pack fs) / 2 ^ f.1 = pack fs := by
      rw [Nat.add_mul_div_left _ _ (Nat.two_pow_pos _), Nat.div_eq_of_lt hf, Nat.zero_add]
    simp only [List.map_cons, pack, unpack, hlow, hhigh]
    rw [ih fun g hg => h g (List.mem_cons_of_mem f hg)]

theorem pack_lt {fs : List (ℕ × ℕ)} (h : ∀ f ∈ fs, f.2 < 2 ^ f.1) :
    pack fs < 2 ^ (fs.map Prod.fst).sum := by
  induction fs with
  | nil => exact Nat.one_pos
  | cons f fs ih =>
    have hf := h f List.mem_cons_self
    have hfs := ih fun g hg => h g (List.mem_cons_of_mem f hg)
    calc f.2 + 2 ^ f.1 * pack fs < 2 ^ f.1 + 2 ^ f.1 * pack fs := by omega
      _ = 2 ^ f.1 * (pack fs + 1) := by ring
      _ ≤ 2 ^ f.1 * 2 ^ (fs.map Prod.fst).sum := Nat.mul_le_mul_left _ hfs
      _ = 2 ^ ((f :: fs).map Prod.fst).sum := by rw [List.map_cons, List.sum_cons, pow_add]

end Lib
