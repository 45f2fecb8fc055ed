import Mathlib.Data.List.Basic
import Mathlib.Tactic

/-! Overwriting a stretch of a list, and lists cut into blocks of one length. -/

namespace Lib

variable {α : Type*}

/-- `l` with `bs` in place of the elements from `i` on; longer than `l` when
`bs` reaches past its end. -/
def overwrite (l : List α) (i : ℕ) (bs : List α) : List α :=
  l.take i ++ bs ++ l.drop (i + bs.length)

theorem length_overwrite {l : List α} {i : ℕ} {bs : List α} (h : i + bs.length ≤ l.length) :
    (overwrite l i bs).length = l.length := by
  simp only [overwrite, List.length_append, List.length_take, List.length_drop]
  omega

@[simp] theorem overwrite_nil (l : List α) (i : ℕ) : overwrite l i [] = l := by
  simp [overwrite]

theorem overwrite_append_left {l₁ : List α} (l₂ : List α) {i : ℕ} {bs : List α}
    (h : i + bs.length ≤ l₁.length) :
    overwrite (l₁ ++ l₂) i bs = overwrite l₁ i bs ++ l₂ := by
  unfold overwrite
  rw [List.take_append_of_le_length (by omega), List.drop_append_of_le_length h]
  simp only [List.append_assoc]

theorem overwrite_append_right (l₁ l₂ : List α) (i : ℕ) (bs : List α) :
    overwrite (l₁ ++ l₂) (l₁.length + i) bs = l₁ ++ overwrite l₂ i bs := by
  unfold overwrite
  rw [List.take_length_add_append, Nat.add_assoc, List.drop_length_add_append]
  simp only [List.append_assoc]

/-- A stretch that leaves the first part for the second. -/
theorem overwrite_append_split {l₁ : List α} (l₂ : List α) {i : ℕ} {bs : List α}
    (hi : i ≤ l₁.length) (hb : l₁.length - i ≤ bs.length) :
    overwrite (l₁ ++ l₂) i bs =
      overwrite l₁ i (bs.take (l₁.length - i)) ++ overwrite l₂ 0 (bs.drop (l₁.length - i)) := by
  have hd : (l₁ ++ l₂).drop (i + bs.length) = l₂.drop (bs.length - (l₁.length - i)) := by
    rw [show i + bs.length = l₁.length + (bs.length - (l₁.length - i)) by omega,
      List.drop_length_add_append]
  have hl : l₁.drop (i + (bs.take (l₁.length - i)).length) = [] := by
    apply List.drop_eq_nil_of_le
    rw [List.length_take]
    omega
  unfold overwrite
  rw [List.take_append_of_le_length hi, hd, hl]
  simp only [List.append_nil, List.take_zero, List.nil_append, Nat.zero_add, List.length_drop,
    List.append_assoc]
  rw [← List.append_assoc (bs.take _), List.take_append_drop]

theorem overwrite_overwrite {l : List α} {i : ℕ} (bs cs : List α) (h : i ≤ l.length) :
    overwrite (overwrite l i bs) (i + bs.length) cs = overwrite l i (bs ++ cs) := by
  have hlen : (l.take i ++ bs).length = i + bs.length := by
    rw [List.length_append, List.length_take, Nat.min_eq_left h]
  have htake : (overwrite l i bs).take (i + bs.length) = l.take i ++ bs := List.take_left' hlen
  have hdrop : (overwrite l i bs).drop (i + bs.length) = l.drop (i + bs.length) :=
    List.drop_left' hlen
  rw [overwrite, htake, ← List.drop_drop, hdrop, List.drop_drop, overwrite, List.length_append,
    Nat.add_assoc, List.append_assoc]
  simp only [List.append_assoc]

/-- Seen through its first `m` elements, an overwritten list grows to hold `bs`. -/
theorem take_overwrite {l : List α} {i m : ℕ} {bs : List α} (hi : i ≤ m) (hm : m ≤ l.length) :
    (overwrite l i bs).take (max m (i + bs.length)) = overwrite (l.take m) i bs := by
  have hpre : (l.take i ++ bs).length = i + bs.length := by
    rw [List.length_append, List.length_take]
    omega
  have htake : (l.take m).take i = l.take i := by rw [List.take_take, Nat.min_eq_left hi]
  have hdrop : (l.take m).drop (i + bs.length) = (l.drop (i + bs.length)).take (m - (i + bs.length)) := by
    rw [List.drop_take]
  unfold overwrite
  rw [htake, hdrop, List.take_append, List.take_of_length_le (by omega), hpre]
  congr 2
  omega

theorem takeD_add (l : List α) (n : ℕ) (a : α) :
    l.takeD (l.length + n) a = l ++ List.replicate n a := by
  induction l with
  | nil => simp
  | cons b l ih =>
    rw [List.length_cons, Nat.add_right_comm]
    simp [ih]

theorem length_flatten_blocks {b : ℕ} {ls : List (List α)} (h : ∀ l ∈ ls, l.length = b) :
    ls.flatten.length = b * ls.length := by
  induction ls with
  | nil => simp
  | cons l ls ih =>
    rw [List.flatten_cons, List.length_append, h l (by simp), ih fun x hx => h x (by simp [hx]),
      List.length_cons]
    ring

theorem drop_flatten_blocks {b : ℕ} {ls : List (List α)} (h : ∀ l ∈ ls, l.length = b) (i : ℕ)
    (hi : i ≤ ls.length) : ls.flatten.drop (b * i) = (ls.drop i).flatten := by
  have hlen := length_flatten_blocks fun l hl => h l (List.mem_of_mem_take (i := i) hl)
  rw [List.length_take, Nat.min_eq_left hi] at hlen
  conv_lhs => rw [← List.take_append_drop i ls, List.flatten_append, ← hlen, List.drop_left]

theorem overwrite_flatten_blocks {b : ℕ} {ls : List (List α)} (h : ∀ l ∈ ls, l.length = b)
    (i r : ℕ) (hi : i ≤ ls.length) (bs : List α) :
    overwrite ls.flatten (b * i + r) bs =
      (ls.take i).flatten ++ overwrite (ls.drop i).flatten r bs := by
  have hlen := length_flatten_blocks fun l hl => h l (List.mem_of_mem_take (i := i) hl)
  rw [List.length_take, Nat.min_eq_left hi] at hlen
  conv_lhs => rw [← List.take_append_drop i ls, List.flatten_append, ← hlen]
  exact overwrite_append_right _ _ _ _

theorem zipWith_replicate_right {β γ : Type*} (f : α → β → γ) (l : List α) (c : β) :
    List.zipWith f l (List.replicate l.length c) = l.map fun a => f a c := by
  induction l with
  | nil => rfl
  | cons a l ih => rw [List.length_cons, List.replicate_succ, List.zipWith_cons_cons, ih, List.map_cons]

theorem zipWith_ignore_left {β γ : Type*} (g : β → γ) :
    ∀ (l : List α) (cs : List β), l.length = cs.length →
      List.zipWith (fun _ c => g c) l cs = cs.map g
  | [], [], _ => rfl
  | [], _ :: _, h => by simp at h
  | _ :: _, [], h => by simp at h
  | _ :: l, _ :: cs, h => by
      rw [List.zipWith_cons_cons, zipWith_ignore_left g l cs (by simpa using h), List.map_cons]

end Lib
