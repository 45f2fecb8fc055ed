import Mathlib.Data.List.Basic
import Mathlib.Tactic

/-! Values kept as a fixed number of bytes, and arrays of them. -/

namespace Lib

variable {α : Type*}

structure Pod (α : Type*) where
  size : ℕ
  size_pos : 0 < size
  enc : α → List UInt8
  dec : List UInt8 → α
  length_enc : ∀ x, (enc x).length = size
  dec_enc : ∀ x, dec (enc x) = x

namespace Pod

def bytes (P : Pod α) (xs : List α) : List UInt8 := xs.flatMap P.enc

def items (P : Pod α) : ℕ → List UInt8 → List α
  | 0, _ => []
  | n + 1, bs => P.dec (bs.take P.size) :: P.items n (bs.drop P.size)

@[simp] theorem length_bytes (P : Pod α) (xs : List α) :
    (P.bytes xs).length = xs.length * P.size := by
  induction xs with
  | nil => simp [bytes]
  | cons x xs ih =>
    rw [bytes, List.flatMap_cons, List.length_append, P.length_enc, ← bytes, ih, List.length_cons]
    ring

theorem items_bytes (P : Pod α) (xs : List α) : P.items xs.length (P.bytes xs) = xs := by
  induction xs with
  | nil => rfl
  | cons x xs ih =>
    have hlen : P.size = (P.enc x).length := (P.length_enc x).symm
    rw [List.length_cons, bytes, List.flatMap_cons, items, hlen, List.take_left, List.drop_left,
      P.dec_enc, ← bytes, ih]

end Pod

end Lib
