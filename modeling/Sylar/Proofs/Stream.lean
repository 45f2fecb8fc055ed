import Sylar.Spec.Stream

/-! A block that was written is read back, in one go or in turns, whatever the turns
of the writer and of the reader are. -/

namespace Sylar

open Lib

theorem readLoop_ended (part : ℕ → ℕ) (turns : ℕ) (data : List UInt8) (n : ℕ) :
    readLoop part turns ⟨data, false⟩ n = ([], ⟨data, false⟩) := by
  cases turns with
  | zero => rfl
  | succ turns => rfl

/-- Reading in turns is reading at once, also from a stream that ends before. -/
theorem readLoop_read {part : ℕ → ℕ} (hpart : ∀ n, 0 < n → 0 < part n ∧ part n ≤ n) :
    ∀ (turns : ℕ) (is : IStream) (n : ℕ), n ≤ turns → readLoop part turns is n = is.read n := by
  intro turns
  induction turns with
  | zero =>
    intro is n h
    obtain rfl : n = 0 := by omega
    obtain ⟨data, good⟩ := is
    cases good with
    | false => rfl
    | true => simp [readLoop, IStream.read]
  | succ turns ih =>
    intro is n h
    obtain ⟨data, good⟩ := is
    cases good with
    | false => exact readLoop_ended part _ data n
    | true =>
      by_cases h0 : n = 0
      · subst h0
        simp [readLoop, IStream.read]
      · obtain ⟨hpos, hle⟩ := hpart n (by omega)
        rw [readLoop, if_pos (by simp; omega)]
        by_cases hdata : part n ≤ data.length
        · have hread : (⟨data, true⟩ : IStream).read (part n) =
              (data.take (part n), ⟨data.drop (part n), true⟩) := by
            simp [IStream.read, hdata]
          have hlen : (data.take (part n)).length = part n := List.length_take_of_le hdata
          rw [hread]
          dsimp only
          rw [hlen, ih _ _ (by omega)]
          simp only [IStream.read, if_true, List.drop_drop, List.length_drop]
          refine Prod.ext ?_ ?_
          · dsimp only
            rw [← List.take_add, Nat.add_sub_cancel' hle]
          · dsimp only
            have hgood : n - part n ≤ data.length - part n ↔ n ≤ data.length := by omega
            rw [Nat.add_sub_cancel' hle, decide_eq_decide.mpr hgood]
        · -- the stream ends in this turn
          have hshort : ∀ k, part n ≤ k → (⟨data, true⟩ : IStream).read k = (data, ⟨[], false⟩) := by
            intro k hk
            simp only [IStream.read, if_true]
            rw [List.take_of_length_le (by omega), List.drop_eq_nil_of_le (by omega),
              decide_eq_false (by omega)]
          rw [hshort _ (Nat.le_refl _), hshort n hle]
          dsimp only
          rw [readLoop_ended, List.append_nil]

theorem readFixFromStream_read (is : IStream) (n : ℕ) :
    readFixFromStream is n = (decide ((is.read n).1.length = n), is.read n) := by
  rw [readFixFromStream, @readLoop_read id (fun n hn => ⟨hn, Nat.le_refl n⟩) n is n (Nat.le_refl n)]

theorem readFixFromStreamWithSpeed_read (rate : ℕ → ℕ) (is : IStream) (n speed : ℕ) :
    readFixFromStreamWithSpeed rate is n speed =
      (decide ((is.read n).1.length = n), is.read n) := by
  have hper : 0 < perTurn rate speed := by
    rw [perTurn]
    omega
  have hpart : ∀ k, 0 < k → 0 < (if k > perTurn rate speed then perTurn rate speed else k) ∧
      (if k > perTurn rate speed then perTurn rate speed else k) ≤ k := by
    intro k hk
    split <;> omega
  rw [readFixFromStreamWithSpeed]
  dsimp only
  rw [readLoop_read hpart n is n (Nat.le_refl n)]

theorem readFix_read (rate : ℕ → ℕ) (is : IStream) (n speed : ℕ) :
    (if speed = unlimited then readFixFromStream is n
      else readFixFromStreamWithSpeed rate is n speed) =
      (decide ((is.read n).1.length = n), is.read n) := by
  rw [readFixFromStream_read, readFixFromStreamWithSpeed_read, ite_self]

theorem read_append (data rest : List UInt8) :
    (⟨data ++ rest, true⟩ : IStream).read data.length = (data, ⟨rest, true⟩) := by
  simp [IStream.read]

theorem readFixFromStream_eq (data rest : List UInt8) :
    readFixFromStream ⟨data ++ rest, true⟩ data.length = (true, data, ⟨rest, true⟩) := by
  rw [readFixFromStream_read, read_append, decide_eq_true rfl]

theorem writeLoop_eq {per : ℕ} (hper : 0 < per) : ∀ (turns : ℕ) (os data : List UInt8),
    data.length ≤ turns → writeLoop per turns os data = os ++ data := by
  intro turns
  induction turns with
  | zero =>
    intro os data h
    obtain rfl : data = [] := List.length_eq_zero_iff.mp (by omega)
    rw [writeLoop, List.append_nil]
  | succ turns ih =>
    intro os data h
    rw [writeLoop]
    split
    · rename_i h0
      rw [List.length_eq_zero_iff.mp h0, List.append_nil]
    · rename_i h0
      dsimp only
      rw [ih _ _ (by rw [List.length_drop]; split <;> omega), List.append_assoc,
        List.take_append_drop]

/-- A block on a stream: its size, then its bytes. -/
def blockBytes {α : Type} (P : Pod α) (xs : List α) : List UInt8 :=
  leBytes 8 (P.bytes xs).length ++ P.bytes xs

theorem writeBlock_eq {α : Type} (rate : ℕ → ℕ) (P : Pod α) (os : List UInt8) (xs : List α)
    (speed : ℕ) : writeBlock rate os (P.bytes xs) speed = os ++ blockBytes P xs := by
  rw [writeBlock, blockBytes]
  split
  · rw [List.append_assoc]
  · rw [writeFixToStreamWithSpeed, writeLoop_eq (by rw [perTurn]; omega) _ _ _ (Nat.le_refl _),
      List.append_assoc]

theorem readField_eq {n : ℕ} (hn : n < 2 ^ 64) (rest : List UInt8) :
    readFixFromStream ⟨leBytes 8 n ++ rest, true⟩ 8 = (true, leBytes 8 n, ⟨rest, true⟩) ∧
      leNat (leBytes 8 n) = n := by
  constructor
  · have := readFixFromStream_eq (leBytes 8 n) rest
    rwa [length_leBytes] at this
  · rw [leNat_leBytes]
    exact Nat.mod_eq_of_lt (by norm_num; omega)

/-- The elements of a block come back, and the stream goes on behind it. -/
theorem readBlock_eq {α : Type} (rate : ℕ → ℕ) (P : Pod α) {allocates : ℕ → Bool} (xs : List α)
    (hfits : xs.length * P.size < 2 ^ 63) (halloc : allocates (xs.length * P.size) = true)
    (speed : ℕ) (rest : List UInt8) :
    readBlock rate P allocates ⟨blockBytes P xs ++ rest, true⟩ speed =
      .ok (some xs, ⟨rest, true⟩) := by
  have hlen : (P.bytes xs).length = xs.length * P.size := P.length_bytes xs
  obtain ⟨hread, hnat⟩ := readField_eq (n := (P.bytes xs).length) (by omega) (P.bytes xs ++ rest)
  have hcount : (P.bytes xs).length / P.size = xs.length := by
    rw [hlen]
    exact Nat.mul_div_cancel _ P.size_pos
  have hdata : (if speed = unlimited then
        readFixFromStream ⟨P.bytes xs ++ rest, true⟩ (P.bytes xs).length
      else readFixFromStreamWithSpeed rate ⟨P.bytes xs ++ rest, true⟩ (P.bytes xs).length speed) =
      (true, P.bytes xs, ⟨rest, true⟩) := by
    rw [readFix_read, read_append, decide_eq_true rfl]
  rw [blockBytes, List.append_assoc, readBlock, hread]
  dsimp only
  rw [hnat, hcount, halloc, hdata]
  simp only [Bool.not_true, Bool.false_eq_true, if_false, hlen, Nat.lt_irrefl, P.items_bytes]

end Sylar
