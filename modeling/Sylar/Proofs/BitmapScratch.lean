import Mathlib.Tactic
import Sylar.Spec.BitmapScratch

/-! The block that `compress` writes to is large enough: what is written and what is pending never
stand for more words than were read, although a long run takes more than one. -/

namespace Sylar

namespace Bitmap

theorem length_countWords_succ (v : Bool) {c : ℕ} (hc : c ≠ 0) :
    (countWords v c).length = (countWords v (c >>> VALUE_SIZE)).length + 1 := by
  rw [countWords, if_neg hc, List.length_cons]

theorem length_countWords_le (v : Bool) (c : ℕ) : (countWords v c).length ≤ c := by
  induction c using Nat.strongRecOn with
  | ind c ih =>
    by_cases hc : c = 0
    · rw [countWords, if_pos hc]
      exact Nat.zero_le c
    · have hshift : c >>> VALUE_SIZE = c / 2 ^ 14 := Nat.shiftRight_eq_div_pow c 14
      have hless := ih (c >>> VALUE_SIZE) (by omega)
      rw [length_countWords_succ v hc]
      omega

/-- A run of two words or more takes no more of them than it has. -/
theorem length_countWords_run (v : Bool) {c : ℕ} (hc : c / VALUE_SIZE > 1) :
    (countWords v c).length ≤ c / VALUE_SIZE := by
  have hvalue : VALUE_SIZE = 14 := rfl
  have hshift : c >>> VALUE_SIZE = c / 2 ^ 14 := Nat.shiftRight_eq_div_pow c 14
  have hless := length_countWords_le v (c >>> VALUE_SIZE)
  rw [hvalue] at hc ⊢
  rw [length_countWords_succ v (by omega)]
  omega

variable {room : ℕ} {data : List Word}

theorem put_eq (h : data.length + 1 ≤ room) (w : Word) : put room data w = .ok (data ++ [w]) :=
  if_pos h

theorem putAll_eq {ws : List Word} (h : data.length + ws.length ≤ room) :
    putAll room data ws = .ok (data ++ ws) := by
  induction ws generalizing data with
  | nil => rw [List.append_nil]; rfl
  | cons w ws ih =>
    rw [List.length_cons] at h
    rw [putAll, List.foldlM_cons, put_eq (by omega)]
    change putAll room (data ++ [w]) ws = _
    rw [ih (by rw [List.length_append, List.length_singleton]; omega), List.append_assoc,
      List.singleton_append]

structure Run.Within (i : ℕ) (s : Run) : Prop where
  whole : s.cur_count % VALUE_SIZE = 0
  length_le : s.data.length + s.cur_count / VALUE_SIZE ≤ i

variable {i : ℕ} {s : Run}

/-- The pending run has room, and what is written then is no more than what was read. -/
theorem Run.Within.flush (h : s.Within i) (hroom : i ≤ room) : ∃ data,
    s.flush = .ok data ∧ s.flushIn room = .ok data ∧ data.length ≤ i := by
  have hle := h.length_le
  have hwhole := h.whole
  have hvalue : VALUE_SIZE = 14 := rfl
  by_cases hlong : s.cur_count / VALUE_SIZE > 1
  · have hwords := length_countWords_run s.cur_value hlong
    refine ⟨_, by rw [Run.flush, if_pos hlong, if_pos hwhole],
      by rw [Run.flushIn, if_pos hlong, if_pos hwhole, putAll_eq (by omega)], ?_⟩
    rw [List.length_append]
    omega
  · by_cases hone : s.cur_count ≠ 0
    · have hpos : s.cur_count / VALUE_SIZE = 1 := by
        rw [hvalue] at hlong hwhole ⊢
        omega
      refine ⟨_, by rw [Run.flush, if_neg hlong, if_pos hone],
        by rw [Run.flushIn, if_neg hlong, if_pos hone, put_eq (by omega)], ?_⟩
      rw [List.length_append, List.length_singleton]
      omega
    · exact ⟨s.data, by rw [Run.flush, if_neg hlong, if_neg hone],
        by rw [Run.flushIn, if_neg hlong, if_neg hone], Nat.le_of_add_right_le hle⟩

theorem Run.Within.finish (h : s.Within i) (hroom : i ≤ room) :
    s.finishIn room = .ok s.finish := by
  have hle := h.length_le
  have hwhole := h.whole
  have hvalue : VALUE_SIZE = 14 := rfl
  by_cases hpos : s.cur_count > 0
  · rw [Run.finish, Run.finishIn, if_pos hpos, if_pos hpos]
    by_cases hlong : s.cur_count / VALUE_SIZE > 1
    · have hwords := length_countWords_run s.cur_value hlong
      rw [if_pos hlong, if_pos hlong, putAll_eq (by omega)]
    · have hone : s.cur_count / VALUE_SIZE = 1 := by
        rw [hvalue] at hlong hwhole ⊢
        omega
      rw [if_neg hlong, if_neg hlong, put_eq (by omega)]
  · rw [Run.finish, Run.finishIn, if_neg hpos, if_neg hpos]

theorem Run.Within.step {limit : ℕ → ℕ} (hlimit : i ≤ limit i) (hnext : i + 1 ≤ limit (i + 1))
    (h : s.Within i) (cur : Word) :
    ∃ s', s.step cur = .ok s' ∧ s.stepIn limit i cur = .ok s' ∧ s'.Within (i + 1) := by
  have hvalue : VALUE_SIZE = 14 := rfl
  -- a word that belongs to the pending run
  have hlonger : ({ s with cur_count := s.cur_count + VALUE_SIZE } : Run).Within (i + 1) := by
    have hwhole := h.whole
    have hle := h.length_le
    constructor
    · rw [hvalue] at hwhole ⊢
      dsimp only
      omega
    · rw [hvalue] at hle ⊢
      dsimp only
      omega
  obtain ⟨data, hflush, hflushIn, hlength⟩ := h.flush hlimit
  unfold Run.step Run.stepIn
  simp only
  by_cases hzero : count_bits (cur &&& COUNT_MASK) = 0 ∧ s.cur_value = false
  · exact ⟨_, by rw [if_pos hzero], by rw [if_pos hzero], hlonger⟩
  · by_cases hone : count_bits (cur &&& COUNT_MASK) = VALUE_SIZE ∧ s.cur_value = true
    · exact ⟨_, by rw [if_neg hzero, if_pos hone], by rw [if_neg hzero, if_pos hone], hlonger⟩
    · rw [if_neg hzero, if_neg hone, if_neg hzero, if_neg hone, hflush, hflushIn]
      simp only [bind, Except.bind]
      by_cases hrun : count_bits (cur &&& COUNT_MASK) = 0 ∨ count_bits (cur &&& COUNT_MASK) = VALUE_SIZE
      · refine ⟨_, by rw [if_pos hrun], by rw [if_pos hrun], ⟨Nat.mod_self _, ?_⟩⟩
        rw [hvalue]
        dsimp only
        omega
      · have hput : put (limit (i + 1)) data cur = .ok (data ++ [cur]) := put_eq (by omega) cur
        refine ⟨_, by rw [if_neg hrun], by rw [if_neg hrun, hput], ⟨Nat.zero_mod _, ?_⟩⟩
        dsimp only
        rw [List.length_append, List.length_singleton, Nat.zero_div]
        omega

theorem Run.Within.loop {limit : ℕ → ℕ} (words : List Word)
    (hlimit : ∀ n ≤ i + words.length, n ≤ limit n) (h : s.Within i) :
    ∃ s', words.foldlM Run.step s = .ok s' ∧ Run.loopIn limit i s words = .ok s' ∧
      s'.Within (i + words.length) := by
  induction words generalizing i s with
  | nil => exact ⟨s, rfl, rfl, h⟩
  | cons cur rest ih =>
    rw [List.length_cons] at hlimit
    obtain ⟨s₁, hstep, hstepIn, h₁⟩ :=
      h.step (hlimit i (by omega)) (hlimit (i + 1) (by omega)) cur
    obtain ⟨s', hloop, hloopIn, h'⟩ := ih (fun n hn => hlimit n (by omega)) h₁
    refine ⟨s', ?_, ?_, ?_⟩
    · rw [List.foldlM_cons, hstep]
      exact hloop
    · rw [Run.loopIn, hstepIn]
      exact hloopIn
    · rw [List.length_cons]
      rwa [Nat.add_assoc, Nat.add_comm 1] at h'

/-- A block with room for `n` words once `n` are read is as good as one without an end. -/
theorem compressIn_eq (b : Bitmap) (limit : ℕ → ℕ) (hlimit : ∀ n ≤ b.m_data.length, n ≤ limit n) :
    ∃ c, compress b = .ok c ∧ compressIn limit b = .ok c := by
  by_cases hcompress : b.m_compress = true
  · exact ⟨b, by rw [compress, if_pos hcompress], by rw [compressIn, if_pos hcompress]⟩
  · have hstart : Run.Within 0 ⟨false, 0, []⟩ := ⟨rfl, Nat.le_refl 0⟩
    obtain ⟨s, hloop, hloopIn, h⟩ := hstart.loop b.m_data (by rwa [Nat.zero_add])
    rw [Nat.zero_add] at h
    refine ⟨⟨true, b.m_size, s.finish⟩, ?_, ?_⟩
    · rw [compress, if_neg hcompress, hloop]
      rfl
    · rw [compressIn, if_neg hcompress, hloopIn]
      change (s.finishIn (limit b.m_data.length) >>= fun data => _) = _
      rw [h.finish (hlimit _ (Nat.le_refl _))]
      rfl

/-- `compress` writes no word outside its block of `m_dataSize` words, and none before the input has
as many for it. -/
theorem compress_in_scratch (b : Bitmap) : ∃ c, compress b = .ok c ∧
    compressIn (fun _ => b.m_data.length) b = .ok c ∧ compressIn (fun n => n) b = .ok c := by
  obtain ⟨c, hc, hblock⟩ := compressIn_eq b (fun _ => b.m_data.length) fun n hn => hn
  obtain ⟨c', hc', hread⟩ := compressIn_eq b (fun n => n) fun n _ => Nat.le_refl n
  cases hc.symm.trans hc'
  exact ⟨c, hc, hblock, hread⟩

end Bitmap

end Sylar
