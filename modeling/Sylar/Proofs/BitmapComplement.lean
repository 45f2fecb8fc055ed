import Sylar.Proofs.BitmapFlags

/-! `operator~` of a compressed bitmap. It takes the code of tokens to the code of the tokens
complemented, no two of which come to join, and undoes itself. -/

namespace Sylar

open Lib

namespace Bitmap

/-- What `operator~` does with a word of a compressed bitmap. -/
def complCode (cur : Word) : Word :=
  if cur &&& COMPRESS_MASK ≠ 0#16 then
    if cur &&& VALUE_MASK ≠ 0#16 then cur &&& NOT_VALUE_MASK else cur ||| VALUE_MASK
  else ~~~cur &&& COUNT_MASK

theorem compl_compressed (size : ℕ) (data : List Word) :
    compl ⟨true, size, data⟩ = .ok ⟨true, size, data.map complCode⟩ := rfl

theorem getLsbD_VALUE_MASK (i : ℕ) : VALUE_MASK.getLsbD i = decide (i = 14) := by
  by_cases h : i < 16
  · interval_cases i <;> rfl
  · rw [BitVec.getLsbD_of_ge _ _ (by omega), decide_eq_false (by omega)]

/-- A run word is one of the other value; a literal has its payload complemented. -/
theorem complCode_bit (w : Word) {i : ℕ} (hi : i < 16) :
    (complCode w).getLsbD i =
      if w.getLsbD 15 then (if i = 14 then !w.getLsbD 14 else w.getLsbD i)
      else (!w.getLsbD i && decide (i < 14)) := by
  have hvalue : w &&& VALUE_MASK ≠ 0#16 ↔ w.getLsbD 14 = true := by
    rw [VALUE_MASK_eq]
    exact and_twoPow_ne_zero w (by decide)
  rw [complCode]
  simp only [flagged_iff, hvalue]
  by_cases hflag : w.getLsbD 15 = true
  · rw [if_pos hflag, if_pos hflag]
    by_cases hv : w.getLsbD 14 = true
    · rw [if_pos hv, BitVec.getLsbD_and, NOT_VALUE_MASK, BitVec.getLsbD_not, getLsbD_VALUE_MASK,
        decide_eq_true hi, Bool.true_and]
      by_cases h14 : i = 14
      · simp [h14, hv]
      · simp [h14]
    · rw [if_neg hv, BitVec.getLsbD_or, getLsbD_VALUE_MASK]
      by_cases h14 : i = 14
      · subst h14
        rw [Bool.eq_false_iff.mpr hv]
        rfl
      · simp [h14]
  · rw [if_neg hflag, if_neg hflag, payload_bit, BitVec.getLsbD_not, decide_eq_true hi, Bool.true_and]

theorem complCode_complCode {w : Word} (h : w.getLsbD 15 = true ∨ Clean w) :
    complCode (complCode w) = w := by
  apply BitVec.eq_of_getLsbD_eq
  intro i hi
  rw [complCode_bit _ hi, complCode_bit _ (show 15 < 16 by decide),
    complCode_bit _ (show 14 < 16 by decide), complCode_bit _ hi]
  rcases h with hflag | ⟨h14, h15⟩
  · rw [hflag]
    by_cases hi14 : i = 14
    · simp [hi14]
    · simp [hi14]
  · rw [h15]
    by_cases hlt : i < 14
    · simp [hlt]
    · obtain rfl | rfl : i = 14 ∨ i = 15 := by omega
      · rw [h14]
        rfl
      · rw [h15]
        rfl

theorem complCode_countWord (v : Bool) (x : Word) :
    complCode (if v then COMPRESS_MASK ||| VALUE_MASK ||| (x &&& COUNT_MASK)
      else COMPRESS_MASK ||| (x &&& COUNT_MASK)) =
    if !v then COMPRESS_MASK ||| VALUE_MASK ||| (x &&& COUNT_MASK)
      else COMPRESS_MASK ||| (x &&& COUNT_MASK) := by
  have hc : ∀ i, COMPRESS_MASK.getLsbD i = decide (i = 15) := by
    intro i
    by_cases h : i < 16
    · interval_cases i <;> rfl
    · rw [BitVec.getLsbD_of_ge _ _ (by omega), decide_eq_false (by omega)]
  have hbits : ∀ (u : Bool) (i : ℕ), (if u then COMPRESS_MASK ||| VALUE_MASK ||| (x &&& COUNT_MASK)
      else COMPRESS_MASK ||| (x &&& COUNT_MASK)).getLsbD i =
      (decide (i = 15) || u && decide (i = 14) || x.getLsbD i && decide (i < 14)) := by
    intro u i
    cases u <;> simp [BitVec.getLsbD_or, hc, getLsbD_VALUE_MASK, getLsbD_COUNT_MASK]
  apply BitVec.eq_of_getLsbD_eq
  intro i hi
  rw [complCode_bit _ hi, hbits, hbits, hbits, hbits]
  by_cases h14 : i = 14
  · simp [h14]
  · simp [h14]

theorem map_complCode_countWords (v : Bool) (c : ℕ) :
    (countWords v c).map complCode = countWords (!v) c := by
  induction c using Nat.strongRecOn with
  | ind c ih =>
    by_cases hc : c = 0
    · subst hc
      rw [countWords_zero, countWords_zero]
      rfl
    · have hlt : c >>> VALUE_SIZE < c := by
        rw [Nat.shiftRight_eq_div_pow]
        exact Nat.div_lt_self (by omega) (by decide)
      have hunfold : ∀ u, countWords u c = (if u then
          COMPRESS_MASK ||| VALUE_MASK ||| (BitVec.ofNat 16 c &&& COUNT_MASK)
          else COMPRESS_MASK ||| (BitVec.ofNat 16 c &&& COUNT_MASK)) ::
            countWords u (c >>> VALUE_SIZE) := by
        intro u
        rw [countWords, if_neg hc]
      rw [hunfold v, hunfold (!v), List.map_cons, complCode_countWord, ih _ hlt]

namespace Tok

def compl : Tok → Tok
  | .run v n => .run (!v) n
  | .lit w => .lit (~~~w &&& COUNT_MASK)

theorem Good.compl {t : Tok} (h : t.Good) : t.compl.Good := by
  cases t with
  | run v n => exact h
  | lit w => exact ⟨by rw [payload_bit]; simp, by rw [payload_bit]; simp⟩

theorem compl_code {t : Tok} (h : t.Good) : t.compl.code = t.code.map complCode := by
  cases t with
  | run v n => exact (map_complCode_countWords v _).symm
  | lit w =>
    have hclean : Clean w := h
    have hcode : complCode w = ~~~w &&& COUNT_MASK := by
      rw [complCode, if_neg (by rw [flagged_iff, hclean.2]; simp)]
    rw [compl, code, code, List.map_singleton, hcode]

theorem compl_words (t : Tok) : t.compl.words = t.words.map fun w => ~~~w &&& COUNT_MASK := by
  cases t with
  | run v n =>
    rw [compl, words, words, List.map_replicate]
    cases v <;> rfl
  | lit w => rfl

end Tok

theorem noRun_compl {v : Bool} {ts : List Tok} (h : NoRun v ts) : NoRun (!v) (ts.map Tok.compl) := by
  intro n ts' heq
  cases ts with
  | nil => cases heq
  | cons t ts =>
    cases t with
    | run u m =>
      rw [List.map_cons, Tok.compl, List.cons.injEq, Tok.run.injEq] at heq
      exact h m ts (by rw [Bool.not_inj heq.1.1])
    | lit w =>
      rw [List.map_cons, Tok.compl] at heq
      cases heq

theorem separated_compl {ts : List Tok} (h : Separated ts) : Separated (ts.map Tok.compl) := by
  induction ts with
  | nil => trivial
  | cons t ts ih =>
    cases t with
    | run v n => exact ⟨noRun_compl h.1, ih h.2⟩
    | lit w => exact ih h

theorem good_compl {ts : List Tok} (h : ∀ t ∈ ts, t.Good) : ∀ t ∈ ts.map Tok.compl, t.Good := by
  intro t ht
  obtain ⟨u, hu, rfl⟩ := List.mem_map.mp ht
  exact (h u hu).compl

theorem compl_code {ts : List Tok} (h : ∀ t ∈ ts, t.Good) :
    (ts.map Tok.compl).flatMap Tok.code = (ts.flatMap Tok.code).map complCode := by
  rw [List.flatMap_map, List.map_flatMap]
  exact List.flatMap_congr fun t ht => Tok.compl_code (h t ht)

theorem compl_words (ts : List Tok) :
    (ts.map Tok.compl).flatMap Tok.words = (ts.flatMap Tok.words).map fun w => ~~~w &&& COUNT_MASK := by
  rw [List.flatMap_map, List.map_flatMap]
  exact List.flatMap_congr fun t _ => t.compl_words

theorem mem_code {ts : List Tok} (hgood : ∀ t ∈ ts, t.Good) {w : Word} (hw : w ∈ ts.flatMap Tok.code) :
    w.getLsbD 15 = true ∨ Clean w := by
  obtain ⟨t, ht, hw⟩ := List.mem_flatMap.mp hw
  cases t with
  | lit u =>
    obtain rfl := List.mem_singleton.mp hw
    exact .inr (hgood _ ht)
  | run v n =>
    left
    rw [Tok.code] at hw
    generalize VALUE_SIZE * n = c at hw
    induction c using Nat.strongRecOn with
    | ind c ih =>
      by_cases hc : c = 0
      · subst hc
        rw [countWords_zero] at hw
        exact absurd hw List.not_mem_nil
      · obtain ⟨x, hx, hflag, -⟩ := countWords_cons v hc
        rw [hx] at hw
        rcases List.mem_cons.mp hw with rfl | hw
        · exact hflag
        · refine ih _ ?_ hw
          rw [Nat.shiftRight_eq_div_pow]
          exact Nat.div_lt_self (by omega) (by decide)

theorem map_complCode_twice {ts : List Tok} (hgood : ∀ t ∈ ts, t.Good) :
    ((ts.flatMap Tok.code).map complCode).map complCode = ts.flatMap Tok.code := by
  rw [List.map_map]
  exact (List.map_congr_left fun w hw => complCode_complCode (mem_code hgood hw)).trans (List.map_id' _)

/-- Complementing the compressed bitmap complements every bit, as on the plain one, and twice it
gives back the words. -/
theorem compl_compress (b : Bitmap) (hb : Plain b) (hclean : ∀ w ∈ b.m_data, Clean w)
    (hbound : 14 * b.getDataSize < 2 ^ 32) :
    ∃ c d u n e, b.compress = .ok c ∧ c.compl = .ok d ∧ d.uncompress = .ok u ∧ b.compl = .ok n ∧
      d.compl = .ok e ∧ e.m_data = c.m_data ∧
      ∀ i < b.getSize, ∃ x, b.get i = .ok x ∧ u.get i = .ok (!x) ∧ n.get i = .ok (!x) := by
  obtain ⟨ts, hcomp, hwords, hsep, hgood⟩ := compress_tokens hb hclean
  have hcount : wordCount (ts.map Tok.compl) = b.m_data.length := by
    rw [wordCount, compl_words, List.length_map, hwords]
  have hun := uncompress_code b.m_size (separated_compl hsep) (good_compl hgood)
    (by rw [hcount]; exact hbound) (by rw [hcount, hb.2])
  rw [compl_code hgood, compl_words, hwords] at hun
  refine ⟨_, _, _, _, _, hcomp, compl_compressed _ _, hun, compl_plain hb, compl_compressed _ _,
    map_complCode_twice hgood, fun i hi => ?_⟩
  have hlt : i / VALUE_SIZE < b.m_data.length := by
    rw [hb.2]
    exact index_lt_wordsFor hi
  have hmod : i % VALUE_SIZE < 14 := Nat.mod_lt _ (by decide)
  have hword := List.getElem?_eq_getElem hlt
  refine ⟨_, get_eq hword, ?_, ?_⟩
  · rw [get_eq (b := ⟨_, _, _⟩) (by rw [List.getElem?_map, hword]; rfl), payload_bit,
      BitVec.getLsbD_not, decide_eq_true hmod, decide_eq_true (hmod.trans (by decide)), Bool.true_and,
      Bool.and_true]
  · rw [get_eq (b := { b with m_data := _ }) (by rw [List.getElem?_map, hword]; rfl),
      BitVec.getLsbD_not, decide_eq_true (hmod.trans (by decide)), Bool.true_and]

theorem compl_compress_runs :
    ∃ c d u n e, compress ⟨false, 80, [0#16, 0#16, 5#16, 0x3FFF#16, 0x3FFF#16, 0#16]⟩ = .ok c ∧
      c.compl = .ok d ∧ d.uncompress = .ok u ∧
      compl ⟨false, 80, [0#16, 0#16, 5#16, 0x3FFF#16, 0x3FFF#16, 0#16]⟩ = .ok n ∧
      d.compl = .ok e ∧ e.m_data = c.m_data ∧
      ∀ i < 80, ∃ x, get ⟨false, 80, [0#16, 0#16, 5#16, 0x3FFF#16, 0x3FFF#16, 0#16]⟩ i = .ok x ∧
        u.get i = .ok (!x) ∧ n.get i = .ok (!x) :=
  compl_compress ⟨false, 80, [0#16, 0#16, 5#16, 0x3FFF#16, 0x3FFF#16, 0#16]⟩ (by decide)
    (by simp [Clean]) (by decide)

end Bitmap

end Sylar
