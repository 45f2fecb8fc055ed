import Sylar.Proofs.BitmapAny

/-! When `getCount` tells how many bits are set. On a plain bitmap it does; on a compressed one it
adds the words of a count up as they are, the second one as if it were the first. -/

namespace Sylar

open Lib

namespace Bitmap

/-- The plain and the compressed bitmap both count the bits set below the size. -/
def CountRight (b : Bitmap) : Prop :=
  ∃ c n, b.compress = .ok c ∧ b.getCount = .ok n ∧
    n = (List.range b.getSize).countP (fun i => b.get i = .ok true) ∧ c.getCount = .ok n

def ones (ws : List Word) : ℕ := (ws.map count_bits).sum

theorem countP_range_add (p : ℕ → Bool) (n m : ℕ) :
    (List.range (n + m)).countP p = (List.range n).countP p + (List.range m).countP fun i => p (n + i) := by
  rw [List.range_add, List.countP_append, List.countP_map]
  rfl

theorem getLsbD_of_lane {x : BitVec 64} {k : ℕ} {w : Word} (h : lane x k = w) {i : ℕ} (hi : i < 16) :
    x.getLsbD (16 * k + i) = w.getLsbD i := by
  rw [← h, lane, BitVec.getLsbD_extractLsb', decide_eq_true hi, Bool.true_and]

theorem popcount_half {x : BitVec 64} {y : BitVec 32} {k : ℕ} {w w' : Word} (h : lane x k = w)
    (h' : lane x (k + 1) = w') (hy : ∀ i < 32, y.getLsbD i = x.getLsbD (16 * k + i)) :
    popcount y = count_bits w + count_bits w' := by
  have hlow : (List.range 16).countP (fun i => y.getLsbD i) = count_bits w :=
    List.countP_congr fun i hi => by
      have hi := List.mem_range.mp hi
      rw [hy i (by omega), getLsbD_of_lane h hi]
  have hhigh : (List.range 16).countP (fun i => y.getLsbD (16 + i)) = count_bits w' :=
    List.countP_congr fun i hi => by
      have hi := List.mem_range.mp hi
      rw [hy (16 + i) (by omega), ← getLsbD_of_lane h' hi,
        show 16 * (k + 1) + i = 16 * k + (16 + i) by ring]
  have hsplit := countP_range_add (fun i => y.getLsbD i) 16 16
  rw [hlow, hhigh] at hsplit
  exact hsplit

theorem count_bits64_pack (w₀ w₁ w₂ w₃ : Word) :
    count_bits64 (pack w₀ w₁ w₂ w₃) = ones [w₀, w₁, w₂, w₃] := by
  obtain ⟨h₀, h₁, h₂, h₃⟩ := lane_pack w₀ w₁ w₂ w₃
  have hlow := popcount_half h₀ h₁ (y := (pack w₀ w₁ w₂ w₃ &&& 0xFFFFFFFF#64).setWidth 32) fun i hi => by
    rw [BitVec.getLsbD_setWidth, BitVec.getLsbD_and, decide_eq_true hi, Bool.true_and]
    have hmask : (0xFFFFFFFF#64).getLsbD i = true := by interval_cases i <;> rfl
    rw [hmask, Bool.and_true, Nat.mul_zero, Nat.zero_add]
  have hhigh := popcount_half h₂ h₃ (y := (pack w₀ w₁ w₂ w₃ >>> 32).setWidth 32) fun i hi => by
    rw [BitVec.getLsbD_setWidth, BitVec.getLsbD_ushiftRight, decide_eq_true hi, Bool.true_and]
  rw [count_bits64, hlow, hhigh, ones]
  simp only [List.map_cons, List.map_nil, List.sum_cons, List.sum_nil]
  ring

section Places

variable {P : ℕ → Prop} [DecidablePred P]

theorem length_between (lo hi : ℕ) :
    (between P lo hi).length = (List.range (hi - lo)).countP fun i => P (lo + i) := by
  rw [between, ← List.countP_eq_length_filter, List.range'_eq_map_range, List.countP_map]
  rfl

theorem length_between_word {w : Word} {ws : List Word} {p : ℕ} (h : Spells P p (w :: ws)) (hw : Clean w) :
    (between P p (p + VALUE_SIZE)).length = count_bits w := by
  have hflags : (List.range 2).countP (fun i => w.getLsbD (14 + i)) = 0 := by
    rw [List.countP_eq_zero]
    intro i hi
    have hi := List.mem_range.mp hi
    obtain rfl | rfl : i = 0 ∨ i = 1 := by omega
    · rw [hw.1]; exact Bool.false_ne_true
    · rw [hw.2]; exact Bool.false_ne_true
  have hsplit : count_bits w = (List.range 14).countP fun i => w.getLsbD i := by
    rw [← Nat.add_zero (List.countP _ _), ← hflags]
    exact countP_range_add (fun i => w.getLsbD i) 14 2
  rw [length_between, hsplit, Nat.add_sub_cancel_left]
  refine List.countP_congr fun i hi => ?_
  rw [h.head (List.mem_range.mp hi)]
  simp

theorem length_between_words (ws : List Word) (hclean : ∀ w ∈ ws, Clean w) : ∀ p : ℕ, Spells P p ws →
    (between P p (p + VALUE_SIZE * ws.length)).length = ones ws := by
  induction ws with
  | nil =>
    intro p _
    rw [between_of_le (by simp)]
    rfl
  | cons w ws ih =>
    intro p h
    have ih := ih (fun x hx => hclean x (by simp [hx])) (p + VALUE_SIZE) h.tail
    have hend : p + VALUE_SIZE * (w :: ws).length = p + VALUE_SIZE + VALUE_SIZE * ws.length := by
      rw [List.length_cons]
      ring
    rw [hend, between_append (p + VALUE_SIZE) (by omega) (by omega), List.length_append, ih,
      length_between_word h (hclean w (by simp)), ones, ones, List.map_cons, List.sum_cons]

/-- Beyond the size no bit is set, so that a group that reaches over it counts no more. -/
theorem countGroups_eq {size : ℕ} (hsize : size + VALUE_SIZE ≤ 2 ^ 32) (n : ℕ) :
    ∀ (ws : List Word) (p c : ℕ), Spells P p ws → (∀ w ∈ ws, Clean w) → Fits size p ws →
      U64_DIV_BASE * n ≤ ws.length → (∀ i, size ≤ i → i < p + VALUE_SIZE * ws.length → ¬ P i) →
      countGroups size n ws p (c % 2 ^ 32) = .ok ((c + ones ws) % 2 ^ 32) := by
  induction n with
  | zero =>
    intro ws p c h hclean hfits _ hclear
    rw [countGroups, visitTail_eq _ hsize ws p _ h hfits, feed_count, ← length_between_words ws hclean p h]
    by_cases hp : p ≤ size
    · have hnil : between P size (p + VALUE_SIZE * ws.length) = [] := between_eq_nil hclear
      rw [between_append size hp hfits.1, hnil, List.append_nil]
    · have hnil : ws = [] := by
        by_contra hne
        have hlt := hfits.2 hne
        have hlen := List.length_pos_iff.mpr hne
        unfold VALUE_SIZE at hlt
        omega
      subst hnil
      rw [between_of_le (by omega), between_of_le (by simp)]
  | succ n ih =>
    intro ws p c h hclean hfits hn hclear
    unfold U64_DIV_BASE at hn
    match ws, hn with
    | [], hn | [_], hn | [_, _], hn | [_, _, _], hn =>
        simp only [List.length_cons, List.length_nil] at hn
        omega
    | w₀ :: w₁ :: w₂ :: w₃ :: ws, hn =>
      have hend : p + VALUE_SIZE * (w₀ :: w₁ :: w₂ :: w₃ :: ws).length =
          p + U64_VALUE_SIZE + VALUE_SIZE * ws.length := by
        simp only [List.length_cons, U64_VALUE_SIZE, U64_DIV_BASE]
        ring
      rw [Fits, hend] at hfits
      rw [hend] at hclear
      have hlt := hfits.2 (List.cons_ne_nil _ _)
      have hsum : ones (w₀ :: w₁ :: w₂ :: w₃ :: ws) = ones [w₀, w₁, w₂, w₃] + ones ws := by
        simp only [ones, List.map_cons, List.map_nil, List.sum_cons, List.sum_nil]
        ring
      rw [countGroups, Nat.mod_eq_of_lt (a := p + U64_VALUE_SIZE) (by omega), Nat.mod_add_mod,
        count_bits64_pack, hsum, ← Nat.add_assoc]
      refine ih ws (p + U64_VALUE_SIZE) _ (h.drop 4) (fun w hw => hclean w (by simp [hw]))
        ⟨hfits.1, fun _ => hlt⟩ ?_ hclear
      simp only [List.length_cons] at hn
      unfold U64_DIV_BASE
      omega

end Places

def weight (tmp : Word) : ℕ :=
  if tmp &&& COMPRESS_MASK ≠ 0#16 then
    if tmp &&& VALUE_MASK ≠ 0#16 then (tmp &&& COUNT_MASK).toNat else 0
  else count_bits tmp

theorem foldl_weight (data : List Word) : ∀ c : ℕ,
    data.foldl (fun count tmp =>
      if tmp &&& COMPRESS_MASK ≠ 0#16 then
        if tmp &&& VALUE_MASK ≠ 0#16 then (count + (tmp &&& COUNT_MASK).toNat) % 2 ^ 32 else count
      else (count + count_bits tmp) % 2 ^ 32) (c % 2 ^ 32) = (c + (data.map weight).sum) % 2 ^ 32 := by
  induction data with
  | nil => exact fun _ => rfl
  | cons tmp data ih =>
    intro c
    have hstep : (if tmp &&& COMPRESS_MASK ≠ 0#16 then
        if tmp &&& VALUE_MASK ≠ 0#16 then (c % 2 ^ 32 + (tmp &&& COUNT_MASK).toNat) % 2 ^ 32
        else c % 2 ^ 32
      else (c % 2 ^ 32 + count_bits tmp) % 2 ^ 32) = (c + weight tmp) % 2 ^ 32 := by
      unfold weight
      split_ifs
      · rw [Nat.mod_add_mod]
      · rw [Nat.add_zero]
      · rw [Nat.mod_add_mod]
    rw [List.foldl_cons, hstep, ih, List.map_cons, List.sum_cons, Nat.add_assoc]

theorem weight_flagged {w : Word} {v : Bool} (hflag : w.getLsbD 15 = true) (hv : w.getLsbD 14 = v) :
    weight w = if v then (w &&& COUNT_MASK).toNat else 0 := by
  rw [weight, if_pos ((flagged_iff w).mpr hflag)]
  congr 1
  rw [← bne_iff_ne, value_eq, hv]

theorem weight_clean {w : Word} (h : Clean w) : weight w = count_bits w := by
  rw [weight, if_neg]
  intro hflag
  exact Bool.false_ne_true (h.2.symm.trans ((flagged_iff w).mp hflag))

theorem weight_countWords (v : Bool) (c : ℕ) :
    ((countWords v c).map weight).sum = if v then ((2 ^ VALUE_SIZE).digits c).sum else 0 := by
  induction c using Nat.strongRecOn with
  | ind c ih =>
    by_cases hc : c = 0
    · subst hc
      rw [countWords_zero]
      cases v <;> simp
    · obtain ⟨w, hw, hflag, hv, hpay⟩ := countWords_cons v hc
      have hlt : c >>> VALUE_SIZE < c := by
        rw [Nat.shiftRight_eq_div_pow]
        exact Nat.div_lt_self (by omega) (by decide)
      have hdigits : (2 ^ VALUE_SIZE).digits c =
          c % 2 ^ VALUE_SIZE :: (2 ^ VALUE_SIZE).digits (c / 2 ^ VALUE_SIZE) :=
        Nat.digits_def' (by decide) (by omega)
      rw [hw, List.map_cons, List.sum_cons, ih _ hlt, weight_flagged hflag hv, hpay,
        Nat.shiftRight_eq_div_pow, hdigits]
      cases v <;> rfl

namespace Tok

def weight (t : Tok) : ℕ := (t.code.map Bitmap.weight).sum

def ones (t : Tok) : ℕ := Bitmap.ones t.words

theorem weight_run (v : Bool) (n : ℕ) :
    (run v n).weight = if v then ((2 ^ VALUE_SIZE).digits (VALUE_SIZE * n)).sum else 0 :=
  weight_countWords v (VALUE_SIZE * n)

theorem ones_run (v : Bool) (n : ℕ) : (run v n).ones = if v then VALUE_SIZE * n else 0 := by
  rw [ones, words, Bitmap.ones, List.map_replicate, List.sum_replicate]
  cases v with
  | false => exact Nat.mul_zero n
  | true => exact Nat.mul_comm n VALUE_SIZE

theorem weight_lit {w : Word} (h : Clean w) : (lit w).weight = (lit w).ones := by
  rw [weight, ones, code, words, Bitmap.ones, List.map_singleton, List.map_singleton, weight_clean h]

theorem weight_le {t : Tok} (h : t.Good) : t.weight ≤ t.ones := by
  cases t with
  | lit w => exact (weight_lit h).le
  | run v n =>
    rw [weight_run, ones_run]
    cases v with
    | false => exact le_rfl
    | true => exact Nat.digit_sum_le _ _

/-- A run of ones is counted as long as its count takes one word. -/
theorem weight_eq_iff {t : Tok} (h : t.Good) : t.weight = t.ones ↔ ∀ n, t = run true n → n < 1171 := by
  cases t with
  | lit w => exact iff_of_true (weight_lit h) fun n hn => nomatch hn
  | run v n =>
    rw [weight_run, ones_run]
    cases v with
    | false => exact iff_of_true rfl fun m hm => nomatch hm
    | true =>
      have hdigits := digits_sum_eq_iff (b := 2 ^ VALUE_SIZE) (c := VALUE_SIZE * n) (by decide)
      refine hdigits.trans ⟨fun hlt m hm => ?_, fun hlt => ?_⟩
      · obtain ⟨-, rfl⟩ := run.inj hm
        unfold VALUE_SIZE at hlt
        omega
      · have hlt := hlt n rfl
        unfold VALUE_SIZE
        omega

end Tok

theorem weight_code (ts : List Tok) : ((ts.flatMap Tok.code).map weight).sum = (ts.map Tok.weight).sum := by
  induction ts with
  | nil => rfl
  | cons t ts ih =>
    rw [List.flatMap_cons, List.map_append, List.sum_append, ih]
    rfl

theorem ones_words (ts : List Tok) : ones (ts.flatMap Tok.words) = (ts.map Tok.ones).sum := by
  induction ts with
  | nil => rfl
  | cons t ts ih =>
    rw [List.flatMap_cons, ones, List.map_append, List.sum_append, ← ones, ← ones, ih]
    rfl

/-- The words count as many bits as their tokens, unless a run of ones is too long. -/
theorem weight_rle {ws : List Word} (hclean : ∀ w ∈ ws, Clean w) :
    ((rle false 0 ws).map Tok.weight).sum ≤ ones ws ∧
      (((rle false 0 ws).map Tok.weight).sum = ones ws ↔ ¬ List.replicate 1171 COUNT_MASK <:+: ws) := by
  have hgood := good_rle ws hclean false 0
  have hwords : ones ws = ((rle false 0 ws).map Tok.ones).sum := by
    rw [← ones_words, words_rle ws hclean]
    rfl
  rw [hwords, sum_map_eq_iff fun t ht => Tok.weight_le (hgood t ht), replicate_infix_iff (by decide)]
  refine ⟨List.sum_le_sum fun t ht => Tok.weight_le (hgood t ht), ?_⟩
  constructor
  · rintro heq ⟨n, hn, hrun⟩
    have hmem : Tok.run true n ∈ rle false 0 ws :=
      (mem_rle ws hclean false 0).mpr ⟨by omega, hrun⟩
    have hlt := (Tok.weight_eq_iff (hgood _ hmem)).mp (heq _ hmem) n rfl
    omega
  · intro hnone t ht
    refine (Tok.weight_eq_iff (hgood t ht)).mpr fun n hn => ?_
    subst hn
    by_contra hge
    exact hnone ⟨n, by omega, ((mem_rle ws hclean false 0).mp ht).2⟩

section Plain

variable {b : Bitmap}

theorem ones_eq_count (hb : Plain b) (hclean : ∀ w ∈ b.m_data, Clean w)
    (hpad : ∀ i, b.getSize ≤ i → i < VALUE_SIZE * b.getDataSize → b.get i = .ok false) :
    ones b.m_data = (List.range b.getSize).countP fun i => b.get i = .ok true := by
  have hle : b.getSize ≤ 0 + VALUE_SIZE * b.m_data.length := hb.fits.1
  have hnil : between (fun i => b.get i = .ok true) b.getSize (0 + VALUE_SIZE * b.m_data.length) = [] := by
    refine between_eq_nil fun i hlo hhi hget => ?_
    rw [Nat.zero_add] at hhi
    rw [hpad i hlo hhi] at hget
    cases hget
  rw [← length_between_words b.m_data hclean 0 spells_get, between_append b.getSize (Nat.zero_le _) hle,
    hnil, List.append_nil, length_between, Nat.sub_zero]
  simp only [Nat.zero_add]

theorem ones_le_size (hb : Plain b) (hclean : ∀ w ∈ b.m_data, Clean w)
    (hpad : ∀ i, b.getSize ≤ i → i < VALUE_SIZE * b.getDataSize → b.get i = .ok false) :
    ones b.m_data ≤ b.getSize := by
  rw [ones_eq_count hb hclean hpad]
  exact List.countP_le_length.trans_eq List.length_range

theorem getCount_plain (hb : Plain b) (hsize : b.getSize < 2 ^ 31) (hclean : ∀ w ∈ b.m_data, Clean w)
    (hpad : ∀ i, b.getSize ≤ i → i < VALUE_SIZE * b.getDataSize → b.get i = .ok false) :
    b.getCount = .ok (ones b.m_data) := by
  have hlt : b.m_size < 2 ^ 31 := hsize
  have hle := ones_le_size hb hclean hpad
  have hcount := countGroups_eq (by unfold VALUE_SIZE; omega) (b.m_data.length / U64_DIV_BASE) b.m_data 0 0
    spells_get hclean hb.fits (Nat.mul_div_le _ _) fun i hlo hhi hget => by
      rw [Nat.zero_add] at hhi
      rw [hpad i hlo hhi] at hget
      cases hget
  rw [getCount, hb.1]
  refine hcount.trans (congrArg Except.ok ?_)
  rw [Nat.zero_add]
  exact Nat.mod_eq_of_lt (by omega)

theorem getCount_code (size : ℕ) (ts : List Tok) :
    getCount ⟨true, size, ts.flatMap Tok.code⟩ = .ok ((ts.map Tok.weight).sum % 2 ^ 32) := by
  have hfold := foldl_weight (ts.flatMap Tok.code) 0
  rw [weight_code, Nat.zero_add] at hfold
  rw [getCount]
  exact congrArg Except.ok hfold

theorem countRight_iff_sum (hb : Plain b) (hsize : b.getSize < 2 ^ 31) (hclean : ∀ w ∈ b.m_data, Clean w)
    (hpad : ∀ i, b.getSize ≤ i → i < VALUE_SIZE * b.getDataSize → b.get i = .ok false) :
    b.CountRight ↔ ((rle false 0 b.m_data).map Tok.weight).sum = ones b.m_data := by
  have hcomp := compress_eq hb
  have hplain := getCount_plain hb hsize hclean hpad
  have hle := (weight_rle hclean).1
  have hones := ones_le_size hb hclean hpad
  have hcode := getCount_code b.m_size (rle false 0 b.m_data)
  rw [Nat.mod_eq_of_lt (by omega)] at hcode
  constructor
  · rintro ⟨c, n, hc, hn, -, hcn⟩
    obtain rfl := Except.ok.inj (hcomp.symm.trans hc)
    obtain rfl := Except.ok.inj (hplain.symm.trans hn)
    exact Except.ok.inj (hcode.symm.trans hcn)
  · intro heq
    rw [heq] at hcode
    exact ⟨_, _, hcomp, hplain, ones_eq_count hb hclean hpad, hcode⟩

end Plain

/-- `getCount` is right on a clean bitmap and its compressed form exactly if no 1171 words together
are all ones. -/
theorem countRight_iff_no_long_run (b : Bitmap) (hb : Plain b) (hsize : b.getSize < 2 ^ 31)
    (hclean : ∀ w ∈ b.m_data, Clean w)
    (hpad : ∀ i, b.getSize ≤ i → i < VALUE_SIZE * b.getDataSize → b.get i = .ok false) :
    b.CountRight ↔ ¬ List.replicate 1171 COUNT_MASK <:+: b.m_data :=
  (countRight_iff_sum hb hsize hclean hpad).trans (weight_rle hclean).2

theorem countRight_iff_no_long_run_words :
    CountRight ⟨false, 20, [0x3FFF#16, 3#16]⟩ ↔
      ¬ List.replicate 1171 COUNT_MASK <:+: [0x3FFF#16, 3#16] := by
  have hpad : ∀ i, 20 ≤ i → i < 28 → get ⟨false, 20, [0x3FFF#16, 3#16]⟩ i = .ok false := by
    intro i hlo hhi
    interval_cases i <;> rfl
  have hclean : ∀ w ∈ [0x3FFF#16, 3#16], Clean w := by simp [Clean]
  exact countRight_iff_no_long_run ⟨false, 20, [0x3FFF#16, 3#16]⟩ (by decide) (by norm_num [getSize])
    hclean hpad

theorem plain_replicate (n : ℕ) (w : Word) : Plain ⟨false, VALUE_SIZE * n, List.replicate n w⟩ := by
  refine ⟨rfl, ?_⟩
  rw [List.length_replicate]
  unfold wordsFor VALUE_SIZE
  dsimp only
  omega

theorem not_countRight_replicate {n : ℕ} (hlo : 1171 ≤ n) (hhi : VALUE_SIZE * n < 2 ^ 31) :
    ¬ CountRight ⟨false, VALUE_SIZE * n, List.replicate n COUNT_MASK⟩ := by
  have hclean : ∀ w ∈ List.replicate n COUNT_MASK, Clean w := fun w hw => by
    rw [List.eq_of_mem_replicate hw]
    exact clean_full true
  rw [countRight_iff_sum (plain_replicate n COUNT_MASK) hhi hclean fun i hlt hlen => ?_, (weight_rle hclean).2,
    not_not]
  · obtain ⟨k, rfl⟩ := Nat.exists_eq_add_of_le hlo
    rw [List.replicate_add]
    exact (List.prefix_append _ _).isInfix
  · rw [getDataSize, List.length_replicate] at hlen
    exact absurd hlen (Nat.not_lt.mpr hlt)

/-- A bitmap of 16394 ones. -/
theorem not_countRight_full_words :
    Plain ⟨false, 16394, List.replicate 1171 COUNT_MASK⟩ ∧
      ¬ CountRight ⟨false, 16394, List.replicate 1171 COUNT_MASK⟩ :=
  ⟨plain_replicate 1171 COUNT_MASK, not_countRight_replicate le_rfl (by norm_num [VALUE_SIZE])⟩

end Bitmap

end Sylar
