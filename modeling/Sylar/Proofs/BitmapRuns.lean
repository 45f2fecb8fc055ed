import Sylar.Spec.Bitmap
import Sylar.Lib.Digits
import Sylar.Lib.Blocks
import Sylar.Lib.Runs

/-! The run-length code of `Bitmap`. Between the words and their code stands a
list of tokens, runs of at least two words and literals: `compress` emits the code
of the tokens of its words, the tokens spell out the words again, and the loop
that reads a compressed bitmap meets the tokens one after the other, because no
run is followed by a run of the same value. -/

namespace Sylar

open Lib

namespace Bitmap

theorem getLsbD_COUNT_MASK (i : ℕ) : COUNT_MASK.getLsbD i = decide (i < 14) := by
  by_cases h : i < 16
  · interval_cases i <;> rfl
  · rw [BitVec.getLsbD_of_ge _ _ (by omega), decide_eq_false (by omega)]

theorem COMPRESS_MASK_eq : COMPRESS_MASK = BitVec.twoPow 16 15 := rfl
theorem VALUE_MASK_eq : VALUE_MASK = BitVec.twoPow 16 14 := rfl

theorem POS_eq (i : ℕ) : POS i = BitVec.twoPow 16 i := by
  rw [POS, BitVec.twoPow_eq]

theorem and_twoPow_ne_zero (w : Word) {i : ℕ} (hi : i < 16) :
    w &&& BitVec.twoPow 16 i ≠ 0#16 ↔ w.getLsbD i = true := by
  rw [BitVec.and_twoPow]
  cases w.getLsbD i with
  | false => simp
  | true =>
    simp only [if_true, ne_eq, iff_true]
    intro h
    have := congrArg (fun x => BitVec.getLsbD x i) h
    simp [hi] at this

theorem flagged_iff (w : Word) : w &&& COMPRESS_MASK ≠ 0#16 ↔ w.getLsbD 15 = true := by
  rw [COMPRESS_MASK_eq]
  exact and_twoPow_ne_zero w (by decide)

theorem value_eq (w : Word) : (w &&& VALUE_MASK != 0#16) = w.getLsbD 14 := by
  have h := and_twoPow_ne_zero w (i := 14) (by decide)
  rw [← VALUE_MASK_eq] at h
  cases hb : w.getLsbD 14 with
  | true => exact bne_iff_ne.mpr (h.mpr hb)
  | false =>
    rw [hb] at h
    simpa using h

theorem payload_bit (w : Word) (i : ℕ) :
    (w &&& COUNT_MASK).getLsbD i = (w.getLsbD i && decide (i < 14)) := by
  rw [BitVec.getLsbD_and, getLsbD_COUNT_MASK]

def Clean (w : Word) : Prop := w.getLsbD 14 = false ∧ w.getLsbD 15 = false

instance (w : Word) : Decidable (Clean w) := instDecidableAnd

theorem Clean.and_mask {w : Word} (h : Clean w) : w &&& COUNT_MASK = w := by
  apply BitVec.eq_of_getLsbD_eq
  intro i hi
  rw [payload_bit]
  by_cases hlt : i < 14
  · rw [decide_eq_true hlt, Bool.and_true]
  · rw [decide_eq_false hlt, Bool.and_false]
    obtain rfl | rfl : i = 14 ∨ i = 15 := by omega
    · exact h.1.symm
    · exact h.2.symm

def full (v : Bool) : Word := if v then COUNT_MASK else 0#16

theorem full_bit (v : Bool) {i : ℕ} (hi : i < 14) : (full v).getLsbD i = v := by
  cases v
  · simp [full]
  · simp [full, getLsbD_COUNT_MASK, hi]

theorem clean_full (v : Bool) : Clean (full v) := by cases v <;> decide

theorem count_bits_eq_zero (w : Word) : count_bits w = 0 ↔ w = 0#16 := by
  rw [count_bits, List.countP_eq_zero]
  constructor
  · intro h
    apply BitVec.eq_of_getLsbD_eq
    intro i hi
    simpa using h i (List.mem_range.mpr hi)
  · rintro rfl i _
    simp

theorem count_bits_payload_full (w : Word) :
    count_bits (w &&& COUNT_MASK) = VALUE_SIZE ↔ w &&& COUNT_MASK = COUNT_MASK := by
  have hsplit : List.range 16 = List.range 14 ++ [14, 15] := by decide
  have htail : [14, 15].countP (fun i => (w &&& COUNT_MASK).getLsbD i) = 0 := by
    simp only [List.countP_cons, List.countP_nil, payload_bit]
    simp
  have hlen : VALUE_SIZE = (List.range 14).length := List.length_range.symm
  rw [count_bits, hsplit, List.countP_append, htail, Nat.add_zero, hlen, List.countP_eq_length]
  constructor
  · intro h
    apply BitVec.eq_of_getLsbD_eq
    intro i _
    rw [getLsbD_COUNT_MASK]
    by_cases hlt : i < 14
    · rw [h i (List.mem_range.mpr hlt), decide_eq_true hlt]
    · rw [payload_bit, decide_eq_false hlt, Bool.and_false]
  · intro h i hi
    rw [h, getLsbD_COUNT_MASK]
    exact decide_eq_true (List.mem_range.mp hi)

/-- The run a word can belong to, as `compress` tells by counting bits. -/
def kind (w : Word) : Option Bool :=
  if count_bits (w &&& COUNT_MASK) = 0 then some false
  else if count_bits (w &&& COUNT_MASK) = VALUE_SIZE then some true
  else none

theorem kind_some {w : Word} {v : Bool} (h : kind w = some v) : w &&& COUNT_MASK = full v := by
  unfold kind at h
  split_ifs at h with h0 h1
  · obtain rfl := Option.some.inj h
    exact (count_bits_eq_zero _).mp h0
  · obtain rfl := Option.some.inj h
    exact (count_bits_payload_full w).mp h1

inductive Tok where
  | run (v : Bool) (n : ℕ)
  | lit (w : Word)

namespace Tok

def words : Tok → List Word
  | .run v n => List.replicate n (full v)
  | .lit w => [w]

def code : Tok → List Word
  | .run v n => countWords v (VALUE_SIZE * n)
  | .lit w => [w]

end Tok

/-- A pending run of `k` words: nothing, a literal, or a run of two and more. -/
def flushTok (cv : Bool) (k : ℕ) : List Tok :=
  if k > 1 then [.run cv k] else if k = 1 then [.lit (full cv)] else []

/-- The tokens of words, `k` words of `cv` pending. -/
def rle (cv : Bool) (k : ℕ) : List Word → List Tok
  | [] => flushTok cv k
  | w :: ws =>
      match kind w with
      | some v => if v = cv then rle cv (k + 1) ws else flushTok cv k ++ rle v 1 ws
      | none => flushTok cv k ++ .lit w :: rle cv 0 ws

theorem flush_eq_finish {s : Run} (h : s.cur_count % VALUE_SIZE = 0) : s.flush = .ok s.finish := by
  unfold Run.flush Run.finish
  rw [if_pos h]
  by_cases h0 : s.cur_count = 0
  · simp [h0]
  · rw [if_pos h0, if_pos (Nat.pos_of_ne_zero h0)]
    split <;> rfl

theorem finish_eq (cv : Bool) (k : ℕ) (data : List Word) :
    Run.finish ⟨cv, VALUE_SIZE * k, data⟩ = data ++ (flushTok cv k).flatMap Tok.code := by
  unfold Run.finish flushTok
  have hdiv : VALUE_SIZE * k / VALUE_SIZE = k := Nat.mul_div_cancel_left k (by decide)
  rw [hdiv]
  by_cases hk : k > 1
  · rw [if_pos (show VALUE_SIZE * k > 0 by unfold VALUE_SIZE; omega), if_pos hk, if_pos hk]
    simp [Tok.code]
  · rw [if_neg hk, if_neg hk]
    by_cases h1 : k = 1
    · subst h1
      simp [VALUE_SIZE, Tok.code, full]
    · obtain rfl : k = 0 := by omega
      simp

theorem flush_eq (cv : Bool) (k : ℕ) (data : List Word) :
    Run.flush ⟨cv, VALUE_SIZE * k, data⟩ = .ok (data ++ (flushTok cv k).flatMap Tok.code) := by
  rw [← finish_eq]
  exact flush_eq_finish (Nat.mul_mod_right VALUE_SIZE k)

/-- One turn of the loop, in terms of the run the word can belong to. -/
theorem step_eq (cv : Bool) (k : ℕ) (data : List Word) (w : Word) :
    Run.step ⟨cv, VALUE_SIZE * k, data⟩ w =
      match kind w with
      | some v =>
          if v = cv then .ok ⟨cv, VALUE_SIZE * (k + 1), data⟩
          else .ok ⟨v, VALUE_SIZE * 1, data ++ (flushTok cv k).flatMap Tok.code⟩
      | none => .ok ⟨cv, VALUE_SIZE * 0, data ++ (flushTok cv k).flatMap Tok.code ++ [w]⟩ := by
  unfold Run.step kind
  simp only [flush_eq]
  by_cases h0 : count_bits (w &&& COUNT_MASK) = 0
  · cases cv with
    | false => simp [h0, Nat.mul_add]
    | true =>
      simp [h0, VALUE_SIZE]
      rfl
  · by_cases h1 : count_bits (w &&& COUNT_MASK) = VALUE_SIZE
    · have : ¬ VALUE_SIZE = 0 := by decide
      cases cv with
      | false =>
        simp [h1, this]
        rfl
      | true => simp [h1, this, Nat.mul_add]
    · simp only [h0, h1, false_and, if_false, or_self, List.append_assoc]
      change Except.ok _ = _
      rw [List.append_assoc, Nat.mul_zero]

theorem compress_loop (ws : List Word) : ∀ (cv : Bool) (k : ℕ) (data : List Word),
    ∃ s : Run, ws.foldlM Run.step ⟨cv, VALUE_SIZE * k, data⟩ = .ok s ∧
      s.finish = data ++ (rle cv k ws).flatMap Tok.code := by
  induction ws with
  | nil => intro cv k data; exact ⟨_, rfl, finish_eq cv k data⟩
  | cons w ws ih =>
    intro cv k data
    rw [List.foldlM_cons, step_eq, rle]
    cases hk : kind w with
    | none =>
      obtain ⟨s, hs, hfin⟩ := ih cv 0 (data ++ (flushTok cv k).flatMap Tok.code ++ [w])
      refine ⟨s, hs, ?_⟩
      rw [hfin]
      simp [Tok.code]
    | some v =>
      dsimp only
      split_ifs with hv
      · exact ih cv (k + 1) data
      · obtain ⟨s, hs, hfin⟩ := ih v 1 (data ++ (flushTok cv k).flatMap Tok.code)
        refine ⟨s, hs, ?_⟩
        rw [hfin]
        simp

theorem words_flushTok (cv : Bool) (k : ℕ) :
    (flushTok cv k).flatMap Tok.words = List.replicate k (full cv) := by
  unfold flushTok
  by_cases hk : k > 1
  · simp [hk, Tok.words]
  · by_cases h1 : k = 1
    · simp [h1, Tok.words]
    · obtain rfl : k = 0 := by omega
      simp

theorem words_rle (ws : List Word) (hclean : ∀ w ∈ ws, Clean w) : ∀ (cv : Bool) (k : ℕ),
    (rle cv k ws).flatMap Tok.words = List.replicate k (full cv) ++ ws := by
  induction ws with
  | nil => intro cv k; simp [rle, words_flushTok]
  | cons w ws ih =>
    intro cv k
    have ih := ih fun x hx => hclean x (by simp [hx])
    rw [rle]
    cases hk : kind w with
    | none => simp [ih, words_flushTok, Tok.words]
    | some v =>
      have hw : w = full v := by
        rw [← kind_some hk, (hclean w (by simp)).and_mask]
      dsimp only
      split_ifs with hv
      · rw [ih, hw, hv, List.replicate_succ', List.append_assoc, List.singleton_append]
      · simp [ih, words_flushTok, hw]

/-- Runs have at least two words, and literals are clean. -/
def Tok.Good : Tok → Prop
  | .run _ n => 1 ≤ n
  | .lit w => Clean w

def NoRun (v : Bool) (ts : List Tok) : Prop := ∀ n ts', ts ≠ .run v n :: ts'

/-- No run is followed by a run of the same value. -/
def Separated : List Tok → Prop
  | [] => True
  | .run v _ :: ts => NoRun v ts ∧ Separated ts
  | .lit _ :: ts => Separated ts

theorem good_flushTok (cv : Bool) (k : ℕ) : ∀ t ∈ flushTok cv k, t.Good := by
  intro t ht
  unfold flushTok at ht
  split_ifs at ht with hk h1
  · rw [List.mem_singleton] at ht
    subst ht
    exact hk.le
  · rw [List.mem_singleton] at ht
    subst ht
    exact clean_full cv
  · simp at ht

theorem separated_flush {cv : Bool} {ts : List Tok} (k : ℕ) (hno : NoRun cv ts)
    (hs : Separated ts) : Separated (flushTok cv k ++ ts) := by
  unfold flushTok
  split_ifs with hk h1
  · exact ⟨hno, hs⟩
  · exact hs
  · exact hs

theorem noRun_flush {v cv : Bool} (hv : v ≠ cv) {k : ℕ} (hk : 1 ≤ k) (ts : List Tok) :
    NoRun v (flushTok cv k ++ ts) := by
  intro n ts' h
  unfold flushTok at h
  split_ifs at h with h2 h1
  · exact hv (by cases h; rfl)
  · cases h
  · omega

/-- With words of `cv` pending the next token is not a run of another value. -/
theorem noRun_rle {v : Bool} (ws : List Word) : ∀ (cv : Bool) (k : ℕ), v ≠ cv → 1 ≤ k →
    NoRun v (rle cv k ws) := by
  induction ws with
  | nil =>
    intro cv k hv hk
    rw [rle, ← List.append_nil (flushTok cv k)]
    exact noRun_flush hv hk []
  | cons w ws ih =>
    intro cv k hv hk
    rw [rle]
    cases kind w with
    | none => exact noRun_flush hv hk _
    | some u =>
      dsimp only
      split_ifs with hu
      · exact ih cv (k + 1) hv (by omega)
      · exact noRun_flush hv hk _

theorem separated_rle (ws : List Word) : ∀ (cv : Bool) (k : ℕ), Separated (rle cv k ws) := by
  induction ws with
  | nil =>
    intro cv k
    rw [rle, ← List.append_nil (flushTok cv k)]
    exact separated_flush k (by intro n ts' h; cases h) trivial
  | cons w ws ih =>
    intro cv k
    rw [rle]
    cases kind w with
    | none => exact separated_flush k (by intro n ts' h; cases h) (ih cv 0)
    | some u =>
      dsimp only
      split_ifs with hu
      · exact ih cv (k + 1)
      · exact separated_flush k (noRun_rle ws u 1 (Ne.symm hu) le_rfl) (ih u 1)

theorem good_rle (ws : List Word) (hclean : ∀ w ∈ ws, Clean w) : ∀ (cv : Bool) (k : ℕ),
    ∀ t ∈ rle cv k ws, t.Good := by
  induction ws with
  | nil => intro cv k; exact good_flushTok cv k
  | cons w ws ih =>
    intro cv k t ht
    have ih := ih fun x hx => hclean x (by simp [hx])
    rw [rle] at ht
    cases hk : kind w with
    | none =>
      rw [hk] at ht
      rcases List.mem_append.mp ht with h | h
      · exact good_flushTok cv k t h
      · rcases List.mem_cons.mp h with rfl | h
        · exact hclean w (by simp)
        · exact ih cv 0 t h
    | some u =>
      rw [hk] at ht
      dsimp only at ht
      split_ifs at ht with hu
      · exact ih cv (k + 1) t ht
      · rcases List.mem_append.mp ht with h | h
        · exact good_flushTok cv k t h
        · exact ih u 1 t h

theorem full_inj {u v : Bool} : full u = full v ↔ u = v := by cases u <;> cases v <;> decide

theorem kind_full (v : Bool) : kind (full v) = some v := by cases v <;> decide

/-- A run stands for a run of two words and more, a literal for a word that can belong to none or
for a run of one. -/
def Tok.From (l : List Word) : Tok → Prop
  | .run v n => 2 ≤ n ∧ IsRun l (full v) n
  | .lit w => w ∈ l ∧ kind w = none ∨ ∃ v, w = full v ∧ IsRun l w 1

theorem from_append (l₁ l₂ : List Word)
    (h : ∀ v, ¬ (l₁.getLast? = some (full v) ∧ l₂.head? = some (full v))) {t : Tok} :
    t.From (l₁ ++ l₂) ↔ t.From l₁ ∨ t.From l₂ := by
  cases t with
  | run v n =>
    rw [Tok.From, isRun_append (h v), and_or_left]
    rfl
  | lit w =>
    simp only [Tok.From, List.mem_append]
    constructor
    · rintro (⟨hmem | hmem, hk⟩ | ⟨v, rfl, hrun⟩)
      · exact .inl (.inl ⟨hmem, hk⟩)
      · exact .inr (.inl ⟨hmem, hk⟩)
      · rcases (isRun_append (h v)).mp hrun with hrun | hrun
        · exact .inl (.inr ⟨v, rfl, hrun⟩)
        · exact .inr (.inr ⟨v, rfl, hrun⟩)
    · rintro ((⟨hmem, hk⟩ | ⟨v, rfl, hrun⟩) | (⟨hmem, hk⟩ | ⟨v, rfl, hrun⟩))
      · exact .inl ⟨.inl hmem, hk⟩
      · exact .inr ⟨v, rfl, (isRun_append (h v)).mpr (.inl hrun)⟩
      · exact .inl ⟨.inr hmem, hk⟩
      · exact .inr ⟨v, rfl, (isRun_append (h v)).mpr (.inr hrun)⟩

theorem mem_flushTok {cv : Bool} {k : ℕ} {t : Tok} :
    t ∈ flushTok cv k ↔ t.From (List.replicate k (full cv)) := by
  cases t with
  | run v n =>
    simp only [Tok.From, isRun_replicate, full_inj, flushTok]
    split_ifs with hk h1
    · rw [List.mem_singleton, Tok.run.injEq]
      exact ⟨fun ⟨hv, hn⟩ => ⟨by omega, hv, hn, by omega⟩, fun ⟨_, hv, hn, _⟩ => ⟨hv, hn⟩⟩
    · simp only [List.mem_singleton, reduceCtorEq, false_iff]
      omega
    · simp only [List.not_mem_nil, false_iff]
      omega
  | lit w =>
    have hnone : ¬ (w ∈ List.replicate k (full cv) ∧ kind w = none) := by
      rintro ⟨hmem, hk⟩
      rw [List.eq_of_mem_replicate hmem, kind_full] at hk
      cases hk
    simp only [Tok.From, hnone, false_or, isRun_replicate, flushTok]
    split_ifs with hk h1
    · simp only [List.mem_singleton, reduceCtorEq, false_iff]
      rintro ⟨v, -, -, hk', -⟩
      omega
    · rw [List.mem_singleton, Tok.lit.injEq]
      exact ⟨fun hw => ⟨cv, hw, hw, h1.symm, le_rfl⟩, fun ⟨_, _, hw, _⟩ => hw⟩
    · simp only [List.not_mem_nil, false_iff]
      rintro ⟨v, -, -, hk', -⟩
      omega

theorem from_singleton {w : Word} (hk : kind w = none) {t : Tok} : t.From [w] ↔ t = .lit w := by
  have hne : ∀ v, w ≠ full v := by
    rintro v rfl
    rw [kind_full] at hk
    cases hk
  have hrun : ∀ {v n}, ¬ IsRun [w] (full v) n := fun h =>
    hne _ (isRun_replicate (k := 1).mp h).1.symm
  cases t with
  | run v n => simp [Tok.From, hrun]
  | lit u =>
    simp only [Tok.From, List.mem_singleton, Tok.lit.injEq]
    constructor
    · rintro (⟨rfl, -⟩ | ⟨v, rfl, h⟩)
      · rfl
      · exact absurd h hrun
    · rintro rfl
      exact .inl ⟨rfl, hk⟩

/-- The tokens of clean words, with `k` words of `cv` before them. -/
theorem mem_rle (ws : List Word) (hclean : ∀ w ∈ ws, Clean w) {t : Tok} : ∀ (cv : Bool) (k : ℕ),
    t ∈ rle cv k ws ↔ t.From (List.replicate k (full cv) ++ ws) := by
  induction ws with
  | nil =>
    intro cv k
    rw [rle, List.append_nil]
    exact mem_flushTok
  | cons w ws ih =>
    intro cv k
    have ih := ih fun x hx => hclean x (by simp [hx])
    have hlast : ∀ v, (List.replicate k (full cv)).getLast? = some (full v) → v = cv := by
      intro v hv
      rw [List.getLast?_replicate] at hv
      split at hv
      · cases hv
      · exact (full_inj.mp (Option.some.inj hv)).symm
    rw [rle]
    cases hk : kind w with
    | none =>
      have hw : ∀ v, w ≠ full v := by
        rintro v rfl
        rw [kind_full] at hk
        cases hk
      have hsplit : w :: ws = [w] ++ ws := rfl
      rw [from_append _ (w :: ws) fun v h => hw v (Option.some.inj h.2), hsplit,
        from_append [w] _ fun v h => hw v (Option.some.inj h.1), from_singleton hk]
      simp only [List.mem_append, List.mem_cons, mem_flushTok, ih, List.replicate_zero, List.nil_append]
    | some v =>
      have hw : w = full v := by rw [← kind_some hk, (hclean w (by simp)).and_mask]
      subst hw
      dsimp only
      split_ifs with hv
      · subst hv
        rw [ih, List.replicate_succ', List.append_assoc, List.singleton_append]
      · rw [from_append _ (full v :: ws) fun u h =>
          hv ((full_inj.mp (Option.some.inj h.2)).trans (hlast u h.1)),
          List.mem_append, mem_flushTok, ih]
        rfl

end Bitmap

end Sylar
