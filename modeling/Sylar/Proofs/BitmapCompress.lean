import Sylar.Proofs.BitmapRuns

/-! What the loop over a compressed bitmap does with the code of tokens, and from it that
`uncompress` undoes `compress` and that `operator&=` and `operator|=` treat a compressed operand
as they treat a plain one. In both a run changes each of its words by `fR v`, a literal by `fL w`.
-/

namespace Sylar

open Lib

namespace Bitmap

/-- A run word: flagged, of its value, with fourteen bits of the count. -/
theorem countWords_cons (v : Bool) {c : ℕ} (hc : c ≠ 0) :
    ∃ w, countWords v c = w :: countWords v (c >>> VALUE_SIZE) ∧ w.getLsbD 15 = true ∧
      w.getLsbD 14 = v ∧ (w &&& COUNT_MASK).toNat = c % 2 ^ 14 := by
  have hlow : (BitVec.ofNat 16 c &&& COUNT_MASK).toNat = c % 2 ^ 14 := by
    have hmask : COUNT_MASK.toNat = 2 ^ 14 - 1 := rfl
    rw [BitVec.toNat_and, BitVec.toNat_ofNat, hmask, Nat.and_two_pow_sub_one_eq_mod]
    omega
  have hpay : ∀ m : Word, (∀ i < 14, m.getLsbD i = false) →
      (m ||| (BitVec.ofNat 16 c &&& COUNT_MASK)) &&& COUNT_MASK =
        BitVec.ofNat 16 c &&& COUNT_MASK := by
    intro m hm
    apply BitVec.eq_of_getLsbD_eq
    intro i _
    rw [payload_bit, BitVec.getLsbD_or, payload_bit]
    by_cases hi : i < 14
    · rw [hm i hi, Bool.false_or, decide_eq_true hi, Bool.and_true, Bool.and_true]
    · rw [decide_eq_false hi, Bool.and_false, Bool.and_false]
  have hhigh : ∀ i, 14 ≤ i → (BitVec.ofNat 16 c &&& COUNT_MASK).getLsbD i = false := by
    intro i hi
    rw [payload_bit, decide_eq_false (by omega), Bool.and_false]
  rw [countWords, if_neg hc]
  cases v with
  | false =>
    refine ⟨_, rfl, ?_, ?_, ?_⟩
    · rw [if_neg Bool.false_ne_true, BitVec.getLsbD_or, hhigh 15 (by decide)]
      rfl
    · rw [if_neg Bool.false_ne_true, BitVec.getLsbD_or, hhigh 14 (by decide)]
      rfl
    · rw [if_neg Bool.false_ne_true, hpay COMPRESS_MASK (by decide), hlow]
  | true =>
    refine ⟨_, rfl, ?_, ?_, ?_⟩
    · rw [if_pos rfl, BitVec.getLsbD_or, hhigh 15 (by decide)]
      rfl
    · rw [if_pos rfl, BitVec.getLsbD_or, hhigh 14 (by decide)]
      rfl
    · rw [if_pos rfl, hpay (COMPRESS_MASK ||| VALUE_MASK) (by decide), hlow]

theorem countWords_zero (v : Bool) : countWords v 0 = [] := by rw [countWords, if_pos rfl]

def Stops (v : Bool) (ws : List Word) : Prop :=
  ∀ w ws', ws = w :: ws' → ¬ (w.getLsbD 15 = true ∧ w.getLsbD 14 = v)

theorem gather_stops {v : Bool} {ws : List Word} (h : Stops v ws) (j count : ℕ) :
    gather v j count ws = .ok (count, ws) := by
  cases ws with
  | nil => rfl
  | cons w ws =>
    rw [gather, if_neg]
    rw [flagged_iff, value_eq]
    rintro ⟨h1, h2⟩
    exact h w ws rfl ⟨h1, h2.symm⟩

/-- The digits of a count are put together again, from the `j`-th on. -/
theorem gather_countWords {v : Bool} {rest : List Word} (hstop : Stops v rest) (c : ℕ) :
    ∀ j acc : ℕ, acc < 2 ^ (VALUE_SIZE * j) → acc + 2 ^ (VALUE_SIZE * j) * c < 2 ^ 32 →
      gather v j acc (countWords v c ++ rest) = .ok (acc + 2 ^ (VALUE_SIZE * j) * c, rest) := by
  induction c using Nat.strongRecOn with
  | ind c ih =>
    intro j acc hacc hsum
    by_cases hc : c = 0
    · subst hc
      rw [countWords_zero, List.nil_append, Nat.mul_zero, Nat.add_zero]
      exact gather_stops hstop j acc
    · obtain ⟨w, hw, hflag, hval, hpay⟩ := countWords_cons v hc
      have hpow : 2 ^ (VALUE_SIZE * j) * 1 ≤ 2 ^ (VALUE_SIZE * j) * c :=
        Nat.mul_le_mul_left _ (by omega)
      have hshift : VALUE_SIZE * j < 32 :=
        (Nat.pow_lt_pow_iff_right (a := 2) (by decide)).mp (by omega)
      have hsmall : (c % 2 ^ 14) <<< (VALUE_SIZE * j) % 2 ^ 32 =
          (c % 2 ^ 14) <<< (VALUE_SIZE * j) := by
        apply Nat.mod_eq_of_lt
        have := Nat.mul_le_mul_left (2 ^ (VALUE_SIZE * j)) (Nat.mod_le c (2 ^ 14))
        rw [Nat.shiftLeft_eq, Nat.mul_comm]
        omega
      have hsplit : acc + 2 ^ (VALUE_SIZE * j) * (c % 2 ^ 14) +
          2 ^ (VALUE_SIZE * (j + 1)) * (c >>> VALUE_SIZE) = acc + 2 ^ (VALUE_SIZE * j) * c := by
        rw [Nat.shiftRight_eq_div_pow, Nat.mul_add, Nat.mul_one, pow_add, Nat.add_assoc,
          Nat.mul_assoc, ← Nat.mul_add]
        exact congrArg (fun x => acc + 2 ^ (VALUE_SIZE * j) * x) (Nat.mod_add_div c (2 ^ 14))
      rw [hw, List.cons_append, gather, if_pos, if_pos hshift, hpay, hsmall, Nat.or_comm,
        or_shiftLeft hacc]
      · rw [← hsplit] at hsum ⊢
        refine ih (c >>> VALUE_SIZE) ?_ (j + 1) _ ?_ hsum
        · rw [Nat.shiftRight_eq_div_pow]
          exact Nat.div_lt_self (by omega) (by decide)
        · have := Nat.mul_le_mul_left (2 ^ (VALUE_SIZE * j))
            (show c % 2 ^ 14 + 1 ≤ 2 ^ 14 from Nat.mod_lt _ (by decide))
          rw [Nat.mul_add, Nat.mul_one] at this
          rw [Nat.mul_add, Nat.mul_one, pow_add, show 2 ^ VALUE_SIZE = 2 ^ 14 from rfl]
          omega
      · rw [flagged_iff, value_eq]
        exact ⟨hflag, hval.symm⟩

def applyToks {σ : Type} (onRun : σ → ℕ → ℕ → Bool → Except Fault σ)
    (onWord : σ → ℕ → Word → Except Fault σ) : ℕ → List Tok → σ → Except Fault σ
  | _, [], s => .ok s
  | p, .run v n :: ts, s => do
      let s ← onRun s (VALUE_SIZE * p) (VALUE_SIZE * n) v
      applyToks onRun onWord (p + n) ts s
  | p, .lit w :: ts, s => do
      let s ← onWord s (VALUE_SIZE * p) w
      applyToks onRun onWord (p + 1) ts s

def wordCount (ts : List Tok) : ℕ := (ts.flatMap Tok.words).length

theorem stops_code {v : Bool} {ts : List Tok} (hno : NoRun v ts) (hgood : ∀ t ∈ ts, t.Good) :
    Stops v (ts.flatMap Tok.code) := by
  intro w ws h
  cases ts with
  | nil => simp at h
  | cons t ts =>
    rw [List.flatMap_cons] at h
    cases t with
    | lit u =>
      rw [Tok.code, List.singleton_append] at h
      obtain ⟨rfl, -⟩ := List.cons.inj h
      have : Clean u := hgood (.lit u) (by simp)
      rw [this.2]
      simp
    | run v' n =>
      have hn : 1 ≤ n := hgood (.run v' n) (by simp)
      obtain ⟨u, hu, -, hval, -⟩ := countWords_cons v' (c := VALUE_SIZE * n)
        (by unfold VALUE_SIZE; omega)
      rw [Tok.code, hu, List.cons_append] at h
      obtain ⟨rfl, -⟩ := List.cons.inj h
      rintro ⟨-, rfl⟩
      rw [hval] at hno
      exact hno n ts rfl

/-- The loop over a compressed bitmap meets the tokens it is the code of. -/
theorem scan_code {σ : Type} (onRun : σ → ℕ → ℕ → Bool → Except Fault σ)
    (onWord : σ → ℕ → Word → Except Fault σ) (ts : List Tok) :
    Separated ts → (∀ t ∈ ts, t.Good) → ∀ (fuel p : ℕ) (s : σ),
      (ts.flatMap Tok.code).length ≤ fuel → VALUE_SIZE * (p + wordCount ts) < 2 ^ 32 →
      scan onRun onWord fuel (ts.flatMap Tok.code) (VALUE_SIZE * p) s =
        applyToks onRun onWord p ts s := by
  induction ts with
  | nil =>
    intro _ _ fuel p s _ _
    cases fuel <;> rfl
  | cons t ts ih =>
    intro hsep hgood fuel p s hfuel hbound
    have hgood' : ∀ t ∈ ts, t.Good := fun x hx => hgood x (by simp [hx])
    cases t with
    | lit w =>
      have hclean : Clean w := hgood (.lit w) (by simp)
      have hbound' : VALUE_SIZE * (p + 1 + wordCount ts) < 2 ^ 32 := by
        simpa [wordCount, Tok.words, Nat.add_comm, Nat.add_left_comm, Nat.add_assoc] using hbound
      have hpos : (VALUE_SIZE * p + VALUE_SIZE) % 2 ^ 32 = VALUE_SIZE * (p + 1) := by
        unfold VALUE_SIZE at *
        omega
      rw [List.flatMap_cons, Tok.code, List.singleton_append] at hfuel ⊢
      obtain ⟨fuel, rfl⟩ : ∃ f, fuel = f + 1 := ⟨fuel - 1, by rw [List.length_cons] at hfuel; omega⟩
      rw [scan, if_neg (by rw [flagged_iff, hclean.2]; simp), hclean.and_mask, hpos, applyToks]
      congr 1
      funext s'
      exact ih hsep hgood' fuel (p + 1) s' (by simpa using hfuel) hbound'
    | run v n =>
      have hn : 1 ≤ n := hgood (.run v n) (by simp)
      obtain ⟨hno, hsep'⟩ := hsep
      have hbound' : VALUE_SIZE * (p + n + wordCount ts) < 2 ^ 32 := by
        simpa [wordCount, Tok.words, Nat.add_assoc] using hbound
      have hcount : VALUE_SIZE * n < 2 ^ 32 := by unfold VALUE_SIZE at *; omega
      have hpos : (VALUE_SIZE * p + VALUE_SIZE * n) % 2 ^ 32 = VALUE_SIZE * (p + n) := by
        unfold VALUE_SIZE at *
        omega
      obtain ⟨w, hw, hflag, hval, hpay⟩ := countWords_cons v (c := VALUE_SIZE * n)
        (by unfold VALUE_SIZE; omega)
      have hdigits : VALUE_SIZE * n % 2 ^ 14 + 2 ^ (VALUE_SIZE * 1) * ((VALUE_SIZE * n) >>> VALUE_SIZE)
          = VALUE_SIZE * n := by
        rw [Nat.shiftRight_eq_div_pow]
        exact Nat.mod_add_div (VALUE_SIZE * n) (2 ^ 14)
      have hgather := gather_countWords (stops_code hno hgood') ((VALUE_SIZE * n) >>> VALUE_SIZE) 1
        (VALUE_SIZE * n % 2 ^ 14) (Nat.mod_lt _ (by decide)) (by rw [hdigits]; exact hcount)
      rw [hdigits] at hgather
      rw [List.flatMap_cons, Tok.code, hw, List.cons_append] at hfuel ⊢
      obtain ⟨fuel, rfl⟩ : ∃ f, fuel = f + 1 := ⟨fuel - 1, by rw [List.length_cons] at hfuel; omega⟩
      rw [scan, if_pos ((flagged_iff w).mpr hflag)]
      dsimp only
      rw [value_eq, hval, hpay, hgather, applyToks]
      change (onRun s _ _ v >>= _) = _
      congr 1
      funext s'
      rw [hpos]
      refine ih hsep' hgood' fuel (p + n) s' ?_ hbound'
      rw [List.length_cons, List.length_append] at hfuel
      omega

/-- What a token says about each word it stands for. -/
def Tok.cells : Tok → List (Bool ⊕ Word)
  | .run v n => List.replicate n (.inl v)
  | .lit w => [.inr w]

def cellWord : Bool ⊕ Word → Word
  | .inl v => full v
  | .inr w => w

def act (fR : Bool → Word → Word) (fL : Word → Word → Word) (a : Word) : Bool ⊕ Word → Word
  | .inl v => fR v a
  | .inr w => fL w a

theorem map_cellWord (ts : List Tok) :
    (ts.flatMap Tok.cells).map cellWord = ts.flatMap Tok.words := by
  induction ts with
  | nil => rfl
  | cons t ts ih =>
    rw [List.flatMap_cons, List.flatMap_cons, List.map_append, ih]
    cases t <;> simp [Tok.cells, Tok.words, cellWord]

theorem length_cells (ts : List Tok) : (ts.flatMap Tok.cells).length = wordCount ts := by
  rw [wordCount, ← map_cellWord, List.length_map]

/-- The words of a run are changed as `fR` says, and no others. -/
def MapsRun (onRun : List Word → ℕ → ℕ → Bool → Except Fault (List Word)) (fR : Bool → Word → Word) :
    Prop :=
  ∀ (pre seg post : List Word) (v : Bool), seg ≠ [] →
    VALUE_SIZE * (pre.length + seg.length) < 2 ^ 32 →
    onRun (pre ++ seg ++ post) (VALUE_SIZE * pre.length) (VALUE_SIZE * seg.length) v =
      .ok (pre ++ seg.map (fR v) ++ post)

section

variable (fR : Bool → Word → Word) (fL : Word → Word → Word)
variable {onRun : List Word → ℕ → ℕ → Bool → Except Fault (List Word)}
variable {onWord : List Word → ℕ → Word → Except Fault (List Word)}

theorem applyToks_zip (hrun : MapsRun onRun fR)
    (hword : ∀ (pre post : List Word) (a w : Word),
      onWord (pre ++ a :: post) (VALUE_SIZE * pre.length) w = .ok (pre ++ fL w a :: post))
    (ts : List Tok) : (∀ t ∈ ts, t.Good) → ∀ pre rest : List Word, rest.length = wordCount ts →
      VALUE_SIZE * (pre.length + wordCount ts) < 2 ^ 32 →
      applyToks onRun onWord pre.length ts (pre ++ rest) =
        .ok (pre ++ List.zipWith (act fR fL) rest (ts.flatMap Tok.cells)) := by
  induction ts with
  | nil =>
    intro _ pre rest hlen _
    obtain rfl := List.length_eq_zero_iff.mp hlen
    rfl
  | cons t ts ih =>
    intro hgood pre rest hlen hbound
    have ih := ih fun x hx => hgood x (by simp [hx])
    cases t with
    | lit w =>
      have hcount : wordCount (.lit w :: ts) = wordCount ts + 1 := by
        simp [wordCount, Tok.words]
      rw [hcount] at hlen hbound
      obtain ⟨a, rest, rfl⟩ := List.exists_cons_of_length_eq_add_one hlen
      rw [applyToks, hword]
      have hnext := ih (pre ++ [fL w a]) rest (by simpa using hlen) (by
        rw [List.length_append, List.length_singleton]
        unfold VALUE_SIZE at *
        omega)
      rw [List.length_append, List.length_singleton, List.append_assoc, List.append_assoc,
        List.singleton_append, List.singleton_append] at hnext
      exact hnext
    | run v n =>
      have hn : 1 ≤ n := hgood (.run v n) (by simp)
      have hcount : wordCount (.run v n :: ts) = n + wordCount ts := by
        simp [wordCount, Tok.words]
      rw [hcount] at hlen hbound
      -- the first `n` words are the run's
      obtain ⟨seg, rest, rfl, hseg⟩ : ∃ seg rest', rest = seg ++ rest' ∧ seg.length = n :=
        ⟨rest.take n, rest.drop n, (List.take_append_drop n rest).symm, by
          rw [List.length_take]
          omega⟩
      have hne : seg ≠ [] := by
        rintro rfl
        rw [List.length_nil] at hseg
        omega
      have hfirst := hrun pre seg rest v hne (by rw [hseg]; unfold VALUE_SIZE at *; omega)
      rw [List.append_assoc, hseg] at hfirst
      rw [applyToks, hfirst]
      have hnext := ih (pre ++ seg.map (fR v)) rest (by
        rw [List.length_append] at hlen
        omega) (by
        rw [List.length_append, List.length_map, hseg]
        unfold VALUE_SIZE at *
        omega)
      rw [List.length_append, List.length_map, hseg] at hnext
      have hzip : List.zipWith (act fR fL) (seg ++ rest) ((Tok.run v n :: ts).flatMap Tok.cells) =
          seg.map (fR v) ++ List.zipWith (act fR fL) rest (ts.flatMap Tok.cells) := by
        rw [List.flatMap_cons, Tok.cells, List.zipWith_append (by simp [hseg])]
        rw [← hseg, zipWith_replicate_right]
        rfl
      rw [hzip, ← List.append_assoc]
      exact hnext

end

theorem store_append (pre post : List Word) (a : Word) (f : Word → Word) :
    store (pre ++ a :: post) pre.length f = .ok (pre ++ f a :: post) := by
  have hget : (pre ++ a :: post)[pre.length]? = some a := by simp
  rw [store, hget]
  simp

theorem fillLoop_append (w : Word) (seg : List Word) : ∀ pre post : List Word,
    fillLoop w seg.length pre.length (pre ++ seg ++ post) =
      .ok (pre ++ List.replicate seg.length w ++ post) := by
  induction seg with
  | nil => intro pre post; simp [fillLoop]
  | cons a seg ih =>
    intro pre post
    rw [List.length_cons, fillLoop, List.append_assoc, List.cons_append, store_append]
    have hnext := ih (pre ++ [w]) post
    rw [List.length_append, List.length_singleton] at hnext
    simp only [List.append_assoc, List.singleton_append] at hnext
    rw [List.replicate_succ, List.append_assoc, List.cons_append]
    exact hnext

theorem setRange_append {pre seg : List Word} (post : List Word) (v : Bool) (hne : seg ≠ [])
    (hbound : VALUE_SIZE * (pre.length + seg.length) < 2 ^ 32) :
    setRange (pre ++ seg ++ post) (VALUE_SIZE * pre.length) (VALUE_SIZE * seg.length) v =
      .ok (pre ++ List.replicate seg.length (full v) ++ post) := by
  have hpos := List.length_pos_iff.mpr hne
  have hto : (VALUE_SIZE * pre.length + VALUE_SIZE * seg.length) % 2 ^ 32 =
      VALUE_SIZE * (pre.length + seg.length) := by
    rw [← Nat.mul_add, Nat.mod_eq_of_lt hbound]
  have hv : 0 < VALUE_SIZE := by decide
  rw [setRange, if_neg (by unfold VALUE_SIZE; omega)]
  dsimp only
  rw [hto, if_neg (by simp [Nat.mul_mod_right]), Nat.mul_div_cancel_left _ hv,
    Nat.mul_div_cancel_left _ hv, Nat.add_sub_cancel_left, ← fillLoop_append]
  rfl

theorem store_word (f : Word → Word → Word) (pre post : List Word) (a w : Word) :
    store (pre ++ a :: post) (VALUE_SIZE * pre.length / VALUE_SIZE) (fun x => f x w) =
      .ok (pre ++ f a w :: post) := by
  rw [Nat.mul_div_cancel_left _ (by decide), store_append]

/-- An uncompressed bitmap with the words its size calls for. -/
def Plain (b : Bitmap) : Prop := b.m_compress = false ∧ b.m_data.length = wordsFor b.m_size

instance (b : Bitmap) : Decidable (Plain b) := instDecidableAnd

theorem compress_eq {b : Bitmap} (hb : Plain b) :
    b.compress = .ok ⟨true, b.m_size, (rle false 0 b.m_data).flatMap Tok.code⟩ := by
  obtain ⟨s, hs, hfin⟩ := compress_loop b.m_data false 0 []
  rw [compress, if_neg (by simp [hb.1])]
  rw [Nat.mul_zero] at hs
  rw [hs]
  change Except.ok (Bitmap.mk true b.m_size s.finish) = _
  rw [hfin, List.nil_append]

/-- A clean plain bitmap compresses to the code of tokens that spell out its words. -/
theorem compress_tokens {b : Bitmap} (hb : Plain b) (hclean : ∀ w ∈ b.m_data, Clean w) :
    ∃ ts : List Tok, b.compress = .ok ⟨true, b.m_size, ts.flatMap Tok.code⟩ ∧
      ts.flatMap Tok.words = b.m_data ∧ Separated ts ∧ ∀ t ∈ ts, t.Good := by
  refine ⟨rle false 0 b.m_data, compress_eq hb, ?_, separated_rle _ _ _, good_rle _ hclean _ _⟩
  rw [words_rle _ hclean]
  simp

/-- The loop over the code of a bitmap `ts`, started on as many words. -/
theorem scan_zip (fR : Bool → Word → Word) (fL : Word → Word → Word)
    {onRun : List Word → ℕ → ℕ → Bool → Except Fault (List Word)}
    (hrun : MapsRun onRun fR)
    {ts : List Tok} (hsep : Separated ts) (hgood : ∀ t ∈ ts, t.Good)
    (hbound : VALUE_SIZE * wordCount ts < 2 ^ 32) {data : List Word}
    (hlen : data.length = wordCount ts) :
    scan onRun (fun data cur_pos w => store data (cur_pos / VALUE_SIZE) fun x => fL w x)
      (ts.flatMap Tok.code).length (ts.flatMap Tok.code) 0 data =
      .ok (List.zipWith (act fR fL) data (ts.flatMap Tok.cells)) := by
  have hscan := scan_code onRun
    (fun data cur_pos w => store data (cur_pos / VALUE_SIZE) fun x => fL w x) ts hsep hgood
    (ts.flatMap Tok.code).length 0 data le_rfl (by rwa [Nat.zero_add])
  rw [Nat.mul_zero] at hscan
  rw [hscan]
  exact applyToks_zip fR fL hrun (fun pre post a w => store_word (fun x w => fL w x) pre post a w)
    ts hgood [] data hlen (by rwa [List.length_nil, Nat.zero_add])

/-- The code of tokens is uncompressed into the words they stand for. -/
theorem uncompress_code (size : ℕ) {ts : List Tok} (hsep : Separated ts) (hgood : ∀ t ∈ ts, t.Good)
    (hbound : VALUE_SIZE * wordCount ts < 2 ^ 32) (hsize : wordsFor size = wordCount ts) :
    uncompress ⟨true, size, ts.flatMap Tok.code⟩ = .ok ⟨false, size, ts.flatMap Tok.words⟩ := by
  have hfresh : (new size 0).m_data.length = wordCount ts := by
    rw [new, List.length_replicate, hsize]
  have hrun : MapsRun setRange fun v _ => full v := by
    intro pre seg post v hne hlt
    rw [setRange_append post v hne hlt, List.map_const']
  have hscan := scan_zip (fun v _ => full v) (fun w _ => w) hrun hsep hgood hbound hfresh
  have hcells : List.zipWith (act (fun v _ => full v) fun w _ => w) (new size 0).m_data
      (ts.flatMap Tok.cells) = ts.flatMap Tok.words := by
    have hact : act (fun v _ => full v) (fun w _ => w) = fun _ c => cellWord c := by
      funext a c
      cases c <;> rfl
    rw [hact, zipWith_ignore_left cellWord _ _ (by rw [hfresh, length_cells]), map_cellWord]
  rw [uncompress, if_neg (by simp)]
  dsimp only
  rw [hscan, hcells]
  rfl

/-- Compressing and uncompressing gives back the size and every word. -/
theorem compress_uncompress_same (b : Bitmap) (hb : Plain b)
    (hclean : ∀ w ∈ b.m_data, Clean w) (hbound : 14 * b.getDataSize < 2 ^ 32) :
    ∃ c u, b.compress = .ok c ∧ c.uncompress = .ok u ∧ u.isCompress = false ∧
      u.getSize = b.getSize ∧ u.getDataSize = b.getDataSize ∧ u.m_data = b.m_data := by
  obtain ⟨ts, hcomp, hwords, hsep, hgood⟩ := compress_tokens hb hclean
  have hcount : wordCount ts = b.m_data.length := by rw [wordCount, hwords]
  have hun := uncompress_code b.m_size hsep hgood (by rw [hcount]; exact hbound)
    (by rw [hcount, hb.2])
  rw [hwords] at hun
  exact ⟨_, _, hcomp, hun, rfl, rfl, rfl, rfl⟩

theorem compress_uncompress_same_runs :
    ∃ c u, compress ⟨false, 84, [0#16, 0#16, 5#16, 0x3FFF#16, 0x3FFF#16, 0#16]⟩ = .ok c ∧
      c.uncompress = .ok u ∧ u.isCompress = false ∧ u.getSize = 84 ∧ u.getDataSize = 6 ∧
      u.m_data = [0#16, 0#16, 5#16, 0x3FFF#16, 0x3FFF#16, 0#16] :=
  compress_uncompress_same ⟨false, 84, [0#16, 0#16, 5#16, 0x3FFF#16, 0x3FFF#16, 0#16]⟩
    (by decide) (by simp [Clean]) (by decide)

/-- The lowest of the words joined to `x`, and the words above it. -/
theorem extract_low {n : ℕ} (x : BitVec n) (w : Word) : (x ++ w).extractLsb' 0 16 = w := by
  ext i hi
  rw [BitVec.getElem_extractLsb', Nat.zero_add, BitVec.getLsbD_append, if_pos hi,
    BitVec.getLsbD_eq_getElem hi]

theorem extract_skip {n : ℕ} (x : BitVec n) (w : Word) (i : ℕ) :
    (x ++ w).extractLsb' (16 + i) 16 = x.extractLsb' i 16 := by
  ext k hk
  have hge : ¬ 16 + i + k < 16 := by omega
  have hsub : 16 + i + k - 16 = i + k := by omega
  rw [BitVec.getElem_extractLsb', BitVec.getElem_extractLsb', BitVec.getLsbD_append, if_neg hge,
    hsub]

theorem lane_pack (w₀ w₁ w₂ w₃ : Word) :
    lane (pack w₀ w₁ w₂ w₃) 0 = w₀ ∧ lane (pack w₀ w₁ w₂ w₃) 1 = w₁ ∧
    lane (pack w₀ w₁ w₂ w₃) 2 = w₂ ∧ lane (pack w₀ w₁ w₂ w₃) 3 = w₃ := by
  refine ⟨extract_low _ _, ?_, ?_, ?_⟩
  · exact (extract_skip _ _ 0).trans (extract_low _ _)
  · exact (extract_skip _ _ 16).trans ((extract_skip _ _ 0).trans (extract_low _ _))
  · refine (extract_skip _ _ 32).trans ((extract_skip _ _ 16).trans ((extract_skip _ _ 0).trans ?_))
    exact BitVec.extractLsb'_eq_self

/-- A 64-bit operation that acts on each lane alone. -/
def Laned (f64 : BitVec 64 → BitVec 64 → BitVec 64) (f : Word → Word → Word) : Prop :=
  ∀ x y i, lane (f64 x y) i = f (lane x i) (lane y i)

theorem laned_and : Laned (· &&& ·) (· &&& ·) := fun _ _ _ => BitVec.extractLsb'_and
theorem laned_or : Laned (· ||| ·) (· ||| ·) := fun _ _ _ => BitVec.extractLsb'_or

theorem zipTail_eq (f : Word → Word → Word) : ∀ as bs : List Word, as.length = bs.length →
    zipTail f as bs = .ok (List.zipWith f as bs)
  | [], _, _ => by rw [zipTail, List.zipWith_nil_left]
  | _ :: _, [], h => by simp at h
  | a :: as, b :: bs, h => by
      rw [zipTail, zipTail_eq f as bs (by simpa using h)]
      rfl

theorem zipGroups_eq {f64 : BitVec 64 → BitVec 64 → BitVec 64} {f : Word → Word → Word}
    (hf : Laned f64 f) : ∀ (n : ℕ) (as bs : List Word), as.length = bs.length → 4 * n ≤ as.length →
      zipGroups f64 f n as bs = .ok (List.zipWith f as bs) := by
  intro n
  induction n with
  | zero => intro as bs hlen _; exact zipTail_eq f as bs hlen
  | succ n ih =>
    intro as bs hlen hn
    match as, bs, hlen, hn with
    | a₀ :: a₁ :: a₂ :: a₃ :: as, b₀ :: b₁ :: b₂ :: b₃ :: bs, hlen, hn =>
      obtain ⟨ha₀, ha₁, ha₂, ha₃⟩ := lane_pack a₀ a₁ a₂ a₃
      obtain ⟨hb₀, hb₁, hb₂, hb₃⟩ := lane_pack b₀ b₁ b₂ b₃
      rw [zipGroups, ih as bs (by simpa using hlen) (by simp only [List.length_cons] at hn; omega)]
      change Except.ok (_ :: _ :: _ :: _ :: _) = _
      rw [hf, hf, hf, hf, ha₀, ha₁, ha₂, ha₃, hb₀, hb₁, hb₂, hb₃]
      rfl
    | [], _, _, hn => simp at hn
    | [_], _, _, hn => simp at hn; omega
    | [_, _], _, _, hn => simp at hn; omega
    | [_, _, _], _, _, hn => simp at hn; omega
    | _ :: _ :: _ :: _ :: _, [], hlen, _ => simp at hlen
    | _ :: _ :: _ :: _ :: _, [_], hlen, _ => simp at hlen
    | _ :: _ :: _ :: _ :: _, [_, _], hlen, _ => simp at hlen
    | _ :: _ :: _ :: _ :: _, [_, _, _], hlen, _ => simp at hlen

theorem groups_le (size : ℕ) : 4 * (size / U64_VALUE_SIZE) ≤ wordsFor size := by
  unfold U64_VALUE_SIZE wordsFor VALUE_SIZE U64_DIV_BASE
  omega

theorem index_lt_wordsFor {size i : ℕ} (h : i < size) : i / VALUE_SIZE < wordsFor size := by
  unfold wordsFor VALUE_SIZE
  omega

theorem and_POS (w : Word) {i : ℕ} (hi : i < 16) : (w &&& POS i != 0#16) = w.getLsbD i := by
  have h := and_twoPow_ne_zero w hi
  rw [← POS_eq] at h
  cases hb : w.getLsbD i with
  | true => exact bne_iff_ne.mpr (h.mpr hb)
  | false =>
    rw [hb] at h
    simpa using h

theorem get_eq {b : Bitmap} {i : ℕ} {w : Word} (h : b.m_data[i / VALUE_SIZE]? = some w) :
    b.get i = .ok (w.getLsbD (i % VALUE_SIZE)) := by
  have : i % VALUE_SIZE < 14 := Nat.mod_lt _ (by decide)
  rw [get, h]
  dsimp only
  rw [and_POS w (by omega)]

/-- Bit by bit the word operation is `op`, and so is what a run does to a word. -/
structure Combines (op : Bool → Bool → Bool) (f64 : BitVec 64 → BitVec 64 → BitVec 64)
    (f : Word → Word → Word) (fR : Bool → Word → Word) : Prop where
  laned : Laned f64 f
  bit : ∀ x y i, i < 14 → (f x y).getLsbD i = op (x.getLsbD i) (y.getLsbD i)
  run : ∀ v x i, i < 14 → (fR v x).getLsbD i = op (x.getLsbD i) v

theorem act_bit {op : Bool → Bool → Bool} {f64 : BitVec 64 → BitVec 64 → BitVec 64}
    {f : Word → Word → Word} {fR : Bool → Word → Word} (h : Combines op f64 f fR) (x : Word)
    (c : Bool ⊕ Word) {i : ℕ} (hi : i < 14) :
    (act fR (fun w a => f a w) x c).getLsbD i = op (x.getLsbD i) ((cellWord c).getLsbD i) := by
  cases c with
  | inl v => rw [act, h.run v x i hi, cellWord, full_bit v hi]
  | inr w => exact h.bit x w i hi

/-- Two plain bitmaps of one size give a plain one, word by word. -/
theorem assignWith_plain {sym : String} {f64 : BitVec 64 → BitVec 64 → BitVec 64}
    {f : Word → Word → Word} (hlane : Laned f64 f)
    {onRun : List Word → ℕ → ℕ → Bool → Except Fault (List Word)} {a b : Bitmap} (ha : Plain a)
    (hb : Plain b) (hsize : a.m_size = b.m_size) :
    assignWith sym f64 f onRun a b = .ok { a with m_data := List.zipWith f a.m_data b.m_data } ∧
      Plain { a with m_data := List.zipWith f a.m_data b.m_data } := by
  have hlen : a.m_data.length = b.m_data.length := by rw [ha.2, hb.2, hsize]
  have hzip := zipGroups_eq hlane (a.m_size / U64_VALUE_SIZE) a.m_data b.m_data hlen
    (by rw [ha.2]; exact groups_le a.m_size)
  constructor
  · rw [assignWith, if_neg (not_not.mpr hsize), ha.1, hb.1, if_pos (by decide), hzip]
    rfl
  · refine ⟨ha.1, ?_⟩
    rw [List.length_zipWith, ← hlen, Nat.min_self]
    exact ha.2

/-- Both operands, the plain and the compressed, give `op` of the bits. -/
theorem assignWith_agrees {sym : String} {op : Bool → Bool → Bool}
    {f64 : BitVec 64 → BitVec 64 → BitVec 64} {f : Word → Word → Word} {fR : Bool → Word → Word}
    (h : Combines op f64 f fR)
    {onRun : List Word → ℕ → ℕ → Bool → Except Fault (List Word)}
    (hrun : MapsRun onRun fR)
    {a b c : Bitmap} (ha : Plain a) (hb : Plain b) (hsize : a.m_size = b.m_size)
    (hclean : ∀ w ∈ b.m_data, Clean w) (hbound : 14 * b.getDataSize < 2 ^ 32)
    (hc : b.compress = .ok c) :
    ∃ r₁ r₂, assignWith sym f64 f onRun a c = .ok r₁ ∧ assignWith sym f64 f onRun a b = .ok r₂ ∧
      ∀ i < a.getSize, ∃ x y, a.get i = .ok x ∧ b.get i = .ok y ∧
        r₁.get i = .ok (op x y) ∧ r₂.get i = .ok (op x y) := by
  obtain ⟨ts, hcomp, hwords, hsep, hgood⟩ := compress_tokens hb hclean
  obtain rfl := Except.ok.inj (hc.symm.trans hcomp)
  have hlen : a.m_data.length = b.m_data.length := by rw [ha.2, hb.2, hsize]
  have hcount : wordCount ts = b.m_data.length := by rw [wordCount, hwords]
  have hscan := scan_zip fR (fun w x => f x w) hrun hsep hgood (by rw [hcount]; exact hbound)
    (hlen.trans hcount.symm)
  set cells := ts.flatMap Tok.cells with hcells
  refine ⟨{ a with m_data := List.zipWith (act fR fun w x => f x w) a.m_data cells },
    { a with m_data := List.zipWith f a.m_data b.m_data }, ?_,
    (assignWith_plain h.laned ha hb hsize).1, ?_⟩
  · rw [assignWith, if_neg (not_not.mpr hsize)]
    simp only [ha.1, Bool.not_false, Bool.not_true, Bool.and_false, Bool.false_eq_true, if_false]
    rw [if_pos (by decide), hscan]
    rfl
  · intro i hi
    have hia : i / VALUE_SIZE < a.m_data.length := by
      rw [ha.2]
      exact index_lt_wordsFor hi
    have hib : i / VALUE_SIZE < b.m_data.length := hlen ▸ hia
    have hic : i / VALUE_SIZE < cells.length := by rw [hcells, length_cells, hcount]; exact hib
    have hmod : i % VALUE_SIZE < 14 := Nat.mod_lt _ (by decide)
    have hcell : b.m_data[i / VALUE_SIZE] = cellWord cells[i / VALUE_SIZE] := by
      have hmap : b.m_data = cells.map cellWord := by rw [hcells, map_cellWord, hwords]
      simp only [hmap, List.getElem_map]
    refine ⟨_, _, get_eq (List.getElem?_eq_getElem hia), get_eq (List.getElem?_eq_getElem hib), ?_, ?_⟩
    · have hw : (List.zipWith (act fR fun w x => f x w) a.m_data cells)[i / VALUE_SIZE]? =
          some (act fR (fun w x => f x w) a.m_data[i / VALUE_SIZE] cells[i / VALUE_SIZE]) := by
        rw [List.getElem?_zipWith, List.getElem?_eq_getElem hia, List.getElem?_eq_getElem hic]
      rw [get_eq (b := { a with m_data := _ }) hw, act_bit h _ _ hmod, hcell]
    · have hw : (List.zipWith f a.m_data b.m_data)[i / VALUE_SIZE]? =
          some (f a.m_data[i / VALUE_SIZE] b.m_data[i / VALUE_SIZE]) := by
        rw [List.getElem?_zipWith, List.getElem?_eq_getElem hia, List.getElem?_eq_getElem hib]
      rw [get_eq (b := { a with m_data := _ }) hw, h.bit _ _ _ hmod]

/-- `&=` clears the words of a run of zeros and skips a run of ones. -/
theorem combines_and :
    Combines (· && ·) (· &&& ·) (· &&& ·) (fun v x => if !v then full false else x) where
  laned := laned_and
  bit := fun x y i _ => BitVec.getLsbD_and
  run := by
    intro v x i hi
    cases v with
    | false => simp [full]
    | true => simp

/-- `|=` sets the payload of a run of ones and skips a run of zeros. -/
theorem combines_or :
    Combines (· || ·) (· ||| ·) (· ||| ·) (fun v x => if v then full true else x) where
  laned := laned_or
  bit := fun x y i _ => BitVec.getLsbD_or
  run := by
    intro v x i hi
    cases v with
    | false => simp
    | true => simpa using full_bit true hi

/-- Combining with `*b.compress()` and with `b` both give the bits of `a` and `b`
combined. -/
theorem compressed_operand_agrees (a b : Bitmap) (ha : Plain a) (hb : Plain b)
    (hsize : a.getSize = b.getSize) (hclean : ∀ w ∈ b.m_data, Clean w)
    (hbound : 14 * b.getDataSize < 2 ^ 32) :
    ∃ c, b.compress = .ok c ∧
      (∃ r₁ r₂, a.andAssign c = .ok r₁ ∧ a.andAssign b = .ok r₂ ∧
        ∀ i < a.getSize, ∃ x y, a.get i = .ok x ∧ b.get i = .ok y ∧
          r₁.get i = .ok (x && y) ∧ r₂.get i = .ok (x && y)) ∧
      (∃ r₁ r₂, a.orAssign c = .ok r₁ ∧ a.orAssign b = .ok r₂ ∧
        ∀ i < a.getSize, ∃ x y, a.get i = .ok x ∧ b.get i = .ok y ∧
          r₁.get i = .ok (x || y) ∧ r₂.get i = .ok (x || y)) := by
  obtain ⟨ts, hcomp, -⟩ := compress_tokens hb hclean
  refine ⟨_, hcomp, ?_, ?_⟩
  · refine assignWith_agrees combines_and ?_ ha hb hsize hclean hbound hcomp
    intro pre seg post v hne hlt
    cases v with
    | false =>
      simp only [Bool.not_false, if_true]
      rw [setRange_append post false hne hlt, List.map_const']
    | true => simp
  · refine assignWith_agrees combines_or ?_ ha hb hsize hclean hbound hcomp
    intro pre seg post v hne hlt
    cases v with
    | false => simp
    | true =>
      simp only [if_true]
      rw [setRange_append post true hne hlt, List.map_const']

theorem compressed_operand_agrees_short :
    ∃ c, compress ⟨false, 40, [0#16, 0#16, 9#16]⟩ = .ok c ∧
      (∃ r₁ r₂, andAssign ⟨false, 40, [3#16, 0x3FFF#16, 8#16]⟩ c = .ok r₁ ∧
        andAssign ⟨false, 40, [3#16, 0x3FFF#16, 8#16]⟩ ⟨false, 40, [0#16, 0#16, 9#16]⟩ = .ok r₂ ∧
        ∀ i < 40, ∃ x y, get ⟨false, 40, [3#16, 0x3FFF#16, 8#16]⟩ i = .ok x ∧
          get ⟨false, 40, [0#16, 0#16, 9#16]⟩ i = .ok y ∧
          r₁.get i = .ok (x && y) ∧ r₂.get i = .ok (x && y)) ∧
      (∃ r₁ r₂, orAssign ⟨false, 40, [3#16, 0x3FFF#16, 8#16]⟩ c = .ok r₁ ∧
        orAssign ⟨false, 40, [3#16, 0x3FFF#16, 8#16]⟩ ⟨false, 40, [0#16, 0#16, 9#16]⟩ = .ok r₂ ∧
        ∀ i < 40, ∃ x y, get ⟨false, 40, [3#16, 0x3FFF#16, 8#16]⟩ i = .ok x ∧
          get ⟨false, 40, [0#16, 0#16, 9#16]⟩ i = .ok y ∧
          r₁.get i = .ok (x || y) ∧ r₂.get i = .ok (x || y)) :=
  compressed_operand_agrees ⟨false, 40, [3#16, 0x3FFF#16, 8#16]⟩ ⟨false, 40, [0#16, 0#16, 9#16]⟩
    (by decide) (by decide) rfl (by simp [Clean]) (by decide)

end Bitmap

end Sylar
