import Sylar.Proofs.BitmapAny
import Sylar.Spec.BitmapCompare

/-! `cross` finds a bit in common, four words at a time in a plain operand and run by run in a
compressed one. -/

namespace Sylar

open Lib

namespace Bitmap

/-- Some word of one list has a bit in common with its partner in the other. -/
def hits (as bs : List Word) : Bool := (List.zipWith (· &&& ·) as bs).any (· != 0#16)

theorem hits_cons (a b : Word) (as bs : List Word) :
    hits (a :: as) (b :: bs) = ((a &&& b != 0#16) || hits as bs) := rfl

theorem hits_append {as bs as' bs' : List Word} (h : as.length = bs.length) :
    hits (as ++ as') (bs ++ bs') = (hits as bs || hits as' bs') := by
  rw [hits, List.zipWith_append h, List.any_append]
  rfl

theorem hits_full (as : List Word) (v : Bool) :
    hits as (List.replicate as.length (full v)) = (v && as.any fun w => w &&& COUNT_MASK != 0#16) := by
  rw [hits, zipWith_replicate_right, List.any_map]
  cases v with
  | false => simp [full]
  | true => rfl

theorem crossTail_eq (as bs : List Word) (h : as.length = bs.length) :
    crossTail as bs = .ok (hits as bs) := by
  induction as generalizing bs with
  | nil => rfl
  | cons a as ih =>
    cases bs with
    | nil => simp at h
    | cons b bs =>
      rw [crossTail, ih bs (by simpa using h), hits_cons]
      by_cases hab : a &&& b = 0#16
      · simp [hab]
      · simp [hab]

theorem pack_and (a₀ a₁ a₂ a₃ b₀ b₁ b₂ b₃ : Word) :
    pack a₀ a₁ a₂ a₃ &&& pack b₀ b₁ b₂ b₃ = pack (a₀ &&& b₀) (a₁ &&& b₁) (a₂ &&& b₂) (a₃ &&& b₃) := by
  unfold pack
  rw [BitVec.and_append, BitVec.and_append, BitVec.and_append]

theorem hits_four (a₀ a₁ a₂ a₃ b₀ b₁ b₂ b₃ : Word) (as bs : List Word) :
    hits (a₀ :: a₁ :: a₂ :: a₃ :: as) (b₀ :: b₁ :: b₂ :: b₃ :: bs) =
      ((pack a₀ a₁ a₂ a₃ &&& pack b₀ b₁ b₂ b₃ != 0#64) || hits as bs) := by
  rw [hits_cons, hits_cons, hits_cons, hits_cons, pack_and]
  by_cases h : pack (a₀ &&& b₀) (a₁ &&& b₁) (a₂ &&& b₂) (a₃ &&& b₃) = 0#64
  · obtain ⟨h₀, h₁, h₂, h₃⟩ := pack_eq_zero.mp h
    rw [h, h₀, h₁, h₂, h₃]
    rfl
  · have hsome := mt pack_eq_zero.mpr h
    simp only [bne_iff_ne.mpr h, Bool.true_or]
    by_contra hnone
    simp only [Bool.not_eq_true, Bool.or_eq_false_iff, bne_eq_false_iff_eq] at hnone
    exact hsome ⟨hnone.1, hnone.2.1, hnone.2.2.1, hnone.2.2.2.1⟩

theorem crossGroups_eq (n : ℕ) : ∀ as bs : List Word, as.length = bs.length → 4 * n ≤ as.length →
    crossGroups n as bs = .ok (hits as bs) := by
  induction n with
  | zero => intro as bs h _; exact crossTail_eq as bs h
  | succ n ih =>
    intro as bs h hn
    obtain ⟨a₀, a₁, a₂, a₃, as, rfl⟩ := exists_four (show 4 ≤ as.length by omega)
    obtain ⟨b₀, b₁, b₂, b₃, bs, rfl⟩ := exists_four (show 4 ≤ bs.length by omega)
    have hnext := ih as bs (by simpa using h) (by simp only [List.length_cons] at hn; omega)
    rw [crossGroups, hits_four]
    by_cases ha : pack a₀ a₁ a₂ a₃ = 0#64
    · rw [if_neg (not_not.mpr ha), ha, BitVec.zero_and]
      exact hnext
    · rw [if_pos ha]
      by_cases hab : pack a₀ a₁ a₂ a₃ &&& pack b₀ b₁ b₂ b₃ = 0#64
      · rw [if_neg (not_not.mpr hab), hnext, hab]
        rfl
      · rw [if_pos hab, bne_iff_ne.mpr hab, Bool.true_or]

theorem normalCross_eq {a b : Bitmap} (ha : Plain a) (hb : Plain b) (hsize : a.m_size = b.m_size) :
    a.normalCross b = .ok (hits a.m_data b.m_data) :=
  crossGroups_eq _ _ _ (by rw [ha.2, hb.2, hsize]) (by rw [ha.2]; exact groups_le a.m_size)

theorem getLoop_append (seg : List Word) : ∀ pre post : List Word,
    getLoop (pre ++ seg ++ post) true seg.length pre.length =
      .ok (seg.any fun w => w &&& COUNT_MASK != 0#16) := by
  induction seg with
  | nil => intro pre post; rfl
  | cons a seg ih =>
    intro pre post
    have hget : (pre ++ a :: seg ++ post)[pre.length]? = some a := by simp
    have hnext := ih (pre ++ [a]) post
    rw [List.length_append, List.length_singleton] at hnext
    rw [List.append_assoc pre, List.singleton_append] at hnext
    rw [List.length_cons, getLoop, hget, List.any_cons]
    dsimp only
    rw [if_pos rfl]
    by_cases ha : a &&& COUNT_MASK = 0#16
    · rw [if_neg (not_not.mpr ha), ha, hnext]
      rfl
    · rw [if_pos ha, bne_iff_ne.mpr ha, Bool.true_or]

theorem getRange_append {pre seg : List Word} (post : List Word) (hne : seg ≠ [])
    (hbound : VALUE_SIZE * (pre.length + seg.length) < 2 ^ 32) :
    getRange (pre ++ seg ++ post) (VALUE_SIZE * pre.length) (VALUE_SIZE * seg.length) true =
      .ok (seg.any fun w => w &&& COUNT_MASK != 0#16) := by
  have hpos := List.length_pos_iff.mpr hne
  have hto : (VALUE_SIZE * pre.length + VALUE_SIZE * seg.length) % 2 ^ 32 =
      VALUE_SIZE * (pre.length + seg.length) := by
    rw [← Nat.mul_add, Nat.mod_eq_of_lt hbound]
  have hv : 0 < VALUE_SIZE := by decide
  rw [getRange, if_neg (by unfold VALUE_SIZE; omega)]
  dsimp only
  rw [hto, if_neg (by simp [Nat.mul_mod_right]), Nat.mul_div_cancel_left _ hv,
    Nat.mul_div_cancel_left _ hv, Nat.add_sub_cancel_left, getLoop_append]

/-- What the loop does with a run, when `found` says whether it has returned. -/
def crossRun (data : List Word) (found : Bool) (cur_pos count : ℕ) (v : Bool) : Except Fault Bool :=
  if found then .ok true else if v then getRange data cur_pos count true else .ok false

def crossWord (data : List Word) (found : Bool) (cur_pos : ℕ) (w : Word) : Except Fault Bool :=
  if found then .ok true
  else
    match data[cur_pos / VALUE_SIZE]? with
    | none => .error .outOfBounds
    | some x => .ok (x &&& w != 0#16)

theorem scan_found (data : List Word) (fuel : ℕ) : ∀ (ws : List Word) (p : ℕ) (r : Bool),
    scan (crossRun data) (crossWord data) fuel ws p true = .ok r → r = true := by
  induction fuel with
  | zero =>
    intro ws p r h
    exact (Except.ok.inj h).symm
  | succ fuel ih =>
    intro ws p r h
    cases ws with
    | nil => exact (Except.ok.inj h).symm
    | cons cur rest =>
      rw [scan] at h
      by_cases hflag : cur &&& COMPRESS_MASK ≠ 0#16
      · rw [if_pos hflag] at h
        obtain ⟨⟨count, rest'⟩, -, h⟩ := ok_of_bind h
        obtain ⟨s, hs, h⟩ := ok_of_bind h
        obtain rfl := Except.ok.inj hs
        exact ih _ _ _ h
      · rw [if_neg hflag] at h
        obtain ⟨s, hs, h⟩ := ok_of_bind h
        obtain rfl := Except.ok.inj hs
        exact ih _ _ _ h

/-- Where the loop that does not return early comes to an end, this one gives the same. -/
theorem crossLoop_of_scan (data : List Word) (fuel : ℕ) : ∀ (ws : List Word) (p : ℕ) (r : Bool),
    scan (crossRun data) (crossWord data) fuel ws p false = .ok r → crossLoop data fuel ws p = .ok r := by
  induction fuel with
  | zero =>
    intro ws p r h
    exact h
  | succ fuel ih =>
    intro ws p r h
    cases ws with
    | nil => exact h
    | cons cur rest =>
      rw [scan] at h
      rw [crossLoop]
      by_cases hflag : cur &&& COMPRESS_MASK ≠ 0#16
      · rw [if_pos hflag] at h ⊢
        obtain ⟨⟨count, rest'⟩, hgather, h⟩ := ok_of_bind h
        obtain ⟨found, hfound, h⟩ := ok_of_bind h
        dsimp only at h hfound ⊢
        rw [hgather]
        change (if _ then _ else _) = _
        rw [crossRun, if_neg Bool.false_ne_true] at hfound
        by_cases hv : (cur &&& VALUE_MASK != 0#16) = true
        · rw [if_pos hv] at hfound ⊢
          rw [hfound]
          cases found with
          | true => exact congrArg Except.ok (scan_found data _ _ _ _ h).symm
          | false => exact ih _ _ _ h
        · rw [if_neg hv] at hfound ⊢
          obtain rfl := Except.ok.inj hfound
          exact ih _ _ _ h
      · rw [if_neg hflag] at h ⊢
        obtain ⟨found, hfound, h⟩ := ok_of_bind h
        rw [crossWord, if_neg Bool.false_ne_true] at hfound
        cases hw : data[p / VALUE_SIZE]? with
        | none =>
          rw [hw] at hfound
          cases hfound
        | some w =>
          rw [hw] at hfound
          obtain rfl := Except.ok.inj hfound
          dsimp only
          by_cases hand : w &&& (cur &&& COUNT_MASK) = 0#16
          · rw [hand] at h
            rw [if_neg (not_not.mpr hand)]
            exact ih _ _ _ h
          · rw [bne_iff_ne.mpr hand] at h
            rw [if_pos hand]
            exact congrArg Except.ok (scan_found data _ _ _ _ h).symm

theorem applyToks_hits (ts : List Tok) : (∀ t ∈ ts, t.Good) → ∀ (pre rest : List Word) (found : Bool),
    rest.length = wordCount ts → VALUE_SIZE * (pre.length + wordCount ts) < 2 ^ 32 →
    applyToks (crossRun (pre ++ rest)) (crossWord (pre ++ rest)) pre.length ts found =
      .ok (found || hits rest (ts.flatMap Tok.words)) := by
  induction ts with
  | nil =>
    intro _ pre rest found hlen _
    obtain rfl := List.length_eq_zero_iff.mp hlen
    rw [applyToks]
    exact congrArg Except.ok (Bool.or_false found).symm
  | cons t ts ih =>
    intro hgood pre rest found hlen hbound
    have ih := ih fun x hx => hgood x (by simp [hx])
    cases t with
    | lit w =>
      have hcount : wordCount (.lit w :: ts) = wordCount ts + 1 := by simp [wordCount, Tok.words]
      rw [hcount] at hlen hbound
      obtain ⟨a, rest, rfl⟩ := List.exists_cons_of_length_eq_add_one hlen
      have hget : (pre ++ a :: rest)[VALUE_SIZE * pre.length / VALUE_SIZE]? = some a := by
        rw [Nat.mul_div_cancel_left _ (by decide)]
        simp
      have hword : crossWord (pre ++ a :: rest) found (VALUE_SIZE * pre.length) w =
          .ok (found || (a &&& w != 0#16)) := by
        rw [crossWord, hget]
        cases found <;> rfl
      have hnext := ih (pre ++ [a]) rest (found || (a &&& w != 0#16)) (by simpa using hlen) (by
        rw [List.length_append, List.length_singleton]
        unfold VALUE_SIZE at *
        omega)
      rw [List.length_append, List.length_singleton, List.append_assoc, List.singleton_append] at hnext
      rw [applyToks, hword, List.flatMap_cons, Tok.words, List.singleton_append, hits_cons,
        ← Bool.or_assoc]
      exact hnext
    | run v n =>
      have hn : 1 ≤ n := hgood (.run v n) (by simp)
      have hcount : wordCount (.run v n :: ts) = n + wordCount ts := by simp [wordCount, Tok.words]
      rw [hcount] at hlen hbound
      -- the first `n` words are the run's
      obtain ⟨seg, rest, rfl, rfl⟩ : ∃ seg rest', rest = seg ++ rest' ∧ seg.length = n :=
        ⟨rest.take n, rest.drop n, (List.take_append_drop n rest).symm, by
          rw [List.length_take]
          omega⟩
      have hrange := getRange_append rest (List.length_pos_iff.mp hn)
        (show VALUE_SIZE * (pre.length + seg.length) < 2 ^ 32 by unfold VALUE_SIZE at *; omega)
      have hrun : crossRun (pre ++ (seg ++ rest)) found (VALUE_SIZE * pre.length)
          (VALUE_SIZE * seg.length) v = .ok (found || hits seg (List.replicate seg.length (full v))) := by
        rw [crossRun, ← List.append_assoc, hrange, hits_full]
        cases found <;> cases v <;> rfl
      have hnext := ih (pre ++ seg) rest (found || hits seg (List.replicate seg.length (full v)))
        (by rw [List.length_append] at hlen; omega)
        (by rw [List.length_append]; unfold VALUE_SIZE at *; omega)
      rw [List.length_append, List.append_assoc] at hnext
      rw [applyToks, hrun, List.flatMap_cons, Tok.words, hits_append List.length_replicate.symm,
        ← Bool.or_assoc]
      exact hnext

theorem compressCross_eq {a b c : Bitmap} (ha : Plain a) (hb : Plain b) (hsize : a.m_size = b.m_size)
    (hclean : ∀ w ∈ b.m_data, Clean w) (hbound : 14 * b.getDataSize < 2 ^ 32) (hc : b.compress = .ok c) :
    a.compressCross c = .ok (hits a.m_data b.m_data) := by
  obtain ⟨ts, hcomp, hwords, hsep, hgood⟩ := compress_tokens hb hclean
  obtain rfl := Except.ok.inj (hc.symm.trans hcomp)
  have hcount : wordCount ts = b.m_data.length := by rw [wordCount, hwords]
  have hlen : a.m_data.length = wordCount ts := by rw [hcount, ha.2, hb.2, hsize]
  have hlt : VALUE_SIZE * (0 + wordCount ts) < 2 ^ 32 := by
    rw [Nat.zero_add, hcount]
    exact hbound
  have hscan := scan_code (crossRun a.m_data) (crossWord a.m_data) ts hsep hgood
    (ts.flatMap Tok.code).length 0 false le_rfl hlt
  have htoks := applyToks_hits ts hgood [] a.m_data false hlen hlt
  rw [List.nil_append, List.length_nil, hwords, Bool.false_or] at htoks
  rw [Nat.mul_zero, htoks] at hscan
  exact crossLoop_of_scan _ _ _ _ _ hscan

def common (a b : Bitmap) : Bitmap := { a with m_data := List.zipWith (· &&& ·) a.m_data b.m_data }

section Common

variable {a b : Bitmap}

theorem Plain.common (ha : Plain a) (hb : Plain b) (hsize : a.m_size = b.m_size) :
    Plain (a.common b) := by
  refine ⟨ha.1, ?_⟩
  have hlen : (a.common b).m_data.length = min a.m_data.length b.m_data.length := List.length_zipWith
  rw [hlen, ha.2, hb.2, hsize, Nat.min_self]
  exact congrArg wordsFor hsize.symm

theorem clean_common (hclean : ∀ w ∈ a.m_data, Clean w) : ∀ w ∈ (a.common b).m_data, Clean w := by
  intro w hw
  unfold common at hw
  rw [← List.map_uncurry_zip_eq_zipWith] at hw
  obtain ⟨⟨x, y⟩, hxy, rfl⟩ := List.mem_map.mp hw
  exact (hclean x (List.of_mem_zip hxy).1).and y

theorem get_common (hlen : a.m_data.length = b.m_data.length) {i : ℕ}
    (hi : i / VALUE_SIZE < a.m_data.length) :
    ∃ x y, a.get i = .ok x ∧ b.get i = .ok y ∧ (a.common b).get i = .ok (x && y) := by
  have ha := List.getElem?_eq_getElem hi
  have hi' : i / VALUE_SIZE < b.m_data.length := hlen ▸ hi
  have hb := List.getElem?_eq_getElem hi'
  have hc : (a.common b).m_data[i / VALUE_SIZE]? =
      some (a.m_data[i / VALUE_SIZE] &&& b.m_data[i / VALUE_SIZE]) := by
    rw [common, List.getElem?_zipWith, ha, hb]
  refine ⟨_, _, get_eq ha, get_eq hb, ?_⟩
  rw [get_eq hc, BitVec.getLsbD_and]

theorem exists_common_iff (ha : Plain a) (hb : Plain b) (hsize : a.getSize = b.getSize)
    (hclean : ∀ w ∈ a.m_data, Clean w)
    (hpad : ∀ i, a.getSize ≤ i → i < VALUE_SIZE * a.getDataSize → a.get i = .ok false) :
    hits a.m_data b.m_data = true ↔
      ∃ i < a.getSize, a.get i = .ok true ∧ b.get i = .ok true := by
  have hlen : a.m_data.length = b.m_data.length := by rw [ha.2, hb.2]; exact congrArg _ hsize
  have hdata : (a.common b).getDataSize = a.getDataSize := by
    rw [getDataSize, (ha.common hb hsize).2]
    exact ha.2.symm
  have hbits := exists_get_iff (ha.common hb hsize) (clean_common hclean) fun i hlo hhi => by
    rw [hdata] at hhi
    obtain ⟨x, y, hx, -, hxy⟩ := get_common hlen (i := i) (Nat.div_lt_of_lt_mul hhi)
    obtain rfl := Except.ok.inj ((hpad i hlo hhi).symm.trans hx)
    exact hxy
  have hhits : hits a.m_data b.m_data = true ↔ ∃ w ∈ (a.common b).m_data, w ≠ 0#16 := by
    rw [hits, List.any_eq_true]
    simp only [bne_iff_ne]
    rfl
  rw [hhits, ← hbits]
  refine exists_congr fun i => and_congr_right fun hi => ?_
  obtain ⟨x, y, hx, hy, hxy⟩ := get_common hlen (i := i) (by rw [ha.2]; exact index_lt_wordsFor hi)
  rw [hx, hy, hxy, Except.ok.injEq, Except.ok.injEq, Except.ok.injEq, Bool.and_eq_true]

end Common

/-- `cross` with `b` and with `*b.compress()` both say whether there is a bit in common. -/
theorem cross_iff_common_bit (a b : Bitmap) (ha : Plain a) (hb : Plain b)
    (hsize : a.getSize = b.getSize) (hca : ∀ w ∈ a.m_data, Clean w) (hcb : ∀ w ∈ b.m_data, Clean w)
    (hpad : ∀ i, a.getSize ≤ i → i < VALUE_SIZE * a.getDataSize → a.get i = .ok false)
    (hbound : 14 * b.getDataSize < 2 ^ 32) :
    ∃ c r, b.compress = .ok c ∧ a.cross b = .ok r ∧ a.cross c = .ok r ∧
      (r = true ↔ ∃ i < a.getSize, a.get i = .ok true ∧ b.get i = .ok true) := by
  have hcomp := compress_eq hb
  have hplain := normalCross_eq ha hb hsize
  have hcompressed := compressCross_eq ha hb hsize hcb hbound hcomp
  refine ⟨_, _, hcomp, ?_, ?_, exists_common_iff ha hb hsize hca hpad⟩
  · rw [cross, ha.1, hb.1]
    exact hplain
  · rw [cross, ha.1]
    exact hcompressed

theorem cross_iff_common_bit_run :
    ∃ c r, compress ⟨false, 40, [0#16, 0#16, 9#16]⟩ = .ok c ∧
      cross ⟨false, 40, [3#16, 0x3FFF#16, 8#16]⟩ ⟨false, 40, [0#16, 0#16, 9#16]⟩ = .ok r ∧
      cross ⟨false, 40, [3#16, 0x3FFF#16, 8#16]⟩ c = .ok r ∧
      (r = true ↔ ∃ i < 40, get ⟨false, 40, [3#16, 0x3FFF#16, 8#16]⟩ i = .ok true ∧
        get ⟨false, 40, [0#16, 0#16, 9#16]⟩ i = .ok true) := by
  have hpad : ∀ i, 40 ≤ i → i < 42 → get ⟨false, 40, [3#16, 0x3FFF#16, 8#16]⟩ i = .ok false := by
    intro i hlo hhi
    interval_cases i <;> rfl
  exact cross_iff_common_bit ⟨false, 40, [3#16, 0x3FFF#16, 8#16]⟩ ⟨false, 40, [0#16, 0#16, 9#16]⟩
    (by decide) (by decide) rfl (by simp [Clean]) (by simp [Clean]) hpad (by norm_num [getDataSize])

end Bitmap

end Sylar
