import Sylar.Proofs.BitmapPositions
import Sylar.Proofs.BitmapResize

/-! When `any` tells whether a bit is set. On a plain bitmap it loses a last word that is full; on
a compressed one it looks at the low byte of each word only, so that a run of zeros may count and
a word with high bits may not. -/

namespace Sylar

open Lib

namespace Bitmap

/-- A count that shows in the low byte of one of its words. -/
def Shows (count : ℕ) : Prop := ∃ k, count / 2 ^ (VALUE_SIZE * k) % 256 ≠ 0

/-- The plain and the compressed bitmap both say whether a bit below the size is set. `null` and
`cnull` say whether their `m_data` is `NULL`, as it may be where there are no words. -/
def AnyRight (b : Bitmap) (null : Bool) : Prop :=
  ∃ c, b.compress = .ok c ∧ ∃ r, b.any null = .ok r ∧
    (r = true ↔ ∃ i < b.getSize, b.get i = .ok true) ∧
    ∀ cnull, (cnull = true → c.getDataSize = 0) → c.any cnull = .ok r

structure AnySafe (b : Bitmap) (null : Bool) : Prop where
  empty : b.getSize = 0 → null = true
  full_last : b.getSize % VALUE_SIZE = 0 → ∀ w, b.m_data.getLast? = some w → w ≠ 0#16 →
    ∃ u ∈ b.m_data.dropLast, u ≠ 0#16
  zeros : (∀ w ∈ b.m_data, w = 0#16) → 2 ≤ b.getDataSize → ¬ Shows (VALUE_SIZE * b.getDataSize)
  shown : (∃ w ∈ b.m_data, w ≠ 0#16) →
    (∃ w ∈ b.m_data, w ≠ COUNT_MASK ∧ w.toNat % 256 ≠ 0) ∨ IsRun b.m_data COUNT_MASK 1 ∨
      ∃ v n, 2 ≤ n ∧ IsRun b.m_data (full v) n ∧ Shows (VALUE_SIZE * n)

theorem toNat_lowByte (w : Word) : (lowByte w).toNat = w.toNat % 256 := by
  rw [lowByte, BitVec.toNat_setWidth, BitVec.toNat_setWidth]
  omega

theorem lowByte_ne_zero (w : Word) : lowByte w ≠ 0#16 ↔ w.toNat % 256 ≠ 0 := by
  rw [ne_eq, ← BitVec.toNat_inj, toNat_lowByte]
  rfl

theorem lowByte_flag (w : Word) : lowByte w &&& COMPRESS_MASK = 0#16 := by
  by_contra h
  have hflag := (flagged_iff _).mp h
  rw [lowByte, BitVec.getLsbD_setWidth, BitVec.getLsbD_setWidth] at hflag
  simp at hflag

theorem toNat_payload (w : Word) : (w &&& COUNT_MASK).toNat = w.toNat % 2 ^ 14 := by
  rw [BitVec.toNat_and]
  exact Nat.and_two_pow_sub_one_eq_mod w.toNat 14

theorem any_compressed {size : ℕ} {data : List Word} {null : Bool} (hnull : null = true → data = []) :
    any ⟨true, size, data⟩ null = .ok (data.any fun w => lowByte w != 0#16) := by
  have hword : (fun w : Word => if lowByte w &&& COMPRESS_MASK ≠ 0#16 then
      lowByte w &&& VALUE_MASK != 0#16 else lowByte w != 0#16) = fun w => lowByte w != 0#16 := by
    funext w
    rw [if_neg (not_not.mpr (lowByte_flag w))]
  cases null with
  | true =>
    rw [hnull rfl]
    rfl
  | false =>
    rw [any]
    simp only [Bool.false_eq_true, if_false, Bool.not_true]
    exact congrArg (fun f => Except.ok (data.any f)) hword

theorem shows_countWords (v : Bool) (c : ℕ) :
    (∃ w ∈ countWords v c, w.toNat % 256 ≠ 0) ↔ Shows c := by
  induction c using Nat.strongRecOn with
  | ind c ih =>
    by_cases hc : c = 0
    · subst hc
      simp [countWords_zero, Shows]
    · obtain ⟨w, hw, -, -, hpay⟩ := countWords_cons v hc
      have hlt : c >>> VALUE_SIZE < c := by
        rw [Nat.shiftRight_eq_div_pow]
        exact Nat.div_lt_self (by omega) (by decide)
      have hlow : w.toNat % 256 = c % 256 := by
        rw [toNat_payload] at hpay
        omega
      rw [hw, List.exists_mem_cons_iff, ih _ hlt, hlow, Nat.shiftRight_eq_div_pow]
      constructor
      · rintro (h | ⟨k, h⟩)
        · exact ⟨0, by simpa using h⟩
        · refine ⟨k + 1, ?_⟩
          rw [Nat.div_div_eq_div_mul, ← pow_add] at h
          rwa [show VALUE_SIZE * (k + 1) = VALUE_SIZE + VALUE_SIZE * k by ring]
      · rintro ⟨k, h⟩
        cases k with
        | zero => exact .inl (by simpa using h)
        | succ k =>
          refine .inr ⟨k, ?_⟩
          rw [Nat.div_div_eq_div_mul, ← pow_add]
          rwa [show VALUE_SIZE + VALUE_SIZE * k = VALUE_SIZE * (k + 1) by ring]

/-- A token whose code has a low byte that is not zero. -/
def Tok.Seen : Tok → Prop
  | .run _ n => Shows (VALUE_SIZE * n)
  | .lit w => w.toNat % 256 ≠ 0

theorem seen_iff (t : Tok) : t.Seen ↔ ∃ w ∈ t.code, w.toNat % 256 ≠ 0 := by
  cases t with
  | run v n => exact (shows_countWords v _).symm
  | lit w => simp [Tok.Seen, Tok.code]

theorem any_code (ts : List Tok) :
    (ts.flatMap Tok.code).any (fun w => lowByte w != 0#16) = true ↔ ∃ t ∈ ts, t.Seen := by
  simp only [List.any_eq_true, List.mem_flatMap, bne_iff_ne, lowByte_ne_zero, seen_iff]
  constructor
  · rintro ⟨w, ⟨t, ht, hw⟩, hlow⟩
    exact ⟨t, ht, w, hw, hlow⟩
  · rintro ⟨t, ht, w, hw, hlow⟩
    exact ⟨w, ⟨t, ht, hw⟩, hlow⟩

theorem low_ne_zero {w : Word} (h : w.toNat % 256 ≠ 0) : w ≠ 0#16 := by
  rintro rfl
  exact h rfl

theorem exists_seen_iff {data : List Word} (hclean : ∀ w ∈ data, Clean w) :
    (∃ t ∈ rle false 0 data, t.Seen) ↔
      (∃ w ∈ data, w ≠ COUNT_MASK ∧ w.toNat % 256 ≠ 0) ∨ IsRun data COUNT_MASK 1 ∨
        ∃ v n, 2 ≤ n ∧ IsRun data (full v) n ∧ Shows (VALUE_SIZE * n) := by
  have hfrom : ∀ t, t ∈ rle false 0 data ↔ t.From data := fun t => mem_rle data hclean false 0
  simp only [hfrom]
  constructor
  · rintro ⟨t, ht, hseen⟩
    cases t with
    | run v n => exact .inr (.inr ⟨v, n, ht.1, ht.2, hseen⟩)
    | lit w =>
      rcases ht with ⟨hw, hk⟩ | ⟨v, rfl, hrun⟩
      · refine .inl ⟨w, hw, ?_, hseen⟩
        rintro rfl
        exact absurd hk (by decide)
      · cases v with
        | true => exact .inr (.inl hrun)
        | false => exact absurd rfl hseen
  · rintro (⟨w, hw, hne, hlow⟩ | hrun | ⟨v, n, hn, hrun, hshows⟩)
    · refine ⟨.lit w, .inl ⟨hw, ?_⟩, hlow⟩
      cases hk : kind w with
      | none => rfl
      | some v =>
        have hfull : w = full v := by rw [← kind_some hk, (hclean w hw).and_mask]
        cases v with
        | true => exact absurd hfull hne
        | false => exact absurd hfull (low_ne_zero hlow)
    · exact ⟨.lit COUNT_MASK, .inr ⟨true, rfl, hrun⟩, by unfold Tok.Seen; decide⟩
    · exact ⟨.run v n, ⟨hn, hrun⟩, hshows⟩

theorem exists_seen_zeros {data : List Word} (hzero : ∀ w ∈ data, w = 0#16) :
    (∃ t ∈ rle false 0 data, t.Seen) ↔ 2 ≤ data.length ∧ Shows (VALUE_SIZE * data.length) := by
  have hdata : data = List.replicate data.length (full false) := List.eq_replicate_iff.mpr ⟨rfl, hzero⟩
  have hclean : ∀ w ∈ data, Clean w := fun w hw => hzero w hw ▸ clean_full false
  rw [exists_seen_iff hclean]
  constructor
  · rintro (⟨w, hw, -, hlow⟩ | hrun | ⟨v, n, hn, hrun, hshows⟩)
    · exact absurd (hzero w hw) (low_ne_zero hlow)
    · rw [hdata] at hrun
      exact absurd (isRun_replicate.mp hrun).1 (by decide)
    · rw [hdata] at hrun
      obtain ⟨-, rfl, -⟩ := isRun_replicate.mp hrun
      exact ⟨hn, hshows⟩
  · rintro ⟨hn, hshows⟩
    have hrun : IsRun (List.replicate data.length (full false)) (full false) data.length :=
      isRun_replicate.mpr ⟨rfl, rfl, by omega⟩
    rw [← hdata] at hrun
    exact .inr (.inr ⟨false, data.length, hn, hrun, hshows⟩)

theorem anyLoop_eq (n : ℕ) : ∀ ws : List Word, n ≤ ws.length →
    anyLoop n ws = .ok ((ws.take n).any (· != 0#16)) := by
  induction n with
  | zero => intro ws _; rfl
  | succ n ih =>
    intro ws hn
    cases ws with
    | nil => simp at hn
    | cons w ws =>
      rw [anyLoop, ih ws (by simpa using hn), List.take_succ_cons, List.any_cons]
      by_cases hw : w = 0#16
      · simp [hw]
      · simp [hw]

theorem anyLoop_nil {n : ℕ} (hn : n ≠ 0) : anyLoop n [] = .error .outOfBounds := by
  cases n with
  | zero => exact absurd rfl hn
  | succ n => rfl

theorem any_nil {size : ℕ} : any ⟨false, size, []⟩ false = .error .outOfBounds := by
  rw [any, if_neg Bool.false_ne_true]
  simp only [Bool.not_false, if_true, List.length_nil]
  rw [anyLoop_nil (by decide)]
  rfl

theorem Clean.lt_of_bit {w : Word} (h : Clean w) {i : ℕ} (hi : w.getLsbD i = true) :
    i < VALUE_SIZE := by
  by_contra hge
  by_cases hlt : i < 16
  · obtain rfl | rfl : i = 14 ∨ i = 15 := by unfold VALUE_SIZE at hge; omega
    · exact Bool.false_ne_true (h.1.symm.trans hi)
    · exact Bool.false_ne_true (h.2.symm.trans hi)
  · rw [BitVec.getLsbD_of_ge _ _ (by omega)] at hi
    exact Bool.false_ne_true hi

theorem exists_bit {w : Word} (h : w ≠ 0#16) : ∃ i, w.getLsbD i = true := by
  by_contra hnone
  refine h (BitVec.eq_of_getLsbD_eq fun i _ => ?_)
  rw [BitVec.getLsbD_zero]
  exact Bool.eq_false_iff.mpr fun hi => hnone ⟨i, hi⟩

section Plain

variable {b : Bitmap}

/-- A bit of a clean word below the size, where no bit beyond is set. -/
theorem exists_get_iff (hb : Plain b) (hclean : ∀ w ∈ b.m_data, Clean w)
    (hpad : ∀ i, b.getSize ≤ i → i < VALUE_SIZE * b.getDataSize → b.get i = .ok false) :
    (∃ i < b.getSize, b.get i = .ok true) ↔ ∃ w ∈ b.m_data, w ≠ 0#16 := by
  constructor
  · rintro ⟨i, hi, hget⟩
    have hlt : i / VALUE_SIZE < b.m_data.length := by
      rw [hb.2]
      exact index_lt_wordsFor hi
    refine ⟨_, List.getElem_mem hlt, fun h0 => ?_⟩
    rw [get_eq (List.getElem?_eq_getElem hlt), h0, BitVec.getLsbD_zero] at hget
    cases hget
  · rintro ⟨w, hw, hne⟩
    obtain ⟨k, hk⟩ := List.getElem?_of_mem hw
    obtain ⟨i, hbit⟩ := exists_bit hne
    have hi : i < VALUE_SIZE := (hclean w hw).lt_of_bit hbit
    have hget : b.get (0 + VALUE_SIZE * k + i) = .ok true := (spells_get k w hk i hi).mp hbit
    refine ⟨_, ?_, hget⟩
    by_contra hge
    have hlt : k < b.getDataSize := (List.getElem?_eq_some_iff.mp hk).1
    rw [hpad _ (by omega) (by unfold VALUE_SIZE at *; omega)] at hget
    cases hget

theorem any_plain (hb : Plain b) (hsize : b.getSize < 2 ^ 32) (hclean : ∀ w ∈ b.m_data, Clean w)
    (hpad : ∀ i, b.getSize ≤ i → i < VALUE_SIZE * b.getDataSize → b.get i = .ok false) {last : Word}
    (hlast : b.m_data.getLast? = some last) :
    ∃ r, b.any false = .ok r ∧
      (r = true ↔ (∃ u ∈ b.m_data.dropLast, u ≠ 0#16) ∨ b.getSize % VALUE_SIZE ≠ 0 ∧ last ≠ 0#16) := by
  have hne : b.m_data ≠ [] := by
    rintro h
    rw [h] at hlast
    cases hlast
  have hpos := List.length_pos_iff.mpr hne
  have hidx : (b.m_data.length + (2 ^ 32 - 1)) % 2 ^ 32 = b.m_data.length - 1 := by
    have hlen : b.m_data.length = wordsFor b.m_size := hb.2
    unfold getSize at hsize
    unfold wordsFor VALUE_SIZE at hlen
    omega
  have hword : b.m_data[b.m_data.length - 1]? = some last := by
    rw [← List.getLast?_eq_getElem?, hlast]
  have hmask : last &&& MASK (b.m_size % VALUE_SIZE) ≠ 0#16 ↔
      b.getSize % VALUE_SIZE ≠ 0 ∧ last ≠ 0#16 := by
    have hmod : b.m_size % VALUE_SIZE < 14 := Nat.mod_lt _ (by decide)
    by_cases hleft : b.m_size % VALUE_SIZE = 0
    · -- the mask is empty
      have h0 : last &&& MASK 0 = 0#16 := BitVec.and_zero
      rw [hleft, h0]
      simp [getSize, hleft]
    · have hsame : last &&& MASK (b.m_size % VALUE_SIZE) = last := by
        apply BitVec.eq_of_getLsbD_eq
        intro i hi
        rw [BitVec.getLsbD_and]
        by_cases hbit : last.getLsbD i = true
        · have h14 : i < 14 := by
            by_contra hge
            have hcl := hclean last (List.mem_of_getElem? hword)
            obtain rfl | rfl : i = 14 ∨ i = 15 := by omega
            · exact Bool.false_ne_true (hcl.1.symm.trans hbit)
            · exact Bool.false_ne_true (hcl.2.symm.trans hbit)
          have hget : b.get (0 + VALUE_SIZE * (b.m_data.length - 1) + i) = .ok true :=
            (spells_get _ last hword i h14).mp hbit
          have hlt : i < b.m_size % VALUE_SIZE := by
            by_contra hge
            have hlen : b.m_data.length = wordsFor b.m_size := hb.2
            rw [hpad _ (by unfold getSize; unfold wordsFor VALUE_SIZE at *; omega)
              (by unfold getDataSize VALUE_SIZE at *; omega)] at hget
            cases hget
          rw [getLsbD_MASK hmod h14, decide_eq_true hlt, Bool.and_true]
        · rw [Bool.eq_false_iff.mpr hbit, Bool.false_and]
      rw [hsame, and_iff_right (show b.getSize % VALUE_SIZE ≠ 0 from hleft)]
  have htake : b.m_data.take (b.m_data.length - 1) = b.m_data.dropLast := List.dropLast_eq_take.symm
  refine ⟨b.m_data.dropLast.any (· != 0#16) || (last &&& MASK (b.m_size % VALUE_SIZE) != 0#16),
    ?_, ?_⟩
  · rw [any, if_neg Bool.false_ne_true, hb.1]
    simp only [Bool.not_false, if_true, hidx, anyLoop_eq _ _ (Nat.sub_le _ 1), htake, hword]
    change (if b.m_data.dropLast.any (· != 0#16) = true then Except.ok true else _) = _
    cases b.m_data.dropLast.any (· != 0#16) <;> rfl
  · rw [Bool.or_eq_true, List.any_eq_true, bne_iff_ne, hmask]
    simp only [bne_iff_ne]

theorem seen_right_iff (hclean : ∀ w ∈ b.m_data, Clean w) :
    ((∃ t ∈ rle false 0 b.m_data, t.Seen) ↔ ∃ w ∈ b.m_data, w ≠ 0#16) ↔
      ((∀ w ∈ b.m_data, w = 0#16) → 2 ≤ b.getDataSize → ¬ Shows (VALUE_SIZE * b.getDataSize)) ∧
      ((∃ w ∈ b.m_data, w ≠ 0#16) → (∃ w ∈ b.m_data, w ≠ COUNT_MASK ∧ w.toNat % 256 ≠ 0) ∨
        IsRun b.m_data COUNT_MASK 1 ∨ ∃ v n, 2 ≤ n ∧ IsRun b.m_data (full v) n ∧ Shows (VALUE_SIZE * n)) := by
  by_cases hT : ∃ w ∈ b.m_data, w ≠ 0#16
  · rw [iff_true_right hT, exists_seen_iff hclean]
    refine ⟨fun h => ⟨fun hzero => ?_, fun _ => h⟩, fun h => h.2 hT⟩
    obtain ⟨w, hw, hne⟩ := hT
    exact absurd (hzero w hw) hne
  · have hzero : ∀ w ∈ b.m_data, w = 0#16 := fun w hw => by_contra fun hne => hT ⟨w, hw, hne⟩
    rw [iff_false_right hT, exists_seen_zeros hzero, not_and]
    exact ⟨fun h => ⟨fun _ => h, fun h' => absurd h' hT⟩, fun h => h.1 hzero⟩

theorem plain_right_iff {last : Word} (hlast : b.m_data.getLast? = some last) :
    ((∃ u ∈ b.m_data.dropLast, u ≠ 0#16) ∨ b.getSize % VALUE_SIZE ≠ 0 ∧ last ≠ 0#16 ↔
      ∃ w ∈ b.m_data, w ≠ 0#16) ↔
    (b.getSize % VALUE_SIZE = 0 → ∀ w, b.m_data.getLast? = some w → w ≠ 0#16 →
      ∃ u ∈ b.m_data.dropLast, u ≠ 0#16) := by
  have hsplit : b.m_data = b.m_data.dropLast ++ [last] := (List.dropLast_append_getLast? last hlast).symm
  have hall : (∃ w ∈ b.m_data, w ≠ 0#16) ↔ (∃ u ∈ b.m_data.dropLast, u ≠ 0#16) ∨ last ≠ 0#16 := by
    conv_lhs => rw [hsplit]
    simp only [List.mem_append, List.mem_singleton, or_and_right, exists_or, exists_eq_left]
  rw [hall]
  constructor
  · intro h hleft w hw hne
    obtain rfl := Option.some.inj (hlast.symm.trans hw)
    rcases h.mpr (.inr hne) with hearlier | ⟨hleft', -⟩
    · exact hearlier
    · exact absurd hleft hleft'
  · intro h
    refine ⟨fun h' => h'.imp_right And.right, ?_⟩
    rintro (hearlier | hne)
    · exact .inl hearlier
    · by_cases hleft : b.getSize % VALUE_SIZE = 0
      · exact .inl (h hleft last hlast hne)
      · exact .inr ⟨hleft, hne⟩

end Plain

/-- `any` is right on a clean bitmap and its compressed form exactly if the bits it overlooks and
the counts it takes for bits make no difference. -/
theorem anyRight_iff_anySafe (b : Bitmap) (hb : Plain b) (hsize : b.getSize < 2 ^ 32)
    (hclean : ∀ w ∈ b.m_data, Clean w)
    (hpad : ∀ i, b.getSize ≤ i → i < VALUE_SIZE * b.getDataSize → b.get i = .ok false) (null : Bool)
    (hnull : null = true → b.getDataSize = 0) : b.AnyRight null ↔ b.AnySafe null := by
  have hcomp := compress_eq hb
  have hbits := exists_get_iff hb hclean hpad
  have hseen := any_code (rle false 0 b.m_data)
  set code := (rle false 0 b.m_data).flatMap Tok.code with hcode
  have hcany : ∀ cnull, (cnull = true → (Bitmap.mk true b.m_size code).getDataSize = 0) →
      any ⟨true, b.m_size, code⟩ cnull = .ok (code.any fun w => lowByte w != 0#16) := fun cnull hc =>
    any_compressed fun h => List.eq_nil_of_length_eq_zero (hc h)
  by_cases h0 : b.getSize = 0
  · have hdata : b.m_data = [] := by
      rw [← List.length_eq_zero_iff, hb.2]
      exact wordsFor_eq_zero.mpr h0
    cases null with
    | true =>
      refine iff_of_true ⟨_, hcomp, false, by rw [any, if_pos rfl], ?_, fun cnull hc => ?_⟩ ?_
      · rw [hbits, hdata]
        simp
      · rw [hcany cnull hc, hcode, hdata]
        rfl
      · exact
          { empty := fun _ => rfl
            full_last := fun _ w hw => by rw [hdata] at hw; cases hw
            zeros := fun _ hn => by rw [getDataSize, hdata] at hn; simp at hn
            shown := fun ⟨w, hw, _⟩ => by rw [hdata] at hw; cases hw }
    | false =>
      refine iff_of_false ?_ fun h => Bool.false_ne_true (h.empty h0)
      rintro ⟨c, -, r, hr, -⟩
      rw [show b = ⟨false, b.m_size, []⟩ by rw [← hdata, ← hb.1], any_nil] at hr
      cases hr
  · obtain ⟨last, hlast⟩ : ∃ w, b.m_data.getLast? = some w := by
      have hne : b.m_data ≠ [] := by
        intro hnil
        have hlen := hb.2
        rw [hnil] at hlen
        exact h0 (wordsFor_eq_zero.mp hlen.symm)
      exact ⟨_, List.getLast?_eq_getLast_of_ne_nil hne⟩
    obtain rfl : null = false := by
      cases null with
      | false => rfl
      | true => exact absurd (wordsFor_eq_zero.mp (hb.2.symm.trans (hnull rfl))) h0
    obtain ⟨r, hany, hr⟩ := any_plain hb hsize hclean hpad hlast
    have hplain := plain_right_iff hlast
    have hcompressed := seen_right_iff (b := b) hclean
    constructor
    · rintro ⟨c, hc, r', hr', htrue, hagree⟩
      obtain rfl := Except.ok.inj (hcomp.symm.trans hc)
      obtain rfl := Except.ok.inj (hany.symm.trans hr')
      rw [hbits] at htrue
      have hcode' := hcany false (fun h => absurd h Bool.false_ne_true)
      have heq := Except.ok.inj (hcode'.symm.trans (hagree false fun h => absurd h Bool.false_ne_true))
      obtain ⟨hzeros, hshown⟩ := hcompressed.mp (by rw [← hseen, heq]; exact htrue)
      exact ⟨fun h => absurd h h0, hplain.mp (hr.symm.trans htrue), hzeros, hshown⟩
    · rintro ⟨-, hfull, hzeros, hshown⟩
      have htrue := hr.trans (hplain.mpr hfull)
      refine ⟨_, hcomp, r, hany, htrue.trans hbits.symm, fun cnull hc => ?_⟩
      rw [hcany cnull hc]
      have hiff := hseen.trans ((hcompressed.mpr ⟨hzeros, hshown⟩).trans htrue.symm)
      exact congrArg Except.ok (Bool.eq_iff_iff.mpr hiff)

theorem anyRight_iff_anySafe_word :
    AnyRight ⟨false, 20, [5#16, 3#16]⟩ false ↔ AnySafe ⟨false, 20, [5#16, 3#16]⟩ false := by
  have hpad : ∀ i, 20 ≤ i → i < 28 → get ⟨false, 20, [5#16, 3#16]⟩ i = .ok false := by
    intro i hlo hhi
    interval_cases i <;> rfl
  have hclean : ∀ w ∈ [5#16, 3#16], Clean w := by simp [Clean]
  exact anyRight_iff_anySafe ⟨false, 20, [5#16, 3#16]⟩ (by decide) (by norm_num [getSize]) hclean hpad
    false fun h => absurd h Bool.false_ne_true

/-- A bitmap of one whole word, with its first bit set. -/
theorem not_anyRight_full_word :
    Plain ⟨false, 14, [1#16]⟩ ∧ Clean 1#16 ∧ ¬ AnyRight ⟨false, 14, [1#16]⟩ false := by
  refine ⟨by decide, by decide, ?_⟩
  rintro ⟨c, -, r, hr, hbits, -⟩
  have hany : any ⟨false, 14, [1#16]⟩ false = .ok false := by decide
  obtain rfl := Except.ok.inj (hany.symm.trans hr)
  exact Bool.false_ne_true (hbits.mpr ⟨0, by decide, by decide⟩)

end Bitmap

end Sylar
