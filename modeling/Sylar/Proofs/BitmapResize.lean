import Sylar.Proofs.BitmapFlags

/-! `resize`. Within the words that are there it leaves every bit as it is, also those that come
into the bitmap, and where it adds words it masks the last one the wrong way round: what it sets
or clears are the bits that were there. -/

namespace Sylar

open Lib

namespace Bitmap

/-- The bits below both sizes stay, and the new ones are `v`. -/
def Resizes (b : Bitmap) (size : ℕ) (v : Bool) : Prop :=
  ∃ b', b.resize size v = .ok b' ∧ b'.getSize = size ∧
    (∀ i < min b.getSize size, b'.get i = b.get i) ∧
    ∀ i, b.getSize ≤ i → i < size → b'.get i = .ok v

/-- Every bit of the last word is `v`, those beyond the size included. -/
def LastIs (b : Bitmap) (v : Bool) : Prop :=
  ∀ i, VALUE_SIZE * (b.getDataSize - 1) ≤ i → i < VALUE_SIZE * b.getDataSize → b.get i = .ok v

def Resizable (b : Bitmap) (size : ℕ) (v : Bool) : Prop :=
  if wordsFor size ≤ b.getDataSize then ∀ i, b.getSize ≤ i → i < size → b.get i = .ok v
  else b.getSize ≠ 0 ∧
    (if v then b.getSize % VALUE_SIZE = 0 ∨ b.LastIs true
      else b.getSize % VALUE_SIZE ≠ 0 ∨ b.LastIs false)

theorem getLsbD_MASK {n i : ℕ} (hn : n < 14) (hi : i < 14) : (MASK n).getLsbD i = decide (i < n) := by
  interval_cases n <;> interval_cases i <;> rfl

theorem memset_bit (v : Bool) {i : ℕ} (hi : i < 14) :
    (if v then memsetWord 0xFF else memsetWord 0).getLsbD i = v := by
  cases v <;> interval_cases i <;> rfl

theorem get_of_index {b c : Bitmap} {i : ℕ} (h : b.m_data[i / VALUE_SIZE]? = c.m_data[i / VALUE_SIZE]?) :
    b.get i = c.get i := by
  unfold get
  rw [h]

theorem index_last {d i : ℕ} (hlo : VALUE_SIZE * (d - 1) ≤ i) (hhi : i < VALUE_SIZE * d) :
    i / VALUE_SIZE = d - 1 := by
  unfold VALUE_SIZE at *
  omega

section Short

variable {b : Bitmap} {size : ℕ} {v : Bool}

theorem resize_short (hb : Plain b) (h : wordsFor size ≤ b.getDataSize) :
    b.resize size v = .ok { b with m_size := size, m_data := b.m_data.take (wordsFor size) } := by
  rw [resize, hb.1, if_neg Bool.false_ne_true]
  exact if_neg (Nat.not_lt.mpr h)

theorem resizes_short (hb : Plain b) (h : wordsFor size ≤ b.getDataSize) :
    b.Resizes size v ↔ ∀ i, b.getSize ≤ i → i < size → b.get i = .ok v := by
  have hresize := resize_short (v := v) hb h
  have hget : ∀ i < size, get { b with m_size := size, m_data := b.m_data.take (wordsFor size) } i =
      b.get i := by
    intro i hi
    exact get_of_index (List.getElem?_take_of_lt (index_lt_wordsFor hi))
  constructor
  · rintro ⟨b', hb', -, -, hnew⟩ i hlo hhi
    obtain rfl := Except.ok.inj (hresize.symm.trans hb')
    exact (hget i hhi).symm.trans (hnew i hlo hhi)
  · intro h
    exact ⟨_, hresize, rfl, fun i hi => hget i (by omega), fun i hlo hhi =>
      (hget i hhi).trans (h i hlo hhi)⟩

end Short

section Grow

variable {b : Bitmap} {size : ℕ} {v : Bool}

def maskLast (b : Bitmap) (v : Bool) (w : Word) : Word :=
  if v then w ||| MASK (b.m_size % VALUE_SIZE) else w &&& MASK (b.m_size % VALUE_SIZE)

theorem maskLast_bit (b : Bitmap) (v : Bool) (w : Word) {i : ℕ} (hi : i < 14) :
    (b.maskLast v w).getLsbD i =
      if i < b.m_size % VALUE_SIZE then (if v then true else w.getLsbD i)
      else (if v then w.getLsbD i else false) := by
  have hmod : b.m_size % VALUE_SIZE < 14 := Nat.mod_lt _ (by decide)
  unfold maskLast
  by_cases hlt : i < b.m_size % VALUE_SIZE
  · cases v <;> simp [getLsbD_MASK hmod hi, hlt]
  · cases v <;> simp [getLsbD_MASK hmod hi, hlt]

theorem resize_grow_nil (hb : Plain b) (hsize : size < 2 ^ 32) (h0 : b.getSize = 0)
    (h : ¬ wordsFor size ≤ b.getDataSize) : b.resize size v = .error .outOfBounds := by
  have hdata : b.m_data = [] := by
    rw [← List.length_eq_zero_iff, hb.2]
    exact wordsFor_eq_zero.mpr h0
  have hmore : wordsFor size > b.m_data.length := Nat.lt_of_not_le h
  rw [resize, hb.1, if_neg Bool.false_ne_true]
  dsimp only
  rw [if_pos hmore, hdata, store]
  have hnone : ([] ++ List.replicate (wordsFor size - ([] : List Word).length)
      (if v then memsetWord 0xFF else memsetWord 0))[(([] : List Word).length + (2 ^ 32 - 1)) % 2 ^ 32]? =
        none := by
    refine List.getElem?_eq_none ?_
    rw [List.nil_append, List.length_replicate, List.length_nil]
    unfold wordsFor VALUE_SIZE
    omega
  rw [hnone]
  rfl

/-- The bitmap after a growing resize: the last of the old words masked, the new ones filled. -/
def grown (b : Bitmap) (size : ℕ) (v : Bool) (w : Word) : Bitmap :=
  { b with
    m_size := size
    m_data := (b.m_data ++ List.replicate (wordsFor size - b.m_data.length)
      (if v then memsetWord 0xFF else memsetWord 0)).set (b.getDataSize - 1) (b.maskLast v w) }

theorem resize_grow (hb : Plain b) (hsize : b.getSize < 2 ^ 32) (h : ¬ wordsFor size ≤ b.getDataSize)
    {w : Word} (hw : b.m_data[b.getDataSize - 1]? = some w) :
    b.resize size v = .ok (b.grown size v w) := by
  have hlt : b.getDataSize - 1 < b.m_data.length := (List.getElem?_eq_some_iff.mp hw).1
  have hidx : (b.m_data.length + (2 ^ 32 - 1)) % 2 ^ 32 = b.getDataSize - 1 := by
    have hlen : b.m_data.length = wordsFor b.m_size := hb.2
    unfold getDataSize getSize at *
    unfold wordsFor VALUE_SIZE at hlen
    omega
  have hmore : wordsFor size > b.m_data.length := Nat.lt_of_not_le h
  rw [resize, hb.1, if_neg Bool.false_ne_true]
  dsimp only
  rw [if_pos hmore, hidx, store, List.getElem?_append_left hlt, hw]
  change Except.ok _ = Except.ok (Bitmap.mk b.m_compress _ _)
  rw [hb.1]
  rfl

theorem exists_last (hb : Plain b) (h0 : b.getSize ≠ 0) : ∃ w, b.m_data[b.getDataSize - 1]? = some w := by
  have hpos : b.m_data.length ≠ 0 := by
    rw [hb.2]
    exact fun heq => h0 (wordsFor_eq_zero.mp heq)
  exact ⟨_, List.getElem?_eq_getElem (Nat.sub_lt (Nat.pos_of_ne_zero hpos) Nat.one_pos)⟩

theorem resize_ok (hb : Plain b) (hold : b.getSize < 2 ^ 32) (hsize : size < 2 ^ 32) {b' : Bitmap}
    (h : b.resize size v = .ok b') :
    wordsFor size ≤ b.getDataSize ∧
        b' = { b with m_size := size, m_data := b.m_data.take (wordsFor size) } ∨
      ¬ wordsFor size ≤ b.getDataSize ∧ ∃ w, b.m_data[b.getDataSize - 1]? = some w ∧
        b' = b.grown size v w := by
  by_cases hshort : wordsFor size ≤ b.getDataSize
  · exact .inl ⟨hshort, Except.ok.inj (h.symm.trans (resize_short hb hshort))⟩
  · by_cases h0 : b.getSize = 0
    · rw [resize_grow_nil hb hsize h0 hshort] at h
      cases h
    · obtain ⟨w, hw⟩ := exists_last hb h0
      exact .inr ⟨hshort, w, hw, Except.ok.inj (h.symm.trans (resize_grow hb hold hshort hw))⟩

variable {w : Word} {i : ℕ}

theorem get_grown_before (hw : b.m_data[b.getDataSize - 1]? = some w)
    (hi : i < VALUE_SIZE * (b.getDataSize - 1)) : (b.grown size v w).get i = b.get i := by
  have hlt : i / VALUE_SIZE < b.getDataSize - 1 := Nat.div_lt_of_lt_mul hi
  refine get_of_index ?_
  rw [grown, List.getElem?_set_ne hlt.ne',
    List.getElem?_append_left (hlt.trans (List.getElem?_eq_some_iff.mp hw).1)]

theorem get_last (hw : b.m_data[b.getDataSize - 1]? = some w) (hlo : VALUE_SIZE * (b.getDataSize - 1) ≤ i)
    (hhi : i < VALUE_SIZE * b.getDataSize) : b.get i = .ok (w.getLsbD (i % VALUE_SIZE)) :=
  get_eq (by rw [index_last hlo hhi]; exact hw)

theorem get_grown_last (hw : b.m_data[b.getDataSize - 1]? = some w)
    (hlo : VALUE_SIZE * (b.getDataSize - 1) ≤ i) (hhi : i < VALUE_SIZE * b.getDataSize) :
    (b.grown size v w).get i = .ok ((b.maskLast v w).getLsbD (i % VALUE_SIZE)) := by
  have hlt := (List.getElem?_eq_some_iff.mp hw).1
  refine get_eq ?_
  rw [index_last hlo hhi, grown, List.getElem?_set_self]
  rw [List.length_append]
  omega

theorem get_grown_after (hw : b.m_data[b.getDataSize - 1]? = some w)
    (hlo : VALUE_SIZE * b.getDataSize ≤ i) (hhi : i < size) :
    (b.grown size v w).get i = .ok v := by
  have hge : b.m_data.length ≤ i / VALUE_SIZE := by
    rw [Nat.le_div_iff_mul_le (by decide), Nat.mul_comm]
    exact hlo
  have hlt : i / VALUE_SIZE < wordsFor size := index_lt_wordsFor hhi
  have hmod : i % VALUE_SIZE < 14 := Nat.mod_lt _ (by decide)
  have hne : b.getDataSize - 1 ≠ i / VALUE_SIZE := by
    have hlt' := (List.getElem?_eq_some_iff.mp hw).1
    omega
  rw [get_eq (w := if v then memsetWord 0xFF else memsetWord 0), memset_bit v hmod]
  rw [grown, List.getElem?_set_ne hne, List.getElem?_append_right hge, List.getElem?_replicate,
    if_pos (by omega)]

theorem lastIs_iff (hw : b.m_data[b.getDataSize - 1]? = some w) (u : Bool) :
    b.LastIs u ↔ ∀ i, VALUE_SIZE * (b.getDataSize - 1) ≤ i → i < VALUE_SIZE * b.getDataSize →
      w.getLsbD (i % VALUE_SIZE) = u := by
  constructor
  · intro h i hlo hhi
    exact Except.ok.inj ((get_last hw hlo hhi).symm.trans (h i hlo hhi))
  · intro h i hlo hhi
    rw [get_last hw hlo hhi, h i hlo hhi]

theorem resizes_iff_last (hb : Plain b) (hsize : b.getSize < 2 ^ 32) (h : ¬ wordsFor size ≤ b.getDataSize)
    (hw : b.m_data[b.getDataSize - 1]? = some w) :
    b.Resizes size v ↔ ∀ i, VALUE_SIZE * (b.getDataSize - 1) ≤ i → i < VALUE_SIZE * b.getDataSize →
      (b.maskLast v w).getLsbD (i % VALUE_SIZE) =
        if i < b.getSize then w.getLsbD (i % VALUE_SIZE) else v := by
  have hlen : b.getDataSize = wordsFor b.getSize := hb.2
  have hbounds : VALUE_SIZE * (b.getDataSize - 1) ≤ b.getSize ∧ b.getSize ≤ VALUE_SIZE * b.getDataSize ∧
      VALUE_SIZE * b.getDataSize < size := by
    rw [hlen] at h ⊢
    unfold wordsFor VALUE_SIZE at *
    omega
  obtain ⟨hfirst, hend, hmore⟩ := hbounds
  have hresize := resize_grow (v := v) hb hsize h hw
  constructor
  · rintro ⟨r, hr, -, hold, hnew⟩ i hlo hhi
    obtain rfl := Except.ok.inj (hresize.symm.trans hr)
    have hget : (b.grown size v w).get i = .ok _ := get_grown_last hw hlo hhi
    split
    · next hi =>
      exact Except.ok.inj (hget.symm.trans ((hold i (by omega)).trans (get_last hw hlo hhi)))
    · next hi =>
      exact Except.ok.inj (hget.symm.trans (hnew i (by omega) (by omega)))
  · intro hbits
    refine ⟨_, hresize, rfl, fun i hi => ?_, fun i hlo hhi => ?_⟩
    · by_cases hword : i < VALUE_SIZE * (b.getDataSize - 1)
      · exact get_grown_before hw hword
      · rw [get_last hw (by omega) (by omega), get_grown_last hw (by omega) (by omega),
          hbits i (by omega) (by omega), if_pos (by omega)]
    · by_cases hword : VALUE_SIZE * b.getDataSize ≤ i
      · exact get_grown_after hw hword hhi
      · rw [get_grown_last hw (by omega) (by omega), hbits i (by omega) (by omega), if_neg (by omega)]

/-- A place of the last word is in the bitmap if the mask has it, or is empty. -/
theorem lt_size_iff (hb : Plain b) (hlo : VALUE_SIZE * (b.getDataSize - 1) ≤ i)
    (hhi : i < VALUE_SIZE * b.getDataSize) :
    i < b.getSize ↔ b.getSize % VALUE_SIZE = 0 ∨ i % VALUE_SIZE < b.getSize % VALUE_SIZE := by
  have hlen : b.getDataSize = wordsFor b.getSize := hb.2
  rw [hlen] at hlo hhi
  unfold wordsFor VALUE_SIZE at *
  omega

theorem resizes_grow (hb : Plain b) (hsize : b.getSize < 2 ^ 32) (h0 : b.getSize ≠ 0)
    (h : ¬ wordsFor size ≤ b.getDataSize) :
    b.Resizes size v ↔ if v then b.getSize % VALUE_SIZE = 0 ∨ b.LastIs true
      else b.getSize % VALUE_SIZE ≠ 0 ∨ b.LastIs false := by
  obtain ⟨w, hw⟩ := exists_last hb h0
  have hmod : ∀ i, i % VALUE_SIZE < 14 := fun i => Nat.mod_lt _ (by decide)
  have hm : b.m_size = b.getSize := rfl
  rw [resizes_iff_last hb hsize h hw]
  by_cases hleft : b.getSize % VALUE_SIZE = 0
  · -- the last word is full, and its mask empty
    have hiff : ∀ i, VALUE_SIZE * (b.getDataSize - 1) ≤ i → i < VALUE_SIZE * b.getDataSize →
        ((b.maskLast v w).getLsbD (i % VALUE_SIZE) =
          (if i < b.getSize then w.getLsbD (i % VALUE_SIZE) else v) ↔
        (if v then w.getLsbD (i % VALUE_SIZE) else false) = w.getLsbD (i % VALUE_SIZE)) := by
      intro i hlo hhi
      rw [maskLast_bit b v w (hmod i), hm, hleft, if_neg (Nat.not_lt_zero _),
        if_pos ((lt_size_iff hb hlo hhi).mpr (.inl hleft))]
    cases v with
    | true =>
      refine iff_of_true (fun i hlo hhi => (hiff i hlo hhi).mpr rfl) ?_
      rw [if_pos rfl]
      exact .inl hleft
    | false =>
      rw [if_neg Bool.false_ne_true, lastIs_iff hw, or_iff_right (not_not.mpr hleft)]
      refine forall_congr' fun i => forall_congr' fun hlo => forall_congr' fun hhi => ?_
      exact (hiff i hlo hhi).trans eq_comm
  · have hiff : ∀ i, VALUE_SIZE * (b.getDataSize - 1) ≤ i → i < VALUE_SIZE * b.getDataSize →
        ((b.maskLast v w).getLsbD (i % VALUE_SIZE) =
          (if i < b.getSize then w.getLsbD (i % VALUE_SIZE) else v) ↔
        v = true → w.getLsbD (i % VALUE_SIZE) = true) := by
      intro i hlo hhi
      have hi := lt_size_iff hb hlo hhi
      rw [or_iff_right hleft] at hi
      rw [maskLast_bit b v w (hmod i), hm]
      by_cases hlt : i % VALUE_SIZE < b.getSize % VALUE_SIZE
      · rw [if_pos hlt, if_pos (hi.mpr hlt)]
        cases v with
        | true => exact ⟨fun h _ => h.symm, fun h => (h rfl).symm⟩
        | false => simp
      · rw [if_neg hlt, if_neg fun h => hlt (hi.mp h)]
        cases v <;> simp
    cases v with
    | true =>
      rw [if_pos rfl, lastIs_iff hw, or_iff_right hleft]
      refine forall_congr' fun i => forall_congr' fun hlo => forall_congr' fun hhi => ?_
      rw [hiff i hlo hhi]
      exact ⟨fun h => h rfl, fun h _ => h⟩
    | false =>
      refine iff_of_true (fun i hlo hhi => (hiff i hlo hhi).mpr fun h => absurd h Bool.false_ne_true) ?_
      rw [if_neg Bool.false_ne_true]
      exact .inl hleft

end Grow

/-- `resize` keeps the bits and sets the new ones exactly if it finds them so. -/
theorem resizes_iff_resizable (b : Bitmap) (hb : Plain b) (hold : b.getSize < 2 ^ 32) (size : ℕ)
    (hsize : size < 2 ^ 32) (v : Bool) : b.Resizes size v ↔ b.Resizable size v := by
  unfold Resizable
  by_cases h : wordsFor size ≤ b.getDataSize
  · rw [if_pos h]
    exact resizes_short hb h
  · rw [if_neg h]
    by_cases h0 : b.getSize = 0
    · refine iff_of_false ?_ fun hne => hne.1 h0
      rintro ⟨b', hb', -⟩
      rw [resize_grow_nil hb hsize h0 h] at hb'
      cases hb'
    · rw [and_iff_right h0]
      exact resizes_grow hb hold h0 h

theorem resizes_iff_resizable_shrink :
    Resizes ⟨false, 20, [1#16, 5#16]⟩ 16 true ↔ Resizable ⟨false, 20, [1#16, 5#16]⟩ 16 true :=
  resizes_iff_resizable ⟨false, 20, [1#16, 5#16]⟩ (by decide) (by decide) 16 (by decide) true

/-- A full word is cleared when the bitmap grows by zeros. -/
theorem not_resizes_full_word :
    Plain ⟨false, 14, [1#16]⟩ ∧ ¬ Resizes ⟨false, 14, [1#16]⟩ 15 false := by
  refine ⟨by decide, ?_⟩
  rintro ⟨b', hb', -, hold, -⟩
  have hresize : resize ⟨false, 14, [1#16]⟩ 15 false = .ok ⟨false, 15, [0#16, 0#16]⟩ := by decide
  obtain rfl := Except.ok.inj (hresize.symm.trans hb')
  exact absurd (hold 0 (by decide)) (by decide)

end Bitmap

end Sylar
