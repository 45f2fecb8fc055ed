import Sylar.Proofs.BitmapReverse
import Sylar.Spec.BitmapCompare

/-! `operator==` compares whole words, so that bits which are not in the bitmap count: the flag
bits, and those of the last word beyond the size. Bitmaps with the same bits can differ in them,
by how they were filled and resized. -/

namespace Sylar

open Lib

namespace Bitmap

/-- The comparison says whether the sizes and the bits below them are the same. -/
def EqualRight (a b : Bitmap) (same : Bool) : Prop :=
  ∃ r, a.equal b same = .ok r ∧
    (r = true ↔ a.getSize = b.getSize ∧ ∀ i < a.getSize, a.get i = b.get i)

/-- The words have the same bits where these are not bits of the bitmap. -/
def SameTails (a b : Bitmap) : Prop :=
  ∀ k w x, a.m_data[k]? = some w → b.m_data[k]? = some x → ∀ i < 16,
    (i < VALUE_SIZE → a.m_size ≤ VALUE_SIZE * k + i) → w.getLsbD i = x.getLsbD i

def Padded (b : Bitmap) : Prop :=
  ∀ k w, b.m_data[k]? = some w → ∀ i, w.getLsbD i = true →
    i < VALUE_SIZE ∧ VALUE_SIZE * k + i < b.m_size

section Pair

variable {a b : Bitmap}

theorem data_eq_iff (ha : Plain a) (hb : Plain b) (hsize : a.m_size = b.m_size) :
    a.m_data = b.m_data ↔ (∀ i < a.m_size, a.get i = b.get i) ∧ SameTails a b := by
  constructor
  · intro h
    refine ⟨fun i _ => get_of_index (by rw [h]), fun k w x hw hx i _ _ => ?_⟩
    rw [h] at hw
    rw [Option.some.inj (hw.symm.trans hx)]
  · rintro ⟨hbits, htails⟩
    have hlen : a.m_data.length = b.m_data.length := by rw [ha.2, hb.2, hsize]
    refine List.ext_getElem hlen fun k hka hkb => ?_
    have hw := List.getElem?_eq_getElem hka
    have hx := List.getElem?_eq_getElem hkb
    apply BitVec.eq_of_getLsbD_eq
    intro i hi
    by_cases hin : i < VALUE_SIZE ∧ VALUE_SIZE * k + i < a.m_size
    · have hget := hbits _ hin.2
      rw [get_word hw hin.1, get_word hx hin.1] at hget
      exact Except.ok.inj hget
    · exact htails k _ _ hw hx i hi fun hi' => by
        by_contra hlt
        exact hin ⟨hi', by omega⟩

/-- Of two bitmaps the words are compared, and the last word once more. -/
theorem equal_plain (ha : Plain a) (hb : Plain b) (hsize : a.m_size < 2 ^ 32) :
    a.equal b false = .ok (decide (a.m_size = b.m_size ∧ a.m_data = b.m_data)) := by
  have hla : a.m_data.length = wordsFor a.m_size := ha.2
  unfold equal
  rw [if_neg Bool.false_ne_true, ha.1, hb.1]
  by_cases hs : a.m_size = b.m_size
  · have hlen : a.m_data.length = b.m_data.length := by rw [hla, hb.2, hs]
    rw [if_neg (by simp [hs, hlen])]
    by_cases hd : a.m_data = b.m_data
    · rw [if_neg (not_not.mpr hd), decide_eq_true ⟨hs, hd⟩, ← hd]
      dsimp only
      by_cases hleft : a.m_size % VALUE_SIZE = 0
      · rw [if_neg (not_not.mpr hleft)]
      · have hlast : (a.m_data.length + (2 ^ 32 - 1)) % 2 ^ 32 < a.m_data.length := by
          rw [hla]
          unfold wordsFor VALUE_SIZE at *
          omega
        rw [if_pos hleft, List.getElem?_eq_getElem hlast]
        exact congrArg Except.ok (beq_self_eq_true _)
    · rw [if_pos hd, decide_eq_false fun h => hd h.2]
  · rw [if_pos (by simp [hs]), decide_eq_false fun h => hs h.1]

theorem equalRight_iff (ha : Plain a) (hb : Plain b) (hsize : a.m_size < 2 ^ 32) :
    EqualRight a b false ↔
      a.getSize ≠ b.getSize ∨ (∃ i < a.getSize, a.get i ≠ b.get i) ∨ SameTails a b := by
  have hequal := equal_plain ha hb hsize
  by_cases hs : a.getSize = b.getSize
  · have hdata := data_eq_iff ha hb hs
    by_cases hbits : ∀ i < a.getSize, a.get i = b.get i
    · have hnone : ¬ ∃ i < a.getSize, a.get i ≠ b.get i := fun ⟨i, hi, hne⟩ => hne (hbits i hi)
      rw [EqualRight, or_iff_right (not_not.mpr hs), or_iff_right hnone]
      constructor
      · rintro ⟨r, hr, htrue⟩
        obtain rfl := Except.ok.inj (hequal.symm.trans hr)
        exact (hdata.mp (of_decide_eq_true (htrue.mpr ⟨hs, hbits⟩)).2).2
      · intro htails
        refine ⟨_, hequal, iff_of_true ?_ ⟨hs, hbits⟩⟩
        exact decide_eq_true ⟨hs, hdata.mpr ⟨hbits, htails⟩⟩
    · have hsome : ∃ i < a.getSize, a.get i ≠ b.get i := by
        by_contra hnone
        exact hbits fun i hi => by_contra fun hne => hnone ⟨i, hi, hne⟩
      refine iff_of_true ⟨_, hequal, iff_of_false ?_ fun h => hbits h.2⟩ (.inr (.inl hsome))
      rw [decide_eq_true_eq]
      exact fun h => hbits (hdata.mp h.2).1
  · refine iff_of_true ⟨_, hequal, iff_of_false ?_ fun h => hs h.1⟩ (.inl hs)
    rw [decide_eq_true_eq]
    exact fun h => hs h.1

theorem equalRight_self (a : Bitmap) : EqualRight a a true :=
  ⟨true, rfl, iff_of_true rfl ⟨rfl, fun _ _ => rfl⟩⟩

theorem Padded.sameTails (ha : Padded a) (hb : Padded b) (hsize : a.m_size = b.m_size) :
    SameTails a b := by
  intro k w x hw hx i _ hout
  have hw' : w.getLsbD i = false := Bool.eq_false_iff.mpr fun h => by
    obtain ⟨hi, hlt⟩ := ha k w hw i h
    exact absurd (hout hi) (Nat.not_le.mpr hlt)
  have hx' : x.getLsbD i = false := Bool.eq_false_iff.mpr fun h => by
    obtain ⟨hi, hlt⟩ := hb k x hx i h
    exact absurd (hout hi) (Nat.not_le.mpr (hsize ▸ hlt))
  rw [hw', hx']

end Pair

/-- The number of bits of the last word that are in the bitmap. -/
def lastBits (size : ℕ) : ℕ := if size % VALUE_SIZE = 0 then VALUE_SIZE else size % VALUE_SIZE

/-- The operations in question are those other than `operator~`. -/
def Edits (s : List Bitmap) (o : Op) : Prop := Allowed s o ∧ ∀ k, o ≠ .compl k

/-- The operation sets no bit that is not in the bitmap, and leaves none when it shrinks it. -/
def KeepsTails (s : List Bitmap) : Op → Prop
  | .create size def_ => size = 0 ∨ ∀ i, (memsetWord def_).getLsbD i = true → i < lastBits size
  | .resize k size v => ∀ b, s[k]? = some b →
      if wordsFor size ≤ wordsFor b.getSize then
        ∀ i, size ≤ i → i < VALUE_SIZE * wordsFor size → b.get i = .ok false
      else v = false
  | _ => True

section Steps

variable {b b' : Bitmap}

theorem new_padded {size : ℕ} {def_ : UInt8}
    (h : size = 0 ∨ ∀ i, (memsetWord def_).getLsbD i = true → i < lastBits size) :
    Padded (new size def_) := by
  intro k w hw i hi
  have hk := (List.getElem?_eq_some_iff.mp hw).1
  rw [new, List.length_replicate] at hk
  rw [new, List.getElem?_replicate, if_pos hk] at hw
  obtain rfl := Option.some.inj hw
  have hpos : size ≠ 0 := by
    rintro rfl
    exact absurd hk (Nat.not_lt_zero k)
  have hlt := h.resolve_left hpos i hi
  change _ ∧ _ < size
  unfold lastBits at hlt
  unfold wordsFor VALUE_SIZE at *
  split_ifs at hlt with hmod
  · exact ⟨hlt, by omega⟩
  · exact ⟨by omega, by omega⟩

theorem set_padded (hpad : Padded b) {idx : ℕ} {v : Bool} (hidx : idx < b.m_size)
    (h : b.set idx v = .ok b') : Padded b' := by
  obtain ⟨data, hstore, hret⟩ := ok_of_bind h
  obtain ⟨x, hx, rfl⟩ := store_ok hstore
  obtain rfl := Except.ok.inj hret
  intro k w hw i hi
  by_cases hk : idx / VALUE_SIZE = k
  · subst hk
    have hlt := (List.getElem?_eq_some_iff.mp hx).1
    have hw' := Option.some.inj (hw.symm.trans (List.getElem?_set_self hlt))
    subst hw'
    cases v with
    | false =>
      rw [if_neg Bool.false_ne_true, BitVec.getLsbD_and, Bool.and_eq_true] at hi
      exact hpad _ x hx i hi.1
    | true =>
      rw [if_pos rfl, BitVec.getLsbD_or, Bool.or_eq_true] at hi
      rcases hi with hi | hi
      · exact hpad _ x hx i hi
      · -- the bit that was set
        obtain rfl : i = idx % VALUE_SIZE := by
          by_contra hne
          exact Bool.false_ne_true ((POS_bit hne).symm.trans hi)
        refine ⟨Nat.mod_lt _ (by decide), ?_⟩
        rw [Nat.div_add_mod]
        exact hidx
  · exact hpad k w ((List.getElem?_set_ne hk).symm.trans hw) i hi

theorem assign_padded {sym : String} {f64 : BitVec 64 → BitVec 64 → BitVec 64}
    {f : Word → Word → Word} (hlane : Laned f64 f)
    (hf : ∀ x y i, (f x y).getLsbD i = true → x.getLsbD i = true ∨ y.getLsbD i = true)
    {onRun : List Word → ℕ → ℕ → Bool → Except Fault (List Word)} {a r : Bitmap}
    (ha : Plain a) (hb : Plain b) (hsize : a.getSize = b.getSize)
    (h : assignWith sym f64 f onRun a b = .ok r) :
    Plain r ∧ r.m_size = a.m_size ∧ (Padded a → Padded b → Padded r) := by
  have hsize' : a.m_size = b.m_size := hsize
  obtain ⟨heq, hplain⟩ := assignWith_plain hlane ha hb hsize'
  obtain rfl := Except.ok.inj (heq.symm.trans h)
  refine ⟨hplain, rfl, fun hpa hpb k w hw i hi => ?_⟩
  obtain ⟨x, y, hx, hy, rfl⟩ := List.getElem?_zipWith_eq_some.mp hw
  rcases hf x y i hi with hi | hi
  · exact hpa k x hx i hi
  · obtain ⟨hlt, hbelow⟩ := hpb k y hy i hi
    exact ⟨hlt, hsize' ▸ hbelow⟩

theorem take_padded (hpad : Padded b) {size n : ℕ}
    (h : ∀ i, size ≤ i → i < VALUE_SIZE * n → b.get i = .ok false) :
    Padded { b with m_size := size, m_data := b.m_data.take n } := by
  intro k w hw i hi
  have hk : k < n := by
    by_contra hge
    have hnone : (b.m_data.take n)[k]? = none := List.getElem?_eq_none (by
      rw [List.length_take]
      omega)
    rw [hnone] at hw
    cases hw
  rw [List.getElem?_take_of_lt hk] at hw
  obtain ⟨hlt, -⟩ := hpad k w hw i hi
  refine ⟨hlt, ?_⟩
  by_contra hge
  have hclear := h (VALUE_SIZE * k + i) (Nat.not_lt.mp hge) (by unfold VALUE_SIZE at *; omega)
  rw [get_word hw hlt, hi] at hclear
  cases hclear

theorem grown_padded (hpad : Padded b) {size : ℕ} (hle : b.m_size ≤ size) {w : Word}
    (hlast : b.m_data[b.getDataSize - 1]? = some w) : Padded (b.grown size false w) := by
  have hold : ∀ k x, b.m_data[k]? = some x → ∀ i, x.getLsbD i = true →
      i < VALUE_SIZE ∧ VALUE_SIZE * k + i < size := fun k x hx i hi =>
    ⟨(hpad k x hx i hi).1, (hpad k x hx i hi).2.trans_le hle⟩
  have hlt := (List.getElem?_eq_some_iff.mp hlast).1
  intro k x hx i hi
  change _ ∧ _ < size
  rw [grown] at hx
  by_cases hk : b.getDataSize - 1 = k
  · subst hk
    have hself : x = b.maskLast false w := by
      refine Option.some.inj (hx.symm.trans (List.getElem?_set_self ?_))
      rw [List.length_append]
      omega
    rw [hself, maskLast, if_neg Bool.false_ne_true, BitVec.getLsbD_and, Bool.and_eq_true] at hi
    exact hold _ w hlast i hi.1
  · rw [List.getElem?_set_ne hk] at hx
    by_cases hin : k < b.m_data.length
    · rw [List.getElem?_append_left hin] at hx
      exact hold k x hx i hi
    · -- one of the new words, which are empty
      rw [List.getElem?_append_right (by omega)] at hx
      rw [List.eq_of_mem_replicate (List.mem_of_getElem? hx)] at hi
      exact absurd ((BitVec.getLsbD_zero (w := 16) (i := i)).symm.trans hi) Bool.false_ne_true

theorem resize_padded (hb : Plain b) (hold : b.getSize < 2 ^ 32) {size : ℕ} (hsize : size < 2 ^ 32)
    {v : Bool} (h : b.resize size v = .ok b') :
    Plain b' ∧ b'.m_size = size ∧
      (Padded b →
        (if wordsFor size ≤ wordsFor b.getSize then
          ∀ i, size ≤ i → i < VALUE_SIZE * wordsFor size → b.get i = .ok false
        else v = false) → Padded b') := by
  have hlen : b.getDataSize = wordsFor b.getSize := hb.2
  rcases resize_ok hb hold hsize h with ⟨hshort, rfl⟩ | ⟨hmore, w, hw, rfl⟩
  · refine ⟨⟨hb.1, List.length_take_of_le hshort⟩, rfl, fun hpad hclear => ?_⟩
    rw [if_pos (hlen ▸ hshort)] at hclear
    exact take_padded hpad hclear
  · refine ⟨⟨hb.1, ?_⟩, rfl, fun hpad hv => ?_⟩
    · change (List.set _ _ _).length = wordsFor size
      unfold getDataSize at hmore
      rw [List.length_set, List.length_append, List.length_replicate]
      omega
    · rw [if_neg (hlen ▸ hmore)] at hv
      subst hv
      refine grown_padded hpad ?_ hw
      rw [hlen] at hmore
      unfold wordsFor getSize VALUE_SIZE at hmore
      omega

end Steps

def Sound (s : List Bitmap) : Prop := ∀ b ∈ s, Plain b ∧ b.m_size < 2 ^ 32

theorem update_tails {s s' : List Bitmap} {k : ℕ} {f : Bitmap → Except Fault Bitmap} (hs : Sound s)
    {Q : Prop} (hf : ∀ b b', s[k]? = some b → f b = .ok b' →
      (Plain b' ∧ b'.m_size < 2 ^ 32) ∧ ((∀ b ∈ s, Padded b) → Q → Padded b'))
    (h : update s k f = .ok s') :
    Sound s' ∧ ((∀ b ∈ s, Padded b) → Q → ∀ b ∈ s', Padded b) := by
  obtain ⟨b, hb, h⟩ := ok_of_bind h
  obtain ⟨b', hb', h⟩ := ok_of_bind h
  obtain rfl := Except.ok.inj h
  obtain ⟨hsound, hpadded⟩ := hf b b' (deref_ok hb) hb'
  refine ⟨fun c hc => ?_, fun hall hQ c hc => ?_⟩
  · rcases List.mem_or_eq_of_mem_set hc with hc | rfl
    · exact hs c hc
    · exact hsound
  · rcases List.mem_or_eq_of_mem_set hc with hc | rfl
    · exact hall c hc
    · exact hpadded hall hQ

/-- One operation: the bitmaps stay sound, and padded if it keeps the tails. -/
theorem step_tails {s s' : List Bitmap} {o : Op} (hs : Sound s) (ho : Edits s o)
    (h : step s o = .ok s') :
    Sound s' ∧ ((∀ b ∈ s, Padded b) → KeepsTails s o → ∀ b ∈ s', Padded b) := by
  have hmem : ∀ {k : ℕ} {b : Bitmap}, s[k]? = some b → b ∈ s := fun hk => List.mem_of_getElem? hk
  obtain ⟨hallowed, hother⟩ := ho
  cases o with
  | create size def_ =>
    obtain rfl := Except.ok.inj h
    simp only [Sound, List.forall_mem_append, List.forall_mem_singleton]
    exact ⟨⟨hs, new_plain size def_, hallowed⟩, fun hall htails => ⟨hall, new_padded htails⟩⟩
  | set k idx v =>
    have hstep := update_tails hs (Q := True) (fun b b' hk hb' => ?_) h
    · exact ⟨hstep.1, fun hall _ => hstep.2 hall trivial⟩
    · have hidx := hallowed b hk
      obtain ⟨c, hset, hplain, hsize, -⟩ := set_spec (hs b (hmem hk)).1 hidx v
      obtain rfl := Except.ok.inj (hset.symm.trans hb')
      exact ⟨⟨hplain, hsize ▸ (hs b (hmem hk)).2⟩, fun hall _ => set_padded (hall b (hmem hk)) hidx hb'⟩
  | compl k => exact absurd rfl (hother k)
  | andAssign k j =>
    obtain ⟨b, hj, h⟩ := ok_of_bind h
    have hj := deref_ok hj
    have hstep := update_tails hs (Q := True) (fun a r hk hr => ?_) h
    · exact ⟨hstep.1, fun hall _ => hstep.2 hall trivial⟩
    · obtain ⟨hplain, hsize, hpad⟩ := assign_padded laned_and
        (fun x y i hi => .inl (Bool.and_eq_true _ _ ▸ BitVec.getLsbD_and ▸ hi).1)
        (hs a (hmem hk)).1 (hs b (hmem hj)).1 (hallowed a b hk hj) hr
      exact ⟨⟨hplain, hsize ▸ (hs a (hmem hk)).2⟩, fun hall _ => hpad (hall a (hmem hk)) (hall b (hmem hj))⟩
  | orAssign k j =>
    obtain ⟨b, hj, h⟩ := ok_of_bind h
    have hj := deref_ok hj
    have hstep := update_tails hs (Q := True) (fun a r hk hr => ?_) h
    · exact ⟨hstep.1, fun hall _ => hstep.2 hall trivial⟩
    · obtain ⟨hplain, hsize, hpad⟩ := assign_padded laned_or
        (fun x y i hi => Bool.or_eq_true _ _ ▸ BitVec.getLsbD_or ▸ hi)
        (hs a (hmem hk)).1 (hs b (hmem hj)).1 (hallowed a b hk hj) hr
      exact ⟨⟨hplain, hsize ▸ (hs a (hmem hk)).2⟩, fun hall _ => hpad (hall a (hmem hk)) (hall b (hmem hj))⟩
  | resize k size v =>
    have hstep := update_tails hs (Q := KeepsTails s (.resize k size v)) (fun b b' hk hb' => ?_) h
    · exact hstep
    · obtain ⟨hplain, hsize, hpad⟩ := resize_padded (hs b (hmem hk)).1 (hs b (hmem hk)).2 hallowed hb'
      exact ⟨⟨hplain, hsize ▸ hallowed⟩, fun hall hQ => hpad (hall b (hmem hk)) (hQ b hk)⟩

/-- In every state of a run `operator==` is right on two bitmaps exactly if they differ in a bit or
do not differ outside of their bits, and it is right on all of them in every state if each step
keeps the tails. -/
theorem equalRight_along (ops : List Op) (hops : Each step Edits [] ops) :
    Along step (fun s => ∀ (j k : ℕ) (a b : Bitmap), s[j]? = some a → s[k]? = some b →
        (EqualRight a b (decide (j = k)) ↔
          j = k ∨ a.getSize ≠ b.getSize ∨ (∃ i < a.getSize, a.get i ≠ b.get i) ∨ SameTails a b)) [] ops ∧
      (Each step KeepsTails [] ops →
        Along step (fun s => ∀ (j k : ℕ) (a b : Bitmap), s[j]? = some a → s[k]? = some b →
          EqualRight a b (decide (j = k))) [] ops) := by
  have hpairs : ∀ s : List Bitmap, Sound s → ∀ (j k : ℕ) (a b : Bitmap), s[j]? = some a →
      s[k]? = some b → (EqualRight a b (decide (j = k)) ↔
        j = k ∨ a.getSize ≠ b.getSize ∨ (∃ i < a.getSize, a.get i ≠ b.get i) ∨ SameTails a b) := by
    intro s hs j k a b hj hk
    by_cases heq : j = k
    · subst heq
      obtain rfl := Option.some.inj (hj.symm.trans hk)
      exact iff_of_true (decide_eq_true (rfl : j = j) ▸ equalRight_self a) (.inl rfl)
    · obtain ⟨ha, hsize⟩ := hs a (List.mem_of_getElem? hj)
      rw [decide_eq_false heq, or_iff_right heq]
      exact equalRight_iff ha (hs b (List.mem_of_getElem? hk)).1 hsize
  constructor
  · exact (along_of_each Sound Edits (fun s o s' hs ho h => (step_tails hs ho h).1) ops []
      (by simp [Sound]) hops).mono hpairs
  · intro htails
    refine (along_of_each (fun s => Sound s ∧ ∀ b ∈ s, Padded b)
      (fun s o => Edits s o ∧ KeepsTails s o)
      (fun s o s' hs ho h => ⟨(step_tails hs.1 ho.1 h).1, (step_tails hs.1 ho.1 h).2 hs.2 ho.2⟩) ops []
      (by simp [Sound]) (hops.and htails)).mono fun s hs j k a b hj hk => ?_
    refine (hpairs s hs.1 j k a b hj hk).mpr ?_
    by_cases hsize : a.getSize = b.getSize
    · have ha := hs.2 a (List.mem_of_getElem? hj)
      exact .inr (.inr (.inr (ha.sameTails (hs.2 b (List.mem_of_getElem? hk)) hsize)))
    · exact .inr (.inl hsize)

theorem equalRight_along_resize :
    Along step (fun s => ∀ (j k : ℕ) (a b : Bitmap), s[j]? = some a → s[k]? = some b →
        (EqualRight a b (decide (j = k)) ↔
          j = k ∨ a.getSize ≠ b.getSize ∨ (∃ i < a.getSize, a.get i ≠ b.get i) ∨ SameTails a b)) []
        [.create 20 0, .create 30 0, .resize 1 20 true] ∧
      (Each step KeepsTails [] [.create 20 0, .create 30 0, .resize 1 20 true] →
        Along step (fun s => ∀ (j k : ℕ) (a b : Bitmap), s[j]? = some a → s[k]? = some b →
          EqualRight a b (decide (j = k))) [] [.create 20 0, .create 30 0, .resize 1 20 true]) :=
  equalRight_along _ (by simp [Each, step, Edits, Allowed])

/-- Two bitmaps of one bit, which is set in both, filled with different bytes. -/
theorem not_equalRight_fill :
    Each step Edits [] [.create 1 0xFF, .create 1 0x01] ∧
      ¬ Along step (fun s => ∀ (j k : ℕ) (a b : Bitmap), s[j]? = some a → s[k]? = some b →
        EqualRight a b (decide (j = k))) [] [.create 1 0xFF, .create 1 0x01] := by
  refine ⟨by simp [Each, step, Edits, Allowed], fun h => ?_⟩
  have hrun : [Op.create 1 0xFF, .create 1 0x01].foldlM step [] =
      .ok [new 1 0xFF, new 1 0x01] := rfl
  have hlast := h.last hrun
  obtain ⟨r, hr, hright⟩ := hlast 0 1 _ _ rfl rfl
  have hfalse : equal (new 1 0xFF) (new 1 0x01) (decide (0 = 1)) = .ok false := by decide
  obtain rfl := Except.ok.inj (hfalse.symm.trans hr)
  exact Bool.false_ne_true (hright.mpr ⟨rfl, by decide⟩)

end Bitmap

end Sylar
