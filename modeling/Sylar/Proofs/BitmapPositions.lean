import Sylar.Proofs.BitmapVisits

/-! The iterators of a bitmap come to the places that the loops are given, so all enumerations of
a bitmap agree. -/

namespace Sylar

open Lib

namespace Bitmap

theorem toInt32_of_lt {x : ℤ} (hlo : -1 ≤ x) (hhi : x < 2 ^ 31) : toInt32 x = x := by
  rw [toInt32, Int.bmod_eq_of_le_mul_two] <;> omega

theorem toUInt32_of_lt {n : ℕ} (h : n < 2 ^ 32) : toUInt32 n = n := by
  rw [toUInt32]
  omega

namespace iterator_base

section Words

variable {P : ℕ → Prop} {size : ℕ} {data : List Word}

/-- A place is found, or the bits or the places have come to their end. -/
theorem bitsUp_spec (size : ℕ) {w : Word} (turns : ℕ) : ∀ n p : ℕ, n + turns ≤ VALUE_SIZE →
    (∀ i < turns, w.getLsbD (n + i) = true ↔ P (p + i)) →
    ∃ q : ℕ, (bitsUp w size turns n p = (true, (q : ℤ)) ∧ q < size ∧ First P p size q) ∨
      (bitsUp w size turns n p = (false, (q : ℤ)) ∧ q = p + min turns (size - p) ∧
        ∀ j, p ≤ j → j < q → ¬ P j) := by
  induction turns with
  | zero =>
    intro n p _ _
    exact ⟨p, .inr ⟨rfl, by omega, fun j hlo hhi => by omega⟩⟩
  | succ turns ih =>
    intro n p hn hbits
    have hbit : w &&& POS n ≠ 0#16 ↔ P p := (test_POS (by omega)).trans (hbits 0 (by omega))
    rw [bitsUp]
    by_cases hp : p < size
    · rw [if_pos (by omega)]
      by_cases hP : P p
      · rw [if_pos (hbit.mpr hP)]
        exact ⟨p, .inl ⟨rfl, hp, le_rfl, fun j hlo hhi => by omega, fun _ => hP⟩⟩
      · rw [if_neg fun h => hP (hbit.mp h)]
        have hskip : ∀ {q j}, (∀ j, p + 1 ≤ j → j < q → ¬ P j) → p ≤ j → j < q → ¬ P j := by
          intro q j h hlo hhi
          by_cases hj : j = p
          · exact hj ▸ hP
          · exact h j (by omega) hhi
        obtain ⟨q, h⟩ := ih (n + 1) (p + 1) (by omega) fun i hi => by
          rw [show n + 1 + i = n + (i + 1) by ring, show p + 1 + i = p + (i + 1) by ring]
          exact hbits (i + 1) (by omega)
        push_cast at h
        refine ⟨q, ?_⟩
        rcases h with ⟨hr, hq, hfirst⟩ | ⟨hr, hq, hnone⟩
        · have hle := hfirst.le
          refine .inl ⟨hr, hq, by omega, fun j hlo hhi _ => ?_, hfirst.at_⟩
          exact hskip (fun j h₁ h₂ => hfirst.before j h₁ h₂ (by omega)) hlo hhi
        · exact .inr ⟨hr, by omega, fun j hlo hhi => hskip hnone hlo hhi⟩
    · rw [if_neg (by omega)]
      exact ⟨p, .inr ⟨rfl, by omega, fun j hlo hhi => by omega⟩⟩

theorem wordsUp_end (ws : List Word) : wordsUp size ws size = size := by
  cases ws with
  | nil => rfl
  | cons w ws => rw [wordsUp, if_neg (lt_irrefl _)]

theorem wordsUp_spec (hsize : size + VALUE_SIZE < 2 ^ 31) (ws : List Word) : ∀ p : ℕ,
    Spells P p ws → Fits size p ws → ∃ q : ℕ, wordsUp size ws p = q ∧ First P p size q := by
  induction ws with
  | nil =>
    intro p _ hfits
    have hle : size ≤ p := by simpa using hfits.1
    exact ⟨p, rfl, le_rfl, fun j hlo hhi => by omega, fun h => by omega⟩
  | cons w ws ih =>
    intro p h hfits
    obtain ⟨hle, hlt⟩ := hfits
    have hlt := hlt (List.cons_ne_nil _ _)
    rw [List.length_cons, Nat.mul_add, Nat.mul_one] at hle hlt
    have hfits' : p + VALUE_SIZE < size ∨ ws = [] := by
      by_cases hws : ws = []
      · exact .inr hws
      · have hpos := List.length_pos_iff.mpr hws
        unfold VALUE_SIZE at *
        omega
    rw [wordsUp]
    by_cases hp : p < size
    · rw [if_pos (by omega)]
      -- the words behind this one, when it has no place
      have hrest : (∀ j, p ≤ j → j < p + VALUE_SIZE → j < size → ¬ P j) →
          ∃ q : ℕ, wordsUp size ws (p + VALUE_SIZE : ℕ) = q ∧ First P p size q := by
        intro hnone
        obtain ⟨q, hq, hfirst⟩ := ih (p + VALUE_SIZE) h.tail ⟨by omega, fun _ => by omega⟩
        refine ⟨q, hq, (Nat.le_add_right _ _).trans hfirst.le, fun j hlo hhi hj => ?_, hfirst.at_⟩
        by_cases hword : j < p + VALUE_SIZE
        · exact hnone j hlo hword hj
        · exact hfirst.before j (by omega) hhi hj
      by_cases hw : w = 0#16
      · subst hw
        rw [if_pos rfl, toInt32_of_lt (by unfold VALUE_SIZE; omega) (by unfold VALUE_SIZE at *; omega)]
        exact_mod_cast hrest fun j hlo hhi _ => h.zero hlo hhi
      · rw [if_neg hw]
        obtain ⟨q, h⟩ := bitsUp_spec (P := P) size VALUE_SIZE 0 p (by omega) fun i hi => by
          rw [Nat.zero_add]
          exact h.head hi
        rcases h with ⟨hr, -, hfirst⟩ | ⟨hr, hq, hnone⟩
        · rw [hr]
          exact ⟨q, rfl, hfirst⟩
        · rw [hr]
          dsimp only
          rw [if_neg Bool.false_ne_true]
          by_cases hword : p + VALUE_SIZE ≤ size
          · obtain rfl : q = p + VALUE_SIZE := by omega
            exact hrest fun j hlo hhi _ => hnone j hlo hhi
          · obtain rfl : q = size := by omega
            exact ⟨q, wordsUp_end ws, hp.le, fun j hlo hhi _ => hnone j hlo hhi, fun h => by omega⟩
    · rw [if_neg (by omega)]
      exact ⟨p, rfl, le_rfl, fun j hlo hhi => by omega, fun h => by omega⟩

theorem wordsUp_drop (hsize : size + VALUE_SIZE < 2 ^ 31) (h : Spells P 0 data)
    (hfits : Fits size 0 data) {n : ℕ} (hn : n ≤ data.length) :
    ∃ q : ℕ, wordsUp size (data.drop n) (VALUE_SIZE * n : ℕ) = q ∧ First P (VALUE_SIZE * n) size q := by
  obtain ⟨hle, hlt⟩ := hfits
  have hspells := h.drop n
  rw [Nat.zero_add] at hspells hle
  refine wordsUp_spec hsize _ _ hspells ⟨?_, fun hne => ?_⟩
  · rw [List.length_drop]
    unfold VALUE_SIZE at *
    omega
  · have hlt := hlt fun hnil => hne (by rw [hnil, List.drop_nil])
    rw [List.length_drop]
    unfold VALUE_SIZE at *
    omega

theorem next_spec (hsize : size + VALUE_SIZE < 2 ^ 31) (h : Spells P 0 data)
    (hfits : Fits size 0 data) {p : ℕ} (hp : p ≤ size) :
    ∃ q : ℕ, next ⟨(p : ℤ) - 1, size, data⟩ = .ok ⟨q, size, data⟩ ∧ First P p size q := by
  have hpos : (p : ℤ) - 1 + 1 = p := by ring
  have hle : size ≤ VALUE_SIZE * data.length := by simpa using hfits.1
  have hdiv := Nat.div_add_mod p VALUE_SIZE
  have hmod : p % VALUE_SIZE < VALUE_SIZE := Nat.mod_lt _ (by decide)
  unfold next
  dsimp only
  rw [hpos, toUInt32_of_lt (by unfold VALUE_SIZE at hsize; omega)]
  by_cases hleft : p % VALUE_SIZE = 0
  · -- a word begins here
    rw [if_neg (not_not.mpr hleft)]
    obtain ⟨q, hq, hfirst⟩ := wordsUp_drop hsize h hfits (n := p / VALUE_SIZE)
      (by unfold VALUE_SIZE at *; omega)
    rw [show VALUE_SIZE * (p / VALUE_SIZE) = p by omega] at hq hfirst
    exact ⟨q, by rw [hq], hfirst⟩
  · have hlt : p / VALUE_SIZE < data.length := by unfold VALUE_SIZE at *; omega
    rw [if_pos hleft, List.getElem?_eq_getElem hlt]
    dsimp only
    obtain ⟨q, hbits⟩ := bitsUp_spec (P := P) size (w := data[p / VALUE_SIZE])
      (VALUE_SIZE - p % VALUE_SIZE) (p % VALUE_SIZE) p (by omega) fun i hi => by
        rw [h _ _ (List.getElem?_eq_getElem hlt) _ (by omega), Nat.zero_add]
        rw [show VALUE_SIZE * (p / VALUE_SIZE) + (p % VALUE_SIZE + i) = p + i by omega]
    rcases hbits with ⟨hr, -, hfirst⟩ | ⟨hr, hq, hnone⟩
    · rw [hr]
      exact ⟨q, rfl, hfirst⟩
    · rw [hr]
      dsimp only
      rw [if_neg Bool.false_ne_true, toUInt32_of_lt (by unfold VALUE_SIZE at hsize; omega)]
      by_cases hword : VALUE_SIZE * (p / VALUE_SIZE + 1) ≤ size
      · have hnext : q = VALUE_SIZE * (p / VALUE_SIZE + 1) := by unfold VALUE_SIZE at *; omega
        obtain ⟨q', hq', hfirst⟩ := wordsUp_drop hsize h hfits (n := p / VALUE_SIZE + 1) hlt
        rw [← hnext] at hq' hfirst
        rw [show q / VALUE_SIZE = p / VALUE_SIZE + 1 by unfold VALUE_SIZE at *; omega, hq']
        refine ⟨q', rfl, le_trans (by omega) hfirst.le, fun j hlo hhi hj => ?_, hfirst.at_⟩
        by_cases hj' : j < q
        · exact hnone j hlo hj'
        · exact hfirst.before j (by omega) hhi hj
      · obtain rfl : q = size := by unfold VALUE_SIZE at *; omega
        refine ⟨q, by rw [wordsUp_end], hp, fun j hlo hhi _ => hnone j hlo hhi, fun hj => by omega⟩

theorem bitsDown_spec {w : Word} {p : ℕ} (turns : ℕ) : turns ≤ VALUE_SIZE →
    (∀ i < turns, w.getLsbD i = true ↔ P (p + i)) →
    (∃ q : ℕ, bitsDown w turns ((p + turns : ℕ) - 1) = (true, (q : ℤ)) ∧ p ≤ q ∧ Last P (p + turns) q) ∨
      (bitsDown w turns ((p + turns : ℕ) - 1) = (false, (p : ℤ) - 1) ∧
        ∀ j, p ≤ j → j < p + turns → ¬ P j) := by
  induction turns with
  | zero => exact fun _ _ => .inr ⟨rfl, fun j hlo hhi => by omega⟩
  | succ turns ih =>
    intro hn hbits
    have hbit : w &&& POS turns ≠ 0#16 ↔ P (p + turns) :=
      (test_POS (by omega)).trans (hbits turns (by omega))
    have hpos : ((p + (turns + 1) : ℕ) : ℤ) - 1 = (p + turns : ℕ) := by push_cast; ring
    rw [hpos, bitsDown, if_pos (by omega)]
    by_cases hP : P (p + turns)
    · rw [if_pos (hbit.mpr hP)]
      refine .inl ⟨p + turns, rfl, by omega, by omega, by omega, fun j hlo hhi => by omega, ?_⟩
      intro j hj
      rwa [← show p + turns = j by omega]
    · rw [if_neg fun h => hP (hbit.mp h)]
      have hskip : ∀ j, j < p + (turns + 1) → (j < p + turns → ¬ P j) → ¬ P j := by
        intro j hj hlow
        by_cases heq : j = p + turns
        · exact heq ▸ hP
        · exact hlow (by omega)
      rcases ih (by omega) (fun i hi => hbits i (by omega)) with ⟨q, hr, hge, hlast⟩ | ⟨hr, hnone⟩
      · refine .inl ⟨q, hr, hge, hlast.ge, hlast.lt.trans (by omega), fun j hlo hhi => ?_, hlast.at_⟩
        exact hskip j hhi fun hj => hlast.after j hlo hj
      · exact .inr ⟨hr, fun j hlo hhi => hskip j hhi fun hj => hnone j hlo hj⟩

theorem wordsDown_spec (h : Spells P 0 data) : ∀ n ≤ data.length, VALUE_SIZE * n < 2 ^ 31 →
    Last P (VALUE_SIZE * n) (wordsDown (data.take n).reverse ((VALUE_SIZE * n : ℕ) - 1)) := by
  intro n
  induction n with
  | zero =>
    intro _ _
    have hend : wordsDown (data.take 0).reverse ((VALUE_SIZE * 0 : ℕ) - 1) = -1 := rfl
    rw [hend]
    exact ⟨le_rfl, by omega, fun j _ hj => by omega, fun j hj => by omega⟩
  | succ n ih =>
    intro hn hbound
    have hlt : n < data.length := hn
    have hword := h n _ (List.getElem?_eq_getElem hlt)
    rw [Nat.zero_add] at hword
    have hnext := ih (by omega) (by unfold VALUE_SIZE at *; omega)
    rw [List.take_add_one, List.getElem?_eq_getElem hlt, Option.toList_some, List.reverse_append,
      List.reverse_singleton, List.singleton_append, wordsDown,
      if_pos (by unfold VALUE_SIZE; omega)]
    have hbelow : (∀ j, VALUE_SIZE * n ≤ j → j < VALUE_SIZE * (n + 1) → ¬ P j) →
        Last P (VALUE_SIZE * (n + 1)) (wordsDown (data.take n).reverse ((VALUE_SIZE * n : ℕ) - 1)) := by
      intro hnone
      refine ⟨hnext.ge, hnext.lt.trans (by unfold VALUE_SIZE; omega), fun j hlo hhi => ?_, hnext.at_⟩
      by_cases hj : j < VALUE_SIZE * n
      · exact hnext.after j hlo hj
      · exact hnone j (by omega) hhi
    by_cases hw : data[n] = 0#16
    · rw [if_pos hw]
      have hpos : ((VALUE_SIZE * (n + 1) : ℕ) : ℤ) - 1 - VALUE_SIZE = (VALUE_SIZE * n : ℕ) - 1 := by
        push_cast
        ring
      rw [hpos, toInt32_of_lt (by omega) (by unfold VALUE_SIZE at *; omega)]
      refine hbelow fun j hlo hhi hj => ?_
      have hbit := (hword (j - VALUE_SIZE * n) (by unfold VALUE_SIZE at *; omega)).mpr
        (by rwa [show VALUE_SIZE * n + (j - VALUE_SIZE * n) = j by omega])
      rw [hw, BitVec.getLsbD_zero] at hbit
      exact Bool.false_ne_true hbit
    · rw [if_neg hw]
      rcases bitsDown_spec (P := P) (p := VALUE_SIZE * n) VALUE_SIZE le_rfl hword with
        ⟨q, hr, -, hlast⟩ | ⟨hr, hnone⟩
      · rw [show VALUE_SIZE * (n + 1) = VALUE_SIZE * n + VALUE_SIZE by ring, hr]
        exact hlast
      · rw [show VALUE_SIZE * (n + 1) = VALUE_SIZE * n + VALUE_SIZE by ring, hr]
        dsimp only
        rw [if_neg Bool.false_ne_true]
        exact hbelow hnone

theorem below_eq {it : iterator_base} {n : ℕ} (h : n ≤ it.m_data.length) :
    it.below n = .ok (it.m_data.take n).reverse := if_pos h

/-- `iterator_reverse::next` goes on from the place before its own. -/
theorem rnext_spec (hsize : size < 2 ^ 31) (h : Spells P 0 data)
    (hle : size ≤ VALUE_SIZE * data.length) {hi : ℕ} (hhi : hi ≤ size) :
    ∃ q : ℤ, rnext ⟨hi, size, data⟩ = .ok ⟨q, size, data⟩ ∧ Last P hi q := by
  unfold rnext
  dsimp only
  by_cases h0 : hi = 0
  · subst h0
    rw [if_pos (by omega)]
    exact ⟨-1, rfl, by omega, by omega, fun j _ hj => by omega, fun j hj => by omega⟩
  · obtain ⟨p, rfl⟩ : ∃ p, hi = p + 1 := ⟨hi - 1, by omega⟩
    have hpos : ((p + 1 : ℕ) : ℤ) - 1 = p := by omega
    have hdiv := Nat.div_add_mod p VALUE_SIZE
    have hmod : p % VALUE_SIZE < VALUE_SIZE := Nat.mod_lt _ (by decide)
    have hlt : p / VALUE_SIZE < data.length := by unfold VALUE_SIZE at *; omega
    rw [if_neg (by omega), hpos, toUInt32_of_lt (by omega)]
    by_cases hleft : p % VALUE_SIZE = VALUE_SIZE - 1
    · -- a word ends here
      have hend : p + 1 = VALUE_SIZE * (p / VALUE_SIZE + 1) := by unfold VALUE_SIZE at *; omega
      have hlast := wordsDown_spec h (p / VALUE_SIZE + 1) hlt (by omega)
      rw [← hend, hpos] at hlast
      rw [if_neg (not_not.mpr hleft), below_eq hlt]
      exact ⟨_, rfl, hlast⟩
    · rw [if_pos hleft, List.getElem?_eq_getElem hlt]
      dsimp only
      have hword := h _ _ (List.getElem?_eq_getElem hlt)
      rw [Nat.zero_add] at hword
      have hbits := bitsDown_spec (P := P) (p := VALUE_SIZE * (p / VALUE_SIZE)) (p % VALUE_SIZE + 1)
        (by omega) fun i hi => hword i (by omega)
      rw [show VALUE_SIZE * (p / VALUE_SIZE) + (p % VALUE_SIZE + 1) = p + 1 by omega, hpos] at hbits
      rcases hbits with ⟨q, hr, -, hlast⟩ | ⟨hr, hnone⟩
      · rw [hr]
        exact ⟨q, rfl, hlast⟩
      · rw [hr, below_eq hlt.le]
        have hlast := wordsDown_spec h (p / VALUE_SIZE) hlt.le (by omega)
        refine ⟨_, rfl, hlast.ge, hlast.lt.trans (by omega), fun j hlo hj => ?_, hlast.at_⟩
        by_cases hj' : j < VALUE_SIZE * (p / VALUE_SIZE)
        · exact hlast.after j hlo hj'
        · exact hnone j (by omega) hj

end Words

theorem valid_iff {m_pos m_size : ℤ} {data : List Word} :
    valid ⟨m_pos, m_size, data⟩ = true ↔ 0 ≤ m_pos ∧ m_pos < m_size := by
  simp only [valid, Bool.not_eq_true', Bool.or_eq_false_iff, decide_eq_false_iff_not]
  omega

end iterator_base

open iterator_base

section Walk

variable {P : ℕ → Prop} [DecidablePred P] {size : ℕ} {data : List Word}

theorem walk_next (hsize : size + VALUE_SIZE < 2 ^ 31) (h : Spells P 0 data)
    (hfits : Fits size 0 data) (turns : ℕ) : ∀ lo q : ℕ, First P lo size q →
    (between P lo size).length ≤ turns →
    walk next turns ⟨q, size, data⟩ = .ok (some ((between P lo size).map Int.ofNat)) := by
  induction turns with
  | zero =>
    intro lo q hfirst hturns
    have hnil := List.eq_nil_of_length_eq_zero (Nat.le_zero.mp hturns)
    have hend : ¬ q < size := by
      intro hq
      rw [hfirst.between_eq_cons hq] at hnil
      cases hnil
    rw [walk, if_neg fun hv => hend (by exact_mod_cast (valid_iff.mp hv).2), hnil]
    rfl
  | succ turns ih =>
    intro lo q hfirst hturns
    rw [walk]
    by_cases hq : q < size
    · have hcons := hfirst.between_eq_cons hq
      rw [hcons, List.length_cons] at hturns
      obtain ⟨q', hnext, hfirst'⟩ := next_spec hsize h hfits (p := q + 1) hq
      rw [show ((q + 1 : ℕ) : ℤ) - 1 = q by omega] at hnext
      rw [if_pos (valid_iff.mpr ⟨by simp, by exact_mod_cast hq⟩), hnext, hcons]
      change (walk next turns ⟨q', size, data⟩ >>= _) = _
      rw [ih (q + 1) q' hfirst' (by omega)]
      rfl
    · rw [if_neg fun hv => hq (by exact_mod_cast (valid_iff.mp hv).2),
        hfirst.between_eq_nil (by omega)]
      rfl

theorem walk_rnext (hsize : size < 2 ^ 31) (h : Spells P 0 data)
    (hle : size ≤ VALUE_SIZE * data.length) (turns : ℕ) : ∀ (hi : ℕ) (q : ℤ), hi ≤ size →
    Last P hi q → (between P 0 hi).length ≤ turns →
    walk rnext turns ⟨q, size, data⟩ = .ok (some ((between P 0 hi).reverse.map Int.ofNat)) := by
  induction turns with
  | zero =>
    intro hi q _ hlast hturns
    have hnil := List.eq_nil_of_length_eq_zero (Nat.le_zero.mp hturns)
    have hend : ¬ 0 ≤ q := by
      intro hq
      obtain ⟨n, rfl⟩ := Int.eq_ofNat_of_zero_le hq
      rw [hlast.between_eq_concat] at hnil
      simp at hnil
    rw [walk, if_neg fun hv => hend (valid_iff.mp hv).1, hnil]
    rfl
  | succ turns ih =>
    intro hi q hhi hlast hturns
    rw [walk]
    by_cases hq : 0 ≤ q
    · obtain ⟨n, rfl⟩ := Int.eq_ofNat_of_zero_le hq
      have hlt : n < hi := by exact_mod_cast hlast.lt
      have hconcat := hlast.between_eq_concat
      rw [hconcat, List.length_append, List.length_singleton] at hturns
      have hn : n ≤ size := by omega
      obtain ⟨q', hnext, hlast'⟩ := rnext_spec hsize h hle hn
      rw [if_pos (valid_iff.mpr ⟨hq, by exact_mod_cast hlt.trans_le hhi⟩)]
      rw [hnext, hconcat]
      change (walk rnext turns ⟨q', size, data⟩ >>= _) = _
      rw [ih n q' (by omega) hlast' (by omega), List.reverse_append]
      rfl
    · obtain rfl : q = -1 := by have := hlast.ge; omega
      rw [if_neg fun hv => hq (valid_iff.mp hv).1, hlast.between_eq_nil]
      rfl

end Walk

theorem Plain.fits {b : Bitmap} (hb : Plain b) : Fits b.m_size 0 b.m_data := by
  have hlen : b.m_data.length = wordsFor b.m_size := hb.2
  rw [Fits, hlen]
  unfold wordsFor VALUE_SIZE
  refine ⟨by omega, fun hne => ?_⟩
  have hpos := List.length_pos_iff.mpr hne
  rw [hlen, wordsFor, VALUE_SIZE] at hpos
  omega

theorem groups_fit (size : ℕ) : 0 + U64_VALUE_SIZE * (size / U64_VALUE_SIZE) ≤ size := by
  rw [Nat.zero_add]
  exact Nat.mul_div_le size U64_VALUE_SIZE

def places (b : Bitmap) : List ℕ := between (fun i => b.get i = .ok true) 0 b.m_size

theorem places_eq (b : Bitmap) :
    b.places = (List.range b.getSize).filter fun i => b.get i = .ok true := by
  rw [List.range_eq_range']
  rfl

/-- The loops of `foreach` give the callback the places until it says stop. -/
theorem foreach_eq {σ : Type} {b : Bitmap} (hb : Plain b) (hsize : b.m_size + VALUE_SIZE ≤ 2 ^ 32)
    (cb : ℕ → σ → Bool × σ) (s : σ) : b.foreach cb s = .ok (feed cb b.places s).2 :=
  visitGroups_eq cb hsize _ _ _ s spells_get hb.fits (groups_fit b.m_size)

theorem feed_push (ps pos : List ℕ) :
    feed (fun cur_pos pos => (true, pos ++ [cur_pos])) ps pos = (true, pos ++ ps) := by
  induction ps generalizing pos with
  | nil => rw [List.append_nil]; rfl
  | cons p ps ih =>
    rw [feed, if_pos rfl, ih, List.append_assoc]
    rfl

theorem listPosAsc_eq {b : Bitmap} (hb : Plain b) (hsize : b.m_size + VALUE_SIZE ≤ 2 ^ 32)
    (pos : List ℕ) : b.listPosAsc pos = .ok (pos ++ b.places) := by
  rw [show b.listPosAsc pos = b.foreach _ pos from rfl, foreach_eq hb hsize, feed_push]

theorem walk_begin {b : Bitmap} (hb : Plain b) (hsize : b.m_size + VALUE_SIZE < 2 ^ 31) {turns : ℕ}
    (hturns : b.places.length ≤ turns) :
    ∃ it, b.begin_ = .ok it ∧ walk next turns it = .ok (some (b.places.map Int.ofNat)) := by
  obtain ⟨q, hnext, hfirst⟩ := next_spec hsize spells_get hb.fits (Nat.zero_le b.m_size)
  refine ⟨_, ?_, walk_next hsize spells_get hb.fits turns 0 q hfirst hturns⟩
  rw [begin_, toInt32_of_lt (by omega) (by unfold VALUE_SIZE at hsize; omega)]
  exact hnext

theorem walk_rbegin {b : Bitmap} (hb : Plain b) (hsize : b.m_size < 2 ^ 31) {turns : ℕ}
    (hturns : b.places.length ≤ turns) :
    ∃ it, b.rbegin = .ok it ∧ walk rnext turns it = .ok (some (b.places.reverse.map Int.ofNat)) := by
  have hle : b.m_size ≤ VALUE_SIZE * b.m_data.length := by simpa using hb.fits.1
  obtain ⟨q, hnext, hlast⟩ := rnext_spec hsize spells_get hle le_rfl
  refine ⟨_, ?_, walk_rnext hsize spells_get hle turns b.m_size q le_rfl hlast hturns⟩
  rw [rbegin, toInt32_of_lt (by omega) (by omega)]
  exact hnext

/-- The enumerations agree, and a callback that says stop is given no place after that. -/
theorem enumerations_agree (b : Bitmap) (hb : Plain b) (hsize : b.getSize ≤ 2 ^ 31 - 15) :
    let ps := (List.range b.getSize).filter fun i => b.get i = .ok true
    (∀ pos, b.listPosAsc pos = .ok (pos ++ ps)) ∧
    (∀ {σ : Type} (cb : ℕ → σ → Bool × σ) (s : σ), (∀ p s, (cb p s).1 = true) →
      ∃ s', b.foreach (logged cb) (s, []) = .ok (s', ps)) ∧
    (∀ turns ≥ ps.length, ∃ it, b.begin_ = .ok it ∧
      walk next turns it = .ok (some (ps.map Int.ofNat))) ∧
    (∀ turns ≥ ps.length, ∃ it, b.rbegin = .ok it ∧
      walk rnext turns it = .ok (some (ps.reverse.map Int.ofNat))) ∧
    ∀ {σ : Type} (cb : ℕ → σ → Bool × σ) (s : σ) (pre : List ℕ) (p : ℕ) (post : List ℕ),
      ps = pre ++ p :: post → (feed cb pre s).1 = true → (cb p (feed cb pre s).2).1 = false →
      ∃ s', b.foreach (logged cb) (s, []) = .ok (s', pre ++ [p]) := by
  have hlt : b.m_size ≤ 2 ^ 31 - 15 := hsize
  have h31 : b.m_size + VALUE_SIZE < 2 ^ 31 := by unfold VALUE_SIZE; omega
  have h32 : b.m_size + VALUE_SIZE ≤ 2 ^ 32 := by omega
  intro ps
  have hplaces : ps = b.places := b.places_eq.symm
  clear_value ps
  subst hplaces
  refine ⟨listPosAsc_eq hb h32, fun cb s hcb => ?_, fun turns => walk_begin hb h31,
    fun turns => walk_rbegin hb (by omega), fun cb s pre p post hps hpre hp => ?_⟩
  · rw [foreach_eq hb h32, feed_logged cb _ s [] (feed_going cb hcb _ s)]
    exact ⟨_, rfl⟩
  · rw [foreach_eq hb h32, hps, feed_logged_stop cb hpre hp]
    exact ⟨_, rfl⟩

theorem enumerations_agree_gap :
    let b : Bitmap := ⟨false, 60, [0#16, 5#16, 0xC000#16, 0#16, 0xFFFF#16]⟩
    let ps := (List.range b.getSize).filter fun i => b.get i = .ok true
    (∀ pos, b.listPosAsc pos = .ok (pos ++ ps)) ∧
    (∀ {σ : Type} (cb : ℕ → σ → Bool × σ) (s : σ), (∀ p s, (cb p s).1 = true) →
      ∃ s', b.foreach (logged cb) (s, []) = .ok (s', ps)) ∧
    (∀ turns ≥ ps.length, ∃ it, b.begin_ = .ok it ∧
      walk next turns it = .ok (some (ps.map Int.ofNat))) ∧
    (∀ turns ≥ ps.length, ∃ it, b.rbegin = .ok it ∧
      walk rnext turns it = .ok (some (ps.reverse.map Int.ofNat))) ∧
    ∀ {σ : Type} (cb : ℕ → σ → Bool × σ) (s : σ) (pre : List ℕ) (p : ℕ) (post : List ℕ),
      ps = pre ++ p :: post → (feed cb pre s).1 = true → (cb p (feed cb pre s).2).1 = false →
      ∃ s', b.foreach (logged cb) (s, []) = .ok (s', pre ++ [p]) :=
  enumerations_agree ⟨false, 60, [0#16, 5#16, 0xC000#16, 0#16, 0xFFFF#16]⟩ (by decide) (by decide)

example : places ⟨false, 60, [0#16, 5#16, 0xC000#16, 0#16, 0xFFFF#16]⟩ = [14, 16, 56, 57, 58, 59] := by
  decide

end Bitmap

end Sylar
