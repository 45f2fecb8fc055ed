import Sylar.Lib.Positions
import Sylar.Proofs.BitmapCompress
import Sylar.Spec.BitmapPositions

/-! The loops of a bitmap that call back are given the places below its size where a bit is set.
Whatever they skip, the running position is where the word they come to begins. -/

namespace Sylar

open Lib

namespace Bitmap

def Spells (P : ℕ → Prop) (p : ℕ) (ws : List Word) : Prop :=
  ∀ k w, ws[k]? = some w → ∀ i < VALUE_SIZE, w.getLsbD i = true ↔ P (p + VALUE_SIZE * k + i)

section Words

variable {P : ℕ → Prop} {p : ℕ} {w : Word} {ws : List Word}

theorem Spells.head (h : Spells P p (w :: ws)) {i : ℕ} (hi : i < VALUE_SIZE) :
    w.getLsbD i = true ↔ P (p + i) := h 0 w rfl i hi

theorem Spells.tail (h : Spells P p (w :: ws)) : Spells P (p + VALUE_SIZE) ws := by
  intro k x hx i hi
  have hk := h (k + 1) x hx i hi
  rw [show p + VALUE_SIZE * (k + 1) + i = p + VALUE_SIZE + VALUE_SIZE * k + i by ring] at hk
  exact hk

theorem Spells.drop (h : Spells P p ws) (n : ℕ) : Spells P (p + VALUE_SIZE * n) (ws.drop n) := by
  intro k x hx i hi
  rw [List.getElem?_drop] at hx
  have hk := h (n + k) x hx i hi
  rw [show p + VALUE_SIZE * (n + k) + i = p + VALUE_SIZE * n + VALUE_SIZE * k + i by ring] at hk
  exact hk

theorem Spells.init {ws' : List Word} (h : Spells P p (ws ++ ws')) : Spells P p ws := by
  intro k x hx i hi
  exact h k x (List.getElem?_append_left (List.getElem?_eq_some_iff.mp hx).1 ▸ hx) i hi

theorem Spells.concat (h : Spells P p (ws ++ [w])) : Spells P (p + VALUE_SIZE * ws.length) [w] := by
  have hdrop := h.drop ws.length
  rwa [List.drop_left] at hdrop

theorem Spells.zero (h : Spells P p (0#16 :: ws)) {j : ℕ} (hlo : p ≤ j) (hhi : j < p + VALUE_SIZE) :
    ¬ P j := by
  intro hj
  have hbit := (h.head (i := j - p) (by omega)).mpr (by rwa [show p + (j - p) = j by omega])
  rw [BitVec.getLsbD_zero] at hbit
  exact Bool.false_ne_true hbit

theorem Spells.zeros {p : ℕ} {ws : List Word} (h : Spells P p ws) (hzero : ∀ w ∈ ws, w = 0#16) {j : ℕ}
    (hlo : p ≤ j) (hhi : j < p + VALUE_SIZE * ws.length) : ¬ P j := by
  induction ws generalizing p with
  | nil =>
    rw [List.length_nil] at hhi
    omega
  | cons w ws ih =>
    rw [List.length_cons, Nat.mul_succ] at hhi
    by_cases hj : j < p + VALUE_SIZE
    · exact (hzero w (by simp) ▸ h).zero hlo hj
    · exact ih h.tail (fun x hx => hzero x (by simp [hx])) (by omega) (by omega)

theorem test_POS {i : ℕ} (hi : i < VALUE_SIZE) : w &&& POS i ≠ 0#16 ↔ w.getLsbD i = true := by
  rw [POS_eq]
  exact and_twoPow_ne_zero w (by unfold VALUE_SIZE at hi; omega)

end Words

theorem get_word {b : Bitmap} {k i : ℕ} {w : Word} (hw : b.m_data[k]? = some w) (hi : i < VALUE_SIZE) :
    b.get (VALUE_SIZE * k + i) = .ok (w.getLsbD i) := by
  have hdiv : (VALUE_SIZE * k + i) / VALUE_SIZE = k := by unfold VALUE_SIZE at *; omega
  have hmod : (VALUE_SIZE * k + i) % VALUE_SIZE = i := by unfold VALUE_SIZE at *; omega
  rw [get_eq (w := w) (by rw [hdiv]; exact hw), hmod]

theorem spells_get {b : Bitmap} : Spells (fun i => b.get i = .ok true) 0 b.m_data := by
  intro k w hw i hi
  have hget := get_word hw hi
  rw [Nat.zero_add]
  exact ⟨fun h => hget.trans (congrArg Except.ok h), fun h => Except.ok.inj (hget.symm.trans h)⟩

theorem pack_eq_zero {w₀ w₁ w₂ w₃ : Word} :
    pack w₀ w₁ w₂ w₃ = 0#64 ↔ w₀ = 0#16 ∧ w₁ = 0#16 ∧ w₂ = 0#16 ∧ w₃ = 0#16 := by
  constructor
  · intro h
    obtain ⟨h₀, h₁, h₂, h₃⟩ := lane_pack w₀ w₁ w₂ w₃
    rw [h] at h₀ h₁ h₂ h₃
    exact ⟨h₀.symm, h₁.symm, h₂.symm, h₃.symm⟩
  · rintro ⟨rfl, rfl, rfl, rfl⟩
    rfl

theorem exists_four {ws : List Word} (h : 4 ≤ ws.length) :
    ∃ w₀ w₁ w₂ w₃ ws', ws = w₀ :: w₁ :: w₂ :: w₃ :: ws' := by
  match ws, h with
  | w₀ :: w₁ :: w₂ :: w₃ :: ws', _ => exact ⟨w₀, w₁, w₂, w₃, ws', rfl⟩

section Visit

variable {P : ℕ → Prop} [DecidablePred P] {σ : Type} (cb : ℕ → σ → Bool × σ) {size : ℕ}

theorem visitBits_eq {w : Word} (turns : ℕ) : ∀ (n p : ℕ) (s : σ), n + turns ≤ VALUE_SIZE →
    (∀ i < turns, w.getLsbD (n + i) = true ↔ P (p + i)) →
    let r := visitBits cb size w turns n p s
    let fed := feed cb (between P p (min (p + turns) size)) s
    r.1 = fed.1 ∧ r.2.2 = fed.2 ∧ (r.1 = true → p + turns ≤ size → r.2.1 = p + turns) := by
  induction turns with
  | zero =>
    intro n p s _ _
    have hnil : between P p (min (p + 0) size) = [] := between_of_le (Nat.min_le_left _ _)
    simp only [visitBits, hnil, feed]
    exact ⟨trivial, trivial, fun _ _ => rfl⟩
  | succ turns ih =>
    intro n p s hn hbits
    have hnext : ∀ s, _ := fun s => ih (n + 1) (p + 1) s (by omega) fun i hi => by
      rw [show n + 1 + i = n + (i + 1) by ring, show p + 1 + i = p + (i + 1) by ring]
      exact hbits (i + 1) (by omega)
    rw [show p + 1 + turns = p + (turns + 1) by ring] at hnext
    by_cases hp : p < size
    · have hbit : w &&& POS n ≠ 0#16 ↔ P p := (test_POS (by omega)).trans (hbits 0 (by omega))
      rw [between_succ (by omega)]
      simp only [visitBits, if_pos hp, hbit]
      by_cases hP : P p
      · simp only [if_pos hP, feed]
        by_cases hcb : (cb p s).1 = true
        · simp only [if_pos hcb]
          exact hnext _
        · simp only [if_neg hcb]
          exact ⟨trivial, trivial, fun h => absurd h Bool.false_ne_true⟩
      · simp only [if_neg hP]
        exact hnext s
    · have hnil : between P p (min (p + (turns + 1)) size) = [] := between_of_le (by omega)
      simp only [visitBits, if_neg hp, hnil, feed]
      exact ⟨trivial, trivial, fun _ h => by omega⟩

theorem visitWord_eq (size : ℕ) {w : Word} {ws : List Word} {p : ℕ} (h : Spells P p (w :: ws)) (s : σ) :
    let r := visitBits cb size w VALUE_SIZE 0 p s
    let fed := feed cb (between P p (min (p + VALUE_SIZE) size)) s
    r.1 = fed.1 ∧ r.2.2 = fed.2 ∧ (r.1 = true → p + VALUE_SIZE ≤ size → r.2.1 = p + VALUE_SIZE) :=
  visitBits_eq cb VALUE_SIZE 0 p s (by omega) fun i hi => by
    rw [Nat.zero_add]
    exact h.head hi

theorem visitWords_eq (size : ℕ) (ws : List Word) : ∀ (p : ℕ) (s : σ), Spells P p ws →
    p + VALUE_SIZE * ws.length ≤ size →
    let r := visitWords cb size ws p s
    let fed := feed cb (between P p (p + VALUE_SIZE * ws.length)) s
    r.1 = fed.1 ∧ r.2.2 = fed.2 ∧ (r.1 = true → r.2.1 = p + VALUE_SIZE * ws.length) := by
  induction ws with
  | nil =>
    intro p s _ _
    have hnil : between P p (p + VALUE_SIZE * 0) = [] := between_of_le (by omega)
    simp only [visitWords, List.length_nil, hnil, feed]
    exact ⟨trivial, trivial, fun _ => rfl⟩
  | cons w ws ih =>
    intro p s h hle
    rw [List.length_cons, Nat.mul_add, Nat.mul_one] at hle ⊢
    obtain ⟨hgo, hstate, hpos⟩ := visitWord_eq cb size h s
    rw [Nat.min_eq_left (by omega)] at hgo hstate
    have hsplit : between P p (p + (VALUE_SIZE * ws.length + VALUE_SIZE)) =
        between P p (p + VALUE_SIZE) ++
          between P (p + VALUE_SIZE) (p + VALUE_SIZE + VALUE_SIZE * ws.length) := by
      rw [between_append (p + VALUE_SIZE) (by omega) (by omega)]
      congr 2
      ring
    simp only [visitWords, hsplit, feed_append]
    by_cases hfed : (feed cb (between P p (p + VALUE_SIZE)) s).1 = true
    · rw [if_pos (hgo.trans hfed), if_pos hfed, hpos (hgo.trans hfed) (by omega), hstate]
      obtain ⟨hgo', hstate', hpos'⟩ := ih (p + VALUE_SIZE)
        (feed cb (between P p (p + VALUE_SIZE)) s).2 h.tail (by omega)
      refine ⟨hgo', hstate', fun hr => ?_⟩
      rw [hpos' hr]
      ring
    · rw [if_neg fun heq => hfed (hgo.symm.trans heq), if_neg hfed]
      exact ⟨hgo, hstate, fun heq => absurd (hgo.symm.trans heq) hfed⟩

/-- Only the last word may reach beyond the size. -/
def Fits (size p : ℕ) (ws : List Word) : Prop :=
  size ≤ p + VALUE_SIZE * ws.length ∧ (ws ≠ [] → p + VALUE_SIZE * ws.length < size + VALUE_SIZE)

theorem visitTail_eq (hsize : size + VALUE_SIZE ≤ 2 ^ 32) (ws : List Word) : ∀ (p : ℕ) (s : σ),
    Spells P p ws → Fits size p ws →
    visitTail cb size ws p s = (feed cb (between P p size) s).2 := by
  induction ws with
  | nil =>
    intro p s _ hfits
    have hnil : between P p size = [] := between_of_le (by simpa using hfits.1)
    rw [visitTail, hnil]
    rfl
  | cons w ws ih =>
    intro p s h hfits
    obtain ⟨hle, hlt⟩ := hfits
    have hlt := hlt (List.cons_ne_nil _ _)
    rw [List.length_cons, Nat.mul_add, Nat.mul_one] at hle hlt
    obtain ⟨hgo, hstate, hpos⟩ := visitWord_eq cb size h s
    have hsplit : between P p size = between P p (min (p + VALUE_SIZE) size) ++
        between P (min (p + VALUE_SIZE) size) size :=
      between_append _ (by omega) (Nat.min_le_right _ _)
    -- behind the last word nothing is left
    have hrest : ∀ q s, (ws ≠ [] → q = p + VALUE_SIZE) →
        visitTail cb size ws q s = (feed cb (between P (min (p + VALUE_SIZE) size) size) s).2 := by
      intro q s hq
      by_cases hws : ws = []
      · subst hws
        have hnil : between P (min (p + VALUE_SIZE) size) size = [] :=
          between_of_le (by simp only [List.length_nil] at hle; omega)
        rw [hnil, visitTail]
        rfl
      · have hpos := List.length_pos_iff.mpr hws
        have hnext : p + VALUE_SIZE ≤ size := by unfold VALUE_SIZE at *; omega
        rw [hq hws, Nat.min_eq_left hnext]
        exact ih _ s h.tail ⟨by omega, fun _ => by omega⟩
    rw [hsplit, feed_append, visitTail]
    by_cases hw : w = 0#16
    · subst hw
      have hnil : between P p (min (p + VALUE_SIZE) size) = [] :=
        between_eq_nil fun j hlo hhi => h.zero hlo (by omega)
      rw [if_pos rfl, hnil, feed, if_pos rfl]
      refine hrest _ s fun hws => Nat.mod_eq_of_lt ?_
      have hlen := List.length_pos_iff.mpr hws
      unfold VALUE_SIZE at *
      omega
    · rw [if_neg hw]
      dsimp only
      by_cases hfed : (feed cb (between P p (min (p + VALUE_SIZE) size)) s).1 = true
      · rw [if_pos (hgo.trans hfed), if_pos hfed, hstate]
        refine hrest _ _ fun hws => hpos (hgo.trans hfed) ?_
        have hlen := List.length_pos_iff.mpr hws
        unfold VALUE_SIZE at *
        omega
      · rw [if_neg fun heq => hfed (hgo.symm.trans heq), if_neg hfed, hstate]

theorem visitGroups_eq (hsize : size + VALUE_SIZE ≤ 2 ^ 32) (n : ℕ) :
    ∀ (ws : List Word) (p : ℕ) (s : σ), Spells P p ws → Fits size p ws →
      p + U64_VALUE_SIZE * n ≤ size →
      visitGroups cb size n ws p s = .ok (feed cb (between P p size) s).2 := by
  induction n with
  | zero =>
    intro ws p s h hfits _
    rw [visitGroups, visitTail_eq cb hsize ws p s h hfits]
  | succ n ih =>
    intro ws p s h hfits hn
    have hgroup : U64_VALUE_SIZE = VALUE_SIZE * 4 := rfl
    have hlen : 4 ≤ ws.length := by
      have hle := hfits.1
      rw [Nat.mul_succ] at hn
      unfold VALUE_SIZE at *
      omega
    obtain ⟨w₀, w₁, w₂, w₃, ws, rfl⟩ := exists_four hlen
    have hnext : p + U64_VALUE_SIZE ≤ size := by rw [Nat.mul_succ] at hn; omega
    have htail : Spells P (p + U64_VALUE_SIZE) ws := h.drop 4
    have hfour : Spells P p [w₀, w₁, w₂, w₃] :=
      Spells.init (h : Spells P p ([w₀, w₁, w₂, w₃] ++ ws))
    have hfits' : Fits size (p + U64_VALUE_SIZE) ws := by
      obtain ⟨hle, hlt⟩ := hfits
      simp only [List.length_cons] at hle hlt
      refine ⟨by unfold VALUE_SIZE at *; omega, fun _ => ?_⟩
      have hlt := hlt (List.cons_ne_nil _ _)
      unfold VALUE_SIZE at *
      omega
    have hrest := fun s => ih ws (p + U64_VALUE_SIZE) s htail hfits' (by
      rw [Nat.mul_succ] at hn
      omega)
    rw [visitGroups, between_append (p + U64_VALUE_SIZE) (by omega) hnext, feed_append]
    by_cases hzero : pack w₀ w₁ w₂ w₃ = 0#64
    · obtain ⟨rfl, rfl, rfl, rfl⟩ := pack_eq_zero.mp hzero
      have hnil : between P p (p + U64_VALUE_SIZE) = [] :=
        between_eq_nil fun j hlo hhi => hfour.zeros (by simp) hlo hhi
      rw [if_pos hzero, hnil, feed, if_pos rfl, Nat.mod_eq_of_lt (by unfold VALUE_SIZE at *; omega)]
      exact hrest s
    · obtain ⟨hgo, hstate, hpos⟩ := visitWords_eq cb size [w₀, w₁, w₂, w₃] p s hfour
        (by simp only [List.length_cons, List.length_nil]; omega)
      rw [if_neg hzero]
      dsimp only
      change _ = (feed cb (between P p (p + U64_VALUE_SIZE)) s).1 at hgo
      change _ = (feed cb (between P p (p + U64_VALUE_SIZE)) s).2 at hstate
      by_cases hfed : (feed cb (between P p (p + U64_VALUE_SIZE)) s).1 = true
      · rw [if_pos (hgo.trans hfed), if_pos hfed, hpos (hgo.trans hfed), hstate]
        exact hrest _
      · rw [if_neg fun heq => hfed (hgo.symm.trans heq), if_neg hfed, hstate]

end Visit

end Bitmap

end Sylar
