import Sylar.Proofs.BitmapPositions
import Sylar.Proofs.BitmapResize

/-! `rforeach` goes down from the last place. Where the last word is not full it starts one bit
too high, so that a bit set just behind the size is taken for a place. -/

namespace Sylar

open Lib

namespace Bitmap

/-- The running position when the places from `p` on have been dealt with. -/
def before (p : ℕ) : ℕ := down p 1

theorem before_eq {p : ℕ} (h1 : 1 ≤ p) (h : p ≤ 2 ^ 32) : before p = p - 1 := by
  unfold before down
  omega

theorem down_before {p n : ℕ} (hn : n ≤ p) (h : p ≤ 2 ^ 32) : down (before p) n = before (p - n) := by
  unfold before down
  omega

theorem before_succ (p : ℕ) : (before p + 1) % 2 ^ 32 = before (p + 1) := by
  unfold before down
  omega

/-- The places from `lo` on and below `hi` were given from the last one down. -/
structure Descends (P : ℕ → Prop) [DecidablePred P] {σ : Type} (cb : ℕ → σ → Bool × σ) (lo hi : ℕ)
    (s : σ) (r : Bool × ℕ × σ) : Prop where
  going : r.1 = (feed cb (between P lo hi).reverse s).1
  state : r.2.2 = (feed cb (between P lo hi).reverse s).2
  pos : r.1 = true → r.2.1 = before lo

section Descend

variable {P : ℕ → Prop} [DecidablePred P] {σ : Type} (cb : ℕ → σ → Bool × σ) {lo mid hi : ℕ} {s : σ}

theorem descends_none (h : ∀ j, lo ≤ j → j < hi → ¬ P j) (s : σ) :
    Descends P cb lo hi s (true, before lo, s) := by
  have hnil : between P lo hi = [] := between_eq_nil h
  refine ⟨?_, ?_, fun _ => rfl⟩
  · rw [hnil]
    rfl
  · rw [hnil]
    rfl

variable {cb}

/-- The upper part, and then the lower one unless the callback has said stop. -/
theorem Descends.then {r r' : Bool × ℕ × σ} (hlo : lo ≤ mid) (hhi : mid ≤ hi)
    (h : Descends P cb mid hi s r) (h' : r.1 = true → Descends P cb lo mid r.2.2 r') :
    Descends P cb lo hi s (if r.1 then r' else r) := by
  have hsplit : feed cb (between P lo hi).reverse s =
      if r.1 then feed cb (between P lo mid).reverse r.2.2 else (r.1, r.2.2) := by
    rw [between_append mid hlo hhi, List.reverse_append, feed_append, h.going, h.state]
  cases hr : r.1 with
  | true =>
    have hnext := h' hr
    rw [if_pos rfl]
    rw [hr, if_pos rfl] at hsplit
    exact ⟨by rw [hsplit]; exact hnext.going, by rw [hsplit]; exact hnext.state, hnext.pos⟩
  | false =>
    rw [if_neg Bool.false_ne_true]
    rw [hr, if_neg Bool.false_ne_true] at hsplit
    refine ⟨by rw [hsplit]; exact hr, by rw [hsplit], fun h => ?_⟩
    exact absurd (hr.symm.trans h) Bool.false_ne_true

theorem Descends.finish {r : Bool × ℕ × σ} {f : ℕ → σ → Except Fault σ} (hhi : lo ≤ hi)
    (h : Descends P cb lo hi s r)
    (hf : ∀ s, f (before lo) s = .ok (feed cb (between P 0 lo).reverse s).2) :
    (if r.1 then f r.2.1 r.2.2 else .ok r.2.2) = .ok (feed cb (between P 0 hi).reverse s).2 := by
  rw [between_append lo (Nat.zero_le lo) hhi, List.reverse_append, feed_append, ← h.going, ← h.state]
  cases hr : r.1 with
  | true =>
    rw [if_pos rfl, if_pos rfl, h.pos hr]
    exact hf r.2.2
  | false => rw [if_neg Bool.false_ne_true, if_neg Bool.false_ne_true, h.state]

variable (cb)

theorem rvisitBits_descends {w : Word} {p : ℕ} (turns : ℕ) : ∀ s : σ, turns ≤ VALUE_SIZE →
    p + turns ≤ 2 ^ 32 → (∀ i < turns, w.getLsbD i = true ↔ P (p + i)) →
    Descends P cb p (p + turns) s (rvisitBits cb w turns (before (p + turns)) s) := by
  induction turns with
  | zero =>
    intro s _ _ _
    exact descends_none cb (fun j hlo hhi => by omega) s
  | succ turns ih =>
    intro s hturns hle hbits
    have hnext : ∀ s, _ := fun s => ih s (by omega) (by omega) fun i hi => hbits i (by omega)
    have hbit : w &&& POS turns ≠ 0#16 ↔ P (p + turns) :=
      (test_POS (by omega)).trans (hbits turns (by omega))
    have hdown : down (before (p + (turns + 1))) 1 = before (p + turns) :=
      down_before (by omega) hle
    have hpos : before (p + (turns + 1)) = p + turns := before_eq (by omega) hle
    have hlast : (between P p (p + (turns + 1))).reverse =
        (if P (p + turns) then [p + turns] else []) ++ (between P p (p + turns)).reverse := by
      rw [← Nat.add_assoc, between_succ_right (by omega), List.reverse_append]
      split <;> rfl
    simp only [rvisitBits, hbit, hdown]
    by_cases hP : P (p + turns)
    · simp only [if_pos hP] at hlast ⊢
      rw [hpos]
      by_cases hcb : (cb (p + turns) s).1 = true
      · simp only [if_pos hcb]
        obtain ⟨hgo, hstate, hbefore⟩ := hnext (cb (p + turns) s).2
        refine ⟨?_, ?_, hbefore⟩
        · rw [hlast, List.singleton_append, feed, if_pos hcb]
          exact hgo
        · rw [hlast, List.singleton_append, feed, if_pos hcb]
          exact hstate
      · simp only [if_neg hcb]
        refine ⟨?_, ?_, fun h => absurd h Bool.false_ne_true⟩
        · rw [hlast, List.singleton_append, feed, if_neg hcb]
        · rw [hlast, List.singleton_append, feed, if_neg hcb]
    · simp only [if_neg hP, List.nil_append] at hlast ⊢
      obtain ⟨hgo, hstate, hbefore⟩ := hnext s
      exact ⟨by rw [hlast]; exact hgo, by rw [hlast]; exact hstate, hbefore⟩

theorem rvisitWord_descends {w : Word} {ws : List Word} {p : ℕ} (h : Spells P p (w :: ws))
    (hle : p + VALUE_SIZE ≤ 2 ^ 32) (s : σ) :
    Descends P cb p (p + VALUE_SIZE) s (rvisitBits cb w VALUE_SIZE (before (p + VALUE_SIZE)) s) :=
  rvisitBits_descends cb VALUE_SIZE s le_rfl hle fun _ hi => h.head hi

theorem end_concat (p : ℕ) (ws : List Word) (w : Word) :
    p + VALUE_SIZE * (ws ++ [w]).length = p + VALUE_SIZE * ws.length + VALUE_SIZE := by
  rw [List.length_append, List.length_singleton]
  ring

/-- The words of `ws` from the last one down, none of them skipped. -/
theorem rvisitWords_descends {p : ℕ} (ws : List Word) : ∀ s : σ, Spells P p ws →
    p + VALUE_SIZE * ws.length ≤ 2 ^ 32 →
    Descends P cb p (p + VALUE_SIZE * ws.length) s
      (rvisitWords cb ws.reverse (before (p + VALUE_SIZE * ws.length)) s) := by
  induction ws using List.reverseRecOn with
  | nil =>
    intro s _ _
    exact descends_none cb (fun j hlo hhi => by simp only [List.length_nil] at hhi; omega) s
  | append_singleton ws w ih =>
    intro s h hle
    rw [end_concat] at hle ⊢
    have hword := rvisitWord_descends cb (h.concat) hle s
    rw [List.reverse_append, List.reverse_singleton, List.singleton_append, rvisitWords]
    refine hword.then (by omega) (by omega) fun hgo => ?_
    rw [hword.pos hgo]
    exact ih _ h.init (by omega)

/-- The words of `ws` from the last one down, those without bits skipped. -/
theorem rvisitTail_descends {p : ℕ} (ws : List Word) : ∀ s : σ, Spells P p ws →
    p + VALUE_SIZE * ws.length ≤ 2 ^ 32 →
    Descends P cb p (p + VALUE_SIZE * ws.length) s
      (rvisitTail cb ws.reverse (before (p + VALUE_SIZE * ws.length)) s) := by
  induction ws using List.reverseRecOn with
  | nil =>
    intro s _ _
    exact descends_none cb (fun j hlo hhi => by simp only [List.length_nil] at hhi; omega) s
  | append_singleton ws w ih =>
    intro s h hle
    rw [end_concat] at hle ⊢
    have hnext : ∀ s, _ := fun s => ih s h.init (by omega)
    rw [List.reverse_append, List.reverse_singleton, List.singleton_append, rvisitTail]
    by_cases hw : w = 0#16
    · have hskip : Descends P cb (p + VALUE_SIZE * ws.length)
          (p + VALUE_SIZE * ws.length + VALUE_SIZE) s (true, before (p + VALUE_SIZE * ws.length), s) :=
        descends_none cb (fun j hlo hhi => (hw ▸ h.concat).zero hlo hhi) s
      rw [if_pos hw, down_before (by omega) hle, Nat.add_sub_cancel]
      exact hskip.then (by omega) (by omega) fun _ => hnext s
    · have hword := rvisitWord_descends cb h.concat hle s
      rw [if_neg hw]
      refine hword.then (by omega) (by omega) fun hgo => ?_
      rw [hword.pos hgo]
      exact hnext _

theorem rvisitGroups_eq {data : List Word} (h : Spells P 0 data) (n : ℕ) : ∀ s : σ,
    n * U64_DIV_BASE ≤ data.length → U64_VALUE_SIZE * n ≤ 2 ^ 32 →
    rvisitGroups cb data n (before (U64_VALUE_SIZE * n)) s =
      .ok (feed cb (between P 0 (U64_VALUE_SIZE * n)).reverse s).2 := by
  induction n with
  | zero =>
    intro s _ _
    have hnil : between P 0 (U64_VALUE_SIZE * 0) = [] := between_of_le le_rfl
    rw [hnil]
    rfl
  | succ n ih =>
    intro s hn hle
    have hfour : 4 ≤ (data.drop (n * U64_DIV_BASE)).length := by
      rw [List.length_drop]
      unfold U64_DIV_BASE at *
      omega
    obtain ⟨w₀, w₁, w₂, w₃, ws, hdrop⟩ := exists_four hfour
    have hprev : U64_VALUE_SIZE * n ≤ 2 ^ 32 := (Nat.mul_le_mul_left _ (Nat.le_succ n)).trans hle
    have hnext := fun s => ih s (by unfold U64_DIV_BASE at *; omega) hprev
    -- the group, as the words from its first place on
    have hgroup : Spells P (U64_VALUE_SIZE * n) [w₀, w₁, w₂, w₃] := by
      have hspells := h.drop (n * U64_DIV_BASE)
      rw [hdrop, Nat.zero_add, Nat.mul_comm n, ← Nat.mul_assoc] at hspells
      exact Spells.init (hspells : Spells P _ ([w₀, w₁, w₂, w₃] ++ ws))
    have hwords : Descends P cb (U64_VALUE_SIZE * n) (U64_VALUE_SIZE * (n + 1)) s
        (rvisitWords cb [w₃, w₂, w₁, w₀] (before (U64_VALUE_SIZE * (n + 1))) s) :=
      rvisitWords_descends cb [w₀, w₁, w₂, w₃] s hgroup hle
    have hstep : U64_VALUE_SIZE * n ≤ U64_VALUE_SIZE * (n + 1) := Nat.mul_le_mul_left _ (Nat.le_succ n)
    rw [rvisitGroups, hdrop]
    dsimp only
    by_cases hzero : pack w₀ w₁ w₂ w₃ = 0#64
    · obtain ⟨rfl, rfl, rfl, rfl⟩ := pack_eq_zero.mp hzero
      have hdown : down (before (U64_VALUE_SIZE * (n + 1))) U64_VALUE_SIZE =
          before (U64_VALUE_SIZE * n) :=
        down_before (Nat.le_mul_of_pos_right _ (Nat.succ_pos n)) hle
      have hskip := descends_none cb (fun j hlo hhi => hgroup.zeros (by simp) hlo hhi) s
      rw [if_pos hzero, hdown]
      exact hskip.finish hstep hnext
    · rw [if_neg hzero]
      exact hwords.finish hstep hnext

/-- Where the walk starts: one bit too high where the last word is not full. -/
def top (size : ℕ) : ℕ := if size % VALUE_SIZE = 0 then size else size + 1

theorem rvisitStart_descends {k size : ℕ} {w : Word} (h : Spells P (VALUE_SIZE * k) [w])
    (hlo : VALUE_SIZE * k < size) (hhi : size ≤ VALUE_SIZE * k + VALUE_SIZE) (hsize : size < 2 ^ 32)
    (s : σ) : Descends P cb (VALUE_SIZE * k) (top size) s (rvisitStart cb size w (before size) s) := by
  unfold rvisitStart top
  by_cases hfull : size % VALUE_SIZE = 0
  · obtain rfl : size = VALUE_SIZE * k + VALUE_SIZE := by unfold VALUE_SIZE at *; omega
    simp only [if_pos hfull]
    by_cases hw : w = 0#16
    · rw [if_pos hw, down_before (by omega) (by omega), Nat.add_sub_cancel]
      exact descends_none cb (fun j hlo hhi => (hw ▸ h).zero hlo hhi) s
    · rw [if_neg hw]
      exact rvisitWord_descends cb h hsize.le s
  · have hmod : size = VALUE_SIZE * k + size % VALUE_SIZE := by unfold VALUE_SIZE at *; omega
    have hlt : size % VALUE_SIZE < VALUE_SIZE := Nat.mod_lt _ (by decide)
    simp only [if_neg hfull]
    by_cases hw : w = 0#16
    · have hdown : down (before size) (size % VALUE_SIZE) = before (VALUE_SIZE * k) := by
        rw [down_before (Nat.mod_le size _) (by omega)]
        congr 1
        omega
      rw [if_pos hw, hdown]
      exact descends_none cb (fun j hlo hhi => (hw ▸ h).zero hlo (by omega)) s
    · have hbits := rvisitBits_descends (P := P) (w := w) (p := VALUE_SIZE * k) cb
        (size % VALUE_SIZE + 1) s (by omega) (by omega) fun i hi => h.head (by omega)
      rw [← Nat.add_assoc, ← hmod] at hbits
      rw [if_neg hw, before_succ]
      exact hbits

end Descend

/-- The words outside of the groups: those before the last one, and the last one. -/
theorem Plain.last {b : Bitmap} (hb : Plain b) (hrest : b.m_size % U64_VALUE_SIZE ≠ 0) :
    ∃ ws start, b.m_data.drop (b.m_size / U64_VALUE_SIZE * U64_DIV_BASE) = ws ++ [start] ∧
      VALUE_SIZE * (b.m_size / U64_VALUE_SIZE * U64_DIV_BASE + ws.length) < b.m_size ∧
      b.m_size ≤ VALUE_SIZE * (b.m_size / U64_VALUE_SIZE * U64_DIV_BASE + ws.length) + VALUE_SIZE := by
  have hlen : b.m_data.length = wordsFor b.m_size := hb.2
  have hdrop : (b.m_data.drop (b.m_size / U64_VALUE_SIZE * U64_DIV_BASE)).length =
      wordsFor b.m_size - b.m_size / U64_VALUE_SIZE * U64_DIV_BASE := by rw [List.length_drop, hlen]
  have hgroup : U64_VALUE_SIZE = 56 := rfl
  rw [hgroup] at hrest hdrop ⊢
  unfold wordsFor U64_DIV_BASE VALUE_SIZE at *
  have hne : b.m_data.drop (b.m_size / 56 * 4) ≠ [] := by
    intro hnil
    rw [hnil, List.length_nil] at hdrop
    omega
  have hsplit := (List.dropLast_append_getLast hne).symm
  have hinit : (b.m_data.drop (b.m_size / 56 * 4)).dropLast.length =
      (b.m_data.drop (b.m_size / 56 * 4)).length - 1 := List.length_dropLast
  exact ⟨_, _, hsplit, by omega, by omega⟩

/-- The callback is given the places below the top, from the last one down. -/
theorem rforeach_eq {σ : Type} {b : Bitmap} (hb : Plain b) (hsize : b.m_size < 2 ^ 32)
    (cb : ℕ → σ → Bool × σ) (s : σ) :
    b.rforeach cb s =
      .ok (feed cb (between (fun i => b.get i = .ok true) 0 (top b.m_size)).reverse s).2 := by
  have hspells := spells_get (b := b)
  have hgroups := groups_fit b.m_size
  rw [Nat.zero_add] at hgroups
  have hwords : b.m_size / U64_VALUE_SIZE * U64_DIV_BASE ≤ b.m_data.length := by
    rw [hb.2, Nat.mul_comm]
    exact groups_le b.m_size
  have hlower := fun s => rvisitGroups_eq cb hspells (b.m_size / U64_VALUE_SIZE) s hwords (by omega)
  unfold rforeach
  dsimp only
  by_cases hrest : b.m_size % U64_VALUE_SIZE ≠ 0
  · obtain ⟨ws, start, hdrop, hlo, hhi⟩ := hb.last hrest
    have hfirst : U64_VALUE_SIZE * (b.m_size / U64_VALUE_SIZE) =
        VALUE_SIZE * (b.m_size / U64_VALUE_SIZE * U64_DIV_BASE) := by
      rw [Nat.mul_comm _ U64_DIV_BASE, ← Nat.mul_assoc]
      rfl
    have houtside := hspells.drop (b.m_size / U64_VALUE_SIZE * U64_DIV_BASE)
    rw [hdrop, Nat.zero_add] at houtside
    have hstart := houtside.concat
    rw [← Nat.mul_add] at hstart
    have htop : b.m_size ≤ top b.m_size := by
      unfold top
      split_ifs <;> omega
    rw [hfirst] at hlower
    rw [if_pos hrest, hdrop, List.reverse_append, List.reverse_singleton, List.singleton_append]
    refine (rvisitStart_descends cb hstart hlo hhi hsize s).finish
      (f := fun cur_pos s =>
        if (rvisitTail cb ws.reverse cur_pos s).1 then
          rvisitGroups cb b.m_data (b.m_size / U64_VALUE_SIZE)
            (rvisitTail cb ws.reverse cur_pos s).2.1 (rvisitTail cb ws.reverse cur_pos s).2.2
        else .ok (rvisitTail cb ws.reverse cur_pos s).2.2)
      (by omega) fun s => ?_
    have htail := rvisitTail_descends cb ws s houtside.init (by rw [← Nat.mul_add]; omega)
    rw [← Nat.mul_add] at htail
    exact htail.finish (Nat.mul_le_mul_left _ (Nat.le_add_right _ _)) hlower
  · have hfull : U64_VALUE_SIZE * (b.m_size / U64_VALUE_SIZE) = b.m_size :=
      Nat.mul_div_cancel' (Nat.dvd_of_mod_eq_zero (not_not.mp hrest))
    have htop : top b.m_size = b.m_size := by
      refine if_pos ?_
      have h0 : b.m_size % 56 = 0 := not_not.mp hrest
      unfold VALUE_SIZE
      omega
    rw [hfull] at hlower
    rw [if_neg hrest, htop]
    exact hlower s

theorem POS_bit {i j : ℕ} (hne : i ≠ j) : (POS j).getLsbD i = false := by
  rw [POS_eq, BitVec.getLsbD_twoPow, decide_eq_false hne.symm, Bool.and_false]

theorem NPOS_bit {i j : ℕ} (hi : i < 14) (hne : i ≠ j) : (NPOS j).getLsbD i = true := by
  rw [NPOS, BitVec.getLsbD_not, POS_bit hne, decide_eq_true (show i < 16 by omega)]
  rfl

theorem set_eq {b : Bitmap} {idx : ℕ} {w : Word} (h : b.m_data[idx / VALUE_SIZE]? = some w) (v : Bool) :
    b.set idx v = .ok
      { b with
        m_data := b.m_data.set (idx / VALUE_SIZE)
          (if v then w ||| POS (idx % VALUE_SIZE) else w &&& NPOS (idx % VALUE_SIZE)) } := by
  rw [set, store, h]
  rfl

theorem set_spec {b : Bitmap} (hb : Plain b) {idx : ℕ} (h : idx < b.m_size) (v : Bool) :
    ∃ b', b.set idx v = .ok b' ∧ Plain b' ∧ b'.m_size = b.m_size ∧
      ∀ i, i ≠ idx → b'.get i = b.get i := by
  have hlt : idx / VALUE_SIZE < b.m_data.length := by
    rw [hb.2]
    exact index_lt_wordsFor h
  have hword := List.getElem?_eq_getElem hlt
  refine ⟨_, set_eq hword v, ⟨hb.1, ?_⟩, rfl, fun i hne => ?_⟩
  · rw [List.length_set]
    exact hb.2
  · by_cases hsame : i / VALUE_SIZE = idx / VALUE_SIZE
    · have hmod : i % VALUE_SIZE < 14 := Nat.mod_lt _ (by decide)
      have hother : i % VALUE_SIZE ≠ idx % VALUE_SIZE := by
        intro hmod
        exact hne (by rw [← Nat.div_add_mod i VALUE_SIZE, hsame, hmod, Nat.div_add_mod])
      rw [get_eq (b := { b with m_data := _ }) (by rw [hsame]; exact List.getElem?_set_self hlt),
        get_eq (b := b) (by rw [hsame]; exact hword)]
      cases v with
      | true =>
        rw [if_pos rfl, BitVec.getLsbD_or, POS_bit hother, Bool.or_false]
      | false =>
        rw [if_neg Bool.false_ne_true, BitVec.getLsbD_and, NPOS_bit hmod hother, Bool.and_true]
    · exact get_of_index (List.getElem?_set_ne (Ne.symm hsame))

def setAll (b : Bitmap) (calls : List (ℕ × Bool)) : Except Fault Bitmap :=
  calls.foldlM (fun b c => b.set c.1 c.2) b

theorem setAll_spec (calls : List (ℕ × Bool)) : ∀ b : Bitmap, Plain b →
    (∀ c ∈ calls, c.1 < b.m_size) →
    ∃ b', b.setAll calls = .ok b' ∧ Plain b' ∧ b'.m_size = b.m_size ∧
      b'.get b.m_size = b.get b.m_size := by
  induction calls with
  | nil => exact fun b hb _ => ⟨b, rfl, hb, rfl, rfl⟩
  | cons c calls ih =>
    intro b hb hcalls
    have hc : c.1 < b.m_size := hcalls c (by simp)
    obtain ⟨b₁, hset, hb₁, hsize₁, hget₁⟩ := set_spec hb hc c.2
    obtain ⟨b', hall, hb', hsize', hget'⟩ := ih b₁ hb₁ fun d hd => by
      rw [hsize₁]
      exact hcalls d (by simp [hd])
    refine ⟨b', ?_, hb', hsize'.trans hsize₁, ?_⟩
    · rw [setAll, foldlM_cons_ok hset]
      exact hall
    · rw [hsize₁] at hget'
      exact hget'.trans (hget₁ _ (by omega))

theorem new_plain (size : ℕ) (def_ : UInt8) : Plain (new size def_) :=
  ⟨rfl, List.length_replicate⟩

/-- A callback that never says stop is given the places in reverse order. -/
def RforeachRight (b : Bitmap) : Prop :=
  let ps := (List.range b.getSize).filter fun i => b.get i = .ok true
  b.listPosAsc [] = .ok ps ∧
    ∀ {σ : Type} (cb : ℕ → σ → Bool × σ) (s : σ), (∀ p s, (cb p s).1 = true) →
      ∃ s', b.rforeach (logged cb) (s, []) = .ok (s', ps.reverse)

theorem rforeach_logged {σ : Type} {b : Bitmap} (hb : Plain b) (hsize : b.m_size < 2 ^ 32)
    (cb : ℕ → σ → Bool × σ) (hcb : ∀ p s, (cb p s).1 = true) (s : σ) :
    ∃ s', b.rforeach (logged cb) (s, []) =
      .ok (s', (between (fun i => b.get i = .ok true) 0 (top b.m_size)).reverse) := by
  rw [rforeach_eq hb hsize, feed_logged cb _ s [] (feed_going cb hcb _ s)]
  exact ⟨_, rfl⟩

theorem rforeachRight_iff {b : Bitmap} (hb : Plain b) (hsize : b.m_size + VALUE_SIZE ≤ 2 ^ 32) :
    b.RforeachRight ↔ b.m_size % VALUE_SIZE = 0 ∨ b.get b.m_size ≠ .ok true := by
  have hlt : b.m_size < 2 ^ 32 := by unfold VALUE_SIZE at hsize; omega
  have hlist := listPosAsc_eq hb hsize []
  rw [List.nil_append] at hlist
  have hplaces : ((List.range b.getSize).filter fun i => b.get i = .ok true) = b.places :=
    b.places_eq.symm
  unfold RforeachRight
  rw [hplaces]
  constructor
  · rintro ⟨-, hall⟩
    by_contra hwrong
    obtain ⟨hmod, hget⟩ := not_or.mp hwrong
    obtain ⟨s', hs'⟩ := hall (fun _ s => (true, s)) () fun _ _ => rfl
    obtain ⟨s'', hs''⟩ := rforeach_logged hb hlt (fun _ s => (true, s)) (fun _ _ => rfl) ()
    have heq := (Prod.mk.inj (Except.ok.inj (hs'.symm.trans hs''))).2
    have hmem : b.m_size ∈ b.places := by
      rw [← List.mem_reverse, heq, List.mem_reverse, mem_between]
      exact ⟨Nat.zero_le _, by rw [top, if_neg hmod]; omega, not_not.mp hget⟩
    exact absurd (mem_between.mp hmem).2.1 (lt_irrefl _)
  · intro hright
    refine ⟨hlist, fun cb s hcb => ?_⟩
    obtain ⟨s', hs'⟩ := rforeach_logged hb hlt cb hcb s
    refine ⟨s', hs'.trans ?_⟩
    congr 3
    unfold top places
    by_cases hmod : b.m_size % VALUE_SIZE = 0
    · rw [if_pos hmod]
    · have hget := hright.resolve_left hmod
      rw [if_neg hmod, between_succ_right (Nat.zero_le _), if_neg hget, List.append_nil]

/-- On a bitmap that was filled with bytes `def_`, and whose bits below its size were then set and
cleared, `rforeach` is right exactly if the byte has no bit set where it starts too high. -/
theorem rforeachRight_iff_fill (size : ℕ) (hsize : size < 2 ^ 31) (def_ : UInt8)
    (calls : List (ℕ × Bool)) (hcalls : ∀ c ∈ calls, c.1 < size) :
    ∃ b, (new size def_).setAll calls = .ok b ∧
      (b.RforeachRight ↔
        size % VALUE_SIZE = 0 ∨ (memsetWord def_).getLsbD (size % VALUE_SIZE) = false) := by
  obtain ⟨b, hall, hb, hsame, hget⟩ := setAll_spec calls (new size def_) (new_plain size def_) hcalls
  have hsize' : b.m_size = size := hsame
  refine ⟨b, hall, (rforeachRight_iff hb (by rw [hsize']; unfold VALUE_SIZE; omega)).trans ?_⟩
  rw [hsize']
  refine or_congr_right' fun hmod => ?_
  have hlt : size / VALUE_SIZE < wordsFor size := by
    unfold wordsFor VALUE_SIZE at *
    omega
  have hword : (new size def_).m_data[size / VALUE_SIZE]? = some (memsetWord def_) := by
    rw [new, List.getElem?_replicate, if_pos hlt]
  have hbit : b.get size = .ok ((memsetWord def_).getLsbD (size % VALUE_SIZE)) :=
    hget.trans (get_eq hword)
  rw [hbit, ne_eq, Except.ok.injEq, Bool.not_eq_true]

theorem rforeachRight_iff_fill_short :
    ∃ b, (new 20 0x3F).setAll [(3, false), (19, true)] = .ok b ∧
      (b.RforeachRight ↔ 20 % VALUE_SIZE = 0 ∨ (memsetWord 0x3F).getLsbD (20 % VALUE_SIZE) = false) :=
  rforeachRight_iff_fill 20 (by norm_num) 0x3F [(3, false), (19, true)] (by decide)

/-- A bitmap of one bit, filled with ones: the callback is given 1, and then 0. -/
theorem not_rforeachRight_ones :
    ∃ b, (new 1 0xFF).setAll [] = .ok b ∧ ¬ b.RforeachRight := by
  refine ⟨new 1 0xFF, rfl, ?_⟩
  rintro ⟨-, hall⟩
  obtain ⟨s', hs'⟩ := hall (fun _ s => (true, s)) () fun _ _ => rfl
  have hwrong : rforeach (new 1 0xFF) (logged fun _ s => (true, s)) ((), []) = .ok ((), [1, 0]) := by
    decide
  have hps : ((List.range 1).filter fun i => get (new 1 0xFF) i = .ok true).reverse = [0] := by decide
  have heq := (Prod.mk.inj (Except.ok.inj (hwrong.symm.trans hs'))).2.trans hps
  exact absurd heq (by decide)

end Bitmap

end Sylar
