import Mathlib.Data.List.Basic
import Mathlib.Tactic

/-! Looking for an element that passes a test, from some position of a list on and once around
it. A counter that wraps in the middle leaves positions out where the size does not divide the
number at which it wraps. -/

namespace Lib

variable {α ε : Type}

/-- The elements at the positions, one after the other, up to the first that passes. -/
def probe (e : ε) (l : List α) (ok : α → Bool) : List ℕ → Except ε (Option α)
  | [] => .ok none
  | p :: ps =>
      match l[p]? with
      | none => .error e
      | some x => if ok x then .ok (some x) else probe e l ok ps

/-- The positions from `r` on, once around a list of `n` elements. -/
def around (n r : ℕ) : List ℕ := (List.range n).map fun i => (r + i) % n

/-- The same for a counter that wraps at `W`. -/
def aroundWrapping (W n r : ℕ) : List ℕ := (List.range n).map fun i => (r + i) % W % n

variable {e : ε} {l : List α} {ok : α → Bool}

variable (e ok) in
/-- What is found passes, and where nothing is found nothing at the positions passes. -/
theorem probe_spec : ∀ {ps : List ℕ}, (∀ p ∈ ps, p < l.length) →
    ∃ r, probe e l ok ps = .ok r ∧ (∀ x, r = some x → x ∈ l ∧ ok x = true) ∧
      (r = none ↔ ∀ p ∈ ps, ∀ x, l[p]? = some x → ok x = false)
  | [], _ => ⟨none, rfl, nofun, by simp⟩
  | p :: ps, hps => by
    obtain ⟨x, hx⟩ : ∃ x, l[p]? = some x :=
      ⟨_, List.getElem?_eq_getElem (hps p List.mem_cons_self)⟩
    simp only [probe, hx]
    cases hok : ok x with
    | true =>
      refine ⟨some x, rfl, ?_, nofun, fun h => ?_⟩
      · rintro y ⟨⟩
        exact ⟨List.mem_of_getElem? hx, hok⟩
      · rw [h p List.mem_cons_self x hx] at hok
        cases hok
    | false =>
      obtain ⟨r, hr, hfound, hnone⟩ := probe_spec fun q hq => hps q (List.mem_cons_of_mem p hq)
      refine ⟨r, hr, hfound, hnone.trans ⟨fun h q hq y hy => ?_, fun h q hq => ?_⟩⟩
      · rcases List.mem_cons.mp hq with rfl | hq
        · rw [hx] at hy
          cases hy
          exact hok
        · exact h q hq y hy
      · exact h q (List.mem_cons_of_mem p hq)

variable (e ok) in
/-- Where something is found, and what is at a position that is looked at passes. -/
theorem probe_finds {ps : List ℕ} (hps : ∀ p ∈ ps, p < l.length) :
    (∃ x, probe e l ok ps = .ok (some x) ∧ ok x = true) ↔
      ∃ p ∈ ps, ∃ x, l[p]? = some x ∧ ok x = true := by
  obtain ⟨r, hr, hfound, hnone⟩ := probe_spec e ok hps
  constructor
  · rintro ⟨x, hx, -⟩
    rw [hr] at hx
    cases hx
    by_contra hno
    push Not at hno
    exact absurd (hnone.mpr fun p hp y hy => by simpa using hno p hp y hy) nofun
  · rintro ⟨p, hp, x, hx, hok⟩
    cases r with
    | none =>
      rw [hnone.mp rfl p hp x hx] at hok
      cases hok
    | some y => exact ⟨y, hr, (hfound y rfl).2⟩

theorem mem_around {n r p : ℕ} : p ∈ around n r ↔ p < n := by
  simp only [around, List.mem_map, List.mem_range]
  constructor
  · rintro ⟨i, hi, rfl⟩
    exact Nat.mod_lt _ (by omega)
  · intro hp
    have hr : r % n < n := Nat.mod_lt r (by omega)
    have hsplit : n * (r / n) + r % n = r := Nat.div_add_mod r n
    refine ⟨if r % n ≤ p then p - r % n else p + n - r % n, by split <;> omega, ?_⟩
    split
    · rw [show r + (p - r % n) = p + n * (r / n) by omega, Nat.add_mul_mod_self_left,
        Nat.mod_eq_of_lt hp]
    · rw [show r + (p + n - r % n) = p + n * (r / n + 1) by rw [Nat.mul_add]; omega,
        Nat.add_mul_mod_self_left, Nat.mod_eq_of_lt hp]

/-- From any position on, an element that passes is found where there is one. -/
theorem probe_around (r : ℕ) :
    ∃ o, probe e l ok (around l.length r) = .ok o ∧ (∀ x, o = some x → x ∈ l ∧ ok x = true) ∧
      (o = none ↔ ∀ x ∈ l, ok x = false) := by
  obtain ⟨o, ho, hfound, hnone⟩ := probe_spec e ok (l := l) fun p (hp : p ∈ around l.length r) =>
    mem_around.mp hp
  refine ⟨o, ho, hfound, hnone.trans ⟨fun h x hx => ?_, fun h p _ x hx => ?_⟩⟩
  · obtain ⟨p, hp⟩ := List.mem_iff_getElem?.mp hx
    exact h p (mem_around.mpr (List.getElem?_eq_some_iff.mp hp).1) x hp
  · exact h x (List.mem_of_getElem? hx)

/-- The position that is `q` from the end of a list of `n` elements is left out when a counter
wraps at `W` after `k` steps: neither the `k` steps before come to it nor those after. -/
def LeftOut (W n k q : ℕ) : Prop := q < k ∧ k ≤ (W + q) % n

instance (W n k q : ℕ) : Decidable (LeftOut W n k q) := inferInstanceAs (Decidable (_ ∧ _))

theorem wrapping_visits {W n c p : ℕ} (hp : p < n) (hn : n ≤ W) (hc : c ≤ W) :
    (∃ i < n, (c + i) % W % n = p) ↔ ¬ LeftOut W n (W - c) (n - 1 - p) := by
  unfold LeftOut
  constructor
  · rintro ⟨i, hi, hvisit⟩ ⟨hbefore, hafter⟩
    by_cases hwrap : c + i < W
    · -- the step is one of those before the counter wraps
      rw [Nat.mod_eq_of_lt hwrap] at hvisit
      have hsplit : n * ((c + i) / n) + p = c + i := hvisit ▸ Nat.div_add_mod (c + i) n
      rw [show W + (n - 1 - p) = (W - c - i - 1) + n * ((c + i) / n + 1) by
        rw [Nat.mul_add]; omega, Nat.add_mul_mod_self_left] at hafter
      have hle := Nat.mod_le (W - c - i - 1) n
      omega
    · have hmod : (c + i) % W = c + i - W := by
        rw [Nat.mod_eq_sub_mod (by omega), Nat.mod_eq_of_lt (by omega)]
      rw [hmod, Nat.mod_eq_of_lt (by omega)] at hvisit
      omega
  · intro hnot
    have hmod : (W + (n - 1 - p)) % n < n := Nat.mod_lt _ (by omega)
    have hsplit := Nat.div_add_mod (W + (n - 1 - p)) n
    by_cases hshort : n ≤ W - c
    · -- the counter does not wrap
      obtain ⟨i, hi, hvisit⟩ := List.mem_map.mp ((mem_around (r := c)).mpr hp)
      rw [List.mem_range] at hi
      have hno : (c + i) % W = c + i := Nat.mod_eq_of_lt (by omega)
      exact ⟨i, hi, by rw [hno]; exact hvisit⟩
    · by_cases hlate : n - 1 - p < W - c
      · set t := (W + (n - 1 - p)) % n with ht
        have hd0 : (W + (n - 1 - p)) / n ≠ 0 := by
          intro h0
          rw [h0, Nat.mul_zero] at hsplit
          omega
        obtain ⟨b, hb⟩ := Nat.exists_eq_succ_of_ne_zero hd0
        rw [hb, Nat.mul_succ] at hsplit
        have hno : (c + (W - c - 1 - t)) % W = c + (W - c - 1 - t) := Nat.mod_eq_of_lt (by omega)
        refine ⟨W - c - 1 - t, by omega, ?_⟩
        rw [hno, show c + (W - c - 1 - t) = p + n * b by omega, Nat.add_mul_mod_self_left,
          Nat.mod_eq_of_lt hp]
      · have hat : (c + (W - c + p)) % W = p := by
          rw [show c + (W - c + p) = p + W by omega, Nat.add_mod_right, Nat.mod_eq_of_lt (by omega)]
        exact ⟨W - c + p, by omega, by rw [hat, Nat.mod_eq_of_lt hp]⟩

theorem mem_aroundWrapping {W n c p : ℕ} (hn : n ≤ W) (hc : c ≤ W) :
    p ∈ aroundWrapping W n c ↔ p < n ∧ ¬ LeftOut W n (W - c) (n - 1 - p) := by
  simp only [aroundWrapping, List.mem_map, List.mem_range]
  constructor
  · rintro ⟨i, hi, rfl⟩
    have hp := Nat.mod_lt ((c + i) % W) (show 0 < n by omega)
    exact ⟨hp, (wrapping_visits hp hn hc).mp ⟨i, hi, rfl⟩⟩
  · rintro ⟨hp, hreach⟩
    exact (wrapping_visits hp hn hc).mpr hreach

/-- A counter that does not wrap goes around as one that never does. -/
theorem aroundWrapping_eq {W n r : ℕ} (h : r + n ≤ W) : aroundWrapping W n r = around n r := by
  refine List.map_congr_left fun i hi => ?_
  rw [List.mem_range] at hi
  rw [Nat.mod_eq_of_lt (show r + i < W by omega)]

/-- Nothing is left out where the size divides the number at which the counter wraps. -/
theorem not_leftOut_of_dvd {W n k q : ℕ} (h : n ∣ W) (hq : q < n) : ¬ LeftOut W n k q := by
  rintro ⟨hbefore, hafter⟩
  obtain ⟨d, rfl⟩ := h
  rw [Nat.add_comm, Nat.add_mul_mod_self_left, Nat.mod_eq_of_lt hq] at hafter
  omega

end Lib
