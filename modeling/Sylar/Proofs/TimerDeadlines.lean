import Sylar.Proofs.Timers

/-! Deadlines. A slot has one expiration for all of its timers, the deadline of the timer
that came last. A scan takes out no timer early as long as no slot holds a timer that is due
after the slot expires, and leaves no due timer behind exactly as long as no slot that a
scan meets on the way to a timer expires after the timer is due. -/

namespace Sylar

open Lib

namespace TimerManager

variable {Cb : Type} {s s' : Run Cb} {o : Op Cb}

def InOrder (s : Run Cb) : Effect → Prop
  | .none => True
  | .insert _ _ t => s.clock ≤ t
  | .scan now now_ms => s.clock ≤ now ∧ now ≤ now_ms

instance (s : Run Cb) : DecidablePred (InOrder s)
  | .none => .isTrue trivial
  | .insert _ _ t => inferInstanceAs (Decidable (s.clock ≤ t))
  | .scan now now_ms => inferInstanceAs (Decidable (s.clock ≤ now ∧ now ≤ now_ms))

/-- Every timer that a scan returns from now on is due. -/
def NoneEarly (s : Run Cb) : Prop :=
  ∀ now expired w, s.clock ≤ now → s.m.m_timeWheel.getExpiredTimers now = some (expired, w) →
    ∀ y ∈ expired, next s.m y ≤ now

/-- No slot holds a timer that is due after the slot expires, what is due already apart. -/
def Covered (s : Run Cb) : Prop :=
  ∀ i, ∀ y ∈ (s.m.m_timeWheel.slotAt i).timers,
    next s.m y ≤ max (s.m.m_timeWheel.slotAt i).expiration s.clock

/-- What `timer` meets in the wheel `w` when it is inserted with the deadline `d` at `t`: the
other timers of its slot are due no later, and where it is already in another slot, that
slot does not expire before `d`. -/
def FitsSlot (m : TimerManager Cb) (timer d t : ℕ) : Prop :=
  ∀ i < m.m_timeWheel.m_slotSize,
    if i = m.m_timeWheel.ahead (d - t) then
      ∀ y ∈ (m.m_timeWheel.slotAt i).timers, y ≠ timer → next m y ≤ d
    else timer ∈ (m.m_timeWheel.slotAt i).timers → d ≤ max (m.m_timeWheel.slotAt i).expiration t

instance (m : TimerManager Cb) (timer d t : ℕ) : Decidable (FitsSlot m timer d t) :=
  Nat.decidableBallLT _ _

def KeepsCovered (s : Run Cb) : Effect → Prop
  | .insert x d t => t ≤ d → FitsSlot s.m x d t
  | .none | .scan _ _ => True

instance (s : Run Cb) : DecidablePred (KeepsCovered s)
  | .insert x d t => inferInstanceAs (Decidable (t ≤ d → FitsSlot s.m x d t))
  | .none | .scan _ _ => .isTrue trivial

theorem Covered.noneEarly (h : Covered s) : NoneEarly s := by
  intro now expired w hclock hget y hy
  obtain ⟨k, hpre, -, hmem, -⟩ := (TimeWheel.scan_of_some hget).shift
  obtain ⟨i, hi, hy⟩ := (hmem y).mp hy
  have hslot := h i y hy
  have hexp := hpre i hi
  omega

theorem Covered.insert (h : Covered s) {x d t : ℕ} (hclock : s.clock ≤ t)
    (hfits : t ≤ d → FitsSlot s.m x d t) (hs' : Applies s s' (.insert x d t)) : Covered s' := by
  obtain ⟨hwheel, hnext, hclock', -⟩ := hs'
  intro i y hy
  rw [hwheel] at hy ⊢
  rw [hnext, hclock']
  by_cases hd : t ≤ d
  · rw [TimeWheel.slotAt_addTimer hd] at hy ⊢
    have hsize := s.m.m_timeWheel.ahead_lt (d - t)
    by_cases hi : i = s.m.m_timeWheel.ahead (d - t)
    · -- the slot that takes the timer
      rw [if_pos hi] at hy ⊢
      split
      · exact le_max_left _ _
      · rename_i hyx
        rcases List.mem_append.mp hy with hy | hy
        · have hle := hfits hd i (by omega)
          rw [if_pos hi] at hle
          exact (hle y hy hyx).trans (le_max_left _ _)
        · exact absurd (List.mem_singleton.mp hy) hyx
    · rw [if_neg hi] at hy ⊢
      split
      · rename_i hyx
        have hle := hfits hd i (TimeWheel.lt_of_mem_slotAt hy)
        rw [if_neg hi] at hle
        exact hle (hyx ▸ hy)
      · have hold := h i y hy
        omega
  · rw [TimeWheel.addTimer_rejected (not_le.mp hd)] at hy ⊢
    have hold := h i y hy
    dsimp only
    split <;> omega

theorem Covered.step (h : Covered s) (hclock : InOrder s (effect s o))
    (hkeeps : KeepsCovered s (effect s o)) (hstep : step s o = .ok s') : Covered s' := by
  have happlies := step_applies hstep
  cases heff : effect s o with
  | none =>
    rw [heff] at happlies
    obtain ⟨hwheel, hnext, hclock', -⟩ := happlies
    intro i y hy
    rw [hwheel] at hy ⊢
    rw [hnext, hclock']
    exact h i y hy
  | insert x d t =>
    rw [heff] at happlies hclock hkeeps
    exact h.insert hclock hkeeps happlies
  | scan now now_ms =>
    rw [heff] at happlies hclock
    obtain ⟨expired, hget, htimers, hclock', -⟩ := happlies
    obtain ⟨hle, hle'⟩ := hclock
    obtain ⟨k, -, -, -, hshift⟩ := (TimeWheel.scan_of_some hget).shift
    intro i y hy
    rw [hshift] at hy ⊢
    have hold := h (k + i) y hy
    rw [next, htimers, hclock', ← next]
    omega

theorem not_mem_init (i y : ℕ) : y ∉ ((Run.init : Run Cb).m.m_timeWheel.slotAt i).timers := by
  intro hy
  have hempty := TimeWheel.mem_contents_of_slotAt hy
  rw [Run.init, TimerManager.new, TimeWheel.new_contents] at hempty
  exact absurd hempty List.not_mem_nil

theorem covered_init : Covered (Run.init : Run Cb) :=
  fun i y hy => absurd hy (not_mem_init i y)

/-- In a run in which every timer fits the slot it is inserted into, no scan returns a
timer before it is due. -/
theorem none_early_of_fits {os : List (Op Cb)}
    (hclock : Each step (fun s o => InOrder s (effect s o)) (Run.init : Run Cb) os)
    (hfits : Each step (fun s o => KeepsCovered s (effect s o)) (Run.init : Run Cb) os) :
    Along step NoneEarly (Run.init : Run Cb) os := by
  have hboth := hclock.and hfits
  refine (along_of_each Covered _ ?_ os _ covered_init hboth).mono fun s hs => hs.noneEarly
  intro s o s' hs ho hstep
  exact hs.step ho.1 ho.2 hstep

/-- Three timers in two slots; the scan at 950 takes out the first two. -/
def fittingOps : List (Op Unit) :=
  [.addTimer 900 (some ()) false 0 0, .addTimer 940 (some ()) true 0 0,
    .addTimer 5000 (some ()) false 0 0, .cancel 0, .takeExpired 950 950, .handOut 0 950]

theorem none_early_of_fits_two_slots : Along step NoneEarly (Run.init : Run Unit) fittingOps :=
  none_early_of_fits (by decide +kernel) (by decide +kernel)

/-- A slot gets a timer that is due at 900 and then one that is due at 100, and expires at
100: the scan at 100 returns both. -/
theorem earlier_timer_takes_later_with_it :
    ¬ Along step NoneEarly (Run.init : Run Unit)
      [.addTimer 900 (some ()) false 0 0, .addTimer 100 (some ()) false 0 0,
        .addTimer 5000 (some ()) false 0 0] := by
  intro h
  have hnone := (((h.2 _ rfl).2 _ rfl).2 _ rfl) 100 [0, 1] _ (Nat.zero_le _) rfl
  exact absurd (hnone 0 (by decide)) (by decide)

/-- From now on a scan that returns leaves no due timer in the wheel, and `getNextTimer`
waits for no timer longer than until it is due. -/
def NoneLeft (s : Run Cb) : Prop :=
  ∀ now, s.clock ≤ now →
    (∀ expired w, s.m.m_timeWheel.getExpiredTimers now = some (expired, w) →
      ∀ y ∈ w.contents, now < next s.m y) ∧
    ∀ y ∈ s.contents, (s.m.getNextTimer now).1 ≤ next s.m y - now

/-- No slot on the way to a timer expires after the timer is due, what is due already apart. -/
def Reached (s : Run Cb) : Prop :=
  ∀ i j, i ≤ j → ∀ y ∈ (s.m.m_timeWheel.slotAt j).timers,
    (s.m.m_timeWheel.slotAt i).expiration ≤ max (next s.m y) s.clock

theorem noneLeft_iff : NoneLeft s ↔ Reached s := by
  constructor
  · intro h i j hij y hy
    by_contra hlt
    rw [not_le, max_lt_iff] at hlt
    -- the scan just before slot `i` expires stops at `i` or in front of it
    obtain ⟨hscan, -⟩ := h ((s.m.m_timeWheel.slotAt i).expiration - 1) (by omega)
    rcases s.m.m_timeWheel.getExpiredTimers_cases ((s.m.m_timeWheel.slotAt i).expiration - 1) with
      ⟨expired, w, hget, hscanned⟩ | hall
    · obtain ⟨k, hpre, -, -, hshift⟩ := hscanned.shift
      have hk : k ≤ i := by
        by_contra hgt
        have := hpre i (by omega)
        omega
      have hleft : y ∈ (w.slotAt (j - k)).timers := by
        rw [hshift, Nat.add_sub_cancel' (by omega)]
        exact hy
      have hdue := hscan expired w hget y (TimeWheel.mem_contents_of_slotAt hleft)
      omega
    · have hi : i < s.m.m_timeWheel.order.length := by
        rw [TimeWheel.order_length]
        exact Nat.lt_of_le_of_lt hij (TimeWheel.lt_of_mem_slotAt hy)
      have hexp := hall _ (List.getElem_mem hi)
      rw [TimeWheel.slotAt, List.getD_eq_getElem _ _ hi] at hlt hexp
      omega
  · intro h now hclock
    refine ⟨fun expired w hget y hy => ?_, fun y hy => ?_⟩
    · obtain ⟨k, -, hstop, -, hshift⟩ := (TimeWheel.scan_of_some hget).shift
      obtain ⟨i, -, hy⟩ := TimeWheel.mem_contents.mp hy
      rw [hshift] at hy
      have hexp := h k (k + i) (by omega) y hy
      omega
    · obtain ⟨i, -, hy⟩ := TimeWheel.mem_contents.mp hy
      have hexp := h i i (Nat.le_refl _) y hy
      have hle := TimeWheel.getNextTimer_le now hy
      rw [getNextTimer]
      dsimp only
      omega

/-- What a timer meets when it is inserted with the deadline `d` at `t`. -/
@[mk_iff]
structure InTurn (m : TimerManager Cb) (timer d t : ℕ) : Prop where
  /-- The slots in front of its slot do not expire after `d`. -/
  front : t ≤ d → ∀ i < m.m_timeWheel.ahead (d - t), (m.m_timeWheel.slotAt i).expiration ≤ d
  /-- No other timer in its slot or behind it is due before `d`, those due at `t` apart. -/
  behind : t ≤ d → ∀ j < m.m_timeWheel.m_slotSize, m.m_timeWheel.ahead (d - t) ≤ j →
    ∀ y ∈ (m.m_timeWheel.slotAt j).timers, y ≠ timer → d ≤ max (next m y) t
  /-- Where it is in the wheel already, the slots up to there do not expire after `d`
  or `t`, its new slot apart. -/
  again : ∀ j < m.m_timeWheel.m_slotSize, timer ∈ (m.m_timeWheel.slotAt j).timers → ∀ i ≤ j,
    (t ≤ d → i ≠ m.m_timeWheel.ahead (d - t)) → (m.m_timeWheel.slotAt i).expiration ≤ max d t

instance (m : TimerManager Cb) (timer d t : ℕ) : Decidable (InTurn m timer d t) :=
  @decidable_of_iff' _ _ (inTurn_iff m timer d t)
    (@instDecidableAnd _ _ inferInstance (@instDecidableAnd _ _ inferInstance inferInstance))

/-- A timer that the wheel does not take only moves the deadline of its old entries. -/
theorem Reached.rejected_iff (h : Reached s) {x d t : ℕ} (hclock : s.clock ≤ t) (hd : d < t)
    (hs' : Applies s s' (.insert x d t)) : Reached s' ↔ InTurn s.m x d t := by
  obtain ⟨hwheel, hnext, hclock', -⟩ := hs'
  rw [TimeWheel.addTimer_rejected hd] at hwheel
  unfold Reached
  simp only [hwheel, hnext, hclock']
  constructor
  · intro h'
    refine ⟨fun hle => absurd hle (by omega), fun hle => absurd hle (by omega), ?_⟩
    intro j _ hx i hij _
    have hexp := h' i j hij x hx
    rwa [if_pos rfl] at hexp
  · intro hturn i j hij y hy
    split
    · rename_i hyx
      subst hyx
      exact hturn.again j (TimeWheel.lt_of_mem_slotAt hy) hy i hij fun hle => absurd hle (by omega)
    · have hold := h i j hij y hy
      omega

theorem Reached.accepted_iff (h : Reached s) {x d t : ℕ} (hclock : s.clock ≤ t) (hd : t ≤ d)
    (hs' : Applies s s' (.insert x d t)) : Reached s' ↔ InTurn s.m x d t := by
  obtain ⟨hwheel, hnext, hclock', -⟩ := hs'
  have hslot := fun i => TimeWheel.slotAt_addTimer (w := s.m.m_timeWheel) (x := x) hd i
  have hsize := s.m.m_timeWheel.ahead_lt (d - t)
  unfold Reached
  simp only [hwheel, hnext, hclock', hslot]
  constructor
  · intro h'
    refine ⟨fun _ i hi => ?_, fun _ j _ hj y hy hyx => ?_, fun j _ hx i hij hi => ?_⟩
    · have hexp := h' i _ hi.le x (by rw [if_pos rfl]; simp)
      rw [if_neg hi.ne, if_pos rfl] at hexp
      omega
    · have hexp := h' _ j hj y (by split <;> simp [hy])
      rw [if_pos rfl, if_neg hyx] at hexp
      exact hexp
    · have hexp := h' i j hij x (by split <;> simp [hx])
      rw [if_neg (hi hd), if_pos rfl] at hexp
      exact hexp
  · intro hturn i j hij y hy
    -- an entry was there before, or is the new one
    have hentry : y ∈ (s.m.m_timeWheel.slotAt j).timers ∨
        (y = x ∧ j = s.m.m_timeWheel.ahead (d - t)) := by
      split at hy
      · rename_i hj
        rcases List.mem_append.mp hy with hy | hy
        · exact .inl hy
        · exact .inr ⟨List.mem_singleton.mp hy, hj⟩
      · exact .inl hy
    by_cases hi : i = s.m.m_timeWheel.ahead (d - t)
    · rw [if_pos hi]
      split
      · exact le_max_left _ _
      · rename_i hyx
        rcases hentry with hy | ⟨hy, -⟩
        · exact hturn.behind hd j (TimeWheel.lt_of_mem_slotAt hy) (hi ▸ hij) y hy hyx
        · exact absurd hy hyx
    · rw [if_neg hi]
      split
      · rename_i hyx
        subst hyx
        rcases hentry with hy | ⟨-, hj⟩
        · exact hturn.again j (TimeWheel.lt_of_mem_slotAt hy) hy i hij fun _ => hi
        · have := hturn.front hd i (by omega)
          omega
      · rename_i hyx
        rcases hentry with hy | ⟨hy, -⟩
        · have hold := h i j hij y hy
          omega
        · exact absurd hy hyx

def KeepsReached (s : Run Cb) : Effect → Prop
  | .insert x d t => InTurn s.m x d t
  | .none | .scan _ _ => True

instance (s : Run Cb) : DecidablePred (KeepsReached s)
  | .insert x d t => inferInstanceAs (Decidable (InTurn s.m x d t))
  | .none | .scan _ _ => .isTrue trivial

theorem Reached.step_iff (h : Reached s) (hclock : InOrder s (effect s o))
    (hstep : step s o = .ok s') : Reached s' ↔ KeepsReached s (effect s o) := by
  have happlies := step_applies hstep
  cases heff : effect s o with
  | none =>
    rw [heff] at happlies
    obtain ⟨hwheel, hnext, hclock', -⟩ := happlies
    refine ⟨fun _ => trivial, fun _ => ?_⟩
    unfold Reached
    simp only [hwheel, hnext, hclock']
    exact h
  | insert x d t =>
    rw [heff] at happlies hclock
    by_cases hd : t ≤ d
    · exact h.accepted_iff hclock hd happlies
    · exact h.rejected_iff hclock (not_le.mp hd) happlies
  | scan now now_ms =>
    rw [heff] at happlies hclock
    obtain ⟨expired, hget, htimers, hclock', -⟩ := happlies
    obtain ⟨hle, hle'⟩ := hclock
    obtain ⟨k, -, -, -, hshift⟩ := (TimeWheel.scan_of_some hget).shift
    refine ⟨fun _ => trivial, fun _ i j hij y hy => ?_⟩
    rw [hshift] at hy ⊢
    have hold := h (k + i) (k + j) (by omega) y hy
    rw [next, htimers, hclock', ← next]
    omega

/-- In a run in which the clock does not go back, no due timer is left behind and no wait is
too long exactly when every timer is inserted in turn. -/
theorem none_left_iff_in_turn {os : List (Op Cb)}
    (hclock : Each step (fun s o => InOrder s (effect s o)) (Run.init : Run Cb) os) :
    Along step NoneLeft (Run.init : Run Cb) os ↔
      Each step (fun s o => KeepsReached s (effect s o)) (Run.init : Run Cb) os := by
  refine along_iff_each (fun _ => True) _ _ _ ?_ os _ trivial ?_ hclock
  · intro s o s' _ hs ho hstep
    refine ⟨trivial, noneLeft_iff.trans ?_⟩
    exact (noneLeft_iff.mp hs).step_iff ho hstep
  · exact noneLeft_iff.mpr fun i j _ y hy => absurd hy (not_mem_init j y)

/-- Timers in three slots, with a later deadline in each, and one that comes to the first
slot with an earlier deadline. -/
def inTurnOps : List (Op Unit) :=
  [.addTimer 950 (some ()) false 0 0, .addTimer 900 (some ()) true 0 0,
    .addTimer 1500 (some ()) false 0 100, .addTimer 5000 (some ()) false 100 100,
    .takeExpired 950 950, .handOut 0 950]

theorem none_left_iff_in_turn_three_slots :
    Along step NoneLeft (Run.init : Run Unit) inTurnOps :=
  (none_left_iff_in_turn (by decide +kernel)).mpr (by decide +kernel)

/-- A slot gets a timer that is due at 100 and then one that is due at 900, and expires at
900: the scan at 500 leaves the first one there, and `getNextTimer` waits for 400 ms more. -/
theorem later_timer_hides_earlier :
    ¬ Along step NoneLeft (Run.init : Run Unit)
      [.addTimer 100 (some ()) false 0 0, .addTimer 900 (some ()) false 0 0] := by
  intro h
  obtain ⟨hleft, -⟩ := ((h.2 _ rfl).2 _ rfl) 500 (Nat.zero_le _)
  have hdue := hleft [] _ rfl 0 (by decide)
  exact absurd hdue (by decide)

end TimerManager

end Sylar
