import Sylar.Spec.Timer
import Sylar.Lib.Partial

/-! The wheel by itself. Its slots are looked at in the order in which a scan meets them: an
insertion changes one of them, and a scan takes off those in front of the first slot that expires
after `now`. Behind the last slot of that sequence there is nothing, so a scan is a shift. -/

namespace Sylar

open Lib

open scoped List

namespace TimeWheel

variable {w w' : TimeWheel} {now : ℕ}

def order (w : TimeWheel) : List TimerSlot := w.m_slots.rotate w.m_currentSlot

/-- The timers in the wheel, in the order of a scan. -/
def contents (w : TimeWheel) : List ℕ := w.order.flatMap TimerSlot.timers

@[simp]
theorem order_length (w : TimeWheel) : w.order.length = w.m_slotSize := by
  rw [order, List.length_rotate, w.slots_length]

theorem current_lt_length (w : TimeWheel) : w.m_currentSlot < w.m_slots.length := by
  rw [w.slots_length]
  exact w.current_lt

theorem mem_order {s : TimerSlot} : s ∈ w.order ↔ s ∈ w.m_slots := List.mem_rotate

theorem flatMap_cleared (n : ℕ) :
    (List.replicate n TimerSlot.cleared).flatMap TimerSlot.timers = [] := by
  rw [List.flatMap_eq_nil_iff]
  intro s hs
  rw [List.eq_of_mem_replicate hs]
  rfl

theorem new_order {size tick : ℕ} (hsize : 0 < size) (htick : 0 < tick) :
    (new size tick hsize htick).order = List.replicate size .cleared :=
  List.rotate_replicate _ _ _

theorem new_contents {size tick : ℕ} (hsize : 0 < size) (htick : 0 < tick) :
    (new size tick hsize htick).contents = [] := by
  rw [contents, new_order, flatMap_cleared]

/-- How far a scan goes before it meets the slot of a timer that is due in `diff`. -/
def ahead (w : TimeWheel) (diff : ℕ) : ℕ := ringDist w.m_slotSize w.m_currentSlot (w.slotFor diff)

theorem ahead_lt (w : TimeWheel) (diff : ℕ) : w.ahead diff < w.m_slotSize :=
  ringDist_lt w.current_lt (Nat.mod_lt _ w.size_pos)

theorem addTimer_rejected {x d : ℕ} (h : d < now) : w.addTimer x d now = (false, w) := if_pos h

theorem addTimer_order {x d : ℕ} (h : now ≤ d) :
    (w.addTimer x d now).1 = true ∧ (w.addTimer x d now).2.order =
      w.order.modify (w.ahead (d - now)) fun s => ⟨s.timers ++ [x], d⟩ := by
  have hslot : w.slotFor (d - now) < w.m_slots.length := by
    rw [w.slots_length]
    exact Nat.mod_lt _ w.size_pos
  have hmodify := rotate_modify w.current_lt_length hslot
    fun s => (⟨s.timers ++ [x], d⟩ : TimerSlot)
  rw [w.slots_length] at hmodify
  rw [addTimer, if_neg (by omega)]
  exact ⟨rfl, hmodify⟩

theorem contents_addTimer {x d : ℕ} (h : now ≤ d) :
    (w.addTimer x d now).2.contents ~ x :: w.contents := by
  have hahead : w.ahead (d - now) < w.order.length := by
    rw [order_length]
    exact w.ahead_lt _
  have horder : w.order = w.order.take (w.ahead (d - now)) ++
      w.order[w.ahead (d - now)] :: w.order.drop (w.ahead (d - now) + 1) := by
    rw [List.getElem_cons_drop, List.take_append_drop]
  rw [contents, (addTimer_order h).2, List.modify_eq_take_cons_drop hahead, contents]
  conv_rhs => rw [horder]
  generalize w.order.take (w.ahead (d - now)) = pre, w.order[w.ahead (d - now)] = s,
    w.order.drop (w.ahead (d - now) + 1) = post
  simp only [List.flatMap_append, List.flatMap_cons, List.append_assoc, List.singleton_append]
  calc pre.flatMap TimerSlot.timers ++ (s.timers ++ x :: post.flatMap TimerSlot.timers)
    _ ~ pre.flatMap TimerSlot.timers ++ x :: (s.timers ++ post.flatMap TimerSlot.timers) :=
      List.perm_middle.append_left _
    _ ~ x :: (pre.flatMap TimerSlot.timers ++ (s.timers ++ post.flatMap TimerSlot.timers)) :=
      List.perm_middle

theorem advance_order (w : TimeWheel) :
    ∃ rest, w.order = w.currentSlot :: rest ∧ w.advance.order = rest ++ [.cleared] := by
  obtain ⟨rest, hnow, hnext⟩ := rotate_set_succ w.current_lt_length TimerSlot.cleared
  rw [w.slots_length] at hnext
  exact ⟨rest, hnow, hnext⟩

/-- A scan that meets a slot which expires after `now` stops there. -/
theorem expireLoop_stops {s : TimerSlot} (hs : now < s.expiration) (pre : List TimerSlot) :
    ∀ (post : List TimerSlot) (fuel : ℕ) (w : TimeWheel) (expired : List ℕ),
      (∀ p ∈ pre, p.expiration ≤ now) → w.order = pre ++ s :: post → pre.length < fuel →
      ∃ w', expireLoop now fuel w expired = some (expired ++ pre.flatMap TimerSlot.timers, w') ∧
        w'.order = s :: post ++ List.replicate pre.length .cleared := by
  induction pre with
  | nil =>
    intro post fuel w expired _ horder hfuel
    obtain ⟨fuel, rfl⟩ := Nat.exists_eq_succ_of_ne_zero hfuel.ne'
    obtain ⟨rest, hrest, -⟩ := w.advance_order
    obtain ⟨hcur, -⟩ := List.cons.inj (hrest.symm.trans horder)
    rw [expireLoop, hcur, if_pos hs]
    exact ⟨w, by simp, by simpa using horder⟩
  | cons p pre ih =>
    intro post fuel w expired hpre horder hfuel
    obtain ⟨fuel, rfl⟩ := Nat.exists_eq_succ_of_ne_zero (Nat.ne_zero_of_lt hfuel)
    obtain ⟨rest, hrest, hadvance⟩ := w.advance_order
    obtain ⟨hcur, rfl⟩ := List.cons.inj (hrest.symm.trans horder)
    have hp := hpre p List.mem_cons_self
    rw [expireLoop, hcur, if_neg (by omega)]
    -- the slot that was passed comes last
    obtain ⟨w', hloop, horder'⟩ := ih (post ++ [.cleared]) fuel w.advance (expired ++ p.timers)
      (fun q hq => hpre q (List.mem_cons_of_mem _ hq)) (by rw [hadvance]; simp)
      (by simpa using hfuel)
    refine ⟨w', by rw [hloop]; simp, ?_⟩
    rw [horder', List.length_cons, List.replicate_succ]
    simp

theorem expireLoop_hangs : ∀ (fuel : ℕ) (w : TimeWheel) (expired : List ℕ),
    (∀ s ∈ w.order, s.expiration ≤ now) → expireLoop now fuel w expired = none := by
  intro fuel
  induction fuel with
  | zero => intro w expired _; rfl
  | succ fuel ih =>
    intro w expired hall
    obtain ⟨rest, hrest, hadvance⟩ := w.advance_order
    rw [hrest] at hall
    obtain ⟨hcur, hall⟩ := List.forall_mem_cons.mp hall
    rw [expireLoop, if_neg (by omega)]
    apply ih
    intro s hs
    rw [hadvance] at hs
    rcases List.mem_append.mp hs with hs | hs
    · exact hall s hs
    · rw [List.mem_singleton.mp hs]
      exact Nat.zero_le now

/-- What `getExpiredTimers` does: the slots in front of the first one that expires after
`now` are emptied and come last. -/
def Scan (w : TimeWheel) (now : ℕ) (expired : List ℕ) (w' : TimeWheel) : Prop :=
  ∃ pre s post, w.order = pre ++ s :: post ∧ (∀ p ∈ pre, p.expiration ≤ now) ∧
    now < s.expiration ∧ expired = pre.flatMap TimerSlot.timers ∧
    w'.order = s :: post ++ List.replicate pre.length .cleared

theorem getExpiredTimers_cases (w : TimeWheel) (now : ℕ) :
    (∃ expired w', w.getExpiredTimers now = some (expired, w') ∧ Scan w now expired w') ∨
      (∀ s ∈ w.order, s.expiration ≤ now) := by
  rcases hfind : w.order.find? (fun s => decide (now < s.expiration)) with _ | s
  · refine .inr fun s hs => ?_
    simpa using List.find?_eq_none.mp hfind s hs
  · obtain ⟨hs, pre, post, horder, hpre⟩ := List.find?_eq_some_iff_append.mp hfind
    have hs' : now < s.expiration := by simpa using hs
    have hpre' : ∀ p ∈ pre, p.expiration ≤ now := fun p hp => by simpa using hpre p hp
    have hlen : pre.length < w.m_slotSize := by
      rw [← w.order_length, horder, List.length_append, List.length_cons]
      omega
    obtain ⟨w', hloop, horder'⟩ := expireLoop_stops hs' pre post w.m_slotSize w [] hpre' horder hlen
    exact .inl ⟨_, w', hloop, pre, s, post, horder, hpre', hs', rfl, horder'⟩

theorem scan_of_some {expired : List ℕ} (h : w.getExpiredTimers now = some (expired, w')) :
    Scan w now expired w' := by
  rcases w.getExpiredTimers_cases now with ⟨expired', w'', h', hscan⟩ | hall
  · obtain ⟨rfl, rfl⟩ := Prod.mk.inj (Option.some.inj (h.symm.trans h'))
    exact hscan
  · rw [getExpiredTimers, expireLoop_hangs _ w [] hall] at h
    exact absurd h (by rintro ⟨⟩)

theorem Scan.contents_perm {expired : List ℕ} (h : Scan w now expired w') :
    w.contents ~ w'.contents ++ expired := by
  obtain ⟨pre, s, post, horder, -, -, rfl, horder'⟩ := h
  rw [contents, contents, horder, horder', List.flatMap_append, List.flatMap_append,
    flatMap_cleared, List.append_nil]
  exact List.perm_append_comm

/-- The slot a scan meets after it has passed `i` slots. -/
def slotAt (w : TimeWheel) (i : ℕ) : TimerSlot := w.order.getD i .cleared

theorem mem_contents {y : ℕ} : y ∈ w.contents ↔ ∃ i < w.m_slotSize, y ∈ (w.slotAt i).timers := by
  rw [contents, List.mem_flatMap]
  constructor
  · rintro ⟨s, hs, hy⟩
    obtain ⟨i, hi, rfl⟩ := List.getElem_of_mem hs
    refine ⟨i, by simpa using hi, ?_⟩
    rw [slotAt, List.getD_eq_getElem _ _ hi]
    exact hy
  · rintro ⟨i, hi, hy⟩
    rw [← w.order_length] at hi
    rw [slotAt, List.getD_eq_getElem _ _ hi] at hy
    exact ⟨_, List.getElem_mem hi, hy⟩

theorem lt_of_mem_slotAt {y i : ℕ} (hy : y ∈ (w.slotAt i).timers) : i < w.m_slotSize := by
  by_contra hge
  rw [slotAt, List.getD_eq_default _ _ (by simpa using hge)] at hy
  exact absurd hy List.not_mem_nil

theorem mem_contents_of_slotAt {y i : ℕ} (hy : y ∈ (w.slotAt i).timers) : y ∈ w.contents :=
  mem_contents.mpr ⟨i, lt_of_mem_slotAt hy, hy⟩

theorem slotAt_addTimer {x d : ℕ} (h : now ≤ d) (i : ℕ) :
    (w.addTimer x d now).2.slotAt i =
      if i = w.ahead (d - now) then ⟨(w.slotAt i).timers ++ [x], d⟩ else w.slotAt i := by
  have hlt := w.ahead_lt (d - now)
  rw [slotAt, (addTimer_order h).2, slotAt, List.getD_eq_getElem?_getD, List.getD_eq_getElem?_getD,
    List.getElem?_modify]
  by_cases hi : i = w.ahead (d - now)
  · have hlen : i < w.order.length := by
      rw [order_length, hi]
      exact hlt
    simp [← hi, List.getElem?_eq_getElem hlen]
  · simp [hi, Ne.symm hi]

theorem Scan.shift {expired : List ℕ} (h : Scan w now expired w') :
    ∃ k, (∀ i < k, (w.slotAt i).expiration ≤ now) ∧ now < (w.slotAt k).expiration ∧
      (∀ y, y ∈ expired ↔ ∃ i < k, y ∈ (w.slotAt i).timers) ∧
      ∀ i, w'.slotAt i = w.slotAt (k + i) := by
  obtain ⟨pre, s, post, horder, hpre, hs, rfl, horder'⟩ := h
  have hfront : ∀ i (hi : i < pre.length), w.slotAt i = pre[i] := by
    intro i hi
    rw [slotAt, horder, List.getD_append _ _ _ _ hi, List.getD_eq_getElem _ _ hi]
  refine ⟨pre.length, fun i hi => ?_, ?_, fun y => ?_, fun i => ?_⟩
  · rw [hfront i hi]
    exact hpre _ (List.getElem_mem hi)
  · rw [slotAt, horder, List.getD_append_right _ _ _ _ (Nat.le_refl _), Nat.sub_self]
    exact hs
  · rw [List.mem_flatMap]
    constructor
    · rintro ⟨p, hp, hy⟩
      obtain ⟨i, hi, rfl⟩ := List.getElem_of_mem hp
      exact ⟨i, hi, by rw [hfront i hi]; exact hy⟩
    · rintro ⟨i, hi, hy⟩
      rw [hfront i hi] at hy
      exact ⟨_, List.getElem_mem hi, hy⟩
  · have hback : w.slotAt (pre.length + i) = (s :: post).getD i .cleared := by
      rw [slotAt, horder, List.getD_append_right _ _ _ _ (by omega), Nat.add_sub_cancel_left]
    rw [hback, slotAt, horder']
    by_cases hi : i < (s :: post).length
    · rw [List.getD_append _ _ _ _ hi]
    · rw [List.getD_append_right _ _ _ _ (by omega), List.getD_eq_getElem?_getD,
        List.getElem?_getD_replicate_default_eq, List.getD_eq_default _ _ (by omega)]

theorem nextLoop_le (now : ℕ) (slots : List TimerSlot) : ∀ next, nextLoop now next slots ≤ next ∧
    ∀ s ∈ slots, s.timers ≠ [] → nextLoop now next slots ≤ s.expiration - now := by
  induction slots with
  | nil => intro next; exact ⟨Nat.le_refl _, by simp⟩
  | cons s slots ih =>
    intro next
    rw [nextLoop]
    split
    · rename_i hempty
      obtain ⟨hle, hall⟩ := ih next
      exact ⟨hle, List.forall_mem_cons.mpr ⟨fun h => absurd hempty h, hall⟩⟩
    · split
      · exact ⟨Nat.zero_le _, fun _ _ _ => Nat.zero_le _⟩
      · obtain ⟨hle, hall⟩ := ih (min next (s.expiration - now))
        exact ⟨hle.trans (min_le_left _ _),
          List.forall_mem_cons.mpr ⟨fun _ => hle.trans (min_le_right _ _), hall⟩⟩

/-- `getNextTimer` waits no longer than until the slot of any timer expires. -/
theorem getNextTimer_le (now : ℕ) {y i : ℕ} (hy : y ∈ (w.slotAt i).timers) :
    w.getNextTimer now ≤ (w.slotAt i).expiration - now := by
  have hi : i < w.order.length := by
    rw [order_length]
    exact lt_of_mem_slotAt hy
  rw [slotAt, List.getD_eq_getElem _ _ hi] at hy ⊢
  exact (nextLoop_le now w.order _).2 _ (List.getElem_mem hi) (List.ne_nil_of_mem hy)

theorem nextLoop_empty (now next : ℕ) {slots : List TimerSlot} (h : ∀ s ∈ slots, s.timers = []) :
    nextLoop now next slots = next := by
  induction slots with
  | nil => rfl
  | cons s slots ih =>
    obtain ⟨hs, hslots⟩ := List.forall_mem_cons.mp h
    rw [nextLoop, if_pos hs, ih hslots]

theorem getNextTimer_empty (h : w.contents = []) (now : ℕ) : w.getNextTimer now = 2 ^ 64 - 1 :=
  nextLoop_empty now _ (List.flatMap_eq_nil_iff.mp h)

/-- `getExpiredTimers` returns exactly when some slot expires after `now`. -/
theorem returns_iff (w : TimeWheel) (now : ℕ) :
    (∃ fuel r, expireLoop now fuel w [] = some r) ↔ ∃ s ∈ w.m_slots, now < s.expiration := by
  rcases w.getExpiredTimers_cases now with ⟨expired, w', hsome, hscan⟩ | hall
  · obtain ⟨pre, s, post, horder, -, hs, -, -⟩ := hscan
    refine ⟨fun _ => ⟨s, mem_order.mp (by rw [horder]; simp), hs⟩, fun _ => ?_⟩
    exact ⟨w.m_slotSize, (expired, w'), hsome⟩
  · constructor
    · rintro ⟨fuel, r, hr⟩
      rw [expireLoop_hangs fuel w [] hall] at hr
      exact absurd hr (by rintro ⟨⟩)
    · rintro ⟨s, hs, hlt⟩
      have := hall s (mem_order.mpr hs)
      omega

/-- A new wheel has no such slot. -/
theorem empty_wheel_hangs :
    ¬ ∃ fuel r, expireLoop 0 fuel (new 60 1000 (by decide) (by decide)) [] = some r := by
  rintro ⟨fuel, r, hr⟩
  rw [expireLoop_hangs fuel _ [] ?_] at hr
  · exact absurd hr (by rintro ⟨⟩)
  · intro s hs
    rw [new_order] at hs
    rw [List.eq_of_mem_replicate hs]
    exact Nat.le_refl 0

inductive Op where
  | addTimer (timer m_next now : ℕ)
  | getExpiredTimers (now : ℕ)

/-- The wheel, the timers it took and those that calls have returned. -/
structure History where
  wheel : TimeWheel
  accepted : List ℕ
  returned : List ℕ

def step (s : History) : Op → Except TimerFault History
  | .addTimer x d now =>
      let r := s.wheel.addTimer x d now
      .ok { s with wheel := r.2, accepted := if r.1 then x :: s.accepted else s.accepted }
  | .getExpiredTimers now =>
      match s.wheel.getExpiredTimers now with
      | none => .error .hangs
      | some (expired, w) => .ok { s with wheel := w, returned := s.returned ++ expired }

def Op.added : Op → Option ℕ
  | .addTimer x _ _ => some x
  | .getExpiredTimers _ => none

/-- Every accepted timer is once in the wheel and was not returned, or is not in it and was
returned once. -/
def Conserved (s : History) : Prop :=
  ∀ x ∈ s.accepted, (s.wheel.contents.count x = 1 ∧ s.returned.count x = 0) ∨
    (s.wheel.contents.count x = 0 ∧ s.returned.count x = 1)

/-- The timers taken so far, each once, are those in the wheel and those returned. -/
structure History.Ok (s : History) : Prop where
  accepted : s.accepted ~ s.wheel.contents ++ s.returned
  nodup : s.accepted.Nodup

theorem History.Ok.conserved {s : History} (h : s.Ok) : Conserved s := by
  intro x hx
  have hone := List.count_eq_one_of_mem h.nodup hx
  rw [h.accepted.count_eq, List.count_append] at hone
  omega

theorem step_ok {s s' : History} {o : Op} (h : s.Ok) (hnew : ∀ x ∈ o.added, x ∉ s.accepted)
    (hstep : step s o = .ok s') :
    s'.Ok ∧ ∀ x ∈ s'.accepted, x ∈ s.accepted ∨ x ∈ o.added := by
  cases o with
  | addTimer x d now =>
    rw [step] at hstep
    obtain rfl := Except.ok.inj hstep
    by_cases hd : d < now
    · simp only [addTimer_rejected hd, Bool.false_eq_true, if_false]
      exact ⟨h, fun y hy => .inl hy⟩
    · have hperm := contents_addTimer (w := s.wheel) (x := x) (not_lt.mp hd)
      simp only [(addTimer_order (w := s.wheel) (x := x) (not_lt.mp hd)).1, if_true]
      refine ⟨⟨?_, List.nodup_cons.mpr ⟨hnew x rfl, h.nodup⟩⟩, fun y hy => ?_⟩
      · exact (h.accepted.cons x).trans (hperm.append_right _).symm
      · rcases List.mem_cons.mp hy with rfl | hy
        · exact .inr rfl
        · exact .inl hy
  | getExpiredTimers now =>
    rw [step] at hstep
    rcases hget : s.wheel.getExpiredTimers now with _ | ⟨expired, w⟩
    · rw [hget] at hstep
      exact absurd hstep (by rintro ⟨⟩)
    · rw [hget] at hstep
      obtain rfl := Except.ok.inj hstep
      refine ⟨⟨?_, h.nodup⟩, fun y hy => .inl hy⟩
      calc s.accepted
        _ ~ s.wheel.contents ++ s.returned := h.accepted
        _ ~ w.contents ++ expired ++ s.returned := (scan_of_some hget).contents_perm.append_right _
        _ ~ w.contents ++ (s.returned ++ expired) := by
          rw [List.append_assoc]
          exact List.perm_append_comm.append_left _

theorem run_conserved (os : List Op) : ∀ s : History, s.Ok → (os.filterMap Op.added).Nodup →
    (∀ x ∈ os.filterMap Op.added, x ∉ s.accepted) → Along step Conserved s os := by
  induction os with
  | nil => intro s h _ _; exact h.conserved
  | cons o os ih =>
    intro s h hnodup hnew
    refine ⟨h.conserved, fun s' hstep => ?_⟩
    obtain ⟨h', hacc⟩ := step_ok h (fun x hx => hnew x (List.mem_filterMap.mpr
      ⟨o, List.mem_cons_self, hx⟩)) hstep
    have hsub : (os.filterMap Op.added).Nodup ∧
        ∀ x ∈ o.added, x ∉ os.filterMap Op.added := by
      rw [List.filterMap_cons] at hnodup
      cases hadd : o.added with
      | none =>
        rw [hadd] at hnodup
        exact ⟨hnodup, by simp⟩
      | some y =>
        rw [hadd] at hnodup
        have := List.nodup_cons.mp hnodup
        exact ⟨this.2, by simpa using this.1⟩
    refine ih s' h' hsub.1 fun x hx hmem => ?_
    rcases hacc x hmem with hold | hadd
    · refine hnew x ?_ hold
      obtain ⟨o', ho', hx'⟩ := List.mem_filterMap.mp hx
      exact List.mem_filterMap.mpr ⟨o', List.mem_cons_of_mem _ ho', hx'⟩
    · exact hsub.2 x hadd hx

/-- In every run from a new wheel in which each timer is added at most once, every accepted
timer is at every point in one slot or was returned once. -/
theorem accepted_timers_conserved {size tick : ℕ} (hsize : 0 < size) (htick : 0 < tick)
    (os : List Op) (hos : (os.filterMap Op.added).Nodup) :
    Along step Conserved ⟨new size tick hsize htick, [], []⟩ os := by
  apply run_conserved os _ _ hos
  · exact fun x _ => List.not_mem_nil
  · exact ⟨by rw [new_contents]; exact List.Perm.refl _, List.nodup_nil⟩

/-- Two slots of 10 ms: the scan at 16 returns timer 1 and meets timer 2 in its slot. -/
theorem accepted_timers_conserved_two_slots :
    (0 < 2 ∧ 0 < 10 ∧ [1, 2, 3].Nodup) ∧
      Along step Conserved ⟨new 2 10 (by decide) (by decide), [], []⟩
        [.addTimer 1 5 0, .addTimer 2 17 0, .getExpiredTimers 16, .addTimer 3 4 16] :=
  ⟨by decide, accepted_timers_conserved (by decide) (by decide) _ (by decide)⟩

end TimeWheel

end Sylar
