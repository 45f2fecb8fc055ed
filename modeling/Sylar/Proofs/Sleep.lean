import Sylar.Proofs.Timers
import Sylar.Spec.Sleep

/-! Milliseconds in narrower integers: what the hooks ask of `addTimer` for a duration, and what
`idle` asks of `epoll_wait` for the next timer. -/

namespace Sylar

theorem bmod_int (v : ℤ) : v.bmod (2 ^ 32) =
    if v % 2 ^ 32 < 2 ^ 31 then v % 2 ^ 32 else v % 2 ^ 32 - 2 ^ 32 := by
  rw [Int.bmod_eq_emod]
  split_ifs <;> omega

section

variable {Cb : Type}

/-- The timer that was made has the duration, and its deadline is not before the end of it. -/
def Sleeps (r : ℕ × TimerManager Cb) (duration t₁ : ℕ) : Prop :=
  ∃ τ, r.2.timers[r.1]? = some τ ∧ τ.m_ms = duration ∧
    (t₁ + duration < 2 ^ 64 → τ.m_next = t₁ + duration)

theorem sleeps_addTimer_iff (m : TimerManager Cb) (ms : ℕ) (cb : Option Cb) (t₁ t₂ duration : ℕ) :
    Sleeps (m.addTimer ms cb false t₁ t₂) duration t₁ ↔ ms = duration := by
  have hmade : (m.addTimer ms cb false t₁ t₂).2.timers[(m.addTimer ms cb false t₁ t₂).1]? =
      some (Timer.new ms cb false t₁) := by
    rw [TimerManager.getElem?_made]
    exact if_pos rfl
  constructor
  · rintro ⟨τ, hτ, hms, -⟩
    cases hmade.symm.trans hτ
    exact hms
  · rintro rfl
    exact ⟨_, hmade, rfl, fun hlt => Nat.mod_eq_of_lt hlt⟩

theorem sleep_iff (m : TimerManager Cb) (resume : Cb) (seconds : UInt32) (t₁ t₂ : ℕ) :
    Sleeps (sleep m seconds resume t₁ t₂) (seconds.toNat * 1000) t₁ ↔
      seconds.toNat * 1000 < 2 ^ 32 := by
  have hproduct : (seconds * 1000).toNat = seconds.toNat * 1000 % 2 ^ 32 :=
    UInt32.toNat_mul seconds 1000
  rw [sleep, sleeps_addTimer_iff, hproduct]
  omega

theorem long_eq {v : ℤ} (h : -2 ^ 63 ≤ v ∧ v < 2 ^ 63) : long v = .ok v := if_pos h

theorem narrowed_iff {v : ℤ} (h : 0 ≤ v ∧ v < 2 ^ 63) :
    (v.bmod (2 ^ 32) % 2 ^ 64).toNat = v.toNat ↔ v < 2 ^ 31 := by
  rw [bmod_int]
  split_ifs <;> omega

theorem nanosleep_iff (m : TimerManager Cb) (resume : Cb) (tv_sec tv_nsec : Int64) (t₁ t₂ : ℕ)
    (hsec : 0 ≤ tv_sec.toInt) (hms : tv_sec.toInt * 1000 < 2 ^ 63)
    (hnsec : 0 ≤ tv_nsec.toInt ∧ tv_nsec.toInt < 10 ^ 9) :
    (∃ r, nanosleep m tv_sec tv_nsec resume t₁ t₂ = .ok r ∧
      Sleeps r (tv_sec.toInt * 1000 + tv_nsec.toInt / 10 ^ 6).toNat t₁) ↔
      tv_sec.toInt * 1000 + tv_nsec.toInt / 10 ^ 6 < 2 ^ 31 := by
  have hdiv : (tv_nsec.toInt.tdiv 1000).tdiv 1000 = tv_nsec.toInt / 10 ^ 6 := by
    rw [Int.tdiv_eq_ediv_of_nonneg hnsec.1, Int.tdiv_eq_ediv_of_nonneg (by omega)]
    omega
  have hproduct := long_eq (v := tv_sec.toInt * 1000) ⟨by omega, hms⟩
  by_cases hsum : tv_sec.toInt * 1000 + tv_nsec.toInt / 10 ^ 6 < 2 ^ 63
  · have hmade : nanosleep m tv_sec tv_nsec resume t₁ t₂ = .ok (m.addTimer
        ((tv_sec.toInt * 1000 + tv_nsec.toInt / 10 ^ 6).bmod (2 ^ 32) % 2 ^ 64).toNat (some resume)
          false t₁ t₂) := by
      have hlong := long_eq (v := tv_sec.toInt * 1000 + tv_nsec.toInt / 10 ^ 6) ⟨by omega, hsum⟩
      rw [nanosleep, hdiv, hproduct]
      simp only [bind, Except.bind, hlong]
    rw [hmade, ← narrowed_iff ⟨by omega, hsum⟩, ← sleeps_addTimer_iff m _ (some resume) t₁ t₂]
    constructor
    · rintro ⟨r, hr, hsleeps⟩
      cases hr
      exact hsleeps
    · exact fun hsleeps => ⟨_, rfl, hsleeps⟩
  · refine iff_of_false ?_ (by omega)
    rintro ⟨r, hr, -⟩
    have hlong : long (tv_sec.toInt * 1000 + tv_nsec.toInt / 10 ^ 6) = .error .undefined :=
      if_neg fun h => hsum h.2
    rw [nanosleep, hdiv, hproduct] at hr
    simp only [bind, Except.bind, hlong] at hr
    cases hr

/-- The duration of a hook is that of its timer where it is in the type in which it is computed:
the `unsigned int` of `sleep`, and the `int` of `nanosleep`. -/
theorem sleeps_iff (m : TimerManager Cb) (resume : Cb) (seconds usec : UInt32)
    (tv_sec tv_nsec : Int64) (t₁ t₂ : ℕ) (hsec : 0 ≤ tv_sec.toInt) (hms : tv_sec.toInt * 1000 < 2 ^ 63)
    (hnsec : 0 ≤ tv_nsec.toInt ∧ tv_nsec.toInt < 10 ^ 9) :
    (Sleeps (sleep m seconds resume t₁ t₂) (seconds.toNat * 1000) t₁ ↔
      seconds.toNat * 1000 < 2 ^ 32) ∧
    Sleeps (usleep m usec.toNat resume t₁ t₂) (usec.toNat / 1000) t₁ ∧
    ((∃ r, nanosleep m tv_sec tv_nsec resume t₁ t₂ = .ok r ∧
      Sleeps r (tv_sec.toInt * 1000 + tv_nsec.toInt / 10 ^ 6).toNat t₁) ↔
      tv_sec.toInt * 1000 + tv_nsec.toInt / 10 ^ 6 < 2 ^ 31) :=
  ⟨sleep_iff m resume seconds t₁ t₂, (sleeps_addTimer_iff m _ _ t₁ t₂ _).mpr rfl,
    nanosleep_iff m resume tv_sec tv_nsec t₁ t₂ hsec hms hnsec⟩

theorem sleeps_minute :
    Sleeps (sleep (.new : TimerManager Unit) 60 () 5 6) 60000 5 ∧
      ∃ r, nanosleep (.new : TimerManager Unit) 60 1999999 () 5 6 = .ok r ∧ Sleeps r 60001 5 := by
  obtain ⟨hsleep, -, hnanosleep⟩ := sleeps_iff (.new : TimerManager Unit) () 60 1500 60 1999999 5 6
    (by decide) (by decide) (by decide)
  exact ⟨hsleep.mpr (by decide), hnanosleep.mpr (by decide)⟩

/-- 4294968 seconds, some fifty days, are 704 ms, and 2147484 seconds are no `int`. -/
theorem sleep_wraps :
    (sleep (.new : TimerManager Unit) 4294968 () 0 0).2.timers.map Timer.m_ms = [704] ∧
      ¬ Sleeps (sleep (.new : TimerManager Unit) 4294968 () 0 0) 4294968000 0 ∧
      ¬ ∃ r, nanosleep (.new : TimerManager Unit) 2147484 0 () 0 0 = .ok r ∧
        Sleeps r 2147484000 0 := by
  refine ⟨by decide, fun h => ?_, fun h => ?_⟩
  · exact absurd ((sleep_iff (.new : TimerManager Unit) () 4294968 0 0).mp h) (by decide)
  · exact absurd ((nanosleep_iff (.new : TimerManager Unit) () 2147484 0 0 0 (by decide) (by decide)
      (by decide)).mp h) (by decide)

end

namespace IOManager

theorem clampTimeout_idem (n : ℕ) : clampTimeout (clampTimeout n) = clampTimeout n := by
  unfold clampTimeout MAX_TIMEOUT
  split_ifs <;> simp_all

theorem mem_epollTimeouts {interrupts next_timeout : ℕ} {t : ℤ} :
    t ∈ epollTimeouts interrupts next_timeout ↔ t = (clampTimeout next_timeout : ℤ).bmod (2 ^ 32) := by
  induction interrupts generalizing next_timeout with
  | zero => exact List.mem_singleton
  | succ interrupts ih => rw [epollTimeouts, List.mem_cons, ih, clampTimeout_idem, or_self]

theorem timeout_eq (next_timeout : ℕ) : (clampTimeout next_timeout : ℤ).bmod (2 ^ 32) =
    if next_timeout = 2 ^ 64 - 1 ∨ 3000 < next_timeout % 2 ^ 32 ∧ next_timeout % 2 ^ 32 < 2 ^ 31 then
      3000
    else (next_timeout : ℤ).bmod (2 ^ 32) := by
  have hlow := bmod_int next_timeout
  unfold clampTimeout MAX_TIMEOUT
  by_cases hnone : next_timeout = 2 ^ 64 - 1
  · rw [if_neg (not_not.mpr hnone), if_pos (.inl hnone)]
    rfl
  · rw [if_pos hnone]
    by_cases hlate : (next_timeout : ℤ).bmod (2 ^ 32) > (3000 : ℕ)
    · rw [if_pos hlate, if_pos]
      · rfl
      · split_ifs at hlow <;> omega
    · rw [if_neg hlate, if_neg]
      split_ifs at hlow <;> omega

/-- The timeout is that of the next timer or 3000 unless the distance is above 3000 and its low half
is below, or it is negative as an `int`; and then `epoll_wait` has no timeout. -/
theorem idleTimeouts_iff {Cb : Type} (m : TimerManager Cb) (now interrupts : ℕ) :
    ((∀ t ∈ idleTimeouts m now interrupts, t = min (m.getNextTimer now).1 3000 ∧ 0 ≤ t ∧ t ≤ 3000) ↔
      (m.getNextTimer now).1 ≤ 3000 ∨ (m.getNextTimer now).1 = 2 ^ 64 - 1 ∨
        3000 ≤ (m.getNextTimer now).1 % 2 ^ 32 ∧ (m.getNextTimer now).1 % 2 ^ 32 < 2 ^ 31) ∧
    ((∀ t ∈ idleTimeouts m now interrupts, 0 ≤ t ∧ t ≤ 3000) ↔
      (m.getNextTimer now).1 = 2 ^ 64 - 1 ∨ (m.getNextTimer now).1 % 2 ^ 32 < 2 ^ 31) := by
  unfold idleTimeouts
  generalize (m.getNextTimer now).1 = next
  simp only [mem_epollTimeouts, forall_eq, timeout_eq]
  by_cases hclamped : next = 2 ^ 64 - 1 ∨ 3000 < next % 2 ^ 32 ∧ next % 2 ^ 32 < 2 ^ 31
  · rw [if_pos hclamped]
    omega
  · rw [if_neg hclamped, bmod_int]
    split_ifs <;> omega

/-- One slot with timers, of which the wheel asks for the distance. -/
theorem nextLoop_one {pre post : List TimerSlot} {slot : TimerSlot} {now next : ℕ}
    (hpre : ∀ s ∈ pre, s.timers = []) (hpost : ∀ s ∈ post, s.timers = []) (hslot : slot.timers ≠ []) :
    TimeWheel.nextLoop now next (pre ++ slot :: post) = min next (slot.expiration - now) := by
  induction pre with
  | nil =>
    rw [List.nil_append, TimeWheel.nextLoop, if_neg hslot, TimeWheel.nextLoop_empty now _ hpost]
    split_ifs <;> omega
  | cons s pre ih =>
    obtain ⟨hs, hpre⟩ := List.forall_mem_cons.mp hpre
    rw [List.cons_append, TimeWheel.nextLoop, if_pos hs, ih hpre]

theorem getNextTimer_made {Cb : Type} (cb : Option Cb) {ms : ℕ} (hms : ms < 2 ^ 64) :
    (((TimerManager.new : TimerManager Cb).addTimer ms cb false 0 0).2.getNextTimer 0).1 = ms := by
  have hdeadline : deadline 0 ms = ms := by
    rw [deadline, Nat.zero_add, Nat.mod_eq_of_lt hms]
  let w := (TimerManager.new : TimerManager Cb).m_timeWheel
  have hslots : ((TimerManager.new : TimerManager Cb).addTimer ms cb false 0 0).2.m_timeWheel.m_slots =
      w.m_slots.modify (w.slotFor ms) fun slot => ⟨slot.timers ++ [0], ms⟩ := by
    simp [TimerManager.addTimer, TimerManager.place, TimeWheel.addTimer, Timer.new, hdeadline, w,
      TimerManager.new]
  have hlt : w.slotFor ms < w.m_slots.length := by
    rw [w.slots_length]
    exact Nat.mod_lt _ w.size_pos
  obtain ⟨pre, slot, post, heq, -, hmodify⟩ :=
    List.exists_of_modify (fun slot : TimerSlot => (⟨slot.timers ++ [0], ms⟩ : TimerSlot)) hlt
  have hempty : ∀ s ∈ w.m_slots, s.timers = [] := by
    intro s hs
    rw [List.eq_of_mem_replicate hs]
    rfl
  rw [heq] at hempty
  have hnext : TimeWheel.nextLoop 0 (2 ^ 64 - 1) (pre ++ ⟨slot.timers ++ [0], ms⟩ :: post) =
      min (2 ^ 64 - 1) (ms - 0) :=
    nextLoop_one (fun s hs => hempty s (List.mem_append_left _ hs))
      (fun s hs => hempty s (List.mem_append_right _ (List.mem_cons_of_mem _ hs)))
      (List.append_ne_nil_of_right_ne_nil _ (List.cons_ne_nil _ _))
  have hfirst :
      ((TimerManager.new : TimerManager Cb).addTimer ms cb false 0 0).2.m_timeWheel.m_currentSlot = 0 := by
    simp [TimerManager.addTimer, TimerManager.place, TimeWheel.addTimer, TimerManager.new, TimeWheel.new]
  rw [TimerManager.getNextTimer, TimeWheel.getNextTimer, hfirst, List.rotate_zero, hslots, hmodify,
    hnext]
  omega

/-- A timer of 2147483648 ms: `epoll_wait` is called without a timeout. -/
theorem long_timer_blocks :
    let m := ((TimerManager.new : TimerManager Unit).addTimer (2 ^ 31) none false 0 0).2
    (m.getNextTimer 0).1 = 2 ^ 31 ∧ idleTimeouts m 0 1 = [-2 ^ 31, -2 ^ 31] := by
  have hnext := getNextTimer_made (none : Option Unit) (show 2 ^ 31 < 2 ^ 64 by decide)
  refine ⟨hnext, ?_⟩
  rw [idleTimeouts, hnext]
  decide

end IOManager

end Sylar
