import Sylar.Proofs.EventWaiters
import Sylar.Spec.Hook

/-! A call of `do_io` does not lose its timeout, unless the callback of its timer is over before
the event is registered, or finds the fiber already scheduled. -/

namespace Sylar

open Lib

variable {S : Type}

def IoPoint.suspended : IoPoint → Option ℕ
  | .held _ waiter => some waiter
  | _ => none

/-- The registration of a call that has still to look at `cancelled`. -/
def IoPoint.pending : IoPoint → Option ℕ
  | .added _ waiter | .held _ waiter | .resumed _ waiter | .checking waiter => some waiter
  | _ => none

namespace Io

variable {s s' : Io S}

/-- A callback that has run leaves no call suspended with its event registered, and a call ends
with `ETIMEDOUT` if `cancelled` was set when the event has woken it. -/
structure TimeoutKept (s : Io S) : Prop where
  never_lost : ∀ k ∈ s.point.suspended, TimerStage.ran ∈ s.timers → ¬ s.iom.Waits s.fd s.event k
  timed_out : ∀ errno, s.point = .returned (.cancelled errno) →
    errno = ETIMEDOUT ∧ s.woken = ETIMEDOUT

/-- No callback of the call has run when its event is registered, none is the first to set
`cancelled` when the event has already woken the call, and the kernel does not refuse to take
away the event for a callback. -/
def Timely (s : Io S) : IoMove S → Prop
  | .addEvent _ epoll_ctl => epoll_ctl → TimerStage.ran ∉ s.timers
  | .callback i epoll_ctl =>
      (s.timers[i]? = some .passed → s.cancelled = 0 →
        ∀ k ∈ s.point.pending, k ∉ s.iom.scheduled.map Prod.fst) ∧
      (s.timers[i]? = some .marked →
        ∀ k ∈ s.point.waiter, s.iom.Waits s.fd s.event k → epoll_ctl)
  | _ => True

instance (s : Io S) : ∀ m : IoMove S, Decidable (Timely s m)
  | .addEvent _ epoll_ctl => inferInstanceAs (Decidable (epoll_ctl → TimerStage.ran ∉ s.timers))
  | .callback i epoll_ctl => inferInstanceAs (Decidable
      ((s.timers[i]? = some .passed → s.cancelled = 0 →
        ∀ k ∈ s.point.pending, k ∉ s.iom.scheduled.map Prod.fst) ∧
      (s.timers[i]? = some .marked →
        ∀ k ∈ s.point.waiter, s.iom.Waits s.fd s.event k → epoll_ctl)))
  | .other _ | .original _ _ | .addConditionTimer | .yieldToHold | .resume | .cancel | .check =>
      .isTrue trivial

def Expects (s : Io S) : IoPoint → Prop
  | .added _ k | .held _ k =>
      k < s.iom.registered ∧ (TimerStage.ran ∈ s.timers → ¬ s.iom.Waits s.fd s.event k) ∧
        (k ∈ s.iom.scheduled.map Prod.fst → s.woken = s.cancelled)
  | .resumed _ k | .checking k => k ∈ s.iom.scheduled.map Prod.fst ∧ s.woken = s.cancelled
  | .returned (.cancelled errno) => errno = ETIMEDOUT ∧ s.woken = ETIMEDOUT
  | _ => True

structure Inv (s : Io S) : Prop where
  iom : s.iom.Inv
  flag : s.cancelled = 0 ∨ s.cancelled = ETIMEDOUT
  expects : s.Expects s.point

theorem kept_of_inv (h : Inv s) : TimeoutKept s where
  never_lost := by
    intro k hk hran
    have hpoint := h.expects
    cases hp : s.point with
    | held timer waiter =>
      rw [hp] at hk hpoint
      cases hk
      exact hpoint.2.1 hran
    | _ =>
      rw [hp] at hk
      cases hk
  timed_out := by
    intro errno hreturned
    have hpoint := h.expects
    rw [hreturned] at hpoint
    exact hpoint

theorem inv_start (t_hook_enable : Bool) (ctx : Option FdCtx) (timeout_so fd : ℕ) (event : Event) :
    Inv (start t_hook_enable ctx timeout_so fd event : Io S) := by
  unfold start
  cases t_hook_enable with
  | false => exact ⟨IOManager.inv_init, .inl rfl, trivial⟩
  | true =>
    cases ctx with
    | none => exact ⟨IOManager.inv_init, .inl rfl, trivial⟩
    | some ctx =>
      simp only [if_true]
      split
      · exact ⟨IOManager.inv_init, .inl rfl, trivial⟩
      · split
        · exact ⟨IOManager.inv_init, .inl rfl, trivial⟩
        · exact ⟨IOManager.inv_init, .inl rfl, trivial⟩

theorem setIom_woken {iom : IOManager S} {k : ℕ} (hk : s.point.waiter = some k)
    (hwoken : k ∈ s.iom.scheduled.map Prod.fst → s.woken = s.cancelled)
    (hscheduled : k ∈ iom.scheduled.map Prod.fst) : (s.setIom iom).woken = s.cancelled := by
  unfold setIom
  dsimp only
  split
  · rfl
  · next hnew =>
    apply hwoken
    by_contra hold
    exact hnew ⟨k, hk, hold, hscheduled⟩

theorem setIom_woken_none {iom : IOManager S} (hnone : s.point.waiter = none) :
    (s.setIom iom).woken = s.woken := by
  unfold setIom
  dsimp only
  rw [hnone]
  exact if_neg (by rintro ⟨k, hk, -⟩; cases hk)

theorem Inv.setIom {iom : IOManager S} (h : Inv s) (hiom : iom.Inv)
    (hlater : s.iom.Later iom) : Inv (s.setIom iom) := by
  refine ⟨hiom, h.flag, ?_⟩
  have hpoint := h.expects
  change (s.setIom iom).Expects s.point
  cases hp : s.point with
  | added timer k | held timer k =>
    rw [hp] at hpoint
    obtain ⟨hk, hlost, hwoken⟩ := hpoint
    refine ⟨hk.trans_le hlater.registered, fun hran hwaits => ?_, fun hscheduled => ?_⟩
    · exact hlost hran (hlater.waits _ _ k hk hwaits)
    · exact setIom_woken (congrArg IoPoint.waiter hp) hwoken hscheduled
  | resumed timer k | checking k =>
    rw [hp] at hpoint
    refine ⟨hlater.scheduled k hpoint.1, ?_⟩
    exact (setIom_woken_none (congrArg IoPoint.waiter hp)).trans hpoint.2
  | returned result =>
    rw [hp] at hpoint
    cases result with
    | cancelled errno =>
      refine ⟨hpoint.1, ?_⟩
      exact (setIom_woken_none (congrArg IoPoint.waiter hp)).trans hpoint.2
    | _ => trivial
  | _ => trivial

/-- Another stage of a timer, which is `ran` only if the call does not wait. -/
theorem Inv.setTimers {timers : List TimerStage} (h : Inv s)
    (hran : TimerStage.ran ∈ timers → TimerStage.ran ∈ s.timers ∨
      ∀ k ∈ s.point.waiter, ¬ s.iom.Waits s.fd s.event k) :
    Inv { s with timers := timers } := by
  refine ⟨h.iom, h.flag, ?_⟩
  have hpoint := h.expects
  change Expects { s with timers := timers } s.point
  cases hp : s.point with
  | added timer k | held timer k =>
    rw [hp] at hpoint hran
    obtain ⟨hk, hlost, hwoken⟩ := hpoint
    refine ⟨hk, fun hmem => ?_, hwoken⟩
    rcases hran hmem with hold | hnone
    · exact hlost hold
    · exact hnone k rfl
  | resumed timer k | checking k =>
    rw [hp] at hpoint
    exact hpoint
  | returned result =>
    rw [hp] at hpoint
    cases result with
    | cancelled errno => exact hpoint
    | _ => trivial
  | _ => trivial

theorem ran_of_set {i : ℕ} {stage : TimerStage} (hstage : stage ≠ .ran) {timers : List TimerStage}
    (h : TimerStage.ran ∈ timers.set i stage) : TimerStage.ran ∈ timers :=
  (List.mem_or_eq_of_mem_set h).resolve_right fun heq => hstage heq.symm

theorem Inv.setTimer {i : ℕ} {stage : TimerStage} (h : Inv s) (hstage : stage ≠ .ran) :
    Inv (s.setTimer i stage) :=
  h.setTimers fun hran => .inl (ran_of_set hstage hran)

theorem inv_cancelTimer (h : Inv s) (timer : Option ℕ) :
    Inv { s with timers := s.cancelTimer timer } := by
  apply h.setTimers
  intro hran
  left
  cases timer with
  | none => exact hran
  | some i =>
    change _ ∈ s.timers.modify i _ at hran
    cases hi : look s.timers i with
    | none => rwa [List.modify_eq_self (List.getElem?_eq_none_iff.mp hi)] at hran
    | some stage =>
      rw [modify_eq_set _ hi] at hran
      rcases List.mem_or_eq_of_mem_set hran with hmem | heq
      · exact hmem
      · split at heq
        · cases heq
        · exact heq ▸ List.mem_of_getElem? hi

theorem inv_other {m : EventMove S} (h : Inv s) (hs : s.other m = .ok s') : Inv s' := by
  obtain ⟨iom, hiom, hs⟩ := ok_of_bind hs
  cases hs
  exact h.setIom (IOManager.inv_step h.iom hiom) (IOManager.later_step h.iom hiom)

/-- A number that is given to a new registration was not scheduled before. -/
theorem not_scheduled_registered {iom : IOManager S} (h : iom.Inv) :
    iom.registered ∉ iom.scheduled.map Prod.fst := by
  intro hmem
  have hplaces := h.places iom.registered
  rw [if_neg (lt_irrefl _)] at hplaces
  have hcount := List.count_pos_iff.mpr hmem
  unfold IOManager.places at hplaces
  omega

theorem inv_addEvent {this : Option S} {epoll_ctl : Bool} (h : Inv s)
    (hran : epoll_ctl → TimerStage.ran ∉ s.timers) (hs : s.addEvent this epoll_ctl = .ok s') :
    Inv s' := by
  unfold addEvent at hs
  split at hs
  · next timer hp =>
    obtain ⟨⟨iom, rt⟩, hr, hs⟩ := ok_of_bind hs
    have hinv := h.setIom (IOManager.inv_addEvent h.iom hr) (IOManager.later_addEvent hr)
    cases hs
    refine ⟨hinv.iom, hinv.flag, ?_⟩
    dsimp only
    cases rt with
    | false => trivial
    | true =>
      obtain ⟨hctl, hregistered, hscheduled⟩ := IOManager.addEvent_true hr
      refine ⟨?_, fun hmem => absurd hmem (hran hctl), fun hmem => ?_⟩
      · change s.iom.registered < iom.registered
        omega
      · change s.iom.registered ∈ iom.scheduled.map Prod.fst at hmem
        rw [hscheduled] at hmem
        exact absurd hmem (not_scheduled_registered h.iom)
  · cases hs

theorem inv_callback {i : ℕ} {epoll_ctl : Bool} (h : Inv s) (ht : Timely s (.callback i epoll_ctl))
    (hs : s.callback i epoll_ctl = .ok s') : Inv s' := by
  unfold callback at hs
  split at hs
  · cases hs
    exact h.setTimer nofun
  · cases hs
    apply h.setTimer
    split <;> nofun
  · cases hs
    apply h.setTimer
    split <;> nofun
  · next hi =>
    cases hs
    have hinv : Inv (s.setTimer i .marked) := h.setTimer nofun
    refine ⟨hinv.iom, .inr rfl, ?_⟩
    have hpoint := hinv.expects
    -- where the event has woken the call, the flag was set before
    have hflag : ∀ k ∈ s.point.pending, k ∈ s.iom.scheduled.map Prod.fst → s.cancelled = ETIMEDOUT := by
      intro k hk hscheduled
      apply h.flag.resolve_left
      intro hzero
      exact ht.1 hi hzero k hk hscheduled
    change Expects _ s.point
    change (s.setTimer i .marked).Expects s.point at hpoint
    cases hp : s.point with
    | added timer k | held timer k =>
      rw [hp] at hpoint hflag
      obtain ⟨hk, hlost, hwoken⟩ := hpoint
      exact ⟨hk, hlost, fun hscheduled => (hwoken hscheduled).trans (hflag k rfl hscheduled)⟩
    | resumed timer k | checking k =>
      rw [hp] at hpoint hflag
      exact ⟨hpoint.1, hpoint.2.trans (hflag k rfl hpoint.1)⟩
    | returned result =>
      rw [hp] at hpoint
      cases result with
      | cancelled errno => exact hpoint
      | _ => trivial
    | _ => trivial
  · next hi =>
    obtain ⟨⟨iom, rt⟩, hr, hs⟩ := ok_of_bind hs
    cases hs
    have hinv := h.setIom (IOManager.inv_cancelEvent h.iom hr) (IOManager.later_cancelEvent h.iom hr)
    apply hinv.setTimers
    intro _
    right
    intro k hk
    exact IOManager.not_waits_cancelEvent h.iom (ht.2 hi k hk) hr
  · cases hs

/-- The call goes on, and what holds at the next point holds already. -/
theorem Inv.setPoint {point : IoPoint} (h : Inv s) (hpoint : s.Expects point) :
    Inv { s with point := point } := ⟨h.iom, h.flag, hpoint⟩

theorem inv_original {n : ℤ} {errno : ℕ} (h : Inv s) (hs : s.original n errno = .ok s') :
    Inv s' := by
  unfold original at hs
  split at hs
  · cases hs
    exact h.setPoint trivial
  · split at hs
    · cases hs
      exact h
    · split at hs
      · cases hs
        exact h.setPoint trivial
      · cases hs
        exact h.setPoint trivial
  · cases hs

theorem inv_addConditionTimer (h : Inv s) (hs : s.addConditionTimer = .ok s') : Inv s' := by
  unfold addConditionTimer at hs
  split at hs
  · split at hs
    · cases hs
      exact ⟨h.iom, h.flag, trivial⟩
    · cases hs
      exact h.setPoint trivial
  · cases hs

theorem inv_yieldToHold (h : Inv s) (hs : s.yieldToHold = .ok s') : Inv s' := by
  unfold yieldToHold at hs
  split at hs
  · next timer waiter hp =>
    cases hs
    have hpoint := h.expects
    rw [hp] at hpoint
    exact h.setPoint hpoint
  · cases hs

theorem inv_resume (h : Inv s) (hs : s.resume = .ok s') : Inv s' := by
  unfold resume at hs
  split at hs
  · next timer waiter hp =>
    split at hs
    · next hscheduled =>
      cases hs
      have hpoint := h.expects
      rw [hp] at hpoint
      exact h.setPoint ⟨hscheduled, hpoint.2.2 hscheduled⟩
    · cases hs
  · cases hs

theorem inv_cancel (h : Inv s) (hs : s.cancel = .ok s') : Inv s' := by
  unfold cancel at hs
  split at hs
  · next timer hp =>
    cases hs
    exact (inv_cancelTimer h timer).setPoint trivial
  · next timer waiter hp =>
    cases hs
    have hpoint := (inv_cancelTimer h timer).expects
    dsimp only at hpoint
    rw [hp] at hpoint
    exact (inv_cancelTimer h timer).setPoint hpoint
  · cases hs

theorem inv_check (h : Inv s) (hs : s.check = .ok s') : Inv s' := by
  unfold check at hs
  split at hs
  · next waiter hp =>
    split at hs
    · next hset =>
      cases hs
      have hpoint := h.expects
      rw [hp] at hpoint
      have hflag := h.flag.resolve_left hset
      exact h.setPoint ⟨hflag, hpoint.2.trans hflag⟩
    · cases hs
      exact h.setPoint trivial
  · cases hs

theorem inv_step {m : IoMove S} (h : Inv s) (ht : Timely s m) (hs : s.step m = .ok s') : Inv s' := by
  cases m with
  | other m => exact inv_other h hs
  | original n errno => exact inv_original h hs
  | addConditionTimer => exact inv_addConditionTimer h hs
  | addEvent this epoll_ctl => exact inv_addEvent h ht hs
  | yieldToHold => exact inv_yieldToHold h hs
  | resume => exact inv_resume h hs
  | cancel => exact inv_cancel h hs
  | check => exact inv_check h hs
  | callback i epoll_ctl => exact inv_callback h ht hs

theorem timeout_kept (t_hook_enable : Bool) (ctx : Option FdCtx) (timeout_so fd : ℕ)
    (event : Event) (ms : List (IoMove S))
    (hms : Each step Timely (start t_hook_enable ctx timeout_so fd event) ms) :
    Along step TimeoutKept (start t_hook_enable ctx timeout_so fd event) ms := by
  apply Along.mono fun _ => kept_of_inv
  exact along_of_each Inv Timely (fun s m s' => inv_step) ms _
    (inv_start t_hook_enable ctx timeout_so fd event) hms

def socketCtx : FdCtx := (FdCtx.new 0 (some true)).setTimeout SO_RCVTIMEO 1000

/-- The event comes first and the call goes on, with a first timer that is cancelled and one
that expires. -/
def eventThenTimeout : List (IoMove Unit) :=
  [.other .grow, .original (-1) EINTR, .original (-1) EAGAIN, .addConditionTimer,
    .addEvent (some ()) true, .yieldToHold, .other (.idle 0 ⟨true, false, false, false⟩ true),
    .resume, .cancel, .check, .original (-1) EAGAIN, .addConditionTimer, .callback 1 true,
    .addEvent (some ()) true, .callback 1 true, .yieldToHold, .callback 1 true, .callback 1 true,
    .other (.cancelEvent 0 .READ false), .callback 1 true, .resume, .cancel, .check]

theorem timeout_kept_event_first :
    (eventThenTimeout.foldlM step
        (start true (some socketCtx) SO_RCVTIMEO 0 .READ)).map point =
      .ok (.returned (.cancelled ETIMEDOUT)) ∧
      Along step TimeoutKept (start true (some socketCtx) SO_RCVTIMEO 0 .READ) eventThenTimeout :=
  ⟨by decide, timeout_kept true (some socketCtx) SO_RCVTIMEO 0 .READ eventThenTimeout (by decide)⟩

/-- The callback runs between `addConditionTimer` and `addEvent`, and finds nothing to cancel. -/
def expiresEarly : List (IoMove Unit) :=
  [.other .grow, .original (-1) EAGAIN, .addConditionTimer, .callback 0 true, .callback 0 true,
    .callback 0 true, .callback 0 true, .callback 0 true, .addEvent (some ()) true, .yieldToHold]

/-- The callback runs after the event has woken the call. -/
def expiresLate : List (IoMove Unit) :=
  [.other .grow, .original (-1) EAGAIN, .addConditionTimer, .addEvent (some ()) true,
    .yieldToHold, .other (.idle 0 ⟨true, false, false, false⟩ true), .callback 0 true,
    .callback 0 true, .callback 0 true, .callback 0 true, .resume, .cancel, .check]

def lostCall : Io Unit where
  iom := ⟨1, [⟨⟨some (), some 0, none⟩, FdContext.emptyContext, ⟨true, false⟩⟩], 1, [], []⟩
  fd := 0
  event := .READ
  timeout := 1000
  point := .held (some 0) 0
  cancelled := ETIMEDOUT
  timers := [.ran]
  woken := 0

def lateCall : Io Unit where
  iom := ⟨0, [.new], 1, [(0, ())], []⟩
  fd := 0
  event := .READ
  timeout := 1000
  point := .returned (.cancelled ETIMEDOUT)
  cancelled := ETIMEDOUT
  timers := [.marked]
  woken := 0

theorem early_and_late_timeouts_fail :
    ¬ (∀ ms : List (IoMove Unit), Along step
        (fun s => ∀ k ∈ s.point.suspended, TimerStage.ran ∈ s.timers → ¬ s.iom.Waits s.fd s.event k)
        (start true (some socketCtx) SO_RCVTIMEO 0 .READ) ms) ∧
      ¬ ∀ ms : List (IoMove Unit), Along step
        (fun s => ∀ errno, s.point = .returned (.cancelled errno) →
          errno = ETIMEDOUT ∧ s.woken = ETIMEDOUT)
        (start true (some socketCtx) SO_RCVTIMEO 0 .READ) ms := by
  constructor
  · intro hall
    have hrun : expiresEarly.foldlM step (start true (some socketCtx) SO_RCVTIMEO 0 .READ) =
        .ok lostCall := rfl
    have hlast := (hall expiresEarly).last hrun
    exact hlast 0 rfl (by decide) (by decide)
  · intro hall
    have hrun : expiresLate.foldlM step (start true (some socketCtx) SO_RCVTIMEO 0 .READ) =
        .ok lateCall := rfl
    have hlast := (hall expiresLate).last hrun
    exact absurd (hlast ETIMEDOUT rfl).2 (by decide)

end Io

end Sylar
