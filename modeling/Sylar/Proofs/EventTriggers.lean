import Sylar.Proofs.IOManager

/-! `triggerEvent` is called for registered events only, unless `idle` was told of both events
of a descriptor and one of them is no longer registered when it takes the mutex. -/

namespace Sylar

open Lib

namespace IOManager

variable {S : Type} {s s' : IOManager S} {fd : ℕ}

/-- Of the events that `idle` is to trigger, all are registered or none. -/
def Fresh (s : IOManager S) : EventMove S → Prop
  | .idle fd event epoll_ctl => epoll_ctl →
      (s.eventsOf fd).inter (realEvents event (s.eventsOf fd)) = Events.none ∨
        (s.eventsOf fd).inter (realEvents event (s.eventsOf fd)) =
          realEvents event (s.eventsOf fd)
  | _ => True

instance (s : IOManager S) : ∀ m : EventMove S, Decidable (Fresh s m)
  | .idle fd event epoll_ctl => inferInstanceAs (Decidable (epoll_ctl →
      (s.eventsOf fd).inter (realEvents event (s.eventsOf fd)) = Events.none ∨
        (s.eventsOf fd).inter (realEvents event (s.eventsOf fd)) =
          realEvents event (s.eventsOf fd)))
  | .grow | .addEvent _ _ _ _ _ | .delEvent _ _ _ | .cancelEvent _ _ _ | .cancelAll _ _ =>
      .isTrue trivial

/-- The registered events are counted, and a waiter that was registered waits, or was
scheduled, or was removed, and only once. -/
structure Accounted (s : IOManager S) : Prop where
  pending : s.m_pendingEventCount = (s.contexts.map FdContext.bits).sum
  once : ∀ k < s.registered,
    s.waiting k + (s.scheduled.map Prod.fst).count k + s.removed.count k = 1

theorem accounted_of_inv (h : Inv s) : Accounted s where
  pending := h.pending
  once := fun k hk => (h.places k).trans (if_pos hk)

theorem error_of_map {r : Except EventFault (IOManager S × Bool)} {fault : EventFault}
    (h : r.map Prod.fst = .error fault) : r = .error fault := by
  cases r with
  | error fault' =>
    cases h
    rfl
  | ok x => cases h

theorem triggerIf_ne {event : Event} {on : Bool} (h : on → (s.eventsOf fd).has event) :
    s.triggerIf fd event on ≠ .error .notRegistered := by
  cases on with
  | false => nofun
  | true => exact trigger_ne (h rfl)

theorem addEvent_ne {event : Event} {this : Option S} {isCb epoll_ctl : Bool} :
    s.addEvent fd event this isCb epoll_ctl ≠ .error .notRegistered := by
  intro hs
  unfold addEvent at hs
  split at hs
  · cases hs
  · next ctx hfd =>
    split at hs
    · cases hs
    · split at hs
      · rcases error_of_bind hs with hs | ⟨ctx', -, hs⟩
        · exact FdContext.register_ne this isCb s.registered hs
        · cases hs
      · cases hs

theorem delEvent_ne {event : Event} {epoll_ctl : Bool} :
    s.delEvent fd event epoll_ctl ≠ .error .notRegistered := by
  intro hs
  unfold delEvent at hs
  split at hs
  · cases hs
  · next ctx hfd =>
    split at hs
    · next hand =>
      rw [FdContext.getContext_eq (Bool.and_eq_true_iff.mp hand).1] at hs
      cases hs
    · cases hs

theorem cancelEvent_ne {event : Event} {epoll_ctl : Bool} :
    s.cancelEvent fd event epoll_ctl ≠ .error .notRegistered := by
  intro hs
  unfold cancelEvent at hs
  split at hs
  · next hand =>
    rcases error_of_bind hs with hs | ⟨s₁, -, hs⟩
    · exact trigger_ne (Bool.and_eq_true_iff.mp hand).1 hs
    · cases hs
  · cases hs

theorem cancelAll_ne {epoll_ctl : Bool} :
    s.cancelAll fd epoll_ctl ≠ .error .notRegistered := by
  intro hs
  unfold cancelAll at hs
  split at hs
  · rcases error_of_bind hs with hs | ⟨s₁, hs₁, hs⟩
    · exact triggerIf_ne (fun hread => hread) hs
    · rcases error_of_bind hs with hs | ⟨s₂, -, hs⟩
      · exact triggerIf_ne (fun hwrite => hwrite) hs
      · cases hs
  · cases hs

theorem subset_of_inter {events real : Events} (h : events.inter real = real) :
    (real.read → events.read) ∧ (real.write → events.write) := by
  have hread : (events.inter real).read = real.read := by rw [h]
  have hwrite : (events.inter real).write = real.write := by rw [h]
  simp only [Events.inter, Bool.and_eq_right_iff_imp] at hread hwrite
  exact ⟨hread, hwrite⟩

theorem idle_ne {event : EpollEvents} {epoll_ctl : Bool} (h : Inv s)
    (hfresh : Fresh s (.idle fd event epoll_ctl)) :
    s.idle fd event epoll_ctl ≠ .error .notRegistered := by
  intro hs
  unfold idle at hs
  split at hs
  · cases hs
  · next ctx hfd =>
    rw [← eventsOf_eq hfd] at hs
    dsimp only at hs
    split at hs
    · next hand =>
      obtain ⟨hsome, hctl⟩ := Bool.and_eq_true_iff.mp hand
      obtain ⟨hread, hwrite⟩ := subset_of_inter ((hfresh hctl).resolve_left (of_decide_eq_true hsome))
      rcases error_of_bind hs with hs | ⟨s₁, hs₁, hs⟩
      · exact triggerIf_ne hread hs
      · refine triggerIf_ne (fun hreal => ?_) hs
        show (s₁.eventsOf fd).write
        rw [(triggerIf_ok h hs₁).2]
        split
        · exact hwrite hreal
        · exact hwrite hreal
    · cases hs

theorem step_ne {m : EventMove S} (h : Inv s) (hfresh : Fresh s m) :
    s.step m ≠ .error .notRegistered := by
  cases m with
  | grow =>
    change s.grow ≠ _
    unfold grow
    split <;> nofun
  | addEvent fd event this isCb epoll_ctl => exact fun hs => addEvent_ne (error_of_map hs)
  | delEvent fd event epoll_ctl => exact fun hs => delEvent_ne (error_of_map hs)
  | cancelEvent fd event epoll_ctl => exact fun hs => cancelEvent_ne (error_of_map hs)
  | cancelAll fd epoll_ctl => exact fun hs => cancelAll_ne (error_of_map hs)
  | idle fd event epoll_ctl => exact idle_ne h hfresh

theorem triggers_registered_events (ms : List (EventMove S)) (hms : Tries step Fresh init ms) :
    ms.foldlM step init ≠ .error .notRegistered ∧ Along step Accounted (init : IOManager S) ms := by
  constructor
  · exact Tries.ne_error Inv Fresh (fun _ _ _ => inv_step) (fun _ _ => step_ne) ms init inv_init hms
  · apply Along.mono fun _ => accounted_of_inv
    apply along_of_each Inv (fun _ _ => True)
    · intro s m s' h _ hs
      exact inv_step h hs
    · exact inv_init
    · exact each_true ms init

/-- A result that is wholly out of date, an error that is widened, and `cancelAll`. -/
def staleResults : List (EventMove Unit) :=
  [.grow, .grow, .addEvent 1 .READ (some ()) false true, .addEvent 1 .WRITE (some ()) true true,
    .delEvent 1 .WRITE true, .idle 1 ⟨false, true, false, false⟩ true,
    .addEvent 1 .WRITE (some ()) false false, .addEvent 1 .WRITE (some ()) false true,
    .idle 1 ⟨true, false, true, false⟩ true, .addEvent 0 .READ (some ()) false true,
    .addEvent 0 .WRITE (some ()) true true, .cancelEvent 0 .READ true, .cancelAll 0 true]

theorem triggers_registered_events_stale :
    (staleResults.foldlM step init).isOk ∧ staleResults.foldlM step init ≠ .error .notRegistered ∧
      Along step Accounted init staleResults :=
  ⟨by decide, triggers_registered_events staleResults (by decide)⟩

/-- Both events are reported, and one of them is removed before `idle` has the mutex. -/
def partlyStale : List (EventMove Unit) :=
  [.grow, .addEvent 0 .READ (some ()) false true, .addEvent 0 .WRITE (some ()) false true,
    .delEvent 0 .WRITE true, .idle 0 ⟨true, true, false, false⟩ true]

theorem partly_stale_result_fails :
    ¬ ∀ ms : List (EventMove Unit),
      ms.foldlM step init ≠ .error .notRegistered ∧ Along step Accounted init ms := by
  intro hall
  exact (hall partlyStale).1 rfl

end IOManager

end Sylar
