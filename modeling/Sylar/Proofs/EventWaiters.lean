import Sylar.Proofs.IOManager

/-! Where a waiter waits. It is put into the context of its event once, when it is registered,
so one that is not there will not be there later. -/

namespace Sylar

open Lib

variable {S : Type}

theorem Events.has_erase (events : Events) (event : Event) : ¬ (events.erase event).has event := by
  cases event <;> simp [Events.erase, Events.has]

namespace FdContext

/-- The event is registered, and this is what waits for it. -/
def Holds (ctx : FdContext S) (event : Event) (k : ℕ) : Prop :=
  ctx.events.has event ∧ (ctx.slot event).waiter = some k

instance (ctx : FdContext S) (event : Event) (k : ℕ) : Decidable (ctx.Holds event k) :=
  inferInstanceAs (Decidable (_ ∧ _))

variable {ctx ctx' : FdContext S} {event : Event} {k : ℕ}

theorem holds_of_cleared (e : Event) (h : (ctx.cleared e).Holds event k) : ctx.Holds event k := by
  obtain ⟨hhas, hwaiter⟩ := h
  cases e with
  | NONE => exact ⟨hhas, hwaiter⟩
  | READ =>
    cases event with
    | NONE => cases hhas
    | READ => cases hhas
    | WRITE => exact ⟨hhas, hwaiter⟩
  | WRITE =>
    cases event with
    | NONE => cases hhas
    | READ => exact ⟨hhas, hwaiter⟩
    | WRITE => cases hhas

theorem holds_of_register {e : Event} {this : Option S} {isCb : Bool} {waiter : ℕ}
    (hr : ctx.register e this isCb waiter = .ok ctx') (h : ctx'.Holds event k) :
    ctx.Holds event k ∨ k = waiter := by
  obtain ⟨hhas, hwaiter⟩ := h
  obtain ⟨event_ctx, hget, hr⟩ := ok_of_bind hr
  split at hr
  · cases hr
  · cases hr
    cases e with
    | NONE => cases hget
    | READ =>
      cases event with
      | NONE => cases hhas
      | READ =>
        right
        cases isCb <;> exact (Option.some.inj hwaiter).symm
      | WRITE => exact .inl ⟨hhas, hwaiter⟩
    | WRITE =>
      cases event with
      | NONE => cases hhas
      | READ => exact .inl ⟨hhas, hwaiter⟩
      | WRITE =>
        right
        cases isCb <;> exact (Option.some.inj hwaiter).symm

end FdContext

namespace IOManager

variable {s s' s'' : IOManager S} {fd : ℕ}

/-- The event of the descriptor is registered, and this is what waits for it. -/
def Waits (s : IOManager S) (fd : ℕ) (event : Event) (k : ℕ) : Prop :=
  ∃ ctx ∈ look s.contexts fd, ctx.Holds event k

instance (s : IOManager S) (fd : ℕ) (event : Event) (k : ℕ) : Decidable (s.Waits fd event k) :=
  inferInstanceAs (Decidable (∃ ctx ∈ look s.contexts fd, ctx.Holds event k))

theorem Waits.has {event : Event} {k : ℕ} (h : s.Waits fd event k) :
    (s.eventsOf fd).has event := by
  obtain ⟨ctx, hctx, hhas, -⟩ := h
  rw [eventsOf_eq hctx]
  exact hhas

/-- What a step leaves as it was: nothing is unregistered or unscheduled, and what waits has
waited before or is new. -/
structure Later (s s' : IOManager S) : Prop where
  registered : s.registered ≤ s'.registered
  scheduled : ∀ k ∈ s.scheduled.map Prod.fst, k ∈ s'.scheduled.map Prod.fst
  waits : ∀ fd event k, k < s.registered → s'.Waits fd event k → s.Waits fd event k

theorem Later.refl (s : IOManager S) : Later s s where
  registered := le_rfl
  scheduled := fun _ hk => hk
  waits := fun _ _ _ _ hwaits => hwaits

theorem Later.trans (h : Later s s') (h' : Later s' s'') : Later s s'' where
  registered := h.registered.trans h'.registered
  scheduled := fun k hk => h'.scheduled k (h.scheduled k hk)
  waits := fun fd event k hk hwaits =>
    h.waits fd event k hk (h'.waits fd event k (hk.trans_le h.registered) hwaits)

theorem later_of_set {ctx ctx' : FdContext S} (hfd : look s.contexts fd = some ctx)
    (hcontexts : s'.contexts = s.contexts.set fd ctx')
    (hholds : ∀ event k, k < s.registered → ctx'.Holds event k → ctx.Holds event k)
    (hregistered : s.registered ≤ s'.registered)
    (hscheduled : ∃ new, s'.scheduled = new ++ s.scheduled) : Later s s' where
  registered := hregistered
  scheduled := by
    intro k hk
    obtain ⟨new, hnew⟩ := hscheduled
    rw [hnew, List.map_append]
    exact List.mem_append_right _ hk
  waits := by
    intro d event k hk hwaits
    obtain ⟨x, hx, hxk⟩ := hwaits
    rw [hcontexts, look_set hfd] at hx
    by_cases hd : d = fd
    · subst hd
      rw [Function.update_self] at hx
      have hx' : x = ctx' := (Option.some.inj hx).symm
      exact ⟨ctx, hfd, hholds event k hk (hx' ▸ hxk)⟩
    · rw [Function.update_of_ne hd] at hx
      exact ⟨x, hx, hxk⟩

theorem later_trigger {event : Event} (h : Inv s) (hs : s.trigger fd event = .ok s') :
    Later s s' := by
  unfold trigger at hs
  split at hs
  · cases hs
  · next ctx hfd =>
    obtain ⟨r, hr, hs⟩ := ok_of_bind hs
    obtain ⟨-, hctx, -⟩ := FdContext.triggerEvent_ok (h.sound fd ctx hfd) hr
    rw [← Except.ok.inj hs]
    refine later_of_set hfd rfl ?_ le_rfl ⟨r.2.toList, rfl⟩
    intro e k _ hholds
    rw [hctx] at hholds
    exact FdContext.holds_of_cleared event hholds

theorem later_triggerIf {event : Event} {on : Bool} (h : Inv s)
    (hs : s.triggerIf fd event on = .ok s') : Later s s' := by
  cases on with
  | false =>
    cases hs
    exact .refl s
  | true => exact later_trigger h hs

theorem later_addEvent {event : Event} {this : Option S} {isCb epoll_ctl rt : Bool}
    (hs : s.addEvent fd event this isCb epoll_ctl = .ok (s', rt)) : Later s s' := by
  obtain ⟨-, rfl⟩ | ⟨ctx, ctx', hfd, -, hctx', -, rfl⟩ := addEvent_cases hs
  · exact .refl s'
  · refine later_of_set hfd rfl ?_ (Nat.le_succ _) ⟨[], rfl⟩
    intro e k hk hholds
    exact (FdContext.holds_of_register hctx' hholds).resolve_right (by omega)

theorem addEvent_true {event : Event} {this : Option S} {isCb epoll_ctl : Bool}
    (hs : s.addEvent fd event this isCb epoll_ctl = .ok (s', true)) :
    epoll_ctl ∧ s'.registered = s.registered + 1 ∧ s'.scheduled = s.scheduled := by
  obtain ⟨hrt, -⟩ | ⟨ctx, ctx', -, -, -, hctl, rfl⟩ := addEvent_cases hs
  · cases hrt
  · exact ⟨hctl, rfl, rfl⟩

theorem later_delEvent {event : Event} {epoll_ctl rt : Bool}
    (hs : s.delEvent fd event epoll_ctl = .ok (s', rt)) : Later s s' := by
  obtain rfl | ⟨ctx, hfd, -, rfl⟩ := delEvent_cases hs
  · exact .refl s'
  · exact later_of_set hfd rfl (fun e k _ => FdContext.holds_of_cleared event) le_rfl ⟨[], rfl⟩

theorem later_cancelEvent {event : Event} {epoll_ctl rt : Bool} (h : Inv s)
    (hs : s.cancelEvent fd event epoll_ctl = .ok (s', rt)) : Later s s' := by
  obtain ⟨rfl, -⟩ | htrigger := cancelEvent_cases h hs
  · exact .refl s'
  · exact later_trigger h htrigger

/-- After `cancelEvent` nothing waits for the event, unless the kernel refused. -/
theorem not_waits_cancelEvent {event : Event} {epoll_ctl rt : Bool} {k : ℕ} (h : Inv s)
    (hctl : s.Waits fd event k → epoll_ctl)
    (hs : s.cancelEvent fd event epoll_ctl = .ok (s', rt)) : ¬ s'.Waits fd event k := by
  intro hwaits
  obtain ⟨rfl, hand⟩ | htrigger := cancelEvent_cases h hs
  · exact hand (Bool.and_eq_true_iff.mpr ⟨hwaits.has, hctl hwaits⟩)
  · have hevents := (trigger_ok h htrigger).2
    exact Events.has_erase _ event (hevents ▸ hwaits.has)

theorem later_cancelAll {epoll_ctl rt : Bool} (h : Inv s)
    (hs : s.cancelAll fd epoll_ctl = .ok (s', rt)) : Later s s' := by
  obtain rfl | ⟨read, write, s₁, hs₁, hs₂⟩ := cancelAll_cases h hs
  · exact .refl s'
  · exact (later_triggerIf h hs₁).trans (later_triggerIf (triggerIf_ok h hs₁).1 hs₂)

theorem later_idle {event : EpollEvents} {epoll_ctl : Bool} (h : Inv s)
    (hs : s.idle fd event epoll_ctl = .ok s') : Later s s' := by
  obtain rfl | ⟨read, write, s₁, hs₁, hs₂⟩ := idle_cases hs
  · exact .refl s'
  · exact (later_triggerIf h hs₁).trans (later_triggerIf (triggerIf_ok h hs₁).1 hs₂)

theorem later_step {m : EventMove S} (h : Inv s) (hs : s.step m = .ok s') : Later s s' := by
  cases m with
  | grow =>
    change s.grow = .ok s' at hs
    unfold grow at hs
    split at hs
    · cases hs
      refine ⟨le_rfl, fun _ hk => hk, fun d event k _ hwaits => ?_⟩
      obtain ⟨x, hx, hhas, hwaiter⟩ := hwaits
      rw [look_append] at hx
      by_cases hd : d = s.contexts.length
      · rw [hd, Function.update_self] at hx
        rw [← Option.some.inj hx] at hhas
        cases event <;> cases hhas
      · rw [Function.update_of_ne hd] at hx
        exact ⟨x, hx, hhas, hwaiter⟩
    · cases hs
  | addEvent fd event this isCb epoll_ctl =>
    obtain ⟨rt, hs⟩ := ok_of_map hs
    exact later_addEvent hs
  | delEvent fd event epoll_ctl =>
    obtain ⟨rt, hs⟩ := ok_of_map hs
    exact later_delEvent hs
  | cancelEvent fd event epoll_ctl =>
    obtain ⟨rt, hs⟩ := ok_of_map hs
    exact later_cancelEvent h hs
  | cancelAll fd epoll_ctl =>
    obtain ⟨rt, hs⟩ := ok_of_map hs
    exact later_cancelAll h hs
  | idle fd event epoll_ctl => exact later_idle h hs

end IOManager

end Sylar
