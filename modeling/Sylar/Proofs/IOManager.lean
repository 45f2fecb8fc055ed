import Sylar.Lib.Partial
import Sylar.Lib.Records
import Sylar.Spec.IOManager

/-! The events of an `IOManager`. A registered waiter is in the context of its event until it
is scheduled or removed, and `m_pendingEventCount` counts the registered events. -/

namespace Sylar

open Lib

variable {S : Type}

theorem incr_of_lt {count : ℕ} (h : count + 1 < 2 ^ 64) : incr count = count + 1 :=
  Nat.mod_eq_of_lt h

theorem decr_of_pos {count : ℕ} (hpos : 0 < count) (h : count < 2 ^ 64) :
    decr count = count - 1 := by
  unfold decr
  rw [show count + (2 ^ 64 - 1) = count - 1 + 2 ^ 64 by omega, Nat.add_mod_right]
  exact Nat.mod_eq_of_lt (by omega)

namespace EventContext

def waiter (event_ctx : EventContext S) : Option ℕ := event_ctx.cb <|> event_ctx.fiber

/-- One waiter for a registered event, and nothing for another. -/
def Sound (registered : Bool) (event_ctx : EventContext S) : Prop :=
  if registered then
    event_ctx.cb.isSome ∧ event_ctx.fiber = none ∨ event_ctx.cb = none ∧ event_ctx.fiber.isSome
  else event_ctx = FdContext.emptyContext

end EventContext

namespace FdContext

def slot (ctx : FdContext S) : Event → EventContext S
  | .READ => ctx.read
  | .WRITE => ctx.write
  | .NONE => emptyContext

structure Sound (ctx : FdContext S) : Prop where
  read : ctx.read.Sound ctx.events.read
  write : ctx.write.Sound ctx.events.write

def bits (ctx : FdContext S) : ℕ := ctx.events.read.toNat + ctx.events.write.toNat

def waiters (ctx : FdContext S) : List ℕ := ctx.read.waiter.toList ++ ctx.write.waiter.toList

variable {ctx ctx' : FdContext S} {event : Event}

theorem sound_new : Sound (new : FdContext S) := ⟨rfl, rfl⟩

theorem Sound.slot (h : ctx.Sound) (event : Event) :
    (ctx.slot event).Sound (ctx.events.has event) := by
  cases event with
  | NONE => rfl
  | READ => exact h.read
  | WRITE => exact h.write

theorem bits_le (ctx : FdContext S) : ctx.bits ≤ 2 := by
  have hread := Bool.toNat_le ctx.events.read
  have hwrite := Bool.toNat_le ctx.events.write
  unfold bits
  omega

/-- A registered event is taken away with its context. -/
def cleared (ctx : FdContext S) (event : Event) : FdContext S :=
  { ctx.setContext event emptyContext with events := ctx.events.erase event }

theorem getContext_eq (h : ctx.events.has event) : ctx.getContext event = .ok (ctx.slot event) := by
  cases event with
  | NONE => cases h
  | READ => rfl
  | WRITE => rfl

theorem sound_cleared (h : ctx.Sound) (event : Event) : (ctx.cleared event).Sound := by
  cases event with
  | NONE => exact h
  | READ => exact ⟨rfl, h.write⟩
  | WRITE => exact ⟨h.read, rfl⟩

theorem bits_cleared (hevent : ctx.events.has event) : (ctx.cleared event).bits + 1 = ctx.bits := by
  cases event with
  | NONE => cases hevent
  | READ =>
    have hread : ctx.events.read = true := hevent
    simp [bits, cleared, Events.erase, hread]
    omega
  | WRITE =>
    have hwrite : ctx.events.write = true := hevent
    simp [bits, cleared, Events.erase, hwrite]

theorem waiters_cleared (hevent : ctx.events.has event) (k : ℕ) :
    (ctx.cleared event).waiters.count k + (ctx.slot event).waiter.toList.count k =
      ctx.waiters.count k := by
  cases event with
  | NONE => cases hevent
  | READ =>
    simp [waiters, cleared, setContext, slot, EventContext.waiter, emptyContext]
    omega
  | WRITE => simp [waiters, cleared, setContext, slot, EventContext.waiter, emptyContext]

/-- What `triggerEvent` does: the waiter is scheduled and nothing is left in the context. -/
theorem triggerEvent_ok (h : ctx.Sound) {r : FdContext S × Option (ℕ × S)}
    (hr : ctx.triggerEvent event = .ok r) :
    ctx.events.has event ∧ r.1 = ctx.cleared event ∧
      r.2.toList.map Prod.fst = (ctx.slot event).waiter.toList := by
  unfold triggerEvent at hr
  by_cases hevent : ctx.events.has event
  · refine ⟨hevent, ?_⟩
    have hslot := h.slot event
    simp only [hevent, if_true, getContext_eq hevent, bind, Except.bind] at hr hslot
    cases hscheduler : (ctx.slot event).scheduler with
    | none =>
      simp only [hscheduler] at hr
      cases hr
    | some scheduler =>
      simp only [hscheduler] at hr
      cases hr
      have hleft : (if (ctx.slot event).cb.isSome then
            (⟨none, (ctx.slot event).fiber, none⟩ : EventContext S)
          else ⟨none, none, (ctx.slot event).cb⟩) = emptyContext := by
        rcases hslot with ⟨hcb, hfiber⟩ | ⟨hcb, hfiber⟩
        · simp [hcb, hfiber, emptyContext]
        · simp [hcb, emptyContext]
      refine ⟨by rw [hleft]; rfl, ?_⟩
      show ((ctx.slot event).waiter.map fun waiter => (waiter, scheduler)).toList.map Prod.fst =
        (ctx.slot event).waiter.toList
      cases (ctx.slot event).waiter <;> rfl
  · simp only [hevent, Bool.false_eq_true, if_false] at hr
    cases hr

theorem triggerEvent_ne (hevent : ctx.events.has event) :
    ctx.triggerEvent event ≠ .error .notRegistered := by
  unfold triggerEvent
  simp only [hevent, if_true, getContext_eq hevent, bind, Except.bind]
  split <;> nofun

/-- What the last part of `addEvent` does. The assertion about the context does not fail. -/
theorem register_ok (h : ctx.Sound) {this : Option S} {isCb : Bool} {waiter : ℕ}
    (hevent : ¬ ctx.events.has event) (hr : ctx.register event this isCb waiter = .ok ctx') :
    ctx'.Sound ∧ ctx'.bits = ctx.bits + 1 ∧
      ∀ k, ctx'.waiters.count k = ctx.waiters.count k + [waiter].count k := by
  cases event with
  | NONE => cases hr
  | READ =>
    have hread : ctx.events.read = false := by simpa [Events.has] using hevent
    have hempty := h.read
    rw [hread] at hempty
    have hslot : ctx.read = emptyContext := hempty
    simp only [register, getContext, bind, Except.bind, hslot, emptyContext] at hr
    cases hr
    refine ⟨⟨?_, h.write⟩, ?_, fun k => ?_⟩
    · cases isCb <;> simp [EventContext.Sound, setContext, Events.insert]
    · simp [bits, Events.insert, hread]
      omega
    · cases isCb <;>
        simp [waiters, setContext, EventContext.waiter, hslot, emptyContext, List.count_cons, add_comm]
  | WRITE =>
    have hwrite : ctx.events.write = false := by simpa [Events.has] using hevent
    have hempty := h.write
    rw [hwrite] at hempty
    have hslot : ctx.write = emptyContext := hempty
    simp only [register, getContext, bind, Except.bind, hslot, emptyContext] at hr
    cases hr
    refine ⟨⟨h.read, ?_⟩, ?_, fun k => ?_⟩
    · cases isCb <;> simp [EventContext.Sound, setContext, Events.insert]
    · simp [bits, Events.insert, hwrite]
    · cases isCb <;> simp [waiters, setContext, EventContext.waiter, hslot, emptyContext]

theorem register_ne (this : Option S) (isCb : Bool) (waiter : ℕ) :
    ctx.register event this isCb waiter ≠ .error .notRegistered := by
  cases event with
  | NONE => nofun
  | READ | WRITE =>
    simp only [register, getContext, bind, Except.bind]
    split <;> nofun

end FdContext

namespace IOManager

variable {s s' : IOManager S} {fd : ℕ}

def waiting (s : IOManager S) (k : ℕ) : ℕ := (s.contexts.map fun ctx => ctx.waiters.count k).sum

/-- How often a waiter is in a context, was scheduled, or was removed. -/
def places (s : IOManager S) (k : ℕ) : ℕ :=
  s.waiting k + (s.scheduled.map Prod.fst).count k + s.removed.count k

structure Inv (s : IOManager S) : Prop where
  sound : ∀ fd ctx, look s.contexts fd = some ctx → ctx.Sound
  length : s.contexts.length ≤ 2 ^ 31
  pending : s.m_pendingEventCount = (s.contexts.map FdContext.bits).sum
  places : ∀ k, s.places k = if k < s.registered then 1 else 0

theorem inv_init : Inv (init : IOManager S) where
  sound := by simp [init, look]
  length := by simp [init]
  pending := rfl
  places := by simp [init, IOManager.places, waiting]

/-- A context is replaced, with what it had registered or scheduled. -/
theorem Inv.replace {ctx ctx' : FdContext S} (h : Inv s) (hfd : look s.contexts fd = some ctx)
    (hsound : ctx'.Sound) (hcontexts : s'.contexts = s.contexts.set fd ctx')
    (hpending : s'.m_pendingEventCount + ctx.bits = s.m_pendingEventCount + ctx'.bits)
    (hplaces : ∀ k, ctx'.waiters.count k + (s'.scheduled.map Prod.fst).count k +
      s'.removed.count k + (if k < s.registered then 1 else 0) =
        ctx.waiters.count k + (s.scheduled.map Prod.fst).count k + s.removed.count k +
          (if k < s'.registered then 1 else 0)) : Inv s' where
  sound := by
    intro d x hd
    rw [hcontexts, look_set hfd] at hd
    by_cases hdfd : d = fd
    · subst hdfd
      rw [Function.update_self] at hd
      exact Option.some.inj hd ▸ hsound
    · rw [Function.update_of_ne hdfd] at hd
      exact h.sound d x hd
  length := by
    rw [hcontexts, List.length_set]
    exact h.length
  pending := by
    have hsum := sum_map_set FdContext.bits hfd ctx'
    have hold := h.pending
    rw [hcontexts]
    omega
  places := by
    intro k
    have hsum := sum_map_set (fun ctx => ctx.waiters.count k) hfd ctx'
    have hold := h.places k
    have hk := hplaces k
    unfold IOManager.places waiting at hold ⊢
    rw [hcontexts]
    omega

theorem Inv.count_lt (h : Inv s) : s.m_pendingEventCount + 1 < 2 ^ 64 := by
  have hle : (s.contexts.map FdContext.bits).sum ≤ s.contexts.length * 2 := by
    have hcard := List.sum_le_card_nsmul (s.contexts.map FdContext.bits) 2 ?_
    · simpa using hcard
    · intro b hb
      obtain ⟨ctx, -, rfl⟩ := List.mem_map.mp hb
      exact ctx.bits_le
  have hlength := h.length
  have hpending := h.pending
  omega

theorem Inv.count_pos (h : Inv s) {ctx : FdContext S} (hfd : look s.contexts fd = some ctx)
    (hbits : 0 < ctx.bits) : 0 < s.m_pendingEventCount := by
  have hle := le_sum_map FdContext.bits hfd
  have hpending := h.pending
  omega

theorem eventsOf_eq {ctx : FdContext S} (hfd : look s.contexts fd = some ctx) :
    s.eventsOf fd = ctx.events := by
  have hget : s.contexts[fd]? = some ctx := hfd
  simp [eventsOf, hget]

theorem look_of_has {event : Event} (h : (s.eventsOf fd).has event) :
    ∃ ctx, look s.contexts fd = some ctx ∧ ctx.events.has event := by
  cases hfd : s.contexts[fd]? with
  | none =>
    simp only [eventsOf, hfd, Option.map_none, Option.getD_none] at h
    cases event <;> cases h
  | some ctx => exact ⟨ctx, hfd, eventsOf_eq hfd ▸ h⟩

theorem setEvents_eq {events : Events} (h : s.eventsOf fd = events) : s.setEvents fd events = s := by
  have hmodify : s.contexts.modify fd (fun ctx => { ctx with events := events }) = s.contexts := by
    cases hfd : look s.contexts fd with
    | none => exact List.modify_eq_self (List.getElem?_eq_none_iff.mp hfd)
    | some ctx =>
      have hevents := (eventsOf_eq hfd).symm.trans h
      rw [modify_eq_set _ hfd, ← hevents]
      obtain ⟨hlt, hget⟩ := List.getElem?_eq_some_iff.mp hfd
      rw [show ({ ctx with events := ctx.events } : FdContext S) = s.contexts[fd] from hget.symm]
      exact List.set_getElem_self hlt
  unfold setEvents
  rw [hmodify]

theorem trigger_ok {event : Event} (h : Inv s) (hs : s.trigger fd event = .ok s') :
    Inv s' ∧ s'.eventsOf fd = (s.eventsOf fd).erase event := by
  unfold trigger at hs
  cases hfd : s.contexts[fd]? with
  | none =>
    simp only [hfd] at hs
    cases hs
  | some ctx =>
    simp only [hfd] at hs
    obtain ⟨r, hr, hs⟩ := ok_of_bind hs
    obtain ⟨hevent, hctx, hout⟩ := FdContext.triggerEvent_ok (h.sound fd ctx hfd) hr
    rw [← Except.ok.inj hs, hctx]
    have hbits := FdContext.bits_cleared hevent
    refine ⟨h.replace hfd (FdContext.sound_cleared (h.sound fd ctx hfd) event)
      rfl ?_ ?_, ?_⟩
    · have hlt := h.count_lt
      have hpos := h.count_pos hfd (by omega)
      dsimp only
      rw [decr_of_pos hpos (by omega)]
      omega
    · intro k
      have hk := FdContext.waiters_cleared hevent k
      dsimp only
      rw [List.map_append, hout, List.count_append]
      omega
    · rw [eventsOf_eq hfd]
      have hset : look (s.contexts.set fd (ctx.cleared event)) fd = some (ctx.cleared event) := by
        rw [look_set hfd, Function.update_self]
      change _ = (ctx.cleared event).events
      exact eventsOf_eq hset

theorem triggerIf_ok {event : Event} {on : Bool} (h : Inv s)
    (hs : s.triggerIf fd event on = .ok s') :
    Inv s' ∧ s'.eventsOf fd = if on then (s.eventsOf fd).erase event else s.eventsOf fd := by
  cases on with
  | false =>
    cases hs
    exact ⟨h, rfl⟩
  | true => exact trigger_ok h hs

theorem trigger_ne {event : Event} (hevent : (s.eventsOf fd).has event) :
    s.trigger fd event ≠ .error .notRegistered := by
  obtain ⟨ctx, hfd, hhas⟩ := look_of_has hevent
  have hget : s.contexts[fd]? = some ctx := hfd
  have hne := FdContext.triggerEvent_ne hhas
  unfold trigger
  simp only [hget]
  cases hr : ctx.triggerEvent event with
  | error fault =>
    intro heq
    cases heq
    exact hne hr
  | ok r => nofun

/-- What `addEvent` has done when it returns. Where the kernel refuses nothing is changed. -/
theorem addEvent_cases {event : Event} {this : Option S} {isCb epoll_ctl rt : Bool}
    (hs : s.addEvent fd event this isCb epoll_ctl = .ok (s', rt)) :
    (rt = false ∧ s' = s) ∨
      ∃ ctx ctx', look s.contexts fd = some ctx ∧ ¬ ctx.events.has event ∧
        ctx.register event this isCb s.registered = .ok ctx' ∧ epoll_ctl ∧
        s' = { s with
          m_pendingEventCount := incr s.m_pendingEventCount
          contexts := s.contexts.set fd ctx'
          registered := s.registered + 1 } := by
  unfold addEvent at hs
  split at hs
  · cases hs
  · next ctx hfd =>
    split at hs
    · cases hs
    · next hevent =>
      split at hs
      · next hctl =>
        obtain ⟨ctx', hctx', hs⟩ := ok_of_bind hs
        cases hs
        exact .inr ⟨ctx, ctx', hfd, hevent, hctx', hctl, rfl⟩
      · cases hs
        exact .inl ⟨rfl, rfl⟩

theorem delEvent_cases {event : Event} {epoll_ctl rt : Bool}
    (hs : s.delEvent fd event epoll_ctl = .ok (s', rt)) :
    s' = s ∨
      ∃ ctx, look s.contexts fd = some ctx ∧ ctx.events.has event ∧
        s' = { s with
          m_pendingEventCount := decr s.m_pendingEventCount
          contexts := s.contexts.set fd (ctx.cleared event)
          removed := ((ctx.slot event).cb <|> (ctx.slot event).fiber).toList ++ s.removed } := by
  unfold delEvent at hs
  split at hs
  · cases hs
    exact .inl rfl
  · next ctx hfd =>
    split at hs
    · next hand =>
      obtain ⟨hevent, -⟩ := Bool.and_eq_true_iff.mp hand
      rw [FdContext.getContext_eq hevent] at hs
      exact .inr ⟨ctx, hfd, hevent, (Prod.mk.inj (Except.ok.inj hs)).1.symm⟩
    · cases hs
      exact .inl rfl

theorem cancelEvent_cases {event : Event} {epoll_ctl rt : Bool} (h : Inv s)
    (hs : s.cancelEvent fd event epoll_ctl = .ok (s', rt)) :
    (s' = s ∧ ¬ ((s.eventsOf fd).has event && epoll_ctl) = true) ∨ s.trigger fd event = .ok s' := by
  unfold cancelEvent at hs
  split at hs
  · obtain ⟨s₁, hs₁, hs⟩ := ok_of_bind hs
    cases hs
    rw [setEvents_eq (trigger_ok h hs₁).2]
    exact .inr hs₁
  · next hand =>
    cases hs
    exact .inl ⟨rfl, hand⟩

theorem inv_addEvent {event : Event} {this : Option S} {isCb epoll_ctl rt : Bool} (h : Inv s)
    (hs : s.addEvent fd event this isCb epoll_ctl = .ok (s', rt)) : Inv s' := by
  obtain ⟨-, rfl⟩ | ⟨ctx, ctx', hfd, hevent, hctx', -, rfl⟩ := addEvent_cases hs
  · exact h
  · obtain ⟨hsound, hbits, hcount⟩ := FdContext.register_ok (h.sound fd ctx hfd) hevent hctx'
    refine h.replace hfd hsound rfl ?_ ?_
    · dsimp only
      rw [incr_of_lt h.count_lt]
      omega
    · intro k
      have hk := hcount k
      have hsplit : (if k < s.registered + 1 then 1 else 0) =
          (if k < s.registered then 1 else 0) + [s.registered].count k := by
        rw [List.count_singleton]
        rcases lt_trichotomy k s.registered with hlt | heq | hgt
        · rw [if_pos (by omega), if_pos hlt, if_neg (by simp; omega)]
        · rw [if_pos (by omega), if_neg (by omega), if_pos (by simp [heq])]
        · rw [if_neg (by omega), if_neg (by omega), if_neg (by simp; omega)]
      dsimp only
      omega

theorem inv_delEvent {event : Event} {epoll_ctl rt : Bool} (h : Inv s)
    (hs : s.delEvent fd event epoll_ctl = .ok (s', rt)) : Inv s' := by
  obtain rfl | ⟨ctx, hfd, hevent, rfl⟩ := delEvent_cases hs
  · exact h
  · have hbits := FdContext.bits_cleared hevent
    refine h.replace hfd (FdContext.sound_cleared (h.sound fd ctx hfd) event) rfl ?_ ?_
    · have hlt := h.count_lt
      have hpos := h.count_pos hfd (by omega)
      dsimp only
      rw [decr_of_pos hpos (by omega)]
      omega
    · intro k
      have hk : _ + ((ctx.slot event).cb <|> (ctx.slot event).fiber).toList.count k = _ :=
        FdContext.waiters_cleared hevent k
      dsimp only
      rw [List.count_append]
      omega

theorem inv_cancelEvent {event : Event} {epoll_ctl rt : Bool} (h : Inv s)
    (hs : s.cancelEvent fd event epoll_ctl = .ok (s', rt)) : Inv s' := by
  obtain ⟨rfl, -⟩ | htrigger := cancelEvent_cases h hs
  · exact h
  · exact (trigger_ok h htrigger).1

theorem triggerIf_both {s₁ s₂ : IOManager S} (h : Inv s)
    (hs₁ : s.triggerIf fd .READ (s.eventsOf fd).read = .ok s₁)
    (hs₂ : s₁.triggerIf fd .WRITE (s₁.eventsOf fd).write = .ok s₂) :
    Inv s₂ ∧ s₂.eventsOf fd = Events.none := by
  obtain ⟨h₁, hevents₁⟩ := triggerIf_ok h hs₁
  obtain ⟨h₂, hevents₂⟩ := triggerIf_ok h₁ hs₂
  refine ⟨h₂, ?_⟩
  rw [hevents₂, hevents₁]
  cases s.eventsOf fd with
  | mk read write => cases read <;> cases write <;> rfl

theorem cancelAll_cases {epoll_ctl rt : Bool} (h : Inv s)
    (hs : s.cancelAll fd epoll_ctl = .ok (s', rt)) :
    s' = s ∨ ∃ read write s₁, s.triggerIf fd .READ read = .ok s₁ ∧
      s₁.triggerIf fd .WRITE write = .ok s' := by
  unfold cancelAll at hs
  split at hs
  · obtain ⟨s₁, hs₁, hs⟩ := ok_of_bind hs
    obtain ⟨s₂, hs₂, hs⟩ := ok_of_bind hs
    cases hs
    rw [setEvents_eq (triggerIf_both h hs₁ hs₂).2]
    exact .inr ⟨_, _, s₁, hs₁, hs₂⟩
  · cases hs
    exact .inl rfl

theorem idle_cases {event : EpollEvents} {epoll_ctl : Bool}
    (hs : s.idle fd event epoll_ctl = .ok s') :
    s' = s ∨ ∃ read write s₁, s.triggerIf fd .READ read = .ok s₁ ∧
      s₁.triggerIf fd .WRITE write = .ok s' := by
  unfold idle at hs
  split at hs
  · cases hs
  · dsimp only at hs
    split at hs
    · obtain ⟨s₁, hs₁, hs₂⟩ := ok_of_bind hs
      exact .inr ⟨_, _, s₁, hs₁, hs₂⟩
    · cases hs
      exact .inl rfl

theorem inv_cancelAll {epoll_ctl rt : Bool} (h : Inv s)
    (hs : s.cancelAll fd epoll_ctl = .ok (s', rt)) : Inv s' := by
  obtain rfl | ⟨read, write, s₁, hs₁, hs₂⟩ := cancelAll_cases h hs
  · exact h
  · exact (triggerIf_ok (triggerIf_ok h hs₁).1 hs₂).1

theorem inv_idle {event : EpollEvents} {epoll_ctl : Bool} (h : Inv s)
    (hs : s.idle fd event epoll_ctl = .ok s') : Inv s' := by
  obtain rfl | ⟨read, write, s₁, hs₁, hs₂⟩ := idle_cases hs
  · exact h
  · exact (triggerIf_ok (triggerIf_ok h hs₁).1 hs₂).1

theorem ok_of_map {r : Except EventFault (IOManager S × Bool)} (h : r.map Prod.fst = .ok s') :
    ∃ rt, r = .ok (s', rt) := by
  cases r with
  | error fault => cases h
  | ok x =>
    cases h
    exact ⟨x.2, rfl⟩

theorem inv_step {m : EventMove S} (h : Inv s) (hs : s.step m = .ok s') : Inv s' := by
  cases m with
  | grow =>
    change s.grow = .ok s' at hs
    unfold grow at hs
    split at hs
    · next hlt =>
      cases hs
      refine ⟨?_, ?_, ?_, ?_⟩
      · intro d ctx hd
        dsimp only at hd
        rw [look_append] at hd
        by_cases hdl : d = s.contexts.length
        · rw [hdl, Function.update_self] at hd
          exact Option.some.inj hd ▸ FdContext.sound_new
        · rw [Function.update_of_ne hdl] at hd
          exact h.sound d ctx hd
      · simp only [List.length_append, List.length_singleton]
        omega
      · rw [sum_map_append]
        exact h.pending
      · intro k
        have hk := h.places k
        unfold IOManager.places waiting at hk ⊢
        rw [sum_map_append]
        exact hk
    · cases hs
  | addEvent fd event this isCb epoll_ctl =>
    obtain ⟨rt, hs⟩ := ok_of_map hs
    exact inv_addEvent h hs
  | delEvent fd event epoll_ctl =>
    obtain ⟨rt, hs⟩ := ok_of_map hs
    exact inv_delEvent h hs
  | cancelEvent fd event epoll_ctl =>
    obtain ⟨rt, hs⟩ := ok_of_map hs
    exact inv_cancelEvent h hs
  | cancelAll fd epoll_ctl =>
    obtain ⟨rt, hs⟩ := ok_of_map hs
    exact inv_cancelAll h hs
  | idle fd event epoll_ctl => exact inv_idle h hs

end IOManager

end Sylar
