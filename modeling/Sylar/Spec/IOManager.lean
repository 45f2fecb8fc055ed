import Sylar.Spec.Scheduler

/-! The events of `iomanager.cc`. A critical section of `fd_ctx->mutex` is one step. Whether
`epoll_ctl` succeeds is an argument of the step, and so is what `epoll_wait` has reported,
which may be old when the mutex is taken. -/

namespace Sylar

/-- `IOManager::Event`, as an argument. -/
inductive Event where
  | NONE
  | READ
  | WRITE
deriving DecidableEq, Repr

/-- `IOManager::Event`, as a set of `READ` and `WRITE`. -/
structure Events where
  read : Bool
  write : Bool
deriving DecidableEq, Repr

namespace Events

def none : Events := ⟨false, false⟩

def has (events : Events) : Event → Bool
  | .NONE => false
  | .READ => events.read
  | .WRITE => events.write

def insert (events : Events) : Event → Events
  | .NONE => events
  | .READ => { events with read := true }
  | .WRITE => { events with write := true }

def erase (events : Events) : Event → Events
  | .NONE => events
  | .READ => { events with read := false }
  | .WRITE => { events with write := false }

def inter (a b : Events) : Events := ⟨a.read && b.read, a.write && b.write⟩

end Events

/-- The flags of an `epoll_event` that `idle` looks at. -/
structure EpollEvents where
  EPOLLIN : Bool
  EPOLLOUT : Bool
  EPOLLERR : Bool
  EPOLLHUP : Bool
deriving DecidableEq, Repr

/-- A fiber or a function that waits is known by the number of its registration. `S` are the
schedulers. -/
structure EventContext (S : Type) where
  scheduler : Option S
  fiber : Option ℕ
  cb : Option ℕ
deriving DecidableEq

structure FdContext (S : Type) where
  read : EventContext S
  write : EventContext S
  events : Events
deriving DecidableEq

/-- Why a step has no next state. The assertions are those of `triggerEvent`, of `addEvent`,
about the event and about its context, and of `getContext`. -/
inductive EventFault where
  | notEnabled
  | notRegistered
  | alreadyRegistered
  | contextInUse
  | invalidEvent
  | nullScheduler
deriving DecidableEq, Repr

namespace FdContext

variable {S : Type}

def emptyContext : EventContext S := ⟨none, none, none⟩

def new : FdContext S := ⟨emptyContext, emptyContext, Events.none⟩

section

variable (ctx : FdContext S)

def getContext : Event → Except EventFault (EventContext S)
  | .READ => .ok ctx.read
  | .WRITE => .ok ctx.write
  | .NONE => .error .invalidEvent

def setContext (event : Event) (event_ctx : EventContext S) : FdContext S :=
  match event with
  | .READ => { ctx with read := event_ctx }
  | .WRITE => { ctx with write := event_ctx }
  | .NONE => ctx

/-- The second result is what is scheduled, and on which scheduler. `schedule` leaves a null
pointer where it took the fiber or the function from. -/
def triggerEvent (event : Event) : Except EventFault (FdContext S × Option (ℕ × S)) :=
  if ctx.events.has event then do
    let event_ctx ← ctx.getContext event
    match event_ctx.scheduler with
    | none => .error .nullScheduler
    | some scheduler =>
        let left : EventContext S :=
          if event_ctx.cb.isSome then ⟨none, event_ctx.fiber, none⟩
          else ⟨none, none, event_ctx.cb⟩
        .ok ({ ctx.setContext event left with events := ctx.events.erase event },
          ((event_ctx.cb <|> event_ctx.fiber).map fun waiter => (waiter, scheduler)))
  else .error .notRegistered

/-- The part of `addEvent` after `epoll_ctl`. The function is given, or the calling fiber
waits. -/
def register (event : Event) (this : Option S) (isCb : Bool) (waiter : ℕ) :
    Except EventFault (FdContext S) := do
  let event_ctx ← ctx.getContext event
  if event_ctx.scheduler.isSome || event_ctx.fiber.isSome || event_ctx.cb.isSome then
    .error .contextInUse
  else
    .ok { ctx.setContext event ⟨this, if isCb then none else some waiter,
      if isCb then some waiter else none⟩ with
      events := ctx.events.insert event }

end

end FdContext

/-- `contexts` are the `FdContext`s by their descriptor. The rest is a record: how many
waiters were registered, which of them were scheduled, and which were removed by
`delEvent`. -/
structure IOManager (S : Type) where
  m_pendingEventCount : ℕ
  contexts : List (FdContext S)
  registered : ℕ
  scheduled : List (ℕ × S)
  removed : List ℕ
deriving DecidableEq

/-- `grow` is another `FdContext`. The last argument says that `epoll_ctl` succeeds. -/
inductive EventMove (S : Type) where
  | grow
  | addEvent (fd : ℕ) (event : Event) (this : Option S) (isCb : Bool) (epoll_ctl : Bool)
  | delEvent (fd : ℕ) (event : Event) (epoll_ctl : Bool)
  | cancelEvent (fd : ℕ) (event : Event) (epoll_ctl : Bool)
  | cancelAll (fd : ℕ) (epoll_ctl : Bool)
  | idle (fd : ℕ) (event : EpollEvents) (epoll_ctl : Bool)
deriving DecidableEq

/-- What `idle` makes of a reported event, after the error flags were widened. -/
def realEvents (event : EpollEvents) (events : Events) : Events :=
  let failed := event.EPOLLERR || event.EPOLLHUP
  ⟨event.EPOLLIN || failed && events.read, event.EPOLLOUT || failed && events.write⟩

namespace IOManager

variable {S : Type}

def init : IOManager S := ⟨0, [], 0, [], []⟩

section

variable (s : IOManager S)

def grow : Except EventFault (IOManager S) :=
  if s.contexts.length < 2 ^ 31 then .ok { s with contexts := s.contexts ++ [.new] }
  else .error .notEnabled

/-- The result says that `addEvent` has returned 0. -/
def addEvent (fd : ℕ) (event : Event) (this : Option S) (isCb epoll_ctl : Bool) :
    Except EventFault (IOManager S × Bool) :=
  match s.contexts[fd]? with
  | none => .error .notEnabled
  | some ctx =>
      if ctx.events.has event then .error .alreadyRegistered
      else if epoll_ctl then do
        let ctx' ← ctx.register event this isCb s.registered
        .ok ({ s with
          m_pendingEventCount := incr s.m_pendingEventCount
          contexts := s.contexts.set fd ctx'
          registered := s.registered + 1 }, true)
      else .ok (s, false)

def delEvent (fd : ℕ) (event : Event) (epoll_ctl : Bool) :
    Except EventFault (IOManager S × Bool) :=
  match s.contexts[fd]? with
  | none => .ok (s, false)
  | some ctx =>
      if ctx.events.has event && epoll_ctl then do
        let event_ctx ← ctx.getContext event
        .ok ({ s with
          m_pendingEventCount := decr s.m_pendingEventCount
          contexts := s.contexts.set fd { ctx.setContext event FdContext.emptyContext with
            events := ctx.events.erase event }
          removed := (event_ctx.cb <|> event_ctx.fiber).toList ++ s.removed }, true)
      else .ok (s, false)

/-- `triggerEvent`, and `--m_pendingEventCount` before or after it. -/
def trigger (fd : ℕ) (event : Event) : Except EventFault (IOManager S) :=
  match s.contexts[fd]? with
  | none => .error .notEnabled
  | some ctx => do
      let r ← ctx.triggerEvent event
      .ok { s with
        m_pendingEventCount := decr s.m_pendingEventCount
        contexts := s.contexts.set fd r.1
        scheduled := r.2.toList ++ s.scheduled }

def triggerIf (fd : ℕ) (event : Event) (on : Bool) : Except EventFault (IOManager S) :=
  if on then s.trigger fd event else .ok s

def eventsOf (fd : ℕ) : Events := (s.contexts[fd]?.map FdContext.events).getD Events.none

def setEvents (fd : ℕ) (events : Events) : IOManager S :=
  { s with contexts := s.contexts.modify fd fun ctx => { ctx with events := events } }

def cancelEvent (fd : ℕ) (event : Event) (epoll_ctl : Bool) :
    Except EventFault (IOManager S × Bool) :=
  if (s.eventsOf fd).has event && epoll_ctl then do
    let s' ← s.trigger fd event
    .ok (s'.setEvents fd ((s.eventsOf fd).erase event), true)
  else .ok (s, false)

def cancelAll (fd : ℕ) (epoll_ctl : Bool) : Except EventFault (IOManager S × Bool) :=
  if s.eventsOf fd ≠ Events.none && epoll_ctl then do
    let s₁ ← s.triggerIf fd .READ (s.eventsOf fd).read
    let s₂ ← s₁.triggerIf fd .WRITE (s₁.eventsOf fd).write
    .ok (s₂.setEvents fd Events.none, true)
  else .ok (s, false)

/-- What `idle` does with one reported event. -/
def idle (fd : ℕ) (event : EpollEvents) (epoll_ctl : Bool) : Except EventFault (IOManager S) :=
  match s.contexts[fd]? with
  | none => .error .notEnabled
  | some ctx =>
      let real_events := realEvents event ctx.events
      if ctx.events.inter real_events ≠ Events.none && epoll_ctl then do
        let s' ← s.triggerIf fd .READ real_events.read
        s'.triggerIf fd .WRITE real_events.write
      else .ok s

def step : EventMove S → Except EventFault (IOManager S)
  | .grow => s.grow
  | .addEvent fd event this isCb epoll_ctl => (s.addEvent fd event this isCb epoll_ctl).map Prod.fst
  | .delEvent fd event epoll_ctl => (s.delEvent fd event epoll_ctl).map Prod.fst
  | .cancelEvent fd event epoll_ctl => (s.cancelEvent fd event epoll_ctl).map Prod.fst
  | .cancelAll fd epoll_ctl => (s.cancelAll fd epoll_ctl).map Prod.fst
  | .idle fd event epoll_ctl => s.idle fd event epoll_ctl

end

end IOManager

end Sylar
