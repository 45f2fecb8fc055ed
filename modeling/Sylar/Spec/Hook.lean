import Sylar.Spec.FdManager
import Sylar.Spec.IOManager

/-! `do_io` of `hook.cc`: a call that waits for an event of its descriptor, with a condition
timer beside it. What can happen between two accesses to something shared is another step. -/

namespace Sylar

def EINTR : ℕ := 4

def EBADF : ℕ := 9

def EAGAIN : ℕ := 11

def ETIMEDOUT : ℕ := 110

/-- What `do_io` returns: what the original function has, or -1, because the descriptor is
closed, because `addEvent` failed, or with `errno` set to `tinfo->cancelled`. -/
inductive IoResult where
  | original (n : ℤ) (errno : ℕ)
  | closed (errno : ℕ)
  | addEvent
  | cancelled (errno : ℕ)
deriving DecidableEq, Repr

/-- Where the call is: before the original function, unhooked or at `retry`, before the timer
is added, before `addEvent`, after it failed or succeeded, in `YieldToHold`, after it, after
`timer->cancel()`, and back. A timer is known by its number in the call, and what waits for
the event by that of its registration. -/
inductive IoPoint where
  | direct
  | retry
  | arming
  | adding (timer : Option ℕ)
  | failed (timer : Option ℕ)
  | added (timer : Option ℕ) (waiter : ℕ)
  | held (timer : Option ℕ) (waiter : ℕ)
  | resumed (timer : Option ℕ) (waiter : ℕ)
  | checking (waiter : ℕ)
  | returned (result : IoResult)
deriving DecidableEq, Repr

/-- A condition timer: armed, cancelled before it expired, or expired. Its callback then locks
the weak pointer, looks at `cancelled`, sets it, and calls `cancelEvent`, or it is over. -/
inductive TimerStage where
  | armed
  | cancelled
  | expired
  | locked
  | passed
  | marked
  | ran
  | over
deriving DecidableEq, Repr

/-- One call, among whatever else uses the `IOManager`. `cancelled` is that of `timer_info`.
`woken` is a record: what it was when the waiter was scheduled. -/
structure Io (S : Type) where
  iom : IOManager S
  fd : ℕ
  event : Event
  timeout : UInt64
  point : IoPoint
  cancelled : ℕ
  timers : List TimerStage
  woken : ℕ
deriving DecidableEq

/-- `other` is a step of another thread. The next seven are those of the call, in their order,
and `callback` is the next step of a timer. -/
inductive IoMove (S : Type) where
  | other (m : EventMove S)
  | original (n : ℤ) (errno : ℕ)
  | addConditionTimer
  | addEvent (this : Option S) (epoll_ctl : Bool)
  | yieldToHold
  | resume
  | cancel
  | check
  | callback (timer : ℕ) (epoll_ctl : Bool)
deriving DecidableEq

def IoPoint.waiter : IoPoint → Option ℕ
  | .added _ waiter | .held _ waiter => some waiter
  | _ => none

def TimerStage.locks : TimerStage → Bool
  | .locked | .passed | .marked => true
  | _ => false

namespace Io

variable {S : Type}

/-- `do_io` up to `retry`. `ctx` is what `FdMgr` has for the descriptor. -/
def start (t_hook_enable : Bool) (ctx : Option FdCtx) (timeout_so fd : ℕ) (event : Event) : Io S :=
  let io : Io S := ⟨.init, fd, event, -1, .direct, 0, [], 0⟩
  if t_hook_enable then
    match ctx with
    | none => io
    | some ctx =>
        if ctx.isClose then { io with point := .returned (.closed EBADF) }
        else if !ctx.isSocket || ctx.getUserNonblock then io
        else { io with timeout := ctx.getTimeout timeout_so, point := .retry }
  else io

section

variable (s : Io S)

def setIom (iom : IOManager S) : Io S :=
  { s with
    iom := iom
    woken :=
      if ∃ k ∈ s.point.waiter, k ∉ s.iom.scheduled.map Prod.fst ∧ k ∈ iom.scheduled.map Prod.fst
      then s.cancelled else s.woken }

def other (m : EventMove S) : Except EventFault (Io S) := do
  let iom ← s.iom.step m
  .ok (s.setIom iom)

def original (n : ℤ) (errno : ℕ) : Except EventFault (Io S) :=
  match s.point with
  | .direct => .ok { s with point := .returned (.original n errno) }
  | .retry =>
      if n = -1 ∧ errno = EINTR then .ok s
      else if n = -1 ∧ errno = EAGAIN then .ok { s with point := .arming }
      else .ok { s with point := .returned (.original n errno) }
  | _ => .error .notEnabled

def addConditionTimer : Except EventFault (Io S) :=
  match s.point with
  | .arming =>
      if s.timeout ≠ -1 then
        .ok { s with
          timers := s.timers ++ [.armed]
          point := .adding (some s.timers.length) }
      else .ok { s with point := .adding none }
  | _ => .error .notEnabled

def addEvent (this : Option S) (epoll_ctl : Bool) : Except EventFault (Io S) :=
  match s.point with
  | .adding timer => do
      let r ← s.iom.addEvent s.fd s.event this false epoll_ctl
      .ok { s.setIom r.1 with
        point := if r.2 then .added timer s.iom.registered else .failed timer }
  | _ => .error .notEnabled

def yieldToHold : Except EventFault (Io S) :=
  match s.point with
  | .added timer waiter => .ok { s with point := .held timer waiter }
  | _ => .error .notEnabled

def resume : Except EventFault (Io S) :=
  match s.point with
  | .held timer waiter =>
      if waiter ∈ s.iom.scheduled.map Prod.fst then .ok { s with point := .resumed timer waiter }
      else .error .notEnabled
  | _ => .error .notEnabled

/-- `timer->cancel()`, which is too late for one that has expired. -/
def cancelTimer (timer : Option ℕ) : List TimerStage :=
  match timer with
  | none => s.timers
  | some i => s.timers.modify i fun stage => if stage = .armed then .cancelled else stage

def cancel : Except EventFault (Io S) :=
  match s.point with
  | .failed timer =>
      .ok { s with timers := s.cancelTimer timer, point := .returned .addEvent }
  | .resumed timer waiter =>
      .ok { s with timers := s.cancelTimer timer, point := .checking waiter }
  | _ => .error .notEnabled

def check : Except EventFault (Io S) :=
  match s.point with
  | .checking _ =>
      if s.cancelled ≠ 0 then .ok { s with point := .returned (.cancelled s.cancelled) }
      else .ok { s with point := .retry }
  | _ => .error .notEnabled

def alive : Bool :=
  (match s.point with
    | .returned _ => false
    | _ => true) || s.timers.any TimerStage.locks

def setTimer (i : ℕ) (stage : TimerStage) : Io S := { s with timers := s.timers.set i stage }

/-- `OnTimer` and the callback, a step at a time. -/
def callback (i : ℕ) (epoll_ctl : Bool) : Except EventFault (Io S) :=
  match s.timers[i]? with
  | some .armed => .ok (s.setTimer i .expired)
  | some .expired => .ok (s.setTimer i (if s.alive then .locked else .over))
  | some .locked => .ok (s.setTimer i (if s.cancelled ≠ 0 then .over else .passed))
  | some .passed => .ok { s.setTimer i .marked with cancelled := ETIMEDOUT }
  | some .marked => do
      let r ← s.iom.cancelEvent s.fd s.event epoll_ctl
      .ok ((s.setIom r.1).setTimer i .ran)
  | _ => .error .notEnabled

def step : IoMove S → Except EventFault (Io S)
  | .other m => s.other m
  | .original n errno => s.original n errno
  | .addConditionTimer => s.addConditionTimer
  | .addEvent this epoll_ctl => s.addEvent this epoll_ctl
  | .yieldToHold => s.yieldToHold
  | .resume => s.resume
  | .cancel => s.cancel
  | .check => s.check
  | .callback timer epoll_ctl => s.callback timer epoll_ctl

end

end Io

end Sylar
