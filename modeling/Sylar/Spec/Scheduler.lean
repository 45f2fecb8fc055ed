import Mathlib.Data.Fin.Basic
import Mathlib.Logic.Function.Basic
import Mathlib.Tactic

/-! `Scheduler::run` and `Scheduler::schedule` of `scheduler.cc` and `scheduler.h`, with the
states of `fiber.cc`. Any number of workers run the loop of `run`. A critical section of
`m_mutex`, an update of a counter, and a read or a write of the state of a fiber is one step
each, and the steps of the workers and calls of `schedule` come in any order. -/

namespace Sylar

inductive FiberState where
  | INIT
  | HOLD
  | EXEC
  | TERM
  | READY
  | EXCEPT
deriving DecidableEq, Repr

def FiberState.ended : FiberState → Bool
  | .TERM | .EXCEPT => true
  | .INIT | .HOLD | .EXEC | .READY => false

/-- What a `FiberAndThread` is to run. Fibers are known by their address. -/
inductive Work (Cb : Type) where
  | fiber (f : ℕ)
  | cb (c : Cb)
deriving DecidableEq

/-- The thread `-1` is any thread. -/
structure FiberAndThread (Cb : Type) where
  work : Work Cb
  thread : ℤ
deriving DecidableEq

/-- An entry of `m_fibers`, with the number under which `schedule` accepted it. -/
structure Task (Cb : Type) where
  number : ℕ
  ft : FiberAndThread Cb
deriving DecidableEq

/-- Where a worker is with the fiber it runs, from `swapIn` to the decrement of
`m_activeThreadCount`. A worker that is leaving is in `swapOut`, whose `swapcontext` is not
over. -/
inductive Stage where
  | entering
  | inside
  | leaving
  | returned
deriving DecidableEq, Repr

/-- Where it is after the decrement: before the test for `READY`, before the test for `TERM`
and `EXCEPT`, before `schedule`, before `m_state = HOLD`, before `reset(nullptr)`. -/
inductive After where
  | testReady
  | testEnded
  | requeue
  | hold
  | reset
deriving DecidableEq, Repr

/-- Where a worker is in the loop of `run`. The flag says that the fiber is its `cb_fiber`. -/
inductive Pc (Cb : Type) where
  | top
  | took (t : Task Cb)
  | preparing (t : Task Cb)
  | dropping (t : Task Cb) (state : FiberState)
  | running (stage : Stage) (t : Task Cb) (f : ℕ) (cb : Bool)
  | after (stage : After) (f : ℕ) (cb : Bool)
  | toIdle
  | idling
  | stopped
deriving DecidableEq

structure Worker (Cb : Type) where
  pc : Pc Cb
  cb_fiber : Option ℕ
  idle_term : Bool
deriving DecidableEq

/-- What became of a task: it was run, or dropped, with the state its fiber was seen in. -/
inductive Fate where
  | ran
  | dropped (state : FiberState)
deriving DecidableEq, Repr

/-- `states` are the states of the fibers, of which `made` exist. The rest is a record: the
tasks that were accepted, who dequeued which of them, what became of it, and how often each
fiber was scheduled since its last `swapIn`. -/
structure Scheduler (n : ℕ) (Cb : Type) where
  m_fibers : List (Task Cb)
  m_activeThreadCount : ℕ
  m_idleThreadCount : ℕ
  workers : Fin n → Worker Cb
  states : ℕ → FiberState
  made : ℕ
  accepted : List (Task Cb)
  dequeued : List (Task Cb × Fin n)
  finished : List (Task Cb × Fate)
  wakes : ℕ → ℕ

inductive StepFault where
  | notEnabled
  | assertFailed
deriving DecidableEq, Repr

def decr (count : ℕ) : ℕ := (count + (2 ^ 64 - 1)) % 2 ^ 64

def incr (count : ℕ) : ℕ := (count + 1) % 2 ^ 64

namespace Scheduler

variable {n : ℕ} {Cb : Type}

def init : Scheduler n Cb where
  m_fibers := []
  m_activeThreadCount := 0
  m_idleThreadCount := 0
  workers := fun _ => ⟨.top, none, false⟩
  states := fun _ => .INIT
  made := 0
  accepted := []
  dequeued := []
  finished := []
  wakes := fun _ => 0

def setPc (s : Scheduler n Cb) (w : Fin n) (pc : Pc Cb) : Scheduler n Cb :=
  { s with workers := Function.update s.workers w { s.workers w with pc := pc } }

/-- The worker gives up its `cb_fiber`, if that is what it was running. -/
def release (s : Scheduler n Cb) (w : Fin n) (cb : Bool) : Scheduler n Cb :=
  { s with workers := Function.update s.workers w { s.workers w with
      pc := .top
      cb_fiber := if cb then none else (s.workers w).cb_fiber } }

def setState (s : Scheduler n Cb) (f : ℕ) (st : FiberState) : Scheduler n Cb :=
  { s with states := Function.update s.states f st }

/-- `scheduleNoLock` of something that is not null. -/
def push (s : Scheduler n Cb) (ft : FiberAndThread Cb) : Scheduler n Cb :=
  { s with
    m_fibers := s.m_fibers ++ [⟨s.accepted.length, ft⟩]
    accepted := s.accepted ++ [⟨s.accepted.length, ft⟩]
    wakes := match ft.work with
      | .fiber f => Function.update s.wakes f (s.wakes f + 1)
      | .cb _ => s.wakes }

def scheduleNoLock (s : Scheduler n Cb) (work : Option (Work Cb)) (thread : ℤ) : Scheduler n Cb :=
  match work with
  | none => s
  | some work => s.push ⟨work, thread⟩

def exists_ (s : Scheduler n Cb) : Option (Work Cb) → Bool
  | some (.fiber f) => f < s.made
  | some (.cb _) | none => true

def executing (states : ℕ → FiberState) : Work Cb → Bool
  | .fiber f => states f = .EXEC
  | .cb _ => false

/-- The loop of `run` over `m_fibers`: the first entry that is for this thread or for any
and whose fiber is not executing, and the others. -/
def takeFirst (thread : ℤ) (states : ℕ → FiberState) :
    List (Task Cb) → Option (Task Cb × List (Task Cb))
  | [] => none
  | t :: rest =>
      if t.ft.thread ≠ -1 ∧ t.ft.thread ≠ thread ∨ executing states t.ft.work then
        (takeFirst thread states rest).map fun r => (r.1, t :: r.2)
      else some (t, rest)

/-- `schedule` with one or several things, by any thread; a new fiber; or a step of a
worker. -/
inductive Move (n : ℕ) (Cb : Type) where
  | schedule (works : List (Option (Work Cb) × ℤ))
  | newFiber
  | dequeue (w : Fin n)
  | check (w : Fin n)
  | prepare (w : Fin n)
  | swapIn (w : Fin n)
  | yieldToReady (w : Fin n)
  | yieldToHold (w : Fin n)
  | finish (w : Fin n) (threw : Bool)
  | swapOut (w : Fin n)
  | decrement (w : Fin n)
  | settle (w : Fin n)
  | idleIn (w : Fin n)
  | idleOut (w : Fin n) (term : Bool)

/-- `Fiber::reset` is for fibers that do not run. -/
def resettable : FiberState → Bool
  | .TERM | .EXCEPT | .INIT => true
  | .HOLD | .EXEC | .READY => false

section

variable (tid : Fin n → ℤ) (s : Scheduler n Cb)

/-- `schedule` of all of these under one lock. -/
def schedule (works : List (Option (Work Cb) × ℤ)) : Except StepFault (Scheduler n Cb) :=
  if works.all fun x => s.exists_ x.1 then
    .ok (works.foldl (fun s x => s.scheduleNoLock x.1 x.2) s)
  else .error .notEnabled

def dequeue (w : Fin n) : Except StepFault (Scheduler n Cb) :=
  match (s.workers w).pc with
  | .top =>
      match takeFirst (tid w) s.states s.m_fibers with
      | some (t, rest) =>
          .ok { s.setPc w (.took t) with
            m_fibers := rest
            m_activeThreadCount := incr s.m_activeThreadCount
            dequeued := (t, w) :: s.dequeued }
      | none => .ok (s.setPc w (if (s.workers w).idle_term then .stopped else .toIdle))
  | _ => .error .notEnabled

/-- Which of the three branches of `run` is taken. -/
def check (w : Fin n) : Except StepFault (Scheduler n Cb) :=
  match (s.workers w).pc with
  | .took t =>
      match t.ft.work with
      | .fiber f =>
          if (s.states f).ended then .ok (s.setPc w (.dropping t (s.states f)))
          else .ok (s.setPc w (.running .entering t f false))
      | .cb _ => .ok (s.setPc w (.preparing t))
  | _ => .error .notEnabled

/-- `cb_fiber` is given the function, or is made. -/
def prepare (w : Fin n) : Except StepFault (Scheduler n Cb) :=
  match (s.workers w).pc with
  | .preparing t =>
      match (s.workers w).cb_fiber with
      | some f =>
          if resettable (s.states f) then
            .ok ((s.setState f .INIT).setPc w (.running .entering t f true))
          else .error .assertFailed
      | none =>
          .ok { s.setState s.made .INIT with
            made := s.made + 1
            workers := Function.update s.workers w { s.workers w with
              pc := .running .entering t s.made true
              cb_fiber := some s.made } }
  | _ => .error .notEnabled

def swapIn (w : Fin n) : Except StepFault (Scheduler n Cb) :=
  match (s.workers w).pc with
  | .running .entering t f cb =>
      if s.states f = .EXEC then .error .assertFailed
      else .ok { (s.setState f .EXEC).setPc w (.running .inside t f cb) with
        wakes := Function.update s.wakes f 0 }
  | _ => .error .notEnabled

def yieldToReady (w : Fin n) : Except StepFault (Scheduler n Cb) :=
  match (s.workers w).pc with
  | .running .inside t f cb =>
      if s.states f = .EXEC then
        .ok ((s.setState f .READY).setPc w (.running .leaving t f cb))
      else .error .assertFailed
  | _ => .error .notEnabled

def yieldToHold (w : Fin n) : Except StepFault (Scheduler n Cb) :=
  match (s.workers w).pc with
  | .running .inside t f cb =>
      if s.states f = .EXEC then .ok (s.setPc w (.running .leaving t f cb))
      else .error .assertFailed
  | _ => .error .notEnabled

/-- The function of the fiber returns or throws, in `MainFunc`. -/
def finish (w : Fin n) (threw : Bool) : Except StepFault (Scheduler n Cb) :=
  match (s.workers w).pc with
  | .running .inside t f cb =>
      .ok ((s.setState f (if threw then .EXCEPT else .TERM)).setPc w (.running .leaving t f cb))
  | _ => .error .notEnabled

def swapOut (w : Fin n) : Except StepFault (Scheduler n Cb) :=
  match (s.workers w).pc with
  | .running .leaving t f cb => .ok (s.setPc w (.running .returned t f cb))
  | _ => .error .notEnabled

def decrement (w : Fin n) : Except StepFault (Scheduler n Cb) :=
  match (s.workers w).pc with
  | .running .returned t f cb =>
      .ok { s.setPc w (.after .testReady f cb) with
        m_activeThreadCount := decr s.m_activeThreadCount
        finished := (t, .ran) :: s.finished }
  | .dropping t state =>
      .ok { s.setPc w .top with
        m_activeThreadCount := decr s.m_activeThreadCount
        finished := (t, .dropped state) :: s.finished }
  | _ => .error .notEnabled

def settle (w : Fin n) : Except StepFault (Scheduler n Cb) :=
  match (s.workers w).pc with
  | .after .testReady f cb =>
      .ok (s.setPc w (.after (if s.states f = .READY then .requeue else .testEnded) f cb))
  | .after .testEnded f cb =>
      if (s.states f).ended then .ok (s.setPc w (if cb then .after .reset f cb else .top))
      else .ok (s.setPc w (.after .hold f cb))
  | .after .requeue f cb => .ok ((s.push ⟨.fiber f, -1⟩).release w cb)
  | .after .hold f cb => .ok ((s.setState f .HOLD).release w cb)
  | .after .reset f _ =>
      if resettable (s.states f) then .ok ((s.setState f .INIT).setPc w .top)
      else .error .assertFailed
  | _ => .error .notEnabled

def idleIn (w : Fin n) : Except StepFault (Scheduler n Cb) :=
  match (s.workers w).pc with
  | .toIdle => .ok { s.setPc w .idling with m_idleThreadCount := incr s.m_idleThreadCount }
  | _ => .error .notEnabled

/-- The idle fiber yields, or ends, which is up to `stopping`. -/
def idleOut (w : Fin n) (term : Bool) : Except StepFault (Scheduler n Cb) :=
  match (s.workers w).pc with
  | .idling =>
      .ok { s with
        m_idleThreadCount := decr s.m_idleThreadCount
        workers := Function.update s.workers w { s.workers w with
          pc := .top
          idle_term := term } }
  | _ => .error .notEnabled

def step : Move n Cb → Except StepFault (Scheduler n Cb)
  | .schedule works => s.schedule works
  | .newFiber => .ok { s.setState s.made .INIT with made := s.made + 1 }
  | .dequeue w => s.dequeue tid w
  | .check w => s.check w
  | .prepare w => s.prepare w
  | .swapIn w => s.swapIn w
  | .yieldToReady w => s.yieldToReady w
  | .yieldToHold w => s.yieldToHold w
  | .finish w threw => s.finish w threw
  | .swapOut w => s.swapOut w
  | .decrement w => s.decrement w
  | .settle w => s.settle w
  | .idleIn w => s.idleIn w
  | .idleOut w term => s.idleOut w term

/-- `m_autoStop` and `m_stopping` are set by `stop`. -/
def stopping (m_autoStop m_stopping : Bool) : Bool :=
  m_autoStop && m_stopping && s.m_fibers.isEmpty && s.m_activeThreadCount == 0

end

end Scheduler

end Sylar
