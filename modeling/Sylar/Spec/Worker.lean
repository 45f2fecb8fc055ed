import Sylar.Spec.Scheduler

/-! `FiberSemaphore` of `mutex.cc` and `WorkerGroup` of `worker.cc`. A critical section of
`m_mutex` is one step, and so is everything else that another fiber can see. -/

namespace Sylar

/-- `S` are the schedulers and `F` the fibers. -/
structure FiberSemaphore (S F : Type) where
  m_waiters : List (S × F)
  m_concurrency : ℕ
deriving DecidableEq

namespace FiberSemaphore

variable {S F : Type}

def new (initial_concurrency : ℕ) : FiberSemaphore S F := ⟨[], initial_concurrency⟩

section

variable (sem : FiberSemaphore S F)

def tryWait (this : Option S) : Except StepFault (FiberSemaphore S F × Bool) :=
  match this with
  | none => .error .assertFailed
  | some _ =>
      if sem.m_concurrency > 0 then
        .ok ({ sem with m_concurrency := sem.m_concurrency - 1 }, true)
      else .ok (sem, false)

/-- Whether the caller goes on to `YieldToHold` is the second result. -/
def wait (this : Option S) (fiber : F) : Except StepFault (FiberSemaphore S F × Bool) :=
  match this with
  | none => .error .assertFailed
  | some scheduler =>
      if sem.m_concurrency > 0 then
        .ok ({ sem with m_concurrency := sem.m_concurrency - 1 }, false)
      else .ok ({ sem with m_waiters := sem.m_waiters ++ [(scheduler, fiber)] }, true)

def notify : FiberSemaphore S F × Option (S × F) :=
  match sem.m_waiters with
  | next :: rest => ({ sem with m_waiters := rest }, some next)
  | [] => ({ sem with m_concurrency := incr sem.m_concurrency }, none)

end

end FiberSemaphore

/-- A callback of `WorkerGroup::schedule`: in `m_sem.wait`, after it, given to the scheduler,
in `cb`, before `m_sem.notify`, after it. One that throws ends in `MainFunc`. -/
inductive Job where
  | waiting
  | permitted
  | queued
  | working
  | worked
  | finished
  | threw
deriving DecidableEq, Repr

/-- A call of `waitAll`: before a turn of the loop, in `m_sem.wait`, or back, from the loop or
because `m_finish` was set. -/
inductive Collect where
  | before (i : ℕ)
  | waiting (i : ℕ)
  | returned (looped : Bool)
deriving DecidableEq, Repr

inductive GroupCall where
  | schedule (job : Job)
  | waitAll (stage : Collect)
deriving DecidableEq, Repr

/-- The calls are numbered as they come, and a fiber that waits is known by its call. -/
structure WorkerGroup (S : Type) where
  m_batchSize : UInt32
  m_finish : Bool
  m_sem : FiberSemaphore S ℕ
  calls : List GroupCall
deriving DecidableEq

/-- `schedule` and `waitAll` are the calls, up to the first thing that others can see.
`hand` is `m_scheduler->schedule`, the next two are `doWork` up to the end of `cb` and
`notify` its rest. `collect` is a turn of the loop of `waitAll`. -/
inductive GroupMove (S : Type) where
  | schedule (this : Option S)
  | hand (c : ℕ)
  | start (c : ℕ)
  | finish (c : ℕ) (threw : Bool)
  | notify (c : ℕ)
  | waitAll
  | collect (c : ℕ) (this : Option S)
deriving DecidableEq

def GroupCall.resume : GroupCall → GroupCall
  | .schedule .waiting => .schedule .permitted
  | .waitAll (.waiting i) => .waitAll (.before (i + 1))
  | call => call

namespace WorkerGroup

variable {S : Type}

def new (batch_size : UInt32) : WorkerGroup S where
  m_batchSize := batch_size
  m_finish := false
  m_sem := .new batch_size.toNat
  calls := []

section

variable (g : WorkerGroup S)

def setCall (c : ℕ) (call : GroupCall) : WorkerGroup S := { g with calls := g.calls.set c call }

def schedule (this : Option S) : Except StepFault (WorkerGroup S) :=
  match g.m_sem.wait this g.calls.length with
  | .error fault => .error fault
  | .ok r => .ok { g with
      m_sem := r.1
      calls := g.calls ++ [.schedule (if r.2 then .waiting else .permitted)] }

def advance (c : ℕ) (job next : Job) : Except StepFault (WorkerGroup S) :=
  if g.calls[c]? = some (.schedule job) then .ok (g.setCall c (.schedule next))
  else .error .notEnabled

def hand (c : ℕ) : Except StepFault (WorkerGroup S) := g.advance c .permitted .queued

def start (c : ℕ) : Except StepFault (WorkerGroup S) := g.advance c .queued .working

def finish (c : ℕ) (threw : Bool) : Except StepFault (WorkerGroup S) :=
  g.advance c .working (if threw then .threw else .worked)

def notify (c : ℕ) : Except StepFault (WorkerGroup S) :=
  if g.calls[c]? = some (.schedule .worked) then
    let calls := g.calls.set c (.schedule .finished)
    .ok { g with
      m_sem := g.m_sem.notify.1
      calls := match g.m_sem.notify.2 with
        | some next => calls.modify next.2 GroupCall.resume
        | none => calls }
  else .error .notEnabled

/-- `m_finish` has no lock. Calls that race on it have no meaning, and in all others the test
and the write are one step. -/
def waitAll : WorkerGroup S :=
  if g.m_finish then { g with calls := g.calls ++ [.waitAll (.returned false)] }
  else { g with
    m_finish := true
    calls := g.calls ++ [.waitAll (.before 0)] }

def collect (c : ℕ) (this : Option S) : Except StepFault (WorkerGroup S) :=
  match g.calls[c]? with
  | some (.waitAll (.before i)) =>
      if i < g.m_batchSize.toNat then
        match g.m_sem.wait this c with
        | .error fault => .error fault
        | .ok r => .ok { g with
            m_sem := r.1
            calls := g.calls.set c (.waitAll (if r.2 then .waiting i else .before (i + 1))) }
      else .ok (g.setCall c (.waitAll (.returned true)))
  | _ => .error .notEnabled

def step : GroupMove S → Except StepFault (WorkerGroup S)
  | .schedule this => g.schedule this
  | .hand c => g.hand c
  | .start c => g.start c
  | .finish c threw => g.finish c threw
  | .notify c => g.notify c
  | .waitAll => .ok g.waitAll
  | .collect c this => g.collect c this

end

end WorkerGroup

end Sylar
