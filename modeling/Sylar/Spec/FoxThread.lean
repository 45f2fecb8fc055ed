import Sylar.Lib.Threads

/-! `FoxThread` and `FoxThreadPool` of `DataBase/fox_thread.cc`. A section under a lock, a `send`, a
`recv` and a callback are one step each, and the steps of the clients and of the threads come in any
order. A pool has a thread at least, and its threads are known by their place in `m_threads`. No thread
is joined: `join` would null `m_thread`, and the thread could be started once more. -/

namespace Sylar

open Lib

namespace FoxThread

/-- What is dispatched to a thread: a function of a client, or `wrapcb` of the pool, bound to a
function and to the `shared_ptr` of the thread it is dispatched to. -/
inductive Callback (Cb : Type) where
  | plain (cb : Cb)
  | wrapcb (cb : Cb)
deriving DecidableEq

/-- Where a thread is: in `event_base_loop`, at the steps of `read_cb`, or behind the loop. The flag
says that `event_base_loopbreak` was called. -/
inductive Pc where
  | loop
  | received
  | running
  | ended (broke : Bool)
  | left
deriving DecidableEq, Repr

end FoxThread

/-- `none` is the null callback. `bytes` are in the socket pair, `callbacks` and `it` are the locals of
`read_cb`, and `use_count` is that of the `shared_ptr` the pool makes of the thread. The last three are
a record: whether the pool has started the thread, what was pushed, and what was run. -/
structure FoxThread (Cb : Type) where
  m_callbacks : List (Option (FoxThread.Callback Cb))
  bytes : ℕ
  m_thread : Bool
  m_start : Bool
  m_working : Bool
  m_total : UInt64
  pc : FoxThread.Pc
  callbacks : List (Option (FoxThread.Callback Cb))
  it : List (Option (FoxThread.Callback Cb))
  use_count : ℕ
  pooled : Bool
  pushed : List (Option (FoxThread.Callback Cb))
  ran : List (FoxThread.Callback Cb)
deriving DecidableEq

/-- `posted` is a record of what was dispatched to the pool when it is `advance`. -/
structure FoxThreadPool (n : ℕ) (Cb : Type) where
  m_threads : Fin (n + 1) → FoxThread Cb
  m_cur : ℕ
  m_advance : Bool
  m_start : Bool
  m_callbacks : List Cb
  m_freeFoxThreads : List (Fin (n + 1))
  m_total : UInt64
  posted : List Cb

namespace FoxThreadPool

open FoxThread (Callback Pc)

/-- What clients and callbacks may call: the methods of the pool, and those of one of its threads,
which `getRandFoxThread` gives out. -/
inductive Call (n : ℕ) (Cb : Type) where
  | dispatch (cb : Cb)
  | batchDispatch (cbs : List Cb)
  | dispatchTo (id : ℕ) (cb : Cb)
  | broadcast (cb : Cb)
  | start
  | stop
  | threadDispatch (t : Fin (n + 1)) (cbs : List Cb)
  | threadStart (t : Fin (n + 1))
  | threadStop (t : Fin (n + 1))
deriving DecidableEq

/-- `read_cb` stands for all that is left of a thread's own loop. -/
inductive Instr (n : ℕ) (Cb : Type) where
  | post (cbs : List Cb)
  | postTo (id : ℕ) (cb : Cb)
  | broadcast (i : ℕ) (cb : Cb)
  | startFrom (i : ℕ)
  | launch (t : Fin (n + 1))
  | free (t : Fin (n + 1))
  | stopFrom (i : ℕ)
  | check
  | take
  | assign (t : Fin (n + 1)) (cb : Cb)
  | putBack (t : Fin (n + 1)) (cb : Cb)
  | drop (t : Fin (n + 1))
  | release (t : Fin (n + 1))
  | push (t : Fin (n + 1)) (cbs : List (Callback Cb))
  | send (t : Fin (n + 1))
  | stop (t : Fin (n + 1))
  | start (t : Fin (n + 1))
  | setStart (t : Fin (n + 1))
  | read_cb (t : Fin (n + 1))
deriving DecidableEq

variable {n : ℕ} {Cb : Type}

def Call.code : Call n Cb → Instr n Cb
  | .dispatch cb => .post [cb]
  | .batchDispatch cbs => .post cbs
  | .dispatchTo id cb => .postTo id cb
  | .broadcast cb => .broadcast 0 cb
  | .start => .startFrom 0
  | .stop => .stopFrom 0
  | .threadDispatch t cbs => .push t (cbs.map .plain)
  | .threadStart t => .start t
  | .threadStop t => .stop t

inductive FoxFault where
  | notEnabled
deriving DecidableEq, Repr

end FoxThreadPool

namespace FoxThread

open FoxThreadPool (Call Instr FoxFault)

variable {n : ℕ} {Cb : Type}

def init : FoxThread Cb := ⟨[], 0, false, false, false, 0, .loop, [], [], 0, false, [], []⟩

def push (th : FoxThread Cb) (cbs : List (Option (Callback Cb))) : FoxThread Cb :=
  { th with m_callbacks := th.m_callbacks ++ cbs, pushed := th.pushed ++ cbs }

/-- `send` of one byte, which a socket that does not block refuses only while it holds others. -/
def send (th : FoxThread Cb) (w : ℕ) : Except FoxFault (FoxThread Cb) :=
  if w = 0 then if th.bytes = 0 then .error .notEnabled else .ok th
  else .ok { th with bytes := th.bytes + 1 }

/-- The null callback, which is announced to a thread that has been started. -/
def stop (th : FoxThread Cb) (w : ℕ) : Except FoxFault (FoxThread Cb) :=
  if th.m_thread then (th.push [none]).send w else .ok (th.push [none])

def run (body : Cb → List (Call n Cb)) : Callback Cb → List (Instr n Cb)
  | .plain cb | .wrapcb cb => (body cb).map Call.code

def destroy (t : Fin (n + 1)) (callbacks : List (Option (Callback Cb))) : List (Instr n Cb) :=
  callbacks.filterMap fun
    | some (.wrapcb _) => some (.drop t)
    | some (.plain _) | none => none

/-- The next step of the thread, and what it has to do before the one after. -/
def read_cb (body : Cb → List (Call n Cb)) (t : Fin (n + 1)) (th : FoxThread Cb) (w : ℕ) :
    Except FoxFault (FoxThread Cb × List (Instr n Cb)) :=
  match th.pc with
  | .loop =>
      if 0 < w ∧ w ≤ th.bytes ∧ w ≤ 4096 then
        .ok ({ th with bytes := th.bytes - w, pc := .received }, [.read_cb t])
      else .error .notEnabled
  | .received =>
      .ok ({ th with
        m_callbacks := []
        callbacks := th.m_callbacks
        it := th.m_callbacks
        m_working := true
        pc := .running }, [.read_cb t])
  | .running =>
      match th.it with
      | [] => .ok ({ th with pc := .ended false }, [.read_cb t])
      | some cb :: it =>
          .ok ({ th with it := it, ran := th.ran ++ [cb] }, run body cb ++ [.read_cb t])
      | none :: _ => .ok ({ th with m_start := false, pc := .ended true }, [.read_cb t])
  | .ended broke =>
      .ok ({ th with
        m_total := th.m_total + UInt64.ofNat th.callbacks.length
        m_working := false
        callbacks := []
        it := []
        pc := if broke then .left else .loop },
        destroy t th.callbacks ++ if broke then [] else [.read_cb t])
  | .left => .error .notEnabled

end FoxThread

namespace FoxThreadPool

open FoxThread (Callback Pc)

variable {n : ℕ} {Cb : Type}

def setThread (s : FoxThreadPool n Cb) (t : Fin (n + 1)) (th : FoxThread Cb) : FoxThreadPool n Cb :=
  { s with m_threads := Function.update s.m_threads t th }

/-- `m_threads[m_cur++ % m_size]->dispatch(cb)` for each of them. -/
def roundRobin (m_cur : ℕ) : List Cb → List (Instr n Cb)
  | [] => []
  | cb :: cbs => .push (Fin.ofNat (n + 1) m_cur) [.plain cb] :: roundRobin ((m_cur + 1) % 2 ^ 32) cbs

abbrev Calls (n : ℕ) (Cb : Type) := Threads (FoxThreadPool n Cb) Unit (Instr n Cb)

abbrev CallTurn (n : ℕ) (Cb : Type) := Turn (FoxThreadPool n Cb) Unit (Instr n Cb)

/-- The step of a call or of a thread. `w` is how many bytes `send` writes or `recv` reads. A `start` of
a thread that has been started throws. -/
def exec (body : Cb → List (Call n Cb)) (s : FoxThreadPool n Cb) (_k : ℕ) (_role : Unit) :
    Instr n Cb → ℕ → Except FoxFault (CallTurn n Cb)
  | .post cbs, _ =>
      if s.m_advance then
        .ok (.only { s with
          m_total := s.m_total + UInt64.ofNat cbs.length
          m_callbacks := s.m_callbacks ++ cbs
          posted := s.posted ++ cbs } [.check])
      else
        .ok (.only { s with
          m_total := s.m_total + UInt64.ofNat cbs.length
          m_cur := (s.m_cur + cbs.length) % 2 ^ 32 } (roundRobin s.m_cur cbs))
  | .postTo id cb, _ =>
      .ok (.only { s with m_total := s.m_total + 1 } [.push (Fin.ofNat (n + 1) id) [.plain cb]])
  | .broadcast i cb, _ =>
      if h : i < n + 1 then .ok (.only s [.push ⟨i, h⟩ [.plain cb], .broadcast (i + 1) cb])
      else .ok (.only s [])
  | .startFrom i, _ =>
      if h : i < n + 1 then
        if (s.m_threads ⟨i, h⟩).m_thread then .ok (.only s [])
        else .ok {
          shared := s.setThread ⟨i, h⟩ { s.m_threads ⟨i, h⟩ with m_thread := true, pooled := true }
          next := [.launch ⟨i, h⟩]
          born := [⟨(), [.read_cb ⟨i, h⟩]⟩]
          resumed := none }
      else .ok (.only { s with m_start := true } [.check])
  | .launch t, _ => .ok (.only (s.setThread t { s.m_threads t with m_start := true }) [.free t])
  | .free t, _ =>
      .ok (.only { s with m_freeFoxThreads := s.m_freeFoxThreads ++ [t] } [.startFrom (t + 1)])
  | .stopFrom i, _ =>
      if h : i < n + 1 then .ok (.only s [.stop ⟨i, h⟩, .stopFrom (i + 1)])
      else .ok (.only { s with m_start := false } [])
  | .check, _ => .ok (.only s (if s.m_start then [.take] else []))
  | .take, _ =>
      match s.m_freeFoxThreads, s.m_callbacks with
      | t :: m_freeFoxThreads, cb :: m_callbacks =>
          .ok (.only { s.setThread t { s.m_threads t with use_count := 1 } with
            m_freeFoxThreads := m_freeFoxThreads
            m_callbacks := m_callbacks } [.assign t cb])
      | _, _ => .ok (.only s [])
  | .assign t cb, _ =>
      if (s.m_threads t).m_start then
        .ok (.only (s.setThread t { s.m_threads t with use_count := (s.m_threads t).use_count + 1 })
          [.push t [.wrapcb cb], .drop t, .check])
      else .ok (.only s [.putBack t cb])
  | .putBack t cb, _ => .ok (.only { s with m_callbacks := cb :: s.m_callbacks } [.drop t, .check])
  | .drop t, _ =>
      .ok (.only (s.setThread t { s.m_threads t with use_count := (s.m_threads t).use_count - 1 })
        (if (s.m_threads t).use_count = 1 then [.release t] else []))
  | .release t, _ =>
      .ok (.only { s with m_freeFoxThreads := s.m_freeFoxThreads ++ [t] } [.check])
  | .push t cbs, _ =>
      .ok (.only (s.setThread t ((s.m_threads t).push (cbs.map some))) [.send t])
  | .send t, w => do
      let th ← (s.m_threads t).send w
      .ok (.only (s.setThread t th) [])
  | .stop t, w => do
      let th ← (s.m_threads t).stop w
      .ok (.only (s.setThread t th) [])
  | .start t, _ =>
      if (s.m_threads t).m_thread then .ok (.only s [])
      else .ok {
        shared := s.setThread t { s.m_threads t with m_thread := true }
        next := [.setStart t]
        born := [⟨(), [.read_cb t]⟩]
        resumed := none }
  | .setStart t, _ => .ok (.only (s.setThread t { s.m_threads t with m_start := true }) [])
  | .read_cb t, w => do
      let r ← (s.m_threads t).read_cb body t w
      .ok (.only (s.setThread t r.1) r.2)

/-- A client makes its calls one after the other; or somebody takes a step. -/
inductive Move (n : ℕ) (Cb : Type) where
  | calls (cs : List (Call n Cb))
  | turn (k : ℕ) (w : ℕ)
deriving DecidableEq

def init (m_advance : Bool) : Calls n Cb :=
  ⟨⟨fun _ => .init, 0, m_advance, false, [], [], 0, []⟩, []⟩

def turn (body : Cb → List (Call n Cb)) (f : Calls n Cb) (k w : ℕ) : Except FoxFault (Calls n Cb) :=
  f.run id (exec body) .notEnabled k w

def step (body : Cb → List (Call n Cb)) (f : Calls n Cb) : Move n Cb → Except FoxFault (Calls n Cb)
  | .calls cs => .ok (f.start f.shared () (cs.map Call.code))
  | .turn k w => turn body f k w

end FoxThreadPool

end Sylar
