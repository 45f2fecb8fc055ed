import Sylar.Lib.Nodes
import Sylar.Lib.Threads
import Sylar.Spec.Worker

/-! `AsyncSocketStream` of `streams/async_socket_stream.cc` with the `request`, `sendMessage`
and `doRecv` of `rock/rock_stream.cc`. A critical section, an access to a `Ctx`, an operation
of a semaphore or of the socket is one step. The connect and disconnect callbacks return or throw.
`m_timer` and `m_autoConnect` only say when `start` is called again, and here it may be called
at any time. -/

namespace Sylar

open Lib

/-- What `enqueue` is given: a `RockCtx`, by its number, or a `RockSendCtx`. -/
inductive SendCtx where
  | request (c : ℕ)
  | message
deriving DecidableEq, Repr

def TIMEOUT : UInt32 := -1

def IO_ERROR : UInt32 := -2

/-- A `RockCtx`. `armed` says whether its timer is in the `TimerManager`, and `response` which
request it has the response of. The last two are a record: where `doRsp` has scheduled `fiber`,
and the fibers that took the context out of `m_ctxs`. -/
structure Ctx (S : Type) where
  sn : UInt32
  result : UInt32
  timed : Bool
  scheduler : Option S
  fiber : Option ℕ
  timer : Bool
  armed : Bool
  response : Option ℕ
  scheduled : List S
  takers : List ℕ
deriving DecidableEq

/-- `doRsp`: the read of `scheduler`, the compare-and-swap with what was read, and the rest. -/
inductive Rsp (S : Type) where
  | load
  | compareAndSwap (scd : Option S)
  | cancel
  | setTimeout
  | schedule (scd : S)
deriving DecidableEq

namespace Ctx

variable {S : Type} [DecidableEq S]

/-- `request` is the fiber that runs it, on the scheduler `this`. -/
def new (sn : UInt32) (this : S) (fiber : ℕ) : Ctx S where
  sn := sn
  result := 0
  timed := false
  scheduler := some this
  fiber := some fiber
  timer := false
  armed := false
  response := none
  scheduled := []
  takers := []

/-- A step of `doRsp` and the steps it puts in its place. -/
def doRsp (x : Ctx S) : Rsp S → Ctx S × List (Rsp S)
  | .load => (x, [.compareAndSwap x.scheduler])
  | .compareAndSwap scd =>
      if x.scheduler = scd then
        ({ x with scheduler := none },
          match scd with
          | none => []
          | some scd => if x.fiber = none then [] else [.cancel, .setTimeout, .schedule scd])
      else (x, [])
  | .cancel => (if x.timer then { x with timer := false, armed := false } else x, [])
  | .setTimeout => (if x.timed then { x with result := TIMEOUT } else x, [])
  | .schedule scd => ({ x with fiber := none, scheduled := x.scheduled ++ [scd] }, [])

end Ctx

/-- A step of a fiber. `wake` is the `m_sem.notify` of `enqueue` and `notifySem` that of
`innerClose`. The two waits of `waitFiber` are told apart, and so are a fiber that is about to
wait and one that waits. -/
inductive Instr (S : Type) where
  | addCtx (c : ℕ)
  | addTimer (c : ℕ)
  | setTimer (c : ℕ)
  | push (m : SendCtx)
  | wake
  | eraseCtx (c : ℕ)
  | setTimed (c : ℕ)
  | rsp (c : ℕ) (stage : Rsp S)
  | close
  | notifySem
  | swapCtxs
  | clearQueue
  | ioError (c : ℕ)
  | waitFiber (second : Bool)
  | waitingFiber (second : Bool)
  | connect
  | connectCb
  | startRead
  | startWrite
  | readLoop
  | doRecv
  | setResponse (c request : ℕ) (result : UInt32)
  | writeLoop
  | waitSem
  | waitingSem
  | swapQueue
  | doSend (ctxs : List SendCtx)
  | notifyWait
deriving DecidableEq

/-- What `m_decoder->parseFrom` gives: the response to a request, which `createResponse` gives
the `sn` of the request, another message, null or an exception. -/
inductive Received where
  | response (request : ℕ) (result : UInt32)
  | other
  | null
  | threw
deriving DecidableEq, Repr

inductive Sent where
  | sent
  | failed
  | threw
deriving DecidableEq, Repr

/-- What a step learns from outside: nothing, whether `reconnect` or `m_connectCb` succeeds,
what is received, how sending ends, and in which order an `unordered_map` is gone through. -/
inductive World where
  | quiet
  | outcome (ok : Bool)
  | received (msg : Received)
  | sent (how : Sent)
  | order (ctxs : List ℕ)
deriving DecidableEq, Repr

/-- `heap` are the contexts, numbered as they are made. The last two are a record: the fibers
of `start` that could not connect or were refused, and the fibers that called
`m_waitSem.notify`, once for each call. -/
structure AsyncSocketStream (S : Type) where
  m_isConnected : Bool
  m_ctxs : List (UInt32 × ℕ)
  m_queue : List SendCtx
  m_sem : FiberSemaphore S ℕ
  m_waitSem : FiberSemaphore S ℕ
  m_iomanager : Option S
  heap : List (Ctx S)
  refused : List ℕ
  gaveBack : List ℕ
deriving DecidableEq

namespace AsyncSocketStream

/-- The fibers: of `request`, of `sendMessage`, of a timer's `onTimeOut`, of `start`, `doRead`
and `doWrite`, the last three with their `Scheduler::GetThis()`. -/
inductive Role (S : Type) where
  | request (c : ℕ)
  | sendMessage
  | onTimeOut (c : ℕ)
  | start (this : Option S)
  | doRead (this : Option S)
  | doWrite (this : Option S)
deriving DecidableEq

def Role.this {S : Type} : Role S → Option S
  | .start this | .doRead this | .doWrite this => this
  | .request _ | .sendMessage | .onTimeOut _ => none

variable {S : Type} [DecidableEq S]

abbrev Fibers (S : Type) := Threads (AsyncSocketStream S) (Role S) (Instr S)

abbrev FiberTurn (S : Type) := Turn (AsyncSocketStream S) (Role S) (Instr S)

def doRspCode (c : ℕ) : List (Instr S) := [.rsp c .load]

def requestCode (c : ℕ) : List (Instr S) := [.addCtx c, .addTimer c, .setTimer c, .push (.request c)]

def onTimeOutCode (c : ℕ) : List (Instr S) := [.eraseCtx c, .setTimed c] ++ doRspCode c

def innerCloseCode : List (Instr S) := [.close, .notifySem, .swapCtxs]

def startFails : List (Instr S) := innerCloseCode ++ [.notifyWait, .notifyWait]

/-- The end of `doRead`. After its `notify` there is only the timer for the next `start`. -/
def readEnds : List (Instr S) := innerCloseCode ++ [.notifyWait]

def writeEnds : List (Instr S) := [.clearQueue, .notifyWait]

/-- Where an exception of a callback is caught, which `start` calls, or `innerClose` in one of its
four places. Only the loops of `doRead` and `doWrite` are in a `try`: elsewhere the fiber ends. -/
def unwind (code : List (Instr S)) : Option (List (Instr S)) :=
  if code = [.connectCb] ∨ code = startFails ∨ code = readEnds then some []
  else if code = innerCloseCode ++ [.readLoop] then some readEnds
  else if code = innerCloseCode ++ [.writeLoop] then some writeEnds
  else none

def resume : Instr S → Instr S
  | .waitingFiber false => .waitFiber true
  | .waitingFiber true => .connect
  | .waitingSem => .swapQueue
  | i => i

section

variable (s : AsyncSocketStream S)

def setCtx (c : ℕ) (f : Ctx S → Ctx S) : AsyncSocketStream S := { s with heap := s.heap.modify c f }

/-- `m_ctxs.insert`, which leaves an entry that is there. -/
def addCtx (c : ℕ) : Except StepFault (AsyncSocketStream S) :=
  match s.heap[c]? with
  | none => .error .notEnabled
  | some x => .ok <|
      match Assoc.find s.m_ctxs x.sn with
      | some _ => s
      | none => { s with m_ctxs := (x.sn, c) :: s.m_ctxs }

def erase (k : ℕ) (sn : UInt32) : AsyncSocketStream S :=
  match Assoc.find s.m_ctxs sn with
  | none => s
  | some c =>
      { s with m_ctxs := Assoc.without s.m_ctxs sn }.setCtx c fun x =>
        { x with takers := x.takers ++ [k] }

def getAndDelCtx (k : ℕ) (sn : UInt32) : AsyncSocketStream S × Option ℕ :=
  (s.erase k sn, Assoc.find s.m_ctxs sn)

def swapCtxs (k : ℕ) : AsyncSocketStream S :=
  { s with
    m_ctxs := []
    heap := (s.m_ctxs.map Prod.snd).foldl
      (fun heap c => heap.modify c fun x => { x with takers := x.takers ++ [k] }) s.heap }

/-- A `wait` of fiber `k`: it goes on with `granted` or waits. -/
def wait (sem : FiberSemaphore S ℕ) (set : FiberSemaphore S ℕ → AsyncSocketStream S) (k : ℕ)
    (this : Option S) (granted waiting : Instr S) : Except StepFault (FiberTurn S) :=
  match sem.wait this k with
  | .error fault => .error fault
  | .ok r => .ok (.only (set r.1) [if r.2 then waiting else granted])

def notifySem : FiberTurn S :=
  let r := s.m_sem.notify
  ⟨{ s with m_sem := r.1 }, [], [], r.2.map Prod.snd⟩

def notifyWait (k : ℕ) : FiberTurn S :=
  let r := s.m_waitSem.notify
  ⟨{ s with m_waitSem := r.1, gaveBack := s.gaveBack ++ [k] }, [], [], r.2.map Prod.snd⟩

def doRecv (k : ℕ) : Received → Except StepFault (FiberTurn S)
  | .response r result =>
      match s.heap[r]? with
      | none => .error .notEnabled
      | some x =>
          let p := s.getAndDelCtx k x.sn
          .ok <| .only p.1 <|
            match p.2 with
            | none => [.readLoop]
            | some c => [.setResponse c r result] ++ doRspCode c ++ [.readLoop]
  | .other => .ok (.only s [.readLoop])
  | .null => .ok (.only s (innerCloseCode ++ [.readLoop]))
  | .threw => .ok (.only s readEnds)

def doSend : List SendCtx → Sent → List (Instr S)
  | [], _ => [.writeLoop]
  | _ :: ctxs, .sent => [.doSend ctxs]
  | _ :: _, .failed => innerCloseCode ++ [.writeLoop]
  | _ :: _, .threw => writeEnds

def exec (k : ℕ) (role : Role S) : Instr S → World → Except StepFault (FiberTurn S)
  | .addCtx c, .quiet =>
      match s.addCtx c with
      | .error fault => .error fault
      | .ok s => .ok (.only s [])
  | .addTimer c, .quiet => .ok (.only (s.setCtx c fun x => { x with armed := true }) [])
  | .setTimer c, .quiet => .ok (.only (s.setCtx c fun x => { x with timer := true }) [])
  | .push m, .quiet =>
      .ok (.only { s with m_queue := s.m_queue ++ [m] } (if s.m_queue = [] then [.wake] else []))
  | .wake, .quiet => .ok s.notifySem
  | .eraseCtx c, .quiet =>
      match s.heap[c]? with
      | none => .error .notEnabled
      | some x => .ok (.only (s.erase k x.sn) [])
  | .setTimed c, .quiet => .ok (.only (s.setCtx c fun x => { x with timed := true }) [])
  | .rsp c stage, .quiet =>
      match s.heap[c]? with
      | none => .error .notEnabled
      | some x =>
          .ok (.only (s.setCtx c fun _ => (x.doRsp stage).1) ((x.doRsp stage).2.map (.rsp c)))
  | .close, .quiet =>
      if s.m_iomanager = role.this then .ok (.only { s with m_isConnected := false } [])
      else .error .assertFailed
  | .notifySem, .quiet => .ok s.notifySem
  | .swapCtxs, .order ctxs =>
      if ctxs.Perm (s.m_ctxs.map Prod.snd) then
        .ok (.only (s.swapCtxs k)
          ([.clearQueue] ++ ctxs.flatMap fun c => [.ioError c] ++ doRspCode c))
      else .error .notEnabled
  | .clearQueue, .quiet => .ok (.only { s with m_queue := [] } [])
  | .ioError c, .quiet => .ok (.only (s.setCtx c fun x => { x with result := IO_ERROR }) [])
  | .waitFiber second, .quiet =>
      wait s.m_waitSem (fun sem => { s with m_waitSem := sem }) k role.this
        (resume (.waitingFiber second)) (.waitingFiber second)
  | .connect, .outcome ok =>
      if s.m_isConnected then .ok (.only s [.connectCb])
      else if ok then .ok (.only { s with m_isConnected := true } [.connectCb])
      else .ok (.only { s with refused := s.refused ++ [k] } startFails)
  | .connectCb, .outcome ok =>
      if ok then .ok (.only s [.startRead, .startWrite])
      else .ok (.only { s with refused := s.refused ++ [k] } startFails)
  | .startRead, .quiet => .ok ⟨s, [], [⟨.doRead s.m_iomanager, [.readLoop]⟩], none⟩
  | .startWrite, .quiet => .ok ⟨s, [], [⟨.doWrite s.m_iomanager, [.writeLoop]⟩], none⟩
  | .readLoop, .quiet => .ok (.only s (if s.m_isConnected then [.doRecv] else readEnds))
  | .doRecv, .received msg => s.doRecv k msg
  | .setResponse c r result, .quiet =>
      .ok (.only (s.setCtx c fun x => { x with result := result, response := some r }) [])
  | .writeLoop, .quiet => .ok (.only s (if s.m_isConnected then [.waitSem] else writeEnds))
  | .waitSem, .quiet =>
      wait s.m_sem (fun sem => { s with m_sem := sem }) k role.this (resume .waitingSem) .waitingSem
  | .swapQueue, .quiet => .ok (.only { s with m_queue := [] } [.doSend s.m_queue])
  | .doSend ctxs, .sent how => .ok (.only s (doSend ctxs how))
  | .notifyWait, .quiet => .ok (s.notifyWait k)
  | _, _ => .error .notEnabled

end

/-- The calls that make a fiber, `close`, a turn of a fiber, and an exception in the callback that
a fiber is about to call. `onTimeOut` is that the timer of a context has expired. -/
inductive Move (S : Type) where
  | request (this : S) (sn : UInt32)
  | sendMessage
  | start (this : Option S)
  | onTimeOut (c : ℕ)
  | close
  | turn (k : ℕ) (world : World)
  | threw (k : ℕ)
deriving DecidableEq

/-- A stream whose socket may be connected, before any call but `setIOManager`. -/
def init (connected : Bool) (iomanager : Option S) : Fibers S where
  shared :=
    { m_isConnected := connected
      m_ctxs := []
      m_queue := []
      m_sem := .new 0
      m_waitSem := .new 2
      m_iomanager := iomanager
      heap := []
      refused := []
      gaveBack := [] }
  threads := []

section

variable (f : Fibers S)

/-- Without a connection `request` returns at once. -/
def request (this : S) (sn : UInt32) : Fibers S :=
  if f.shared.m_isConnected then
    let c := f.shared.heap.length
    f.start { f.shared with heap := f.shared.heap ++ [.new sn this f.threads.length] }
      (.request c) (requestCode c)
  else f

def sendMessage : Fibers S :=
  if f.shared.m_isConnected then f.start f.shared .sendMessage [.push .message] else f

def start (this : Option S) : Fibers S :=
  f.start { f.shared with m_iomanager := f.shared.m_iomanager.or this } (.start this)
    [.waitFiber false]

def onTimeOut (c : ℕ) : Except StepFault (Fibers S) :=
  match f.shared.heap[c]? with
  | none => .error .notEnabled
  | some x =>
      if x.armed then
        .ok (f.start (f.shared.setCtx c fun x => { x with armed := false }) (.onTimeOut c)
          (onTimeOutCode c))
      else .error .notEnabled

/-- `m_connectCb` throws, or `m_disconnectCb`, which `innerClose` calls while there is a connection,
after its assertion. -/
def threw (k : ℕ) : Except StepFault (Fibers S) :=
  match f.threads[k]? with
  | none => .error .notEnabled
  | some u =>
      match unwind u.code with
      | none => .error .notEnabled
      | some code =>
          if u.code = [.connectCb] ∨
              f.shared.m_isConnected ∧ f.shared.m_iomanager = u.role.this then
            .ok (f.put k u.role code)
          else .error .notEnabled

def step : Move S → Except StepFault (Fibers S)
  | .request this sn => .ok (request f this sn)
  | .sendMessage => .ok (sendMessage f)
  | .start this => .ok (start f this)
  | .onTimeOut c => onTimeOut f c
  | .close => .ok { f with shared := { f.shared with m_isConnected := false } }
  | .turn k world => f.run resume exec .notEnabled k world
  | .threw k => threw f k

end

end AsyncSocketStream

end Sylar
