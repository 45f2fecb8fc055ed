import Sylar.Spec.Basic
import Sylar.Lib.Nodes

/-! The commands of `FoxRedis` (`DataBase/redis.cc`). `cmd` has the `FoxThread` call `pcmd` with the
address of a local `FCtx` and yields. `pcmd` makes a `Ctx` with a timer and gives the command to the
client library, and the fiber is scheduled by the reply, by an error or by the timer. Everything but
`cmd` and the fibers runs in the one thread, a callback after the other; a fiber may run as soon as it
is scheduled, and its `FCtx` ends with its call.

The client library calls each callback it has accepted once, in their order: with a reply, or without
one when the connection goes. It then frees the connection. So a command is one that is answered once;
`SUBSCRIBE` and `MONITOR` are none. -/

namespace Sylar

open Lib

namespace FoxRedis

/-- `fiber` says whether it still holds the fiber it is a local of. `serial` numbers the commands. -/
structure FCtx (R : Type) where
  cmd : List UInt8
  fiber : Bool
  rpy : Option R
  serial : ℕ

/-- `ev` says whether the timer is still to fire, `fctx` whose `FCtx` it refers to. -/
structure Ctx (F : Type) where
  ev : Bool
  timeout : Bool
  cmd : List UInt8
  fctx : F
  serial : ℕ

inductive STATUS where
  | UNCONNECTED
  | CONNECTING
  | CONNECTED
deriving DecidableEq

/-- A callback the client library has accepted. -/
inductive Callback where
  | CmdCb (privdata : Option ℕ)
  | OnAuthCb

inductive Dispatched (F : Type) where
  | pcmd (fctx : F)
  | pinit
deriving DecidableEq

/-- The connection of the client library. `closing` is set while it calls the last callbacks. -/
structure Connection where
  callbacks : List Callback
  closing : Bool

end FoxRedis

/-- `fctxs` are the calls of `cmd` that have not returned, each under its fiber, and `ctxs` the `Ctx`
by address. `leaving` is a `Ctx` whose callback has scheduled the fiber and has yet to delete it.
`issued`, `answered` and `returned` record the commands, the replies that came for them and what the
calls of `cmd` returned. -/
structure FoxRedis (F R : Type) where
  m_passwd : List UInt8
  m_status : FoxRedis.STATUS := .UNCONNECTED
  m_ctxCount : ℤ := 0
  m_event : Bool := false
  m_context : Option FoxRedis.Connection := none
  dispatched : List (FoxRedis.Dispatched F) := []
  fctxs : List (F × FoxRedis.FCtx R) := []
  ctxs : List (ℕ × FoxRedis.Ctx F) := []
  next : ℕ := 0
  leaving : Option ℕ := none
  scheduled : List F := []
  issued : ℕ := 0
  answered : List (ℕ × R) := []
  returned : List (ℕ × Option R) := []

namespace FoxRedis

variable {F R : Type} [DecidableEq F]

/-- `cmd`, up to where it yields; `buf` is the formatted command. -/
def cmd (s : FoxRedis F R) (fiber : F) (buf : List UInt8) : FoxRedis F R :=
  { s with
    fctxs := Assoc.set s.fctxs fiber ⟨buf, true, none, s.issued⟩
    dispatched := s.dispatched ++ [.pcmd fiber]
    issued := s.issued + 1 }

/-- `if(fctx->fiber) fctx->scheduler->schedule(&fctx->fiber)`; the fiber moves to the scheduler. -/
def schedule (s : FoxRedis F R) (f : F) : Except Fault (FoxRedis F R) :=
  match Assoc.find s.fctxs f with
  | none => .error .undefined
  | some fctx =>
      if fctx.fiber then .ok { s with
        fctxs := Assoc.set s.fctxs f { fctx with fiber := false }
        scheduled := s.scheduled ++ [f] }
      else .ok s

def resume (s : FoxRedis F R) (f : F) : Except Fault (FoxRedis F R) :=
  match Assoc.find s.fctxs f with
  | none => .error .undefined
  | some fctx => .ok { s with
      fctxs := Assoc.without s.fctxs f
      scheduled := s.scheduled.erase f
      returned := s.returned ++ [(fctx.serial, fctx.rpy)] }

def delete (s : FoxRedis F R) (c : ℕ) : Except Fault (FoxRedis F R) :=
  match Assoc.find s.ctxs c with
  | none => .error .undefined
  | some _ => .ok { s with ctxs := Assoc.without s.ctxs c, m_ctxCount := s.m_ctxCount - 1 }

def register (s : FoxRedis F R) (cb : Callback) (accepted : Bool) : Except Fault (FoxRedis F R) :=
  match s.m_context with
  | none => .error .undefined
  | some conn => .ok (if accepted then
      { s with m_context := some { conn with callbacks := conn.callbacks ++ [cb] } } else s)

def EventCb (s : FoxRedis F R) (c : ℕ) : Except Fault (FoxRedis F R) :=
  match Assoc.find s.ctxs c with
  | none => .error .undefined
  | some ctx =>
      schedule { s with ctxs := Assoc.set s.ctxs c { ctx with ev := false, timeout := true } } ctx.fctx

/-- What `CmdCb` does with a reply that is none of the errors; `RedisReplyClone` makes an equal one. -/
def keep (s : FoxRedis F R) (f : F) (reply : R) : Except Fault (FoxRedis F R) :=
  match Assoc.find s.fctxs f with
  | none => .error .undefined
  | some fctx =>
      if fctx.fiber then .ok { s with fctxs := Assoc.set s.fctxs f { fctx with rpy := some reply } } else .ok s

/-- `CmdCb`, up to `delete ctx` where a fiber has been scheduled. `reply` is none when the connection
has failed; `is_error` is `reply->type == REDIS_REPLY_ERROR`. -/
def CmdCb (is_error : R → Bool) (s : FoxRedis F R) (privdata : Option ℕ) (reply : Option R) :
    Except Fault (FoxRedis F R) :=
  match privdata with
  | none => .ok s
  | some c =>
      match Assoc.find s.ctxs c with
      | none => .error .undefined
      | some ctx =>
          if ctx.timeout then delete s c
          else do
            let s ← match reply with
              | none => .ok s
              | some r => if is_error r then .ok s else keep s ctx.fctx r
            let s ← schedule s ctx.fctx
            .ok { s with leaving := some c }

/-- `TimeCb`: a `ping` without a command of its own. -/
def TimeCb (s : FoxRedis F R) (accepted : Bool) : Except Fault (FoxRedis F R) :=
  register s (.CmdCb none) accepted

/-- `connects` says whether `redisAsyncConnect` gives a connection. -/
def pinit (s : FoxRedis F R) (connects accepted : Bool) : Except Fault (FoxRedis F R) :=
  if s.m_status ≠ .UNCONNECTED then .ok s
  else if connects then
    TimeCb { s with m_status := .CONNECTING, m_context := some ⟨[], false⟩, m_event := true } accepted
  else .ok s

def pcmd (s : FoxRedis F R) (f : F) (connects accepted : Bool) : Except Fault (FoxRedis F R) :=
  if s.m_status = .UNCONNECTED then do
    let s ← pinit s connects accepted
    schedule s f
  else
    match Assoc.find s.fctxs f with
    | none => .error .undefined
    | some fctx =>
        let s := { s with
          ctxs := Assoc.set s.ctxs s.next ⟨true, false, fctx.cmd, f, fctx.serial⟩
          next := s.next + 1
          m_ctxCount := s.m_ctxCount + 1 }
        if fctx.cmd ≠ [] then register s (.CmdCb (some (s.next - 1))) accepted else .ok s

def ConnectCb (s : FoxRedis F R) (success accepted : Bool) : Except Fault (FoxRedis F R) :=
  if success then
    let s := { s with m_status := .CONNECTED }
    if s.m_passwd ≠ [] then register s .OnAuthCb accepted else .ok s
  else .ok { s with m_status := .UNCONNECTED }

def DisconnectCb (s : FoxRedis F R) : FoxRedis F R := { s with m_status := .UNCONNECTED }

/-- `cmd`: a fiber that is in no command calls it. `init`: another thread does. `turn`: the thread takes
what was dispatched first. `fire`: a timer ends. `reply`: the server answers the oldest command.
`connect` and `lose`: the connection is made, fails or goes. `flush` and `close`: the library calls what
it still has and frees the connection. `ping`: the timer of `TimeCb` fires. `leave`: `CmdCb` deletes its
`Ctx`. `resume`: a scheduled fiber runs. -/
inductive Move (F R : Type) where
  | cmd (f : F) (buf : List UInt8)
  | init
  | turn (connects accepted : Bool)
  | fire (c : ℕ)
  | reply (r : R)
  | connect (success accepted : Bool)
  | lose
  | flush
  | close
  | ping (accepted : Bool)
  | leave
  | resume (f : F)

def idle (s : FoxRedis F R) : Bool := s.leaving.isNone && !s.m_context.any Connection.closing

/-- The callback `cb` is called with `reply`, which is recorded for its command. -/
def called (is_error : R → Bool) (s : FoxRedis F R) (cb : Callback) (reply : Option R) :
    Except Fault (FoxRedis F R) :=
  match cb with
  | .OnAuthCb => .ok s
  | .CmdCb privdata =>
      let came := do
        let c ← privdata
        let ctx ← Assoc.find s.ctxs c
        let r ← reply
        some (ctx.serial, r)
      CmdCb is_error { s with answered := s.answered ++ came.toList } privdata reply

/-- A move that cannot be made changes nothing. -/
def step (is_error : R → Bool) (s : FoxRedis F R) : Move F R → Except Fault (FoxRedis F R)
  | .cmd f buf => .ok (if (Assoc.find s.fctxs f).isNone then s.cmd f buf else s)
  | .init => .ok { s with dispatched := s.dispatched ++ [.pinit] }
  | .turn connects accepted =>
      match s.dispatched with
      | [] => .ok s
      | d :: rest =>
          if s.idle then
            match d with
            | .pinit => pinit { s with dispatched := rest } connects accepted
            | .pcmd f => pcmd { s with dispatched := rest } f connects accepted
          else .ok s
  | .fire c =>
      if s.idle && (Assoc.find s.ctxs c).any Ctx.ev then EventCb s c else .ok s
  | .reply r =>
      match s.m_context with
      | some ⟨cb :: rest, false⟩ =>
          if s.idle ∧ s.m_status = .CONNECTED then
            called is_error { s with m_context := some ⟨rest, false⟩ } cb (some r)
          else .ok s
      | _ => .ok s
  | .connect success accepted =>
      match s.m_context with
      | some conn =>
          if s.idle ∧ s.m_status = .CONNECTING then
            ConnectCb { s with m_context := some { conn with closing := !success } } success accepted
          else .ok s
      | none => .ok s
  | .lose =>
      match s.m_context with
      | some conn =>
          if s.idle ∧ s.m_status = .CONNECTED then
            .ok { s with m_context := some { conn with closing := true } }
          else .ok s
      | none => .ok s
  | .flush =>
      match s.m_context with
      | some ⟨cb :: rest, true⟩ =>
          if s.leaving = none then called is_error { s with m_context := some ⟨rest, true⟩ } cb none
          else .ok s
      | _ => .ok s
  | .close =>
      match s.m_context with
      | some ⟨[], true⟩ =>
          if s.leaving = none then .ok { s.DisconnectCb with m_context := none } else .ok s
      | _ => .ok s
  | .ping accepted => if s.idle && s.m_event then TimeCb s accepted else .ok s
  | .leave =>
      match s.leaving with
      | some c => delete { s with leaving := none } c
      | none => .ok s
  | .resume f => if f ∈ s.scheduled then resume s f else .ok s

def new (m_passwd : List UInt8) : FoxRedis F R := { m_passwd := m_passwd }

end FoxRedis

end Sylar
