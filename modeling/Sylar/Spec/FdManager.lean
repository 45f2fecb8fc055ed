import Sylar.Lib.Records

/-! `fd_manager.cc`: what is known of a descriptor, and the table of it. An `FdCtx` object is
known by its address. The read-locked and the write-locked part of `get` are two steps. -/

namespace Sylar

open Lib

/-- Why a step on a table of descriptors has no next state. -/
inductive TableFault where
  | notEnabled
  | undefined
deriving DecidableEq, Repr

def SO_RCVTIMEO : ℕ := 20

def SO_SNDTIMEO : ℕ := 21

structure FdCtx where
  m_isInit : Bool
  m_isSocket : Bool
  m_sysNonblock : Bool
  m_userNonblock : Bool
  m_isClosed : Bool
  m_fd : ℤ
  m_recvTimeout : UInt64
  m_sendTimeout : UInt64
deriving DecidableEq, Repr

namespace FdCtx

/-- `fstat` is what it says of the descriptor, if it succeeds: whether it is a socket. -/
def new (fd : ℤ) (fstat : Option Bool) : FdCtx where
  m_isInit := fstat.isSome
  m_isSocket := fstat.getD false
  m_sysNonblock := fstat.getD false
  m_userNonblock := false
  m_isClosed := false
  m_fd := fd
  m_recvTimeout := -1
  m_sendTimeout := -1

section

variable (ctx : FdCtx)

def isSocket : Bool := ctx.m_isSocket

def isClose : Bool := ctx.m_isClosed

def getUserNonblock : Bool := ctx.m_userNonblock

def setUserNonblock (v : Bool) : FdCtx := { ctx with m_userNonblock := v }

def getSysNonblock : Bool := ctx.m_sysNonblock

def setSysNonblock (v : Bool) : FdCtx := { ctx with m_sysNonblock := v }

def setTimeout (type : ℕ) (v : UInt64) : FdCtx :=
  if type = SO_RCVTIMEO then { ctx with m_recvTimeout := v } else { ctx with m_sendTimeout := v }

def getTimeout (type : ℕ) : UInt64 :=
  if type = SO_RCVTIMEO then ctx.m_recvTimeout else ctx.m_sendTimeout

end

end FdCtx

/-- `ctxs` are the objects made so far. `creating` are the calls that have left the read lock
and will create, by their descriptors. `given` is a record: the contexts that were returned for
a descriptor since it was last removed. -/
structure FdManager where
  m_datas : List (Option ℕ)
  ctxs : List FdCtx
  creating : List ℤ
  given : List (ℤ × ℕ)
deriving DecidableEq, Repr

/-- `create` is the write-locked part of `get`. The setters are called through a handle. -/
inductive FdMove where
  | get (fd : ℤ) (auto_create : Bool)
  | create (fd : ℤ) (fstat : Option Bool)
  | del (fd : ℤ)
  | setTimeout (ctx : ℕ) (type : ℕ) (v : UInt64)
  | setUserNonblock (ctx : ℕ) (v : Bool)
  | setSysNonblock (ctx : ℕ) (v : Bool)
deriving DecidableEq, Repr

namespace FdManager

def init : FdManager := ⟨List.replicate 64 none, [], [], []⟩

section

variable (s : FdManager)

def size : ℤ := (s.m_datas.length : ℤ).bmod (2 ^ 32)

def slot (fd : ℤ) : Except TableFault (Option ℕ) :=
  if fd < 0 then .error .undefined
  else match s.m_datas[fd.toNat]? with
    | none => .error .undefined
    | some slot => .ok slot

def give (fd : ℤ) (ctx : Option ℕ) : FdManager :=
  { s with given := s.given ++ ctx.toList.map fun a => (fd, a) }

def get (fd : ℤ) (auto_create : Bool) : Except TableFault FdManager :=
  if fd = -1 then .ok s
  else if s.size ≤ fd then
    if auto_create then .ok { s with creating := s.creating ++ [fd] } else .ok s
  else do
    let ctx ← s.slot fd
    if ctx.isSome || !auto_create then .ok (s.give fd ctx)
    else .ok { s with creating := s.creating ++ [fd] }

def resized (fd : ℤ) : ℕ := if s.size ≤ fd then (3 * fd / 2).toNat else s.m_datas.length

def create (fd : ℤ) (fstat : Option Bool) : Except TableFault FdManager :=
  if fd ∈ s.creating then
    if fd < 0 then .error .undefined
    else if fd.toNat < s.resized fd then
      .ok { s with
        m_datas := (resize s.m_datas (s.resized fd)).set fd.toNat (some s.ctxs.length)
        ctxs := s.ctxs ++ [.new fd fstat]
        creating := s.creating.erase fd
        given := s.given ++ [(fd, s.ctxs.length)] }
    else .error .undefined
  else .error .notEnabled

def del (fd : ℤ) : Except TableFault FdManager :=
  if s.size ≤ fd then .ok { s with given := s.given.filter fun x => x.1 ≠ fd }
  else do
    let _ ← s.slot fd
    .ok { s with
      m_datas := s.m_datas.set fd.toNat none
      given := s.given.filter fun x => x.1 ≠ fd }

def setTimeout (ctx type : ℕ) (v : UInt64) : FdManager :=
  { s with ctxs := s.ctxs.modify ctx fun c => c.setTimeout type v }

def getTimeout (ctx type : ℕ) : Option UInt64 := s.ctxs[ctx]?.map fun c => c.getTimeout type

def setUserNonblock (ctx : ℕ) (v : Bool) : FdManager :=
  { s with ctxs := s.ctxs.modify ctx fun c => c.setUserNonblock v }

def getUserNonblock (ctx : ℕ) : Option Bool := s.ctxs[ctx]?.map FdCtx.getUserNonblock

def setSysNonblock (ctx : ℕ) (v : Bool) : FdManager :=
  { s with ctxs := s.ctxs.modify ctx fun c => c.setSysNonblock v }

def getSysNonblock (ctx : ℕ) : Option Bool := s.ctxs[ctx]?.map FdCtx.getSysNonblock

def step : FdMove → Except TableFault FdManager
  | .get fd auto_create => s.get fd auto_create
  | .create fd fstat => s.create fd fstat
  | .del fd => s.del fd
  | .setTimeout ctx type v => .ok (s.setTimeout ctx type v)
  | .setUserNonblock ctx v => .ok (s.setUserNonblock ctx v)
  | .setSysNonblock ctx v => .ok (s.setSysNonblock ctx v)

end

end FdManager

end Sylar
