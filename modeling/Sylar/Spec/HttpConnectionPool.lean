import Sylar.Lib.Threads

/-! `HttpConnectionPool::getConnection` and `ReleasePtr` of `HttpServer/http_connection.cc`. A
section under the lock, an operation on the counter and a reading of the clock are one step each.
A connection is known by its number in the order in which they were made. -/

namespace Sylar

open Lib

/-- `connected` is what `isConnected` says. `made` is the clock when the connection was made, which
the code keeps nowhere. -/
structure HttpConnection where
  m_createTime : UInt64
  m_request : UInt64
  connected : Bool
  made : UInt64
deriving DecidableEq

structure HttpConnectionPool where
  m_maxSize : UInt32
  m_maxAliveTime : UInt32
  m_maxRequest : UInt32
deriving DecidableEq

namespace HttpConnectionPool

/-- The pointer of a connection that is deleted does not lead to one. -/
inductive PoolFault where
  | notEnabled
  | dangling
deriving DecidableEq, Repr

/-- `handed` and `deleted` are records: the connections whose shared pointer is held outside, and
those that were deleted, one entry for each `delete`. -/
structure Shared where
  m_conns : List ℕ
  m_total : Int32
  ptrs : List HttpConnection
  handed : List ℕ
  deleted : List ℕ
deriving DecidableEq

inductive Instr where
  | getCurrentMS
  | popValid (now_ms : UInt64)
  | connect
  | incTotal (ptr : ℕ)
  | handOut (ptr : ℕ)
  | incRequest (ptr : ℕ)
  | check (ptr : ℕ)
  | pushBack (ptr : ℕ)
  | delete (ptr : ℕ)
  | subTotal (n : ℕ)
deriving DecidableEq

/-- How `getConnection` fares when it makes a connection. -/
inductive Reach where
  | lookupFailed
  | createFailed
  | connectFailed
  | connected
deriving DecidableEq

structure World where
  now_ms : UInt64
  reach : Reach
deriving DecidableEq

abbrev Calls := Threads Shared Unit Instr

abbrev CallTurn := Turn Shared Unit Instr

namespace Shared

variable (s : Shared)

def deref (ptr : ℕ) : Except PoolFault HttpConnection :=
  if ptr ∈ s.deleted then .error .dangling
  else match s.ptrs[ptr]? with
    | some conn => .ok conn
    | none => .error .dangling

/-- The loop over `m_conns`: `invalid_conns`, `ptr`, and what it leaves of the list. -/
def popLoop (pool : HttpConnectionPool) (now_ms : UInt64) :
    List ℕ → Except PoolFault (List ℕ × Option ℕ × List ℕ)
  | [] => .ok ([], none, [])
  | ptr :: m_conns => do
      let conn ← s.deref ptr
      if !conn.connected then
        let r ← popLoop pool now_ms m_conns
        .ok (ptr :: r.1, r.2)
      else if conn.m_createTime + pool.m_maxAliveTime.toUInt64 > now_ms then
        let r ← popLoop pool now_ms m_conns
        .ok (ptr :: r.1, r.2)
      else .ok ([], some ptr, m_conns)

def make (now_ms : UInt64) : Shared := { s with ptrs := s.ptrs ++ [⟨0, 0, true, now_ms⟩] }

def modify (ptr : ℕ) (f : HttpConnection → HttpConnection) : Shared :=
  { s with ptrs := s.ptrs.modify ptr f }

end Shared

def exec (pool : HttpConnectionPool) (s : Shared) (_k : ℕ) (_role : Unit) :
    Instr → World → Except PoolFault CallTurn
  | .getCurrentMS, w => .ok (.only s [.popValid w.now_ms])
  | .popValid now_ms, _ => do
      let (invalid_conns, ptr, m_conns) ← s.popLoop pool now_ms s.m_conns
      let next := match ptr with
        | some ptr => Instr.handOut ptr
        | none => .connect
      .ok (.only { s with m_conns := m_conns }
        (invalid_conns.map .delete ++ [.subTotal invalid_conns.length, next]))
  | .connect, w =>
      .ok (match w.reach with
        | .lookupFailed | .createFailed | .connectFailed => .only s []
        | .connected => .only (s.make w.now_ms) [.incTotal s.ptrs.length])
  | .incTotal ptr, _ => .ok (.only { s with m_total := s.m_total + 1 } [.handOut ptr])
  | .handOut ptr, _ => .ok (.only { s with handed := ptr :: s.handed } [])
  | .incRequest ptr, _ => do
      let _ ← s.deref ptr
      .ok (.only (s.modify ptr fun conn => { conn with m_request := conn.m_request + 1 }) [.check ptr])
  | .check ptr, w => do
      let conn ← s.deref ptr
      .ok (.only s
        (if !conn.connected ∨ conn.m_createTime + pool.m_maxAliveTime.toUInt64 ≥ w.now_ms ∨
            conn.m_request ≥ pool.m_maxRequest.toUInt64 then [.delete ptr, .subTotal 1]
          else [.pushBack ptr]))
  | .pushBack ptr, _ => .ok (.only { s with m_conns := s.m_conns ++ [ptr] } [])
  | .delete ptr, _ => .ok (.only { s with deleted := ptr :: s.deleted } [])
  | .subTotal n, _ => .ok (.only { s with m_total := s.m_total - Int32.ofNat n } [])

/-- A call begins or takes a step, or a connection is closed. `ReleasePtr` begins when the last
shared pointer of a connection goes. -/
inductive Move where
  | getConnection
  | releasePtr (ptr : ℕ)
  | close (ptr : ℕ)
  | turn (k : ℕ) (w : World)
deriving DecidableEq

def init : Calls := ⟨⟨[], 0, [], [], []⟩, []⟩

def step (pool : HttpConnectionPool) (f : Calls) : Move → Except PoolFault Calls
  | .getConnection => .ok (f.start f.shared () [.getCurrentMS])
  | .releasePtr ptr =>
      if ptr ∈ f.shared.handed then
        .ok (f.start { f.shared with handed := f.shared.handed.erase ptr } () [.incRequest ptr])
      else .error .notEnabled
  | .close ptr =>
      if ptr ∈ f.shared.deleted ∨ f.shared.ptrs.length ≤ ptr then .error .notEnabled
      else .ok { f with shared := f.shared.modify ptr fun conn => { conn with connected := false } }
  | .turn k w => f.run id (exec pool) .notEnabled k w

end HttpConnectionPool

end Sylar
