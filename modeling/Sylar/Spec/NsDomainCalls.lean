import Sylar.Lib.Threads
import Sylar.Spec.NsProtocol
import Sylar.Spec.Scheduler

/-! Calls of `NSDomain::add(cmd, info)` and `NSDomain::del(cmd, id)` that overlap. A section under
a lock is one step. A set that `add` has just made is seen by no one else, so it is made
together with the `get` before it. -/

namespace Sylar

open Lib

namespace NSDomain

inductive Call where
  | add (cmd : UInt32) (info : NSNode)
  | del (cmd : UInt32) (id : UInt64)
deriving DecidableEq

def Call.id : Call → UInt64
  | .add _ info => info.m_id
  | .del _ id => id

/-- What a call does next. `addTo`, `delFrom` and `size` are the calls of the `NSNodeSet`. -/
inductive Section where
  | get
  | addSet (ns : ℕ)
  | addTo (ns : ℕ)
  | delFrom (ns : ℕ)
  | size (ns : ℕ)
  | delSet
deriving DecidableEq

/-- `registered` is a record: the nodes whose `add` has come to its end and whose `del` has not
begun. -/
structure Shared where
  domain : NSDomain
  registered : List (UInt32 × UInt64)
deriving DecidableEq

abbrev Calls := Threads Shared Call Section

namespace Shared

variable (s : Shared)

def onDomain (domain : NSDomain) : Shared := { s with domain := domain }

def called : Call → Shared
  | .add _ _ => s
  | .del cmd id => { s with registered := s.registered.filter fun r => r ≠ (cmd, id) }

def exec : Call → Section → Except StepFault (Turn Shared Call Section)
  | .add cmd _, .get =>
      match s.domain.get cmd with
      | some ns => .ok (.only s [.addTo ns])
      | none => .ok (.only (s.onDomain (s.domain.make cmd)) [.addSet s.domain.sets.length])
  | .add _ _, .addSet ns => .ok (.only (s.onDomain (s.domain.addSet ns)) [.addTo ns])
  | .add cmd info, .addTo ns =>
      .ok (.only ⟨s.domain.update ns (.add info), (cmd, info.m_id) :: s.registered⟩ [])
  | .del cmd _, .get =>
      match s.domain.get cmd with
      | some ns => .ok (.only s [.delFrom ns])
      | none => .ok (.only s [])
  | .del _ id, .delFrom ns => .ok (.only (s.onDomain (s.domain.update ns (.del id))) [.size ns])
  | .del _ _, .size ns => .ok (.only s (if s.domain.sizeOf ns = 0 then [.delSet] else []))
  | .del cmd _, .delSet => .ok (.only (s.onDomain (s.domain.delSet cmd)) [])
  | _, _ => .error .notEnabled

end Shared

inductive Move where
  | start (call : Call)
  | turn (k : ℕ)
deriving DecidableEq

namespace Calls

def init (domain : String) : Calls := ⟨⟨.new domain, []⟩, []⟩

/-- A session has one node and makes one call after the other. -/
def step (f : Calls) : Move → Except StepFault Calls
  | .start call =>
      if f.threads.any fun u => u.code ≠ [] ∧ u.role.id = call.id then .error .notEnabled
      else .ok (f.start (f.shared.called call) call [.get])
  | .turn k => f.run id (fun s _ call i _ => s.exec call i) .notEnabled k ()

end Calls

end NSDomain

end Sylar
