import Sylar.Spec.NsProtocol
import Sylar.Spec.Scheduler

/-! `NameServerModule` of `NodeService/name_server_module.cc`, with the messages of
`ns_protobuf.proto`. A call of `handleRegister` or `onDisconnect` is one step. `inet_addr` is the
function of the C library. What is logged when a request is rejected is the constructor of
`RegisterError`. -/

namespace Sylar

open Lib

structure NodeMessage where
  ip : Option String
  port : Option UInt32
  weight : Option UInt32
deriving DecidableEq

structure RegisterInfo where
  domain : Option String
  cmds : List UInt32
  node : Option NodeMessage
deriving DecidableEq

structure NodeInfo where
  domain : String
  cmd : UInt32
  nodes : List NodeMessage
deriving DecidableEq

inductive RegisterError where
  | invalidRequest
  | isNull (attr : String)
  | ipInvalid
  | otherThanOld
  | otherThanNew
deriving DecidableEq

abbrev Domain2Cmds := AList fun _ : String => List UInt32

namespace Domain2Cmds

def insertCmd (m : Domain2Cmds) (domain : String) (cmd : UInt32) : Domain2Cmds :=
  m.insert domain (((m.lookup domain).getD []).insert cmd)

/-- `m.insert(i)`, which leaves a pair that is there. -/
def insertPair (m : Domain2Cmds) (domain : String) (cmds : List UInt32) : Domain2Cmds :=
  if domain ∈ m then m else m.insert domain cmds

end Domain2Cmds

structure Diff where
  dels : Domain2Cmds
  news : Domain2Cmds
  comms : Domain2Cmds

namespace Diff

def old (r : Diff) (new_value : Domain2Cmds) (domain : String) (cmds : List UInt32) : Diff :=
  match new_value.lookup domain with
  | none => { r with dels := r.dels.insertPair domain cmds }
  | some it =>
      cmds.foldl (fun r n =>
        if n ∈ it then { r with comms := r.comms.insertCmd domain n }
        else { r with dels := r.dels.insertCmd domain n }) r

def new (r : Diff) (old_value : Domain2Cmds) (domain : String) (cmds : List UInt32) : Diff :=
  match old_value.lookup domain with
  | none => { r with news := r.news.insertPair domain cmds }
  | some it =>
      cmds.foldl (fun r n => if n ∈ it then r else { r with news := r.news.insertCmd domain n }) r

end Diff

def diff (old_value new_value : Domain2Cmds) : Diff :=
  new_value.entries.foldl (fun r i => r.new old_value i.1 i.2)
    (old_value.entries.foldl (fun r i => r.old new_value i.1 i.2) ⟨∅, ∅, ∅⟩)

structure NSClientInfo where
  m_node : NSNode
  m_domain2cmds : Domain2Cmds
deriving DecidableEq

structure NameServerModule (R : Type) where
  m_domains : NSDomainSet
  m_sessions : List (R × NSClientInfo)
deriving DecidableEq

namespace NameServerModule

variable {R : Type} [DecidableEq R] (inet_addr : String → UInt32)

def checkInfo (info : RegisterInfo) : Except RegisterError (NSNode × String) :=
  match info.node with
  | none => .error (.isNull "node")
  | some node =>
  match info.domain with
  | none => .error (.isNull "domain")
  | some domain =>
  if info.cmds = [] then .error (.isNull "cmds") else
  match node.ip with
  | none => .error (.isNull "ip")
  | some ip =>
  match node.port with
  | none => .error (.isNull "port")
  | some port =>
  match node.weight with
  | none => .error (.isNull "weight")
  | some weight =>
      let ns_node := NSNode.new inet_addr ip port.toUInt16 weight
      if ns_node.m_id >>> 32 = 0 then .error .ipInvalid else .ok (ns_node, domain)

def registerInfo (old_value new_value : Option NSClientInfo) (info : RegisterInfo) :
    Except RegisterError NSClientInfo :=
  match checkInfo inet_addr info with
  | .error e => .error e
  | .ok (node, domain) =>
      if old_value.any fun v => v.m_node.m_id ≠ node.m_id then .error .otherThanOld
      else if new_value.any fun v => v.m_node.m_id ≠ node.m_id then .error .otherThanNew
      else
        let v := new_value.getD ⟨node, ∅⟩
        .ok { v with
          m_domain2cmds := info.cmds.foldl (fun m cmd => m.insertCmd domain cmd) v.m_domain2cmds }

def registerInfos (old_value : Option NSClientInfo) :
    Option NSClientInfo → List RegisterInfo → Except RegisterError (Option NSClientInfo)
  | new_value, [] => .ok new_value
  | new_value, info :: infos =>
      match registerInfo inet_addr old_value new_value info with
      | .error e => .error e
      | .ok v => registerInfos old_value (some v) infos

def delAll (domains : NSDomainSet) (id : UInt64) (dels : Domain2Cmds) : NSDomainSet :=
  dels.entries.foldl (fun ds i =>
    match Assoc.find ds i.1 with
    | none => ds
    | some d => Assoc.set ds i.1 (i.2.foldl (fun d c => d.del c id) d)) domains

/-- The loops of `set` over `news` and `comms`. -/
def addAll (domains : NSDomainSet) (node : NSNode) (news : Domain2Cmds) : NSDomainSet :=
  news.entries.foldl (fun ds i =>
    Assoc.set ds i.1 (i.2.foldl (fun d c => d.add c node) ((Assoc.find ds i.1).getD (.new i.1))))
    domains

section

variable (s : NameServerModule R)

def get (rs : R) : Option NSClientInfo := Assoc.find s.m_sessions rs

def set (rs : R) (isConnected : Bool) (value : Option NSClientInfo) : NameServerModule R :=
  let new_value := if isConnected then value else none
  let old_value := s.get rs
  let r := diff ((old_value.map NSClientInfo.m_domain2cmds).getD ∅)
    ((new_value.map NSClientInfo.m_domain2cmds).getD ∅)
  let domains := match old_value with
    | none => s.m_domains
    | some old_value => delAll s.m_domains old_value.m_node.m_id r.dels
  let domains := match new_value with
    | none => domains
    | some new_value => addAll domains new_value.m_node r.news
  let domains := match old_value, new_value with
    | some old_value, some new_value =>
        if old_value.m_node.m_weight ≠ new_value.m_node.m_weight then
          addAll domains new_value.m_node r.comms
        else domains
    | _, _ => domains
  { m_domains := domains
    m_sessions := match new_value with
      | some new_value => Assoc.set s.m_sessions rs new_value
      | none => Assoc.without s.m_sessions rs }

/-- `rr` is null when the request has another body. -/
def handleRegister (rs : R) (isConnected : Bool) (rr : Option (List RegisterInfo)) :
    Except RegisterError (NameServerModule R) :=
  match rr with
  | none => .error .invalidRequest
  | some infos =>
      match registerInfos inet_addr (s.get rs) none infos with
      | .error e => .error e
      | .ok new_value => .ok (s.set rs isConnected new_value)

def onDisconnect (rs : R) (isConnected : Bool) : NameServerModule R := s.set rs isConnected none

def handleQuery (domains : List String) : List NodeInfo :=
  (domains.dedup.filterMap fun domain => Assoc.find s.m_domains domain).flatMap fun d =>
    d.listAll.map fun ns =>
      { domain := d.m_domain
        cmd := ns.m_cmd
        nodes := ns.listAll.map fun x =>
          ⟨some x.m_ip, some x.m_port.toUInt32, some x.m_weight⟩ }

end

def init : NameServerModule R := ⟨[], []⟩

inductive Call (R : Type) where
  | handleRegister (rs : R) (isConnected : Bool) (rr : Option (List RegisterInfo))
  | onDisconnect (rs : R) (isConnected : Bool)
deriving DecidableEq

/-- A rejected request returns false and leaves everything as it is. -/
def step (s : NameServerModule R) : Call R → Except StepFault (NameServerModule R)
  | .handleRegister rs isConnected rr =>
      match s.handleRegister inet_addr rs isConnected rr with
      | .error _ => .ok s
      | .ok s' => .ok s'
  | .onDisconnect rs isConnected => .ok (s.onDisconnect rs isConnected)

end NameServerModule

end Sylar
