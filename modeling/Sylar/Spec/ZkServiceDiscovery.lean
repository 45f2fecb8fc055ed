import Sylar.Lib.Threads
import Sylar.Spec.LoadBalance
import Sylar.Spec.ServiceDiscovery

/-! `ZKServiceDiscovery` of `streams/service_discovery.cc`, for the services it queries, with a
`SDLoadBalance` as its callback. It reads the children of a path of ZooKeeper and leaves a watch there.
ZooKeeper takes the watch back with the event of the first change of these children, or of the path
itself, and tells its events one after the other. `registerInfo` and `queryInfo` change nothing but the
nodes of ZooKeeper, which anyone may change at any time. -/

namespace Sylar

open Lib

namespace Services

variable {I : Type}

def empty : Services I := ⟨[], List.nodup_nil⟩

def set (services : Services I) (id : UInt64) (info : I) : Services I :=
  ⟨Assoc.set services.pairs id info, Assoc.nodup_set services.nodup id info⟩

end Services

namespace ZKClient

inductive EventType where
  | CREATED
  | DELETED
  | CHANGED
  | CHILD
  | SESSION
  | NOWATCHING
deriving DecidableEq

inductive StateType where
  | EXPIRED_SESSION
  | AUTH_FAILED
  | CONNECTING
  | ASSOCIATING
  | CONNECTED
  | READONLY
  | NOTCONNECTED
deriving DecidableEq

/-- What the watcher callback is called with. -/
structure WatchEvent where
  type : EventType
  stat : StateType
  path : String
deriving DecidableEq

end ZKClient

open ZKClient

/-- `nodes` and `watches` are ZooKeeper's: the paths there are, each with the names of its children,
and the paths of which this session watches the children. `events` are still to be told.
`unwatched` records the paths that have lost their watch and whose children were not read since. -/
structure ZKServiceDiscovery (T : Type) where
  m_queryInfos : List (String × List String)
  m_datas : List (String × List (String × Services ServiceItemInfo))
  lb : SDLoadBalance T
  nodes : List (String × List String)
  watches : List String
  events : List WatchEvent
  unwatched : List String

namespace ZKServiceDiscovery

def GetProvidersPath (domain service : String) : String :=
  "/Sylar/" ++ domain ++ "/" ++ service ++ "/providers"

def GetDomainPath (domain : String) : String := "/Sylar/" ++ domain

def ParseDomainService (path : String) : Option (String × String) :=
  match (path.toList.splitOn '/').map String.ofList with
  | [_, _, domain, service, _] => some (domain, service)
  | _ => none

def enter (inet_addr : String → UInt32) (infos : Services ServiceItemInfo) (i : String) :
    Services ServiceItemInfo :=
  match ServiceItemInfo.Create inet_addr i "" with
  | none => infos
  | some info => infos.set info.m_id info

/-- What `getChildren` makes of the names it has read. -/
def infosOf (inet_addr : String → UInt32) (vals : List String) : Services ServiceItemInfo :=
  vals.foldl (enter inet_addr) .empty

/-- A thread of ZooKeeper's client, or one that runs the timer. -/
inductive Role where
  | watcher
  | timer
deriving DecidableEq

/-- What a thread does. `read` is the call of the client in `getChildren`, `swap` what it does under the
lock, and `m_cb` calls the callback. -/
inductive Instr where
  | onZKConnect
  | reconnect
  | queryData (domain service : String)
  | getChildren (path : String)
  | read (path domain service : String)
  | swap (domain service : String) (infos : Services ServiceItemInfo)
  | m_cb (domain service : String) (old new_vals : Services ServiceItemInfo)

/-- What a turn learns: whether the call of the client fails, where it makes one, and what the
balancer learns of its items. -/
structure World where
  fails : Bool
  polled : Polled

section

variable {T : Type} (s : ZKServiceDiscovery T)

def table (domain service : String) : Services ServiceItemInfo :=
  (SDLoadBalance.find2 s.m_datas domain service).getD .empty

/-- Nobody will be told of the next change of `path`. -/
def drop (path : String) : ZKServiceDiscovery T :=
  if path ∈ s.watches then s else { s with unwatched := path :: s.unwatched }

def childPath (e : WatchEvent) : Option String := if e.type = .CHILD then some e.path else none

def exec (inet_addr : String → UInt32) (cb : UInt64 → ServiceItemInfo → Option T)
    (s : ZKServiceDiscovery T) (_ : ℕ) (_ : Role) (i : Instr) (w : World) :
    Except StepFault (Turn (ZKServiceDiscovery T) Role Instr) :=
  match i with
  | .onZKConnect =>
      .ok (.only s (s.m_queryInfos.flatMap fun i => i.2.map fun x => .queryData i.1 x))
  | .reconnect =>
      -- what the old handle had still to tell goes with it
      .ok (.only { s with
        events := []
        unwatched := s.events.filterMap childPath ++ s.unwatched } [])
  | .queryData domain service =>
      if service ≠ "all" then .ok (.only s [.getChildren (GetProvidersPath domain service)])
      else
        let children := if w.fails then [] else (Assoc.find s.nodes (GetDomainPath domain)).getD []
        .ok (.only s (children.map fun i => .queryData domain i))
  | .getChildren path =>
      match ParseDomainService path with
      | none => .ok (.only (s.drop path) [])
      | some (domain, service) =>
          match Assoc.find s.m_queryInfos domain with
          | none => .ok (.only (s.drop path) [])
          | some services =>
              if service ∈ services ∨ "all" ∈ services then .ok (.only s [.read path domain service])
              else .ok (.only (s.drop path) [])
  | .read path domain service =>
      match if w.fails then none else Assoc.find s.nodes path with
      | none => .ok (.only (s.drop path) [])
      | some vals =>
          .ok (.only { s with
            watches := path :: s.watches.filter (· ≠ path)
            unwatched := s.unwatched.filter (· ≠ path) } [.swap domain service (infosOf inet_addr vals)])
  | .swap domain service infos =>
      .ok (.only { s with m_datas := SDLoadBalance.set2 s.m_datas domain service infos }
        [.m_cb domain service (s.table domain service) infos])
  | .m_cb domain service old new_vals =>
      match s.lb.onServiceChange domain service old new_vals cb w.polled with
      | .error fault => .error fault
      | .ok lb => .ok (.only { s with lb := lb } [])

def onWatch (e : WatchEvent) : List Instr :=
  match e.stat, e.type with
  | .CONNECTED, .SESSION => [.onZKConnect]
  | .CONNECTED, .CHILD => [.getChildren e.path]
  | .EXPIRED_SESSION, .SESSION => [.reconnect]
  | _, _ => []

/-- The children of `path` have changed, or `path` is gone. -/
def changed (path : String) (children : Option (List String)) : ZKServiceDiscovery T :=
  let s := { s with nodes := match children with
    | none => Assoc.without s.nodes path
    | some vals => Assoc.set s.nodes path vals }
  if path ∈ s.watches then
    { s with
      watches := s.watches.filter (· ≠ path)
      events := s.events ++ [⟨if children.isSome then .CHILD else .DELETED, .CONNECTED, path⟩]
      unwatched := if children.isSome then s.unwatched else path :: s.unwatched }
  else s

def session (stat : StateType) : ZKServiceDiscovery T :=
  let s := { s with events := s.events ++ [⟨.SESSION, stat, ""⟩] }
  if stat = .EXPIRED_SESSION then { s with watches := [], unwatched := s.watches ++ s.unwatched } else s

def setQueryServer (v : List (String × List String)) : ZKServiceDiscovery T := { s with m_queryInfos := v }

def queryServer (domain service : String) : ZKServiceDiscovery T :=
  let services := (Assoc.find s.m_queryInfos domain).getD []
  let services := if service ∈ services then services else service :: services
  { s with m_queryInfos := Assoc.set s.m_queryInfos domain services }

def initConf (confs : List (String × List (String × String))) : ZKServiceDiscovery T :=
  let s := s.setQueryServer (confs.map fun i => (i.1, i.2.map Prod.fst))
  { s with lb := s.lb.initConf confs }

end

abbrev Calls (T : Type) := Threads (ZKServiceDiscovery T) Role Instr

/-- `changed` and `session`: something happens at ZooKeeper. `deliver`: its client calls the watcher
callback. `fire`: the timer. `turn`: thread `k` does what it does next. -/
inductive Move where
  | changed (path : String) (children : Option (List String))
  | session (stat : StateType)
  | deliver
  | fire
  | turn (k : ℕ) (w : World)
  | setQueryServer (v : List (String × List String))
  | queryServer (domain service : String)
  | initConf (confs : List (String × List (String × String)))

section

variable {T : Type}

def idle (f : Calls T) : Bool := f.threads.all fun t => t.role ≠ .watcher || t.code.isEmpty

/-- A move that cannot be made changes nothing. -/
def step (inet_addr : String → UInt32) (cb : UInt64 → ServiceItemInfo → Option T) (f : Calls T) :
    Move → Except StepFault (Calls T)
  | .changed path children => .ok { f with shared := f.shared.changed path children }
  | .session stat => .ok { f with shared := f.shared.session stat }
  | .deliver =>
      match f.shared.events with
      | [] => .ok f
      | e :: rest =>
          if idle f then .ok (f.start { f.shared with events := rest } .watcher (onWatch e)) else .ok f
  | .fire => .ok (f.start f.shared .timer [.onZKConnect])
  | .turn k w =>
      if (f.code k).isEmpty then .ok f else f.run id (exec inet_addr cb) .notEnabled k w
  | .setQueryServer v => .ok { f with shared := f.shared.setQueryServer v }
  | .queryServer domain service => .ok { f with shared := f.shared.queryServer domain service }
  | .initConf confs => .ok { f with shared := f.shared.initConf confs }

def init : Calls T := ⟨⟨[], [], .init, [], [], [], []⟩, []⟩

end

end ZKServiceDiscovery

end Sylar
