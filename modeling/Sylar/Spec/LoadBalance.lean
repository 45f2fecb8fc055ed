import Sylar.Lib.Nodes
import Sylar.Spec.HolderStatsSet

/-! `SDLoadBalance::onServiceChange` of `streams/load_balance.cc`. Balancers and items are
numbered as they are made, and the number stands for the pointer. A map is gone through in the
order in which its pairs were entered. The weights are floating-point numbers: of `getWeight`
there is what it does to the statistics, and `m_weights` is left out. -/

namespace Sylar

open Lib

inductive LoadBalanceType where
  | ROUNDROBIN
  | WEIGHT
  | FAIR
deriving DecidableEq

/-- A `LoadBalanceItem` with a stream of type `T`, or a `FairLoadBalanceItem`. -/
structure LoadBalanceItem (T : Type) where
  m_id : UInt64
  m_stream : Option T
  m_weight : Int32
  m_stats : HolderStatsSet
  isFair : Bool
deriving DecidableEq

namespace LoadBalanceItem

variable {T : Type} (x : LoadBalanceItem T)

def isValid (isConnected : Bool) : Bool := x.m_stream.isSome && isConnected

def getWeight (now : UInt32) : LoadBalanceItem T :=
  if x.isFair then { x with m_stats := x.m_stats.init now } else x

end LoadBalanceItem

/-- A `LoadBalance`: a `RoundRobinLoadBalance` or a `WeightLoadBalance`. -/
structure LoadBalance where
  isRoundRobin : Bool
  m_datas : List (UInt64 × ℕ)
  m_items : List ℕ
deriving DecidableEq

/-- What `initNolock` learns of every item: whether its stream is connected, and the `time(0)` of
its `getWeight`. -/
structure Polled where
  isConnected : ℕ → Bool
  time : ℕ → UInt32

namespace LoadBalance

variable {T : Type}

def initNolock (lb : LoadBalance) (items : List (LoadBalanceItem T)) (polled : Polled) :
    LoadBalance × List (LoadBalanceItem T) :=
  let valid := (lb.m_datas.map Prod.snd).filter fun n =>
    items[n]?.any fun x => x.isValid (polled.isConnected n)
  ({ lb with m_items := valid },
    if lb.isRoundRobin then items
    else valid.foldl (fun items n => items.modify n fun x => x.getWeight (polled.time n)) items)

/-- The first loop of `update`: what it takes out of `m_datas` it puts into `dels`. -/
def takeOut (datas : List (UInt64 × ℕ)) :
    List (UInt64 × Option ℕ) → List (UInt64 × ℕ) × List (UInt64 × Option ℕ)
  | [] => (datas, [])
  | (id, item) :: dels =>
      match Assoc.find datas id with
      | none =>
          let r := takeOut datas dels
          (r.1, (id, item) :: r.2)
      | some n =>
          let r := takeOut (Assoc.without datas id) dels
          (r.1, (id, some n) :: r.2)

/-- `update`, the items after it, and `dels`. -/
def update (lb : LoadBalance) (items : List (LoadBalanceItem T)) (adds : List (UInt64 × ℕ))
    (dels : List (UInt64 × Option ℕ)) (polled : Polled) :
    (LoadBalance × List (LoadBalanceItem T)) × List (UInt64 × Option ℕ) :=
  let r := takeOut lb.m_datas dels
  (initNolock { lb with m_datas := adds.foldl (fun datas i => Assoc.set datas i.1 i.2) r.1 } items
    polled, r.2)

end LoadBalance

/-- An `unordered_map` from ids, with what is known of each service. -/
structure Services (I : Type) where
  pairs : List (UInt64 × I)
  nodup : (pairs.map Prod.fst).Nodup

/-- `balancers` and `items` are the objects that were made. `closed` is a record: the items
whose stream was told to close, once for each time. -/
structure SDLoadBalance (T : Type) where
  m_datas : List (String × List (String × ℕ))
  m_types : List (String × List (String × LoadBalanceType))
  balancers : List LoadBalance
  items : List (LoadBalanceItem T)
  closed : List ℕ
deriving DecidableEq

namespace SDLoadBalance

variable {I T : Type}

/-- A map of maps, as `m_datas[domain][service]` and the two `find`s of `get` use it. -/
def find2 {V : Type} (m : List (String × List (String × V))) (domain service : String) : Option V :=
  (Assoc.find m domain).bind fun services => Assoc.find services service

def set2 {V : Type} (m : List (String × List (String × V))) (domain service : String) (v : V) :
    List (String × List (String × V)) :=
  Assoc.set m domain (Assoc.set ((Assoc.find m domain).getD []) service v)

def createLoadBalance : LoadBalanceType → LoadBalance
  | .ROUNDROBIN => ⟨true, [], []⟩
  | .WEIGHT | .FAIR => ⟨false, [], []⟩

def createLoadBalanceItem : LoadBalanceType → LoadBalanceItem T
  | .ROUNDROBIN | .WEIGHT => ⟨0, none, 0, .new 5, false⟩
  | .FAIR => ⟨0, none, 0, .new 5, true⟩

/-- The keys that `onServiceChange` has to take out, with no item yet. -/
def delInfos (old new : Services I) : List (UInt64 × Option ℕ) :=
  (old.pairs.filter fun i => (Assoc.find new.pairs i.1).isNone).map fun i => (i.1, none)

def addValues (old new : Services I) : List (UInt64 × I) :=
  new.pairs.filter fun i => (Assoc.find old.pairs i.1).isNone

def newItem (type : LoadBalanceType) (id : UInt64) (stream : T) : LoadBalanceItem T :=
  { (createLoadBalanceItem type : LoadBalanceItem T) with
    m_id := id
    m_stream := some stream
    m_weight := 10000 }

/-- The loop that makes `add_infos`. `cb` is what `m_cb` gives for each. -/
def createItems (type : LoadBalanceType) (cb : UInt64 → I → Option T)
    (items : List (LoadBalanceItem T)) :
    List (UInt64 × I) → List (LoadBalanceItem T) × List (UInt64 × ℕ)
  | [] => (items, [])
  | (id, info) :: values =>
      match cb id info with
      | none => createItems type cb items values
      | some stream =>
          let r := createItems type cb (items ++ [newItem type id stream]) values
          (r.1, (id, items.length) :: r.2)

section

variable (s : SDLoadBalance T)

def getType (domain service : String) : LoadBalanceType :=
  (find2 s.m_types domain service).getD .FAIR

def getOrCreate (domain service : String) : SDLoadBalance T × ℕ :=
  match find2 s.m_datas domain service with
  | some lb => (s, lb)
  | none =>
      let lb := s.balancers.length
      ({ s with
          m_datas := set2 s.m_datas domain service lb
          balancers := s.balancers ++ [createLoadBalance (s.getType domain service)] }, lb)

/-- `LoadBalanceItem::close`, for each item that was taken out. -/
def close (dels : List (UInt64 × Option ℕ)) : SDLoadBalance T :=
  { s with
    closed := s.closed ++ (dels.filterMap Prod.snd).filter fun n =>
      ((s.items[n]?).bind LoadBalanceItem.m_stream).isSome }

def onServiceChange (domain service : String) (old new : Services I)
    (cb : UInt64 → I → Option T) (polled : Polled) : Except StepFault (SDLoadBalance T) :=
  let type := s.getType domain service
  let r := s.getOrCreate domain service
  let made := createItems type cb r.1.items (addValues old new)
  match r.1.balancers[r.2]? with
  | none => .error .notEnabled
  | some lb =>
      let updated := lb.update made.1 made.2 (delInfos old new) polled
      .ok (close { r.1 with
        balancers := r.1.balancers.set r.2 updated.1.1
        items := updated.1.2 } updated.2)

/-- The `init` of a balancer, which a `get` of it calls when the last is half a second ago. -/
def checkInit (domain service : String) (polled : Polled) : SDLoadBalance T :=
  match find2 s.m_datas domain service with
  | none => s
  | some b =>
      match s.balancers[b]? with
      | none => s
      | some lb =>
          let r := lb.initNolock s.items polled
          { s with
            balancers := s.balancers.set b r.1
            items := r.2 }

/-- A `get(now)` of the item `n`, and what is counted in what it returns. Where nothing is
counted, it is the `getWeight` of `statusString` or `toString`. -/
def count (n : ℕ) (call : HolderStatsSet.Call) : SDLoadBalance T :=
  { s with items := s.items.modify n fun x => { x with m_stats := x.m_stats.call call } }

def initConf (confs : List (String × List (String × String))) : SDLoadBalance T :=
  { s with
    m_types := confs.map fun domain => (domain.1, domain.2.map fun service =>
      (service.1,
        if service.2 = "round_robin" then .ROUNDROBIN
        else if service.2 = "weight" then .WEIGHT
        else .FAIR)) }

end

def init : SDLoadBalance T := ⟨[], [], [], [], []⟩

/-- The changes that reach a balancer or an item. -/
inductive Change (I T : Type) where
  | onServiceChange (domain service : String) (old new : Services I)
      (cb : UInt64 → I → Option T) (polled : Polled)
  | initConf (confs : List (String × List (String × String)))
  | checkInit (domain service : String) (polled : Polled)
  | count (n : ℕ) (call : HolderStatsSet.Call)

def step (s : SDLoadBalance T) : Change I T → Except StepFault (SDLoadBalance T)
  | .onServiceChange domain service old new cb polled =>
      s.onServiceChange domain service old new cb polled
  | .initConf confs => .ok (s.initConf confs)
  | .checkInit domain service polled => .ok (s.checkInit domain service polled)
  | .count n call => .ok (s.count n call)

end SDLoadBalance

end Sylar
