import Sylar.Lib.Nodes
import Sylar.Lib.Records

/-! `NSNode`, `NSNodeSet`, `NSDomain` and `NSDomainSet` of `NodeService/ns_protocol.cc`. The sets
of a domain are numbered as they are made, and the number stands for the pointer, since a set
can be in use when it is no longer in `m_datas`. A map is a list of pairs, in no particular
order. -/

namespace Sylar

open Lib

structure NSNode where
  m_id : UInt64
  m_ip : String
  m_port : UInt16
  m_weight : UInt32
deriving DecidableEq

namespace NSNode

variable (inet_addr : String → UInt32)

def GetID (ip : String) (port : UInt16) : UInt64 :=
  (inet_addr ip).toUInt64 <<< 32 ||| port.toUInt64

def new (ip : String) (port : UInt16) (weight : UInt32) : NSNode :=
  ⟨GetID inet_addr ip port, ip, port, weight⟩

end NSNode

structure NSNodeSet where
  m_cmd : UInt32
  m_datas : List (UInt64 × NSNode)
deriving DecidableEq

namespace NSNodeSet

def new (cmd : UInt32) : NSNodeSet := ⟨cmd, []⟩

def add (info : NSNode) (ns : NSNodeSet) : NSNodeSet :=
  { ns with m_datas := Assoc.set ns.m_datas info.m_id info }

def del (id : UInt64) (ns : NSNodeSet) : NSNodeSet :=
  { ns with m_datas := Assoc.without ns.m_datas id }

def listAll (ns : NSNodeSet) : List NSNode := ns.m_datas.map Prod.snd

end NSNodeSet

structure NSDomain where
  m_domain : String
  m_datas : List (UInt32 × ℕ)
  sets : List NSNodeSet
deriving DecidableEq

namespace NSDomain

def new (domain : String) : NSDomain := ⟨domain, [], []⟩

section

variable (d : NSDomain)

def get (cmd : UInt32) : Option ℕ := Assoc.find d.m_datas cmd

def make (cmd : UInt32) : NSDomain := { d with sets := d.sets ++ [.new cmd] }

def addSet (ns : ℕ) : NSDomain :=
  match d.sets[ns]? with
  | none => d
  | some set => { d with m_datas := Assoc.set d.m_datas set.m_cmd ns }

def update (ns : ℕ) (f : NSNodeSet → NSNodeSet) : NSDomain := { d with sets := d.sets.modify ns f }

def sizeOf (ns : ℕ) : ℕ := ((d.sets[ns]?).map fun set => set.m_datas.length).getD 0

def delSet (cmd : UInt32) : NSDomain := { d with m_datas := Assoc.without d.m_datas cmd }

def add (cmd : UInt32) (info : NSNode) : NSDomain :=
  match d.get cmd with
  | some ns => d.update ns (.add info)
  | none => ((d.make cmd).addSet d.sets.length).update d.sets.length (.add info)

def del (cmd : UInt32) (id : UInt64) : NSDomain :=
  match d.get cmd with
  | none => d
  | some ns =>
      let d' := d.update ns (.del id)
      if d'.sizeOf ns = 0 then d'.delSet cmd else d'

def listAll : List NSNodeSet := d.m_datas.filterMap fun i => d.sets[i.2]?

end

end NSDomain

abbrev NSDomainSet := List (String × NSDomain)

end Sylar
