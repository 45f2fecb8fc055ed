import Sylar.Spec.NameServer

/-! `NSClient` of `NodeService/ns_client.cc`, with the messages between clients and a name server. A
request or a response may be lost and may overtake others. `hasQueryDomain` takes the lock anew for
each info of a response, so a response is gone through in steps. The server is in one registration or
one query at a time. -/

namespace Sylar

open Lib

structure NotifyMessage where
  dels : List NodeInfo
  updates : List NodeInfo
deriving DecidableEq

structure NSClient where
  m_queryDomains : List String
  m_domains : NSDomainSet
deriving DecidableEq

namespace NSClient

variable (inet_addr : String → UInt32)

def init : NSClient := ⟨[], []⟩

def hasQueryDomain (c : NSClient) (domain : String) : Bool := domain ∈ c.m_queryDomains

def nodeOf (n : NodeMessage) : NSNode :=
  NSNode.new inet_addr (n.ip.getD "") (n.port.getD 0).toUInt16 (n.weight.getD 0)

def getOrNew (domains : NSDomainSet) (domain : String) : NSDomain :=
  (Assoc.find domains domain).getD (.new domain)

/-- The loop over the nodes of an info. A node without an address is left out. -/
def addNodes (cmd : UInt32) (d : NSDomain) (nodes : List NodeMessage) : NSDomain :=
  nodes.foldl (fun d n =>
    let node := nodeOf inet_addr n
    if node.m_id >>> 32 = 0 then d else d.add cmd node) d

/-- The body of the loops over infos that add, in `query` and in `onNotify`. -/
def addInfo (c : NSClient) (domains : NSDomainSet) (i : NodeInfo) : NSDomainSet :=
  if c.hasQueryDomain i.domain then
    Assoc.set domains i.domain (addNodes inet_addr i.cmd (getOrNew domains i.domain) i.nodes)
  else domains

/-- The body of the loop of `onNotify` over `dels`. -/
def delInfo (c : NSClient) (domains : NSDomainSet) (i : NodeInfo) : NSDomainSet :=
  if c.hasQueryDomain i.domain then
    match Assoc.find domains i.domain with
    | none => domains
    | some d =>
        Assoc.set domains i.domain
          (i.nodes.foldl (fun d n => d.del i.cmd (nodeOf inet_addr n).m_id) d)
  else domains

def onNotify (c : NSClient) (nm : NotifyMessage) : NSClient :=
  { c with
    m_domains := nm.updates.foldl (addInfo inet_addr c) (nm.dels.foldl (delInfo inet_addr c) c.m_domains) }

end NSClient

/-- A request of a client. `sent` is a record: how many tables the server had had before. -/
structure NsRequest (K : Type) where
  client : K
  domains : List String
  sent : ℕ
deriving DecidableEq

/-- A response on its way or being gone through, with what is left of its infos and what was made of the
others. The rest is a record: the number of the server's table, and of the request's. -/
structure NsResponse (K : Type) where
  client : K
  infos : List NodeInfo
  domains : NSDomainSet
  table : ℕ
  asked : List String
  sent : ℕ
  consulted : List (List String)
deriving DecidableEq

/-- What a client's `m_domains` was made from, as a record: the number of the server's table, how many
there were when it was asked for, the domains asked for, and the `m_queryDomains` that were consulted. -/
structure NsView where
  table : ℕ
  asked : List String
  sent : ℕ
  consulted : List (List String)
deriving DecidableEq

/-- `tables` is a record of all `m_domains` the server has had. -/
structure NsNetwork (R K : Type) where
  server : NameServerModule R
  clients : K → NSClient
  requests : List (NsRequest K)
  responses : List (NsResponse K)
  tables : List NSDomainSet
  views : K → NsView

namespace NsNetwork

variable {R K : Type} [DecidableEq R] [DecidableEq K] (inet_addr : String → UInt32)

inductive Move (R K : Type) where
  | serve (call : NameServerModule.Call R)
  | setQueryDomains (k : K) (v : List String)
  | addQueryDomain (k : K) (domain : String)
  | delQueryDomain (k : K) (domain : String)
  | query (k : K)
  | handle (j : ℕ)
  | goThrough (j : ℕ)
  | loseRequest (j : ℕ)
  | loseResponse (j : ℕ)

def init : NsNetwork R K :=
  ⟨NameServerModule.init, fun _ => .init, [], [], [[]], fun _ => ⟨0, [], 0, []⟩⟩

variable (s : NsNetwork R K)

def setQueryDomains (k : K) (v : List String) : NsNetwork R K :=
  { s with clients := Function.update s.clients k { s.clients k with m_queryDomains := v } }

/-- The next step of going through a response: an info, or the `swap` at the end. -/
def goThrough (j : ℕ) (r : NsResponse K) : NsNetwork R K :=
  match r.infos with
  | i :: infos =>
      { s with responses := s.responses.set j { r with
          infos := infos
          domains := NSClient.addInfo inet_addr (s.clients r.client) r.domains i
          consulted := r.consulted ++ [(s.clients r.client).m_queryDomains] } }
  | [] =>
      { s with
        clients := Function.update s.clients r.client { s.clients r.client with m_domains := r.domains }
        responses := s.responses.eraseIdx j
        views := Function.update s.views r.client ⟨r.table, r.asked, r.sent, r.consulted⟩ }

def step : Move R K → Except StepFault (NsNetwork R K)
  | .serve call =>
      match s.server.step inet_addr call with
      | .error e => .error e
      | .ok server => .ok { s with server := server, tables := s.tables ++ [server.m_domains] }
  | .setQueryDomains k v => .ok (s.setQueryDomains k v.dedup)
  | .addQueryDomain k domain => .ok (s.setQueryDomains k ((s.clients k).m_queryDomains.insert domain))
  | .delQueryDomain k domain => .ok (s.setQueryDomains k ((s.clients k).m_queryDomains.erase domain))
  | .query k =>
      -- without domains there is no request
      if (s.clients k).m_queryDomains = [] then .ok s
      else .ok { s with
        requests := s.requests ++ [⟨k, (s.clients k).m_queryDomains, s.tables.length⟩] }
  | .handle j =>
      match s.requests[j]? with
      | none => .error .notEnabled
      | some q => .ok { s with
          requests := s.requests.eraseIdx j
          responses := s.responses ++ [⟨q.client, s.server.handleQuery q.domains, [],
            s.tables.length - 1, q.domains, q.sent, []⟩] }
  | .goThrough j =>
      match s.responses[j]? with
      | none => .error .notEnabled
      | some r => .ok (s.goThrough inet_addr j r)
  | .loseRequest j => .ok { s with requests := s.requests.eraseIdx j }
  | .loseResponse j => .ok { s with responses := s.responses.eraseIdx j }

end NsNetwork

end Sylar
