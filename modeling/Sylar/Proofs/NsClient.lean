import Sylar.Proofs.SharedNodes
import Sylar.Spec.NsClient

/-! What a client has is always what one table of the server had, for the domains it asked for: never a
mixture of two. -/

namespace Sylar

open Lib

namespace NameServerModule

variable {R : Type} [DecidableEq R] {inet_addr : String → UInt32} {s s' : NameServerModule R}

/-- A table whose nodes can be sent and read back. -/
structure Good (inet_addr : String → UInt32) (table : NSDomainSet) : Prop where
  sound : table.Sound
  made : ∀ d c n x, table.node d c n = some x → Made inet_addr x
  valid : ∀ d c n x, table.node d c n = some x → x.m_id >>> 32 ≠ 0

theorem checkInfo_valid {info : RegisterInfo} {node : NSNode} {domain : String}
    (h : checkInfo inet_addr info = .ok (node, domain)) : node.m_id >>> 32 ≠ 0 := by
  unfold checkInfo at h
  split at h
  · cases h
  · split at h
    · cases h
    · split at h
      · cases h
      · split at h
        · cases h
        · split at h
          · cases h
          · split at h
            · cases h
            · simp only at h
              split at h
              · cases h
              · next hid =>
                cases h
                exact hid

theorem registerInfos_valid {old_value v : Option NSClientInfo} {infos : List RegisterInfo}
    (h : registerInfos inet_addr old_value none infos = .ok v) :
    ∀ info, v = some info → info.m_node.m_id >>> 32 ≠ 0 := by
  intro info hv
  cases infos with
  | nil =>
    cases h
    cases hv
  | cons i infos =>
    unfold registerInfos at h
    split at h
    · cases h
    · next first hfirst =>
      obtain ⟨node, domain, hcheck, -, hnode, -⟩ := registerInfo_ok hfirst
      obtain ⟨info', hv', hinfo, -⟩ := registerInfos_some h
      cases hv'.symm.trans hv
      rw [hinfo, hnode]
      exact checkInfo_valid hcheck

def Kept (inet_addr : String → UInt32) (s : NameServerModule R) : Prop :=
  (∃ latest, Watched.Inv inet_addr ⟨s, latest⟩) ∧
    ∀ d c n x, s.m_domains.node d c n = some x → x.m_id >>> 32 ≠ 0

theorem Kept.init : Kept inet_addr (init : NameServerModule R) :=
  ⟨⟨_, Watched.Inv.init⟩, fun _ _ _ _ h => by cases h⟩

theorem Kept.good (h : Kept inet_addr s) : Good inet_addr s.m_domains := by
  obtain ⟨⟨latest, hinv⟩, hvalid⟩ := h
  exact ⟨hinv.sound, hinv.made, hvalid⟩

/-- A node that is there was there before, or is that of the registration. -/
theorem valid_set (hinv : ∃ latest, Watched.Inv inet_addr ⟨s, latest⟩)
    (hvalid : ∀ d c n x, s.m_domains.node d c n = some x → x.m_id >>> 32 ≠ 0) (rs : R) (isConnected : Bool)
    {value : Option NSClientInfo} (hid : ∀ before info, s.get rs = some before → value = some info →
      before.m_node.m_id = info.m_node.m_id) (hvalue : ∀ info, value = some info → info.m_node.m_id >>> 32 ≠ 0)
    (d : String) (c : UInt32) (n : UInt64) (x : NSNode)
    (hx : (s.set rs isConnected value).m_domains.node d c n = some x) : x.m_id >>> 32 ≠ 0 := by
  obtain ⟨latest, hinv⟩ := hinv
  rcases ((set_node hinv.sound isConnected hid).2 d c n x).mp hx with
    ⟨info, hinfo, -, -, ⟨-, hold⟩ | ⟨-, rfl⟩⟩ | ⟨-, -, hold⟩
  · exact hvalid d c n x hold
  · cases isConnected with
    | true => exact hvalue info hinfo
    | false => cases hinfo
  · exact hvalid d c n x hold

theorem Kept.step (h : Kept inet_addr s) {call : Call R} (hs : s.step inet_addr call = .ok s') :
    Kept inet_addr s' := by
  obtain ⟨⟨latest, hinv⟩, hvalid⟩ := h
  have hstep : Watched.step inet_addr ⟨s, latest⟩ call = .ok ⟨s', Watched.register inet_addr ⟨s, latest⟩ call⟩ := by
    unfold Watched.step
    simp only [hs]
  refine ⟨⟨_, Watched.step_inv hinv hstep⟩, ?_⟩
  cases call with
  | handleRegister rs isConnected rr =>
    simp only [NameServerModule.step] at hs
    split at hs
    · cases hs
      exact hvalid
    · next s'' hreg =>
      cases hs
      unfold handleRegister at hreg
      split at hreg
      · cases hreg
      · split at hreg
        · cases hreg
        · next infos value hinfos =>
          cases hreg
          obtain ⟨-, hvalue⟩ := registerInfos_none hinfos
          exact valid_set ⟨latest, hinv⟩ hvalid rs isConnected
            (fun before info hbefore hinfo => (hvalue info hinfo).2 before hbefore)
            (registerInfos_valid hinfos)
  | onDisconnect rs isConnected =>
    cases hs
    exact valid_set ⟨latest, hinv⟩ hvalid rs isConnected (fun _ _ _ h => by cases h) (fun _ h => by cases h)

end NameServerModule

namespace NSClient

open NameServerModule (Good Made)
open NameServerModule.Watched (loopback)

variable {inet_addr : String → UInt32} {table : NSDomainSet} {c : NSClient}

theorem nodeOf_sent {x : NSNode} (h : Made inet_addr x) :
    nodeOf inet_addr ⟨some x.m_ip, some x.m_port.toUInt32, some x.m_weight⟩ = x := by
  have hport : x.m_port.toUInt32.toUInt16 = x.m_port := UInt16.toUInt16_toUInt32 x.m_port
  unfold nodeOf NSNode.new
  simp only [Option.getD_some, hport]
  rw [← h]

/-- The last of the nodes with an id that has an address. -/
def latest (inet_addr : String → UInt32) (nodes : List NodeMessage) (id : UInt64) : Option NSNode :=
  ((nodes.map (nodeOf inet_addr)).filter fun x : NSNode => x.m_id >>> 32 ≠ 0).reverse.find?
    fun x : NSNode => x.m_id = id

theorem latest_append (nodes nodes' : List NodeMessage) (id : UInt64) : latest inet_addr (nodes ++ nodes') id =
    (latest inet_addr nodes' id).or (latest inet_addr nodes id) := by
  simp [latest]

theorem latest_cons (n : NodeMessage) (nodes : List NodeMessage) (id : UInt64) :
    latest inet_addr (n :: nodes) id = (latest inet_addr nodes id).or (latest inet_addr [n] id) :=
  latest_append [n] nodes id

theorem latest_singleton (n : NodeMessage) (id : UInt64) : latest inet_addr [n] id =
    if (nodeOf inet_addr n).m_id >>> 32 ≠ 0 ∧ (nodeOf inet_addr n).m_id = id then some (nodeOf inet_addr n)
    else none := by
  by_cases hvalid : (nodeOf inet_addr n).m_id >>> 32 = 0
  · simp [latest, hvalid]
  · simp [latest, hvalid, List.find?_cons]
    split <;> simp_all

theorem addNodes_node (cmd : UInt32) (nodes : List NodeMessage) : ∀ {d : NSDomain}, d.Sound →
    (addNodes inet_addr cmd d nodes).Sound ∧ (addNodes inet_addr cmd d nodes).m_domain = d.m_domain ∧
      ∀ cmd' id, (addNodes inet_addr cmd d nodes).node cmd' id =
        if cmd = cmd' then (latest inet_addr nodes id).or (d.node cmd' id) else d.node cmd' id := by
  induction nodes with
  | nil =>
    intro d h
    exact ⟨h, rfl, fun cmd' id => by simp [addNodes, latest]⟩
  | cons n nodes ih =>
    intro d h
    by_cases hvalid : (nodeOf inet_addr n).m_id >>> 32 = 0
    · have hcons : addNodes inet_addr cmd d (n :: nodes) = addNodes inet_addr cmd d nodes := by
        unfold addNodes
        rw [List.foldl_cons, if_pos hvalid]
      obtain ⟨hsound, hname, hnode⟩ := ih h
      rw [hcons]
      refine ⟨hsound, hname, fun cmd' id => ?_⟩
      simp [hnode, latest_cons n nodes, latest_singleton, hvalid]
    · have hcons : addNodes inet_addr cmd d (n :: nodes) =
          addNodes inet_addr cmd (d.add cmd (nodeOf inet_addr n)) nodes := by
        unfold addNodes
        rw [List.foldl_cons, if_neg hvalid]
      obtain ⟨hsound, hname, hnode⟩ := ih (h.add cmd (nodeOf inet_addr n))
      rw [hcons]
      refine ⟨hsound, hname.trans (NSDomain.m_domain_add d cmd _), fun cmd' id => ?_⟩
      rw [hnode, NSDomain.node_add h, latest_cons, latest_singleton]
      by_cases hcmd : cmd = cmd'
      · by_cases hid : (nodeOf inet_addr n).m_id = id
        · subst hid
          simp [hcmd, hvalid]
        · simp [hcmd, hid]
      · simp [hcmd]

def Lists (inet_addr : String → UInt32) (nodes : List NodeMessage) (T : UInt64 → Option NSNode) : Prop :=
  ∀ n ∈ nodes, T (nodeOf inet_addr n).m_id = some (nodeOf inet_addr n) ∧ (nodeOf inet_addr n).m_id >>> 32 ≠ 0

theorem Lists.latest {T : UInt64 → Option NSNode} {nodes : List NodeMessage} (h : Lists inet_addr nodes T)
    (id : UInt64) : (∃ n ∈ nodes, (nodeOf inet_addr n).m_id = id) ∧ NSClient.latest inet_addr nodes id = T id ∨
      (∀ n ∈ nodes, (nodeOf inet_addr n).m_id ≠ id) ∧ NSClient.latest inet_addr nodes id = none := by
  induction nodes with
  | nil => exact .inr ⟨fun n hn => (by cases hn), rfl⟩
  | cons n nodes ih =>
    obtain ⟨hT, hvalid⟩ := h n List.mem_cons_self
    rw [latest_cons, latest_singleton]
    rcases ih fun m hm => h m (List.mem_cons_of_mem n hm) with ⟨⟨m, hm, rfl⟩, heq⟩ | ⟨hnot, heq⟩
    · obtain ⟨hm', -⟩ := h m (List.mem_cons_of_mem n hm)
      exact .inl ⟨⟨m, List.mem_cons_of_mem n hm, rfl⟩, by rw [heq, hm', Option.some_or]⟩
    · rw [heq, Option.none_or]
      by_cases hid : (nodeOf inet_addr n).m_id = id
      · exact .inl ⟨⟨n, List.mem_cons_self, hid⟩, by rw [if_pos ⟨hvalid, hid⟩, ← hid, hT]⟩
      · refine .inr ⟨fun m hm => ?_, if_neg fun hn => hid hn.2⟩
        rcases List.mem_cons.mp hm with rfl | hm
        · exact hid
        · exact hnot m hm

/-- An info is all that the table has under a domain and a command. -/
structure Describes (inet_addr : String → UInt32) (table : NSDomainSet) (i : NodeInfo) : Prop where
  lists : Lists inet_addr i.nodes (table.node i.domain i.cmd)
  all : ∀ id x, table.node i.domain i.cmd id = some x → ∃ n ∈ i.nodes, (nodeOf inet_addr n).m_id = id

theorem getOrNew_sound {domains : NSDomainSet} (h : domains.Sound) (domain : String) :
    (getOrNew domains domain).Sound ∧ (getOrNew domains domain).m_domain = domain ∧
      ∀ cmd id, (getOrNew domains domain).node cmd id = domains.node domain cmd id := by
  unfold getOrNew NSDomainSet.node
  cases hfind : Assoc.find domains domain with
  | none => exact ⟨.new domain, rfl, fun cmd id => NSDomain.node_new domain cmd id⟩
  | some d =>
    obtain ⟨hsound, hname⟩ := h domain d hfind
    exact ⟨hsound, hname, fun cmd id => rfl⟩

theorem addInfo_node {domains : NSDomainSet} (hs : domains.Sound) (i : NodeInfo) :
    (addInfo inet_addr c domains i).Sound ∧ ∀ d cmd id, (addInfo inet_addr c domains i).node d cmd id =
      if c.hasQueryDomain d = true ∧ i.domain = d ∧ i.cmd = cmd then
        (latest inet_addr i.nodes id).or (domains.node d cmd id)
      else domains.node d cmd id := by
  unfold addInfo
  by_cases h : c.hasQueryDomain i.domain = true
  · obtain ⟨hnew, hname, hold⟩ := getOrNew_sound hs i.domain
    obtain ⟨hsound, hname', hnode⟩ := addNodes_node i.cmd i.nodes hnew
    rw [if_pos h]
    refine ⟨NameServerModule.sound_set hs hsound (hname'.trans hname), fun d cmd id => ?_⟩
    rw [NameServerModule.node_set]
    by_cases hd : i.domain = d
    · subst hd
      rw [if_pos rfl, hnode, hold]
      simp [h]
    · rw [if_neg hd, if_neg fun hi => hd hi.2.1]
  · rw [if_neg h]
    refine ⟨hs, fun d cmd id => (if_neg ?_).symm⟩
    rintro ⟨hd, rfl, -⟩
    exact h hd

/-- A response on its way. What is made of it so far is, under each domain and command, all that the
table has or nothing, and what is missing is to come. -/
structure Goes (inet_addr : String → UInt32) (table : NSDomainSet) (asked : List String)
    (consulted : List (List String)) (infos : List NodeInfo) (domains : NSDomainSet) : Prop where
  describes : ∀ i ∈ infos, Describes inet_addr table i ∧ i.domain ∈ asked
  sound : domains.Sound
  whole : ∀ d cmd, (∀ id, domains.node d cmd id = none) ∨
    d ∈ asked ∧ ∀ id, domains.node d cmd id = table.node d cmd id
  rest : ∀ d ∈ asked, (∀ q ∈ consulted, d ∈ q) → ∀ cmd,
    (∀ id, domains.node d cmd id = table.node d cmd id) ∨ ∃ i ∈ infos, i.domain = d ∧ i.cmd = cmd

/-- With the info, what was there or nothing becomes all that the table has. -/
theorem Describes.or {domains : NSDomainSet} {i : NodeInfo} (hi : Describes inet_addr table i)
    (hwhole : (∀ id, domains.node i.domain i.cmd id = none) ∨
      ∀ id, domains.node i.domain i.cmd id = table.node i.domain i.cmd id) (id : UInt64) :
    (latest inet_addr i.nodes id).or (domains.node i.domain i.cmd id) =
      table.node i.domain i.cmd id := by
  rcases hi.lists.latest id with ⟨⟨n, hn, rfl⟩, heq⟩ | ⟨hnot, heq⟩
  · rw [heq, (hi.lists n hn).1, Option.some_or]
  · rw [heq, Option.none_or]
    rcases hwhole with hnone | hall
    · cases htable : table.node i.domain i.cmd id with
      | none => exact hnone id
      | some x =>
        obtain ⟨n, hn, hid⟩ := hi.all id x htable
        exact absurd hid (hnot n hn)
    · exact hall id

theorem Goes.addInfo {asked : List String} {consulted : List (List String)} {i : NodeInfo}
    {infos : List NodeInfo} {domains : NSDomainSet}
    (h : Goes inet_addr table asked consulted (i :: infos) domains) (c : NSClient) :
    Goes inet_addr table asked (consulted ++ [c.m_queryDomains]) infos
      (NSClient.addInfo inet_addr c domains i) := by
  obtain ⟨hi, hasked⟩ := h.describes i List.mem_cons_self
  obtain ⟨hsound, hnode⟩ := @addInfo_node inet_addr c _ h.sound i
  refine ⟨fun i' hi' => h.describes i' (List.mem_cons_of_mem i hi'), hsound, fun d cmd => ?_,
    fun d hd hq cmd => ?_⟩
  · simp only [hnode]
    split
    · next hself =>
      obtain ⟨-, rfl, rfl⟩ := hself
      exact .inr ⟨hasked, hi.or ((h.whole i.domain i.cmd).imp_right And.right)⟩
    · exact h.whole d cmd
  · have hquery : d ∈ c.m_queryDomains := hq _ (List.mem_append_right _ (List.mem_singleton.mpr rfl))
    have hrest := h.rest d hd (fun q hq' => hq q (List.mem_append_left _ hq')) cmd
    simp only [hnode]
    split
    · next hself =>
      obtain ⟨-, rfl, rfl⟩ := hself
      exact .inl (hi.or ((h.whole i.domain i.cmd).imp_right And.right))
    · next hself =>
      refine hrest.imp_right fun ⟨i', hi', hdom, hcmd⟩ => ⟨i', ?_, hdom, hcmd⟩
      rcases List.mem_cons.mp hi' with rfl | hi'
      · exact absurd ⟨decide_eq_true hquery, hdom, hcmd⟩ hself
      · exact hi'

theorem foldl_del_nodes (cmd : UInt32) (nodes : List NodeMessage) : ∀ {d : NSDomain}, d.Sound →
    (nodes.foldl (fun d n => d.del cmd (nodeOf inet_addr n).m_id) d).Sound ∧
      (nodes.foldl (fun d n => d.del cmd (nodeOf inet_addr n).m_id) d).m_domain = d.m_domain ∧
      ∀ cmd' id, (nodes.foldl (fun d n => d.del cmd (nodeOf inet_addr n).m_id) d).node cmd' id =
        if cmd = cmd' ∧ ∃ n ∈ nodes, (nodeOf inet_addr n).m_id = id then none else d.node cmd' id := by
  induction nodes with
  | nil =>
    intro d h
    exact ⟨h, rfl, fun cmd' id => by simp⟩
  | cons n nodes ih =>
    intro d h
    obtain ⟨hsound, hname, hnode⟩ := ih (h.del cmd (nodeOf inet_addr n).m_id)
    refine ⟨hsound, hname.trans (NSDomain.m_domain_del d cmd _), fun cmd' id => ?_⟩
    rw [List.foldl_cons, hnode, NSDomain.node_del h]
    by_cases hcmd : cmd = cmd'
    · by_cases hid : (nodeOf inet_addr n).m_id = id
      · simp [hcmd, hid]
      · simp [hcmd, hid]
    · simp [hcmd]

theorem delInfo_node {domains : NSDomainSet} (hs : domains.Sound) (i : NodeInfo) :
    (delInfo inet_addr c domains i).Sound ∧ ∀ d cmd id, (delInfo inet_addr c domains i).node d cmd id =
      if c.hasQueryDomain d = true ∧ i.domain = d ∧ i.cmd = cmd ∧ ∃ n ∈ i.nodes, (nodeOf inet_addr n).m_id = id
      then none else domains.node d cmd id := by
  unfold delInfo
  by_cases h : c.hasQueryDomain i.domain = true
  · rw [if_pos h]
    cases hfind : Assoc.find domains i.domain with
    | none =>
      refine ⟨hs, fun d cmd id => ?_⟩
      simp only
      split
      · next hself =>
        obtain ⟨-, rfl, -⟩ := hself
        unfold NSDomainSet.node
        rw [hfind]
        rfl
      · rfl
    | some dom =>
      obtain ⟨hdom, hname⟩ := hs i.domain dom hfind
      obtain ⟨hsound, hname', hnode⟩ := @foldl_del_nodes inet_addr i.cmd i.nodes _ hdom
      refine ⟨NameServerModule.sound_set hs hsound (hname'.trans hname), fun d cmd id => ?_⟩
      simp only
      rw [NameServerModule.node_set]
      by_cases hd : i.domain = d
      · subst hd
        have hold : domains.node i.domain cmd id = dom.node cmd id := by
          unfold NSDomainSet.node
          rw [hfind]
          rfl
        rw [if_pos rfl, hnode, hold]
        simp [h]
      · rw [if_neg hd, if_neg fun hi => hd hi.2.1]
  · rw [if_neg h]
    refine ⟨hs, fun d cmd id => (if_neg ?_).symm⟩
    rintro ⟨hd, rfl, -⟩
    exact h hd

/-- What the infos list under a domain and a command. -/
def listed (infos : List NodeInfo) (d : String) (cmd : UInt32) : List NodeMessage :=
  (infos.filter fun i => i.domain = d ∧ i.cmd = cmd).flatMap NodeInfo.nodes

theorem listed_cons (i : NodeInfo) (infos : List NodeInfo) (d : String) (cmd : UInt32) :
    listed (i :: infos) d cmd =
      if i.domain = d ∧ i.cmd = cmd then i.nodes ++ listed infos d cmd else listed infos d cmd := by
  unfold listed
  rw [List.filter_cons]
  simp only [decide_eq_true_eq]
  split <;> rfl

theorem foldl_addInfo (infos : List NodeInfo) : ∀ {domains : NSDomainSet}, domains.Sound →
    ∀ d cmd id, (infos.foldl (addInfo inet_addr c) domains).node d cmd id =
      if c.hasQueryDomain d = true then
        (latest inet_addr (listed infos d cmd) id).or (domains.node d cmd id)
      else domains.node d cmd id := by
  induction infos with
  | nil =>
    intro domains _ d cmd id
    simp [listed, latest]
  | cons i infos ih =>
    intro domains hs d cmd id
    obtain ⟨hsound, hnode⟩ := @addInfo_node inet_addr c _ hs i
    rw [List.foldl_cons, ih hsound, hnode, listed_cons]
    by_cases hd : c.hasQueryDomain d = true
    · by_cases hself : i.domain = d ∧ i.cmd = cmd
      · simp [hd, hself, latest_append, Option.or_assoc]
      · simp [hd, hself]
    · simp [hd]

theorem foldl_delInfo (infos : List NodeInfo) : ∀ {domains : NSDomainSet}, domains.Sound →
    (infos.foldl (delInfo inet_addr c) domains).Sound ∧
      ∀ d cmd id, (infos.foldl (delInfo inet_addr c) domains).node d cmd id =
        if c.hasQueryDomain d = true ∧ ∃ n ∈ listed infos d cmd, (nodeOf inet_addr n).m_id = id then none
        else domains.node d cmd id := by
  induction infos with
  | nil =>
    intro domains hs
    exact ⟨hs, fun d cmd id => by simp [listed]⟩
  | cons i infos ih =>
    intro domains hs
    obtain ⟨hsound, hnode⟩ := @delInfo_node inet_addr c _ hs i
    obtain ⟨hsound', hnode'⟩ := ih hsound
    refine ⟨hsound', fun d cmd id => ?_⟩
    rw [List.foldl_cons, hnode', hnode, listed_cons]
    by_cases hd : c.hasQueryDomain d = true
    · by_cases hself : i.domain = d ∧ i.cmd = cmd
      · simp only [hd, hself, true_and, and_self, if_true, List.mem_append, or_and_right, exists_or]
        rw [← ite_or]
        exact if_congr or_comm rfl rfl
      · have hne : ¬ (i.domain = d ∧ i.cmd = cmd ∧ ∃ n ∈ i.nodes, (nodeOf inet_addr n).m_id = id) :=
          fun hi => hself ⟨hi.1, hi.2.1⟩
        simp [hd, hself, hne]
    · simp [hd]

/-- After a notification a domain that is queried has the last of the updates with an address, not what
was deleted, and else what it had; the other domains are as they were. -/
theorem onNotify_node (hs : c.m_domains.Sound) (nm : NotifyMessage) (d : String) (cmd : UInt32) (id : UInt64) :
    (c.onNotify inet_addr nm).m_domains.node d cmd id =
      if c.hasQueryDomain d = true then
        (latest inet_addr (listed nm.updates d cmd) id).or
          (if ∃ n ∈ listed nm.dels d cmd, (nodeOf inet_addr n).m_id = id then none
            else c.m_domains.node d cmd id)
      else c.m_domains.node d cmd id := by
  obtain ⟨hsound, hnode⟩ := @foldl_delInfo inet_addr c nm.dels _ hs
  unfold onNotify
  rw [foldl_addInfo nm.updates hsound, hnode]
  by_cases hd : c.hasQueryDomain d = true
  · simp [hd]
  · simp [hd]

/-- A node that is deleted and updated at once is there with its new weight. -/
theorem onNotify_node_weight :
    (onNotify loopback ⟨["d"], Assoc.set [] "d" ((NSDomain.new "d").add 1
        (.new loopback "127.0.0.1" 80 1))⟩
      ⟨[⟨"d", 1, [⟨some "127.0.0.1", some 80, some 1⟩]⟩],
        [⟨"d", 1, [⟨some "127.0.0.1", some 80, some 2⟩]⟩]⟩).m_domains.node "d" 1
      (NSNode.GetID loopback "127.0.0.1" 80) =
        some (.new loopback "127.0.0.1" 80 2) := by
  have hs : NSDomainSet.Sound (Assoc.set [] "d" ((NSDomain.new "d").add 1
      (.new loopback "127.0.0.1" 80 1))) :=
    NameServerModule.sound_set (fun _ _ h => by cases h) ((NSDomain.Sound.new "d").add 1 _)
      (NSDomain.m_domain_add _ 1 _)
  exact (onNotify_node (c := ⟨["d"], _⟩) hs _ "d" 1 _).trans (by decide)

end NSClient

namespace NameServerModule

open NSClient (nodeOf Describes Goes)

variable {R : Type} {inet_addr : String → UInt32} {s : NameServerModule R}

theorem mem_handleQuery (h : s.m_domains.Sound) {asked : List String} {i : NodeInfo} :
    i ∈ s.handleQuery asked ↔ ∃ d ∈ asked, ∃ dom, Assoc.find s.m_domains d = some dom ∧
      ∃ set ∈ dom.listAll, i = ⟨d, set.m_cmd, set.listAll.map fun x =>
        ⟨some x.m_ip, some x.m_port.toUInt32, some x.m_weight⟩⟩ := by
  simp only [handleQuery, List.mem_flatMap, List.mem_filterMap, List.mem_dedup, List.mem_map]
  constructor
  · rintro ⟨dom, ⟨d, hd, hdom⟩, set, hset, rfl⟩
    exact ⟨d, hd, dom, hdom, set, hset, by rw [(h d dom hdom).2]⟩
  · rintro ⟨d, hd, dom, hdom, set, hset, rfl⟩
    exact ⟨dom, ⟨d, hd, hdom⟩, set, hset, by rw [(h d dom hdom).2]⟩

theorem Good.goes (h : Good inet_addr s.m_domains) (asked : List String) :
    Goes inet_addr s.m_domains asked [] (s.handleQuery asked) [] := by
  have hnode : ∀ d dom, Assoc.find s.m_domains d = some dom → ∀ cmd id,
      s.m_domains.node d cmd id = dom.node cmd id := by
    intro d dom hdom cmd id
    unfold NSDomainSet.node
    rw [hdom]
    rfl
  refine ⟨fun i hi => ?_, fun _ _ hfind => (by cases hfind), fun _ _ => .inl fun _ => rfl,
    fun d hd _ cmd => ?_⟩
  · obtain ⟨d, hd, dom, hdom, set, hset, rfl⟩ := (mem_handleQuery h.sound).mp hi
    have hsound := (h.sound d dom hdom).1
    have hmem : ∀ x ∈ set.listAll, s.m_domains.node d set.m_cmd x.m_id = some x := by
      intro x hx
      rw [hnode d dom hdom]
      exact hsound.node_iff.mpr ⟨set, hset, rfl, hx, rfl⟩
    refine ⟨⟨fun n hn => ?_, fun id x hx => ?_⟩, hd⟩
    · obtain ⟨x, hx, rfl⟩ := List.mem_map.mp hn
      rw [NSClient.nodeOf_sent (h.made d _ _ x (hmem x hx))]
      exact ⟨hmem x hx, h.valid d _ _ x (hmem x hx)⟩
    · have hthere := hx
      rw [hnode d dom hdom] at hx
      obtain ⟨set', hset', hcmd, hx', hid⟩ := hsound.node_iff.mp hx
      obtain ⟨ns, hget, hlook⟩ := hsound.mem_listAll.mp hset
      obtain ⟨ns', hget', hlook'⟩ := hsound.mem_listAll.mp hset'
      cases hget.symm.trans (hcmd ▸ hget')
      cases hlook.symm.trans hlook'
      refine ⟨_, List.mem_map_of_mem hx', ?_⟩
      rw [NSClient.nodeOf_sent (h.made d _ _ x hthere)]
      exact hid
  · by_cases hany : ∃ id x, s.m_domains.node d cmd id = some x
    · obtain ⟨id, x, hx⟩ := hany
      obtain ⟨dom, hdom, hx⟩ := Option.bind_eq_some_iff.mp hx
      obtain ⟨set, hset, hcmd, -⟩ := (h.sound d dom hdom).1.node_iff.mp hx
      exact .inr ⟨_, (mem_handleQuery h.sound).mpr ⟨d, hd, dom, hdom, set, hset, rfl⟩, rfl, hcmd⟩
    · refine .inl fun id => ?_
      cases hx : s.m_domains.node d cmd id with
      | none => rfl
      | some x => exact absurd ⟨id, x, hx⟩ hany

end NameServerModule

namespace NsNetwork

open NameServerModule (Good Kept)
open NSClient (Goes)

variable {R K : Type} [DecidableEq R] {inet_addr : String → UInt32} {s s' : NsNetwork R K}

/-- What `domains` has is, under each domain and command, nothing or all that the table numbered
`v.table` has. Nothing of a domain is missing that was asked for and was never taken out. The table is
not older than the request. -/
def OneTable (tables : List NSDomainSet) (v : NsView) (domains : NSDomainSet) : Prop :=
  v.sent ≤ v.table + 1 ∧ ∃ table, tables[v.table]? = some table ∧
    (∀ d cmd, (∀ id, domains.node d cmd id = none) ∨
      d ∈ v.asked ∧ ∀ id, domains.node d cmd id = table.node d cmd id) ∧
    ∀ d ∈ v.asked, (∀ q ∈ v.consulted, d ∈ q) → ∀ cmd id,
      domains.node d cmd id = table.node d cmd id

/-- Every client has what one table of the server had. -/
def Snapshots (s : NsNetwork R K) : Prop :=
  s.tables.getLast? = some s.server.m_domains ∧
    ∀ k, OneTable s.tables (s.views k) (s.clients k).m_domains

structure Inv (inet_addr : String → UInt32) (s : NsNetwork R K) : Prop where
  kept : Kept inet_addr s.server
  last : s.tables.getLast? = some s.server.m_domains
  requests : ∀ q ∈ s.requests, q.sent ≤ s.tables.length
  responses : ∀ r ∈ s.responses, r.sent ≤ r.table + 1 ∧ ∃ table, s.tables[r.table]? = some table ∧
    Goes inet_addr table r.asked r.consulted r.infos r.domains
  clients : ∀ k, OneTable s.tables (s.views k) (s.clients k).m_domains

theorem OneTable.init : OneTable [[]] ⟨0, [], 0, []⟩ [] :=
  ⟨Nat.zero_le 1, [], rfl, fun _ _ => .inl fun _ => rfl, fun _ h => by cases h⟩

theorem OneTable.append {tables : List NSDomainSet} {v : NsView} {domains : NSDomainSet}
    (h : OneTable tables v domains) (table : NSDomainSet) : OneTable (tables ++ [table]) v domains := by
  obtain ⟨hsent, T, hT, hrest⟩ := h
  exact ⟨hsent, T, look_append_old hT table, hrest⟩

theorem Inv.init : Inv inet_addr (init : NsNetwork R K) where
  kept := .init
  last := rfl
  requests := fun _ h => by cases h
  responses := fun _ h => by cases h
  clients := fun _ => .init

theorem Inv.serve (h : Inv inet_addr s) {call : NameServerModule.Call R} {server : NameServerModule R}
    (hserver : s.server.step inet_addr call = .ok server) :
    Inv inet_addr { s with server := server, tables := s.tables ++ [server.m_domains] } where
  kept := h.kept.step hserver
  last := by simp
  requests := fun q hq => by
    have hsent := h.requests q hq
    rw [List.length_append]
    omega
  responses := fun r hr => by
    obtain ⟨hsent, table, htable, hgoes⟩ := h.responses r hr
    exact ⟨hsent, table, look_append_old htable _, hgoes⟩
  clients := fun k => (h.clients k).append _

theorem Inv.handle (h : Inv inet_addr s) {j : ℕ} {q : NsRequest K} (hq : s.requests[j]? = some q) :
    Inv inet_addr { s with
      requests := s.requests.eraseIdx j
      responses := s.responses ++ [⟨q.client, s.server.handleQuery q.domains, [],
        s.tables.length - 1, q.domains, q.sent, []⟩] } where
  kept := h.kept
  last := h.last
  requests := fun q' hq' => h.requests q' (List.mem_of_mem_eraseIdx hq')
  responses := fun r hr => by
    rcases List.mem_append.mp hr with hr | hr
    · exact h.responses r hr
    · cases List.mem_singleton.mp hr
      have hsent := h.requests q (List.mem_of_getElem? hq)
      refine ⟨by simp only; omega, s.server.m_domains, ?_, h.kept.good.goes q.domains⟩
      rw [← List.getLast?_eq_getElem?]
      exact h.last
  clients := h.clients

variable [DecidableEq K]

theorem Inv.setQueryDomains (h : Inv inet_addr s) (k : K) (v : List String) :
    Inv inet_addr (s.setQueryDomains k v) where
  kept := h.kept
  last := h.last
  requests := h.requests
  responses := h.responses
  clients := fun k' => by
    show OneTable s.tables (s.views k') (Function.update s.clients k _ k').m_domains
    rw [Function.update_apply]
    split
    · next heq => exact heq ▸ h.clients k
    · exact h.clients k'

theorem Inv.goThrough (h : Inv inet_addr s) {j : ℕ} {r : NsResponse K} (hr : s.responses[j]? = some r) :
    Inv inet_addr (s.goThrough inet_addr j r) := by
  obtain ⟨hsent, table, htable, hgoes⟩ := h.responses r (List.mem_of_getElem? hr)
  unfold NsNetwork.goThrough
  cases hinfos : r.infos with
  | cons i infos =>
    rw [hinfos] at hgoes
    refine { h with responses := fun r' hr' => ?_ }
    rcases List.mem_or_eq_of_mem_set hr' with hr' | rfl
    · exact h.responses r' hr'
    · exact ⟨hsent, table, htable, hgoes.addInfo _⟩
  | nil =>
    rw [hinfos] at hgoes
    refine { h with
      responses := fun r' hr' => h.responses r' (List.mem_of_mem_eraseIdx hr'), clients := fun k => ?_ }
    simp only [Function.update_apply]
    split
    · refine ⟨hsent, table, htable, hgoes.whole, fun d hd hq cmd => ?_⟩
      rcases hgoes.rest d hd hq cmd with heq | ⟨i, hi, -⟩
      · exact heq
      · cases hi
    · exact h.clients k

theorem Inv.step (h : Inv inet_addr s) {m : Move R K} (hs : s.step inet_addr m = .ok s') :
    Inv inet_addr s' := by
  cases m with
  | serve call =>
    simp only [NsNetwork.step] at hs
    split at hs
    · cases hs
    · next server hserver =>
      cases hs
      exact h.serve hserver
  | setQueryDomains k v =>
    cases hs
    exact h.setQueryDomains k v.dedup
  | addQueryDomain k domain =>
    cases hs
    exact h.setQueryDomains k _
  | delQueryDomain k domain =>
    cases hs
    exact h.setQueryDomains k _
  | query k =>
    simp only [NsNetwork.step] at hs
    split at hs
    · cases hs
      exact h
    · cases hs
      refine { h with requests := fun q hq => ?_ }
      rcases List.mem_append.mp hq with hq | hq
      · exact h.requests q hq
      · cases List.mem_singleton.mp hq
        exact Nat.le_refl _
  | handle j =>
    simp only [NsNetwork.step] at hs
    split at hs
    · cases hs
    · next q hq =>
      cases hs
      exact h.handle hq
  | goThrough j =>
    simp only [NsNetwork.step] at hs
    split at hs
    · cases hs
    · next r hr =>
      cases hs
      exact h.goThrough hr
  | loseRequest j =>
    cases hs
    exact { h with requests := fun q hq => h.requests q (List.mem_of_mem_eraseIdx hq) }
  | loseResponse j =>
    cases hs
    exact { h with responses := fun r hr => h.responses r (List.mem_of_mem_eraseIdx hr) }

/-- Whatever is lost or late, every client has what one table of the server had, and no table from before
its request. -/
theorem clients_have_one_table (moves : List (Move R K)) :
    Along (NsNetwork.step inet_addr) Snapshots (init : NsNetwork R K) moves := by
  have hinv : Along (NsNetwork.step inet_addr) (Inv inet_addr) (init : NsNetwork R K) moves :=
    along_of_each (Inv inet_addr) _ (fun s m s' h _ hs => h.step hs) moves init .init (each_true _ _)
  exact hinv.mono fun s h => ⟨h.last, h.clients⟩

end NsNetwork

end Sylar
