import Sylar.Proofs.NameServer
import Sylar.Lib.Partial

/-! The registry is the join of what the sessions have registered. What a session has registered
is read off its requests, not off what the server keeps. -/

namespace Sylar

open Lib

namespace NameServerModule

open Domain2Cmds

variable {R : Type} [DecidableEq R] {inet_addr : String → UInt32}

/-- What a session has registered: its node, with the weight of its first info, and the commands
it listed under each domain. -/
structure Registration where
  node : UInt64
  weight : UInt32
  lists : List (String × UInt32)
deriving DecidableEq

def listed (infos : List RegisterInfo) : List (String × UInt32) :=
  infos.flatMap fun info => info.cmds.map fun cmd => (info.domain.getD "", cmd)

/-- The registration of a request. One without infos is none. -/
def registration (inet_addr : String → UInt32) (infos : List RegisterInfo) : Option Registration :=
  match infos.head?.bind RegisterInfo.node with
  | some ⟨some ip, some port, some weight⟩ =>
      some
        { node := NSNode.GetID inet_addr ip port.toUInt16
          weight := weight
          lists := listed infos }
  | _ => none

/-- The server, with the latest registration of each session. -/
structure Watched (R : Type) where
  server : NameServerModule R
  latest : R → Option Registration

namespace Watched

def init : Watched R := ⟨NameServerModule.init, fun _ => none⟩

/-- A rejected request registers nothing new, and neither does one on a closed stream. -/
def register (inet_addr : String → UInt32) (w : Watched R) : Call R → R → Option Registration
  | .handleRegister rs isConnected rr =>
      match w.server.handleRegister inet_addr rs isConnected rr with
      | .error _ => w.latest
      | .ok _ => Function.update w.latest rs
          (if isConnected then rr.bind (registration inet_addr) else none)
  | .onDisconnect rs _ => Function.update w.latest rs none

def step (inet_addr : String → UInt32) (w : Watched R) (c : Call R) : Except StepFault (Watched R) :=
  match w.server.step inet_addr c with
  | .ok server => .ok ⟨server, register inet_addr w c⟩
  | .error fault => .error fault

/-- No two live sessions are for one node. -/
def Distinct (w : Watched R) : Prop :=
  ∀ rs rs', (w.latest rs).isSome = true →
    (w.latest rs).map Registration.node = (w.latest rs').map Registration.node → rs = rs'

/-- A node is under a command exactly when some session has registered it there, with the
weight that the session gave, and no set is empty. -/
structure Joined (w : Watched R) : Prop where
  nodes : ∀ d c n weight, (∃ x, w.server.m_domains.node d c n = some x ∧ x.m_weight = weight) ↔
    ∃ rs reg, w.latest rs = some reg ∧ reg.node = n ∧ reg.weight = weight ∧ (d, c) ∈ reg.lists
  full : ∀ d dom, Assoc.find w.server.m_domains d = some dom → ∀ c ns set, dom.get c = some ns →
    look dom.sets ns = some set → set.m_datas ≠ []

end Watched

/-- What the server keeps of a session is its registration. -/
structure Same (info : NSClientInfo) (reg : Registration) : Prop where
  node : info.m_node.m_id = reg.node
  weight : info.m_node.m_weight = reg.weight
  lists : ∀ d c, info.m_domain2cmds.Lists d c ↔ (d, c) ∈ reg.lists

theorem listed_iff {v : Option NSClientInfo} {r : Option Registration} (h : Option.Rel Same v r)
    (n : UInt64) (d : String) (c : UInt32) :
    Listed v n d c ↔ ∃ reg, r = some reg ∧ reg.node = n ∧ (d, c) ∈ reg.lists := by
  unfold Listed
  cases h with
  | none => simp
  | some hsame => simp [hsame.node, hsame.lists]

theorem checkInfo_ok {info : RegisterInfo} {node : NSNode} {domain : String}
    (h : checkInfo inet_addr info = .ok (node, domain)) :
    ∃ ip port weight, info.node = some ⟨some ip, some port, some weight⟩ ∧
      info.domain = some domain ∧ node = NSNode.new inet_addr ip port.toUInt16 weight := by
  unfold checkInfo at h
  split at h
  · cases h
  · next message hmessage =>
    split at h
    · cases h
    · next domain' hdomain =>
      split at h
      · cases h
      · obtain ⟨ip, port, weight⟩ := message
        cases ip with
        | none => cases h
        | some ip =>
        cases port with
        | none => cases h
        | some port =>
        cases weight with
        | none => cases h
        | some weight =>
          simp only at h
          split at h
          · cases h
          · cases h
            exact ⟨ip, port, weight, hmessage, hdomain, rfl⟩

theorem lists_foldl_insertCmd (domain : String) (cmds : List UInt32) (m : Domain2Cmds) (d : String)
    (c : UInt32) : (cmds.foldl (fun m cmd => m.insertCmd domain cmd) m).Lists d c ↔
      m.Lists d c ∨ d = domain ∧ c ∈ cmds := by
  induction cmds generalizing m with
  | nil => simp
  | cons cmd cmds ih =>
    rw [List.foldl_cons, ih, lists_insertCmd, List.mem_cons]
    grind

theorem registerInfo_ok {old_value new_value : Option NSClientInfo} {info : RegisterInfo}
    {v : NSClientInfo} (h : registerInfo inet_addr old_value new_value info = .ok v) :
    ∃ node domain, checkInfo inet_addr info = .ok (node, domain) ∧
      (∀ before, old_value = some before → before.m_node.m_id = node.m_id) ∧
      v.m_node = (new_value.map NSClientInfo.m_node).getD node ∧
      ∀ d c, v.m_domain2cmds.Lists d c ↔
        ((new_value.map NSClientInfo.m_domain2cmds).getD ∅).Lists d c ∨ d = domain ∧ c ∈ info.cmds := by
  unfold registerInfo at h
  split at h
  · cases h
  · next node domain hcheck =>
    split at h
    · cases h
    · next hold =>
      split at h
      · cases h
      · cases h
        refine ⟨node, domain, hcheck, ?_, ?_, ?_⟩
        · rintro before rfl
          simpa using hold
        · cases new_value <;> rfl
        · intro d c
          cases new_value <;> exact lists_foldl_insertCmd domain info.cmds _ d c

theorem mem_listed_cons {info : RegisterInfo} {domain : String} (hdomain : info.domain = some domain)
    (infos : List RegisterInfo) (d : String) (c : UInt32) :
    (d, c) ∈ listed (info :: infos) ↔ (d = domain ∧ c ∈ info.cmds) ∨ (d, c) ∈ listed infos := by
  simp only [listed, List.flatMap_cons, List.mem_append, List.mem_map, hdomain, Option.getD_some,
    Prod.mk.injEq]
  refine or_congr_left ⟨?_, ?_⟩
  · rintro ⟨cmd, hcmd, rfl, rfl⟩
    exact ⟨rfl, hcmd⟩
  · rintro ⟨rfl, hcmd⟩
    exact ⟨c, hcmd, rfl, rfl⟩

theorem registerInfos_some {old_value v : Option NSClientInfo} {infos : List RegisterInfo}
    {cur : NSClientInfo} (h : registerInfos inet_addr old_value (some cur) infos = .ok v) :
    ∃ info, v = some info ∧ info.m_node = cur.m_node ∧ ∀ d c, info.m_domain2cmds.Lists d c ↔
      cur.m_domain2cmds.Lists d c ∨ (d, c) ∈ listed infos := by
  induction infos generalizing cur with
  | nil => exact ⟨cur, (Except.ok.inj h).symm, rfl, by simp [listed]⟩
  | cons i infos ih =>
    unfold registerInfos at h
    split at h
    · cases h
    · next next hnext =>
      obtain ⟨node, domain, hcheck, -, hnode, hlists⟩ := registerInfo_ok hnext
      obtain ⟨-, -, -, -, hdomain, -⟩ := checkInfo_ok hcheck
      obtain ⟨info, hv, hinfo, hinfo'⟩ := ih h
      refine ⟨info, hv, hinfo.trans hnode, fun d c => ?_⟩
      rw [hinfo', hlists, mem_listed_cons hdomain, or_assoc]
      rfl

def Made (inet_addr : String → UInt32) (x : NSNode) : Prop :=
  x.m_id = NSNode.GetID inet_addr x.m_ip x.m_port

/-- A request that is accepted leaves its registration, for the node of the one before. -/
theorem registerInfos_none {old_value v : Option NSClientInfo} {infos : List RegisterInfo}
    (h : registerInfos inet_addr old_value none infos = .ok v) :
    Option.Rel Same v (registration inet_addr infos) ∧
      ∀ info, v = some info → Made inet_addr info.m_node ∧
        ∀ before, old_value = some before → before.m_node.m_id = info.m_node.m_id := by
  cases infos with
  | nil =>
    cases h
    exact ⟨.none, by simp⟩
  | cons i infos =>
    unfold registerInfos at h
    split at h
    · cases h
    · next first hfirst =>
      obtain ⟨node, domain, hcheck, hold, hnode, hlists⟩ := registerInfo_ok hfirst
      obtain ⟨ip, port, weight, hi, hdomain, rfl⟩ := checkInfo_ok hcheck
      obtain ⟨info, rfl, hinfo, hinfo'⟩ := registerInfos_some h
      change first.m_node = _ at hnode
      constructor
      · simp only [registration, List.head?_cons, Option.bind_some, hi]
        refine .some ⟨?_, ?_, fun d c => ?_⟩
        · rw [hinfo, hnode]
          rfl
        · rw [hinfo, hnode]
          rfl
        · rw [hinfo', hlists, mem_listed_cons hdomain]
          simp [not_lists_empty]
      · intro info' heq
        cases heq
        rw [hinfo, hnode]
        exact ⟨rfl, hold⟩

namespace Watched

variable {w w' : Watched R} {call : Call R}

structure Inv (inet_addr : String → UInt32) (w : Watched R) : Prop where
  sound : w.server.m_domains.Sound
  same : ∀ rs, Option.Rel Same (w.server.get rs) (w.latest rs)
  made : ∀ d c n x, w.server.m_domains.node d c n = some x → Made inet_addr x

theorem Inv.init : Inv inet_addr (init : Watched R) where
  sound := fun _ _ h => by cases h
  same := fun _ => .none
  made := fun _ _ _ _ h => by cases h

/-- The registration of the session `rs` becomes `reg`, and what the server keeps of it was
`old_value` and becomes `new_value`. -/
structure Sets (inet_addr : String → UInt32) (w w' : Watched R) (rs : R)
    (old_value new_value : Option NSClientInfo) (reg : Option Registration) : Prop where
  latest : w'.latest = Function.update w.latest rs reg
  get : ∀ rs', w'.server.get rs' = if rs = rs' then new_value else w.server.get rs'
  sound : w'.server.m_domains.Sound
  node : ∀ d c id x, w'.server.m_domains.node d c id = some x ↔
    Entered old_value new_value (w.server.m_domains.node d c id) id d c x ∨
      ¬ Listed new_value id d c ∧ ¬ Listed old_value id d c ∧ w.server.m_domains.node d c id = some x
  old_same : Option.Rel Same old_value (w.latest rs)
  new_same : Option.Rel Same new_value reg
  new_made : ∀ info, new_value = some info → Made inet_addr info.m_node
  ids : ∀ before info, old_value = some before → new_value = some info →
    before.m_node.m_id = info.m_node.m_id

theorem sets_set (h : Inv inet_addr w) (rs : R) (isConnected : Bool) {value : Option NSClientInfo}
    {reg : Option Registration} (hsame : Option.Rel Same value reg)
    (hvalue : ∀ info, value = some info → Made inet_addr info.m_node ∧
      ∀ before, w.server.get rs = some before → before.m_node.m_id = info.m_node.m_id) :
    Sets inet_addr w
      ⟨w.server.set rs isConnected value,
        Function.update w.latest rs (if isConnected then reg else none)⟩
      rs (w.server.get rs) (if isConnected then value else none) (if isConnected then reg else none) := by
  obtain ⟨hsound, hnode⟩ := set_node h.sound isConnected
    fun before info hbefore hinfo => (hvalue info hinfo).2 before hbefore
  have hinfo : ∀ info, (if isConnected then value else none) = some info → value = some info := by
    intro info hinfo
    split at hinfo
    · exact hinfo
    · cases hinfo
  refine ⟨rfl, get_set isConnected value, hsound, hnode, h.same rs, ?_, ?_, ?_⟩
  · cases isConnected with
    | true => exact hsame
    | false => exact .none
  · exact fun info heq => (hvalue info (hinfo info heq)).1
  · exact fun before info hbefore heq => (hvalue info (hinfo info heq)).2 before hbefore

theorem step_sets (h : Inv inet_addr w) (hs : step inet_addr w call = .ok w') :
    w' = w ∨ ∃ rs old_value new_value reg, Sets inet_addr w w' rs old_value new_value reg := by
  cases call with
  | handleRegister rs isConnected rr =>
    simp only [step, NameServerModule.step, register] at hs
    cases rr with
    | none =>
      cases hs
      exact .inl rfl
    | some infos =>
      simp only [handleRegister] at hs
      cases hinfos : registerInfos inet_addr (w.server.get rs) none infos with
      | error e =>
        rw [hinfos] at hs
        cases hs
        exact .inl rfl
      | ok value =>
        rw [hinfos] at hs
        cases hs
        obtain ⟨hsame, hvalue⟩ := registerInfos_none hinfos
        exact .inr ⟨rs, _, _, _, sets_set h rs isConnected hsame hvalue⟩
  | onDisconnect rs isConnected =>
    cases hs
    have hsets := sets_set h rs isConnected .none (by simp)
    rw [ite_self] at hsets
    exact .inr ⟨rs, _, _, _, hsets⟩

namespace Sets

variable {rs : R} {old_value new_value : Option NSClientInfo} {reg : Option Registration}

theorem inv (h : Inv inet_addr w) (hsets : Sets inet_addr w w' rs old_value new_value reg) :
    Inv inet_addr w' where
  sound := hsets.sound
  same := by
    intro rs'
    rw [hsets.get, hsets.latest, Function.update_apply]
    by_cases heq : rs = rs'
    · rw [if_pos heq, if_pos heq.symm]
      exact hsets.new_same
    · rw [if_neg heq, if_neg (Ne.symm heq)]
      exact h.same rs'
  made := by
    intro d c n x hx
    rcases (hsets.node d c n x).mp hx with ⟨info, hinfo, -, -, ⟨-, hold⟩ | ⟨-, rfl⟩⟩ | ⟨-, -, hold⟩
    · exact h.made d c n x hold
    · exact hsets.new_made info hinfo
    · exact h.made d c n x hold

theorem latest_self (hsets : Sets inet_addr w w' rs old_value new_value reg) : w'.latest rs = reg := by
  rw [hsets.latest, Function.update_self]

theorem latest_other (hsets : Sets inet_addr w w' rs old_value new_value reg) {rs' : R}
    (hne : rs' ≠ rs) : w'.latest rs' = w.latest rs' := by
  rw [hsets.latest, Function.update_of_ne hne]

omit [DecidableEq R] in
theorem not_listed_other {v : Option NSClientInfo} {w : Watched R} {rs' : R} {r : Registration}
    (hv : Option.Rel Same v (w.latest rs)) (hdistinct : Distinct w) (hr : w.latest rs' = some r)
    (hne : rs' ≠ rs) (d : String) (c : UInt32) : ¬ Listed v r.node d c := by
  rw [listed_iff hv]
  rintro ⟨reg, hreg, hnode, -⟩
  refine hne (hdistinct rs' rs (by simp [hr]) ?_)
  rw [hr, hreg, Option.map_some, Option.map_some, hnode]

/-- Where nothing has changed the session had registered the same before. -/
theorem latest_of_unchanged (hsets : Sets inet_addr w w' rs old_value new_value reg)
    {info : NSClientInfo} (hinfo : new_value = some info) {d : String} {c : UInt32}
    (hunchanged : Unchanged old_value info d c) :
    ∃ r, w.latest rs = some r ∧ r.node = info.m_node.m_id ∧ r.weight = info.m_node.m_weight ∧
      (d, c) ∈ r.lists := by
  obtain ⟨before, hbefore, hlists, hweight⟩ := hunchanged
  have hold := hsets.old_same
  rw [hbefore] at hold
  generalize hlatest : w.latest rs = r at hold
  cases hold with
  | @some _ r hsame =>
    refine ⟨r, rfl, ?_, ?_, (hsame.lists d c).mp hlists⟩
    · rw [← hsame.node]
      exact hsets.ids before info hbefore hinfo
    · rw [← hsame.weight]
      exact hweight

theorem exists_info (hsets : Sets inet_addr w w' rs old_value new_value reg) {r : Registration}
    (hr : w'.latest rs = some r) : ∃ info, new_value = some info ∧ Same info r := by
  have hnew := hsets.new_same
  rw [← hsets.latest_self, hr] at hnew
  cases hnew with
  | some hsame => exact ⟨_, rfl, hsame⟩

/-- A node that is in the registry now, a session has registered. -/
theorem exists_registration (hsets : Sets inet_addr w w' rs old_value new_value reg) (h : Joined w)
    {d : String} {c : UInt32} {n : UInt64} {x : NSNode}
    (hx : w'.server.m_domains.node d c n = some x) :
    ∃ rs' r, w'.latest rs' = some r ∧ r.node = n ∧ r.weight = x.m_weight ∧ (d, c) ∈ r.lists := by
  have hnew : Option.Rel Same new_value (w'.latest rs) := hsets.latest_self ▸ hsets.new_same
  rcases (hsets.node d c n x).mp hx with ⟨info, rfl, rfl, hlists, hx⟩ | ⟨-, hnot, hx⟩
  · obtain ⟨r, hr, hnode, hmem⟩ := (listed_iff hnew _ d c).mp ⟨info, rfl, rfl, hlists⟩
    refine ⟨rs, r, hr, hnode, ?_, hmem⟩
    obtain ⟨info', heq, hsame⟩ := hsets.exists_info hr
    cases heq
    rw [← hsame.weight]
    rcases hx with ⟨hunchanged, hx⟩ | ⟨-, rfl⟩
    · obtain ⟨r', hr', hnode', hweight', hmem'⟩ := hsets.latest_of_unchanged rfl hunchanged
      obtain ⟨y, hy, hyweight⟩ := (h.nodes d c _ _).mpr ⟨rs, r', hr', hnode', hweight', hmem'⟩
      cases hx.symm.trans hy
      exact hyweight.symm
    · rfl
  · obtain ⟨rs', r, hr, hnode, hweight, hmem⟩ := (h.nodes d c n x.m_weight).mp ⟨x, hx, rfl⟩
    have hne : rs' ≠ rs := by
      rintro rfl
      exact hnot ((listed_iff hsets.old_same n d c).mpr ⟨r, hr, hnode, hmem⟩)
    exact ⟨rs', r, (hsets.latest_other hne).trans hr, hnode, hweight, hmem⟩

theorem exists_node_self (hsets : Sets inet_addr w w' rs old_value new_value reg) (h : Joined w)
    {r : Registration} (hr : w'.latest rs = some r) {d : String} {c : UInt32} (hmem : (d, c) ∈ r.lists) :
    ∃ x, w'.server.m_domains.node d c r.node = some x ∧ x.m_weight = r.weight := by
  obtain ⟨info, hinfo, hsame⟩ := hsets.exists_info hr
  have hlists := (hsame.lists d c).mpr hmem
  by_cases hunchanged : Unchanged old_value info d c
  · obtain ⟨r', hr', hnode', hweight', hmem'⟩ := hsets.latest_of_unchanged hinfo hunchanged
    obtain ⟨x, hx, hxweight⟩ := (h.nodes d c _ _).mpr ⟨rs, r', hr', hnode', hweight', hmem'⟩
    rw [hsame.node] at hx
    refine ⟨x, (hsets.node d c _ x).mpr (.inl ?_), hxweight.trans hsame.weight⟩
    exact ⟨info, hinfo, hsame.node, hlists, .inl ⟨hunchanged, hx⟩⟩
  · refine ⟨info.m_node, (hsets.node d c _ _).mpr (.inl ?_), hsame.weight⟩
    exact ⟨info, hinfo, hsame.node, hlists, .inr ⟨hunchanged, rfl⟩⟩

theorem exists_node_other (hsets : Sets inet_addr w w' rs old_value new_value reg) (h : Joined w)
    (hdistinct : Distinct w) (hdistinct' : Distinct w') {rs' : R} (hne : rs' ≠ rs) {r : Registration}
    (hr : w'.latest rs' = some r) {d : String} {c : UInt32} (hmem : (d, c) ∈ r.lists) :
    ∃ x, w'.server.m_domains.node d c r.node = some x ∧ x.m_weight = r.weight := by
  have hnew : Option.Rel Same new_value (w'.latest rs) := hsets.latest_self ▸ hsets.new_same
  have hr' := (hsets.latest_other hne).symm.trans hr
  obtain ⟨x, hx, hweight⟩ := (h.nodes d c _ _).mpr ⟨rs', r, hr', rfl, rfl, hmem⟩
  refine ⟨x, (hsets.node d c _ x).mpr (.inr ⟨?_, ?_, hx⟩), hweight⟩
  · exact not_listed_other hnew hdistinct' hr hne d c
  · exact not_listed_other hsets.old_same hdistinct hr' hne d c

theorem joined (hsets : Sets inet_addr w w' rs old_value new_value reg) (h : Joined w)
    (hdistinct : Distinct w) (hdistinct' : Distinct w') : Joined w' := by
  refine ⟨fun d c n weight => ⟨?_, ?_⟩, ?_⟩
  · rintro ⟨x, hx, rfl⟩
    exact hsets.exists_registration h hx
  · rintro ⟨rs', r, hr, rfl, rfl, hmem⟩
    by_cases hrs : rs' = rs
    · subst hrs
      exact hsets.exists_node_self h hr hmem
    · exact hsets.exists_node_other h hdistinct hdistinct' hrs hr hmem
  · intro d dom hdom c ns set hget hset
    obtain ⟨set', hset', -, hfull⟩ := (hsets.sound d dom hdom).1.made c ns hget
    cases hset.symm.trans hset'
    exact hfull

end Sets

omit [DecidableEq R] in
theorem Joined.init : Joined (init : Watched R) where
  nodes := by
    intro d c n weight
    constructor
    · rintro ⟨x, hx, -⟩
      cases hx
    · rintro ⟨rs, reg, hreg, -⟩
      cases hreg
  full := fun d dom hdom => by cases hdom

theorem step_inv (h : Inv inet_addr w) (hs : step inet_addr w call = .ok w') : Inv inet_addr w' := by
  rcases step_sets h hs with rfl | ⟨rs, old_value, new_value, reg, hsets⟩
  · exact h
  · exact hsets.inv h

theorem step_joined (h : Inv inet_addr w) (hjoined : Joined w) (hdistinct : Distinct w)
    (hdistinct' : Distinct w') (hs : step inet_addr w call = .ok w') : Joined w' := by
  rcases step_sets h hs with rfl | ⟨rs, old_value, new_value, reg, hsets⟩
  · exact hjoined
  · exact hsets.joined hjoined hdistinct hdistinct'

/-- However sessions register, register again and go, as long as no two that are live are for
one node. -/
theorem registry_joins (calls : List (Call R)) (hcalls : Along (step inet_addr) Distinct init calls) :
    Along (step inet_addr) Joined (init : Watched R) calls := by
  have hall : ∀ call ∈ calls, (fun _ => True) call := fun _ _ => trivial
  have heach := hcalls.each hall
  refine (along_of_each (fun w => Inv inet_addr w ∧ Joined w ∧ Distinct w) _ ?_ calls init
    ⟨.init, .init, hcalls.head⟩ heach).mono fun w h => h.2.1
  intro w call w' h hstep hs
  obtain ⟨hinv, hjoined, hdistinct⟩ := h
  have hdistinct' := hstep.2 w' hs
  exact ⟨step_inv hinv hs, step_joined hinv hjoined hdistinct hdistinct' hs, hdistinct'⟩

instance [Fintype R] : DecidablePred (Distinct (R := R)) :=
  fun w => inferInstanceAs (Decidable (∀ rs rs', (w.latest rs).isSome = true →
    (w.latest rs).map Registration.node = (w.latest rs').map Registration.node → rs = rs'))

def loopback (ip : String) : UInt32 := if ip = "127.0.0.1" then 0x100007f else 0xffffffff

def request (port weight : UInt32) (domain : String) (cmds : List UInt32) : Option (List RegisterInfo) :=
  some [⟨some domain, cmds, some ⟨some "127.0.0.1", some port, some weight⟩⟩]

/-- A session registers twice, with another weight, while another comes and goes. -/
theorem registry_joins_two :
    Along (step loopback) Joined (init : Watched Bool)
      [.handleRegister true true (request 80 1 "a" [1, 2]),
        .handleRegister false true (request 81 5 "a" [2]),
        .handleRegister true true (request 80 3 "a" [2, 3]),
        .onDisconnect false false] :=
  registry_joins _ (by decide)

end Watched

end NameServerModule

end Sylar
