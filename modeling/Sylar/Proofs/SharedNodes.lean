import Sylar.Proofs.Registry

/-! Sessions that share a node. The registry is kept by node, so what one session drops is gone
for the others too. -/

namespace Sylar

open Lib

def NodeMessage.id (inet_addr : String → UInt32) : NodeMessage → Option UInt64
  | ⟨some ip, some port, _⟩ => some (NSNode.GetID inet_addr ip port.toUInt16)
  | _ => none

theorem NSNodeSet.Keyed.mem_listAll {set : NSNodeSet} (h : set.Keyed) {x : NSNode} :
    x ∈ set.listAll ↔ Assoc.find set.m_datas x.m_id = some x := by
  unfold listAll
  rw [List.mem_map]
  constructor
  · rintro ⟨⟨id, y⟩, hi, rfl⟩
    rw [h.ids _ hi]
    exact Assoc.find_of_mem h.nodup hi
  · intro hx
    exact ⟨_, Assoc.mem_of_find hx, rfl⟩

namespace NSDomain

variable {d : NSDomain}

theorem Sound.mem_listAll (h : Sound d) {set : NSNodeSet} :
    set ∈ d.listAll ↔ ∃ ns, d.get set.m_cmd = some ns ∧ look d.sets ns = some set := by
  unfold listAll
  rw [List.mem_filterMap]
  constructor
  · rintro ⟨⟨cmd, ns⟩, hi, hset⟩
    have hget : d.get cmd = some ns := Assoc.find_of_mem h.keys hi
    obtain ⟨set', hset', hcmd, -⟩ := h.made cmd ns hget
    cases hset.symm.trans hset'
    exact ⟨ns, hcmd ▸ hget, hset⟩
  · rintro ⟨ns, hget, hset⟩
    exact ⟨_, Assoc.mem_of_find hget, hset⟩

theorem Sound.node_iff (h : Sound d) {c : UInt32} {n : UInt64} {x : NSNode} :
    d.node c n = some x ↔ ∃ set ∈ d.listAll, set.m_cmd = c ∧ x ∈ set.listAll ∧ x.m_id = n := by
  constructor
  · intro hx
    obtain ⟨ns, hget, hx⟩ := Option.bind_eq_some_iff.mp hx
    obtain ⟨set, hset, hx⟩ := Option.bind_eq_some_iff.mp hx
    obtain ⟨set', hset', hcmd, -⟩ := h.made c ns hget
    cases hset.symm.trans hset'
    have hkeyed := h.nodes set (List.mem_of_getElem? hset)
    have hid : x.m_id = n := hkeyed.ids _ (Assoc.mem_of_find hx)
    refine ⟨set, h.mem_listAll.mpr ⟨ns, hcmd.symm ▸ hget, hset⟩, hcmd, ?_, hid⟩
    exact hkeyed.mem_listAll.mpr (hid.symm ▸ hx)
  · rintro ⟨set, hset, rfl, hx, rfl⟩
    obtain ⟨ns, hget, hlook⟩ := h.mem_listAll.mp hset
    rw [node_of_get hget hlook]
    exact (h.nodes set (List.mem_of_getElem? hlook)).mem_listAll.mp hx

end NSDomain

namespace NameServerModule

/-- The response has the node under the domain and the command. -/
def Returns (inet_addr : String → UInt32) (infos : List NodeInfo) (d : String) (c : UInt32)
    (n : UInt64) : Prop :=
  ∃ info ∈ infos, info.domain = d ∧ info.cmd = c ∧ ∃ x ∈ info.nodes, x.id inet_addr = some n

instance (inet_addr : String → UInt32) (infos : List NodeInfo) (d : String) (c : UInt32) (n : UInt64) :
    Decidable (Returns inet_addr infos d c n) :=
  inferInstanceAs (Decidable (∃ info ∈ infos, info.domain = d ∧ info.cmd = c ∧
    ∃ x ∈ info.nodes, x.id inet_addr = some n))

namespace Watched

variable {R : Type} [DecidableEq R] {inet_addr : String → UInt32} {w w' : Watched R} {call : Call R}

/-- A query of a domain returns every node that a live session has registered there. -/
def Answers (inet_addr : String → UInt32) (w : Watched R) : Prop :=
  ∀ rs reg, w.latest rs = some reg → ∀ d c, (d, c) ∈ reg.lists → ∀ domains, d ∈ domains →
    Returns inet_addr (w.server.handleQuery domains) d c reg.node

/-- A call takes no command from a session while another one lists it for the same node. -/
def KeepsShared (inet_addr : String → UInt32) (w : Watched R) (call : Call R) : Prop :=
  ∀ rs rs' reg reg', rs ≠ rs' → w.latest rs = some reg → w.latest rs' = some reg' →
    reg.node = reg'.node → ∀ i ∈ reg.lists, i ∈ reg'.lists →
      ∃ next, register inet_addr w call rs = some next ∧ i ∈ next.lists

/-- Every node that a live session has registered is in the registry. -/
def Stored (w : Watched R) : Prop :=
  ∀ rs reg, w.latest rs = some reg → ∀ d c, (d, c) ∈ reg.lists →
    ∃ x, w.server.m_domains.node d c reg.node = some x

theorem latest_step (hs : step inet_addr w call = .ok w') : w'.latest = register inet_addr w call := by
  unfold step at hs
  split at hs
  · cases hs
    rfl
  · cases hs

theorem returns_iff_node (h : Inv inet_addr w) {d : String} {domains : List String} (hd : d ∈ domains)
    (c : UInt32) (n : UInt64) : Returns inet_addr (w.server.handleQuery domains) d c n ↔
      ∃ x, w.server.m_domains.node d c n = some x := by
  have hid : ∀ dom, Assoc.find w.server.m_domains d = some dom → ∀ set ∈ dom.listAll,
      ∀ x ∈ set.listAll, NodeMessage.id inet_addr
        ⟨some x.m_ip, some x.m_port.toUInt32, some x.m_weight⟩ = some x.m_id := by
    intro dom hdom set hset x hx
    have hmade : Made inet_addr x := by
      refine h.made d set.m_cmd x.m_id x ?_
      unfold NSDomainSet.node
      rw [hdom]
      exact (h.sound d dom hdom).1.node_iff.mpr ⟨set, hset, rfl, hx, rfl⟩
    simp [NodeMessage.id, hmade.symm]
  simp only [Returns, handleQuery, List.mem_flatMap, List.mem_filterMap, List.mem_dedup, List.mem_map]
  constructor
  · rintro ⟨info, ⟨dom, ⟨d', -, hdom⟩, set, hset, rfl⟩, rfl, rfl, y, hy, hn⟩
    obtain ⟨x, hx, rfl⟩ := List.mem_map.mp hy
    obtain ⟨hsound, rfl⟩ := h.sound d' dom hdom
    rw [hid dom hdom set hset x hx, Option.some.injEq] at hn
    refine ⟨x, ?_⟩
    unfold NSDomainSet.node
    rw [hdom]
    exact hsound.node_iff.mpr ⟨set, hset, rfl, hx, hn⟩
  · rintro ⟨x, hx⟩
    obtain ⟨dom, hdom, hx⟩ := Option.bind_eq_some_iff.mp hx
    obtain ⟨hsound, hname⟩ := h.sound d dom hdom
    obtain ⟨set, hset, hcmd, hx, hn⟩ := hsound.node_iff.mp hx
    refine ⟨_, ⟨dom, ⟨d, hd, hdom⟩, set, hset, rfl⟩, hname, hcmd, ?_⟩
    refine ⟨_, List.mem_map_of_mem hx, ?_⟩
    rw [hid dom hdom set hset x hx, hn]

theorem answers_iff (h : Inv inet_addr w) : Answers inet_addr w ↔ Stored w := by
  constructor
  · intro ha rs reg hreg d c hmem
    have hd : d ∈ [d] := List.mem_singleton.mpr rfl
    exact (returns_iff_node h hd c reg.node).mp (ha rs reg hreg d c hmem [d] hd)
  · intro hs rs reg hreg d c hmem domains hd
    exact (returns_iff_node h hd c reg.node).mpr (hs rs reg hreg d c hmem)

section

variable {rs : R} {old_value new_value : Option NSClientInfo} {reg : Option Registration}

/-- What the session lists now is in the registry, unless it was missing before. -/
theorem Sets.stored (hsets : Sets inet_addr w w' rs old_value new_value reg) {n : UInt64} {d : String}
    {c : UInt32} (hnew : Listed new_value n d c)
    (hold : Listed old_value n d c → ∃ x, w.server.m_domains.node d c n = some x) :
    ∃ x, w'.server.m_domains.node d c n = some x := by
  obtain ⟨info, hinfo, hnode, hlists⟩ := hnew
  by_cases hunchanged : Unchanged old_value info d c
  · have hlisted : Listed old_value n d c := by
      obtain ⟨before, hbefore, hbefore', -⟩ := hunchanged
      exact ⟨before, hbefore, (hsets.ids before info hbefore hinfo).trans hnode, hbefore'⟩
    obtain ⟨x, hx⟩ := hold hlisted
    exact ⟨x, (hsets.node d c n x).mpr (.inl ⟨info, hinfo, hnode, hlists, .inl ⟨hunchanged, hx⟩⟩)⟩
  · exact ⟨info.m_node, (hsets.node d c n _).mpr
      (.inl ⟨info, hinfo, hnode, hlists, .inr ⟨hunchanged, rfl⟩⟩)⟩

theorem Sets.keepsShared (hsets : Sets inet_addr w w' rs old_value new_value reg) (h : Stored w')
    (hlatest : w'.latest = register inet_addr w call) : KeepsShared inet_addr w call := by
  intro r r' g g' hne hr hr' hnode i hi hi'
  rw [← hlatest]
  by_cases hrs : r = rs
  · subst hrs
    obtain ⟨x, hx⟩ := h r' g' ((hsets.latest_other hne.symm).trans hr') i.1 i.2 hi'
    have hlisted : Listed old_value g'.node i.1 i.2 :=
      (listed_iff hsets.old_same _ _ _).mpr ⟨g, hr, hnode, hi⟩
    rcases (hsets.node _ _ _ x).mp hx with ⟨info, hinfo, hid, hlists, -⟩ | ⟨-, hnot, -⟩
    · obtain ⟨next, hnext, -, hmem⟩ := (listed_iff hsets.new_same _ _ _).mp ⟨info, hinfo, hid, hlists⟩
      exact ⟨next, hsets.latest_self.trans hnext, hmem⟩
    · exact absurd hlisted hnot
  · exact ⟨g, (hsets.latest_other hrs).trans hr, hi⟩

theorem Sets.stored_of_keepsShared (hsets : Sets inet_addr w w' rs old_value new_value reg)
    (h : Stored w) (hkeeps : KeepsShared inet_addr w call)
    (hlatest : w'.latest = register inet_addr w call) : Stored w' := by
  have hold : ∀ {n d c}, Listed old_value n d c → ∃ x, w.server.m_domains.node d c n = some x := by
    intro n d c hlisted
    obtain ⟨r, hr, rfl, hmem⟩ := (listed_iff hsets.old_same n d c).mp hlisted
    exact h rs r hr d c hmem
  intro r g hr d c hmem
  by_cases hrs : r = rs
  · subst hrs
    rw [hsets.latest_self] at hr
    exact hsets.stored ((listed_iff hsets.new_same _ d c).mpr ⟨g, hr, rfl, hmem⟩) hold
  · rw [hsets.latest_other hrs] at hr
    obtain ⟨x, hx⟩ := h r g hr d c hmem
    by_cases hnew : Listed new_value g.node d c
    · exact hsets.stored hnew hold
    · refine ⟨x, (hsets.node d c _ x).mpr (.inr ⟨hnew, fun hlisted => hnew ?_, hx⟩)⟩
      obtain ⟨g', hg', hnode, hmem'⟩ := (listed_iff hsets.old_same _ d c).mp hlisted
      obtain ⟨next, hnext, hlists⟩ := hkeeps rs r g' g (Ne.symm hrs) hg' hr hnode (d, c) hmem' hmem
      obtain ⟨before, hbefore, hid, -⟩ := hlisted
      obtain ⟨info, hinfo, hsame⟩ := hsets.exists_info ((congrFun hlatest rs).trans hnext)
      exact ⟨info, hinfo, (hsets.ids before info hbefore hinfo).symm.trans hid,
        (hsame.lists d c).mpr hlists⟩

end

theorem step_stored (h : Inv inet_addr w) (hstored : Stored w) (hs : step inet_addr w call = .ok w') :
    Stored w' ↔ KeepsShared inet_addr w call := by
  have hlatest := latest_step hs
  rcases step_sets h hs with rfl | ⟨rs, old_value, new_value, reg, hsets⟩
  · refine ⟨fun _ => ?_, fun _ => hstored⟩
    intro rs rs' reg reg' _ hreg _ _ i hi _
    exact ⟨reg, hlatest ▸ hreg, hi⟩
  · exact ⟨fun h' => hsets.keepsShared h' hlatest,
      fun hkeeps => hsets.stored_of_keepsShared hstored hkeeps hlatest⟩

omit [DecidableEq R] in
theorem Stored.init : Stored (init : Watched R) := by
  intro rs reg hreg
  cases hreg

/-- However sessions that may share a node register and go. -/
theorem answers_iff_keepsShared (calls : List (Call R)) :
    Along (step inet_addr) (Answers inet_addr) (init : Watched R) calls ↔
      Each (step inet_addr) (KeepsShared inet_addr) init calls := by
  refine along_iff_each (Inv inet_addr) _ (fun _ _ => True) _ ?_ calls init .init
    ((answers_iff .init).mpr .init) (each_true calls init)
  intro w call w' hinv hanswers _ hs
  have hinv' := step_inv hinv hs
  refine ⟨hinv', ?_⟩
  rw [answers_iff hinv']
  exact step_stored hinv ((answers_iff hinv).mp hanswers) hs

/-- A client connects again and registers before its old session is gone. -/
theorem not_answers_of_reconnect : ¬ ∀ calls : List (Call Bool),
    Along (step loopback) (Answers loopback) init calls := by
  intro hall
  have h := (hall [.handleRegister false true (request 80 1 "a" [1]),
    .handleRegister true true (request 80 1 "a" [1]), .onDisconnect false false]).last rfl
  have hreturns := h true _ rfl "a" 1 (by decide) ["a"] (by decide)
  revert hreturns
  decide

end Watched

end NameServerModule

end Sylar
