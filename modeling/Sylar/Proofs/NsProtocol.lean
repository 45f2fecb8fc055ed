import Sylar.Spec.NsProtocol

/-! A domain as a partial function from commands and ids to nodes. -/

namespace Sylar

open Lib

/-- Every node is under its own id. -/
structure NSNodeSet.Keyed (set : NSNodeSet) : Prop where
  nodup : (set.m_datas.map Prod.fst).Nodup
  ids : ∀ i ∈ set.m_datas, i.2.m_id = i.1

namespace NSDomain

def node (d : NSDomain) (cmd : UInt32) (id : UInt64) : Option NSNode :=
  (d.get cmd).bind fun ns => (look d.sets ns).bind fun set => Assoc.find set.m_datas id

/-- Every command has a set of its own, which is not empty. -/
structure Sound (d : NSDomain) : Prop where
  keys : (d.m_datas.map Prod.fst).Nodup
  made : ∀ cmd ns, d.get cmd = some ns → ∃ set, look d.sets ns = some set ∧ set.m_cmd = cmd ∧
    set.m_datas ≠ []
  nodes : ∀ set ∈ d.sets, set.Keyed

variable {d : NSDomain} {cmd : UInt32} {ns : ℕ} {info : NSNode} {id : UInt64}

theorem Sound.new (domain : String) : Sound (new domain) where
  keys := List.nodup_nil
  made := fun cmd ns h => by simp [NSDomain.new, get, Assoc.find] at h
  nodes := fun set h => by simp [NSDomain.new] at h

theorem node_new (domain : String) (cmd : UInt32) (id : UInt64) :
    (new domain).node cmd id = none := rfl

theorem node_of_get {set : NSNodeSet} (hget : d.get cmd = some ns) (hset : look d.sets ns = some set)
    (id : UInt64) : d.node cmd id = Assoc.find set.m_datas id := by
  unfold node
  rw [hget, Option.bind_some, hset, Option.bind_some]

theorem Sound.inj (h : Sound d) {cmd' : UInt32} (hget : d.get cmd = some ns)
    (hget' : d.get cmd' = some ns) : cmd = cmd' := by
  obtain ⟨set, hset, hcmd, -⟩ := h.made cmd ns hget
  obtain ⟨set', hset', hcmd', -⟩ := h.made cmd' ns hget'
  cases hset.symm.trans hset'
  exact hcmd.symm.trans hcmd'

theorem look_update (d : NSDomain) (ns : ℕ) (f : NSNodeSet → NSNodeSet) (n : ℕ) :
    look (d.update ns f).sets n = if ns = n then (look d.sets n).map f else look d.sets n :=
  look_modify ..

theorem node_update_of_look {f : NSNodeSet → NSNodeSet} {set : NSNodeSet}
    (hset : look d.sets ns = some set) (cmd : UInt32) (id : UInt64) : (d.update ns f).node cmd id =
      if d.get cmd = some ns then Assoc.find (f set).m_datas id else d.node cmd id := by
  show (d.get cmd).bind _ = if _ then _ else (d.get cmd).bind _
  cases d.get cmd with
  | none => rw [if_neg (Option.some_ne_none ns).symm]; rfl
  | some n =>
    rw [Option.bind_some, Option.bind_some, look_update]
    by_cases hn : ns = n
    · subst hn
      rw [if_pos rfl, if_pos rfl, hset]
      rfl
    · rw [if_neg hn, if_neg fun heq => hn (Option.some.inj heq).symm]

theorem node_update (h : Sound d) {f : NSNodeSet → NSNodeSet} {set : NSNodeSet}
    (hget : d.get cmd = some ns) (hset : look d.sets ns = some set) (cmd' : UInt32) (id : UInt64) :
    (d.update ns f).node cmd' id =
      if cmd = cmd' then Assoc.find (f set).m_datas id else d.node cmd' id := by
  rw [node_update_of_look hset]
  by_cases hcmd : cmd = cmd'
  · rw [if_pos hcmd, if_pos (hcmd ▸ hget)]
  · rw [if_neg hcmd, if_neg fun hget' => hcmd (h.inj hget hget')]

theorem Sound.update_nodes (h : Sound d) {f : NSNodeSet → NSNodeSet}
    (hnodes : ∀ set : NSNodeSet, set.Keyed → (f set).Keyed) :
    ∀ set ∈ (d.update ns f).sets, set.Keyed := by
  intro set hset
  obtain ⟨n, hn⟩ := List.mem_iff_getElem?.mp hset
  change look (d.update ns f).sets n = some set at hn
  rw [look_update] at hn
  split at hn
  · obtain ⟨old, hold, rfl⟩ := Option.map_eq_some_iff.mp hn
    exact hnodes old (h.nodes old (List.mem_of_getElem? hold))
  · exact h.nodes set (List.mem_of_getElem? hn)

theorem Sound.update (h : Sound d) {f : NSNodeSet → NSNodeSet}
    (hcmd : ∀ set, (f set).m_cmd = set.m_cmd)
    (hfull : ∀ set, look d.sets ns = some set → (f set).m_datas ≠ [])
    (hnodes : ∀ set : NSNodeSet, set.Keyed → (f set).Keyed) : Sound (d.update ns f) where
  keys := h.keys
  made := by
    intro cmd' n hn
    obtain ⟨set, hset, hmade, hne⟩ := h.made cmd' n hn
    by_cases heq : ns = n
    · subst heq
      refine ⟨f set, ?_, (hcmd set).trans hmade, hfull set hset⟩
      rw [look_update, if_pos rfl, hset]
      rfl
    · refine ⟨set, ?_, hmade, hne⟩
      rw [look_update, if_neg heq]
      exact hset
  nodes := h.update_nodes hnodes

theorem keyed_add {set : NSNodeSet} (h : set.Keyed) : (set.add info).Keyed := by
  refine ⟨Assoc.nodup_set h.nodup _ _, fun i hi => ?_⟩
  rcases List.mem_cons.mp hi with rfl | hi
  · rfl
  · exact h.ids i (Assoc.mem_without.mp hi).1

theorem keyed_del {set : NSNodeSet} (h : set.Keyed) : (set.del id).Keyed :=
  ⟨Assoc.nodup_without h.nodup _, fun i hi => h.ids i (Assoc.mem_without.mp hi).1⟩

def withSet (d : NSDomain) (cmd : UInt32) (info : NSNode) : NSDomain :=
  ⟨d.m_domain, Assoc.set d.m_datas cmd d.sets.length, d.sets ++ [(NSNodeSet.new cmd).add info]⟩

theorem add_of_none (hget : d.get cmd = none) : d.add cmd info = d.withSet cmd info := by
  have hmade : (d.sets ++ [NSNodeSet.new cmd])[d.sets.length]? = some (.new cmd) := by simp
  unfold add
  rw [hget]
  simp only [addSet, make, hmade, NSDomain.update, withSet, NSDomain.mk.injEq, true_and]
  refine ⟨rfl, ?_⟩
  rw [modify_eq_set _ hmade, List.set_append_right _ _ (Nat.le_refl _)]
  simp

theorem get_withSet (cmd' : UInt32) :
    (d.withSet cmd info).get cmd' = if cmd = cmd' then some d.sets.length else d.get cmd' :=
  Assoc.find_set d.m_datas cmd cmd' d.sets.length

theorem look_withSet (n : ℕ) : look (d.withSet cmd info).sets n =
    if n = d.sets.length then some ((NSNodeSet.new cmd).add info) else look d.sets n := by
  show look (d.sets ++ [_]) n = _
  rw [look_append, Function.update_apply]

theorem Sound.lt (h : Sound d) (hget : d.get cmd = some ns) : ns < d.sets.length := by
  obtain ⟨set, hset, -⟩ := h.made cmd ns hget
  exact lt_length_of_look hset

theorem Sound.withSet (h : Sound d) : Sound (d.withSet cmd info) where
  keys := Assoc.nodup_set h.keys _ _
  made := by
    intro cmd' n hn
    rw [get_withSet] at hn
    split at hn
    · next heq =>
      cases hn
      refine ⟨(NSNodeSet.new cmd).add info, ?_, heq, List.cons_ne_nil _ _⟩
      rw [look_withSet, if_pos rfl]
    · obtain ⟨set, hset, hmade⟩ := h.made cmd' n hn
      refine ⟨set, ?_, hmade⟩
      rw [look_withSet, if_neg (h.lt hn).ne]
      exact hset
  nodes := by
    intro set hset
    rcases List.mem_append.mp hset with hset | hset
    · exact h.nodes set hset
    · cases List.mem_singleton.mp hset
      exact keyed_add ⟨List.nodup_nil, by simp [NSNodeSet.new]⟩

theorem node_withSet (h : Sound d) (hget : d.get cmd = none) (cmd' : UInt32) (id : UInt64) :
    (d.withSet cmd info).node cmd' id =
      if cmd = cmd' ∧ info.m_id = id then some info else d.node cmd' id := by
  by_cases hcmd : cmd = cmd'
  · subst hcmd
    have hnew : (d.withSet cmd info).node cmd id =
        Assoc.find ((NSNodeSet.new cmd).add info).m_datas id := by
      have hget' : (d.withSet cmd info).get cmd = some d.sets.length := by
        rw [get_withSet, if_pos rfl]
      have hset : look (d.withSet cmd info).sets d.sets.length = some ((NSNodeSet.new cmd).add info) := by
        rw [look_withSet, if_pos rfl]
      exact node_of_get hget' hset id
    have hold : d.node cmd id = none := by
      unfold node
      rw [hget]
      rfl
    rw [hnew, hold]
    show Assoc.find (Assoc.set [] info.m_id info) id = _
    rw [Assoc.find_set]
    simp [Assoc.find]
  · rw [if_neg fun heq => hcmd heq.1]
    unfold node
    rw [get_withSet, if_neg hcmd]
    cases hget' : d.get cmd' with
    | none => rfl
    | some n => rw [Option.bind_some, Option.bind_some, look_withSet, if_neg (h.lt hget').ne]

theorem Sound.add (h : Sound d) (cmd : UInt32) (info : NSNode) : Sound (d.add cmd info) := by
  cases hget : d.get cmd with
  | none =>
    rw [add_of_none hget]
    exact h.withSet
  | some ns =>
    unfold NSDomain.add
    rw [hget]
    exact h.update (fun _ => rfl) (fun _ _ => List.cons_ne_nil _ _) fun _ => keyed_add

theorem node_add (h : Sound d) (cmd : UInt32) (info : NSNode) (cmd' : UInt32) (id : UInt64) :
    (d.add cmd info).node cmd' id =
      if cmd = cmd' ∧ info.m_id = id then some info else d.node cmd' id := by
  cases hget : d.get cmd with
  | none =>
    rw [add_of_none hget]
    exact node_withSet h hget cmd' id
  | some ns =>
    obtain ⟨set, hset, -⟩ := h.made cmd ns hget
    unfold NSDomain.add
    rw [hget]
    show (d.update ns (NSNodeSet.add info)).node cmd' id = _
    rw [node_update h hget hset]
    by_cases hcmd : cmd = cmd'
    · subst hcmd
      rw [if_pos rfl, node_of_get hget hset]
      show Assoc.find (Assoc.set set.m_datas info.m_id info) id = _
      rw [Assoc.find_set]
      simp
    · rw [if_neg hcmd, if_neg fun heq => hcmd heq.1]

theorem sizeOf_update {set : NSNodeSet} (hset : look d.sets ns = some set) (f : NSNodeSet → NSNodeSet) :
    (d.update ns f).sizeOf ns = (f set).m_datas.length := by
  have hlook : look (d.update ns f).sets ns = some (f set) := by
    rw [look_update, if_pos rfl, hset]
    rfl
  unfold sizeOf
  rw [show (d.update ns f).sets[ns]? = some (f set) from hlook]
  rfl

theorem del_of_some {set : NSNodeSet} (hget : d.get cmd = some ns) (hset : look d.sets ns = some set) :
    d.del cmd id = if (set.del id).m_datas = [] then (d.update ns (.del id)).delSet cmd
      else d.update ns (.del id) := by
  unfold NSDomain.del
  rw [hget]
  simp only [sizeOf_update hset, List.length_eq_zero_iff]

theorem get_delSet (d : NSDomain) (cmd cmd' : UInt32) :
    (d.delSet cmd).get cmd' = if cmd = cmd' then none else d.get cmd' :=
  Assoc.find_without d.m_datas cmd cmd'

theorem node_delSet (d : NSDomain) (cmd cmd' : UInt32) (id : UInt64) :
    (d.delSet cmd).node cmd' id = if cmd = cmd' then none else d.node cmd' id := by
  unfold node
  rw [get_delSet]
  split <;> rfl

theorem Sound.del (h : Sound d) (cmd : UInt32) (id : UInt64) : Sound (d.del cmd id) := by
  cases hget : d.get cmd with
  | none =>
    unfold NSDomain.del
    rw [hget]
    exact h
  | some ns =>
    obtain ⟨set, hset, -⟩ := h.made cmd ns hget
    rw [del_of_some hget hset]
    split
    · refine ⟨Assoc.nodup_without h.keys _, ?_, ?_⟩
      · intro cmd' n hn
        rw [get_delSet] at hn
        split at hn
        · cases hn
        · next hcmd =>
          obtain ⟨set', hset', hmade⟩ := h.made cmd' n hn
          have hne : ns ≠ n := by
            rintro rfl
            exact hcmd (h.inj hget hn)
          refine ⟨set', ?_, hmade⟩
          show look (d.update ns (NSNodeSet.del id)).sets n = _
          rw [look_update, if_neg hne]
          exact hset'
      · exact h.update_nodes fun _ => keyed_del
    · next hne =>
      refine h.update (fun _ => rfl) ?_ fun _ => keyed_del
      intro set' hset'
      cases hset.symm.trans hset'
      exact hne

theorem node_del (h : Sound d) (cmd : UInt32) (id : UInt64) (cmd' : UInt32) (id' : UInt64) :
    (d.del cmd id).node cmd' id' = if cmd = cmd' ∧ id = id' then none else d.node cmd' id' := by
  cases hget : d.get cmd with
  | none =>
    have hnone : d.del cmd id = d := by
      unfold NSDomain.del
      rw [hget]
    rw [hnone]
    split
    · next heq =>
      unfold node
      rw [← heq.1, hget]
      rfl
    · rfl
  | some ns =>
    obtain ⟨set, hset, -⟩ := h.made cmd ns hget
    have hupdate : (d.update ns (.del id)).node cmd' id' =
        if cmd = cmd' ∧ id = id' then none else d.node cmd' id' := by
      rw [node_update h hget hset]
      by_cases hcmd : cmd = cmd'
      · subst hcmd
        rw [if_pos rfl, node_of_get hget hset]
        show Assoc.find (Assoc.without set.m_datas id) id' = _
        rw [Assoc.find_without]
        simp
      · rw [if_neg hcmd, if_neg fun heq => hcmd heq.1]
    rw [del_of_some hget hset]
    split
    · next hempty =>
      rw [node_delSet]
      by_cases hcmd : cmd = cmd'
      · subst hcmd
        rw [← hupdate, if_pos rfl, node_update h hget hset, if_pos rfl, hempty]
        rfl
      · rw [if_neg hcmd]
        exact hupdate
    · exact hupdate

theorem m_domain_add (d : NSDomain) (cmd : UInt32) (info : NSNode) :
    (d.add cmd info).m_domain = d.m_domain := by
  unfold NSDomain.add
  split
  · rfl
  · show (((d.make cmd).addSet d.sets.length).update d.sets.length _).m_domain = _
    unfold addSet
    split <;> rfl

theorem m_domain_del (d : NSDomain) (cmd : UInt32) (id : UInt64) :
    (d.del cmd id).m_domain = d.m_domain := by
  simp only [NSDomain.del]
  split
  · rfl
  · split <;> rfl

theorem foldl_del (h : Sound d) (id : UInt64) (cmds : List UInt32) :
    let d' := cmds.foldl (fun d c => d.del c id) d
    Sound d' ∧ d'.m_domain = d.m_domain ∧ ∀ c id' x, d'.node c id' = some x ↔
      d.node c id' = some x ∧ ¬ (c ∈ cmds ∧ id = id') := by
  induction cmds generalizing d with
  | nil => simp [h]
  | cons cmd cmds ih =>
    obtain ⟨hsound, hdomain, hnode⟩ := ih (h.del cmd id)
    refine ⟨hsound, hdomain.trans (m_domain_del d cmd id), fun c id' x => ?_⟩
    rw [List.foldl_cons, hnode, node_del h, List.mem_cons]
    split
    · next heq => simp [heq]
    · next hne => grind

theorem foldl_add (h : Sound d) (info : NSNode) (cmds : List UInt32) :
    let d' := cmds.foldl (fun d c => d.add c info) d
    Sound d' ∧ d'.m_domain = d.m_domain ∧ ∀ c id x, d'.node c id = some x ↔
      (c ∈ cmds ∧ info.m_id = id) ∧ x = info ∨
        ¬ (c ∈ cmds ∧ info.m_id = id) ∧ d.node c id = some x := by
  induction cmds generalizing d with
  | nil => simp [h]
  | cons cmd cmds ih =>
    obtain ⟨hsound, hdomain, hnode⟩ := ih (h.add cmd info)
    refine ⟨hsound, hdomain.trans (m_domain_add d cmd info), fun c id x => ?_⟩
    rw [List.foldl_cons, hnode, node_add h, List.mem_cons]
    split
    · next heq => grind
    · next hne => grind

end NSDomain

def NSDomainSet.node (ds : NSDomainSet) (domain : String) (cmd : UInt32) (id : UInt64) : Option NSNode :=
  (Assoc.find ds domain).bind fun d => d.node cmd id

def NSDomainSet.Sound (ds : NSDomainSet) : Prop :=
  ∀ domain d, Assoc.find ds domain = some d → d.Sound ∧ d.m_domain = domain

end Sylar
