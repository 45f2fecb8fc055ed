import Sylar.Lib.Partial
import Sylar.Proofs.NsProtocol
import Sylar.Spec.NsDomainCalls

/-! What is registered stays in the set of its command exactly as long as no `add` goes on with a
set that is no longer in use, and no set is replaced or dropped under a registered node. -/

namespace Sylar

open Lib

namespace NSDomain

section Node

variable {d : NSDomain} {cmd : UInt32} {ns : ℕ}

def Made (d : NSDomain) (cmd : UInt32) (ns : ℕ) : Prop :=
  ∃ set, look d.sets ns = some set ∧ set.m_cmd = cmd

def Keyed (d : NSDomain) : Prop := ∀ cmd ns, d.get cmd = some ns → d.Made cmd ns

theorem Made.inj {cmd' : UInt32} (h : d.Made cmd ns) (h' : d.Made cmd' ns) : cmd = cmd' := by
  obtain ⟨set, hset, rfl⟩ := h
  obtain ⟨set', hset', rfl⟩ := h'
  rw [Option.some.inj (hset.symm.trans hset')]

theorem Made.lt (h : d.Made cmd ns) : ns < d.sets.length := by
  obtain ⟨set, hset, -⟩ := h
  exact lt_length_of_look hset

theorem look_make (d : NSDomain) (cmd : UInt32) (ns : ℕ) : look (d.make cmd).sets ns =
    if ns = d.sets.length then some (.new cmd) else look d.sets ns := by
  show look (d.sets ++ [_]) ns = _
  rw [look_append, Function.update_apply]

theorem look_make_of_lt (cmd : UInt32) (h : ns < d.sets.length) :
    look (d.make cmd).sets ns = look d.sets ns := by
  rw [look_make, if_neg h.ne]

theorem Made.make (h : d.Made cmd ns) (cmd' : UInt32) : (d.make cmd').Made cmd ns := by
  obtain ⟨set, hset, hcmd⟩ := h
  exact ⟨set, (look_make_of_lt cmd' (lt_length_of_look hset)).trans hset, hcmd⟩

theorem addSet_eq {set : NSNodeSet} (hset : look d.sets ns = some set) :
    d.addSet ns = { d with m_datas := Assoc.set d.m_datas set.m_cmd ns } := by
  unfold addSet
  rw [show d.sets[ns]? = some set from hset]

theorem get_addSet {set : NSNodeSet} (hset : look d.sets ns = some set) (cmd : UInt32) :
    (d.addSet ns).get cmd = if set.m_cmd = cmd then some ns else d.get cmd := by
  rw [addSet_eq hset]
  exact Assoc.find_set d.m_datas set.m_cmd cmd ns

theorem sets_addSet (d : NSDomain) (ns : ℕ) : (d.addSet ns).sets = d.sets := by
  unfold addSet
  split <;> rfl

theorem Made.addSet (h : d.Made cmd ns) (ns' : ℕ) : (d.addSet ns').Made cmd ns := by
  unfold Made
  rw [sets_addSet]
  exact h

theorem Made.update (h : d.Made cmd ns) (ns' : ℕ) {f : NSNodeSet → NSNodeSet}
    (hf : ∀ set, (f set).m_cmd = set.m_cmd) : (d.update ns' f).Made cmd ns := by
  obtain ⟨set, hset, hcmd⟩ := h
  unfold Made
  rw [look_update, hset]
  split
  · exact ⟨f set, rfl, (hf set).trans hcmd⟩
  · exact ⟨set, rfl, hcmd⟩

theorem node_make (h : d.Keyed) (cmd cmd' : UInt32) (id : UInt64) :
    (d.make cmd).node cmd' id = d.node cmd' id := by
  show (d.get cmd').bind _ = (d.get cmd').bind _
  cases hget : d.get cmd' with
  | none => rfl
  | some n => rw [Option.bind_some, Option.bind_some, look_make_of_lt cmd (h cmd' n hget).lt]

theorem node_addSet (hset : look d.sets ns = some (.new cmd)) (cmd' : UInt32) (id : UInt64) :
    (d.addSet ns).node cmd' id = if cmd = cmd' then none else d.node cmd' id := by
  unfold node
  rw [get_addSet hset, sets_addSet]
  show (if cmd = cmd' then _ else _ : Option ℕ).bind _ = _
  split
  · rw [Option.bind_some, hset]
    rfl
  · rfl

theorem node_addTo (h : d.Made cmd ns) (info : NSNode) (cmd' : UInt32) (id : UInt64) :
    (d.update ns (.add info)).node cmd' id =
      if d.get cmd' = some ns ∧ info.m_id = id then some info else d.node cmd' id := by
  obtain ⟨set, hset, -⟩ := h
  rw [node_update_of_look hset]
  by_cases hget : d.get cmd' = some ns
  · rw [if_pos hget, node_of_get hget hset]
    refine (Assoc.find_set set.m_datas info.m_id id info).trans ?_
    simp [hget]
  · rw [if_neg hget, if_neg fun heq => hget heq.1]

theorem node_delFrom (h : d.Made cmd ns) (id : UInt64) (cmd' : UInt32) (id' : UInt64) :
    (d.update ns (.del id)).node cmd' id' =
      if d.get cmd' = some ns ∧ id = id' then none else d.node cmd' id' := by
  obtain ⟨set, hset, -⟩ := h
  rw [node_update_of_look hset]
  by_cases hget : d.get cmd' = some ns
  · rw [if_pos hget, node_of_get hget hset]
    refine (Assoc.find_without set.m_datas id id').trans ?_
    simp [hget]
  · rw [if_neg hget, if_neg fun heq => hget heq.1]

end Node

def Section.set : Section → Option ℕ
  | .addSet ns | .addTo ns | .delFrom ns | .size ns => some ns
  | .get | .delSet => none

namespace Shared

variable {s s' : Shared} {call : Call} {i : Section} {next : List Section}

/-- What a section does, and what the call goes on with. -/
inductive Turns (s : Shared) : Call → Section → Shared → List Section → Prop
  | addFound {cmd : UInt32} {info : NSNode} {ns : ℕ} (h : s.domain.get cmd = some ns) :
      Turns s (.add cmd info) .get s [.addTo ns]
  | addMade {cmd : UInt32} {info : NSNode} : Turns s (.add cmd info) .get
      (s.onDomain (s.domain.make cmd)) [.addSet s.domain.sets.length]
  | addSet {cmd : UInt32} {info : NSNode} {ns : ℕ} : Turns s (.add cmd info) (.addSet ns)
      (s.onDomain (s.domain.addSet ns)) [.addTo ns]
  | addTo {cmd : UInt32} {info : NSNode} {ns : ℕ} : Turns s (.add cmd info) (.addTo ns)
      ⟨s.domain.update ns (.add info), (cmd, info.m_id) :: s.registered⟩ []
  | delFound {cmd : UInt32} {id : UInt64} {ns : ℕ} (h : s.domain.get cmd = some ns) :
      Turns s (.del cmd id) .get s [.delFrom ns]
  | delNone {cmd : UInt32} {id : UInt64} : Turns s (.del cmd id) .get s []
  | delFrom {cmd : UInt32} {id : UInt64} {ns : ℕ} : Turns s (.del cmd id) (.delFrom ns)
      (s.onDomain (s.domain.update ns (.del id))) [.size ns]
  | sizeZero {cmd : UInt32} {id : UInt64} {ns : ℕ} : Turns s (.del cmd id) (.size ns) s [.delSet]
  | size {cmd : UInt32} {id : UInt64} {ns : ℕ} : Turns s (.del cmd id) (.size ns) s []
  | delSet {cmd : UInt32} {id : UInt64} : Turns s (.del cmd id) .delSet
      (s.onDomain (s.domain.delSet cmd)) []

theorem exec_turns {t : Turn Shared Call Section} (h : s.exec call i = .ok t) :
    ∃ s' next, t = .only s' next ∧ Turns s call i s' next := by
  cases call with
  | add cmd info =>
    cases i with
    | get =>
      simp only [exec] at h
      split at h
      · next ns hget => exact ⟨_, _, (Except.ok.inj h).symm, .addFound hget⟩
      · exact ⟨_, _, (Except.ok.inj h).symm, .addMade⟩
    | addSet ns => exact ⟨_, _, (Except.ok.inj h).symm, .addSet⟩
    | addTo ns => exact ⟨_, _, (Except.ok.inj h).symm, .addTo⟩
    | delFrom ns => cases h
    | size ns => cases h
    | delSet => cases h
  | del cmd id =>
    cases i with
    | get =>
      simp only [exec] at h
      split at h
      · next ns hget => exact ⟨_, _, (Except.ok.inj h).symm, .delFound hget⟩
      · exact ⟨_, _, (Except.ok.inj h).symm, .delNone⟩
    | addSet ns => cases h
    | addTo ns => cases h
    | delFrom ns => exact ⟨_, _, (Except.ok.inj h).symm, .delFrom⟩
    | size ns =>
      simp only [exec] at h
      split at h
      · exact ⟨_, _, (Except.ok.inj h).symm, .sizeZero⟩
      · exact ⟨_, _, (Except.ok.inj h).symm, .size⟩
    | delSet => exact ⟨_, _, (Except.ok.inj h).symm, .delSet⟩

/-- A registered node is in the set that `get` returns. -/
def Kept (s : Shared) : Prop :=
  ∀ cmd id, (cmd, id) ∈ s.registered → ∃ x, s.domain.node cmd id = some x

theorem Kept.called (h : Kept s) (call : Call) : Kept (s.called call) := by
  cases call with
  | add cmd info => exact h
  | del cmd id => exact fun c n hr => h c n (List.mem_filter.mp hr).1

/-- A set is put under a command, or dropped, only while no node is registered there, and a node
is added to the set that the command has. -/
def Safe (s : Shared) : Call → Section → Prop
  | .add cmd _, .addSet _ => ∀ id, (cmd, id) ∉ s.registered
  | .add cmd _, .addTo ns => s.domain.get cmd = some ns
  | .del cmd _, .delSet => ∀ id, (cmd, id) ∉ s.registered
  | _, _ => True

def Owns (s : Shared) : Call → Section → Prop
  | .add _ _, .get => True
  | .add cmd _, .addSet ns =>
      look s.domain.sets ns = some (.new cmd) ∧ ∀ cmd', s.domain.get cmd' ≠ some ns
  | .add cmd info, .addTo ns =>
      s.domain.Made cmd ns ∧ (s.domain.get cmd = some ns ∨ s.domain.node cmd info.m_id = none)
  | .del cmd id, .get => (cmd, id) ∉ s.registered
  | .del cmd id, .delFrom ns => (cmd, id) ∉ s.registered ∧ s.domain.Made cmd ns
  | .del cmd _, .size ns => s.domain.Made cmd ns
  | .del _ _, .delSet => True
  | _, _ => False

theorem kept_iff_of_taken (hkept : Kept s) {cmd : UInt32}
    (hnode : ∀ c id, s'.domain.node c id = if cmd = c then none else s.domain.node c id)
    (hregistered : s'.registered = s.registered) : Kept s' ↔ ∀ id, (cmd, id) ∉ s.registered := by
  unfold Kept
  rw [hregistered]
  constructor
  · intro h id hr
    obtain ⟨x, hx⟩ := h cmd id hr
    rw [hnode, if_pos rfl] at hx
    cases hx
  · intro h c id hr
    rw [hnode, if_neg]
    · exact hkept c id hr
    · rintro rfl
      exact h id hr

/-- What is registered stays so exactly when the section is safe. -/
theorem Turns.kept (h : Turns s call i s' next) (hkeyed : s.domain.Keyed) (hown : Owns s call i)
    (hkept : Kept s) : Kept s' ↔ Safe s call i := by
  cases h with
  | addMade =>
    refine iff_of_true (fun c n hr => ?_) trivial
    obtain ⟨x, hx⟩ := hkept c n hr
    exact ⟨x, (node_make hkeyed _ c n).trans hx⟩
  | addSet => exact kept_iff_of_taken hkept (node_addSet hown.1) rfl
  | @addTo cmd info ns =>
    have hnode := node_addTo hown.1 info
    constructor
    · intro h
      obtain ⟨x, hx⟩ := h cmd info.m_id List.mem_cons_self
      change (s.domain.update ns (.add info)).node cmd info.m_id = some x at hx
      refine hown.2.elim (fun hget => hget) fun hnone => ?_
      rw [hnode, hnone] at hx
      split at hx
      · next hget => exact hget.1
      · cases hx
    · intro h c n hr
      show ∃ x, (s.domain.update ns (.add info)).node c n = some x
      rw [hnode]
      split
      · exact ⟨info, rfl⟩
      · next hne =>
        rcases List.mem_cons.mp hr with heq | hr
        · cases heq
          exact absurd ⟨h, rfl⟩ hne
        · exact hkept c n hr
  | @delFrom cmd n ns =>
    refine iff_of_true (fun c n' hr => ?_) trivial
    obtain ⟨x, hx⟩ := hkept c n' hr
    refine ⟨x, (node_delFrom hown.2 n c n').trans ?_⟩
    rw [if_neg]
    · exact hx
    · rintro ⟨hget, rfl⟩
      rw [(hkeyed c ns hget).inj hown.2] at hr
      exact hown.1 hr
  | delSet => exact kept_iff_of_taken hkept (node_delSet s.domain _) rfl
  | _ => exact iff_of_true hkept trivial

theorem Turns.keyed (h : Turns s call i s' next) (hkeyed : s.domain.Keyed) (hown : Owns s call i) :
    s'.domain.Keyed := by
  intro c n hget
  cases h with
  | addMade => exact (hkeyed c n hget).make _
  | @addSet cmd info ns =>
    refine Made.addSet ?_ ns
    have hget' := (get_addSet hown.1 c).symm.trans hget
    split at hget'
    · next hcmd =>
      cases hget'
      exact ⟨_, hown.1, hcmd⟩
    · exact hkeyed c n hget'
  | addTo => exact (hkeyed c n hget).update _ fun _ => rfl
  | delFrom => exact (hkeyed c n hget).update _ fun _ => rfl
  | @delSet cmd id =>
    have hget' := (get_delSet s.domain cmd c).symm.trans hget
    split at hget'
    · cases hget'
    · exact hkeyed c n hget'
  | _ => exact hkeyed c n hget

theorem Turns.owns (h : Turns s call i s' next) (hkeyed : s.domain.Keyed) (hown : Owns s call i) :
    next = [] ∨ ∃ i', next = [i'] ∧ Owns s' call i' := by
  cases h with
  | addFound h => exact .inr ⟨_, rfl, hkeyed _ _ h, .inl h⟩
  | delFound h => exact .inr ⟨_, rfl, hown, hkeyed _ _ h⟩
  | delNone => exact .inl rfl
  | sizeZero => exact .inr ⟨_, rfl, trivial⟩
  | size => exact .inl rfl
  | addTo => exact .inl rfl
  | delSet => exact .inl rfl
  | @addMade cmd info =>
    refine .inr ⟨_, rfl, ?_, fun c hget => (hkeyed c _ hget).lt.ne rfl⟩
    exact (look_make s.domain cmd _).trans (if_pos rfl)
  | @addSet cmd info ns =>
    refine .inr ⟨_, rfl, Made.addSet ⟨_, hown.1, rfl⟩ ns, .inl ?_⟩
    exact (get_addSet hown.1 cmd).trans (if_pos rfl)
  | delFrom => exact .inr ⟨_, rfl, hown.2.update _ fun _ => rfl⟩

theorem Turns.made (h : Turns s call i s' next) {c : UInt32} {n : ℕ} (hmade : s.domain.Made c n) :
    s'.domain.Made c n := by
  cases h with
  | addMade => exact hmade.make _
  | addSet => exact hmade.addSet _
  | addTo => exact hmade.update _ fun _ => rfl
  | delFrom => exact hmade.update _ fun _ => rfl
  | _ => exact hmade

theorem Turns.registered (h : Turns s call i s' next) {r : UInt32 × UInt64} (hr : r ∈ s'.registered) :
    r ∈ s.registered ∨ r.2 = call.id := by
  cases h with
  | addTo =>
    rcases List.mem_cons.mp hr with rfl | hr
    · exact .inr rfl
    · exact .inl hr
  | _ => exact .inl hr

theorem Turns.fresh (h : Turns s call i s' next) (hown : Owns s call i) {c : UInt32} {n : ℕ}
    (hset : i.set ≠ some n)
    (hlook : look s.domain.sets n = some (.new c)) (hget : ∀ cmd, s.domain.get cmd ≠ some n) :
    look s'.domain.sets n = some (.new c) ∧ ∀ cmd, s'.domain.get cmd ≠ some n := by
  cases h with
  | addMade => exact ⟨(look_make_of_lt _ (lt_length_of_look hlook)).trans hlook, hget⟩
  | @addSet cmd info ns =>
    refine ⟨(congrArg (fun sets => look sets n) (sets_addSet s.domain ns)).trans hlook, ?_⟩
    intro cmd' hget'
    have hget' := (get_addSet hown.1 cmd').symm.trans hget'
    split at hget'
    · exact hset hget'
    · exact hget cmd' hget'
  | @addTo cmd info ns =>
    refine ⟨(look_update s.domain ns _ n).trans ?_, hget⟩
    rw [if_neg fun hn => hset (congrArg some hn)]
    exact hlook
  | @delFrom cmd id ns =>
    refine ⟨(look_update s.domain ns _ n).trans ?_, hget⟩
    rw [if_neg fun hn => hset (congrArg some hn)]
    exact hlook
  | @delSet cmd id =>
    refine ⟨hlook, fun cmd' hget' => ?_⟩
    have hget' := (get_delSet s.domain cmd cmd').symm.trans hget'
    split at hget'
    · cases hget'
    · exact hget cmd' hget'
  | _ => exact ⟨hlook, hget⟩

/-- A set that has been replaced, or dropped, is not the one that has the node. -/
theorem Turns.target (h : Turns s call i s' next) (hkeyed : s.domain.Keyed) (hown : Owns s call i)
    {c : UInt32} {n : ℕ} {id : UInt64} (hid : call.id ≠ id)
    (htarget : s.domain.get c = some n ∨ s.domain.node c id = none) :
    s'.domain.get c = some n ∨ s'.domain.node c id = none := by
  cases h with
  | addMade => exact htarget.imp_right (node_make hkeyed _ c id).trans
  | @addSet cmd info ns =>
    by_cases hcmd : cmd = c
    · exact .inr ((node_addSet hown.1 c id).trans (if_pos hcmd))
    · refine htarget.imp (fun hget => ?_) fun hnone => ?_
      · exact (get_addSet hown.1 c).trans ((if_neg hcmd).trans hget)
      · exact (node_addSet hown.1 c id).trans ((if_neg hcmd).trans hnone)
  | addTo =>
    refine htarget.imp_right fun hnone => (node_addTo hown.1 _ c id).trans ?_
    rw [if_neg fun heq => hid heq.2]
    exact hnone
  | delFrom =>
    refine htarget.imp_right fun hnone => (node_delFrom hown.2 _ c id).trans ?_
    rw [hnone, ite_self]
  | @delSet cmd id' =>
    by_cases hcmd : cmd = c
    · exact .inr ((node_delSet s.domain cmd c id).trans (if_pos hcmd))
    · refine htarget.imp (fun hget => ?_) fun hnone => ?_
      · exact (get_delSet s.domain cmd c).trans ((if_neg hcmd).trans hget)
      · exact (node_delSet s.domain cmd c id).trans ((if_neg hcmd).trans hnone)
  | _ => exact htarget

theorem Turns.owns_other (h : Turns s call i s' next) (hkeyed : s.domain.Keyed) (hown : Owns s call i)
    {call' : Call} {i' : Section} (hid : call.id ≠ call'.id)
    (hset : ∀ ns, i' = .addSet ns → i.set ≠ some ns) (hown' : Owns s call' i') : Owns s' call' i' := by
  have hnot : ∀ cmd, (cmd, call'.id) ∉ s.registered → (cmd, call'.id) ∉ s'.registered :=
    fun cmd hr hr' => (h.registered hr').elim hr (Ne.symm hid)
  cases call' with
  | add cmd info =>
    cases i' with
    | get => exact trivial
    | addSet ns => exact h.fresh hown (hset ns rfl) hown'.1 hown'.2
    | addTo ns => exact ⟨h.made hown'.1, h.target hkeyed hown hid hown'.2⟩
    | _ => exact hown'
  | del cmd id =>
    cases i' with
    | get => exact hnot cmd hown'
    | delFrom ns => exact ⟨hnot cmd hown'.1, h.made hown'.2⟩
    | size ns => exact h.made hown'
    | delSet => exact trivial
    | _ => exact hown'

theorem owns_get (s : Shared) (call : Call) : Owns (s.called call) call .get := by
  cases call with
  | add cmd info => exact trivial
  | del cmd id =>
    intro hr
    simpa using (List.mem_filter.mp hr).2

theorem Owns.called (h : Owns s call i) {call' : Call} (hid : call.id ≠ call'.id) :
    Owns (s.called call') call i := by
  cases call' with
  | add cmd info => exact h
  | del cmd id =>
    have hnot : ∀ r, r ∉ s.registered → r ∉ (s.called (.del cmd id)).registered :=
      fun r hr hr' => hr (List.mem_filter.mp hr').1
    cases call with
    | add cmd' info =>
      cases i with
      | _ => exact h
    | del cmd' id' =>
      cases i with
      | get => exact hnot _ h
      | delFrom ns => exact ⟨hnot _ h.1, h.2⟩
      | _ => exact h

theorem Owns.lt (h : Owns s call i) {ns : ℕ} (hset : i.set = some ns) : ns < s.domain.sets.length := by
  cases call with
  | add cmd info =>
    cases i with
    | get => cases hset
    | addSet n =>
      cases hset
      exact lt_length_of_look h.1
    | addTo n =>
      cases hset
      exact h.1.lt
    | _ => exact h.elim
  | del cmd id =>
    cases i with
    | get => cases hset
    | delFrom n =>
      cases hset
      exact h.2.lt
    | size n =>
      cases hset
      exact h.lt
    | delSet => cases hset
    | _ => exact h.elim

theorem Owns.notUsed {ns : ℕ} (h : Owns s call (.addSet ns)) (cmd : UInt32) :
    s.domain.get cmd ≠ some ns := by
  cases call with
  | add c info => exact h.2 cmd
  | del c id => exact h.elim

/-- A call goes on with its set, the one that it has found or one that is new. -/
theorem Turns.set_next (h : Turns s call i s' next) {i' : Section} (hi : i' ∈ next) {n : ℕ}
    (hset : i'.set = some n) :
    i.set = some n ∨ (∃ c, s.domain.get c = some n) ∨ n = s.domain.sets.length := by
  cases h with
  | addFound h | delFound h =>
    cases List.mem_singleton.mp hi
    exact .inr (.inl ⟨_, h.trans hset⟩)
  | addMade =>
    cases List.mem_singleton.mp hi
    exact .inr (.inr (Option.some.inj hset).symm)
  | addSet | delFrom =>
    cases List.mem_singleton.mp hi
    exact .inl hset
  | sizeZero =>
    cases List.mem_singleton.mp hi
    cases hset
  | _ => cases hi

theorem Turns.addSet_next (h : Turns s call i s' next) {n : ℕ} (hi : .addSet n ∈ next) :
    n = s.domain.sets.length := by
  cases h with
  | addMade => exact Section.addSet.inj (List.mem_singleton.mp hi)
  | _ => simp at hi

end Shared

namespace Calls

open Shared

variable {f f' : Calls}

/-- Two calls that have not come to their end are for different nodes, and none has the set that
the other has just made. -/
structure Apart (u v : Thread Call Section) : Prop where
  ids : u.code ≠ [] → v.code ≠ [] → u.role.id ≠ v.role.id
  sets : ∀ ns, .addSet ns ∈ u.code → ∀ i ∈ v.code, i.set ≠ some ns

structure Inv (f : Calls) : Prop where
  keyed : f.shared.domain.Keyed
  owns : ∀ j u, look f.threads j = some u →
    u.code = [] ∨ ∃ i, u.code = [i] ∧ Owns f.shared u.role i
  apart : ∀ j l u v, j ≠ l → look f.threads j = some u → look f.threads l = some v → Apart u v

theorem Inv.mem (h : Inv f) {j : ℕ} {u : Thread Call Section} (hu : look f.threads j = some u)
    {i : Section} (hi : i ∈ u.code) : u.code = [i] ∧ Owns f.shared u.role i := by
  rcases h.owns j u hu with hnil | ⟨i', hcode, hown⟩
  · rw [hnil] at hi
    cases hi
  · rw [hcode, List.mem_singleton] at hi
    subst hi
    exact ⟨hcode, hown⟩

theorem Inv.init (domain : String) : Inv (init domain) where
  keyed := fun cmd ns hget => by cases hget
  owns := fun j u hu => by cases hu
  apart := fun j l u v _ hu => by cases hu

theorem Inv.turn (h : Inv f) {k : ℕ} {call : Call} {i : Section} {rest next : List Section}
    {s' : Shared} (hk : look f.threads k = some ⟨call, i :: rest⟩)
    (hturns : Turns f.shared call i s' next) :
    Inv (f.after id k call rest (.only s' next)) := by
  obtain ⟨hcode, hown⟩ := h.mem hk List.mem_cons_self
  cases hcode
  refine ⟨hturns.keyed h.keyed hown, ?_, ?_⟩
  · refine Threads.forall_after_only id hk ?_ ?_
    · rw [List.append_nil]
      exact hturns.owns h.keyed hown
    · intro j u hj hu
      rcases h.owns j u hu with hnil | ⟨i', hcode, hown'⟩
      · exact .inl hnil
      · have hapart := h.apart j k u _ hj hu hk
        refine .inr ⟨i', hcode, hturns.owns_other h.keyed hown ?_ ?_ hown'⟩
        · exact Ne.symm (hapart.ids (by simp [hcode]) (by simp))
        · rintro ns rfl
          exact hapart.sets ns (by simp [hcode]) i List.mem_cons_self
  · refine Threads.pairs_after hk rfl rfl (fun j u hj hu => ?_) h.apart
    have hapart := h.apart k j _ u hj.symm hk hu
    have hapart' := h.apart j k u _ hj hu hk
    rw [List.append_nil]
    refine ⟨⟨fun _ => hapart.ids (by simp), ?_⟩, ⟨fun hne _ => hapart'.ids hne (by simp), ?_⟩⟩
    · intro ns hadd i' hi' hset
      exact ((h.mem hu hi').2.lt hset).ne (hturns.addSet_next hadd)
    · intro ns hadd i' hi' hset
      have hown' := (h.mem hu hadd).2
      rcases hturns.set_next hi' hset with hi | ⟨c, hget⟩ | hnew
      · exact hapart'.sets ns hadd i List.mem_cons_self hi
      · exact hown'.notUsed c hget
      · exact (hown'.lt rfl).ne hnew

theorem Inv.start (h : Inv f) {call : Call}
    (hidle : ∀ u ∈ f.threads, u.code ≠ [] → u.role.id ≠ call.id) :
    Inv (f.start (f.shared.called call) call [.get]) := by
  have hdomain : (f.shared.called call).domain = f.shared.domain := by
    cases call <;> rfl
  have hids : ∀ {j u}, look f.threads j = some u → u.code ≠ [] → u.role.id ≠ call.id :=
    fun hu => hidle _ (List.mem_of_getElem? hu)
  refine ⟨?_, ?_, ?_⟩
  · intro cmd ns
    show (f.shared.called call).domain.get cmd = some ns → (f.shared.called call).domain.Made cmd ns
    rw [hdomain]
    exact h.keyed cmd ns
  · intro j u hu
    rcases Threads.look_start_cases hu with ⟨-, rfl⟩ | hu
    · exact .inr ⟨_, rfl, owns_get f.shared call⟩
    · refine (h.owns j u hu).imp_right fun ⟨i, hcode, hown⟩ => ⟨i, hcode, ?_⟩
      exact hown.called (hids hu (by simp [hcode]))
  · intro j l u v hjl hu hv
    rcases Threads.look_start_cases hu with ⟨hj, rfl⟩ | hu
    · rcases Threads.look_start_cases hv with ⟨hl, rfl⟩ | hv
      · exact absurd (hj.trans hl.symm) hjl
      · exact ⟨fun _ hne => (hids hv hne).symm, by simp⟩
    · rcases Threads.look_start_cases hv with ⟨hl, rfl⟩ | hv
      · exact ⟨fun hne _ => hids hu hne, by simp [Section.set]⟩
      · exact h.apart j l u v hjl hu hv

def SafeMove (f : Calls) : Move → Prop
  | .start _ => True
  | .turn k => ∀ call i rest, look f.threads k = some ⟨call, i :: rest⟩ → Safe f.shared call i

theorem step_kept (h : Inv f) (hkept : Kept f.shared) {m : Move} (hs : step f m = .ok f') :
    Inv f' ∧ (Kept f'.shared ↔ SafeMove f m) := by
  cases m with
  | start call =>
    simp only [step] at hs
    split at hs
    · cases hs
    · next hidle =>
      cases hs
      refine ⟨h.start ?_, iff_of_true ?_ trivial⟩
      · simpa using hidle
      · exact hkept.called call
  | turn k =>
    simp only [step] at hs
    obtain ⟨call, i, rest, t, ⟨hk, hexec⟩, rfl⟩ := Threads.run_ran hs
    obtain ⟨s', next, rfl, hturns⟩ := exec_turns hexec
    have hown := (h.mem hk List.mem_cons_self).2
    refine ⟨h.turn hk hturns, (hturns.kept h.keyed hown hkept).trans ⟨?_, fun hsafe => hsafe _ _ _ hk⟩⟩
    intro hsafe call' i' rest' hk'
    cases hk.symm.trans hk'
    exact hsafe

/-- However the sections of the calls of different sessions follow each other. -/
theorem kept_iff_safe (domain : String) (moves : List Move) :
    Along step (fun f => Kept f.shared) (init domain) moves ↔
      Each step SafeMove (init domain) moves := by
  refine along_iff_each Inv _ (fun _ _ => True) _ ?_ moves _ (.init domain) ?_ (each_true moves _)
  · intro f m f' hinv hkept _ hs
    exact step_kept hinv hkept hs
  · intro cmd id hr
    cases hr

/-- Two sessions add the first nodes of a command, and both find that it has no set. -/
theorem not_kept_of_two : ¬ ∀ domain moves, Along step (fun f => Kept f.shared) (init domain) moves := by
  intro hall
  have h := (hall "a" [.start (.add 1 ⟨80, "127.0.0.1", 80, 1⟩), .start (.add 1 ⟨81, "127.0.0.1", 81, 1⟩),
    .turn 0, .turn 1, .turn 0, .turn 0, .turn 1]).last rfl
  obtain ⟨x, hx⟩ := h 1 80 (by decide)
  cases hx

end Calls

end NSDomain

end Sylar
