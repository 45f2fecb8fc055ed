import Sylar.Spec.ZkServiceDiscovery
import Sylar.Proofs.LoadBalance

/-! What ZooKeeper lists of a service reaches its balancer. While a path is watched, the table of
its service is that of the names ZooKeeper has there, unless a thread is on its way to change it.
A watch that is gone has left an event that is still to be told, or a thread that is to read. At
most one thread is between reading its children and the end of the callback. -/

namespace Sylar

open Lib ZKClient

namespace Services

theorem mem_keys_set {I : Type} (services : Services I) (k : UInt64) (info : I) (id : UInt64) :
    id ∈ (services.set k info).keys ↔ id = k ∨ id ∈ services.keys := by
  show id ∈ k :: (Assoc.without services.pairs k).map Prod.fst ↔ _
  rw [List.mem_cons, Assoc.keys_without, List.mem_filter]
  unfold keys
  by_cases h : id = k
  · simp [h]
  · simp [h]

end Services

namespace ZKServiceDiscovery

variable {T : Type} {inet_addr : String → UInt32} {cb : UInt64 → ServiceItemInfo → Option T}
  {s s' : ZKServiceDiscovery T} {d sv d' sv' : String}

/-- Some of these names is a service item with this id. -/
def Named (inet_addr : String → UInt32) (vals : List String) (id : UInt64) : Prop :=
  ∃ name ∈ vals, ∃ info, ServiceItemInfo.Create inet_addr name "" = some info ∧ info.m_id = id

theorem mem_enter (infos : Services ServiceItemInfo) (i : String) (id : UInt64) :
    id ∈ (enter inet_addr infos i).keys ↔ id ∈ infos.keys ∨
      ∃ info, ServiceItemInfo.Create inet_addr i "" = some info ∧ info.m_id = id := by
  unfold enter
  cases ServiceItemInfo.Create inet_addr i "" with
  | none => simp
  | some info =>
    rw [Services.mem_keys_set, or_comm]
    simp [eq_comm]

theorem mem_foldl_enter (vals : List String) (infos : Services ServiceItemInfo) (id : UInt64) :
    id ∈ (vals.foldl (enter inet_addr) infos).keys ↔ id ∈ infos.keys ∨ Named inet_addr vals id := by
  unfold Named
  induction vals generalizing infos with
  | nil => simp
  | cons i vals ih =>
    rw [List.foldl_cons, ih, mem_enter, or_assoc]
    simp [List.mem_cons, or_and_right, exists_or]

theorem mem_infosOf (vals : List String) (id : UInt64) :
    id ∈ (infosOf inet_addr vals).keys ↔ Named inet_addr vals id := by
  have hnil : id ∉ (Services.empty : Services ServiceItemInfo).keys := List.not_mem_nil
  unfold infosOf
  rw [mem_foldl_enter, or_iff_right hnil]

theorem splitOn_eq_self {x : Char} {l : List Char} (h : (l.splitOn x).length ≤ 1) : l.splitOn x = [l] := by
  have hl : [x].intercalate (l.splitOn x) = l := List.intercalate_splitOn x
  cases hs : l.splitOn x with
  | nil => exact absurd hs (List.splitOn_ne_nil x l)
  | cons p ps =>
    rw [hs, List.length_cons] at h
    obtain rfl : ps = [] := List.eq_nil_of_length_eq_zero (by omega)
    rw [hs, List.intercalate_singleton] at hl
    rw [hl]

theorem splitOn_providers (d sv : String) : (GetProvidersPath d sv).toList.splitOn '/' =
    [] :: "Sylar".toList :: (d.toList.splitOn '/' ++ (sv.toList.splitOn '/' ++ ["providers".toList])) := by
  have hpath : (GetProvidersPath d sv).toList = [] ++ '/' :: ("Sylar".toList ++ '/' ::
      (d.toList ++ '/' :: (sv.toList ++ '/' :: "providers".toList))) := by
    simp [GetProvidersPath]
  rw [hpath, List.splitOn_append_cons_self, List.splitOn_append_cons_self, List.splitOn_append_cons_self,
    List.splitOn_append_cons_self]
  rfl

theorem parse_eq_some {path : String} (h : ParseDomainService path = some (d, sv)) :
    ∃ a b c, (path.toList.splitOn '/').map String.ofList = [a, b, d, sv, c] := by
  unfold ParseDomainService at h
  split at h
  · rename_i a b _ _ c heq
    cases h
    exact ⟨a, b, c, heq⟩
  · cases h

/-- A path that can be taken apart gives back what it was made of. -/
theorem parse_providers (h : ParseDomainService (GetProvidersPath d sv) = some (d', sv')) :
    d' = d ∧ sv' = sv := by
  obtain ⟨a, b, c, heq⟩ := parse_eq_some h
  have hlen := congrArg List.length heq
  have hd := List.length_pos_iff.mpr (List.splitOn_ne_nil '/' d.toList)
  have hsv := List.length_pos_iff.mpr (List.splitOn_ne_nil '/' sv.toList)
  simp only [splitOn_providers, List.length_map, List.length_cons, List.length_append,
    List.length_nil] at hlen
  rw [splitOn_providers, splitOn_eq_self (show (d.toList.splitOn '/').length ≤ 1 by omega),
    splitOn_eq_self (show (sv.toList.splitOn '/').length ≤ 1 by omega)] at heq
  simp only [List.map_cons, List.singleton_append, List.map_nil, String.ofList_toList,
    List.cons.injEq] at heq
  exact ⟨heq.2.2.1.symm, heq.2.2.2.1.symm⟩

def Plain (d sv : String) : Prop := ParseDomainService (GetProvidersPath d sv) = some (d, sv)

theorem Plain.inj (h : Plain d sv) (heq : GetProvidersPath d' sv' = GetProvidersPath d sv) :
    d' = d ∧ sv' = sv := by
  have hparse : ParseDomainService (GetProvidersPath d' sv') = some (d, sv) := heq ▸ h
  exact ⟨(parse_providers hparse).1.symm, (parse_providers hparse).2.symm⟩

/-- The thread has read the children of the service, and is not at the end of the callback. -/
def Instr.inCall (d sv : String) : Instr → Bool
  | .swap d' sv' _ | .m_cb d' sv' _ _ => d' = d ∧ sv' = sv
  | _ => false

/-- The thread is to read the children of the path. -/
def Instr.reads (p : String) : Instr → Prop
  | .getChildren p' | .read p' _ _ => p' = p
  | _ => False

/-- While the path is watched, these are the items that ZooKeeper has there. -/
def Fresh (inet_addr : String → UInt32) (s : ZKServiceDiscovery T) (d sv : String)
    (infos : Services ServiceItemInfo) : Prop :=
  GetProvidersPath d sv ∈ s.watches →
    ∃ vals, Assoc.find s.nodes (GetProvidersPath d sv) = some vals ∧ infos = infosOf inet_addr vals

def Stage (inet_addr : String → UInt32) (s : ZKServiceDiscovery T)
    (last : String → String → Services ServiceItemInfo) (d sv : String) : Option Instr → Prop
  | none => last d sv = s.table d sv ∧ Fresh inet_addr s d sv (s.table d sv)
  | some (.swap _ _ infos) => last d sv = s.table d sv ∧ Fresh inet_addr s d sv infos
  | some (.m_cb _ _ old new_vals) =>
      last d sv = old ∧ s.table d sv = new_vals ∧ Fresh inet_addr s d sv new_vals
  | some _ => True

/-- The next change will be noticed, or a change was noticed and is not forgotten, or nobody was told. -/
def Kept (s : ZKServiceDiscovery T) (b : List Instr) (d sv : String) : Prop :=
  GetProvidersPath d sv ∈ s.watches ∨ GetProvidersPath d sv ∈ s.unwatched ∨
    ⟨.CHILD, .CONNECTED, GetProvidersPath d sv⟩ ∈ s.events ∨ ∃ i ∈ b, i.reads (GetProvidersPath d sv)

/-- `b` is what the threads have to do, and `last` what the balancer was last told. -/
structure Books (inet_addr : String → UInt32) (s : ZKServiceDiscovery T) (b : List Instr)
    (last : String → String → Services ServiceItemInfo) : Prop where
  follows : SDLoadBalance.Watched.Inv ⟨s.lb, last⟩
  stage : ∀ d sv, ∃ c : Option Instr, b.filter (Instr.inCall d sv) = c.toList ∧
    Stage inet_addr s last d sv c
  kept : ∀ d sv, (SDLoadBalance.find2 s.m_datas d sv).isSome = true ∨
    b.filter (Instr.inCall d sv) ≠ [] → Kept s b d sv
  watches : ∀ p ∈ s.watches, ∃ d sv, p = GetProvidersPath d sv
  events : ∀ e ∈ s.events, e.type = .CHILD → ∃ d sv, e.path = GetProvidersPath d sv
  gets : ∀ p, .getChildren p ∈ b → ∃ d sv, p = GetProvidersPath d sv
  reads : ∀ p d sv, .read p d sv ∈ b → p = GetProvidersPath d sv ∧ Plain d sv

section

variable {b b' : List Instr} {last : String → String → Services ServiceItemInfo}

theorem Kept.mono (h : Kept s b d sv) (hwatches : ∀ p ∈ s.watches, p ∈ s'.watches ∨ p ∈ s'.unwatched)
    (hunwatched : ∀ p ∈ s.unwatched, p ∈ s'.unwatched ∨ p ∈ s'.watches)
    (hevents : ∀ e ∈ s.events, e.type = .CHILD → e ∈ s'.events ∨ e.path ∈ s'.unwatched)
    (hb : ∀ i ∈ b, ∀ p, i.reads p → (∃ j ∈ b', j.reads p) ∨ p ∈ s'.watches ∨ p ∈ s'.unwatched) :
    Kept s' b' d sv := by
  rcases h with h | h | h | ⟨i, hi, hread⟩
  · rcases hwatches _ h with h | h
    · exact .inl h
    · exact .inr (.inl h)
  · rcases hunwatched _ h with h | h
    · exact .inr (.inl h)
    · exact .inl h
  · rcases hevents _ h rfl with h | h
    · exact .inr (.inr (.inl h))
    · exact .inr (.inl h)
  · rcases hb i hi _ hread with h | h | h
    · exact .inr (.inr (.inr h))
    · exact .inl h
    · exact .inr (.inl h)

theorem Kept.of_reads (h : Kept s b d sv) (hb : ∀ i ∈ b, ∀ p, i.reads p → ∃ j ∈ b', j.reads p) :
    Kept s b' d sv :=
  h.mono (fun _ hp => .inl hp) (fun _ hp => .inl hp) (fun _ he _ => .inl he)
    fun i hi p hp => .inl (hb i hi p hp)

theorem Stage.mono {last' : String → String → Services ServiceItemInfo} {c : Option Instr}
    (h : Stage inet_addr s last d sv c) (hlast : last' d sv = last d sv)
    (htable : s'.table d sv = s.table d sv)
    (hfresh : ∀ infos, Fresh inet_addr s d sv infos → Fresh inet_addr s' d sv infos) :
    Stage inet_addr s' last' d sv c := by
  rcases c with _ | i
  · exact ⟨hlast.trans (h.1.trans htable.symm), htable ▸ hfresh _ h.2⟩
  · cases i with
    | swap _ _ infos => exact ⟨hlast.trans (h.1.trans htable.symm), hfresh _ h.2⟩
    | m_cb _ _ old new_vals => exact ⟨hlast.trans h.1, htable.trans h.2.1, hfresh _ h.2.2⟩
    | _ => trivial

theorem Books.perm (h : Books inet_addr s b last) (hb : b.Perm b') : Books inet_addr s b' last where
  follows := h.follows
  stage d sv := by
    obtain ⟨c, hc, hstage⟩ := h.stage d sv
    refine ⟨c, ?_, hstage⟩
    have hperm : (b'.filter (Instr.inCall d sv)).Perm c.toList := hc ▸ (hb.filter _).symm
    cases c with
    | none => exact hperm.eq_nil
    | some i => exact List.perm_singleton.mp hperm
  kept d sv hknown := by
    have hne : b'.filter (Instr.inCall d sv) ≠ [] → b.filter (Instr.inCall d sv) ≠ [] := fun hne heq =>
      hne (heq ▸ (hb.filter (Instr.inCall d sv)).symm).eq_nil
    exact (h.kept d sv (hknown.imp_right hne)).of_reads fun i hi p hp => ⟨i, hb.mem_iff.mp hi, hp⟩
  watches := h.watches
  events := h.events
  gets p hp := h.gets p (hb.mem_iff.mpr hp)
  reads p d sv hp := h.reads p d sv (hb.mem_iff.mpr hp)

theorem Books.move (h : Books inet_addr s b last) (hfollows : SDLoadBalance.Watched.Inv ⟨s'.lb, last⟩)
    (hdatas : s'.m_datas = s.m_datas)
    (hfresh : ∀ d sv infos, Fresh inet_addr s d sv infos → Fresh inet_addr s' d sv infos)
    (hcall : ∀ d sv, b'.filter (Instr.inCall d sv) = b.filter (Instr.inCall d sv))
    (hkept : ∀ d sv, Kept s b d sv → Kept s' b' d sv) (hwatches : ∀ p ∈ s'.watches, p ∈ s.watches)
    (hevents : ∀ e ∈ s'.events, e.type = .CHILD → e ∈ s.events ∨ e.path ∈ s.watches)
    (hgets : ∀ p, .getChildren p ∈ b' → ∃ d sv, p = GetProvidersPath d sv)
    (hreads : ∀ p d sv, .read p d sv ∈ b' → p = GetProvidersPath d sv ∧ Plain d sv) :
    Books inet_addr s' b' last where
  follows := hfollows
  stage d sv := by
    have htable : s'.table d sv = s.table d sv := by
      unfold table
      rw [hdatas]
    obtain ⟨c, hc, hstage⟩ := h.stage d sv
    exact ⟨c, (hcall d sv).trans hc, hstage.mono rfl htable (hfresh d sv)⟩
  kept d sv hknown := hkept d sv (h.kept d sv (by rwa [hcall, hdatas] at hknown))
  watches p hp := h.watches p (hwatches p hp)
  events e he hchild := by
    rcases hevents e he hchild with hold | hwatch
    · exact h.events e hold hchild
    · exact h.watches e.path hwatch
  gets := hgets
  reads := hreads

end

@[simp] theorem drop_lb (p : String) : (s.drop p).lb = s.lb := by
  unfold drop
  split <;> rfl

@[simp] theorem drop_m_datas (p : String) : (s.drop p).m_datas = s.m_datas := by
  unfold drop
  split <;> rfl

@[simp] theorem drop_nodes (p : String) : (s.drop p).nodes = s.nodes := by
  unfold drop
  split <;> rfl

@[simp] theorem drop_watches (p : String) : (s.drop p).watches = s.watches := by
  unfold drop
  split <;> rfl

@[simp] theorem drop_events (p : String) : (s.drop p).events = s.events := by
  unfold drop
  split <;> rfl

theorem drop_unwatched {p q : String} (h : q ∈ s.unwatched) : q ∈ (s.drop p).unwatched := by
  unfold drop
  split
  · exact h
  · exact List.mem_cons_of_mem p h

theorem drop_dropped (p : String) : p ∈ (s.drop p).watches ∨ p ∈ (s.drop p).unwatched := by
  unfold drop
  split
  · next hp => exact .inl hp
  · exact .inr List.mem_cons_self

section

variable {i : Instr} {nexts others : List Instr} {last : String → String → Services ServiceItemInfo}

theorem filter_next (hi : ∀ d sv, i.inCall d sv = false)
    (hnext : ∀ j ∈ nexts, ∀ d sv, j.inCall d sv = false) (d sv : String) :
    (nexts ++ others).filter (Instr.inCall d sv) = (i :: others).filter (Instr.inCall d sv) := by
  have hnil : nexts.filter (Instr.inCall d sv) = [] :=
    List.filter_eq_nil_iff.mpr fun j hj => by simp [hnext j hj d sv]
  rw [List.filter_append, hnil, List.nil_append, List.filter_cons_of_neg (by simp [hi d sv])]

theorem Books.pass (h : Books inet_addr s (i :: others) last) (hi : ∀ d sv, i.inCall d sv = false)
    (hnext : ∀ j ∈ nexts, ∀ d sv, j.inCall d sv = false)
    (hread : ∀ p, i.reads p → ∃ j ∈ nexts, j.reads p)
    (hgets : ∀ p, .getChildren p ∈ nexts → ∃ d sv, p = GetProvidersPath d sv)
    (hreads : ∀ p d sv, .read p d sv ∈ nexts → p = GetProvidersPath d sv ∧ Plain d sv) :
    Books inet_addr s (nexts ++ others) last := by
  refine h.move h.follows rfl (fun _ _ _ hf => hf) (filter_next hi hnext) (fun d sv hk => ?_) (fun _ hp => hp)
    (fun _ he _ => .inl he) (fun p hp => ?_) fun p d sv hp => ?_
  · refine hk.of_reads fun j hj p hp => ?_
    rcases List.mem_cons.mp hj with rfl | hj
    · obtain ⟨j', hj', hp'⟩ := hread p hp
      exact ⟨j', List.mem_append_left _ hj', hp'⟩
    · exact ⟨j, List.mem_append_right _ hj, hp⟩
  · rcases List.mem_append.mp hp with hp | hp
    · exact hgets p hp
    · exact h.gets p (List.mem_cons_of_mem _ hp)
  · rcases List.mem_append.mp hp with hp | hp
    · exact hreads p d sv hp
    · exact h.reads p d sv (List.mem_cons_of_mem _ hp)

theorem Books.drop (h : Books inet_addr s (i :: others) last) (hi : ∀ d sv, i.inCall d sv = false)
    {p : String} (hread : ∀ p', i.reads p' → p' = p) : Books inet_addr (s.drop p) others last := by
  have hfollows : SDLoadBalance.Watched.Inv ⟨(s.drop p).lb, last⟩ := by
    rw [drop_lb]
    exact h.follows
  refine h.move hfollows (drop_m_datas p) (fun d sv infos hf => ?_)
    (filter_next hi fun _ hj => absurd hj List.not_mem_nil) (fun d sv hk => ?_)
    (fun _ hp => by rwa [drop_watches] at hp) (fun _ he _ => .inl (by rwa [drop_events] at he))
    (fun p hp => h.gets p (List.mem_cons_of_mem _ hp)) fun p d sv hp =>
      h.reads p d sv (List.mem_cons_of_mem _ hp)
  · unfold Fresh
    rw [drop_watches, drop_nodes]
    exact hf
  · refine hk.mono (fun _ hp => .inl (by rwa [drop_watches])) (fun _ hp => .inl (drop_unwatched hp))
      (fun _ he _ => .inl (by rwa [drop_events])) fun j hj p' hp => ?_
    rcases List.mem_cons.mp hj with rfl | hj
    · obtain rfl := hread p' hp
      exact .inr (drop_dropped _)
    · exact .inl ⟨j, hj, hp⟩

theorem Books.own (h : Books inet_addr s (i :: others) last) (hi : i.inCall d sv = true) :
    others.filter (Instr.inCall d sv) = [] ∧ Stage inet_addr s last d sv (some i) := by
  obtain ⟨c, hc, hstage⟩ := h.stage d sv
  rw [List.filter_cons_of_pos hi] at hc
  cases c with
  | none => cases hc
  | some j =>
    obtain ⟨rfl, hnil⟩ := List.cons.inj hc
    exact ⟨hnil, hstage⟩

/-- The children of a path are read, and it is watched from then on. -/
theorem Books.read {p : String} (h : Books inet_addr s (.read p d sv :: others) last)
    (hapart : others.filter (Instr.inCall d sv) = []) {vals : List String}
    (hvals : Assoc.find s.nodes p = some vals) :
    Books inet_addr { s with
        watches := p :: s.watches.filter (· ≠ p)
        unwatched := s.unwatched.filter (· ≠ p) }
      ([.swap d sv (infosOf inet_addr vals)] ++ others) last := by
  obtain ⟨rfl, hplain⟩ := h.reads p d sv List.mem_cons_self
  have hnone : ∀ d' sv', ((.read (GetProvidersPath d sv) d sv :: others).filter (Instr.inCall d' sv')) =
      others.filter (Instr.inCall d' sv') := fun d' sv' => List.filter_cons_of_neg (by simp [Instr.inCall])
  have hother : ∀ d' sv', ¬ (d = d' ∧ sv = sv') →
      ([Instr.swap d sv (infosOf inet_addr vals)] ++ others).filter (Instr.inCall d' sv') =
        others.filter (Instr.inCall d' sv') :=
    fun d' sv' hne => List.filter_cons_of_neg (by simpa [Instr.inCall] using hne)
  refine ⟨h.follows, fun d' sv' => ?_, fun d' sv' hknown => ?_, fun q hq => ?_, h.events, fun q hq => ?_,
    fun q d' sv' hq => ?_⟩
  · obtain ⟨c, hc, hstage⟩ := h.stage d' sv'
    rw [hnone] at hc
    by_cases hds : d = d' ∧ sv = sv'
    · obtain ⟨rfl, rfl⟩ := hds
      rw [hapart] at hc
      obtain rfl : c = none := by
        cases c with
        | none => rfl
        | some j => cases hc
      refine ⟨some (.swap d sv (infosOf inet_addr vals)), ?_, hstage.1, fun _ => ⟨vals, hvals, rfl⟩⟩
      show List.filter _ (_ :: others) = _
      rw [List.filter_cons_of_pos (by simp [Instr.inCall]), hapart]
      rfl
    · have hfresh : ∀ infos, Fresh inet_addr s d' sv' infos → Fresh inet_addr { s with
          watches := GetProvidersPath d sv :: s.watches.filter (· ≠ GetProvidersPath d sv)
          unwatched := s.unwatched.filter (· ≠ GetProvidersPath d sv) } d' sv' infos := by
        intro infos hf hmem
        rcases List.mem_cons.mp hmem with heq | hmem
        · obtain ⟨rfl, rfl⟩ := hplain.inj heq
          exact absurd ⟨rfl, rfl⟩ hds
        · exact hf (List.mem_filter.mp hmem).1
      exact ⟨c, (hother d' sv' hds).trans hc, hstage.mono rfl rfl hfresh⟩
  · by_cases hds : d = d' ∧ sv = sv'
    · obtain ⟨rfl, rfl⟩ := hds
      exact .inl List.mem_cons_self
    · rw [hother d' sv' hds, ← hnone d' sv'] at hknown
      refine (h.kept d' sv' hknown).mono (fun q hq => .inl ?_) (fun q hq => ?_) (fun _ he _ => .inl he)
        fun j hj q hq => ?_
      · by_cases heq : q = GetProvidersPath d sv
        · exact List.mem_cons.mpr (.inl heq)
        · exact List.mem_cons_of_mem _ (List.mem_filter.mpr ⟨hq, by simpa using heq⟩)
      · by_cases heq : q = GetProvidersPath d sv
        · exact .inr (List.mem_cons.mpr (.inl heq))
        · exact .inl (List.mem_filter.mpr ⟨hq, by simpa using heq⟩)
      · rcases List.mem_cons.mp hj with rfl | hj
        · exact .inr (.inl (List.mem_cons.mpr (.inl hq.symm)))
        · exact .inl ⟨j, List.mem_cons_of_mem _ hj, hq⟩
  · rcases List.mem_cons.mp hq with rfl | hq
    · exact ⟨d, sv, rfl⟩
    · exact h.watches q (List.mem_filter.mp hq).1
  · rcases List.mem_cons.mp hq with heq | hq
    · cases heq
    · exact h.gets q (List.mem_cons_of_mem _ hq)
  · rcases List.mem_cons.mp hq with heq | hq
    · cases heq
    · exact h.reads q d' sv' (List.mem_cons_of_mem _ hq)

theorem table_set2 (infos : Services ServiceItemInfo) (d' sv' : String) :
    ({ s with m_datas := SDLoadBalance.set2 s.m_datas d sv infos } : ZKServiceDiscovery T).table d' sv' =
      if d = d' ∧ sv = sv' then infos else s.table d' sv' := by
  unfold table
  rw [SDLoadBalance.find2_set2]
  split <;> rfl

theorem Books.swap {infos : Services ServiceItemInfo}
    (h : Books inet_addr s (.swap d sv infos :: others) last) :
    Books inet_addr { s with m_datas := SDLoadBalance.set2 s.m_datas d sv infos }
      ([.m_cb d sv (s.table d sv) infos] ++ others) last := by
  obtain ⟨hnil, hlast, hfresh⟩ := h.own (show Instr.inCall d sv _ = true by simp [Instr.inCall])
  have hother : ∀ d' sv', ¬ (d = d' ∧ sv = sv') →
      ([Instr.m_cb d sv (s.table d sv) infos] ++ others).filter (Instr.inCall d' sv') =
        (.swap d sv infos :: others).filter (Instr.inCall d' sv') := by
    intro d' sv' hne
    rw [List.filter_cons_of_neg (by simpa [Instr.inCall] using hne)]
    exact List.filter_cons_of_neg (by simpa [Instr.inCall] using hne)
  refine ⟨h.follows, fun d' sv' => ?_, fun d' sv' hknown => ?_, h.watches, h.events, fun q hq => ?_,
    fun q d' sv' hq => ?_⟩
  · by_cases hds : d = d' ∧ sv = sv'
    · obtain ⟨rfl, rfl⟩ := hds
      refine ⟨some (.m_cb d sv (s.table d sv) infos), ?_, hlast, ?_, hfresh⟩
      · show List.filter _ (_ :: others) = _
        rw [List.filter_cons_of_pos (by simp [Instr.inCall]), hnil]
        rfl
      · rw [table_set2, if_pos ⟨rfl, rfl⟩]
    · obtain ⟨c, hc, hstage⟩ := h.stage d' sv'
      have htable : ({ s with m_datas := SDLoadBalance.set2 s.m_datas d sv infos } :
          ZKServiceDiscovery T).table d' sv' = s.table d' sv' := by
        rw [table_set2, if_neg hds]
      exact ⟨c, (hother d' sv' hds).trans hc, hstage.mono rfl htable fun _ hf => hf⟩
  · have hkept : Kept s (.swap d sv infos :: others) d' sv' := by
      by_cases hds : d = d' ∧ sv = sv'
      · obtain ⟨rfl, rfl⟩ := hds
        refine h.kept d sv (.inr ?_)
        rw [List.filter_cons_of_pos (by simp [Instr.inCall])]
        exact List.cons_ne_nil _ _
      · rw [hother d' sv' hds, SDLoadBalance.find2_set2, if_neg hds] at hknown
        exact h.kept d' sv' hknown
    refine hkept.of_reads fun j hj q hq => ?_
    rcases List.mem_cons.mp hj with rfl | hj
    · exact absurd hq id
    · exact ⟨j, List.mem_cons_of_mem _ hj, hq⟩
  · rcases List.mem_cons.mp hq with heq | hq
    · cases heq
    · exact h.gets q (List.mem_cons_of_mem _ hq)
  · rcases List.mem_cons.mp hq with heq | hq
    · cases heq
    · exact h.reads q d' sv' (List.mem_cons_of_mem _ hq)

theorem Books.m_cb (hcb : ∀ id info, (cb id info).isSome = true) {old new_vals : Services ServiceItemInfo}
    (h : Books inet_addr s (.m_cb d sv old new_vals :: others) last) (polled : Polled) :
    ∃ lb, s.lb.onServiceChange d sv old new_vals cb polled = .ok lb ∧
      Books inet_addr { s with lb := lb } others
        (fun d' sv' => if d = d' ∧ sv = sv' then new_vals else last d' sv') := by
  obtain ⟨hnil, hlast, htable, hfresh⟩ := h.own (show Instr.inCall d sv _ = true by simp [Instr.inCall])
  obtain ⟨lb, items, infos, hlb, hchanged⟩ :=
    SDLoadBalance.onServiceChange_changed h.follows.apart d sv polled
      fun i (_ : i ∈ new_vals.pairs) (_ : i.1 ∉ old.keys) => hcb i.1 i.2
  have hold : old.pairs.Perm (last d sv).pairs := by
    rw [hlast]
  have hother : ∀ d' sv', ¬ (d = d' ∧ sv = sv') → others.filter (Instr.inCall d' sv') =
      (.m_cb d sv old new_vals :: others).filter (Instr.inCall d' sv') := fun d' sv' hne =>
    (List.filter_cons_of_neg (by simpa [Instr.inCall] using hne)).symm
  refine ⟨lb, hlb, .change h.follows hold hchanged, fun d' sv' => ?_, fun d' sv' hknown => ?_, h.watches,
    h.events, fun q hq => h.gets q (List.mem_cons_of_mem _ hq), fun q d' sv' hq =>
      h.reads q d' sv' (List.mem_cons_of_mem _ hq)⟩
  · by_cases hds : d = d' ∧ sv = sv'
    · obtain ⟨rfl, rfl⟩ := hds
      refine ⟨none, hnil, ?_, ?_⟩
      · show (if _ then _ else _) = _
        rw [if_pos ⟨rfl, rfl⟩]
        exact htable.symm
      · show Fresh inet_addr _ d sv (s.table d sv)
        rw [htable]
        exact hfresh
    · obtain ⟨c, hc, hstage⟩ := h.stage d' sv'
      have hlast' : (if d = d' ∧ sv = sv' then new_vals else last d' sv') = last d' sv' := if_neg hds
      exact ⟨c, (hother d' sv' hds).trans hc, hstage.mono hlast' rfl fun _ hf => hf⟩
  · have hkept : Kept s (.m_cb d sv old new_vals :: others) d' sv' := by
      refine h.kept d' sv' (hknown.imp_right fun hne heq => hne ?_)
      by_cases hds : d = d' ∧ sv = sv'
      · obtain ⟨rfl, rfl⟩ := hds
        exact hnil
      · exact (hother d' sv' hds).trans heq
    refine hkept.of_reads fun j hj q hq => ?_
    rcases List.mem_cons.mp hj with rfl | hj
    · exact absurd hq id
    · exact ⟨j, hj, hq⟩

end

section

variable {others : List Instr} {last : String → String → Services ServiceItemInfo}

theorem Books.onZKConnect (h : Books inet_addr s (.onZKConnect :: others) last) :
    Books inet_addr s ((s.m_queryInfos.flatMap fun i => i.2.map fun x => .queryData i.1 x) ++ others)
      last := by
  have hnext : ∀ j ∈ s.m_queryInfos.flatMap fun i => i.2.map fun x => Instr.queryData i.1 x,
      ∃ domain service, j = .queryData domain service := by
    intro j hj
    obtain ⟨i, -, hj⟩ := List.mem_flatMap.mp hj
    obtain ⟨x, -, rfl⟩ := List.mem_map.mp hj
    exact ⟨i.1, x, rfl⟩
  refine h.pass (fun _ _ => rfl) (fun j hj d sv => ?_) (fun p hp => absurd hp id) (fun p hp => ?_)
    fun p d sv hp => ?_
  · obtain ⟨_, _, rfl⟩ := hnext j hj
    rfl
  · obtain ⟨_, _, heq⟩ := hnext _ hp
    cases heq
  · obtain ⟨_, _, heq⟩ := hnext _ hp
    cases heq

theorem Books.reconnect (h : Books inet_addr s (.reconnect :: others) last) :
    Books inet_addr { s with events := [], unwatched := s.events.filterMap childPath ++ s.unwatched }
      others last := by
  refine h.move h.follows rfl (fun _ _ _ hf => hf)
    (filter_next (fun _ _ => rfl) fun _ hj => absurd hj List.not_mem_nil) (fun d sv hk => ?_)
    (fun _ hp => hp) (fun _ he => absurd he List.not_mem_nil)
    (fun p hp => h.gets p (List.mem_cons_of_mem _ hp)) fun p d sv hp =>
      h.reads p d sv (List.mem_cons_of_mem _ hp)
  refine hk.mono (fun _ hp => .inl hp) (fun _ hp => .inl (List.mem_append_right _ hp))
    (fun e he hchild => .inr (List.mem_append_left _ (List.mem_filterMap.mpr ⟨e, he, if_pos hchild⟩)))
    fun j hj p hp => ?_
  rcases List.mem_cons.mp hj with rfl | hj
  · exact absurd hp id
  · exact .inl ⟨j, hj, hp⟩

theorem Books.queryData {domain service : String}
    (h : Books inet_addr s (.queryData domain service :: others) last) (children : List String) :
    Books inet_addr s ((children.map fun i => .queryData domain i) ++ others) last := by
  refine h.pass (fun _ _ => rfl) (fun j hj d sv => ?_) (fun p hp => absurd hp id) (fun p hp => ?_)
    fun p d sv hp => ?_
  · obtain ⟨_, -, rfl⟩ := List.mem_map.mp hj
    rfl
  · obtain ⟨_, -, heq⟩ := List.mem_map.mp hp
    cases heq
  · obtain ⟨_, -, heq⟩ := List.mem_map.mp hp
    cases heq

theorem Books.queryService {domain service : String}
    (h : Books inet_addr s (.queryData domain service :: others) last) :
    Books inet_addr s ([.getChildren (GetProvidersPath domain service)] ++ others) last := by
  refine h.pass (fun _ _ => rfl) (fun j hj d sv => ?_) (fun p hp => absurd hp id) (fun p hp => ?_)
    fun p d sv hp => ?_
  · obtain rfl := List.mem_singleton.mp hj
    rfl
  · cases List.mem_singleton.mp hp
    exact ⟨domain, service, rfl⟩
  · cases List.mem_singleton.mp hp

theorem Books.getChildren {path : String} (h : Books inet_addr s (.getChildren path :: others) last)
    (hparse : ParseDomainService path = some (d, sv)) :
    Books inet_addr s ([.read path d sv] ++ others) last := by
  obtain ⟨d', sv', rfl⟩ := h.gets path List.mem_cons_self
  obtain ⟨rfl, rfl⟩ := parse_providers hparse
  refine h.pass (fun _ _ => rfl) (fun j hj d' sv' => ?_) (fun p hp => ?_) (fun p hp => ?_)
    fun p d' sv' hp => ?_
  · obtain rfl := List.mem_singleton.mp hj
    rfl
  · exact ⟨_, List.mem_cons_self, hp⟩
  · cases List.mem_singleton.mp hp
  · cases List.mem_singleton.mp hp
    exact ⟨rfl, hparse⟩

/-- A turn, where a thread that reads the children of a service is the only one there. -/
theorem Books.exec (hcb : ∀ id info, (cb id info).isSome = true) {i : Instr}
    (h : Books inet_addr s (i :: others) last)
    (hapart : ∀ p d sv, i = .read p d sv → others.filter (Instr.inCall d sv) = []) (k : ℕ) (r : Role)
    (w : World) : ∃ s' next last',
      ZKServiceDiscovery.exec inet_addr cb s k r i w = .ok (.only s' next) ∧
        Books inet_addr s' (next ++ others) last' := by
  cases i with
  | onZKConnect => exact ⟨_, _, _, rfl, h.onZKConnect⟩
  | reconnect => exact ⟨_, _, _, rfl, h.reconnect⟩
  | queryData domain service =>
    unfold ZKServiceDiscovery.exec
    by_cases hall : service ≠ "all"
    · exact ⟨_, _, _, if_pos hall, h.queryService⟩
    · exact ⟨_, _, _, if_neg hall, h.queryData _⟩
  | getChildren path =>
    have hdrop : Books inet_addr (s.drop path) others last := h.drop (fun _ _ => rfl) fun _ hp => hp.symm
    cases hparse : ParseDomainService path with
    | none => exact ⟨_, [], _, by simp only [ZKServiceDiscovery.exec, hparse], hdrop⟩
    | some ds =>
      cases hfind : Assoc.find s.m_queryInfos ds.1 with
      | none => exact ⟨_, [], _, by simp only [ZKServiceDiscovery.exec, hparse, hfind], hdrop⟩
      | some services =>
        by_cases hmem : ds.2 ∈ services ∨ "all" ∈ services
        · exact ⟨_, _, _, by simp only [ZKServiceDiscovery.exec, hparse, hfind, if_pos hmem],
            h.getChildren hparse⟩
        · exact ⟨_, [], _, by simp only [ZKServiceDiscovery.exec, hparse, hfind, if_neg hmem], hdrop⟩
  | read path domain service =>
    cases hvals : (if w.fails then none else Assoc.find s.nodes path) with
    | none =>
      refine ⟨_, [], _, ?_, h.drop (p := path) (fun _ _ => rfl) fun _ hp => hp.symm⟩
      simp only [ZKServiceDiscovery.exec, hvals]
    | some vals =>
      have hfind : Assoc.find s.nodes path = some vals := by
        split at hvals
        · cases hvals
        · exact hvals
      refine ⟨_, _, _, ?_, h.read (hapart _ _ _ rfl) hfind⟩
      simp only [ZKServiceDiscovery.exec, hvals]
  | swap domain service infos => exact ⟨_, _, _, rfl, h.swap⟩
  | m_cb domain service old new_vals =>
    obtain ⟨lb, hlb, hbooks⟩ := h.m_cb hcb w.polled
    refine ⟨_, [], _, ?_, hbooks⟩
    simp only [ZKServiceDiscovery.exec, hlb]

end

section

variable {b : List Instr} {last : String → String → Services ServiceItemInfo}

theorem mem_watches_changed {path : String} {children : Option (List String)} {p : String}
    (h : p ∈ (s.changed path children).watches) : p ∈ s.watches ∧ path ≠ p := by
  unfold changed at h
  by_cases hw : path ∈ s.watches
  · simp only [if_pos hw, List.mem_filter, decide_eq_true_eq] at h
    exact ⟨h.1, fun heq => h.2 heq.symm⟩
  · simp only [if_neg hw] at h
    exact ⟨h, fun heq => hw (heq ▸ h)⟩

theorem find_changed {path : String} {children : Option (List String)} {p : String} (h : path ≠ p) :
    Assoc.find (s.changed path children).nodes p = Assoc.find s.nodes p := by
  cases children with
  | none =>
    have hnodes : (s.changed path none).nodes = Assoc.without s.nodes path := by
      unfold changed
      dsimp only
      split <;> rfl
    rw [hnodes, Assoc.find_without, if_neg h]
  | some vals =>
    have hnodes : (s.changed path (some vals)).nodes = Assoc.set s.nodes path vals := by
      unfold changed
      dsimp only
      split <;> rfl
    rw [hnodes, Assoc.find_set, if_neg h]

theorem Kept.changed (h : Kept s b d sv) (path : String) (children : Option (List String)) :
    Kept (s.changed path children) b d sv := by
  unfold ZKServiceDiscovery.changed
  by_cases hw : path ∈ s.watches
  · simp only [if_pos hw]
    rcases h with h | h | h | h
    · by_cases heq : GetProvidersPath d sv = path
      · cases children with
        | none => exact .inr (.inl (heq ▸ List.mem_cons_self))
        | some vals => exact .inr (.inr (.inl (List.mem_append_right _ (heq ▸ List.mem_cons_self))))
      · exact .inl (List.mem_filter.mpr ⟨h, by simpa using heq⟩)
    · refine .inr (.inl ?_)
      cases children with
      | none => exact List.mem_cons_of_mem _ h
      | some vals => exact h
    · exact .inr (.inr (.inl (List.mem_append_left _ h)))
    · exact .inr (.inr (.inr h))
  · simp only [if_neg hw]
    exact h

theorem Books.changed (h : Books inet_addr s b last) (path : String) (children : Option (List String)) :
    Books inet_addr (s.changed path children) b last := by
  have hlb : (s.changed path children).lb = s.lb := by
    unfold ZKServiceDiscovery.changed
    dsimp only
    split <;> rfl
  have hdatas : (s.changed path children).m_datas = s.m_datas := by
    unfold ZKServiceDiscovery.changed
    dsimp only
    split <;> rfl
  refine h.move (hlb ▸ h.follows) hdatas (fun d sv infos hf hw => ?_) (fun _ _ => rfl)
    (fun d sv hk => hk.changed path children) (fun p hp => (mem_watches_changed hp).1)
    (fun e he _ => ?_) h.gets h.reads
  · obtain ⟨hw, hne⟩ := mem_watches_changed hw
    rw [find_changed hne]
    exact hf hw
  · unfold ZKServiceDiscovery.changed at he
    by_cases hw : path ∈ s.watches
    · simp only [if_pos hw, List.mem_append, List.mem_singleton] at he
      rcases he with he | rfl
      · exact .inl he
      · exact .inr hw
    · simp only [if_neg hw] at he
      exact .inl he

theorem Books.session (h : Books inet_addr s b last) (stat : StateType) :
    Books inet_addr (s.session stat) b last := by
  have hevent : ∀ e ∈ s.events ++ [⟨.SESSION, stat, ""⟩], e.type = .CHILD →
      e ∈ s.events ∨ e.path ∈ s.watches := by
    intro e he hchild
    rcases List.mem_append.mp he with he | he
    · exact .inl he
    · obtain rfl := List.mem_singleton.mp he
      cases hchild
  unfold ZKServiceDiscovery.session
  by_cases hexpired : stat = .EXPIRED_SESSION
  · simp only [if_pos hexpired]
    refine h.move h.follows rfl (fun d sv infos _ hw => absurd hw List.not_mem_nil) (fun _ _ => rfl)
      (fun d sv hk => ?_) (fun _ hp => absurd hp List.not_mem_nil) hevent h.gets h.reads
    exact hk.mono (fun _ hp => .inr (List.mem_append_left _ hp))
      (fun _ hp => .inl (List.mem_append_right _ hp)) (fun _ he _ => .inl (List.mem_append_left _ he))
      fun i hi p hp => .inl ⟨i, hi, hp⟩
  · simp only [if_neg hexpired]
    refine h.move h.follows rfl (fun d sv infos hf => hf) (fun _ _ => rfl) (fun d sv hk => ?_)
      (fun _ hp => hp) hevent h.gets h.reads
    exact hk.mono (fun _ hp => .inl hp) (fun _ hp => .inl hp) (fun _ he _ => .inl (List.mem_append_left _ he))
      fun i hi p hp => .inl ⟨i, hi, hp⟩

/-- The watcher is told what comes first, and a change of the children makes it read them. -/
theorem Books.deliver {e : WatchEvent} {rest : List WatchEvent} (h : Books inet_addr s b last)
    (hevents : s.events = e :: rest) : Books inet_addr { s with events := rest } (b ++ onWatch e) last := by
  have hmem : ∀ {e'}, e' ∈ rest → e' ∈ s.events := fun he => hevents ▸ List.mem_cons_of_mem e he
  have hwatch : ∀ i ∈ onWatch e, i = .onZKConnect ∨ i = .reconnect ∨
      i = .getChildren e.path ∧ e.type = .CHILD := by
    intro i hi
    unfold onWatch at hi
    split at hi
    · exact .inl (List.mem_singleton.mp hi)
    · next htype => exact .inr (.inr ⟨List.mem_singleton.mp hi, htype⟩)
    · exact .inr (.inl (List.mem_singleton.mp hi))
    · cases hi
  refine h.move h.follows rfl (fun _ _ _ hf => hf) (fun d sv => ?_) (fun d sv hk => ?_) (fun _ hp => hp)
    (fun _ he _ => .inl (hmem he)) (fun p hp => ?_) fun p d sv hp => ?_
  · have hnil : (onWatch e).filter (Instr.inCall d sv) = [] :=
      List.filter_eq_nil_iff.mpr fun i hi => by
        rcases hwatch i hi with rfl | rfl | ⟨rfl, -⟩ <;> simp [Instr.inCall]
    rw [List.filter_append, hnil, List.append_nil]
  · rcases hk with hk | hk | hk | ⟨i, hi, hread⟩
    · exact .inl hk
    · exact .inr (.inl hk)
    · rw [hevents] at hk
      rcases List.mem_cons.mp hk with heq | hk
      · subst heq
        exact .inr (.inr (.inr ⟨.getChildren (GetProvidersPath d sv),
          List.mem_append_right _ List.mem_cons_self, rfl⟩))
      · exact .inr (.inr (.inl hk))
    · exact .inr (.inr (.inr ⟨i, List.mem_append_left _ hi, hread⟩))
  · rcases List.mem_append.mp hp with hp | hp
    · exact h.gets p hp
    · rcases hwatch _ hp with heq | heq | ⟨heq, htype⟩
      · cases heq
      · cases heq
      · cases heq
        exact h.events e (hevents ▸ List.mem_cons_self) htype
  · rcases List.mem_append.mp hp with hp | hp
    · exact h.reads p d sv hp
    · rcases hwatch _ hp with heq | heq | ⟨heq, -⟩ <;> cases heq

theorem Books.fire (h : Books inet_addr s b last) : Books inet_addr s (b ++ [.onZKConnect]) last := by
  refine h.move h.follows rfl (fun _ _ _ hf => hf) (fun d sv => ?_) (fun d sv hk => ?_) (fun _ hp => hp)
    (fun _ he _ => .inl he) (fun p hp => ?_) fun p d sv hp => ?_
  · rw [List.filter_append]
    exact List.append_nil _
  · exact hk.of_reads fun i hi p hp => ⟨i, List.mem_append_left _ hi, hp⟩
  · rcases List.mem_append.mp hp with hp | hp
    · exact h.gets p hp
    · cases List.mem_singleton.mp hp
  · rcases List.mem_append.mp hp with hp | hp
    · exact h.reads p d sv hp
    · cases List.mem_singleton.mp hp

/-- What is queried does not matter to what is known, nor do the types of balancers. -/
theorem Books.queried (h : Books inet_addr s b last) (v : List (String × List String)) :
    Books inet_addr { s with m_queryInfos := v } b last :=
  h.move h.follows rfl (fun _ _ _ hf => hf) (fun _ _ => rfl) (fun _ _ hk => hk) (fun _ hp => hp)
    (fun _ he _ => .inl he) h.gets h.reads

theorem Books.initConf (h : Books inet_addr s b last) (confs : List (String × List (String × String))) :
    Books inet_addr (s.initConf confs) b last := by
  obtain ⟨w, hw, hinv, -⟩ := SDLoadBalance.Watched.step_inv (c := .initConf confs) h.follows trivial
  cases hw
  exact h.move hinv rfl (fun _ _ _ hf => hf) (fun _ _ => rfl) (fun _ _ hk => hk) (fun _ hp => hp)
    (fun _ he _ => .inl he) h.gets h.reads

end

def Instr.readsOf : Option Instr → Option (String × String)
  | some (.read _ d sv) => some (d, sv)
  | _ => none

/-- No two threads are between the read and the end of the callback of one service. -/
def Apart (f : Calls T) : Move → Prop
  | .turn k _ => ∀ ds ∈ Instr.readsOf (f.code k).head?, ∀ i ∈ Threads.codes f.threads,
      i.inCall ds.1 ds.2 = false
  | _ => True

/-- The balancer of a service that is watched has the items that ZooKeeper lists, unless a thread is on
its way to tell it. The next change of a service that is known will be told, is being told, or the watch
is gone. An item is closed once, when it leaves its balancer. -/
structure Followed (inet_addr : String → UInt32) (f : Calls T) : Prop where
  current : ∀ d sv, GetProvidersPath d sv ∈ f.shared.watches →
    (∀ i ∈ Threads.codes f.threads, i.inCall d sv = false) →
    ∃ vals, Assoc.find f.shared.nodes (GetProvidersPath d sv) = some vals ∧
      ∀ id, (∃ n, f.shared.lb.entry d sv id = some n) ↔ Named inet_addr vals id
  kept : ∀ d sv, (SDLoadBalance.find2 f.shared.m_datas d sv).isSome = true →
    Kept f.shared (Threads.codes f.threads) d sv
  held : ∀ d sv id n, f.shared.lb.entry d sv id = some n → f.shared.lb.closed.count n = 0
  removed : ∀ n < f.shared.lb.items.length, (∀ d sv id, f.shared.lb.entry d sv id ≠ some n) →
    f.shared.lb.closed.count n = 1

section

variable {f : Calls T} {last : String → String → Services ServiceItemInfo}

theorem Books.followed (h : Books inet_addr f.shared (Threads.codes f.threads) last) :
    Followed inet_addr f where
  current d sv hwatch hcall := by
    obtain ⟨c, hc, hstage⟩ := h.stage d sv
    have hnil : (Threads.codes f.threads).filter (Instr.inCall d sv) = [] :=
      List.filter_eq_nil_iff.mpr fun i hi => by simp [hcall i hi]
    obtain rfl : c = none := by
      cases c with
      | none => rfl
      | some j =>
        rw [hnil] at hc
        cases hc
    obtain ⟨vals, hvals, htable⟩ := hstage.2 hwatch
    refine ⟨vals, hvals, fun id => ?_⟩
    rw [← mem_infosOf, ← htable, ← hstage.1]
    exact h.follows.keys d sv id
  kept d sv hknown := h.kept d sv (.inl hknown)
  held d sv id n hn := h.follows.held n ⟨d, sv, id, hn⟩
  removed n hlt hn := h.follows.removed n hlt fun ⟨d, sv, id, heq⟩ => hn d sv id heq

/-- When everything is told and done, what is known and has not lost its watch is what ZooKeeper has. -/
theorem Followed.at_rest (h : Followed inet_addr f) (hcodes : Threads.codes f.threads = [])
    (hevents : f.shared.events = []) (hknown : (SDLoadBalance.find2 f.shared.m_datas d sv).isSome = true)
    (hwatch : GetProvidersPath d sv ∉ f.shared.unwatched) :
    ∃ vals, Assoc.find f.shared.nodes (GetProvidersPath d sv) = some vals ∧
      ∀ id, (∃ n, f.shared.lb.entry d sv id = some n) ↔ Named inet_addr vals id := by
  rcases h.kept d sv hknown with hw | hw | he | ⟨i, hi, -⟩
  · exact h.current d sv hw fun i hi => by simp [hcodes] at hi
  · exact absurd hw hwatch
  · simp [hevents] at he
  · simp [hcodes] at hi

theorem Books.turn (hcb : ∀ id info, (cb id info).isSome = true)
    (h : Books inet_addr f.shared (Threads.codes f.threads) last) {k : ℕ} {w : World}
    (hapart : Apart f (.turn k w)) (hcode : f.code k ≠ []) :
    ∃ f' last', f.run id (ZKServiceDiscovery.exec inet_addr cb) .notEnabled k w = .ok f' ∧
      Books inet_addr f'.shared (Threads.codes f'.threads) last' := by
  obtain ⟨i, rest, hrest⟩ := List.exists_cons_of_ne_nil hcode
  obtain ⟨⟨r, c⟩, hk, -⟩ := Threads.look_of_mem_code (hrest ▸ List.mem_cons_self : i ∈ f.code k)
  obtain rfl : c = i :: rest := (Threads.code_of_look hk).symm.trans hrest
  obtain ⟨others, hperm, hafter⟩ := Threads.codes_after id hk
  have hone : ∀ p d sv, i = .read p d sv → others.filter (Instr.inCall d sv) = [] := by
    rintro p d sv rfl
    refine List.filter_eq_nil_iff.mpr fun j hj => ?_
    have hfalse := hapart (d, sv) (by rw [hrest]; rfl) j (hperm.mem_iff.mpr (List.mem_cons_of_mem _ hj))
    simp [hfalse]
  obtain ⟨s', next, last', hexec, hbooks⟩ := (h.perm hperm).exec hcb hone k r w
  refine ⟨f.after id k r rest (.only s' next), last', ?_, hbooks.perm (hafter s' next).symm⟩
  unfold Threads.run
  rw [show f.threads[k]? = some ⟨r, i :: rest⟩ from hk]
  simp only [hexec]

/-- What one move preserves. -/
theorem Books.step (hcb : ∀ id info, (cb id info).isSome = true)
    (h : Books inet_addr f.shared (Threads.codes f.threads) last) {m : Move} (hm : Apart f m) :
    ∃ f' last', ZKServiceDiscovery.step inet_addr cb f m = .ok f' ∧
      Books inet_addr f'.shared (Threads.codes f'.threads) last' := by
  cases m with
  | changed path children => exact ⟨_, last, rfl, h.changed path children⟩
  | session stat => exact ⟨_, last, rfl, h.session stat⟩
  | deliver =>
    cases hevents : f.shared.events with
    | nil => exact ⟨f, last, by simp only [ZKServiceDiscovery.step, hevents], h⟩
    | cons e rest =>
      by_cases hidle : idle f
      · refine ⟨_, last, by simp only [ZKServiceDiscovery.step, hevents, if_pos hidle]; rfl, ?_⟩
        rw [Threads.codes_start]
        exact h.deliver hevents
      · exact ⟨f, last, by simp only [ZKServiceDiscovery.step, hevents, if_neg hidle], h⟩
  | fire =>
    refine ⟨_, last, rfl, ?_⟩
    rw [Threads.codes_start]
    exact h.fire
  | turn k w =>
    by_cases hcode : f.code k = []
    · exact ⟨f, last, if_pos (List.isEmpty_iff.mpr hcode), h⟩
    · obtain ⟨f', last', hrun, hbooks⟩ := h.turn hcb hm hcode
      exact ⟨f', last', (if_neg fun hnil => hcode (List.isEmpty_iff.mp hnil)).trans hrun, hbooks⟩
  | setQueryServer v => exact ⟨_, last, rfl, h.queried v⟩
  | queryServer domain service => exact ⟨_, last, rfl, h.queried _⟩
  | initConf confs => exact ⟨_, last, rfl, h.initConf confs⟩

theorem Books.init : Books inet_addr (init : Calls T).shared [] fun _ _ => .empty where
  follows := .init
  stage _ _ := ⟨none, rfl, rfl, fun hw => absurd hw List.not_mem_nil⟩
  kept _ _ hknown := by
    rcases hknown with hknown | hne
    · cases hknown
    · exact absurd rfl hne
  watches _ hp := absurd hp List.not_mem_nil
  events _ he := absurd he List.not_mem_nil
  gets _ hp := absurd hp List.not_mem_nil
  reads _ _ _ hp := absurd hp List.not_mem_nil

end

/-- No change that ZooKeeper tells is lost, whatever the threads do meanwhile. -/
theorem changes_followed (inet_addr : String → UInt32) (cb : UInt64 → ServiceItemInfo → Option T)
    (hcb : ∀ id info, (cb id info).isSome = true) (ms : List Move)
    (hms : Tries (step inet_addr cb) Apart init ms) :
    (∃ f, ms.foldlM (step inet_addr cb) init = .ok f) ∧
      Along (step inet_addr cb) (Followed inet_addr) init ms := by
  obtain ⟨hrun, halong, -⟩ := Tries.run
    (fun f : Calls T => ∃ last, Books inet_addr f.shared (Threads.codes f.threads) last) Apart
    (fun _ _ => True) (fun f m ⟨last, h⟩ hm => by
      obtain ⟨f', last', hf', hbooks⟩ := h.step hcb hm
      exact ⟨f', hf', ⟨last', hbooks⟩, trivial⟩) ms init ⟨_, .init⟩ hms
  exact ⟨hrun, halong.mono fun f ⟨_, h⟩ => h.followed⟩

instance (f : Calls T) : ∀ m, Decidable (Apart f m)
  | .turn k _ => inferInstanceAs (Decidable (∀ ds ∈ Instr.readsOf (f.code k).head?,
      ∀ i ∈ Threads.codes f.threads, i.inCall ds.1 ds.2 = false))
  | .changed _ _ | .session _ | .deliver | .fire | .setQueryServer _ | .queryServer _ _ | .initConf _ =>
      .isTrue trivial

def goes (k : ℕ) : Move := .turn k ⟨false, fun _ => false, fun _ => 0⟩

/-- A service is read, another one comes, and the watcher reads again. -/
def comes : List Move :=
  [.queryServer "d" "s", .changed "/Sylar/d/s/providers" (some ["a:1"]), .fire, goes 0,
    goes 0, goes 0, goes 0, goes 0, goes 0,
    .changed "/Sylar/d/s/providers" (some ["a:1", "b:2"]), .deliver, goes 1, goes 1,
    goes 1, goes 1]

theorem changes_followed_comes :
    (∃ f, comes.foldlM (step (fun _ => 7) fun id _ => some id) init = .ok f) ∧
      Along (step (fun _ => 7) fun id _ => some id) (Followed fun _ => 7) init comes :=
  changes_followed _ _ (fun _ _ => rfl) comes (by decide)

/-- Two threads read one service, and the one that read first is told last. -/
def overtaken : List Move :=
  [.queryServer "d" "s", .changed "/Sylar/d/s/providers" (some ["a:1"]), .fire, goes 0,
    goes 0, goes 0, goes 0, .changed "/Sylar/d/s/providers" (some ["a:1", "b:2"]),
    .deliver, goes 1, goes 1, goes 1, goes 1, goes 0, goes 0]

-- Only the first of the two children is left, and nobody is to read again.
example : (overtaken.foldlM (step (fun _ => 7) fun id _ => some id) init).toOption.map (fun f =>
    (f.shared.watches, f.shared.events, (Threads.codes f.threads).length, (f.shared.table "d" "s").keys)) =
      some (["/Sylar/d/s/providers"], [], 0, [30064771073]) := by decide

end ZKServiceDiscovery

end Sylar
