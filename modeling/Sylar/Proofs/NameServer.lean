import Sylar.Proofs.NsProtocol
import Sylar.Spec.NameServer

/-! What the loops of `diff` and `set` do, said of the commands that are listed under a domain
and of the node under a command. -/

namespace Sylar

open Lib

namespace Domain2Cmds

def Lists (m : Domain2Cmds) (d : String) (c : UInt32) : Prop := c ∈ (m.lookup d).getD []

instance (m : Domain2Cmds) (d : String) (c : UInt32) : Decidable (m.Lists d c) :=
  inferInstanceAs (Decidable (c ∈ (m.lookup d).getD []))

theorem not_lists_empty (d : String) (c : UInt32) : ¬ Lists ∅ d c := by
  simp [Lists]

theorem lists_iff {m : Domain2Cmds} {d : String} {c : UInt32} :
    m.Lists d c ↔ ∃ i ∈ m.entries, i.1 = d ∧ c ∈ i.2 := by
  unfold Lists
  constructor
  · intro hc
    cases hcmds : m.lookup d with
    | none =>
      rw [hcmds] at hc
      cases hc
    | some cmds =>
      rw [hcmds] at hc
      exact ⟨⟨d, cmds⟩, AList.mem_lookup_iff.mp hcmds, rfl, hc⟩
  · rintro ⟨⟨d', cmds⟩, hi, rfl, hc⟩
    rw [Option.mem_def.mp (AList.mem_lookup_iff.mpr hi)]
    exact hc

theorem lists_insert {m : Domain2Cmds} {domain d : String} {cmds : List UInt32} {c : UInt32} :
    Lists (m.insert domain cmds) d c ↔ if d = domain then c ∈ cmds else m.Lists d c := by
  unfold Lists
  by_cases hd : d = domain
  · subst hd
    rw [AList.lookup_insert, if_pos rfl]
    rfl
  · rw [AList.lookup_insert_ne hd, if_neg hd]

theorem lists_insertCmd {m : Domain2Cmds} {domain d : String} {cmd c : UInt32} :
    (m.insertCmd domain cmd).Lists d c ↔ m.Lists d c ∨ d = domain ∧ c = cmd := by
  unfold insertCmd
  rw [lists_insert]
  by_cases hd : d = domain
  · subst hd
    rw [if_pos rfl, List.mem_insert_iff]
    simp only [Lists, true_and]
    exact or_comm
  · simp [hd]

theorem lists_insertPair {m : Domain2Cmds} {domain d : String} {cmds : List UInt32} {c : UInt32}
    (hm : domain ∉ m) :
    (m.insertPair domain cmds).Lists d c ↔ m.Lists d c ∨ d = domain ∧ c ∈ cmds := by
  unfold insertPair
  rw [if_neg hm, lists_insert]
  by_cases hd : d = domain
  · subst hd
    have hnone : ¬ m.Lists d c := by
      unfold Lists
      rw [AList.lookup_eq_none.mpr hm]
      exact List.not_mem_nil
    simp [hnone]
  · simp [hd]

theorem mem_insertCmd {m : Domain2Cmds} {domain d : String} {cmd : UInt32}
    (h : d ∈ m.insertCmd domain cmd) : d = domain ∨ d ∈ m :=
  (AList.mem_insert m).mp h

theorem mem_insertPair {m : Domain2Cmds} {domain d : String} {cmds : List UInt32}
    (h : d ∈ m.insertPair domain cmds) : d = domain ∨ d ∈ m := by
  unfold insertPair at h
  split at h
  · exact .inr h
  · exact (AList.mem_insert m).mp h

end Domain2Cmds

namespace Diff

open Domain2Cmds

/-- What is added to the three parts. Only `domain` may become a key of one. -/
structure Grows (r r' : Diff) (domain : String) (del new comm : UInt32 → Prop) : Prop where
  dels : ∀ d c, r'.dels.Lists d c ↔ r.dels.Lists d c ∨ d = domain ∧ del c
  news : ∀ d c, r'.news.Lists d c ↔ r.news.Lists d c ∨ d = domain ∧ new c
  comms : ∀ d c, r'.comms.Lists d c ↔ r.comms.Lists d c ∨ d = domain ∧ comm c
  keys_dels : ∀ d, d ≠ domain → d ∉ r.dels → d ∉ r'.dels
  keys_news : ∀ d, d ≠ domain → d ∉ r.news → d ∉ r'.news

variable {r r' r'' : Diff} {domain : String} {del new comm : UInt32 → Prop} {cmds : List UInt32}

namespace Grows

theorem refl (r : Diff) (domain : String) (h : ∀ c, ¬ del c ∧ ¬ new c ∧ ¬ comm c) :
    Grows r r domain del new comm := by
  refine ⟨fun d c => ?_, fun d c => ?_, fun d c => ?_, fun _ _ => id, fun _ _ => id⟩
  · simp [(h c).1]
  · simp [(h c).2.1]
  · simp [(h c).2.2]

theorem addDel (r : Diff) (domain : String) (n : UInt32) :
    Grows r { r with dels := r.dels.insertCmd domain n } domain (· = n) (fun _ => False)
      (fun _ => False) := by
  refine ⟨fun d c => lists_insertCmd, by simp, by simp, fun d hd hr hmem => ?_, fun _ _ => id⟩
  exact (mem_insertCmd hmem).elim hd hr

theorem addNew (r : Diff) (domain : String) (n : UInt32) :
    Grows r { r with news := r.news.insertCmd domain n } domain (fun _ => False) (· = n)
      (fun _ => False) := by
  refine ⟨by simp, fun d c => lists_insertCmd, by simp, fun _ _ => id, fun d hd hr hmem => ?_⟩
  exact (mem_insertCmd hmem).elim hd hr

theorem addComm (r : Diff) (domain : String) (n : UInt32) :
    Grows r { r with comms := r.comms.insertCmd domain n } domain (fun _ => False) (fun _ => False)
      (· = n) :=
  ⟨by simp, by simp, fun d c => lists_insertCmd, fun _ _ => id, fun _ _ => id⟩

theorem trans {del' new' comm' : UInt32 → Prop} (h : Grows r r' domain del new comm)
    (h' : Grows r' r'' domain del' new' comm') :
    Grows r r'' domain (fun c => del c ∨ del' c) (fun c => new c ∨ new' c)
      (fun c => comm c ∨ comm' c) where
  dels := fun d c => by rw [h'.dels, h.dels, or_assoc, ← and_or_left]
  news := fun d c => by rw [h'.news, h.news, or_assoc, ← and_or_left]
  comms := fun d c => by rw [h'.comms, h.comms, or_assoc, ← and_or_left]
  keys_dels := fun d hd hr => h'.keys_dels d hd (h.keys_dels d hd hr)
  keys_news := fun d hd hr => h'.keys_news d hd (h.keys_news d hd hr)

theorem congr {del' new' comm' : UInt32 → Prop} (h : Grows r r' domain del new comm)
    (hdel : ∀ c, del c ↔ del' c) (hnew : ∀ c, new c ↔ new' c) (hcomm : ∀ c, comm c ↔ comm' c) :
    Grows r r' domain del' new' comm' where
  dels := fun d c => by rw [h.dels, hdel]
  news := fun d c => by rw [h.news, hnew]
  comms := fun d c => by rw [h.comms, hcomm]
  keys_dels := h.keys_dels
  keys_news := h.keys_news

theorem foldl {f : Diff → UInt32 → Diff} {p q w : UInt32 → Prop}
    (hf : ∀ r n, Grows r (f r n) domain (fun c => c = n ∧ p c) (fun c => c = n ∧ q c)
      (fun c => c = n ∧ w c)) (cmds : List UInt32) (r : Diff) :
    Grows r (cmds.foldl f r) domain (fun c => c ∈ cmds ∧ p c) (fun c => c ∈ cmds ∧ q c)
      (fun c => c ∈ cmds ∧ w c) := by
  induction cmds generalizing r with
  | nil => exact refl r domain (by simp)
  | cons n cmds ih =>
    refine ((hf r n).trans (ih (f r n))).congr ?_ ?_ ?_
    all_goals
      intro c
      rw [← or_and_right, List.mem_cons]

end Grows

theorem old_grows (new_value : Domain2Cmds) (cmds : List UInt32) (hdomain : domain ∉ r.dels) :
    Grows r (r.old new_value domain cmds) domain
      (fun c => c ∈ cmds ∧ ¬ new_value.Lists domain c) (fun _ => False)
      (fun c => c ∈ cmds ∧ new_value.Lists domain c) := by
  unfold old
  cases hlookup : new_value.lookup domain with
  | none =>
    have hnone : ∀ c, ¬ new_value.Lists domain c := by
      intro c
      simp [Domain2Cmds.Lists, hlookup]
    refine ⟨fun d c => ?_, by simp, by simp [hnone], fun d hd hr hmem => ?_, fun _ _ => id⟩
    · simp only [hnone, not_false_eq_true, and_true]
      exact lists_insertPair hdomain
    · exact (mem_insertPair hmem).elim hd hr
  | some it =>
    have hlists : ∀ c, new_value.Lists domain c ↔ c ∈ it := by
      intro c
      simp [Domain2Cmds.Lists, hlookup]
    refine (Grows.foldl (q := fun _ => False) ?_ cmds r).congr (fun _ => Iff.rfl) (by simp)
      (fun _ => Iff.rfl)
    intro r n
    simp only [hlists]
    split
    · next hn => exact (Grows.addComm r domain n).congr (by grind) (by simp) (by grind)
    · next hn => exact (Grows.addDel r domain n).congr (by grind) (by simp) (by grind)

theorem new_grows (old_value : Domain2Cmds) (cmds : List UInt32) (hdomain : domain ∉ r.news) :
    Grows r (r.new old_value domain cmds) domain (fun _ => False)
      (fun c => c ∈ cmds ∧ ¬ old_value.Lists domain c) (fun _ => False) := by
  unfold Diff.new
  cases hlookup : old_value.lookup domain with
  | none =>
    have hnone : ∀ c, ¬ old_value.Lists domain c := by
      intro c
      simp [Domain2Cmds.Lists, hlookup]
    refine ⟨by simp, fun d c => ?_, by simp, fun _ _ => id, fun d hd hr hmem => ?_⟩
    · simp only [hnone, not_false_eq_true, and_true]
      exact lists_insertPair hdomain
    · exact (mem_insertPair hmem).elim hd hr
  | some it =>
    have hlists : ∀ c, old_value.Lists domain c ↔ c ∈ it := by
      intro c
      simp [Domain2Cmds.Lists, hlookup]
    refine (Grows.foldl (p := fun _ => False) (w := fun _ => False) ?_ cmds r).congr (by simp)
      (fun _ => Iff.rfl) (by simp)
    intro r n
    simp only [hlists]
    split
    · next hn => exact .refl r domain (by grind)
    · next hn => exact (Grows.addNew r domain n).congr (by simp) (by grind) (by simp)

theorem old_news (r : Diff) (new_value : Domain2Cmds) (domain : String) (cmds : List UInt32) :
    (r.old new_value domain cmds).news = r.news := by
  unfold old
  split
  · rfl
  · induction cmds generalizing r with
    | nil => rfl
    | cons n cmds ih =>
      rw [List.foldl_cons, ih]
      split <;> rfl

theorem foldl_old_news (new_value : Domain2Cmds) (l : List (Sigma fun _ : String => List UInt32))
    (r : Diff) : (l.foldl (fun r i => r.old new_value i.1 i.2) r).news = r.news := by
  induction l generalizing r with
  | nil => rfl
  | cons i l ih => rw [List.foldl_cons, ih, old_news]

theorem foldl_old (new_value : Domain2Cmds) {l : List (Sigma fun _ : String => List UInt32)}
    (hl : l.NodupKeys) (r : Diff) (hr : ∀ i ∈ l, i.1 ∉ r.dels) (d : String) (c : UInt32) :
    let r' := l.foldl (fun r i => r.old new_value i.1 i.2) r
    (r'.dels.Lists d c ↔
      r.dels.Lists d c ∨ (∃ i ∈ l, i.1 = d ∧ c ∈ i.2) ∧ ¬ new_value.Lists d c) ∧
    (r'.comms.Lists d c ↔
      r.comms.Lists d c ∨ (∃ i ∈ l, i.1 = d ∧ c ∈ i.2) ∧ new_value.Lists d c) := by
  induction l generalizing r with
  | nil => simp
  | cons i l ih =>
    rw [List.nodupKeys_cons] at hl
    have hgrows := old_grows new_value i.2 (hr i List.mem_cons_self)
    have hrest : ∀ j ∈ l, j.1 ∉ (r.old new_value i.1 i.2).dels := by
      intro j hj
      refine hgrows.keys_dels j.1 ?_ (hr j (List.mem_cons_of_mem i hj))
      intro heq
      exact hl.1 (heq ▸ List.mem_keys_of_mem hj)
    obtain ⟨hdels, hcomms⟩ := ih hl.2 _ hrest
    simp only [List.foldl_cons, List.exists_mem_cons_iff]
    refine ⟨?_, ?_⟩
    · rw [hdels, hgrows.dels]
      grind
    · rw [hcomms, hgrows.comms]
      grind

theorem foldl_new (old_value : Domain2Cmds) {l : List (Sigma fun _ : String => List UInt32)}
    (hl : l.NodupKeys) (r : Diff) (hr : ∀ i ∈ l, i.1 ∉ r.news) (d : String) (c : UInt32) :
    let r' := l.foldl (fun r i => r.new old_value i.1 i.2) r
    (r'.dels.Lists d c ↔ r.dels.Lists d c) ∧
    (r'.news.Lists d c ↔
      r.news.Lists d c ∨ (∃ i ∈ l, i.1 = d ∧ c ∈ i.2) ∧ ¬ old_value.Lists d c) ∧
    (r'.comms.Lists d c ↔ r.comms.Lists d c) := by
  induction l generalizing r with
  | nil => simp
  | cons i l ih =>
    rw [List.nodupKeys_cons] at hl
    have hgrows := new_grows old_value i.2 (hr i List.mem_cons_self)
    have hrest : ∀ j ∈ l, j.1 ∉ (r.new old_value i.1 i.2).news := by
      intro j hj
      refine hgrows.keys_news j.1 ?_ (hr j (List.mem_cons_of_mem i hj))
      intro heq
      exact hl.1 (heq ▸ List.mem_keys_of_mem hj)
    obtain ⟨hdels, hnews, hcomms⟩ := ih hl.2 _ hrest
    simp only [List.foldl_cons, List.exists_mem_cons_iff]
    refine ⟨?_, ?_, ?_⟩
    · rw [hdels, hgrows.dels]
      simp
    · rw [hnews, hgrows.news]
      grind
    · rw [hcomms, hgrows.comms]
      simp

end Diff

theorem diff_lists (old_value new_value : Domain2Cmds) (d : String) (c : UInt32) :
    ((diff old_value new_value).dels.Lists d c ↔ old_value.Lists d c ∧ ¬ new_value.Lists d c) ∧
    ((diff old_value new_value).news.Lists d c ↔ new_value.Lists d c ∧ ¬ old_value.Lists d c) ∧
    ((diff old_value new_value).comms.Lists d c ↔ old_value.Lists d c ∧ new_value.Lists d c) := by
  have hold := Diff.foldl_old new_value old_value.nodupKeys ⟨∅, ∅, ∅⟩
    (fun i _ => AList.notMem_empty i.1) d c
  have hempty : ∀ i ∈ new_value.entries,
      i.1 ∉ (old_value.entries.foldl (fun r i => Diff.old r new_value i.1 i.2) ⟨∅, ∅, ∅⟩).news := by
    intro i _
    rw [Diff.foldl_old_news]
    exact AList.notMem_empty i.1
  have hnew := Diff.foldl_new old_value new_value.nodupKeys _ hempty d c
  simp only [← Domain2Cmds.lists_iff] at hold hnew
  simp only [Domain2Cmds.not_lists_empty, false_or] at hold
  unfold diff
  rw [hnew.1, hnew.2.1, hnew.2.2, hold.1, hold.2, Diff.foldl_old_news]
  simp [Domain2Cmds.not_lists_empty]

namespace NameServerModule

open Domain2Cmds

section Loops

variable {ds : NSDomainSet} {domain : String}

theorem sound_set (h : ds.Sound) {d : NSDomain} (hd : d.Sound) (hdomain : d.m_domain = domain) :
    NSDomainSet.Sound (Assoc.set ds domain d) := by
  intro domain' d' hd'
  rw [Assoc.find_set] at hd'
  split at hd'
  · next heq =>
    cases hd'
    exact ⟨hd, hdomain.trans heq⟩
  · exact h domain' d' hd'

theorem node_set (ds : NSDomainSet) (domain : String) (d : NSDomain) (domain' : String) (c : UInt32)
    (id : UInt64) : NSDomainSet.node (Assoc.set ds domain d) domain' c id =
      if domain = domain' then d.node c id else ds.node domain' c id := by
  unfold NSDomainSet.node
  rw [Assoc.find_set]
  split <;> rfl

theorem delAll_node (h : ds.Sound) (id : UInt64) (dels : Domain2Cmds) :
    (delAll ds id dels).Sound ∧ ∀ d c id' x, (delAll ds id dels).node d c id' = some x ↔
      ds.node d c id' = some x ∧ ¬ (dels.Lists d c ∧ id = id') := by
  simp only [lists_iff]
  unfold delAll
  generalize dels.entries = l
  induction l generalizing ds with
  | nil => simp [h]
  | cons i l ih =>
    cases hfind : Assoc.find ds i.1 with
    | none =>
      obtain ⟨hsound, hnode⟩ := ih h
      simp only [List.foldl_cons, hfind]
      refine ⟨hsound, fun d c id' x => ?_⟩
      rw [hnode, List.exists_mem_cons_iff]
      refine and_congr_right fun hx => not_congr (and_congr_left fun _ => ?_)
      have hne : i.1 ≠ d := by
        rintro rfl
        unfold NSDomainSet.node at hx
        rw [hfind] at hx
        cases hx
      simp [hne]
    | some dom =>
      obtain ⟨hdom, hname⟩ := h i.1 dom hfind
      obtain ⟨hdom', hname', hnode'⟩ := NSDomain.foldl_del hdom id i.2
      obtain ⟨hsound, hnode⟩ := ih (sound_set h hdom' (hname'.trans hname))
      simp only [List.foldl_cons, hfind]
      refine ⟨hsound, fun d c id' x => ?_⟩
      rw [hnode, List.exists_mem_cons_iff, node_set]
      by_cases hd : i.1 = d
      · subst hd
        have hold : ds.node i.1 c id' = dom.node c id' := by
          unfold NSDomainSet.node
          rw [hfind]
          rfl
        rw [if_pos rfl, hnode', hold]
        grind
      · rw [if_neg hd]
        simp [hd]

theorem addAll_node (h : ds.Sound) (info : NSNode) (news : Domain2Cmds) :
    (addAll ds info news).Sound ∧ ∀ d c id x, (addAll ds info news).node d c id = some x ↔
      (news.Lists d c ∧ info.m_id = id) ∧ x = info ∨
        ¬ (news.Lists d c ∧ info.m_id = id) ∧ ds.node d c id = some x := by
  simp only [lists_iff]
  unfold addAll
  generalize news.entries = l
  induction l generalizing ds with
  | nil => simp [h]
  | cons i l ih =>
    have hdom : ((Assoc.find ds i.1).getD (.new i.1)).Sound ∧
        ((Assoc.find ds i.1).getD (.new i.1)).m_domain = i.1 := by
      cases hfind : Assoc.find ds i.1 with
      | none => exact ⟨.new i.1, rfl⟩
      | some dom => exact h i.1 dom hfind
    have hold : ∀ c id, ds.node i.1 c id = ((Assoc.find ds i.1).getD (.new i.1)).node c id := by
      intro c id
      unfold NSDomainSet.node
      cases Assoc.find ds i.1 with
      | none => exact (NSDomain.node_new i.1 c id).symm
      | some dom => rfl
    obtain ⟨hdom', hname', hnode'⟩ := NSDomain.foldl_add hdom.1 info i.2
    obtain ⟨hsound, hnode⟩ := ih (sound_set h hdom' (hname'.trans hdom.2))
    simp only [List.foldl_cons]
    refine ⟨hsound, fun d c id x => ?_⟩
    rw [hnode, List.exists_mem_cons_iff, node_set]
    by_cases hd : i.1 = d
    · subst hd
      rw [if_pos rfl, hnode', hold]
      grind
    · rw [if_neg hd]
      simp [hd]

end Loops

def Listed (v : Option NSClientInfo) (id : UInt64) (d : String) (c : UInt32) : Prop :=
  ∃ info, v = some info ∧ info.m_node.m_id = id ∧ info.m_domain2cmds.Lists d c

/-- The registration before lists the command too, with the same weight. -/
def Unchanged (old_value : Option NSClientInfo) (info : NSClientInfo) (d : String) (c : UInt32) :
    Prop :=
  ∃ before, old_value = some before ∧ before.m_domain2cmds.Lists d c ∧
    before.m_node.m_weight = info.m_node.m_weight

/-- The node of a registration that lists the command, or the one that is there when nothing
has changed. -/
def Entered (old_value new_value : Option NSClientInfo) (old : Option NSNode) (id : UInt64)
    (d : String) (c : UInt32) (x : NSNode) : Prop :=
  ∃ info, new_value = some info ∧ info.m_node.m_id = id ∧ info.m_domain2cmds.Lists d c ∧
    (Unchanged old_value info d c ∧ old = some x ∨
      ¬ Unchanged old_value info d c ∧ x = info.m_node)

section Set

variable {R : Type} [DecidableEq R] {s : NameServerModule R} {rs : R}

theorem set_node (h : s.m_domains.Sound) (isConnected : Bool) {value : Option NSClientInfo}
    (hid : ∀ before info, s.get rs = some before → value = some info →
      before.m_node.m_id = info.m_node.m_id) :
    let new_value := if isConnected then value else none
    let s' := s.set rs isConnected value
    s'.m_domains.Sound ∧ ∀ d c id x, s'.m_domains.node d c id = some x ↔
      Entered (s.get rs) new_value (s.m_domains.node d c id) id d c x ∨
        ¬ Listed new_value id d c ∧ ¬ Listed (s.get rs) id d c ∧
          s.m_domains.node d c id = some x := by
  have hids : ∀ before info, s.get rs = some before → (if isConnected then value else none) = some info →
      before.m_node.m_id = info.m_node.m_id := by
    intro before info hbefore hinfo
    split at hinfo
    · exact hid before info hbefore hinfo
    · cases hinfo
  unfold set
  simp only
  generalize (if isConnected then value else none) = new_value at hids
  cases hold : s.get rs with
  | none =>
    cases new_value with
    | none => exact ⟨h, fun d c id x => by simp [Entered, Listed]⟩
    | some info =>
      obtain ⟨hsound, hnode⟩ := addAll_node h info.m_node (diff ∅ info.m_domain2cmds).news
      refine ⟨hsound, fun d c id x => ?_⟩
      refine (hnode d c id x).trans ?_
      rw [(diff_lists ∅ info.m_domain2cmds d c).2.1]
      simp only [Entered, Listed, Unchanged, not_lists_empty, reduceCtorEq, false_and, exists_false,
        Option.some.injEq, exists_eq_left']
      grind
  | some before =>
    cases new_value with
    | none =>
      obtain ⟨hsound, hnode⟩ := delAll_node h before.m_node.m_id (diff before.m_domain2cmds ∅).dels
      refine ⟨hsound, fun d c id x => ?_⟩
      refine (hnode d c id x).trans ?_
      rw [(diff_lists before.m_domain2cmds ∅ d c).1]
      simp only [Entered, Listed, not_lists_empty, reduceCtorEq, false_and, exists_false,
        Option.some.injEq, exists_eq_left']
      grind
    | some info =>
      have hsame := hids before info hold rfl
      have hdiff := diff_lists before.m_domain2cmds info.m_domain2cmds
      obtain ⟨hsound, hnode⟩ := delAll_node h before.m_node.m_id
        (diff before.m_domain2cmds info.m_domain2cmds).dels
      obtain ⟨hsound', hnode'⟩ := addAll_node hsound info.m_node
        (diff before.m_domain2cmds info.m_domain2cmds).news
      simp only [Option.map_some, Option.getD_some]
      by_cases hweight : before.m_node.m_weight = info.m_node.m_weight
      · rw [if_neg (not_not.mpr hweight)]
        refine ⟨hsound', fun d c id x => ?_⟩
        refine (hnode' d c id x).trans ?_
        rw [hnode, (hdiff d c).1, (hdiff d c).2.1]
        simp only [Entered, Listed, Unchanged, Option.some.injEq, exists_eq_left', hsame, hweight]
        grind
      · rw [if_pos hweight]
        obtain ⟨hsound'', hnode''⟩ := addAll_node hsound' info.m_node
          (diff before.m_domain2cmds info.m_domain2cmds).comms
        refine ⟨hsound'', fun d c id x => ?_⟩
        refine (hnode'' d c id x).trans ?_
        rw [hnode', hnode, (hdiff d c).1, (hdiff d c).2.1, (hdiff d c).2.2]
        simp only [Entered, Listed, Unchanged, Option.some.injEq, exists_eq_left', hsame, hweight]
        grind

theorem get_set (isConnected : Bool) (value : Option NSClientInfo) (rs' : R) :
    (s.set rs isConnected value).get rs' =
      if rs = rs' then (if isConnected then value else none) else s.get rs' := by
  unfold get set
  cases if isConnected then value else none with
  | none => exact Assoc.find_without s.m_sessions rs rs'
  | some info => exact Assoc.find_set s.m_sessions rs rs' info

end Set

end NameServerModule

end Sylar
