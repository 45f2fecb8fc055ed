import Sylar.Spec.LoadBalance
import Sylar.Lib.Partial

/-! The balancer of a service follows the changes it is told of. What is under a key is a
partial function of domain, service and id, and a change is described by what it does to that
function. -/

namespace Sylar

open Lib

namespace LoadBalance

theorem find_takeOut (dels : List (UInt64 × Option ℕ)) (datas : List (UInt64 × ℕ)) (id : UInt64) :
    Assoc.find (takeOut datas dels).1 id =
      if id ∈ dels.map Prod.fst then none else Assoc.find datas id := by
  induction dels generalizing datas with
  | nil => simp [takeOut]
  | cons d dels ih =>
    obtain ⟨key, item⟩ := d
    simp only [takeOut, List.map_cons, List.mem_cons]
    cases hfind : Assoc.find datas key with
    | none =>
      by_cases hid : id = key
      · subst hid
        simp [ih, hfind]
      · simp only [ih, hid, false_or]
    | some n =>
      by_cases hid : id = key
      · subst hid
        simp [ih, Assoc.find_without]
      · simp only [ih, Assoc.find_without, hid, Ne.symm hid, if_false, false_or]

theorem takeOut_snd {dels : List (UInt64 × Option ℕ)} (hdels : (dels.map Prod.fst).Nodup)
    (datas : List (UInt64 × ℕ)) :
    (takeOut datas dels).2 = dels.map fun d => (d.1, (Assoc.find datas d.1).or d.2) := by
  induction dels generalizing datas with
  | nil => rfl
  | cons d dels ih =>
    obtain ⟨key, item⟩ := d
    rw [List.map_cons, List.nodup_cons] at hdels
    simp only [takeOut]
    cases hfind : Assoc.find datas key with
    | none => simp [ih hdels.2, hfind]
    | some n =>
      simp only [ih hdels.2, List.map_cons, hfind, Option.some_or, List.cons.injEq, true_and]
      refine List.map_congr_left fun d hd => ?_
      have hne : key ≠ d.1 := by
        rintro rfl
        exact hdels.1 (show d.1 ∈ dels.map Prod.fst from List.mem_map_of_mem hd)
      rw [Assoc.find_without, if_neg hne]

theorem find_foldl_set {adds : List (UInt64 × ℕ)} (hadds : (adds.map Prod.fst).Nodup)
    (datas : List (UInt64 × ℕ)) (id : UInt64) :
    Assoc.find (adds.foldl (fun datas i => Assoc.set datas i.1 i.2) datas) id =
      (Assoc.find adds id).or (Assoc.find datas id) := by
  induction adds generalizing datas with
  | nil => rfl
  | cons i adds ih =>
    rw [List.map_cons, List.nodup_cons] at hadds
    rw [List.foldl_cons, ih hadds.2, Assoc.find_set, Assoc.find_cons]
    by_cases hid : i.1 = id
    · have hnone : Assoc.find adds id = none :=
        Assoc.find_eq_none.mpr fun c hc heq => hadds.1 (hid ▸ heq ▸ List.mem_map_of_mem hc)
      rw [if_pos hid, if_pos hid, hnone]
      rfl
    · rw [if_neg hid, if_neg hid]

variable {T : Type}

def asks (lb : LoadBalance) (n : ℕ) : Bool := !lb.isRoundRobin && decide (n ∈ lb.m_items)

theorem init_init (s : HolderStatsSet) (now : UInt32) : (s.init now).init now = s.init now := by
  by_cases h : s.m_lastUpdateTime < now
  · unfold HolderStatsSet.init
    simp only [if_pos h, if_neg (UInt32.lt_irrefl now)]
  · have hsame : s.init now = s := if_neg h
    rw [hsame, hsame]

theorem getWeight_getWeight (x : LoadBalanceItem T) (now : UInt32) :
    (x.getWeight now).getWeight now = x.getWeight now := by
  unfold LoadBalanceItem.getWeight
  by_cases h : x.isFair
  · simp only [if_pos h, init_init]
  · simp only [if_neg h]

theorem m_stream_getWeight (x : LoadBalanceItem T) (now : UInt32) :
    (x.getWeight now).m_stream = x.m_stream := by
  unfold LoadBalanceItem.getWeight
  split <;> rfl

theorem initNolock_changes (lb : LoadBalance) (items : List (LoadBalanceItem T)) (polled : Polled) :
    Changes (fun n x x' => x' =
        if (lb.initNolock items polled).1.asks n then x.getWeight (polled.time n) else x)
      items (lb.initNolock items polled).2 := by
  refine .of_map fun n => ?_
  unfold asks initNolock
  cases hround : lb.isRoundRobin with
  | true => simp
  | false =>
    simp only [Bool.false_eq_true, if_false, Bool.not_false, Bool.true_and, decide_eq_true_eq]
    exact look_foldl_modify (f := fun n (x : LoadBalanceItem T) => x.getWeight (polled.time n))
      (fun n x => getWeight_getWeight x (polled.time n)) _ items n

end LoadBalance

namespace Services

variable {I : Type}

def keys (services : Services I) : List UInt64 := services.pairs.map Prod.fst

theorem isNone_find (services : Services I) (id : UInt64) :
    (Assoc.find services.pairs id).isNone = true ↔ id ∉ services.keys := by
  rw [Option.isNone_iff_eq_none, Assoc.find_eq_none]
  constructor
  · intro hnone hmem
    obtain ⟨i, hi, hid⟩ := List.mem_map.mp hmem
    exact hnone i hi hid
  · intro hmem i hi hid
    exact hmem (hid ▸ List.mem_map_of_mem hi)

end Services

namespace SDLoadBalance

variable {I T V : Type}

theorem find2_set2 (m : List (String × List (String × V))) (domain service d sv : String) (v : V) :
    find2 (set2 m domain service v) d sv =
      if domain = d ∧ service = sv then some v else find2 m d sv := by
  unfold find2 set2
  rw [Assoc.find_set]
  by_cases hd : domain = d
  · subst hd
    rw [if_pos rfl, Option.bind_some, Assoc.find_set]
    by_cases hsv : service = sv
    · rw [if_pos hsv, if_pos ⟨rfl, hsv⟩]
    · rw [if_neg hsv, if_neg fun h => hsv h.2]
      cases Assoc.find m domain with
      | none => rfl
      | some services => rfl
  · rw [if_neg hd, if_neg fun h => hd h.1]

/-- What is made of the values that are added. -/
structure Made (items items' : List (LoadBalanceItem T)) (values : List (UInt64 × I))
    (infos : List (UInt64 × ℕ)) : Prop where
  made : ∃ new, items' = items ++ new ∧ new.length = values.length ∧
    ∀ x ∈ new, x.m_stream.isSome = true
  keys : infos.map Prod.fst = values.map Prod.fst
  numbers : infos.map Prod.snd = List.range' items.length values.length

theorem createItems_made (type : LoadBalanceType) {cb : UInt64 → I → Option T}
    {values : List (UInt64 × I)} (hcb : ∀ i ∈ values, (cb i.1 i.2).isSome = true)
    (items : List (LoadBalanceItem T)) :
    Made items (createItems type cb items values).1 values (createItems type cb items values).2 := by
  induction values generalizing items with
  | nil => exact ⟨⟨[], by simp [createItems]⟩, rfl, rfl⟩
  | cons i values ih =>
    obtain ⟨id, info⟩ := i
    obtain ⟨stream, hstream⟩ := Option.isSome_iff_exists.mp (hcb _ List.mem_cons_self)
    change cb id info = some stream at hstream
    obtain ⟨⟨new, hnew, hlen, hall⟩, hkeys, hnumbers⟩ :=
      ih (fun i hi => hcb i (List.mem_cons_of_mem _ hi)) (items ++ [newItem type id stream])
    simp only [createItems, hstream]
    refine ⟨⟨newItem type id stream :: new, ?_, by simp [hlen], ?_⟩, by simp [hkeys], ?_⟩
    · rw [hnew, List.append_assoc]
      rfl
    · intro x hx
      rcases List.mem_cons.mp hx with rfl | hx
      · rfl
      · exact hall x hx
    · simp only [List.map_cons, hnumbers, List.length_append, List.length_cons]
      rfl

def entry (s : SDLoadBalance T) (domain service : String) (id : UInt64) : Option ℕ :=
  (find2 s.m_datas domain service).bind fun b =>
    (look s.balancers b).bind fun lb => Assoc.find lb.m_datas id

/-- The balancer of a service asks this item for its weight. -/
def asks (s : SDLoadBalance T) (domain service : String) (n : ℕ) : Bool :=
  ((find2 s.m_datas domain service).bind (look s.balancers)).any fun lb => lb.asks n

/-- Every service has a balancer of its own. -/
structure Apart (s : SDLoadBalance T) : Prop where
  made : ∀ d sv b, find2 s.m_datas d sv = some b → b < s.balancers.length
  inj : ∀ d sv d' sv' b, find2 s.m_datas d sv = some b → find2 s.m_datas d' sv' = some b →
    d = d' ∧ sv = sv'

variable {s : SDLoadBalance T} {domain service : String}

/-- What `get` leaves, with the balancer it returns. -/
structure Got (s s' : SDLoadBalance T) (domain service : String) (b : ℕ) : Prop where
  apart : Apart s'
  found : find2 s'.m_datas domain service = some b
  entry_eq : ∀ d sv id, s'.entry d sv id = s.entry d sv id
  items_eq : s'.items = s.items
  closed_eq : s'.closed = s.closed

theorem entry_none {d sv : String} (h : find2 s.m_datas d sv = none) (id : UInt64) :
    s.entry d sv id = none := by
  unfold entry
  rw [h]
  rfl

theorem entry_some {d sv : String} {b : ℕ} {lb : LoadBalance} (h : find2 s.m_datas d sv = some b)
    (hlb : look s.balancers b = some lb) (id : UInt64) :
    s.entry d sv id = Assoc.find lb.m_datas id := by
  unfold entry
  rw [h, Option.bind_some, hlb, Option.bind_some]

theorem getOrCreate_got (h : Apart s) :
    Got s (s.getOrCreate domain service).1 domain service (s.getOrCreate domain service).2 := by
  unfold getOrCreate
  split
  · next b hb => exact ⟨h, hb, fun _ _ _ => rfl, rfl, rfl⟩
  · next hnone =>
    have hnew : ∀ d sv b, find2 (set2 s.m_datas domain service s.balancers.length) d sv = some b →
        (domain = d ∧ service = sv) ∧ b = s.balancers.length ∨
          ¬ (domain = d ∧ service = sv) ∧ find2 s.m_datas d sv = some b := by
      intro d sv b hb
      rw [find2_set2] at hb
      split at hb
      · next heq => exact .inl ⟨heq, (Option.some.inj hb).symm⟩
      · next hne => exact .inr ⟨hne, hb⟩
    refine ⟨⟨?_, ?_⟩, ?_, ?_, rfl, rfl⟩
    · intro d sv b hb
      show b < (s.balancers ++ [_]).length
      rw [List.length_append, List.length_singleton]
      rcases hnew d sv b hb with ⟨-, rfl⟩ | ⟨-, hb⟩
      · exact Nat.lt_succ_self _
      · exact (h.made d sv b hb).trans (Nat.lt_succ_self _)
    · intro d sv d' sv' b hb hb'
      rcases hnew d sv b hb with ⟨⟨rfl, rfl⟩, rfl⟩ | ⟨-, hold⟩
      · rcases hnew d' sv' _ hb' with ⟨heq, -⟩ | ⟨-, hold⟩
        · exact heq
        · exact absurd (h.made _ _ _ hold) (Nat.lt_irrefl _)
      · rcases hnew d' sv' b hb' with ⟨-, rfl⟩ | ⟨-, hold'⟩
        · exact absurd (h.made _ _ _ hold) (Nat.lt_irrefl _)
        · exact h.inj d sv d' sv' b hold hold'
    · show find2 (set2 s.m_datas domain service s.balancers.length) domain service = _
      rw [find2_set2, if_pos ⟨rfl, rfl⟩]
    · intro d sv id
      have hfind := find2_set2 s.m_datas domain service d sv s.balancers.length
      split at hfind
      · next heq =>
        obtain ⟨rfl, rfl⟩ := heq
        have hlb : look (s.balancers ++ [createLoadBalance (s.getType domain service)])
            s.balancers.length = some (createLoadBalance (s.getType domain service)) := by
          rw [look_append, Function.update_self]
        rw [entry_none hnone, entry_some hfind hlb]
        cases s.getType domain service <;> rfl
      · cases hb : find2 s.m_datas d sv with
        | none =>
          rw [entry_none hb]
          exact entry_none (hfind.trans hb) id
        | some b =>
          have hlt := h.made d sv b hb
          obtain ⟨lb, hlb⟩ : ∃ lb, look s.balancers b = some lb := ⟨_, List.getElem?_eq_getElem hlt⟩
          rw [entry_some hb hlb]
          exact entry_some (hfind.trans hb) (look_append_old hlb _) id

theorem entry_set (h : Apart s) {b : ℕ} (lb : LoadBalance)
    (hb : find2 s.m_datas domain service = some b) (items : List (LoadBalanceItem T))
    (closed : List ℕ) (d sv : String) (id : UInt64) :
    entry { s with balancers := s.balancers.set b lb, items := items, closed := closed } d sv id =
      if domain = d ∧ service = sv then Assoc.find lb.m_datas id else s.entry d sv id := by
  obtain ⟨old, hold⟩ : ∃ old, look s.balancers b = some old :=
    ⟨_, List.getElem?_eq_getElem (h.made _ _ _ hb)⟩
  split
  · next heq =>
    obtain ⟨rfl, rfl⟩ := heq
    show (find2 s.m_datas domain service).bind (fun c => (look (s.balancers.set b lb) c).bind _) = _
    rw [hb, Option.bind_some, look_set hold, Function.update_self, Option.bind_some]
  · next hne =>
    show (find2 s.m_datas d sv).bind (fun c => (look (s.balancers.set b lb) c).bind _) = _
    unfold entry
    cases hc : find2 s.m_datas d sv with
    | none => rfl
    | some c =>
      have hcb : c ≠ b := by
        rintro rfl
        exact hne (h.inj _ _ _ _ _ hb hc)
      rw [Option.bind_some, Option.bind_some, look_set hold, Function.update_of_ne hcb]

/-- The balancer of a service has asked its items for their weights. -/
def Polls (s : SDLoadBalance T) (domain service : String) (polled : Polled) (n : ℕ)
    (x x' : LoadBalanceItem T) : Prop :=
  x' = if s.asks domain service n then x.getWeight (polled.time n) else x

theorem Polls.m_stream {polled : Polled} {n : ℕ} {x x' : LoadBalanceItem T}
    (h : s.Polls domain service polled n x x') : x'.m_stream = x.m_stream := by
  unfold Polls at h
  rw [h]
  split
  · exact LoadBalance.m_stream_getWeight x _
  · rfl

/-- What a change does to the entries, to the objects and to the record. `items` are the objects
before they are asked for their weights. -/
structure Changed (s s' : SDLoadBalance T) (domain service : String) (old new : Services I)
    (polled : Polled) (items : List (LoadBalanceItem T)) (infos : List (UInt64 × ℕ)) : Prop where
  apart : Apart s'
  made : Made s.items items (addValues old new) infos
  polls : Changes (s'.Polls domain service polled) items s'.items
  other : ∀ d sv id, ¬ (domain = d ∧ service = sv) → s'.entry d sv id = s.entry d sv id
  entry_eq : ∀ id, s'.entry domain service id = (Assoc.find infos id).or
    (if id ∈ old.keys ∧ id ∉ new.keys then none else s.entry domain service id)
  closed_eq : s'.closed = s.closed ++
    ((old.keys.filter fun id => id ∉ new.keys).filterMap (s.entry domain service)).filter fun n =>
      ((look s'.items n).bind LoadBalanceItem.m_stream).isSome

namespace Changed

variable {s' : SDLoadBalance T} {old new : Services I} {polled : Polled}
  {items : List (LoadBalanceItem T)} {infos : List (UInt64 × ℕ)}

theorem length_le (h : Changed s s' domain service old new polled items infos) :
    s.items.length ≤ s'.items.length := by
  obtain ⟨made, hmade, -⟩ := h.made.made
  rw [h.polls.length_eq, hmade, List.length_append]
  exact Nat.le_add_right _ _

/-- An item that was there is there, as it is after its balancer was asked. -/
theorem object (h : Changed s s' domain service old new polled items infos) {n : ℕ}
    {x : LoadBalanceItem T} (hx : look s.items n = some x) :
    ∃ x', look s'.items n = some x' ∧ s'.Polls domain service polled n x x' := by
  obtain ⟨made, hmade, -⟩ := h.made.made
  refine h.polls.new ?_
  rw [hmade]
  exact (List.getElem?_append_left (lt_length_of_look hx)).trans hx

theorem streams (h : Changed s s' domain service old new polled items infos)
    (hs : ∀ x ∈ s.items, x.m_stream.isSome = true) : ∀ x ∈ s'.items, x.m_stream.isSome = true := by
  intro x' hx'
  obtain ⟨made, hmade, -, hall⟩ := h.made.made
  obtain ⟨n, hn⟩ := List.mem_iff_getElem?.mp hx'
  obtain ⟨x, hx, hpolls⟩ := h.polls.old hn
  rw [hpolls.m_stream]
  have hmem := List.mem_of_getElem? hx
  rw [hmade, List.mem_append] at hmem
  exact hmem.elim (hs x) (hall x)

end Changed

theorem keys_addValues (old new : Services I) :
    (addValues old new).map Prod.fst = new.keys.filter fun id => id ∉ old.keys := by
  unfold addValues Services.keys
  rw [List.filter_map]
  congr 1
  refine List.filter_congr fun i _ => ?_
  rw [Bool.eq_iff_iff, old.isNone_find]
  simp [Services.keys]

theorem keys_delInfos (old new : Services I) :
    (delInfos old new).map Prod.fst = old.keys.filter fun id => id ∉ new.keys := by
  unfold delInfos Services.keys
  rw [List.map_map, List.filter_map]
  show (old.pairs.filter _).map Prod.fst = _
  congr 1
  refine List.filter_congr fun i _ => ?_
  rw [Bool.eq_iff_iff, new.isNone_find]
  simp [Services.keys]

namespace Made

variable {old new : Services I} {items items' : List (LoadBalanceItem T)} {infos : List (UInt64 × ℕ)}

theorem length_eq (h : Made items items' (addValues old new) infos) :
    items'.length = items.length + (addValues old new).length := by
  obtain ⟨made, rfl, hlen, -⟩ := h.made
  rw [List.length_append, hlen]

theorem nodup (h : Made items items' (addValues old new) infos) : (infos.map Prod.fst).Nodup := by
  rw [h.keys, keys_addValues]
  exact new.nodup.filter _

theorem mem_range (h : Made items items' (addValues old new) infos) {id : UInt64} {n : ℕ}
    (hn : Assoc.find infos id = some n) : items.length ≤ n ∧ n < items'.length := by
  have hmem : n ∈ infos.map Prod.snd :=
    List.mem_map.mpr ⟨(id, n), Assoc.mem_of_find hn, rfl⟩
  rw [h.numbers, List.mem_range'_1] at hmem
  rw [h.length_eq]
  exact hmem

theorem find_isSome (h : Made items items' (addValues old new) infos) (id : UInt64) :
    (∃ n, Assoc.find infos id = some n) ↔ id ∈ new.keys ∧ id ∉ old.keys := by
  have hkeys : id ∈ infos.map Prod.fst ↔ id ∈ new.keys ∧ id ∉ old.keys := by
    rw [h.keys, keys_addValues, List.mem_filter, decide_eq_true_iff]
  rw [← hkeys]
  constructor
  · rintro ⟨n, hn⟩
    exact List.mem_map.mpr ⟨(id, n), Assoc.mem_of_find hn, rfl⟩
  · intro hid
    obtain ⟨i, hi, rfl⟩ := List.mem_map.mp hid
    exact ⟨i.2, Assoc.find_of_mem h.nodup hi⟩

theorem exists_find (h : Made items items' (addValues old new) infos) {n : ℕ}
    (hle : items.length ≤ n) (hlt : n < items'.length) : ∃ id, Assoc.find infos id = some n := by
  have hmem : n ∈ infos.map Prod.snd := by
    rw [h.numbers, List.mem_range'_1]
    rw [h.length_eq] at hlt
    exact ⟨hle, hlt⟩
  obtain ⟨i, hi, rfl⟩ := List.mem_map.mp hmem
  exact ⟨i.1, Assoc.find_of_mem h.nodup hi⟩

theorem find_inj (h : Made items items' (addValues old new) infos) {id id' : UInt64} {n : ℕ}
    (hid : Assoc.find infos id = some n) (hid' : Assoc.find infos id' = some n) : id = id' := by
  have hnumbers : (infos.map Prod.snd).Nodup := by
    rw [h.numbers]
    exact List.nodup_range'
  have heq : (id, n) = (id', n) :=
    List.inj_on_of_nodup_map hnumbers (Assoc.mem_of_find hid) (Assoc.mem_of_find hid') rfl
  exact congrArg Prod.fst heq

end Made

theorem find_update (lb : LoadBalance) {old new : Services I} {items items' : List (LoadBalanceItem T)}
    {infos : List (UInt64 × ℕ)} (hmade : Made items items' (addValues old new) infos)
    (polled : Polled) (id : UInt64) :
    Assoc.find (lb.update items' infos (delInfos old new) polled).1.1.m_datas id = (Assoc.find infos id).or
      (if id ∈ old.keys ∧ id ∉ new.keys then none else Assoc.find lb.m_datas id) := by
  have hdel : id ∈ (delInfos old new).map Prod.fst ↔ id ∈ old.keys ∧ id ∉ new.keys := by
    rw [keys_delInfos, List.mem_filter, decide_eq_true_iff]
  show Assoc.find (infos.foldl _ (LoadBalance.takeOut lb.m_datas (delInfos old new)).1) id = _
  rw [LoadBalance.find_foldl_set hmade.nodup, LoadBalance.find_takeOut]
  simp only [hdel]

theorem update_snd (lb : LoadBalance) (items : List (LoadBalanceItem T)) (infos : List (UInt64 × ℕ))
    (old new : Services I) (polled : Polled) :
    (lb.update items infos (delInfos old new) polled).2.filterMap Prod.snd =
      (old.keys.filter fun id => id ∉ new.keys).filterMap (Assoc.find lb.m_datas) := by
  have hdels : ((delInfos old new).map Prod.fst).Nodup := by
    rw [keys_delInfos]
    exact old.nodup.filter _
  show (LoadBalance.takeOut lb.m_datas (delInfos old new)).2.filterMap Prod.snd = _
  rw [LoadBalance.takeOut_snd hdels, List.filterMap_map, ← keys_delInfos, List.filterMap_map]
  refine List.filterMap_congr fun d hd => ?_
  obtain ⟨i, -, rfl⟩ := List.mem_map.mp hd
  exact Option.or_none

theorem Got.changed {s' : SDLoadBalance T} {b : ℕ} {lb : LoadBalance} {old new : Services I}
    {items : List (LoadBalanceItem T)} {infos : List (UInt64 × ℕ)} (h : Got s s' domain service b)
    (hlb : look s'.balancers b = some lb) (hmade : Made s.items items (addValues old new) infos)
    (polled : Polled) :
    Changed s
      (close { s' with
        balancers := s'.balancers.set b (lb.update items infos (delInfos old new) polled).1.1
        items := (lb.update items infos (delInfos old new) polled).1.2 }
        (lb.update items infos (delInfos old new) polled).2)
      domain service old new polled items infos := by
  have hentry := entry_set h.apart (lb.update items infos (delInfos old new) polled).1.1 h.found
    (lb.update items infos (delInfos old new) polled).1.2
  have hold : ∀ id, s.entry domain service id = Assoc.find lb.m_datas id := by
    intro id
    rw [← h.entry_eq]
    exact entry_some h.found hlb id
  refine ⟨⟨?_, h.apart.inj⟩, hmade, ?_, ?_, ?_, ?_⟩
  · intro d sv c hc
    show c < (s'.balancers.set _ _).length
    rw [List.length_set]
    exact h.apart.made d sv c hc
  · refine (LoadBalance.initNolock_changes _ items polled).mono fun n x x' hx => ?_
    refine hx.trans ?_
    show _ = if ((find2 s'.m_datas domain service).bind (look (s'.balancers.set b _))).any _ then _ else x
    rw [h.found, Option.bind_some, look_set hlb, Function.update_self]
    rfl
  · intro d sv id hne
    refine (hentry _ d sv id).trans ?_
    rw [if_neg hne, h.entry_eq]
  · intro id
    refine (hentry _ domain service id).trans ?_
    rw [if_pos ⟨rfl, rfl⟩, find_update lb hmade, hold]
  · show s'.closed ++ ((lb.update items infos (delInfos old new) polled).2.filterMap Prod.snd).filter _ = _
    rw [update_snd, h.closed_eq, funext hold]
    rfl

theorem onServiceChange_changed (h : Apart s) (domain service : String) {old new : Services I}
    {cb : UInt64 → I → Option T} (polled : Polled)
    (hcb : ∀ i ∈ new.pairs, i.1 ∉ old.keys → (cb i.1 i.2).isSome = true) :
    ∃ s' items infos, s.onServiceChange domain service old new cb polled = .ok s' ∧
      Changed s s' domain service old new polled items infos := by
  have hgot : Got s _ domain service _ := getOrCreate_got h
  obtain ⟨lb, hlb⟩ : ∃ lb, look (s.getOrCreate domain service).1.balancers
      (s.getOrCreate domain service).2 = some lb :=
    ⟨_, List.getElem?_eq_getElem (hgot.apart.made _ _ _ hgot.found)⟩
  have hvalues : ∀ i ∈ addValues old new, (cb i.1 i.2).isSome = true := by
    intro i hi
    obtain ⟨hmem, hnone⟩ := List.mem_filter.mp hi
    exact hcb i hmem ((old.isNone_find i.1).mp hnone)
  have hmade := createItems_made (s.getType domain service) hvalues s.items
  refine ⟨_, _, _, ?_, hgot.changed hlb hmade polled⟩
  have hbalancer : (s.getOrCreate domain service).1.balancers[(s.getOrCreate domain service).2]? =
    some lb := hlb
  simp only [onServiceChange, hbalancer, hgot.items_eq]

/-- The load balancer, with the value that each service was last told of. -/
structure Watched (I T : Type) where
  sd : SDLoadBalance T
  last : String → String → Services I

namespace Watched

def init : Watched I T := ⟨SDLoadBalance.init, fun _ _ => ⟨[], List.nodup_nil⟩⟩

def told (last : String → String → Services I) : Change I T → String → String → Services I
  | .onServiceChange domain service _ new _ _ => fun d sv =>
      if domain = d ∧ service = sv then new else last d sv
  | .initConf _ | .checkInit _ _ _ | .count _ _ => last

def step (w : Watched I T) (c : Change I T) : Except StepFault (Watched I T) :=
  match w.sd.step c with
  | .ok sd => .ok ⟨sd, told w.last c⟩
  | .error fault => .error fault

/-- The old value is the one that was new before, and the streams can be created. -/
def Chained (w : Watched I T) : Change I T → Prop
  | .onServiceChange domain service old new cb _ =>
      old.pairs.Perm (w.last domain service).pairs ∧
        ∀ i ∈ new.pairs, i.1 ∉ old.keys → (cb i.1 i.2).isSome = true
  | .initConf _ | .checkInit _ _ _ | .count _ _ => True

def Held (w : Watched I T) (n : ℕ) : Prop := ∃ d sv id, w.sd.entry d sv id = some n

/-- A balancer has the keys of its service, and an item that no balancer has any more was
closed, once. -/
structure Follows (w : Watched I T) : Prop where
  keys : ∀ d sv id, (∃ n, w.sd.entry d sv id = some n) ↔ id ∈ (w.last d sv).keys
  held : ∀ n, w.Held n → w.sd.closed.count n = 0
  removed : ∀ n < w.sd.items.length, ¬ w.Held n → w.sd.closed.count n = 1

/-- What becomes of the item `n`: it changes when it is counted on and when it is asked for its
weight. -/
def Makes (sd : SDLoadBalance T) (n : ℕ) (x x' : LoadBalanceItem T) : Change I T → Prop
  | .onServiceChange domain service _ _ _ polled | .checkInit domain service polled =>
      sd.Polls domain service polled n x x'
  | .initConf _ => x' = x
  | .count m call => x' = if n = m then { x with m_stats := x.m_stats.call call } else x

/-- The item under a key that stays is the same object, and a key that comes gets a new one. -/
structure Keeps (w : Watched I T) (c : Change I T) (w' : Watched I T) : Prop where
  stays : ∀ d sv id, id ∈ (w.last d sv).keys → id ∈ (w'.last d sv).keys →
    w'.sd.entry d sv id = w.sd.entry d sv id
  fresh : ∀ d sv id n, id ∉ (w.last d sv).keys → w'.sd.entry d sv id = some n →
    w.sd.items.length ≤ n
  objects : ∀ n x, look w.sd.items n = some x →
    ∃ x', look w'.sd.items n = some x' ∧ Makes w'.sd n x x' c

structure Inv (w : Watched I T) : Prop extends Follows w where
  apart : Apart w.sd
  known : ∀ d sv id n, w.sd.entry d sv id = some n → n < w.sd.items.length
  inj : ∀ d sv id d' sv' id' n, w.sd.entry d sv id = some n → w.sd.entry d' sv' id' = some n →
    d = d' ∧ sv = sv' ∧ id = id'
  streams : ∀ x ∈ w.sd.items, x.m_stream.isSome = true
  record : ∀ n ∈ w.sd.closed, n < w.sd.items.length

theorem Inv.init : Inv (init : Watched I T) := by
  have hnone : ∀ d sv id, (Watched.init : Watched I T).sd.entry d sv id = none := fun _ _ _ => rfl
  refine ⟨⟨?_, ?_, ?_⟩, ⟨?_, ?_⟩, ?_, ?_, ?_, ?_⟩
  · intro d sv id
    simp only [hnone, reduceCtorEq, exists_false, false_iff]
    exact List.not_mem_nil
  · rintro n ⟨d, sv, id, hn⟩
    cases hn
  · intro n hn
    cases hn
  · intro d sv b hb
    cases hb
  · intro d sv d' sv' b hb
    cases hb
  · intro d sv id n hn
    cases hn
  · intro d sv id d' sv' id' n hn
    cases hn
  · intro x hx
    cases hx
  · intro n hn
    cases hn

section Change

variable {w : Watched I T} {domain service : String} {old new : Services I}
  {polled : Polled} {sd : SDLoadBalance T} {items : List (LoadBalanceItem T)}
  {infos : List (UInt64 × ℕ)} (h : Inv w) (hold : old.pairs.Perm (w.last domain service).pairs)

include h hold

theorem mem_old {id : UInt64} {n : ℕ} (hid : w.sd.entry domain service id = some n) :
    id ∈ old.keys := by
  have hkey := (h.keys domain service id).mp ⟨n, hid⟩
  exact (hold.map Prod.fst).mem_iff.mpr hkey

theorem entry_of_mem_old {id : UInt64} (hid : id ∈ old.keys) :
    ∃ n, w.sd.entry domain service id = some n :=
  (h.keys domain service id).mpr ((hold.map Prod.fst).mem_iff.mp hid)

variable (hc : Changed w.sd sd domain service old new polled items infos)

include hc

/-- What is under a key after a change: a new item, or the item that was there. -/
theorem entry_iff (d sv : String) (id : UInt64) (n : ℕ) :
    sd.entry d sv id = some n ↔ (domain = d ∧ service = sv) ∧ Assoc.find infos id = some n ∨
      w.sd.entry d sv id = some n ∧ (domain = d ∧ service = sv → id ∈ new.keys) := by
  by_cases hds : domain = d ∧ service = sv
  · obtain ⟨rfl, rfl⟩ := hds
    rw [hc.entry_eq]
    cases hfind : Assoc.find infos id with
    | some m =>
      have hnot := ((hc.made.find_isSome id).mp ⟨m, hfind⟩).2
      have hnone : ∀ n, w.sd.entry domain service id ≠ some n := fun n hn =>
        hnot (mem_old h hold hn)
      simp [hnone]
    | none =>
      by_cases hid : id ∈ old.keys ∧ id ∉ new.keys
      · simp [hid]
      · rw [if_neg hid]
        simp only [Option.none_or, reduceCtorEq, and_false, false_or, and_self, forall_const]
        refine ⟨fun hn => ⟨hn, ?_⟩, And.left⟩
        by_contra hnot
        exact hid ⟨mem_old h hold hn, hnot⟩
  · rw [hc.other d sv id hds]
    simp [hds]

theorem keys_change (d sv : String) (id : UInt64) :
    (∃ n, sd.entry d sv id = some n) ↔
      id ∈ (if domain = d ∧ service = sv then new else w.last d sv).keys := by
  simp only [entry_iff h hold hc]
  by_cases hds : domain = d ∧ service = sv
  · rw [if_pos hds]
    obtain ⟨rfl, rfl⟩ := hds
    constructor
    · rintro ⟨n, ⟨-, hn⟩ | ⟨-, hnew⟩⟩
      · exact ((hc.made.find_isSome id).mp ⟨n, hn⟩).1
      · exact hnew ⟨rfl, rfl⟩
    · intro hid
      by_cases hin : id ∈ old.keys
      · obtain ⟨n, hn⟩ := entry_of_mem_old h hold hin
        exact ⟨n, .inr ⟨hn, fun _ => hid⟩⟩
      · obtain ⟨n, hn⟩ := (hc.made.find_isSome id).mpr ⟨hid, hin⟩
        exact ⟨n, .inl ⟨⟨rfl, rfl⟩, hn⟩⟩
  · rw [if_neg hds, ← h.keys]
    simp [hds]

theorem closed_change : ∃ gone : List ℕ, sd.closed = w.sd.closed ++ gone ∧ gone.Nodup ∧
    ∀ n, n ∈ gone ↔ ∃ id, w.sd.entry domain service id = some n ∧ id ∉ new.keys := by
  have hstream : ∀ n ∈ (old.keys.filter fun id => id ∉ new.keys).filterMap (w.sd.entry domain service),
      ((look sd.items n).bind LoadBalanceItem.m_stream).isSome = true := by
    intro n hn
    obtain ⟨id, -, hid⟩ := List.mem_filterMap.mp hn
    obtain ⟨x, hx⟩ : ∃ x, look w.sd.items n = some x :=
      ⟨_, List.getElem?_eq_getElem (h.known _ _ _ _ hid)⟩
    obtain ⟨x', hx', hpolls⟩ := hc.object hx
    rw [hx', Option.bind_some, hpolls.m_stream]
    exact h.streams x (List.mem_of_getElem? hx)
  refine ⟨(old.keys.filter fun id => id ∉ new.keys).filterMap (w.sd.entry domain service),
    ?_, ?_, ?_⟩
  · rw [hc.closed_eq, List.filter_eq_self.mpr hstream]
  · refine (old.nodup.filter _).filterMap ?_
    intro id id' n hid hid'
    exact (h.inj _ _ _ _ _ _ _ hid hid').2.2
  · intro n
    simp only [List.mem_filterMap, List.mem_filter, decide_eq_true_eq]
    constructor
    · rintro ⟨id, ⟨-, hnot⟩, hid⟩
      exact ⟨id, hid, hnot⟩
    · rintro ⟨id, hid, hnot⟩
      exact ⟨id, ⟨mem_old h hold hid, hnot⟩, hid⟩

theorem held_change {n : ℕ} (hn : ∃ d sv id, sd.entry d sv id = some n) :
    sd.closed.count n = 0 := by
  obtain ⟨d, sv, id, hn⟩ := hn
  obtain ⟨gone, hclosed, -, hgone⟩ := closed_change h hold hc
  rw [hclosed, List.count_append, Nat.add_eq_zero_iff, List.count_eq_zero, List.count_eq_zero, hgone]
  rcases (entry_iff h hold hc d sv id n).mp hn with ⟨-, hfind⟩ | ⟨hentry, hnew⟩
  · have hle := (hc.made.mem_range hfind).1
    refine ⟨fun hmem => ?_, ?_⟩
    · exact absurd (h.record n hmem) (Nat.not_lt.mpr hle)
    · rintro ⟨id', hid', -⟩
      exact absurd (h.known _ _ _ _ hid') (Nat.not_lt.mpr hle)
  · refine ⟨List.count_eq_zero.mp (h.held n ⟨d, sv, id, hentry⟩), ?_⟩
    rintro ⟨id', hid', hnot⟩
    obtain ⟨hd, hsv, rfl⟩ := h.inj _ _ _ _ _ _ _ hid' hentry
    exact hnot (hnew ⟨hd, hsv⟩)

theorem removed_change {n : ℕ} (hlt : n < sd.items.length)
    (hn : ¬ ∃ d sv id, sd.entry d sv id = some n) : sd.closed.count n = 1 := by
  obtain ⟨gone, hclosed, hnodup, hgone⟩ := closed_change h hold hc
  have hnot : ∀ d sv id, sd.entry d sv id ≠ some n := fun d sv id hid => hn ⟨d, sv, id, hid⟩
  have hlt' : n < w.sd.items.length := by
    by_contra hle
    obtain ⟨id, hid⟩ := hc.made.exists_find (Nat.not_lt.mp hle) (hc.polls.length_eq ▸ hlt)
    exact hnot domain service id ((entry_iff h hold hc _ _ _ _).mpr (.inl ⟨⟨rfl, rfl⟩, hid⟩))
  rw [hclosed, List.count_append]
  by_cases hheld : w.Held n
  · -- it leaves with this change
    obtain ⟨d, sv, id, hid⟩ := hheld
    have hgoes : (domain = d ∧ service = sv) ∧ id ∉ new.keys := by
      by_contra hstay
      refine hnot d sv id ((entry_iff h hold hc _ _ _ _).mpr (.inr ⟨hid, fun hds => ?_⟩))
      by_contra hnew
      exact hstay ⟨hds, hnew⟩
    obtain ⟨⟨rfl, rfl⟩, hnew⟩ := hgoes
    rw [h.held n ⟨domain, service, id, hid⟩,
      List.count_eq_one_of_mem hnodup ((hgone n).mpr ⟨id, hid, hnew⟩)]
  · have hnone : n ∉ gone := by
      rw [hgone]
      rintro ⟨id, hid, -⟩
      exact hheld ⟨domain, service, id, hid⟩
    rw [h.removed n hlt' hheld, List.count_eq_zero.mpr hnone]

theorem Inv.change : Inv (⟨sd, fun d sv => if domain = d ∧ service = sv then new else w.last d sv⟩ :
    Watched I T) := by
  have hiff := entry_iff h hold hc
  have hlen := hc.length_le
  refine ⟨⟨keys_change h hold hc, fun n hn => held_change h hold hc hn,
    fun n hlt hn => removed_change h hold hc hlt hn⟩, hc.apart, ?_, ?_, hc.streams h.streams, ?_⟩
  · intro d sv id n hn
    rcases (hiff d sv id n).mp hn with ⟨-, hfind⟩ | ⟨hentry, -⟩
    · exact hc.polls.length_eq ▸ (hc.made.mem_range hfind).2
    · exact (h.known d sv id n hentry).trans_le hlen
  · intro d sv id d' sv' id' n hn hn'
    have hold_lt : ∀ {d sv id}, w.sd.entry d sv id = some n → n < w.sd.items.length :=
      fun hentry => h.known _ _ _ _ hentry
    rcases (hiff d sv id n).mp hn with ⟨⟨rfl, rfl⟩, hfind⟩ | ⟨hentry, -⟩
    · rcases (hiff d' sv' id' n).mp hn' with ⟨⟨rfl, rfl⟩, hfind'⟩ | ⟨hentry', -⟩
      · exact ⟨rfl, rfl, hc.made.find_inj hfind hfind'⟩
      · exact absurd (hold_lt hentry') (Nat.not_lt.mpr (hc.made.mem_range hfind).1)
    · rcases (hiff d' sv' id' n).mp hn' with ⟨-, hfind'⟩ | ⟨hentry', -⟩
      · exact absurd (hold_lt hentry) (Nat.not_lt.mpr (hc.made.mem_range hfind').1)
      · exact h.inj _ _ _ _ _ _ _ hentry hentry'
  · intro n hn
    obtain ⟨gone, hclosed, -, hgone⟩ := closed_change h hold hc
    change n ∈ sd.closed at hn
    rw [hclosed, List.mem_append] at hn
    rcases hn with hn | hn
    · exact (h.record n hn).trans_le hlen
    · obtain ⟨id, hid, -⟩ := (hgone n).mp hn
      exact (h.known _ _ _ _ hid).trans_le hlen

theorem Keeps.change (cb : UInt64 → I → Option T) :
    Keeps w (.onServiceChange domain service old new cb polled)
      ⟨sd, fun d sv => if domain = d ∧ service = sv then new else w.last d sv⟩ := by
  have hiff := entry_iff h hold hc
  refine ⟨?_, ?_, fun n x hx => hc.object hx⟩
  · intro d sv id hid hid'
    obtain ⟨n, hn⟩ := (h.keys d sv id).mpr hid
    rw [hn]
    refine (hiff d sv id n).mpr (.inr ⟨hn, fun hds => ?_⟩)
    simpa only [if_pos hds] using hid'
  · intro d sv id n hid hn
    rcases (hiff d sv id n).mp hn with ⟨-, hfind⟩ | ⟨hentry, -⟩
    · exact (hc.made.mem_range hfind).1
    · exact absurd ((h.keys d sv id).mp ⟨n, hentry⟩) hid

end Change

def SameStream (_ : ℕ) (x x' : LoadBalanceItem T) : Prop := x'.m_stream = x.m_stream

theorem SameStream.refl (n : ℕ) (x : LoadBalanceItem T) : SameStream n x x := rfl

/-- The keys stay, and with them the objects that are under them. -/
structure Same (s s' : SDLoadBalance T) : Prop where
  apart : Apart s'
  entry_eq : ∀ d sv id, s'.entry d sv id = s.entry d sv id
  closed_eq : s'.closed = s.closed
  items : Changes SameStream s.items s'.items

theorem Inv.same {w : Watched I T} {sd : SDLoadBalance T} (h : Inv w) (hs : Same w.sd sd) :
    Inv (⟨sd, w.last⟩ : Watched I T) := by
  have hlen := hs.items.length_eq
  refine ⟨⟨?_, ?_, ?_⟩, hs.apart, ?_, ?_, ?_, ?_⟩
  · simpa only [hs.entry_eq] using h.keys
  · simpa only [Held, hs.entry_eq, hs.closed_eq] using h.held
  · simpa only [Held, hs.entry_eq, hs.closed_eq, hlen] using h.removed
  · simpa only [hs.entry_eq, hlen] using h.known
  · simpa only [hs.entry_eq] using h.inj
  · intro x' hx'
    obtain ⟨n, hn⟩ := List.mem_iff_getElem?.mp hx'
    obtain ⟨x, hx, hstream⟩ := hs.items.old hn
    rw [hstream]
    exact h.streams x (List.mem_of_getElem? hx)
  · simpa only [hs.closed_eq, hlen] using h.record

theorem Keeps.same {w : Watched I T} {sd : SDLoadBalance T} {c : Change I T} (h : Inv w)
    (hs : Same w.sd sd) (hobjects : ∀ n x, look w.sd.items n = some x →
      ∃ x', look sd.items n = some x' ∧ Makes sd n x x' c) : Keeps w c ⟨sd, w.last⟩ where
  stays d sv id _ _ := hs.entry_eq d sv id
  fresh d sv id n hid hn := absurd ((h.keys d sv id).mp ⟨n, hs.entry_eq d sv id ▸ hn⟩) hid
  objects := hobjects

theorem checkInit_same {s : SDLoadBalance T} (h : Apart s) (domain service : String) (polled : Polled) :
    Same s (s.checkInit domain service polled) ∧
      Changes ((s.checkInit domain service polled).Polls domain service polled) s.items
        (s.checkInit domain service polled).items := by
  unfold checkInit
  split
  · next hnone =>
    refine ⟨⟨h, fun _ _ _ => rfl, rfl, .refl SameStream.refl _⟩, .refl (fun n x => ?_) _⟩
    simp [Polls, asks, hnone]
  · next b hb =>
    obtain ⟨lb, hlb⟩ : ∃ lb, look s.balancers b = some lb :=
      ⟨_, List.getElem?_eq_getElem (h.made _ _ _ hb)⟩
    rw [show s.balancers[b]? = some lb from hlb]
    have hpolls : Changes (SDLoadBalance.Polls
        { s with
          balancers := s.balancers.set b (lb.initNolock s.items polled).1
          items := (lb.initNolock s.items polled).2 } domain service polled)
        s.items (lb.initNolock s.items polled).2 := by
      refine (LoadBalance.initNolock_changes lb s.items polled).mono fun n x x' hx => hx.trans ?_
      unfold asks
      rw [hb, Option.bind_some, look_set hlb, Function.update_self]
      rfl
    refine ⟨⟨⟨fun d sv c hc => ?_, h.inj⟩, fun d sv id => ?_, rfl, ?_⟩, hpolls⟩
    · show c < (s.balancers.set b _).length
      rw [List.length_set]
      exact h.made d sv c hc
    · refine (entry_set h (lb.initNolock s.items polled).1 hb _ s.closed d sv id).trans ?_
      split
      · next hds =>
        obtain ⟨rfl, rfl⟩ := hds
        exact (entry_some hb hlb id).symm
      · rfl
    · exact hpolls.mono fun n x x' hx => hx.m_stream

/-- A change that keeps to the chain is made, and keeps everything in order. -/
theorem step_inv {w : Watched I T} {c : Change I T} (h : Inv w) (hc : Chained w c) :
    ∃ w', step w c = .ok w' ∧ Inv w' ∧ Keeps w c w' := by
  cases c with
  | onServiceChange domain service old new cb polled =>
    obtain ⟨sd, items, infos, hsd, hchanged⟩ :=
      onServiceChange_changed h.apart domain service polled hc.2
    refine ⟨_, ?_, .change h hc.1 hchanged, .change h hc.1 hchanged cb⟩
    show (match w.sd.onServiceChange domain service old new cb polled with
      | .ok sd => _ | .error fault => _) = _
    rw [hsd]
    rfl
  | initConf confs =>
    have hs : Same w.sd (w.sd.initConf confs) :=
      ⟨⟨h.apart.made, h.apart.inj⟩, fun _ _ _ => rfl, rfl, .refl SameStream.refl _⟩
    exact ⟨_, rfl, h.same hs, .same h hs fun _ x hx => ⟨x, hx, rfl⟩⟩
  | checkInit domain service polled =>
    obtain ⟨hs, hpolls⟩ := checkInit_same h.apart domain service polled
    exact ⟨_, rfl, h.same hs, .same h hs fun _ _ hx => hpolls.new hx⟩
  | count n call =>
    have hmakes : Changes (fun m x x' => x' =
        if m = n then { x with m_stats := x.m_stats.call call } else x) w.sd.items
        (w.sd.count n call).items := by
      refine .of_map fun m => ?_
      show look (w.sd.items.modify n _) m = _
      rw [look_modify]
      by_cases hm : n = m
      · simp [hm]
      · simp [hm, Ne.symm hm]
    have hs : Same w.sd (w.sd.count n call) := by
      refine ⟨⟨h.apart.made, h.apart.inj⟩, fun _ _ _ => rfl, rfl, hmakes.mono fun m x x' hx => ?_⟩
      rw [hx]
      split <;> rfl
    exact ⟨_, rfl, h.same hs, .same h hs fun _ _ hx => hmakes.new hx⟩

/-- Every balancer follows what its service is told, whatever the other services are told. -/
theorem service_changes_followed (cs : List (Change I T)) (hcs : Tries step Chained init cs) :
    (∃ w, cs.foldlM step init = .ok w) ∧ Along step Follows init cs ∧
      Each step (fun w c => ∀ w', step w c = .ok w' → Keeps w c w') init cs := by
  obtain ⟨hrun, halong, heach⟩ := Tries.run Inv Chained
    (fun w c => ∀ w', step w c = .ok w' → Keeps w c w') (fun w c h hc => by
      obtain ⟨w', hw', hinv, hkeeps⟩ := step_inv h hc
      refine ⟨w', hw', hinv, fun w'' hw'' => ?_⟩
      cases hw'.symm.trans hw''
      exact hkeeps) cs init .init hcs
  exact ⟨hrun, halong.mono fun _ h => h.toFollows, heach⟩

instance [DecidableEq I] (w : Watched I T) : ∀ c : Change I T, Decidable (Chained w c)
  | .onServiceChange domain service old new cb _ =>
      inferInstanceAs (Decidable (old.pairs.Perm (w.last domain service).pairs ∧
        ∀ i ∈ new.pairs, i.1 ∉ old.keys → (cb i.1 i.2).isSome = true))
  | .initConf _ | .checkInit _ _ _ | .count _ _ => .isTrue trivial

/-- Every stream is connected, and the clock stands at `now`. -/
def connected (now : UInt32) : Polled := ⟨fun _ => true, fun _ => now⟩

def comesBack : List (Change Unit ℕ) :=
  [.onServiceChange "d" "s" ⟨[], by decide⟩ ⟨[(1, ()), (2, ())], by decide⟩ (fun id _ => some id.toNat)
      (connected 10),
    .onServiceChange "d" "s" ⟨[(2, ()), (1, ())], by decide⟩ ⟨[(2, ())], by decide⟩ (fun _ _ => none)
      (connected 11),
    .onServiceChange "d" "s" ⟨[(2, ())], by decide⟩ ⟨[(1, ()), (2, ())], by decide⟩
      (fun id _ => some id.toNat) (connected 12)]

theorem service_changes_followed_back :
    (∃ w, comesBack.foldlM step init = .ok w) ∧ Along step Follows init comesBack ∧
      Each step (fun w c => ∀ w', step w c = .ok w' → Keeps w c w') init comesBack :=
  service_changes_followed comesBack (by decide)

/-- A request is counted at second 10, and at second 20 another item comes. -/
def askedLater : List (Change Unit ℕ) :=
  [.onServiceChange "d" "s" ⟨[], by decide⟩ ⟨[(1, ())], by decide⟩ (fun id _ => some id.toNat)
      (connected 10),
    .count 0 ⟨10, [.incTotal 1]⟩,
    .onServiceChange "d" "s" ⟨[(1, ())], by decide⟩ ⟨[(1, ()), (2, ())], by decide⟩
      (fun id _ => some id.toNat) (connected 20)]

/-- The item that stays is asked for its weight, and what was counted is cleared. -/
theorem weight_query_clears :
    ¬ ∀ cs : List (Change Unit ℕ), Tries step Chained init cs →
      Each step (fun w c => ∀ w', step w c = .ok w' →
        ∀ domain service old new cb polled, c = .onServiceChange domain service old new cb polled →
          ∀ id ∈ old.keys, id ∈ new.keys → ∀ n x, w.sd.entry domain service id = some n →
            look w.sd.items n = some x →
              ∃ x', look w'.sd.items n = some x' ∧ x'.m_stats.m_stats = x.m_stats.m_stats) init cs := by
  intro hall
  have hlast := (((hall askedLater (by decide)) _ rfl).2 _ rfl).2 _ rfl
  obtain ⟨x', hx', hsame⟩ := hlast.1 _ rfl _ _ _ _ _ _ rfl 1 (by decide) (by decide) 0 _ rfl rfl
  cases hx'
  revert hsame
  decide

end Watched

end SDLoadBalance

end Sylar
