import Sylar.Lib.Shares
import Sylar.Spec.WeightLoadBalance

/-! Positive weights share the numbers out among the items, and a `get` finds a valid item where
there is one. With other weights the index is in range as long as they do not add up to zero. -/

namespace Sylar

open Lib

variable {P : Type}

/-- A valid item where there is one, and nothing otherwise. -/
def GivesValid (s : Seen P) (items : List P) (o : Option P) : Prop :=
  (∀ item, o = some item → item ∈ items ∧ s.isValid item = true) ∧
    (o = none ↔ ∀ item ∈ items, s.isValid item = false)

theorem givesValid_probe (s : Seen P) (items : List P) (r : ℕ) :
    ∃ o, probe Fault.outOfBounds items s.isValid (around items.length r) = .ok o ∧
      GivesValid s items o := probe_around r

theorem RoundRobinLoadBalance.get_spec (lb : RoundRobinLoadBalance P) (s : Seen P) (v : UInt64) :
    ∃ o, lb.get s v = .ok (o, lb.checkInit s) ∧ GivesValid s (lb.checkInit s).m_items o := by
  unfold get
  dsimp only
  split
  · next hnil =>
    rw [hnil]
    exact ⟨none, rfl, nofun, by simp⟩
  · obtain ⟨o, ho, hgives⟩ := givesValid_probe s (lb.checkInit s).m_items _
    rw [ho]
    exact ⟨o, rfl, hgives⟩

namespace WeightLoadBalance

def weights (s : Seen P) (items : List P) : List ℤ := items.map fun item => (s.getWeight item).toInt

theorem addWeights_eq (s : Seen P) (t : ℤ) (items : List P) :
    addWeights s.getWeight (Int64.ofInt t) items =
      (partialSums t (weights s items)).map Int64.ofInt := by
  induction items generalizing t with
  | nil => rfl
  | cons item items ih =>
    have hsum : Int64.ofInt t + (s.getWeight item).toInt64 =
        Int64.ofInt (t + (s.getWeight item).toInt) := by
      rw [Int64.ofInt_add, ← Int32.toInt_toInt64, Int64.ofInt_toInt]
    rw [addWeights, hsum, ih]
    rfl

theorem toNat_ofInt (t : ℤ) : (Int64.ofInt t).toUInt64.toNat = (t % 2 ^ 64).toNat :=
  BitVec.toNat_ofInt t

theorem toNat_ofInt_of_nonneg {t : ℤ} (h : 0 ≤ t) (hlt : t < 2 ^ 31) :
    (Int64.ofInt t).toUInt64.toNat = t.toNat := by
  rw [toNat_ofInt, Int.emod_eq_of_lt h (by omega)]

theorem toUInt64_eq_zero {t : ℤ} (hlow : -2 ^ 62 ≤ t) (hhigh : t ≤ 2 ^ 62) :
    (Int64.ofInt t).toUInt64 = 0 ↔ t = 0 := by
  rw [← UInt64.toNat_inj, toNat_ofInt]
  change _ = 0 ↔ _
  omega

/-- `m_weights` are the sums of the weights `ws`, one for each item. -/
structure Inited (lb : WeightLoadBalance P) (ws : List ℤ) : Prop where
  length_eq : ws.length = lb.m_items.length
  weights_eq : lb.m_weights = (partialSums 0 ws).map Int64.ofInt

theorem inited_initNolock (lb : WeightLoadBalance P) (s : Seen P) :
    Inited (lb.initNolock s) (weights s (lb.m_datas.filter s.isValid)) where
  length_eq := List.length_map _
  weights_eq := addWeights_eq s 0 _

namespace Inited

variable {lb : WeightLoadBalance P} {ws : List ℤ} (h : Inited lb ws)

include h

theorem length_weights : lb.m_weights.length = ws.length := by
  rw [h.weights_eq, List.length_map, length_partialSums]

theorem getLast?_eq (hne : ws ≠ []) : lb.m_weights.getLast? = some (Int64.ofInt ws.sum) := by
  rw [h.weights_eq, List.getLast?_map, getLast?_partialSums 0 hne, zero_add]
  rfl

theorem getIdx_nil (s : Seen P) (v : UInt64) (hnil : ws = []) : lb.getIdx s v = .ok (-1) := by
  unfold getIdx
  rw [h.weights_eq, hnil]
  rfl

end Inited

/-- The number that `getIdx` draws, before the remainder. -/
def draw (s : Seen P) (v : UInt64) : UInt64 := if v = -1 then s.rand else v

/-- Any weights: the last sum is the total, so that it is always above the remainder. -/
theorem Inited.getIdx_safe {lb : WeightLoadBalance P} {ws : List ℤ} (h : Inited lb ws)
    (s : Seen P) (v : UInt64) (hne : ws ≠ []) (hsum : (Int64.ofInt ws.sum).toUInt64 ≠ 0) :
    ∃ it < ws.length, lb.getIdx s v = .ok (Int32.ofNat it) ∧
      it = upperBound (fun w => decide (draw s v % (Int64.ofInt ws.sum).toUInt64 < w.toUInt64))
        lb.m_weights := by
  have hlast := h.getLast?_eq hne
  have hlt : upperBound (fun w => decide (draw s v % (Int64.ofInt ws.sum).toUInt64 < w.toUInt64))
      lb.m_weights < lb.m_weights.length := by
    apply upperBound_lt hlast
    rw [decide_eq_true_eq, UInt64.lt_iff_toNat_lt, UInt64.toNat_mod]
    exact Nat.mod_lt _ (Nat.pos_of_ne_zero fun h0 => hsum (UInt64.toNat_inj.mp h0))
  refine ⟨_, h.length_weights ▸ hlt, ?_, rfl⟩
  unfold getIdx
  simp only [hlast]
  rw [if_neg hsum]
  exact if_neg (Nat.ne_of_lt hlt)

/-- Every weight is at least 1, and their sum is an `int32_t`. -/
structure Positive (ws : List ℤ) : Prop where
  pos : ∀ w ∈ ws, 0 < w
  sum_lt : ws.sum < 2 ^ 31

namespace Positive

variable {ws : List ℤ} (hp : Positive ws)

include hp

theorem length_le : (ws.length : ℤ) ≤ ws.sum := by
  have hle := List.card_nsmul_le_sum ws 1 fun w hw => hp.pos w hw
  simpa using hle

theorem sum_pos (hne : ws ≠ []) : 0 < ws.sum := by
  have hle := hp.length_le
  have hpos : 0 < ws.length := List.length_pos_of_ne_nil hne
  omega

theorem ofInt_sum_ne_zero (hne : ws ≠ []) : (Int64.ofInt ws.sum).toUInt64 ≠ 0 := by
  have hpos := hp.sum_pos hne
  have hlt := hp.sum_lt
  rw [ne_eq, toUInt64_eq_zero (by omega) (by omega)]
  omega

theorem upperBound_eq (d : UInt64) :
    upperBound (fun w => decide (d < w.toUInt64)) ((partialSums 0 ws).map Int64.ofInt) =
      (partialSums 0 ws).countP fun t => decide (t ≤ (d.toNat : ℤ)) := by
  have hlt := hp.sum_lt
  have hsame : ∀ t ∈ partialSums 0 ws,
      (!decide (d < (Int64.ofInt t).toUInt64)) = decide (t ≤ (d.toNat : ℤ)) := by
    intro t ht
    have hbounds := lt_of_mem_partialSums hp.pos ht
    rw [← decide_not, decide_eq_decide, UInt64.not_lt, UInt64.le_iff_toNat_le,
      toNat_ofInt_of_nonneg (by omega) (by omega)]
    omega
  unfold upperBound
  rw [lowerBound_eq_countP, List.countP_map]
  · exact List.countP_congr fun t ht => by rw [Function.comp_apply, hsame t ht]
  · rw [List.pairwise_map]
    refine (pairwise_partialSums 0 hp.pos).imp_of_mem fun {x y} hx hy hxy => ?_
    rw [hsame x hx, hsame y hy]
    simp only [decide_eq_true_eq]
    omega

end Positive

variable {lb : WeightLoadBalance P} {ws : List ℤ}

theorem ofNat_inj {i j : ℕ} (hi : i < 2 ^ 31) (hj : j < 2 ^ 31) :
    Int32.ofNat i = Int32.ofNat j ↔ i = j := by
  rw [← Int32.toInt_inj, Int32.toInt_ofNat_of_lt hi, Int32.toInt_ofNat_of_lt hj, Int.natCast_inj]

theorem Inited.getIdx_iff (h : Inited lb ws) (hp : Positive ws) (s : Seen P) (v : UInt64) {i : ℕ}
    (hi : i < ws.length) :
    lb.getIdx s v = .ok (Int32.ofNat i) ↔
      (ws.take i).sum ≤ ((draw s v).toNat : ℤ) % ws.sum ∧
        ((draw s v).toNat : ℤ) % ws.sum < (ws.take (i + 1)).sum := by
  have hne : ws ≠ [] := List.ne_nil_of_length_pos (by omega)
  have hlen := hp.length_le
  have hlt := hp.sum_lt
  have hpos := hp.sum_pos hne
  obtain ⟨it, hit, hidx, hbound⟩ := h.getIdx_safe s v hne (hp.ofInt_sum_ne_zero hne)
  have hdis : ((draw s v % (Int64.ofInt ws.sum).toUInt64).toNat : ℤ) =
      ((draw s v).toNat : ℤ) % ws.sum := by
    rw [UInt64.toNat_mod, toNat_ofInt_of_nonneg hpos.le hlt, Int.natCast_mod, Int.toNat_of_nonneg hpos.le]
  rw [h.weights_eq, hp.upperBound_eq, hdis] at hbound
  rw [hidx, Except.ok.injEq, ofNat_inj (by omega) (by omega), hbound]
  exact countP_partialSums_eq_iff hp.pos (Int.emod_nonneg _ hpos.ne') hi

/-- What `getIdx` gives when `ws` are the weights of the items. -/
structure SharesOut (lb : WeightLoadBalance P) (s : Seen P) (ws : List ℤ) : Prop where
  getIdx_eq : ∀ v, v ≠ -1 → ∀ i < ws.length,
    (lb.getIdx s v = .ok (Int32.ofNat i) ↔
      (ws.take i).sum ≤ (v.toNat : ℤ) % ws.sum ∧
        (v.toNat : ℤ) % ws.sum < (ws.take (i + 1)).sum)
  card_eq : ∀ v : ℕ, v + ws.sum < 2 ^ 64 → ∀ i w, ws[i]? = some w →
    (((Finset.Ico v (v + ws.sum.toNat)).filter fun x =>
      lb.getIdx s (UInt64.ofNat x) = .ok (Int32.ofNat i)).card : ℤ) = w

theorem Inited.sharesOut (h : Inited lb ws) (hp : Positive ws) (s : Seen P) :
    SharesOut lb s ws := by
  have hat : ∀ v, v ≠ -1 → ∀ i < ws.length,
      (lb.getIdx s v = .ok (Int32.ofNat i) ↔
        (ws.take i).sum ≤ (v.toNat : ℤ) % ws.sum ∧
          (v.toNat : ℤ) % ws.sum < (ws.take (i + 1)).sum) := by
    intro v hv i hi
    have hiff := h.getIdx_iff hp s v hi
    rwa [show draw s v = v from if_neg hv] at hiff
  refine ⟨hat, fun v hv i w hw => ?_⟩
  obtain ⟨hi, hwi⟩ := List.getElem?_eq_some_iff.mp hw
  have hpos := hp.sum_pos (List.ne_nil_of_length_pos (by omega))
  have hnonneg : ∀ n, 0 ≤ (ws.take n).sum := fun n =>
    List.sum_nonneg fun x hx => (hp.pos x (List.mem_of_mem_take hx)).le
  have hnext : (ws.take (i + 1)).sum = (ws.take i).sum + w := by
    rw [List.sum_take_succ ws i hi, hwi]
  have hle : (ws.take (i + 1)).sum ≤ ws.sum := by
    have hrest : 0 ≤ (ws.drop (i + 1)).sum :=
      List.sum_nonneg fun x hx => (hp.pos x (List.mem_of_mem_drop hx)).le
    have hsplit := List.sum_take_add_sum_drop ws (i + 1)
    omega
  have hsame : ∀ x ∈ Finset.Ico v (v + ws.sum.toNat),
      (lb.getIdx s (UInt64.ofNat x) = .ok (Int32.ofNat i) ↔
        (ws.take i).sum.toNat ≤ x % ws.sum.toNat ∧
          x % ws.sum.toNat < (ws.take (i + 1)).sum.toNat) := by
    intro x hx
    rw [Finset.mem_Ico] at hx
    have hx64 : (UInt64.ofNat x).toNat = x := UInt64.toNat_ofNat_of_lt (show x < 2 ^ 64 by omega)
    have hne : UInt64.ofNat x ≠ -1 := by
      rw [ne_eq, ← UInt64.toNat_inj, hx64, show (-1 : UInt64).toNat = 2 ^ 64 - 1 from rfl]
      omega
    have hmod : (x : ℤ) % ws.sum = ((x % ws.sum.toNat : ℕ) : ℤ) := by
      rw [Int.natCast_mod, Int.toNat_of_nonneg hpos.le]
    have hlow := hnonneg i
    have hhigh := hnonneg (i + 1)
    rw [hat _ hne i hi, hx64, hmod]
    omega
  have hlow := hnonneg i
  have hwpos := hp.pos w (List.mem_of_getElem? hw)
  rw [Finset.filter_congr hsame, card_share (by omega)]
  omega

theorem Inited.checkInit_inited (h : Inited lb ws) (hp : Positive ws) {s : Seen P}
    (hnow : Positive (weights s (lb.m_datas.filter s.isValid))) :
    ∃ ws', Positive ws' ∧ Inited (lb.checkInit s) ws' := by
  unfold checkInit
  split
  · exact ⟨_, hnow, (inited_initNolock lb s).length_eq, (inited_initNolock lb s).weights_eq⟩
  · exact ⟨ws, hp, h⟩

theorem Inited.get_spec (h : Inited lb ws) (hp : Positive ws) {s : Seen P} (v : UInt64)
    (hnow : Positive (weights s (lb.m_datas.filter s.isValid))) :
    ∃ o, lb.get s v = .ok (o, lb.checkInit s) ∧ GivesValid s (lb.checkInit s).m_items o := by
  obtain ⟨ws', hp', h'⟩ := h.checkInit_inited hp hnow
  unfold get
  dsimp only
  by_cases hne : ws' = []
  · have hitems : (lb.checkInit s).m_items = [] := by
      rw [← List.length_eq_zero_iff, ← h'.length_eq, hne]
      rfl
    rw [h'.getIdx_nil s v hne, hitems]
    exact ⟨none, rfl, nofun, by simp⟩
  · obtain ⟨it, hit, hidx, -⟩ := h'.getIdx_safe s v hne (hp'.ofInt_sum_ne_zero hne)
    have hlen := hp'.length_le
    have hlt := hp'.sum_lt
    have hitems := h'.length_eq
    have hint : (Int32.ofNat it).toInt = it := Int32.toInt_ofNat_of_lt (by omega)
    have hneg : Int32.ofNat it ≠ -1 := by
      rw [ne_eq, ← Int32.toInt_inj, hint, show (-1 : Int32).toInt = -1 from rfl]
      omega
    have hconv : (Int32.ofNat it).toInt64.toUInt64.toNat = it := by
      rw [← Int64.ofInt_toInt (Int32.ofNat it).toInt64, Int32.toInt_toInt64, hint,
        toNat_ofInt_of_nonneg (by omega) (by omega)]
      rfl
    obtain ⟨o, ho, hgives⟩ := givesValid_probe s (lb.checkInit s).m_items it
    refine ⟨o, ?_, hgives⟩
    rw [hidx]
    change (if Int32.ofNat it = -1 then _ else _) = _
    rw [if_neg hneg, hconv, aroundWrapping_eq (by omega), ho]
    rfl

/-- For every list of valid items with weights of at least 1, whichever of them are still valid
when one is asked for. The items of the round robin may be any. -/
theorem balances (lb : WeightLoadBalance P) (s₀ : Seen P)
    (hp : Positive (weights s₀ (lb.m_datas.filter s₀.isValid))) :
    (∀ s, SharesOut (lb.initNolock s₀) s (weights s₀ (lb.m_datas.filter s₀.isValid))) ∧
      (∀ s v, Positive (weights s (lb.m_datas.filter s.isValid)) →
        ∃ o, (lb.initNolock s₀).get s v = .ok (o, (lb.initNolock s₀).checkInit s) ∧
          GivesValid s ((lb.initNolock s₀).checkInit s).m_items o) ∧
      ∀ (rr : RoundRobinLoadBalance P) s v,
        ∃ o, rr.get s v = .ok (o, rr.checkInit s) ∧ GivesValid s (rr.checkInit s).m_items o := by
  have hinit := inited_initNolock lb s₀
  refine ⟨hinit.sharesOut hp, ?_, fun rr s v => rr.get_spec s v⟩
  intro s v hnow
  exact hinit.get_spec hp v hnow

/-- Items `0`, `1` and `2` with the weights 2, 1 and 3. -/
def three : WeightLoadBalance ℕ := ⟨[0, 1, 2], 0, [], []⟩

def sees (isValid : ℕ → Bool) : Seen ℕ :=
  ⟨0, isValid, fun n => if n = 0 then 2 else if n = 1 then 1 else 3, 7⟩

theorem balances_three :
    (three.initNolock (sees fun _ => true)).getIdx (sees fun _ => true) 8 = .ok (Int32.ofNat 1) ∧
      ∃ o, (three.initNolock (sees fun _ => true)).get (sees fun n => n == 0) 8 =
          .ok (o, (three.initNolock (sees fun _ => true)).checkInit (sees fun n => n == 0)) ∧
        GivesValid (sees fun n => n == 0)
          ((three.initNolock (sees fun _ => true)).checkInit (sees fun n => n == 0)).m_items o := by
  have hall : Positive (weights (sees fun _ => true) (three.m_datas.filter fun _ => true)) :=
    ⟨by decide, by decide⟩
  have hfirst : Positive (weights (sees fun n => n == 0) (three.m_datas.filter fun n => n == 0)) :=
    ⟨by decide, by decide⟩
  obtain ⟨hshares, hget, -⟩ := balances three (sees fun _ => true) hall
  exact ⟨((hshares _).getIdx_eq 8 (by decide) 1 (by decide)).mpr (by decide), hget _ 8 hfirst⟩

/-- No division by zero, no failed assertion, and an index of one of `n` items. -/
def IndexIn (n : ℕ) (r : Except Fault Int32) : Prop := ∃ i, r = .ok i ∧ 0 ≤ i.toInt ∧ i.toInt < n

theorem abs_sum_le {ws : List ℤ} (h : ∀ w ∈ ws, -2 ^ 31 ≤ w ∧ w ≤ 2 ^ 31) :
    -(ws.length * 2 ^ 31) ≤ ws.sum ∧ ws.sum ≤ ws.length * 2 ^ 31 := by
  induction ws with
  | nil => simp
  | cons w ws ih =>
    have hw := h w List.mem_cons_self
    have hws := ih fun x hx => h x (List.mem_cons_of_mem w hx)
    rw [List.sum_cons, List.length_cons]
    omega

/-- For every list that an `int32_t` can index, any weights and every number. -/
theorem getIdx_indexIn_iff (lb : WeightLoadBalance P) (s₀ s : Seen P) (v : UInt64)
    (hne : lb.m_datas.filter s₀.isValid ≠ [])
    (hlen : (lb.m_datas.filter s₀.isValid).length ≤ 2 ^ 31) :
    IndexIn (lb.m_datas.filter s₀.isValid).length ((lb.initNolock s₀).getIdx s v) ↔
      (weights s₀ (lb.m_datas.filter s₀.isValid)).sum ≠ 0 := by
  have hinit := inited_initNolock lb s₀
  set ws := weights s₀ (lb.m_datas.filter s₀.isValid) with hws
  have hlength : ws.length = (lb.m_datas.filter s₀.isValid).length := List.length_map _
  have hwne : ws ≠ [] := fun h => hne (List.map_eq_nil_iff.mp h)
  have hbounds : -(ws.length * 2 ^ 31 : ℤ) ≤ ws.sum ∧ ws.sum ≤ ws.length * 2 ^ 31 := by
    refine abs_sum_le fun w hw => ?_
    obtain ⟨item, -, rfl⟩ := List.mem_map.mp hw
    exact ⟨Int32.le_toInt _, (Int32.toInt_lt _).le⟩
  have hzero : (Int64.ofInt ws.sum).toUInt64 = 0 ↔ ws.sum = 0 :=
    toUInt64_eq_zero (by omega) (by omega)
  constructor
  · rintro ⟨i, hi, -⟩ hsum
    unfold getIdx at hi
    simp only [hinit.getLast?_eq hwne, hzero.mpr hsum, if_true, reduceCtorEq] at hi
  · intro hsum
    obtain ⟨it, hit, hidx, -⟩ := hinit.getIdx_safe s v hwne (hzero.not.mpr hsum)
    have hint : (Int32.ofNat it).toInt = it := Int32.toInt_ofNat_of_lt (by omega)
    exact ⟨_, hidx, by omega, by omega⟩

/-- A negative weight, and a total of which the numbers are too large to be an `int64_t`. -/
theorem getIdx_indexIn_negative :
    IndexIn 2 ((WeightLoadBalance.initNolock ⟨[3, -5], 0, [], []⟩
      ⟨0, fun _ => true, id, 0⟩).getIdx ⟨0, fun _ => true, id, 0⟩ 9) :=
  (getIdx_indexIn_iff ⟨[3, -5], 0, [], []⟩ ⟨0, fun _ => true, id, 0⟩ ⟨0, fun _ => true, id, 0⟩ 9
    (by decide) (by decide)).mpr (by decide)

/-- One item with the weight that it has by default. -/
theorem getIdx_default_weight : ¬ ∀ (lb : WeightLoadBalance ℕ) (s₀ s : Seen ℕ) (v : UInt64),
    lb.m_datas.filter s₀.isValid ≠ [] →
      IndexIn (lb.m_datas.filter s₀.isValid).length ((lb.initNolock s₀).getIdx s v) := by
  intro hall
  obtain ⟨i, hi, -⟩ := hall ⟨[0], 0, [], []⟩ ⟨0, fun _ => true, fun _ => 0, 0⟩
    ⟨0, fun _ => true, fun _ => 0, 0⟩ 1 (by decide)
  cases hi

end WeightLoadBalance

end Sylar
