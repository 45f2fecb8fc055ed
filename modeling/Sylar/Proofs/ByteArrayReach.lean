import Sylar.Lib.Partial
import Sylar.Proofs.SocketStream

/-! The states that a `ByteArray` comes into, by its own operations and by buffers of it that are
filled. The invariant holds in all of them, and any bytes can be in the nodes. -/

namespace Sylar

open Lib

namespace ByteArray

inductive Reachable : ByteArray → Prop
  | new (heap : ℕ → ℕ → UInt8) {base_size : ℕ} (h : 1 ≤ base_size) : Reachable (new heap base_size)
  | step {ba : ByteArray} (h : Reachable ba) (o : Op) : Reachable (ba.step o).2
  | setIsLittleEndian {ba : ByteArray} (h : Reachable ba) (val : Bool) :
      Reachable (ba.setIsLittleEndian val)
  | fill {ba ba' : ByteArray} {len : ℕ} {iovs : List Iovec} (h : Reachable ba)
      (hget : ba.getWriteBuffers len = .ok (ba', iovs)) (data : List UInt8)
      (hdata : data.length ≤ len) : Reachable { ba' with chain := scatter ba'.chain iovs data }

theorem Reachable.run {ba : ByteArray} (h : Reachable ba) (ops : List Op) :
    Reachable (machine.run ba ops).2 := by
  induction ops generalizing ba with
  | nil => exact h
  | cons o ops ih => exact ih (h.step o)

theorem Rep.nodeAt_cur {ba : ByteArray} (h : Rep ba) :
    ba.m_cur = nodeAt ba.chain (ba.m_position / ba.m_baseSize) := by
  have hposition := h.position_le.trans h.size_le
  rw [nodeAt_div ba.chain h.base (by rw [← h.capacity]; exact hposition), ← h.capacity, h.cur]

theorem setPosition_rep {ba ba' : ByteArray} (h : Rep ba) {v : ℕ} (hset : ba.setPosition v = .ok ba') :
    Rep ba' := by
  have hv : v ≤ ba.m_capacity := by
    by_contra hgt
    unfold setPosition at hset
    rw [if_pos (Nat.not_le.mp hgt)] at hset
    cases hset
  by_cases hsize : v ≤ ba.getSize
  · obtain ⟨ba₁, hset₁, hrep, -⟩ := setPosition_spec h hsize
    rw [← Except.ok.inj (hset₁.symm.trans hset)]
    exact hrep
  · obtain ⟨ba₁, hset₁, hrep, -⟩ := setPosition_extends h (Nat.le_of_not_le hsize) hv
    rw [← Except.ok.inj (hset₁.symm.trans hset)]
    exact hrep

theorem read_rep {ba ba' : ByteArray} (h : Rep ba) {n : ℕ} {bytes : List UInt8}
    (hread : ba.read n = .ok (bytes, ba')) : Rep ba' := by
  have hn : n ≤ ba.getReadSize := by
    by_contra hgt
    unfold read at hread
    rw [if_pos (Nat.not_le.mp hgt)] at hread
    cases hread
  have hlt : ba.m_position < ba.m_capacity := by
    by_contra hge
    have hposition := h.position_le.trans h.size_le
    have hcur := h.cur
    rw [if_pos (by omega)] at hcur
    unfold read at hread
    rw [if_neg (Nat.not_lt.mpr hn), hcur] at hread
    cases hread
  obtain ⟨ba₁, hread₁, hrep, -⟩ := read_within h hlt hn
  rw [← (Prod.mk.inj (Except.ok.inj (hread₁.symm.trans hread))).2]
  exact hrep

theorem read_inv {ba ba' : ByteArray} {n : ℕ} {bytes : List UInt8}
    (hread : ba.read n = .ok (bytes, ba')) :
    ba'.m_position = ba.m_position + n ∧ ba'.m_size = ba.m_size ∧ ba'.m_capacity = ba.m_capacity ∧
      ba'.chain = ba.chain := by
  unfold read at hread
  split_ifs at hread
  cases hcur : ba.m_cur with
  | none =>
    rw [hcur] at hread
    cases hread
  | some cur =>
    rw [hcur] at hread
    obtain ⟨r, -, hpair⟩ := ok_of_bind hread
    cases hpair
    exact ⟨rfl, rfl, rfl, rfl⟩

theorem step_rep {ba : ByteArray} (h : Rep ba) (o : Op) : Rep (ba.step o).2 := by
  cases o with
  | write buf =>
    obtain ⟨ba', hwrite, hrep, -⟩ := write_spec h buf
    simp only [step, hwrite]
    exact hrep
  | read n =>
    cases hread : ba.read n with
    | error fault => simpa only [step, hread] using h
    | ok r => simpa only [step, hread] using read_rep h hread
  | setPosition v =>
    cases hset : ba.setPosition v with
    | error fault => simpa only [step, hset] using h
    | ok ba' => simpa only [step, hset] using setPosition_rep h hset
  | clear => exact (clear_rep h).1

theorem getWriteBuffers_ok {ba ba' : ByteArray} {len : ℕ} {iovs : List Iovec}
    (hget : ba.getWriteBuffers len = .ok (ba', iovs)) :
    len = 0 ∧ ba' = ba ∧ iovs = [] ∨
      1 ≤ len ∧ ba' = ba.addCapacity len ∧ ba'.buffersFrom len = .ok iovs := by
  unfold getWriteBuffers at hget
  split_ifs at hget with h0
  · cases hget
    exact .inl ⟨h0, rfl, rfl⟩
  · obtain ⟨iovs', hiovs, hpair⟩ := ok_of_bind hget
    cases hpair
    exact .inr ⟨by omega, rfl, hiovs⟩

theorem reachable_rep {ba : ByteArray} (h : Reachable ba) : Rep ba := by
  induction h with
  | new heap h => exact (new_rep heap h).1
  | step h o ih => exact step_rep ih o
  | setIsLittleEndian h val ih => exact ih.setIsLittleEndian val
  | @fill ba ba' len iovs h hget data hdata ih =>
    rcases getWriteBuffers_ok hget with ⟨-, rfl, rfl⟩ | ⟨hlen, rfl, hiovs⟩
    · exact ih
    · obtain ⟨hrep, -, hposition, -, -, hroom⟩ := addCapacity_rep ih len
      obtain ⟨iovs', hiovs', -, hfill⟩ := scatter_rep hrep hlen (by omega)
      obtain rfl := Except.ok.inj (hiovs'.symm.trans hiovs)
      exact (hfill data hdata).1

theorem uniform_ext {b : ℕ} : ∀ {c c' : List Node}, Uniform b c → Uniform b c' →
    c.length = c'.length → bytesOf c = bytesOf c' → c = c' := by
  intro c
  induction c with
  | nil =>
    intro c' _ _ hlength _
    exact (List.length_eq_zero_iff.mp hlength.symm).symm
  | cons node rest ih =>
    intro c' h h' hlength hbytes
    cases c' with
    | nil => simp at hlength
    | cons node' rest' =>
      obtain ⟨hsize, hptr⟩ := h node (by simp)
      obtain ⟨hsize', hptr'⟩ := h' node' (by simp)
      rw [bytesOf_cons, bytesOf_cons] at hbytes
      obtain ⟨hnode, hrest⟩ := List.append_inj hbytes (hptr.trans hptr'.symm)
      have hrest' : rest = rest' := ih (fun n hn => h n (by simp [hn]))
        (fun n hn => h' n (by simp [hn])) (by simpa using hlength) hrest
      obtain ⟨ptr, size⟩ := node
      obtain ⟨ptr', size'⟩ := node'
      dsimp only at hsize hsize' hnode
      rw [hsize, hsize', hnode, hrest']

theorem addCapacity_enough {ba : ByteArray} {size : ℕ} (h : size ≤ ba.getCapacity) :
    ba.addCapacity size = ba := by
  unfold addCapacity
  by_cases h0 : size = 0
  · rw [if_pos h0]
  · rw [if_neg h0]
    exact if_pos h

theorem Reachable.withChain {ba : ByteArray} (h : Reachable ba) {chain : List Node}
    (huniform : Uniform ba.m_baseSize chain) (hlength : chain.length = ba.chain.length) :
    Reachable { ba with chain := chain } := by
  have hrep := reachable_rep h
  have hroot := List.length_pos_iff.mpr hrep.root
  have hcap : 1 ≤ ba.m_capacity := by
    rw [hrep.capacity]
    exact Nat.mul_pos hrep.base hroot
  have hposition := hrep.position_le.trans hrep.size_le
  -- the position is set to the root, the whole of the chain is filled, and it is set back
  have hrewind := hrep.setPosition_eq (Nat.zero_le _)
  rw [if_neg (Nat.not_lt_zero _)] at hrewind
  have h₁ := h.step (.setPosition 0)
  simp only [ByteArray.step, hrewind] at h₁
  have hrep₁ := reachable_rep h₁
  generalize hba₁ : ({ ba with
    m_position := 0
    m_cur := nodeAt ba.chain (0 / ba.m_baseSize) } : ByteArray) = ba₁ at h₁ hrep₁
  obtain ⟨iovs, hiovs, -, hfill⟩ := scatter_rep hrep₁ hcap (by rw [← hba₁]; dsimp only; omega)
  have hget : ba₁.getWriteBuffers ba.m_capacity = .ok (ba₁, iovs) := by
    unfold getWriteBuffers
    rw [if_neg (by omega), addCapacity_enough (by rw [← hba₁]; exact le_rfl), hiovs]
    rfl
  have hdata : (bytesOf chain).length = ba.m_capacity := by
    rw [huniform.length_bytesOf, hlength, hrep.capacity]
  obtain ⟨-, hnodes, hcount, hbytes⟩ := hfill (bytesOf chain) hdata.le
  have hall : (bytesOf ba.chain).length = ba.m_capacity := by
    rw [hrep.nodes.length_bytesOf, hrep.capacity]
  have hchain : scatter ba₁.chain iovs (bytesOf chain) = chain := by
    rw [← hba₁] at hnodes hcount hbytes ⊢
    refine uniform_ext hnodes huniform (hcount.trans hlength.symm) (hbytes.trans ?_)
    simp [overwrite, hdata, hall]
  have h₂ := h₁.fill hget (bytesOf chain) hdata.le
  rw [hchain] at h₂
  have hback := (reachable_rep h₂).setPosition_eq (v := ba.m_position)
    (by rw [← hba₁]; exact hposition)
  have h₃ := h₂.step (.setPosition ba.m_position)
  simp only [ByteArray.step, hback] at h₃
  have hsame : nodeAt chain (ba.m_position / ba.m_baseSize) = ba.m_cur := by
    rw [hrep.nodeAt_cur, nodeAt, nodeAt, hlength]
  rw [← hba₁] at h₃
  dsimp only at h₃
  rw [if_neg (Nat.not_lt.mpr hrep.position_le), hsame] at h₃
  exact h₃

/-- What a state is besides the bytes in it. -/
structure SameShape (ba ba' : ByteArray) : Prop where
  baseSize : ba'.m_baseSize = ba.m_baseSize
  position : ba'.m_position = ba.m_position
  size : ba'.m_size = ba.m_size
  capacity : ba'.m_capacity = ba.m_capacity

theorem bytesOf_ofBlock (b : ℕ) (byte : ℕ → UInt8) (k : ℕ) :
    bytesOf ((List.range k).map fun j => Node.ofBlock b fun i => byte (b * j + i)) =
      (List.range (b * k)).map byte := by
  induction k with
  | zero => simp [bytesOf]
  | succ k ih =>
    rw [List.range_succ, List.map_append, bytesOf_append, ih, Nat.mul_succ, List.range_add]
    simp [bytesOf, Node.ofBlock]

theorem Reachable.withBytes {ba : ByteArray} (h : Reachable ba) (byte : ℕ → UInt8) :
    ∃ ba', Reachable ba' ∧ SameShape ba ba' ∧
      bytesOf ba'.chain = (List.range ba.m_capacity).map byte := by
  have hrep := reachable_rep h
  have huniform : Uniform ba.m_baseSize ((List.range ba.chain.length).map fun j =>
      Node.ofBlock ba.m_baseSize fun i => byte (ba.m_baseSize * j + i)) := by
    intro n hn
    obtain ⟨j, -, rfl⟩ := List.mem_map.mp hn
    exact uniform_ofBlock _ _
  refine ⟨_, h.withChain huniform (by simp), ⟨rfl, rfl, rfl, rfl⟩, ?_⟩
  rw [hrep.capacity]
  exact bytesOf_ofBlock _ _ _

end ByteArray

end Sylar
