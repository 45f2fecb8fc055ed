import Sylar.Proofs.ByteArrayRoundTrip
import Sylar.Spec.SocketStream

/-! A `ByteArray` that is written to a stream, or filled from it, a piece at a time. However the
system calls cut it up, what is written are the bytes that were unread, and what is read are
the bytes that were sent. -/

namespace Sylar

open Lib

namespace ByteArray

theorem gather_cons (pre : List Node) (node : Node) (rest : List Node) (npos n : ℕ)
    (iovs : List Iovec) :
    (gather (pre ++ node :: rest) (⟨pre.length, npos, n⟩ :: iovs)).flatten =
      node.load npos n ++ (gather (pre ++ [node] ++ rest) iovs).flatten := by
  simp [gather]

theorem scatter_cons (pre : List Node) (node : Node) (rest : List Node) (npos n : ℕ)
    (iovs : List Iovec) (data : List UInt8) :
    scatter (pre ++ node :: rest) (⟨pre.length, npos, n⟩ :: iovs) data =
      scatter (pre ++ [node.store npos (data.take n)] ++ rest) iovs (data.drop n) := by
  rw [scatter, List.modify_eq_take_cons_drop (by simp)]
  simp

/-- The buffers are the `len` bytes from `npos` on, in the chain from node `cur` on. -/
structure Covers (b : ℕ) (chain : List Node) (cur npos len : ℕ) (iovs : List Iovec) : Prop where
  total : (iovs.map Iovec.iov_len).sum = len
  gathers : ∀ pre, pre.length = cur →
    (gather (pre ++ chain) iovs).flatten = ((bytesOf chain).drop npos).take len
  scatters : ∀ pre data, pre.length = cur → data.length ≤ len →
    ∃ chain', scatter (pre ++ chain) iovs data = pre ++ chain' ∧ Uniform b chain' ∧
      chain'.length = chain.length ∧ bytesOf chain' = overwrite (bytesOf chain) npos data

theorem uniform_store {b npos : ℕ} {node : Node} {rest : List Node} {data : List UInt8}
    (hsize : node.size = b) (hptr : node.ptr.length = b) (hdata : npos + data.length ≤ b)
    (hrest : Uniform b rest) : Uniform b (node.store npos data :: rest) := by
  intro n hn
  rcases List.mem_cons.mp hn with rfl | hn
  · refine ⟨hsize, ?_⟩
    rw [Node.store, length_overwrite (by omega), hptr]
  · exact hrest n hn

theorem drop_bytesOf_cons {node : Node} (rest : List Node) {npos : ℕ} (h : npos ≤ node.ptr.length) :
    (bytesOf (node :: rest)).drop npos = node.ptr.drop npos ++ bytesOf rest := by
  rw [bytesOf_cons, List.drop_append_of_le_length h]

theorem covers_within {b cur npos len : ℕ} {node : Node} {rest : List Node}
    (hsize : node.size = b) (hptr : node.ptr.length = b) (hrest : Uniform b rest)
    (hfit : npos + len ≤ b) : Covers b (node :: rest) cur npos len [⟨cur, npos, len⟩] where
  total := by simp
  gathers := by
    intro pre hpre
    have hlen : (node.ptr.drop npos).length = b - npos := by rw [List.length_drop, hptr]
    subst hpre
    rw [gather_cons, drop_bytesOf_cons rest (by omega),
      List.take_append_of_le_length (by omega)]
    simp [gather, Node.load]
  scatters := by
    intro pre data hpre hdata
    subst hpre
    have htake : data.take len = data := List.take_of_length_le hdata
    refine ⟨node.store npos data :: rest, ?_, ?_, rfl, ?_⟩
    · rw [scatter_cons, scatter, htake, List.append_assoc]
      rfl
    · exact uniform_store hsize hptr (by omega) hrest
    · rw [bytesOf_cons, bytesOf_cons, overwrite_append_left _ (by omega)]
      rfl

/-- A buffer to the end of the first node, and the others after it. -/
theorem covers_past {b cur npos len : ℕ} {node : Node} {rest : List Node} {iovs : List Iovec}
    (hsize : node.size = b) (hptr : node.ptr.length = b) (hnpos : npos < b) (hpast : b < npos + len)
    (h : Covers b rest (cur + 1) 0 (len - (b - npos)) iovs) :
    Covers b (node :: rest) cur npos len (⟨cur, npos, b - npos⟩ :: iovs) where
  total := by
    have htotal := h.total
    simp only [List.map_cons, List.sum_cons]
    omega
  gathers := by
    intro pre hpre
    have hlen : (node.ptr.drop npos).length = b - npos := by rw [List.length_drop, hptr]
    subst hpre
    have hload : node.load npos (b - npos) = node.ptr.drop npos := List.take_of_length_le (by omega)
    have htake : (node.ptr.drop npos).take len = node.ptr.drop npos :=
      List.take_of_length_le (by omega)
    rw [gather_cons, h.gathers (pre ++ [node]) (by simp), drop_bytesOf_cons rest (by omega),
      List.take_append, hlen, htake, hload, List.drop_zero]
  scatters := by
    intro pre data hpre hdata
    subst hpre
    have hdrop : (data.drop (b - npos)).length = data.length - (b - npos) := List.length_drop
    have htake : (data.take (b - npos)).length = min (b - npos) data.length := List.length_take
    obtain ⟨rest', hscatter, huniform, hlength, hbytes⟩ :=
      h.scatters (pre ++ [node.store npos (data.take (b - npos))]) (data.drop (b - npos))
        (by simp) (by omega)
    refine ⟨node.store npos (data.take (b - npos)) :: rest', ?_, ?_, ?_, ?_⟩
    · rw [scatter_cons, hscatter, List.append_assoc]
      rfl
    · exact uniform_store hsize hptr (by omega) huniform
    · rw [List.length_cons, List.length_cons, hlength]
    · rw [bytesOf_cons, bytesOf_cons, hbytes]
      by_cases hmore : b - npos ≤ data.length
      · rw [overwrite_append_split _ (by omega) (by omega), hptr]
        rfl
      · -- the data ends in the first node, and nothing is left for the others
        rw [overwrite_append_left _ (by omega), List.take_of_length_le (by omega),
          List.drop_eq_nil_of_le (by omega), overwrite_nil]
        rfl

theorem buffersLoop_spec {b : ℕ} (hb : 1 ≤ b) : ∀ (chain : List Node) (cur npos len : ℕ),
    Uniform b chain → npos < b → 1 ≤ len → npos + len ≤ b * chain.length →
    ∃ iovs, buffersLoop chain cur npos len = .ok iovs ∧ Covers b chain cur npos len iovs := by
  intro chain
  induction chain with
  | nil =>
    intro cur npos len _ _ hlen hroom
    simp only [List.length_nil, Nat.mul_zero] at hroom
    omega
  | cons node rest ih =>
    intro cur npos len huniform hnpos hlen hroom
    obtain ⟨hsize, hptr⟩ := huniform node (by simp)
    have hrest : Uniform b rest := fun n hn => huniform n (by simp [hn])
    obtain ⟨len, rfl⟩ : ∃ k, len = k + 1 := ⟨len - 1, by omega⟩
    rw [buffersLoop, hsize]
    by_cases hfit : b - npos ≥ len + 1
    · exact ⟨[⟨cur, npos, len + 1⟩], if_pos hfit, covers_within hsize hptr hrest (by omega)⟩
    · have hroom' : npos + (len + 1) ≤ b * rest.length + b := hroom
      obtain ⟨iovs, hloop, hcovers⟩ :=
        ih (cur + 1) 0 (len + 1 - (b - npos)) hrest hb (by omega) (by omega)
      refine ⟨⟨cur, npos, b - npos⟩ :: iovs, ?_, covers_past hsize hptr hnpos (by omega) hcovers⟩
      simp only [if_neg hfit, hloop]
      rfl

theorem buffersFrom_spec {ba : ByteArray} (h : Rep ba) (len : ℕ) (hlen : 1 ≤ len)
    (hroom : ba.m_position + len ≤ ba.m_capacity) :
    ∃ iovs, ba.buffersFrom len = .ok iovs ∧
      Covers ba.m_baseSize (ba.chain.drop (ba.m_position / ba.m_baseSize))
        (ba.m_position / ba.m_baseSize) (ba.m_position % ba.m_baseSize) len iovs := by
  obtain ⟨hcur, hdiv, hleft⟩ := h.cur_some (by omega)
  have hmod : ba.m_position % ba.m_baseSize < ba.m_baseSize := Nat.mod_lt _ h.base
  unfold buffersFrom
  rw [hcur]
  exact buffersLoop_spec h.base _ _ _ len (h.nodes.drop _) hmod hlen (by omega)

theorem buffersFrom_gathers {ba : ByteArray} (h : Rep ba) {len : ℕ} (hlen : 1 ≤ len)
    (hroom : ba.m_position + len ≤ ba.m_capacity) :
    ∃ iovs, ba.buffersFrom len = .ok iovs ∧ (iovs.map Iovec.iov_len).sum = len ∧
      (gather ba.chain iovs).flatten = ((bytesOf ba.chain).drop ba.m_position).take len := by
  obtain ⟨hcur, hdiv, hleft⟩ := h.cur_some (by omega)
  obtain ⟨iovs, hiovs, hcovers⟩ := buffersFrom_spec h len hlen hroom
  have hgather := hcovers.gathers (ba.chain.take (ba.m_position / ba.m_baseSize))
    (by rw [List.length_take]; omega)
  rw [List.take_append_drop, bytesOf_drop h.nodes hdiv, List.drop_drop, Nat.div_add_mod] at hgather
  exact ⟨iovs, hiovs, hcovers.total, hgather⟩

theorem getReadBuffers_spec {ba : ByteArray} {bytes : List UInt8} (h : Unread ba bytes) (len : ℕ) :
    ∃ iovs, ba.getReadBuffers len = .ok iovs ∧
      (iovs.map Iovec.iov_len).sum = min len bytes.length ∧
      (gather ba.chain iovs).flatten = bytes.take len := by
  obtain ⟨hrep, hunread⟩ := h
  have hlength := hrep.length_unread
  rw [hunread] at hlength
  have hsize := hrep.size_le
  have hposition := hrep.position_le
  have hcut : (if len > ba.getReadSize then ba.getReadSize else len) = min len bytes.length := by
    split_ifs <;> omega
  have htake : bytes.take len = bytes.take (min len bytes.length) := by
    rw [← List.take_take, List.take_length]
  have hle := min_le_right len bytes.length
  unfold getReadBuffers
  rw [hcut, htake]
  generalize min len bytes.length = n at *
  by_cases h0 : n = 0
  · exact ⟨[], if_pos h0, by rw [h0]; rfl, by rw [h0]; rfl⟩
  · unfold getReadSize at hlength
    obtain ⟨iovs, hiovs, htotal, hgather⟩ :=
      buffersFrom_gathers hrep (show 1 ≤ n by omega) (by omega)
    refine ⟨iovs, ?_, htotal, ?_⟩
    · dsimp only
      rw [if_neg h0, hiovs]
    · have hn : n ≤ ba.m_size - ba.m_position := by omega
      rw [hgather, ← hunread, flat, Flat.unread, List.drop_take, List.take_take, Nat.min_eq_left hn]

/-- The position is set beyond the size, into capacity that was filled. -/
theorem setPosition_extends {ba : ByteArray} (h : Rep ba) {v : ℕ} (hsize : ba.m_size ≤ v)
    (hv : v ≤ ba.m_capacity) :
    ∃ ba', ba.setPosition v = .ok ba' ∧ Rep ba' ∧
      flat ba' = ⟨(bytesOf ba.chain).take v, v⟩ ∧ Frame ba ba' ∧ ba'.m_capacity = ba.m_capacity := by
  have hmax : (if v > ba.m_size then v else ba.m_size) = v := by split_ifs <;> omega
  refine ⟨_, h.setPosition_eq hv, h.seek hv, ?_, ⟨rfl, rfl⟩, rfl⟩
  simp only [flat, hmax]

theorem Rep.setChain {ba : ByteArray} (h : Rep ba) {chain : List Node}
    (huniform : Uniform ba.m_baseSize chain) (hlength : chain.length = ba.chain.length) :
    Rep { ba with chain := chain } where
  base := h.base
  root := by
    have hpos := List.length_pos_iff.mpr h.root
    exact List.length_pos_iff.mp (by dsimp only; omega)
  nodes := huniform
  capacity := by
    dsimp only
    rw [hlength]
    exact h.capacity
  position_le := h.position_le
  size_le := h.size_le
  cur := h.cur

/-- The whole chain after the buffers from the position on were filled. -/
theorem scatter_rep {ba : ByteArray} (h : Rep ba) {len : ℕ} (hlen : 1 ≤ len)
    (hroom : ba.m_position + len ≤ ba.m_capacity) :
    ∃ iovs, ba.buffersFrom len = .ok iovs ∧ (iovs.map Iovec.iov_len).sum = len ∧
      ∀ data, data.length ≤ len → Rep { ba with chain := scatter ba.chain iovs data } ∧
      Uniform ba.m_baseSize (scatter ba.chain iovs data) ∧
      (scatter ba.chain iovs data).length = ba.chain.length ∧
      bytesOf (scatter ba.chain iovs data) = overwrite (bytesOf ba.chain) ba.m_position data := by
  obtain ⟨hcur, hdiv, hleft⟩ := h.cur_some (by omega)
  obtain ⟨iovs, hiovs, hcovers⟩ := buffersFrom_spec h len hlen hroom
  refine ⟨iovs, hiovs, hcovers.total, fun data hdata => ?_⟩
  obtain ⟨tail, hscatter, huniform, htail, hbytes⟩ :=
    hcovers.scatters (ba.chain.take (ba.m_position / ba.m_baseSize)) data
      (by rw [List.length_take]; omega) hdata
  rw [List.take_append_drop] at hscatter
  have hnodes := (h.nodes.take (ba.m_position / ba.m_baseSize)).append huniform
  have hlength : (ba.chain.take (ba.m_position / ba.m_baseSize) ++ tail).length = ba.chain.length := by
    rw [List.length_append, htail, List.length_take, List.length_drop]
    omega
  rw [hscatter]
  exact ⟨h.setChain hnodes hlength, hnodes, hlength, h.bytesOf_overwrite hdiv hbytes⟩

theorem AtEnd.position_eq {ba : ByteArray} {bytes : List UInt8} (h : AtEnd ba bytes) :
    ba.m_position = bytes.length :=
  congrArg Flat.pos h.2

/-- The buffers of a `ByteArray` are filled, and the position is set behind what was filled: that is
a `write`. -/
theorem scatter_writes {ba : ByteArray} (h : Rep ba) {len : ℕ} (hlen : 1 ≤ len)
    (hroom : ba.m_position + len ≤ ba.m_capacity) :
    ∃ iovs, ba.buffersFrom len = .ok iovs ∧ (iovs.map Iovec.iov_len).sum = len ∧
      ∀ data, data.length ≤ len →
        ∃ ba', ByteArray.setPosition { ba with chain := scatter ba.chain iovs data }
            (ba.m_position + data.length) = .ok ba' ∧
          Rep ba' ∧ flat ba' = (flat ba).write data ∧ Frame ba ba' ∧
          ba'.m_capacity = ba.m_capacity := by
  obtain ⟨iovs, hiovs, htotal, hfill⟩ := scatter_rep h hlen hroom
  refine ⟨iovs, hiovs, htotal, fun data hdata => ?_⟩
  obtain ⟨hfilled, -, -, hall⟩ := hfill data hdata
  have hv : ba.m_position + data.length ≤ ba.m_capacity := by omega
  refine ⟨_, hfilled.setPosition_eq hv, hfilled.seek hv, ?_, ⟨rfl, rfl⟩, rfl⟩
  have hmax : (if ba.m_position + data.length > ba.m_size then ba.m_position + data.length
      else ba.m_size) = max ba.m_size (ba.m_position + data.length) := by
    split_ifs <;> omega
  have hcap : ba.m_size ≤ (bytesOf ba.chain).length := by
    rw [h.nodes.length_bytesOf, ← h.capacity]
    exact h.size_le
  simp only [flat, Flat.write, hmax, hall, take_overwrite h.position_le hcap]

theorem scatter_appends {ba : ByteArray} {bytes : List UInt8} (h : AtEnd ba bytes) {len : ℕ}
    (hlen : 1 ≤ len) (hroom : ba.m_position + len ≤ ba.m_capacity) :
    ∃ iovs, ba.buffersFrom len = .ok iovs ∧ (iovs.map Iovec.iov_len).sum = len ∧
      ∀ data, data.length ≤ len →
        ∃ ba', ByteArray.setPosition { ba with chain := scatter ba.chain iovs data }
            (ba.m_position + data.length) = .ok ba' ∧
          AtEnd ba' (bytes ++ data) ∧ Frame ba ba' ∧ ba'.m_capacity = ba.m_capacity := by
  obtain ⟨iovs, hiovs, htotal, hwrites⟩ := scatter_writes h.1 hlen hroom
  refine ⟨iovs, hiovs, htotal, fun data hdata => ?_⟩
  obtain ⟨ba', hset, hrep, hflat, hrest⟩ := hwrites data hdata
  refine ⟨ba', hset, ⟨hrep, ?_⟩, hrest⟩
  rw [hflat, h.2, Flat.write]
  simp [overwrite]

def Tight (ba : ByteArray) (n : ℕ) : Prop := ba.m_capacity < max 1 n + ba.m_baseSize

theorem tight_addCapacity {ba : ByteArray} (h : Rep ba) (size : ℕ) {n : ℕ} (htight : Tight ba n)
    (hn : ba.m_position + size ≤ n) : Tight (ba.addCapacity size) n := by
  have hposition := h.position_le.trans h.size_le
  unfold addCapacity
  by_cases h0 : size = 0
  · rwa [if_pos h0]
  rw [if_neg h0]
  dsimp only
  by_cases hcap : ba.getCapacity ≥ size
  · rwa [if_pos hcap]
  rw [if_neg hcap]
  unfold Tight
  dsimp only
  have hdiv := Nat.div_mul_le_self (size - ba.getCapacity + ba.m_baseSize - 1) ba.m_baseSize
  have hbase := h.base
  unfold getCapacity at hdiv hcap ⊢
  omega

end ByteArray

namespace SocketStream

variable {s : SocketStream} {ba : ByteArray} {bytes : List UInt8} {left : ℕ}

theorem cut_spec (s : SocketStream) {n : ℕ} (hn : 1 ≤ n) : 1 ≤ s.cut n ∧ s.cut n ≤ n := by
  unfold cut
  omega

theorem write_sends (h : ba.Unread bytes) (hleft : 1 ≤ left) (hle : left ≤ bytes.length) :
    ∃ n ba', s.write ba left = (.ok (n, ba'), s.sent (bytes.take n)) ∧ 1 ≤ n ∧ n ≤ left ∧
      ba'.Unread (bytes.drop n) ∧ ba'.getSize = ba.getSize := by
  obtain ⟨iovs, hiovs, -, hgather⟩ := ByteArray.getReadBuffers_spec h left
  obtain ⟨hrep, hunread⟩ := h
  have hlength := hrep.length_unread
  rw [hunread] at hlength
  have hsize := hrep.position_le
  unfold ByteArray.getReadSize at hlength
  have hdata : (bytes.take left).length = left := by rw [List.length_take]; omega
  obtain ⟨hpos, hcut⟩ := s.cut_spec hleft
  obtain ⟨ba', hset, hrep', hflat', -⟩ := ByteArray.setPosition_spec hrep
    (v := ba.m_position + s.cut left) (by unfold ByteArray.getSize; omega)
  refine ⟨s.cut left, ba', ?_, hpos, hcut, ⟨hrep', ?_⟩, ?_⟩
  · unfold write
    simp only [hiovs, hgather, send, hdata, List.take_take, Nat.min_eq_left hcut]
    rw [if_pos (by omega), ByteArray.getPosition, hset]
    rfl
  · rw [hflat', ← hunread, Flat.unread, Flat.unread, List.drop_drop]
    rfl
  · rw [ByteArray.getSize, ByteArray.getSize, ← hrep'.length_flat, ← hrep.length_flat, hflat']

theorem writeLoop_sends : ∀ (turns : ℕ) (s : SocketStream) (ba : ByteArray) (bytes : List UInt8),
    bytes.length ≤ turns → ba.Unread bytes →
    ∃ ba' s', fixLoop write turns bytes.length s ba = (.ok (true, ba'), s') ∧
      s'.bytes = s.bytes ++ bytes ∧ ba'.getSize = ba.getSize := by
  intro turns
  induction turns with
  | zero =>
    intro s ba bytes hturns h
    have hnil : bytes = [] := List.length_eq_zero_iff.mp (by omega)
    exact ⟨ba, s, rfl, by simp [hnil], rfl⟩
  | succ turns ih =>
    intro s ba bytes hturns h
    by_cases h0 : bytes.length = 0
    · have hnil : bytes = [] := List.length_eq_zero_iff.mp h0
      refine ⟨ba, s, ?_, by simp [hnil], rfl⟩
      rw [fixLoop, if_neg (by omega)]
    · obtain ⟨n, ba₁, hwrite, hpos, hle, hunread, hsize⟩ :=
        write_sends (s := s) h (show 1 ≤ bytes.length by omega) le_rfl
      have hlength : bytes.length - n = (bytes.drop n).length := List.length_drop.symm
      obtain ⟨ba', s', hloop, hbytes, hsize'⟩ :=
        ih (s.sent (bytes.take n)) ba₁ (bytes.drop n) (by omega) hunread
      refine ⟨ba', s', ?_, ?_, hsize'.trans hsize⟩
      · rw [fixLoop, if_pos (by omega), hwrite]
        dsimp only
        rw [if_neg (by omega), hlength, hloop]
      · rw [hbytes]
        change s.bytes ++ bytes.take n ++ bytes.drop n = s.bytes ++ bytes
        rw [List.append_assoc, List.take_append_drop]

theorem read_appends (h : ba.AtEnd bytes) (hleft : 1 ≤ left) (hs : 1 ≤ s.bytes.length) :
    ∃ n ba', s.read ba left = (.ok (n, ba'), s.received n) ∧ 1 ≤ n ∧ n ≤ left ∧
      n ≤ s.bytes.length ∧ ba'.AtEnd (bytes ++ s.bytes.take n) ∧ ba.Frame ba' ∧
      ba'.m_capacity = (ba.addCapacity left).m_capacity := by
  obtain ⟨hrep, hflat, hposition, -, hframe, hroom⟩ := ByteArray.addCapacity_rep h.1 left
  have hend : (ba.addCapacity left).AtEnd bytes := ⟨hrep, hflat.trans h.2⟩
  obtain ⟨iovs, hiovs, htotal, hscatter⟩ :=
    ByteArray.scatter_appends hend hleft (by omega)
  set n := s.cut (min left s.bytes.length) with hn
  obtain ⟨hpos, hcut⟩ := s.cut_spec (n := min left s.bytes.length) (by omega)
  have hlength : (s.bytes.take n).length = n := by rw [List.length_take]; omega
  obtain ⟨ba', hset, hend', hframe', hcapacity⟩ := hscatter (s.bytes.take n) (by omega)
  rw [hlength] at hset
  refine ⟨n, ba', ?_, hpos, by omega, by omega, hend', ?_, hcapacity⟩
  · unfold read ByteArray.getWriteBuffers
    rw [if_neg (by omega), hiovs]
    simp only [bind, Except.bind, recv, htotal, ← hn, hlength]
    rw [if_pos (by omega), ByteArray.getPosition, hset]
    rfl
  · exact ⟨hframe'.1.trans hframe.1, hframe'.2.trans hframe.2⟩

theorem readLoop_appends : ∀ (turns : ℕ) (s : SocketStream) (ba : ByteArray)
    (bytes data post : List UInt8), data.length ≤ turns → ba.AtEnd bytes → s.bytes = data ++ post →
    ba.Tight (bytes.length + data.length) →
    ∃ ba' s', fixLoop read turns data.length s ba = (.ok (true, ba'), s') ∧ s'.bytes = post ∧
      ba'.AtEnd (bytes ++ data) ∧ ba.Frame ba' ∧ ba'.Tight (bytes.length + data.length) := by
  intro turns
  induction turns with
  | zero =>
    intro s ba bytes data post hturns h hs htight
    have hnil : data = [] := List.length_eq_zero_iff.mp (by omega)
    subst hnil
    exact ⟨ba, s, rfl, hs, by simpa using h, ⟨rfl, rfl⟩, htight⟩
  | succ turns ih =>
    intro s ba bytes data post hturns h hs htight
    by_cases h0 : data.length = 0
    · have hnil : data = [] := List.length_eq_zero_iff.mp h0
      subst hnil
      refine ⟨ba, s, ?_, hs, by simpa using h, ⟨rfl, rfl⟩, htight⟩
      rw [fixLoop, if_neg (by simp)]
    · have hsome : 1 ≤ s.bytes.length := by rw [hs, List.length_append]; omega
      obtain ⟨n, ba₁, hread, hpos, hle, -, hend, hframe, hcapacity⟩ :=
        read_appends h (show 1 ≤ data.length by omega) hsome
      have htake : s.bytes.take n = data.take n := by
        rw [hs, List.take_append_of_le_length hle]
      have hdrop : (s.received n).bytes = data.drop n ++ post := by
        change s.bytes.drop n = _
        rw [hs, List.drop_append_of_le_length hle]
      have hlength : data.length - n = (data.drop n).length := List.length_drop.symm
      have hsum : (bytes ++ data.take n).length + (data.drop n).length =
          bytes.length + data.length := by
        rw [List.length_append, List.length_take, List.length_drop]
        omega
      have htight₁ : ba₁.Tight (bytes.length + data.length) := by
        have htight' := ByteArray.tight_addCapacity h.1 data.length htight
          (by rw [h.position_eq])
        obtain ⟨-, -, -, -, hcapFrame, -⟩ := ByteArray.addCapacity_rep h.1 data.length
        unfold ByteArray.Tight at htight' ⊢
        rw [hcapFrame.2] at htight'
        rw [hcapacity, hframe.2]
        exact htight'
      rw [htake] at hend
      obtain ⟨ba', s', hloop, hbytes, hend', hframe', htight'⟩ :=
        ih (s.received n) ba₁ (bytes ++ data.take n) (data.drop n) post (by omega) hend hdrop
          (by rwa [hsum])
      refine ⟨ba', s', ?_, hbytes, ?_, ?_, by rwa [hsum] at htight'⟩
      · rw [fixLoop, if_pos (by omega), hread]
        dsimp only
        rw [if_neg (by omega), hlength, hloop]
      · rwa [List.append_assoc, List.take_append_drop] at hend'
      · exact ⟨hframe'.1.trans hframe.1, hframe'.2.trans hframe.2⟩

theorem toInt64_eq {n : ℕ} (hn : n < 2 ^ 63) : toInt64 n = n := by
  unfold toInt64
  rw [Int.bmod_eq_of_le] <;> omega

theorem toInt64_of_lt {n : ℕ} (hn : n < 2 ^ 63) : (toInt64 n).toNat = n := by
  rw [toInt64_eq hn, Int.toNat_natCast]

theorem toInt64_nonpos {n : ℕ} (hn : 2 ^ 63 ≤ n) (hn' : n < 2 ^ 64) : toInt64 n ≤ 0 := by
  unfold toInt64
  rw [Int.bmod_def]
  omega

theorem toInt_of_lt {n : ℕ} (hn : n < 2 ^ 31) : toInt n = n := by
  unfold toInt
  rw [Int.bmod_eq_of_le] <;> omega

theorem writeFixSize_sends (s : SocketStream) (h : ba.Unread bytes) (hlt : bytes.length < 2 ^ 63) :
    ∃ ba' s', s.writeFixSize ba bytes.length = (.ok (toInt bytes.length, ba'), s') ∧
      s'.bytes = s.bytes ++ bytes ∧ ba'.getSize = ba.getSize := by
  obtain ⟨ba', s', hloop, hbytes, hsize⟩ := writeLoop_sends bytes.length s ba bytes le_rfl h
  refine ⟨ba', s', ?_, hbytes, hsize⟩
  unfold writeFixSize fixSize
  rw [toInt64_of_lt hlt, hloop]
  simp only [Except.map, if_true]

theorem readFixSize_appends {data post : List UInt8} (h : ba.AtEnd []) (hs : s.bytes = data ++ post)
    (hlt : data.length < 2 ^ 63) (htight : ba.Tight data.length) :
    ∃ ba' s', s.readFixSize ba data.length = (.ok (toInt data.length, ba'), s') ∧
      s'.bytes = post ∧ ba'.AtEnd data ∧ ba.Frame ba' ∧ ba'.Tight data.length := by
  obtain ⟨ba', s', hloop, hbytes, hend, hframe, htight'⟩ :=
    readLoop_appends data.length s ba [] data post le_rfl h hs (by simpa using htight)
  refine ⟨ba', s', ?_, hbytes, hend, hframe, by simpa using htight'⟩
  unfold readFixSize fixSize
  rw [toInt64_of_lt hlt, hloop]
  simp only [Except.map, if_true]

theorem writeRawLoop_sends : ∀ (turns : ℕ) (s : SocketStream) (data : List UInt8),
    data.length ≤ turns →
    ∃ s', writeRawLoop turns s data = (true, s') ∧ s'.bytes = s.bytes ++ data := by
  intro turns
  induction turns with
  | zero =>
    intro s data hturns
    have hnil : data = [] := List.length_eq_zero_iff.mp (by omega)
    exact ⟨s, rfl, by simp [hnil]⟩
  | succ turns ih =>
    intro s data hturns
    by_cases h0 : data.length = 0
    · have hnil : data = [] := List.length_eq_zero_iff.mp h0
      exact ⟨s, by rw [writeRawLoop, if_neg (by omega)], by simp [hnil]⟩
    · obtain ⟨hpos, hcut⟩ := s.cut_spec (n := data.length) (by omega)
      obtain ⟨s', hloop, hbytes⟩ := ih (s.sent (data.take (s.cut data.length)))
        (data.drop (s.cut data.length)) (by rw [List.length_drop]; omega)
      refine ⟨s', ?_, ?_⟩
      · have hsend : s.send data =
            (s.cut data.length, s.sent (data.take (s.cut data.length))) := rfl
        rw [writeRawLoop, if_pos (by omega), hsend]
        dsimp only
        rw [if_neg (by omega), hloop]
      · rw [hbytes]
        change s.bytes ++ data.take _ ++ data.drop _ = _
        rw [List.append_assoc, List.take_append_drop]

theorem writeRawFixSize_sends (s : SocketStream) (data : List UInt8) :
    ∃ s', s.writeRawFixSize data = (toInt data.length, s') ∧ s'.bytes = s.bytes ++ data := by
  obtain ⟨s', hloop, hbytes⟩ := writeRawLoop_sends data.length s data le_rfl
  refine ⟨s', ?_, hbytes⟩
  unfold writeRawFixSize
  rw [hloop]
  simp only [if_true]

theorem readRawLoop_takes : ∀ (turns : ℕ) (s : SocketStream) (data post : List UInt8),
    data.length ≤ turns → s.bytes = data ++ post →
    ∃ s', readRawLoop turns data.length s = (data, s') ∧ s'.bytes = post := by
  intro turns
  induction turns with
  | zero =>
    intro s data post hturns hs
    have hnil : data = [] := List.length_eq_zero_iff.mp (by omega)
    subst hnil
    exact ⟨s, rfl, hs⟩
  | succ turns ih =>
    intro s data post hturns hs
    by_cases h0 : data.length = 0
    · have hnil : data = [] := List.length_eq_zero_iff.mp h0
      subst hnil
      exact ⟨s, by rw [readRawLoop, if_neg (by simp)], hs⟩
    · have hmin : min data.length s.bytes.length = data.length := by
        rw [hs, List.length_append]
        omega
      obtain ⟨hpos, hcut⟩ := s.cut_spec (n := data.length) (by omega)
      set n := s.cut data.length with hn
      have htake : s.bytes.take n = data.take n := by
        rw [hs, List.take_append_of_le_length hcut]
      have hdrop : (s.received n).bytes = data.drop n ++ post := by
        change s.bytes.drop n = _
        rw [hs, List.drop_append_of_le_length hcut]
      have hlength : (data.take n).length = n := by rw [List.length_take]; omega
      have hrest : data.length - n = (data.drop n).length := List.length_drop.symm
      obtain ⟨s', hloop, hbytes⟩ := ih (s.received n) (data.drop n) post (by omega) hdrop
      refine ⟨s', ?_, hbytes⟩
      rw [readRawLoop, if_pos (by omega)]
      simp only [recv, hmin, ← hn, htake, hlength]
      rw [if_neg (by omega), hrest, hloop]
      simp only [List.take_append_drop]

theorem readRawFixSize_takes {data post : List UInt8} (hs : s.bytes = data ++ post)
    (hlt : data.length < 2 ^ 63) :
    ∃ s', s.readRawFixSize data.length = (toInt data.length, data, s') ∧ s'.bytes = post := by
  obtain ⟨s', hloop, hbytes⟩ := readRawLoop_takes data.length s data post le_rfl hs
  refine ⟨s', ?_, hbytes⟩
  unfold readRawFixSize
  rw [toInt64_of_lt hlt, hloop]
  dsimp only
  rw [if_pos rfl]

end SocketStream

end Sylar
