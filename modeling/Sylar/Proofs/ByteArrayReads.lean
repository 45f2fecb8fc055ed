import Sylar.Proofs.ByteArrayReach
import Sylar.Spec.ByteArrayReads
import Sylar.Spec.ByteArrayTyped

/-! Reads of a reachable array. `read` looks into the current node also when it reads nothing; `read`
at a position starts its walk in the current node, with the offset of the position; and
`getReadBuffers` at a position counts what is left from the current one. -/

namespace Sylar

open Lib

namespace ByteArray

/-- `n` bytes are read, and the position is that much further. -/
def ReadsNext (ba : ByteArray) (n : ℕ) : Prop :=
  ∃ bytes ba', ba.read n = .ok (bytes, ba') ∧ bytes.length = n ∧
    ba'.getPosition = ba.getPosition + n

/-- There is no current node at the end of the capacity. -/
theorem read_advances_iff {ba : ByteArray} (h : Reachable ba) {n : ℕ} (hn : n ≤ ba.getReadSize) :
    ReadsNext ba n ↔ 1 ≤ n ∨ ba.getCapacity ≠ 0 := by
  have hrep := reachable_rep h
  have hsize := hrep.size_le
  have hposition := hrep.position_le
  have hlength := hrep.length_unread
  constructor
  · rintro ⟨bytes, ba', hread, -⟩
    by_contra hnot
    obtain ⟨h0, hend⟩ : n = 0 ∧ ba.m_position = ba.m_capacity := by
      unfold getCapacity at hnot
      omega
    have hcur := hrep.cur
    rw [if_pos hend] at hcur
    unfold read at hread
    rw [if_neg (by omega), hcur] at hread
    cases hread
  · intro hsome
    have hlt : ba.m_position < ba.m_capacity := by
      unfold getCapacity at hsome
      unfold getReadSize at hn
      omega
    obtain ⟨ba', hread, -, hflat, -⟩ := read_within hrep hlt hn
    exact ⟨_, ba', hread, by rw [List.length_take]; omega, congrArg Flat.pos hflat⟩

/-- Two bytes in nodes of two, which are the length of an empty string. -/
theorem read_advances_iff_edge :
    ReadsNext (machine.run (new (fun _ _ => 0) 2) [.write [0, 0], .setPosition 0]).2 2 :=
  (read_advances_iff ((Reachable.new _ (by decide)).run _) (by decide)).mpr (.inl (by decide))

/-- The string behind such a length is not read. -/
theorem not_readsNext_empty :
    (∃ ba, Reachable ba ∧ 0 ≤ ba.getReadSize ∧ ¬ ReadsNext ba 0) ∧
    (do let written ← writeStringF16 .little (new (fun _ _ => 0) 2) []
        let rewound ← written.setPosition 0
        let (value, _) ← readStringF16 .little rewound
        .ok value) = .error .nullDeref := by
  refine ⟨⟨(machine.run (new (fun _ _ => 0) 2) [.write [0, 0]]).2,
    (Reachable.new _ (by decide)).run _, by decide, ?_⟩, rfl⟩
  rintro ⟨bytes, ba', hread, -⟩
  cases hread

/-- What is documented: the bytes from `position` on, wherever the current position is, or an
exception. -/
def ReadsAt (ba : ByteArray) (n position : ℕ) : Prop :=
  if position + n ≤ ba.getSize then
    ba.readAt n position = .ok (((flat ba).bytes.drop position).take n)
  else ∃ what, ba.readAt n position = .error (.outOfRange what)

def readStart (ba : ByteArray) (position : ℕ) : ℕ :=
  ba.m_baseSize * (ba.m_position / ba.m_baseSize) + position % ba.m_baseSize

theorem wrap_sub {w a b : ℕ} (ha : a < w) (hb : b < w) :
    (a + (w - b)) % w = if b ≤ a then a - b else w + a - b := by
  split_ifs with h
  · rw [show a + (w - b) = a - b + w by omega, Nat.add_mod_right, Nat.mod_eq_of_lt (by omega)]
  · rw [Nat.mod_eq_of_lt (by omega)]
    omega

theorem readLoop_null {b : ℕ} : ∀ (chain : List Node) (npos n : ℕ), Uniform b chain → npos < b →
    b * chain.length < npos + n → 1 ≤ n → readLoop chain npos n = .error .nullDeref := by
  intro chain
  induction chain with
  | nil =>
    intro npos n _ _ _ hn
    obtain ⟨n, rfl⟩ : ∃ k, n = k + 1 := ⟨n - 1, by omega⟩
    rfl
  | cons node rest ih =>
    intro npos n huniform hnpos hpast hn
    obtain ⟨hsize, -⟩ := huniform node (by simp)
    obtain ⟨n, rfl⟩ : ∃ k, n = k + 1 := ⟨n - 1, by omega⟩
    have hpast' : b * rest.length + b < npos + (n + 1) := hpast
    rw [readLoop, hsize]
    dsimp only
    rw [if_neg (by omega), ih 0 (n + 1 - (b - npos)) (fun m hm => huniform m (by simp [hm])) (by omega)
      (by omega) (by omega)]
    rfl

theorem readLoop_fault {f : Fault} : ∀ (chain : List Node) (npos n : ℕ),
    readLoop chain npos n = .error f → f = .nullDeref := by
  intro chain
  induction chain with
  | nil =>
    intro npos n h
    cases n with
    | zero => cases h
    | succ n => exact (Except.error.inj h).symm
  | cons node rest ih =>
    intro npos n h
    cases n with
    | zero => cases h
    | succ n =>
      rw [readLoop] at h
      dsimp only at h
      split_ifs at h
      rcases error_of_bind h with hrest | ⟨r, -, hpair⟩
      · exact ih 0 _ hrest
      · cases hpair

section At

variable {ba : ByteArray} {n position : ℕ}

theorem readStart_lt (h : Rep ba) (hlt : ba.m_position < ba.m_capacity) (position : ℕ) :
    readStart ba position < ba.m_capacity := by
  have hmod : position % ba.m_baseSize < ba.m_baseSize := Nat.mod_lt _ h.base
  rw [h.capacity] at hlt ⊢
  have hnext := Nat.mul_le_mul_left ba.m_baseSize (Nat.div_lt_of_lt_mul hlt)
  rw [Nat.mul_succ] at hnext
  unfold readStart
  omega

/-- The loop gets the bytes from where it starts, if there are so many. -/
theorem readAt_eq (h : Rep ba) (hn : ¬ n > (ba.m_size + (2 ^ 64 - position)) % 2 ^ 64)
    (hlt : ba.m_position < ba.m_capacity) :
    ba.readAt n position =
      if readStart ba position + n ≤ ba.m_capacity then
        .ok (((bytesOf ba.chain).drop (readStart ba position)).take n)
      else .error .nullDeref := by
  obtain ⟨hcur, hdiv, hleft⟩ := h.cur_some hlt
  have hmod : position % ba.m_baseSize < ba.m_baseSize := Nat.mod_lt _ h.base
  have hnodes := h.nodes.drop (ba.m_position / ba.m_baseSize)
  have hcapacity : ba.m_baseSize * (ba.m_position / ba.m_baseSize) +
      ba.m_baseSize * (ba.chain.drop (ba.m_position / ba.m_baseSize)).length = ba.m_capacity := by
    rw [← Nat.mul_add, List.length_drop, Nat.add_sub_cancel' hdiv, ← h.capacity]
  have hstart := readStart_lt h hlt position
  unfold readStart at hstart
  unfold readAt readStart
  rw [if_neg hn, hcur]
  dsimp only
  split_ifs with hroom
  · rw [readLoop_spec h.base _ _ n hnodes hmod (by omega), bytesOf_drop h.nodes hdiv, List.drop_drop]
    rfl
  · rw [readLoop_null _ _ n hnodes hmod (by omega) (by omega)]
    rfl

theorem readAt_null (h : Rep ba) (hn : ¬ n > (ba.m_size + (2 ^ 64 - position)) % 2 ^ 64)
    (hend : ¬ ba.m_position < ba.m_capacity) : ba.readAt n position = .error .nullDeref := by
  have hposition := h.position_le.trans h.size_le
  have hcur := h.cur
  rw [if_pos (by omega)] at hcur
  unfold readAt
  rw [if_neg hn, hcur]

theorem length_bytes_at (h : Rep ba) (hn : position + n ≤ ba.getSize) :
    (((flat ba).bytes.drop position).take n).length = n := by
  unfold getSize at hn
  rw [List.length_take, List.length_drop, h.length_flat]
  omega

theorem readsAt_inside (h : Rep ba) (hsize : ba.getSize < 2 ^ 64) (hn : position + n ≤ ba.getSize) :
    ReadsAt ba n position ↔ ba.m_position < ba.m_capacity ∧
      ((bytesOf ba.chain).drop (readStart ba position)).take n =
        ((flat ba).bytes.drop position).take n := by
  have hwrap := wrap_sub hsize (show position < 2 ^ 64 by omega)
  rw [if_pos (by omega)] at hwrap
  have hcheck : ¬ n > (ba.m_size + (2 ^ 64 - position)) % 2 ^ 64 := by
    unfold getSize at hwrap hn
    rw [hwrap]
    omega
  unfold ReadsAt
  rw [if_pos hn]
  by_cases hlt : ba.m_position < ba.m_capacity
  · rw [readAt_eq h hcheck hlt, and_iff_right hlt]
    split_ifs with hroom
    · exact ⟨Except.ok.inj, congrArg Except.ok⟩
    · refine iff_of_false nofun fun heq => ?_
      have hlength := congrArg List.length heq
      rw [length_bytes_at h hn, List.length_take, List.length_drop, h.nodes.length_bytesOf,
        ← h.capacity] at hlength
      have hstart := readStart_lt h hlt position
      omega
  · rw [readAt_null h hcheck hlt]
    exact iff_of_false nofun fun heq => hlt heq.1

/-- Behind the data. The difference is right only up to the size; beyond it is close to `2 ^ 64`. -/
theorem readsAt_outside (hsize : ba.getSize < 2 ^ 64) (hposition : position < 2 ^ 64)
    (hn : ¬ position + n ≤ ba.getSize) :
    ReadsAt ba n position ↔ ba.getSize < position → 2 ^ 64 + ba.getSize < position + n := by
  have hwrap := wrap_sub hsize hposition
  unfold ReadsAt
  rw [if_neg hn]
  unfold getSize at *
  by_cases hin : position ≤ ba.m_size
  · rw [if_pos hin] at hwrap
    refine iff_of_true ⟨"not enough len", ?_⟩ fun hlt => absurd hlt (by omega)
    unfold readAt
    rw [hwrap, if_pos (by omega)]
  · rw [if_neg hin] at hwrap
    by_cases hpast : 2 ^ 64 + ba.m_size < position + n
    · refine iff_of_true ⟨"not enough len", ?_⟩ fun _ => hpast
      unfold readAt
      rw [hwrap, if_pos (by omega)]
    · refine iff_of_false ?_ fun himp => hpast (himp (by omega))
      rintro ⟨what, herror⟩
      unfold readAt at herror
      rw [hwrap, if_neg (by omega)] at herror
      cases hcur : ba.m_cur with
      | none =>
        rw [hcur] at herror
        cases herror
      | some cur =>
        rw [hcur] at herror
        rcases error_of_bind herror with hloop | ⟨r, -, hr⟩
        · cases readLoop_fault _ _ _ hloop
        · cases hr

theorem flat_bytes_at (hn : position + n ≤ ba.getSize) :
    ((flat ba).bytes.drop position).take n = ((bytesOf ba.chain).drop position).take n := by
  unfold getSize at hn
  rw [flat, List.drop_take, List.take_take, Nat.min_eq_left (by omega)]

theorem readStart_eq (hnode : position / ba.m_baseSize = ba.m_position / ba.m_baseSize) :
    readStart ba position = position := by
  rw [readStart, ← hnode, Nat.div_add_mod]

/-- A walk that starts elsewhere gets other bytes, where there are others. -/
theorem readStart_of_bytes (h : Rep ba) (hn : position + n ≤ ba.getSize) (h0 : n ≠ 0)
    (hbytes : bytesOf ba.chain =
      (List.range ba.m_capacity).map fun i => if i = position then 1 else 0)
    (hlt : ba.m_position < ba.m_capacity)
    (heq : ((bytesOf ba.chain).drop (readStart ba position)).take n =
      ((flat ba).bytes.drop position).take n) : readStart ba position = position := by
  have hsize := h.size_le
  have hstart := readStart_lt h hlt position
  unfold getSize at hn
  rw [flat_bytes_at hn, hbytes] at heq
  have hhead := congrArg (fun l => l[0]?) heq
  simp only [List.getElem?_take, if_pos (Nat.pos_of_ne_zero h0), List.getElem?_drop,
    List.getElem?_map, Nat.add_zero, List.getElem?_range hstart,
    List.getElem?_range (show position < ba.m_capacity by omega), Option.map_some] at hhead
  by_contra hne
  rw [if_neg hne] at hhead
  cases hhead

theorem readsAt_shape_iff (h : Reachable ba) (hsize : ba.getSize < 2 ^ 64)
    (hposition : position < 2 ^ 64) :
    (∀ ba', Reachable ba' → SameShape ba ba' → ReadsAt ba' n position) ↔
      if position + n ≤ ba.getSize then
        ba.getCapacity ≠ 0 ∧ (n = 0 ∨ position / ba.m_baseSize = ba.m_position / ba.m_baseSize)
      else ba.getSize < position → 2 ^ 64 + ba.getSize < position + n := by
  have hrep := reachable_rep h
  have hle := hrep.position_le.trans hrep.size_le
  have hlt : ba.getCapacity ≠ 0 ↔ ba.m_position < ba.m_capacity := by
    unfold getCapacity
    omega
  split_ifs with hn
  · rw [hlt]
    constructor
    · intro hall
      obtain ⟨ba', hreach, hshape, hbytes⟩ :=
        h.withBytes fun i => if i = position then 1 else 0
      have hrep' := reachable_rep hreach
      have hsize' : ba'.getSize = ba.getSize := hshape.size
      have hright := hall ba' hreach hshape
      rw [readsAt_inside hrep' (by omega) (by omega), hshape.position, hshape.capacity] at hright
      refine ⟨hright.1, or_iff_not_imp_left.mpr fun h0 => ?_⟩
      have hstart := readStart_of_bytes hrep' (by omega) h0 (by rw [hbytes, hshape.capacity])
        (by rw [hshape.position, hshape.capacity]; exact hright.1) hright.2
      -- the offset is that of the position, and so the node is that of the position
      rw [readStart, hshape.baseSize, hshape.position] at hstart
      have hsplit := Nat.div_add_mod position ba.m_baseSize
      exact Nat.eq_of_mul_eq_mul_left hrep.base (by omega)
    · rintro ⟨hcur, hnode⟩ ba' hreach hshape
      have hrep' := reachable_rep hreach
      have hsize' : ba'.getSize = ba.getSize := hshape.size
      rw [readsAt_inside hrep' (by omega) (by omega), hshape.position, hshape.capacity]
      refine ⟨hcur, ?_⟩
      rcases hnode with rfl | hnode
      · rw [List.take_zero, List.take_zero]
      · rw [readStart_eq (by rw [hshape.baseSize, hshape.position, hnode]),
          flat_bytes_at (by omega)]
  · constructor
    · intro hall
      exact (readsAt_outside hsize hposition hn).mp (hall ba h ⟨rfl, rfl, rfl, rfl⟩)
    · intro hpast ba' _ hshape
      have hsize' : ba'.getSize = ba.getSize := hshape.size
      rw [readsAt_outside (by omega) hposition (by omega), hsize']
      exact hpast

/-- When the bytes of one state are read, and when those of every state of its shape. -/
theorem readAt_iff (h : Reachable ba) (hsize : ba.getSize < 2 ^ 64) (hposition : position < 2 ^ 64) :
    (ReadsAt ba n position ↔
      if position + n ≤ ba.getSize then
        ba.getCapacity ≠ 0 ∧ ((bytesOf ba.chain).drop (readStart ba position)).take n =
          ((bytesOf ba.chain).drop position).take n
      else ba.getSize < position → 2 ^ 64 + ba.getSize < position + n) ∧
    ((∀ ba', Reachable ba' → SameShape ba ba' → ReadsAt ba' n position) ↔
      if position + n ≤ ba.getSize then
        ba.getCapacity ≠ 0 ∧ (n = 0 ∨ position / ba.m_baseSize = ba.m_position / ba.m_baseSize)
      else ba.getSize < position → 2 ^ 64 + ba.getSize < position + n) := by
  have hrep := reachable_rep h
  have hle := hrep.position_le.trans hrep.size_le
  have hlt : ba.getCapacity ≠ 0 ↔ ba.m_position < ba.m_capacity := by
    unfold getCapacity
    omega
  refine ⟨?_, readsAt_shape_iff h hsize hposition⟩
  split_ifs with hn
  · rw [readsAt_inside hrep hsize hn, hlt, flat_bytes_at hn]
  · exact readsAt_outside hsize hposition hn

end At

/-- A position in the second node, where the current one is. -/
theorem readAt_iff_node :
    ReadsAt (machine.run (new (fun _ _ => 0) 2) [.write [1, 2, 3, 4], .setPosition 3]).2 1 2 :=
  (readAt_iff ((Reachable.new _ (by decide)).run _) (by decide) (by decide)).2.mpr (by decide) _
    ((Reachable.new _ (by decide)).run _) ⟨rfl, rfl, rfl, rfl⟩

/-- The same position with the current one at the start; and one behind the data. -/
theorem not_readsAt_start :
    ∃ ba, Reachable ba ∧ ¬ ReadsAt ba 1 2 ∧ ¬ ReadsAt ba 1 5 := by
  have hreach : Reachable (machine.run (new (fun _ _ => 0) 2)
      [.write [1, 2, 3, 4], .setPosition 0]).2 :=
    (Reachable.new _ (by decide)).run _
  refine ⟨_, hreach, ?_, ?_⟩
  · rw [readsAt_inside (reachable_rep hreach) (by decide) (by decide)]
    exact fun hright => absurd hright.2 (by decide)
  · rw [readsAt_outside (by decide) (by decide) (by decide)]
    decide

/-- `toString` reads at the current position, and gets what is there. -/
theorem toString_spec {ba : ByteArray} (h : Rep ba) (hsize : ba.getSize < 2 ^ 64) :
    ba.toString = .ok (flat ba).unread := by
  have hlength := h.length_unread
  unfold toString
  by_cases h0 : ba.getReadSize = 0
  · rw [if_pos h0, List.length_eq_zero_iff.mp (hlength.trans h0)]
  · have hle := h.size_le
    have hin : ba.m_position + ba.getReadSize ≤ ba.getSize := by
      unfold getReadSize getSize at *
      omega
    have hright : ReadsAt ba ba.getReadSize ba.m_position := by
      refine (readsAt_inside h hsize hin).mpr ⟨by unfold getReadSize at h0; omega, ?_⟩
      rw [readStart_eq rfl, flat_bytes_at hin]
    unfold ReadsAt at hright
    rw [if_pos hin] at hright
    rw [if_neg h0, hright]
    exact congrArg Except.ok (List.take_of_length_le hlength.le)

/-- The buffers are the bytes from `position` on, up to the end of the data, and their number is
returned. -/
def GetsBuffers (ba : ByteArray) (len position : ℕ) : Prop :=
  ∃ iovs, ba.getReadBuffersAt len position = .ok (min len (ba.getSize - position), iovs) ∧
    (iovs.map Iovec.iov_len).sum = min len (ba.getSize - position) ∧
    (gather ba.chain iovs).flatten =
      ((flat ba).bytes.drop position).take (min len (ba.getSize - position))

theorem buffersLoop_null {b : ℕ} : ∀ (chain : List Node) (cur npos len : ℕ), Uniform b chain →
    npos < b → b * chain.length < npos + len → 1 ≤ len →
    buffersLoop chain cur npos len = .error .nullDeref := by
  intro chain
  induction chain with
  | nil =>
    intro cur npos len _ _ _ hlen
    obtain ⟨len, rfl⟩ : ∃ k, len = k + 1 := ⟨len - 1, by omega⟩
    rfl
  | cons node rest ih =>
    intro cur npos len huniform hnpos hpast hlen
    obtain ⟨hsize, -⟩ := huniform node (by simp)
    obtain ⟨len, rfl⟩ : ∃ k, len = k + 1 := ⟨len - 1, by omega⟩
    have hpast' : b * rest.length + b < npos + (len + 1) := hpast
    rw [buffersLoop, hsize, if_neg (by omega), ih (cur + 1) 0 (len + 1 - (b - npos))
      (fun m hm => huniform m (by simp [hm])) (by omega) (by omega) (by omega)]
    rfl

section Buffers

variable {ba : ByteArray} {len position : ℕ}

/-- The walk of the second `getReadBuffers`: over the nodes up to `position`, and into the buffers. -/
theorem buffersAt_spec (h : Rep ba) (hlen : 1 ≤ len) (hroom : position + len ≤ ba.m_capacity) :
    position / ba.m_baseSize < ba.chain.length ∧
    ∃ iovs, buffersLoop (ba.chain.drop (position / ba.m_baseSize)) (position / ba.m_baseSize)
        (position % ba.m_baseSize) len = .ok iovs ∧
      (iovs.map Iovec.iov_len).sum = len ∧
      (gather ba.chain iovs).flatten = ((bytesOf ba.chain).drop position).take len := by
  have hdiv : position / ba.m_baseSize < ba.chain.length := by
    apply Nat.div_lt_of_lt_mul
    rw [← h.capacity]
    omega
  -- as if the position had been set there before
  obtain ⟨iovs, hiovs, htotal, hgather⟩ :=
    buffersFrom_gathers (h.seek (v := position) (by omega)) hlen hroom
  unfold buffersFrom nodeAt at hiovs
  dsimp only at hiovs
  rw [if_pos hdiv] at hiovs
  exact ⟨hdiv, iovs, hiovs, htotal, hgather⟩

theorem buffersAt_null (h : Rep ba) (hlen : 1 ≤ len) (hpast : ba.m_capacity < position + len)
    (hdiv : position / ba.m_baseSize < ba.chain.length) :
    buffersLoop (ba.chain.drop (position / ba.m_baseSize)) (position / ba.m_baseSize)
      (position % ba.m_baseSize) len = .error .nullDeref := by
  have hsplit := Nat.div_add_mod position ba.m_baseSize
  have hmono := Nat.mul_le_mul_left ba.m_baseSize hdiv.le
  refine buffersLoop_null _ _ _ _ (h.nodes.drop _) (Nat.mod_lt _ h.base) ?_ hlen
  rw [List.length_drop, Nat.mul_sub, ← h.capacity] at *
  omega

/-- The length is cut to what is left from the current position on. -/
theorem getReadBuffersAt_iff (h : Reachable ba) (hposition : position ≤ ba.getSize) :
    GetsBuffers ba len position ↔
      position = ba.getPosition ∨ len ≤ ba.getReadSize ∧ len ≤ ba.getSize - position := by
  have hrep := reachable_rep h
  have hle := hrep.position_le
  have hsize := hrep.size_le
  unfold getSize at hposition
  have hcut : (if len > ba.getReadSize then ba.getReadSize else len) = min len ba.getReadSize := by
    split_ifs <;> omega
  have hcond : (position = ba.getPosition ∨ len ≤ ba.getReadSize ∧ len ≤ ba.getSize - position) ↔
      min len ba.getReadSize = min len (ba.getSize - position) := by
    unfold getPosition getReadSize getSize
    omega
  rw [hcond]
  unfold GetsBuffers getReadBuffersAt
  simp only [hcut]
  clear hcond hcut
  generalize min len ba.getReadSize = n
  generalize hm : min len (ba.getSize - position) = m
  have hin : position + m ≤ ba.getSize := by
    unfold getSize at *
    omega
  clear hm
  by_cases h0 : n = 0
  · rw [if_pos h0, h0]
    constructor
    · rintro ⟨iovs, hok, -⟩
      exact congrArg Prod.fst (Except.ok.inj hok)
    · rintro rfl
      exact ⟨[], rfl, rfl, rfl⟩
  rw [if_neg h0]
  by_cases hroom : position + n ≤ ba.m_capacity
  · obtain ⟨hdiv, iovs, hiovs, htotal, hgather⟩ := buffersAt_spec hrep (by omega) hroom
    rw [if_pos hdiv, hiovs]
    constructor
    · rintro ⟨iovs', hok, -⟩
      exact congrArg Prod.fst (Except.ok.inj hok)
    · rintro rfl
      exact ⟨iovs, rfl, htotal, by rw [hgather, flat_bytes_at hin]⟩
  · refine iff_of_false ?_ (by unfold getSize at hin; omega)
    rintro ⟨iovs, hok, -⟩
    split_ifs at hok with hdiv
    rw [buffersAt_null hrep (by omega) (by omega) hdiv] at hok
    cases hok

end Buffers

/-- Two bytes ahead of the current position. -/
theorem getReadBuffersAt_iff_ahead :
    GetsBuffers (machine.run (new (fun _ _ => 0) 2) [.write [1, 2, 3, 4], .setPosition 1]).2 1 3 :=
  (getReadBuffersAt_iff ((Reachable.new _ (by decide)).run _) (by decide)).mpr (.inr (by decide))

/-- All that is left from the current position, but from another one: with four bytes, these walk
past the last node. -/
theorem not_getsBuffers_other :
    ∃ ba, Reachable ba ∧ ¬ GetsBuffers ba 4 2 := by
  refine ⟨(machine.run (new (fun _ _ => 0) 2) [.write [1, 2, 3, 4], .setPosition 0]).2,
    (Reachable.new _ (by decide)).run _, ?_⟩
  rintro ⟨iovs, hok, -⟩
  cases hok

end ByteArray

end Sylar
