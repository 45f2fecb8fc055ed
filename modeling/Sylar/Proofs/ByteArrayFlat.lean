import Sylar.Spec.ByteArray

/-! `ByteArray` refines a flat buffer: a list of bytes with a position in it.
The representation invariant says how the current node, the position, the size
and the capacity hang together; each operation keeps it and acts on the flat
buffer as if there were no nodes. -/

namespace Sylar

open Lib

/-- The buffer a `ByteArray` stands for. -/
structure Flat where
  bytes : List UInt8
  pos : ℕ

namespace Flat

def empty : Flat := ⟨[], 0⟩

def write (f : Flat) (buf : List UInt8) : Flat := ⟨overwrite f.bytes f.pos buf, f.pos + buf.length⟩

def unread (f : Flat) : List UInt8 := f.bytes.drop f.pos

def step (f : Flat) : ByteArray.Op → ByteArray.Out × Flat
  | .write buf => (.done, f.write buf)
  | .read n =>
      if n > f.bytes.length - f.pos then (.failed (.outOfRange "not enough len"), f)
      else (.bytes (f.unread.take n), { f with pos := f.pos + n })
  | .setPosition v => (.done, { f with pos := v })
  | .clear => (.done, empty)

def Allowed (f : Flat) : ByteArray.Op → Prop
  | .read n => 1 ≤ n
  | .setPosition v => v ≤ f.bytes.length
  | _ => True

def machine : Machine Flat ByteArray.Op ByteArray.Out := ⟨step, Allowed⟩

end Flat

namespace ByteArray

def bytesOf (chain : List Node) : List UInt8 := (chain.map Node.ptr).flatten

/-- Every node holds, and says it holds, `b` bytes. -/
def Uniform (b : ℕ) (chain : List Node) : Prop := ∀ n ∈ chain, n.size = b ∧ n.ptr.length = b

structure Rep (ba : ByteArray) : Prop where
  base : 1 ≤ ba.m_baseSize
  root : ba.chain ≠ []
  nodes : Uniform ba.m_baseSize ba.chain
  capacity : ba.m_capacity = ba.m_baseSize * ba.chain.length
  position_le : ba.m_position ≤ ba.m_size
  size_le : ba.m_size ≤ ba.m_capacity
  cur : ba.m_cur =
    if ba.m_position = ba.m_capacity then none else some (ba.m_position / ba.m_baseSize)

def flat (ba : ByteArray) : Flat := ⟨(bytesOf ba.chain).take ba.m_size, ba.m_position⟩

def Frame (ba ba' : ByteArray) : Prop :=
  ba'.m_endian = ba.m_endian ∧ ba'.m_baseSize = ba.m_baseSize

theorem Uniform.blocks {b : ℕ} {chain : List Node} (h : Uniform b chain) :
    ∀ l ∈ chain.map Node.ptr, l.length = b := by
  intro l hl
  obtain ⟨n, hn, rfl⟩ := List.mem_map.mp hl
  exact (h n hn).2

theorem Uniform.length_bytesOf {b : ℕ} {chain : List Node} (h : Uniform b chain) :
    (bytesOf chain).length = b * chain.length := by
  rw [bytesOf, length_flatten_blocks h.blocks, List.length_map]

theorem Uniform.append {b : ℕ} {c₁ c₂ : List Node} (h₁ : Uniform b c₁) (h₂ : Uniform b c₂) :
    Uniform b (c₁ ++ c₂) := by
  intro n hn
  rcases List.mem_append.mp hn with h | h
  · exact h₁ n h
  · exact h₂ n h

theorem Uniform.take {b : ℕ} {chain : List Node} (h : Uniform b chain) (i : ℕ) :
    Uniform b (chain.take i) := fun n hn => h n (List.mem_of_mem_take hn)

theorem Uniform.drop {b : ℕ} {chain : List Node} (h : Uniform b chain) (i : ℕ) :
    Uniform b (chain.drop i) := fun n hn => h n (List.mem_of_mem_drop hn)

theorem uniform_ofBlock (b : ℕ) (block : ℕ → UInt8) :
    (Node.ofBlock b block).size = b ∧ (Node.ofBlock b block).ptr.length = b := by
  simp [Node.ofBlock]

theorem bytesOf_append (c₁ c₂ : List Node) : bytesOf (c₁ ++ c₂) = bytesOf c₁ ++ bytesOf c₂ := by
  simp [bytesOf]

theorem bytesOf_cons (n : Node) (c : List Node) : bytesOf (n :: c) = n.ptr ++ bytesOf c := by
  simp [bytesOf]

theorem bytesOf_drop {b : ℕ} {chain : List Node} (h : Uniform b chain) {i : ℕ}
    (hi : i ≤ chain.length) : bytesOf (chain.drop i) = (bytesOf chain).drop (b * i) := by
  rw [bytesOf, bytesOf, drop_flatten_blocks h.blocks i (by simpa using hi), List.map_drop]

/-- A position that is a node's number times the base size plus an offset in it:
the pointer to that node is null exactly at the end of the capacity. -/
theorem nodeAt_div {b pos : ℕ} (chain : List Node) (hb : 1 ≤ b) (hpos : pos ≤ b * chain.length) :
    nodeAt chain (pos / b) = if pos = b * chain.length then none else some (pos / b) := by
  unfold nodeAt
  by_cases h : pos = b * chain.length
  · rw [if_pos h, if_neg]
    rw [h, Nat.mul_div_cancel_left _ hb]
    exact lt_irrefl _
  · rw [if_neg h, if_pos]
    rw [Nat.div_lt_iff_lt_mul hb, Nat.mul_comm]
    omega

theorem moved_within {b x : ℕ} (hb : 1 ≤ b) (hx : x ≤ b) : (if b = x then 1 else 0) = x / b := by
  split_ifs with h
  · rw [← h, Nat.div_self hb]
  · rw [Nat.div_eq_of_lt (by omega)]

theorem moved_past {b x y : ℕ} (hb : 1 ≤ b) (h : y = x + b) : x / b + 1 = y / b := by
  rw [h, Nat.add_div_right _ hb]

theorem moved_total {b pos n : ℕ} (hb : 1 ≤ b) : pos / b + (pos % b + n) / b = (pos + n) / b := by
  conv_rhs => rw [← Nat.div_add_mod pos b, Nat.add_assoc, Nat.mul_add_div (by omega)]

/-- The copying loop of `write`, started inside a node with room for all of `buf`. -/
theorem writeLoop_spec {b : ℕ} (hb : 1 ≤ b) : ∀ (chain : List Node) (npos : ℕ) (buf : List UInt8),
    Uniform b chain → buf ≠ [] → npos < b → npos + buf.length ≤ b * chain.length →
    ∃ chain', writeLoop chain npos buf = .ok (chain', (npos + buf.length) / b) ∧
      Uniform b chain' ∧ chain'.length = chain.length ∧
      bytesOf chain' = overwrite (bytesOf chain) npos buf := by
  intro chain
  induction chain with
  | nil =>
    intro npos buf _ hne _ hroom
    have := List.length_pos_iff.mpr hne
    simp only [List.length_nil, Nat.mul_zero] at hroom
    omega
  | cons node rest ih =>
    intro npos buf hu hne hnpos hroom
    obtain ⟨x, xs, rfl⟩ := List.exists_cons_of_ne_nil hne
    set buf := x :: xs with hbuf
    obtain ⟨hsize, hptr⟩ := hu node (by simp)
    have hrest : Uniform b rest := fun n hn => hu n (by simp [hn])
    have hstore : ∀ bs : List UInt8, npos + bs.length ≤ b →
        (node.store npos bs).size = b ∧ (node.store npos bs).ptr.length = b := fun bs hbs =>
      ⟨hsize, by rw [Node.store, length_overwrite (by omega), hptr]⟩
    rw [writeLoop, ← hbuf, hsize]
    by_cases hfit : b - npos ≥ buf.length
    · -- the rest of the bytes fits into this node
      have hle : npos + buf.length ≤ b := by omega
      refine ⟨node.store npos buf :: rest, ?_, ?_, rfl, ?_⟩
      · simp only [if_pos hfit, moved_within hb hle]
      · intro n hn
        rcases List.mem_cons.mp hn with rfl | hn
        · exact hstore buf hle
        · exact hrest n hn
      · rw [bytesOf_cons, bytesOf_cons, overwrite_append_left _ (by omega)]
        rfl
    · -- this node is filled up and the loop goes on at the start of the next
      have hlen : (buf.drop (b - npos)).length = buf.length - (b - npos) := List.length_drop
      have htake : (buf.take (b - npos)).length = b - npos := by
        rw [List.length_take]
        omega
      have hroom' : npos + buf.length ≤ b * rest.length + b := hroom
      obtain ⟨rest', hloop, hu', hlen', hbytes⟩ := ih 0 (buf.drop (b - npos)) hrest
        (by intro h; rw [h, List.length_nil] at hlen; omega) hb (by omega)
      refine ⟨node.store npos (buf.take (b - npos)) :: rest', ?_, ?_, ?_, ?_⟩
      · simp only [if_neg hfit, hloop]
        change Except.ok (_, _ + 1) = _
        rw [moved_past hb (show npos + buf.length = 0 + (buf.drop (b - npos)).length + b by omega)]
      · intro n hn
        rcases List.mem_cons.mp hn with rfl | hn
        · exact hstore _ (by omega)
        · exact hu' n hn
      · simp only [List.length_cons, hlen']
      · rw [bytesOf_cons, bytesOf_cons, hbytes,
          overwrite_append_split _ (by omega) (by omega), hptr]
        rfl

theorem readLoop_spec {b : ℕ} (hb : 1 ≤ b) : ∀ (chain : List Node) (npos n : ℕ),
    Uniform b chain → npos < b → npos + n ≤ b * chain.length →
    readLoop chain npos n = .ok (((bytesOf chain).drop npos).take n, (npos + n) / b) := by
  intro chain
  induction chain with
  | nil =>
    intro npos n _ hnpos hroom
    simp only [List.length_nil, Nat.mul_zero] at hroom
    obtain ⟨rfl, rfl⟩ : npos = 0 ∧ n = 0 := by omega
    simp [readLoop]
  | cons node rest ih =>
    intro npos n hu hnpos hroom
    obtain ⟨hsize, hptr⟩ := hu node (by simp)
    have hrest : Uniform b rest := fun n hn => hu n (by simp [hn])
    cases n with
    | zero => simp [readLoop, Nat.div_eq_of_lt hnpos]
    | succ n =>
      have hroom' : npos + (n + 1) ≤ b * rest.length + b := hroom
      have hnode : (node.ptr.drop npos).length = b - npos := by rw [List.length_drop, hptr]
      have hdrop : (bytesOf (node :: rest)).drop npos = node.ptr.drop npos ++ bytesOf rest := by
        rw [bytesOf_cons, List.drop_append_of_le_length (by omega)]
      rw [readLoop, hsize, hdrop]
      by_cases hfit : b - npos ≥ n + 1
      · simp only [if_pos hfit, Node.load]
        rw [moved_within hb (show npos + (n + 1) ≤ b by omega),
          List.take_append_of_le_length (by omega)]
      · simp only [if_neg hfit]
        rw [ih 0 (n + 1 - (b - npos)) hrest hb (by omega)]
        change Except.ok (_, _ + 1) = _
        rw [moved_past hb (show npos + (n + 1) = 0 + (n + 1 - (b - npos)) + b by omega)]
        rw [List.take_append, hnode, List.drop_zero, Node.load,
          List.take_of_length_le (l := node.ptr.drop npos) (i := b - npos) (by omega),
          List.take_of_length_le (l := node.ptr.drop npos) (i := n + 1) (by omega)]

theorem seekLoop_spec {b : ℕ} (hb : 1 ≤ b) : ∀ (chain : List Node) (v : ℕ),
    Uniform b chain → chain ≠ [] → v ≤ b * chain.length → seekLoop chain v = .ok (v / b) := by
  intro chain
  induction chain with
  | nil => intro v _ hne _; exact absurd rfl hne
  | cons node rest ih =>
    intro v hu _ hv
    obtain ⟨hsize, -⟩ := hu node (by simp)
    have hrest : Uniform b rest := fun n hn => hu n (by simp [hn])
    rw [seekLoop, hsize]
    by_cases hgt : v > b
    · have hv' : v ≤ b * rest.length + b := hv
      have hne : rest ≠ [] := by
        rintro rfl
        simp only [List.length_nil, Nat.mul_zero] at hv'
        omega
      rw [if_pos hgt, ih (v - b) hrest hne (by omega)]
      change Except.ok (_ + 1) = _
      rw [moved_past hb (show v = v - b + b by omega)]
    · rw [if_neg hgt]
      simp only [eq_comm (a := v), moved_within hb (show v ≤ b by omega)]

theorem Rep.length_flat {ba : ByteArray} (h : Rep ba) : (flat ba).bytes.length = ba.m_size := by
  have := h.size_le
  rw [h.capacity, ← h.nodes.length_bytesOf] at this
  rw [flat, List.length_take, Nat.min_eq_left this]

theorem Rep.length_unread {ba : ByteArray} (h : Rep ba) :
    (flat ba).unread.length = ba.getReadSize := by
  rw [Flat.unread, List.length_drop, h.length_flat]
  rfl

/-- Inside the capacity the current node exists, and the chain from it on holds
the capacity that is left. -/
theorem Rep.cur_some {ba : ByteArray} (h : Rep ba) (hlt : ba.m_position < ba.m_capacity) :
    ba.m_cur = some (ba.m_position / ba.m_baseSize) ∧
    ba.m_position / ba.m_baseSize ≤ ba.chain.length ∧
    ba.m_position % ba.m_baseSize + (ba.m_capacity - ba.m_position) =
      ba.m_baseSize * (ba.chain.drop (ba.m_position / ba.m_baseSize)).length := by
  have hdiv : ba.m_position / ba.m_baseSize ≤ ba.chain.length := by
    rw [h.capacity] at hlt
    exact (Nat.div_lt_of_lt_mul hlt).le
  refine ⟨by rw [h.cur, if_neg hlt.ne], hdiv, ?_⟩
  have hsplit := Nat.div_add_mod ba.m_position ba.m_baseSize
  have hmono := Nat.mul_le_mul_left ba.m_baseSize hdiv
  rw [List.length_drop, Nat.mul_sub, ← h.capacity] at *
  omega

/-- Bytes that are stored from the current node on, in the whole of the chain. -/
theorem Rep.bytesOf_overwrite {ba : ByteArray} (h : Rep ba) {tail : List Node} {buf : List UInt8}
    (hdiv : ba.m_position / ba.m_baseSize ≤ ba.chain.length)
    (hbytes : bytesOf tail = overwrite (bytesOf (ba.chain.drop (ba.m_position / ba.m_baseSize)))
      (ba.m_position % ba.m_baseSize) buf) :
    bytesOf (ba.chain.take (ba.m_position / ba.m_baseSize) ++ tail) =
      overwrite (bytesOf ba.chain) ba.m_position buf := by
  conv_rhs => rw [← Nat.div_add_mod ba.m_position ba.m_baseSize, bytesOf,
    overwrite_flatten_blocks h.nodes.blocks _ _ (by simpa using hdiv), ← List.map_take,
    ← List.map_drop]
  rw [bytesOf_append, hbytes]
  rfl

theorem new_rep (heap : ℕ → ℕ → UInt8) {b : ℕ} (hb : 1 ≤ b) :
    Rep (new heap b) ∧ flat (new heap b) = Flat.empty := by
  refine ⟨⟨hb, by simp [new], ?_, by simp [new], by simp [new], by simp [new], ?_⟩,
    by simp [new, flat, Flat.empty]⟩
  · intro n hn
    rw [new, List.mem_singleton] at hn
    rw [hn]
    exact uniform_ofBlock b _
  · have : (0 : ℕ) ≠ b := by omega
    simp [new, this]

theorem clear_rep {ba : ByteArray} (h : Rep ba) : Rep ba.clear ∧ flat ba.clear = Flat.empty := by
  have hlen : (ba.chain.take 1).length = 1 := by
    have := List.length_pos_iff.mpr h.root
    rw [List.length_take]
    omega
  refine ⟨⟨h.base, ?_, h.nodes.take 1, ?_, le_rfl, Nat.zero_le _, ?_⟩, by simp [clear, flat, Flat.empty]⟩
  · intro hnil
    simp only [clear] at hnil
    simp [hnil] at hlen
  · simp only [clear, hlen, Nat.mul_one]
  · have : (0 : ℕ) ≠ ba.m_baseSize := by have := h.base; omega
    simp [clear, this]

theorem ceil_div_spec {b n : ℕ} (hb : 1 ≤ b) : n ≤ b * ((n + b - 1) / b) := by
  have h := Nat.div_add_mod (n + b - 1) b
  have := Nat.mod_lt (n + b - 1) hb
  omega

theorem addCapacity_rep {ba : ByteArray} (h : Rep ba) (size : ℕ) :
    Rep (ba.addCapacity size) ∧ flat (ba.addCapacity size) = flat ba ∧
    (ba.addCapacity size).m_position = ba.m_position ∧ (ba.addCapacity size).m_size = ba.m_size ∧
    Frame ba (ba.addCapacity size) ∧
    ba.m_position + size ≤ (ba.addCapacity size).m_capacity := by
  have hpc := h.position_le.trans h.size_le
  unfold addCapacity
  by_cases h0 : size = 0
  · rw [if_pos h0]
    exact ⟨h, rfl, rfl, rfl, ⟨rfl, rfl⟩, by omega⟩
  rw [if_neg h0]
  dsimp only
  by_cases hcap : ba.getCapacity ≥ size
  · rw [if_pos hcap]
    refine ⟨h, rfl, rfl, rfl, ⟨rfl, rfl⟩, ?_⟩
    unfold getCapacity at hcap
    omega
  rw [if_neg hcap]
  set count := (size - ba.getCapacity + ba.m_baseSize - 1) / ba.m_baseSize with hcount
  set fresh := (List.range count).map fun k => Node.ofBlock ba.m_baseSize (ba.heap k) with hfresh
  have hcov : size - ba.getCapacity ≤ ba.m_baseSize * count := ceil_div_spec h.base
  have hflen : fresh.length = count := by simp [hfresh]
  have hfu : Uniform ba.m_baseSize fresh := by
    intro n hn
    obtain ⟨k, -, rfl⟩ := List.mem_map.mp hn
    exact uniform_ofBlock _ _
  have hcapeq : ba.m_capacity + count * ba.m_baseSize =
      ba.m_baseSize * (ba.chain ++ fresh).length := by
    rw [List.length_append, hflen, h.capacity]
    ring
  have hnew : ba.m_position + size ≤ ba.m_capacity + count * ba.m_baseSize := by
    unfold getCapacity at hcap hcov
    rw [Nat.mul_comm] at hcov
    omega
  refine ⟨⟨h.base, by simp [h.root], h.nodes.append hfu, hcapeq, h.position_le, ?_, ?_⟩,
    ?_, rfl, rfl, ⟨rfl, rfl⟩, hnew⟩
  · exact h.size_le.trans (Nat.le_add_right _ _)
  · -- the cursor stays, or, where it was null, becomes the first new node
    have hne : ba.m_position ≠ ba.m_capacity + count * ba.m_baseSize := by omega
    dsimp only
    rw [if_neg hne]
    by_cases hold : ba.getCapacity = 0
    · have hpos : ba.m_position = ba.m_capacity := by unfold getCapacity at hold; omega
      rw [if_pos hold, hpos, h.capacity, Nat.mul_div_cancel_left _ h.base, nodeAt, if_pos]
      have : count ≠ 0 := by rintro h; rw [h] at hnew; omega
      rw [List.length_append, hflen]
      omega
    · have hpos : ba.m_position ≠ ba.m_capacity := by unfold getCapacity at hold; omega
      rw [if_neg hold, h.cur, if_neg hpos]
  · have hlen : ba.m_size ≤ (bytesOf ba.chain).length := by
      rw [h.nodes.length_bytesOf, ← h.capacity]
      exact h.size_le
    simp only [flat, bytesOf_append, List.take_append_of_le_length hlen]

theorem write_spec {ba : ByteArray} (h : Rep ba) (buf : List UInt8) :
    ∃ ba', ba.write buf = .ok ba' ∧ Rep ba' ∧ flat ba' = (flat ba).write buf ∧
      Frame ba ba' := by
  by_cases h0 : buf.length = 0
  · have : buf = [] := List.length_eq_zero_iff.mp h0
    subst this
    exact ⟨ba, rfl, h, by simp [Flat.write], rfl, rfl⟩
  have hne : buf ≠ [] := fun hnil => h0 (by simp [hnil])
  obtain ⟨hr, hflat, hpos, hsize, ⟨hend, hbase⟩, hroom⟩ := addCapacity_rep h buf.length
  unfold write Frame
  rw [if_neg h0]
  rw [← hflat, ← hend, ← hbase]
  rw [← hpos] at hroom
  clear hflat hend hbase hpos hsize
  -- from here on the array is the one with the capacity added
  generalize ba.addCapacity buf.length = ba at *
  obtain ⟨hcur, hdiv, hleft⟩ := hr.cur_some (by omega)
  have hmod : ba.m_position % ba.m_baseSize < ba.m_baseSize := Nat.mod_lt _ hr.base
  obtain ⟨tail, hloop, hu, hlen, hbytes⟩ := writeLoop_spec hr.base _ _ buf
    (hr.nodes.drop (ba.m_position / ba.m_baseSize)) hne hmod (by omega)
  simp only [hcur, hloop]
  refine ⟨_, rfl, ?_, ?_, rfl, rfl⟩
  all_goals
    set chain := ba.chain.take (ba.m_position / ba.m_baseSize) ++ tail with hchain
    have hclen : chain.length = ba.chain.length := by
      rw [hchain, List.length_append, hlen, List.length_take, List.length_drop]
      omega
  · refine ⟨hr.base, ?_, (hr.nodes.take _).append hu, ?_, ?_, ?_, ?_⟩
    · intro hnil
      have := List.length_pos_iff.mpr hr.root
      rw [← hclen] at this
      exact absurd (List.length_eq_zero_iff.mpr hnil) (by dsimp only; omega)
    · exact hr.capacity.trans (by rw [hclen])
    · dsimp only; split_ifs <;> omega
    · have := hr.size_le
      dsimp only; split_ifs <;> omega
    · dsimp only
      rw [moved_total hr.base, nodeAt_div chain hr.base (by rw [hclen, ← hr.capacity]; exact hroom), hclen,
        ← hr.capacity]
  · have hall : bytesOf chain = overwrite (bytesOf ba.chain) ba.m_position buf :=
      hr.bytesOf_overwrite hdiv hbytes
    have hmax : (if ba.m_position + buf.length > ba.m_size then ba.m_position + buf.length
        else ba.m_size) = max ba.m_size (ba.m_position + buf.length) := by
      split_ifs <;> omega
    have hcapl : ba.m_size ≤ (bytesOf ba.chain).length := by
      rw [hr.nodes.length_bytesOf, ← hr.capacity]
      exact hr.size_le
    simp only [flat, Flat.write, hmax, hall, take_overwrite hr.position_le hcapl]

/-- Also no bytes at all can be read, where there is a current node. -/
theorem read_within {ba : ByteArray} (h : Rep ba) (hlt : ba.m_position < ba.m_capacity) {n : ℕ}
    (hn : n ≤ ba.getReadSize) :
    ∃ ba', ba.read n = .ok ((flat ba).unread.take n, ba') ∧ Rep ba' ∧
      flat ba' = { flat ba with pos := (flat ba).pos + n } ∧ Frame ba ba' := by
  have hsize := h.size_le
  have hposition := h.position_le
  unfold getReadSize at hn
  obtain ⟨hcur, hdiv, hleft⟩ := h.cur_some hlt
  have hmod : ba.m_position % ba.m_baseSize < ba.m_baseSize := Nat.mod_lt _ h.base
  have hloop := readLoop_spec h.base _ _ n (h.nodes.drop (ba.m_position / ba.m_baseSize)) hmod
    (by omega)
  unfold read
  rw [if_neg (by unfold getReadSize; omega)]
  -- the bytes read out of the chain are those of the flat buffer
  have hbytes : ((bytesOf (ba.chain.drop (ba.m_position / ba.m_baseSize))).drop
      (ba.m_position % ba.m_baseSize)).take n = (flat ba).unread.take n := by
    rw [bytesOf_drop h.nodes hdiv, List.drop_drop, Nat.div_add_mod]
    rw [flat, Flat.unread, List.drop_take, List.take_take, Nat.min_eq_left (by omega)]
  rw [hbytes] at hloop
  simp only [hcur, hloop]
  refine ⟨{ ba with
    m_cur := nodeAt ba.chain (ba.m_position / ba.m_baseSize +
      (ba.m_position % ba.m_baseSize + n) / ba.m_baseSize)
    m_position := ba.m_position + n }, rfl, ?_, rfl, rfl, rfl⟩
  refine ⟨h.base, h.root, h.nodes, h.capacity, by dsimp only; omega, h.size_le, ?_⟩
  dsimp only
  rw [moved_total h.base, nodeAt_div ba.chain h.base (by rw [← h.capacity]; omega), ← h.capacity]

theorem read_spec {ba : ByteArray} (h : Rep ba) {n : ℕ} (h1 : 1 ≤ n) (hn : n ≤ ba.getReadSize) :
    ∃ ba', ba.read n = .ok ((flat ba).unread.take n, ba') ∧ Rep ba' ∧
      flat ba' = { flat ba with pos := (flat ba).pos + n } ∧ Frame ba ba' := by
  have hsize := h.size_le
  refine read_within h ?_ hn
  unfold getReadSize at hn
  omega

theorem Rep.setPosition_eq {ba : ByteArray} (h : Rep ba) {v : ℕ} (hv : v ≤ ba.m_capacity) :
    ba.setPosition v = .ok { ba with
      m_position := v
      m_size := if v > ba.m_size then v else ba.m_size
      m_cur := nodeAt ba.chain (v / ba.m_baseSize) } := by
  unfold setPosition
  rw [if_neg (Nat.not_lt.mpr hv),
    seekLoop_spec h.base ba.chain v h.nodes h.root (by rw [← h.capacity]; exact hv)]
  rfl

theorem Rep.seek {ba : ByteArray} (h : Rep ba) {v : ℕ} (hv : v ≤ ba.m_capacity) :
    Rep { ba with
      m_position := v
      m_size := if v > ba.m_size then v else ba.m_size
      m_cur := nodeAt ba.chain (v / ba.m_baseSize) } := by
  have hsize := h.size_le
  refine ⟨h.base, h.root, h.nodes, h.capacity, ?_, ?_, ?_⟩
  · dsimp only; split_ifs <;> omega
  · dsimp only; split_ifs <;> omega
  · dsimp only
    rw [nodeAt_div ba.chain h.base (by rw [← h.capacity]; exact hv), ← h.capacity]

theorem setPosition_spec {ba : ByteArray} (h : Rep ba) {v : ℕ} (hv : v ≤ ba.getSize) :
    ∃ ba', ba.setPosition v = .ok ba' ∧ Rep ba' ∧ flat ba' = { flat ba with pos := v } ∧
      Frame ba ba' := by
  have hcap : v ≤ ba.m_capacity := le_trans hv h.size_le
  refine ⟨_, h.setPosition_eq hcap, h.seek hcap, ?_, rfl, rfl⟩
  have hmax : (if v > ba.m_size then v else ba.m_size) = ba.m_size := if_neg (Nat.not_lt.mpr hv)
  simp only [flat, hmax]

/-- One operation: the same answer as the flat buffer, and the invariant again. -/
theorem step_flat {ba : ByteArray} (h : Rep ba) (o : Op) (ho : Allowed ba o) :
    (ba.step o).1 = ((flat ba).step o).1 ∧ Rep (ba.step o).2 ∧
      flat (ba.step o).2 = ((flat ba).step o).2 ∧ Frame ba (ba.step o).2 := by
  cases o with
  | write buf =>
    obtain ⟨ba', hw, hr, hf, hframe⟩ := write_spec h buf
    simp only [step, hw]
    exact ⟨rfl, hr, hf, hframe⟩
  | read n =>
    by_cases hn : n ≤ ba.getReadSize
    · obtain ⟨ba', hread, hr, hf, hframe⟩ := read_spec h ho hn
      have hflat : ¬ n > (flat ba).bytes.length - (flat ba).pos := by
        rw [h.length_flat]
        exact Nat.not_lt.mpr hn
      have hstep : ba.step (.read n) = (.bytes ((flat ba).unread.take n), ba') := by
        simp only [step, hread]
      rw [hstep, Flat.step, if_neg hflat]
      exact ⟨rfl, hr, hf, hframe⟩
    · have hflat : n > (flat ba).bytes.length - (flat ba).pos := by
        rw [h.length_flat]
        exact Nat.not_le.mp hn
      have hread : ba.read n = .error (.outOfRange "not enough len") := by
        unfold read
        rw [if_pos (by omega)]
      have hstep : ba.step (.read n) = (.failed (.outOfRange "not enough len"), ba) := by
        simp only [step, hread]
      rw [hstep, Flat.step, if_pos hflat]
      exact ⟨rfl, h, rfl, rfl, rfl⟩
  | setPosition v =>
    obtain ⟨ba', hs, hr, hf, hframe⟩ := setPosition_spec h ho
    simp only [step, hs]
    exact ⟨rfl, hr, hf, hframe⟩
  | clear =>
    obtain ⟨hr, hf⟩ := clear_rep h
    exact ⟨rfl, hr, hf, rfl, rfl⟩

/-- The flat buffer a reachable array stands for, under the invariant. -/
def Refines (b : ℕ) (ba : ByteArray) (f : Flat) : Prop :=
  Rep ba ∧ flat ba = f ∧ ba.m_baseSize = b

theorem new_refines (heap : ℕ → ℕ → UInt8) {b : ℕ} (hb : 1 ≤ b) :
    Refines b (new heap b) Flat.empty :=
  ⟨(new_rep heap hb).1, (new_rep heap hb).2, rfl⟩

theorem step_refines {b : ℕ} {ba : ByteArray} {f : Flat} (h : Refines b ba f) (o : Op)
    (ho : Allowed ba o) :
    (ba.step o).1 = (f.step o).1 ∧ Refines b (ba.step o).2 (f.step o).2 := by
  obtain ⟨hr, rfl, hb⟩ := h
  obtain ⟨hout, hr', hf', -, hbase⟩ := step_flat hr o ho
  exact ⟨hout, hr', hf', hbase.trans hb⟩

theorem run_refines (heap : ℕ → ℕ → UInt8) {b : ℕ} (hb : 1 ≤ b) (ops : List Op)
    (hops : machine.Admissible (new heap b) ops) :
    (machine.run (new heap b) ops).1 = (Flat.machine.run Flat.empty ops).1 ∧
    Refines b (machine.run (new heap b) ops).2 (Flat.machine.run Flat.empty ops).2 :=
  machine.run_sim Flat.machine (Refines b) (fun _ _ o h ho => step_refines h o ho) ops _ _
    (new_refines heap hb) hops

theorem admissible_iff_flat (heap : ℕ → ℕ → UInt8) {b : ℕ} (hb : 1 ≤ b) (ops : List Op) :
    machine.Admissible (new heap b) ops ↔ Flat.machine.Admissible Flat.empty ops := by
  refine machine.admissible_sim Flat.machine (Refines b) ?_
    (fun _ _ o h ho => (step_refines h o ho).2) ops _ _ (new_refines heap hb)
  rintro ba _ o ⟨hr, rfl, -⟩
  cases o with
  | setPosition v =>
    change v ≤ ba.getSize ↔ v ≤ (flat ba).bytes.length
    rw [hr.length_flat, getSize]
  | _ => rfl

/-- Every run answers as the flat buffer does, whatever the base size and the
contents of fresh memory, and ends in a state where the four views of the
position agree. -/
theorem linked_nodes_refine_flat (heap : ℕ → ℕ → UInt8) (base_size : ℕ) (hb : 1 ≤ base_size)
    (ops : List Op) (hops : machine.Admissible (new heap base_size) ops) :
    (machine.run (new heap base_size) ops).1 = (Flat.machine.run Flat.empty ops).1 ∧
    flat (machine.run (new heap base_size) ops).2 = (Flat.machine.run Flat.empty ops).2 ∧
    (∀ (heap' : ℕ → ℕ → UInt8) (base_size' : ℕ), 1 ≤ base_size' →
      machine.Admissible (new heap' base_size') ops ∧
      (machine.run (new heap' base_size') ops).1 = (machine.run (new heap base_size) ops).1) ∧
    (let ba := (machine.run (new heap base_size) ops).2;
      ba.m_capacity = base_size * ba.chain.length ∧
      ba.m_position ≤ ba.m_size ∧ ba.m_size ≤ ba.m_capacity ∧
      ba.m_cur =
        if ba.m_position = ba.m_capacity then none else some (ba.m_position / base_size)) := by
  obtain ⟨hout, hrep, hflat, hbase⟩ := run_refines heap hb ops hops
  refine ⟨hout, hflat, ?_, ?_, hrep.position_le, hrep.size_le, ?_⟩
  · intro heap' base_size' hb'
    have hops' : machine.Admissible (new heap' base_size') ops :=
      (admissible_iff_flat heap' hb' ops).mpr ((admissible_iff_flat heap hb ops).mp hops)
    exact ⟨hops', (run_refines heap' hb' ops hops').1.trans hout.symm⟩
  · rw [hrep.capacity, hbase]
  · rw [hrep.cur, hbase]

/-- Overwriting, a short read, and a refilled array over nodes of two bytes. -/
theorem linked_nodes_refine_flat_two :
    (machine.run (new (fun _ _ => 0xEE) 2)
      [.write [1, 2, 3], .setPosition 1, .write [7], .read 1, .read 1, .clear, .write [9]]).1 =
      (Flat.machine.run Flat.empty
        [.write [1, 2, 3], .setPosition 1, .write [7], .read 1, .read 1, .clear, .write [9]]).1 :=
  (linked_nodes_refine_flat (fun _ _ => 0xEE) 2 (by decide) _ (by decide)).1

end ByteArray

end Sylar
