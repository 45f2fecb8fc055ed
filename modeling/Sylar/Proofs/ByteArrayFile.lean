import Sylar.Proofs.ByteArrayReads

/-! `writeToFile` and `readFromFile`. The loop of `writeToFile` takes the offset in the current
node off the length that is left, also where this is less than a node: then it stops short and
goes on in the next node, which may not be there. To see it, one byte marks a place of the
content: what the loop writes for it comes from another. -/

namespace Sylar

open Lib

namespace ByteArray

/-- The file gets the bytes that are unread, which are those of `toString`. -/
def WritesUnread (ba : ByteArray) : Prop :=
  ba.writeToFile true = .ok (some (flat ba).unread) ∧ ba.toString = .ok (flat ba).unread

/-- Nothing is left, or the position is at the start of a node, or a whole node is left and the
offset is an `int`. -/
def Fileable (ba : ByteArray) : Prop :=
  ba.getReadSize = 0 ∨ ba.getPosition % ba.m_baseSize = 0 ∨
    ba.m_baseSize ≤ ba.getReadSize ∧ ba.getPosition % ba.m_baseSize < 2 ^ 31

theorem toInt_nat {x d : ℕ} (h : SocketStream.toInt x = d) : d ≤ x ∧ d < 2 ^ 31 := by
  unfold SocketStream.toInt at h
  rw [Int.bmod_def] at h
  omega

section Loop

variable {b pos n : ℕ} {node : Node} {rest : List Node}

theorem writeFileLoop_cons (hn : 1 ≤ n) {d : ℕ} (hd : SocketStream.toInt (pos % b) = d) :
    writeFileLoop b (node :: rest) pos n =
      if min n b < d then .error .undefined
      else (do
        let bytes ← writeFileLoop b rest (pos + (min n b - d)) (n - (min n b - d))
        .ok (node.load d (min n b - d) ++ bytes)) := by
  obtain ⟨n, rfl⟩ : ∃ k, n = k + 1 := ⟨n - 1, by omega⟩
  have hmin : (if n + 1 > b then b else n + 1) = min (n + 1) b := by
    split_ifs <;> omega
  rw [writeFileLoop, hd, hmin, Int.toNat_natCast, Int.toNat_sub]
  by_cases hlt : min (n + 1) b < d
  · rw [if_pos (by omega), if_pos hlt]
  · rw [if_neg (by omega), if_neg hlt]

/-- What a loop that comes to its end has done in its first node. -/
theorem writeFileLoop_inv (hn : 1 ≤ n) {bytes : List UInt8}
    (h : writeFileLoop b (node :: rest) pos n = .ok bytes) :
    ∃ d more, SocketStream.toInt (pos % b) = (d : ℕ) ∧ d ≤ min n b ∧
      writeFileLoop b rest (pos + (min n b - d)) (n - (min n b - d)) = .ok more ∧
      bytes = node.load d (min n b - d) ++ more := by
  by_cases hneg : SocketStream.toInt (pos % b) < 0
  · obtain ⟨n, rfl⟩ : ∃ k, n = k + 1 := ⟨n - 1, by omega⟩
    rw [writeFileLoop, if_pos (.inl hneg)] at h
    cases h
  · obtain ⟨d, hd⟩ := Int.eq_ofNat_of_zero_le (Int.not_lt.mp hneg)
    rw [writeFileLoop_cons hn hd] at h
    split_ifs at h with hlt
    obtain ⟨more, hmore, hbytes⟩ := ok_of_bind h
    exact ⟨d, more, hd, Nat.not_lt.mp hlt, hmore, (Except.ok.inj hbytes).symm⟩

theorem writeFileLoop_zero (chain : List Node) : writeFileLoop b chain pos 0 = .ok [] := by
  cases chain <;> rfl

theorem writeFileLoop_nil (hn : 1 ≤ n) : writeFileLoop b [] pos n = .error .nullDeref := by
  obtain ⟨n, rfl⟩ : ∃ k, n = k + 1 := ⟨n - 1, by omega⟩
  rfl

end Loop

theorem writeFileLoop_aligned {b : ℕ} (hb : 1 ≤ b) : ∀ (chain : List Node) (pos n : ℕ),
    Uniform b chain → pos % b = 0 → n ≤ b * chain.length →
    writeFileLoop b chain pos n = .ok ((bytesOf chain).take n) := by
  intro chain
  induction chain with
  | nil =>
    intro pos n _ _ hroom
    obtain rfl : n = 0 := by simpa using hroom
    rfl
  | cons node rest ih =>
    intro pos n huniform hpos hroom
    obtain ⟨-, hptr⟩ := huniform node (by simp)
    have hrest : Uniform b rest := fun m hm => huniform m (by simp [hm])
    have hroom' : n ≤ b * rest.length + b := hroom
    by_cases h0 : n = 0
    · rw [h0]
      rfl
    have hd : SocketStream.toInt (pos % b) = (0 : ℕ) := by rw [hpos]; rfl
    rw [writeFileLoop_cons (by omega) hd, if_neg (by omega), Nat.sub_zero, bytesOf_cons]
    have hload : node.load 0 (min n b) = node.ptr.take n := by
      rw [Node.load, List.drop_zero, ← hptr, ← List.take_take, List.take_length]
    by_cases hfit : n ≤ b
    · rw [hload, Nat.min_eq_left hfit, Nat.sub_self, writeFileLoop_zero,
        List.take_append_of_le_length (by omega)]
      exact congrArg Except.ok (List.append_nil _)
    · rw [hload, Nat.min_eq_right (by omega),
        ih _ _ hrest (by rw [Nat.add_mod_right, hpos]) (by omega), List.take_append, hptr]
      rfl

theorem writeFileLoop_offset {b : ℕ} (hb : 1 ≤ b) {chain : List Node} {pos n : ℕ}
    (huniform : Uniform b chain) (hle : b ≤ n) (hpos : pos % b < 2 ^ 31)
    (hroom : pos % b + n ≤ b * chain.length) :
    writeFileLoop b chain pos n = .ok (((bytesOf chain).drop (pos % b)).take n) := by
  have hmod : pos % b < b := Nat.mod_lt _ hb
  cases chain with
  | nil =>
    rw [List.length_nil, Nat.mul_zero] at hroom
    omega
  | cons node rest =>
    obtain ⟨-, hptr⟩ := huniform node (by simp)
    have hrest : Uniform b rest := fun m hm => huniform m (by simp [hm])
    have hroom' : pos % b + n ≤ b * rest.length + b := hroom
    have hnext : (pos + (b - pos % b)) % b = 0 := by
      have hsplit := Nat.div_add_mod pos b
      rw [show pos + (b - pos % b) = b * (pos / b + 1) by rw [Nat.mul_succ]; omega,
        Nat.mul_mod_right]
    have hload : node.load (pos % b) (b - pos % b) = node.ptr.drop (pos % b) := by
      rw [Node.load, List.take_of_length_le (by rw [List.length_drop]; omega)]
    have hlength : (node.ptr.drop (pos % b)).length = b - pos % b := by rw [List.length_drop, hptr]
    rw [writeFileLoop_cons (by omega) (SocketStream.toInt_of_lt hpos), Nat.min_eq_right hle,
      if_neg (by omega), writeFileLoop_aligned hb _ _ _ hrest hnext (by omega), hload,
      drop_bytesOf_cons rest (by omega), List.take_append, hlength,
      List.take_of_length_le (l := node.ptr.drop (pos % b)) (by omega)]
    rfl

section Array

variable {ba : ByteArray}

theorem unread_eq (ba : ByteArray) :
    (flat ba).unread = ((bytesOf ba.chain).drop ba.m_position).take ba.getReadSize := by
  rw [flat, Flat.unread, List.drop_take]
  rfl

theorem writeToFile_opens (ba : ByteArray) :
    ba.writeToFile true = writeFileLoop ba.m_baseSize
      ((ba.m_cur.map fun cur => ba.chain.drop cur).getD []) ba.m_position ba.getReadSize >>=
      fun bytes => .ok (some bytes) := rfl

theorem writesUnread_iff_loop (h : Rep ba) (hsize : ba.getSize < 2 ^ 64) (h0 : ba.getReadSize ≠ 0) :
    WritesUnread ba ↔
      writeFileLoop ba.m_baseSize (ba.chain.drop (ba.m_position / ba.m_baseSize)) ba.m_position
        ba.getReadSize = .ok (flat ba).unread := by
  have hle := h.size_le
  have hlt : ba.m_position < ba.m_capacity := by
    unfold getReadSize at h0
    omega
  rw [WritesUnread, and_iff_left (toString_spec h hsize), writeToFile_opens, (h.cur_some hlt).1,
    Option.map_some, Option.getD_some]
  constructor
  · intro hok
    obtain ⟨bytes, hbytes, hsome⟩ := ok_of_bind hok
    rw [hbytes, Option.some.inj (Except.ok.inj hsome)]
  · intro hok
    rw [hok]
    rfl

theorem fileable_writes (h : Rep ba) (hsize : ba.getSize < 2 ^ 64) (hfile : Fileable ba) :
    WritesUnread ba := by
  by_cases h0 : ba.getReadSize = 0
  · have hnil := List.length_eq_zero_iff.mp (h.length_unread.trans h0)
    refine ⟨?_, toString_spec h hsize⟩
    rw [hnil, writeToFile_opens, h0, writeFileLoop_zero]
    rfl
  rw [writesUnread_iff_loop h hsize h0]
  have hle := h.size_le
  have hposition := h.position_le
  obtain ⟨-, hdiv, hleft⟩ := h.cur_some (by unfold getReadSize at h0; omega)
  have hroom : ba.m_position % ba.m_baseSize + ba.getReadSize ≤
      ba.m_baseSize * (ba.chain.drop (ba.m_position / ba.m_baseSize)).length := by
    unfold getReadSize
    omega
  have hnodes := h.nodes.drop (ba.m_position / ba.m_baseSize)
  have hunread : (flat ba).unread =
      ((bytesOf (ba.chain.drop (ba.m_position / ba.m_baseSize))).drop
        (ba.m_position % ba.m_baseSize)).take ba.getReadSize := by
    rw [bytesOf_drop h.nodes hdiv, List.drop_drop, Nat.div_add_mod, unread_eq]
  rw [hunread]
  rcases hfile.resolve_left h0 with hstart | ⟨hnode, hint⟩
  · rw [getPosition] at hstart
    rw [writeFileLoop_aligned h.base _ _ _ hnodes hstart (by omega), hstart, List.drop_zero]
  · exact writeFileLoop_offset h.base hnodes hnode hint hroom

end Array

/-- The loop does not come to its end: what is left and the offset change places with each node. -/
theorem writeFileLoop_fails {b : ℕ} (hb : b ≤ 2 ^ 31) : ∀ (chain : List Node) (pos n : ℕ),
    1 ≤ n → n < b → pos % b ≠ 0 → ∀ bytes, writeFileLoop b chain pos n ≠ .ok bytes := by
  intro chain
  induction chain with
  | nil =>
    intro pos n hn _ _ bytes hok
    rw [writeFileLoop_nil hn] at hok
    cases hok
  | cons node rest ih =>
    intro pos n hn hlt hpos bytes hok
    have hmod : pos % b < b := Nat.mod_lt _ (by omega)
    obtain ⟨d, more, hd, hle, hmore, -⟩ := writeFileLoop_inv hn hok
    rw [SocketStream.toInt_of_lt (by omega)] at hd
    obtain rfl : pos % b = d := by exact_mod_cast hd
    rw [Nat.min_eq_left hlt.le] at hle hmore
    have hnext : (pos + (n - pos % b)) % b = n := by
      have hsplit := Nat.div_add_mod pos b
      rw [show pos + (n - pos % b) = n + b * (pos / b) by omega, Nat.add_mul_mod_self_left,
        Nat.mod_eq_of_lt hlt]
    exact ih _ (n - (n - pos % b)) (by omega) (by omega) (by omega) more hmore

theorem writeFileLoop_mem {b : ℕ} : ∀ (chain : List Node) (pos n : ℕ) (bytes : List UInt8),
    writeFileLoop b chain pos n = .ok bytes → ∀ x ∈ bytes, x ∈ bytesOf chain := by
  intro chain
  induction chain with
  | nil =>
    intro pos n bytes hok x hx
    cases n with
    | zero =>
      cases hok
      exact hx
    | succ n => cases hok
  | cons node rest ih =>
    intro pos n bytes hok x hx
    by_cases h0 : n = 0
    · rw [h0, writeFileLoop_zero] at hok
      cases hok
      cases hx
    · obtain ⟨d, more, -, -, hmore, rfl⟩ := writeFileLoop_inv (by omega) hok
      rw [bytesOf_cons, List.mem_append]
      rcases List.mem_append.mp hx with hload | hrest
      · exact .inl (List.mem_of_mem_drop (List.mem_of_mem_take hload))
      · exact .inr (ih _ _ _ hmore x hrest)

/-- An offset that is all there is left: nothing is written, and nothing changes. -/
theorem writeFileLoop_stuck {b : ℕ} : ∀ (chain : List Node) (pos n : ℕ), 1 ≤ n → n ≤ b →
    SocketStream.toInt (pos % b) = n → ∀ bytes, writeFileLoop b chain pos n ≠ .ok bytes := by
  intro chain
  induction chain with
  | nil =>
    intro pos n hn _ _ bytes hok
    rw [writeFileLoop_nil hn] at hok
    cases hok
  | cons node rest ih =>
    intro pos n hn hle hpos bytes hok
    obtain ⟨d, more, hd, -, hmore, -⟩ := writeFileLoop_inv hn hok
    obtain rfl : n = d := by exact_mod_cast hpos.symm.trans hd
    rw [Nat.min_eq_left hle, Nat.sub_self, Nat.add_zero, Nat.sub_zero] at hmore
    exact ih pos n hn hle hpos more hmore

section Marked

variable {ba : ByteArray} {q : ℕ}

theorem marked_get (hbytes : bytesOf ba.chain =
    (List.range ba.m_capacity).map fun i => if i = q then 1 else 0) {i : ℕ} (hi : i < ba.m_capacity) :
    (bytesOf ba.chain)[i]? = some (if i = q then 1 else 0) := by
  rw [hbytes, List.getElem?_map, List.getElem?_range hi, Option.map_some]

theorem first_node (h : Rep ba) (hlt : ba.m_position < ba.m_capacity) :
    ∃ node rest, ba.chain.drop (ba.m_position / ba.m_baseSize) = node :: rest ∧
      node.ptr.length = ba.m_baseSize ∧
      (∀ j < ba.m_baseSize, node.ptr[j]? =
        (bytesOf ba.chain)[ba.m_baseSize * (ba.m_position / ba.m_baseSize) + j]?) ∧
      bytesOf rest = (bytesOf ba.chain).drop
        (ba.m_baseSize * (ba.m_position / ba.m_baseSize) + ba.m_baseSize) := by
  obtain ⟨-, hdiv, hleft⟩ := h.cur_some hlt
  have hne : ba.chain.drop (ba.m_position / ba.m_baseSize) ≠ [] := by
    intro hnil
    rw [hnil, List.length_nil, Nat.mul_zero] at hleft
    omega
  obtain ⟨node, rest, hdrop⟩ := List.exists_cons_of_ne_nil hne
  have hptr : node.ptr.length = ba.m_baseSize :=
    ((h.nodes.drop (ba.m_position / ba.m_baseSize)) node (by rw [hdrop]; simp)).2
  have hall := bytesOf_drop h.nodes hdiv
  rw [hdrop, bytesOf_cons] at hall
  refine ⟨node, rest, hdrop, hptr, fun j hj => ?_, ?_⟩
  · rw [← List.getElem?_drop, ← hall, List.getElem?_append_left (by omega)]
  · rw [← List.drop_drop, ← hall, ← hptr, List.drop_left]

theorem marked_int (h : Rep ba) (h0 : ba.getReadSize ≠ 0)
    (hint : 2 ^ 31 ≤ ba.m_position % ba.m_baseSize)
    (hbytes : bytesOf ba.chain =
      (List.range ba.m_capacity).map fun i => if i = ba.m_position then 1 else 0) :
    writeFileLoop ba.m_baseSize (ba.chain.drop (ba.m_position / ba.m_baseSize)) ba.m_position
      ba.getReadSize ≠ .ok (flat ba).unread := by
  intro hok
  have hle := h.size_le
  have hlt : ba.m_position < ba.m_capacity := by unfold getReadSize at h0; omega
  have hmod : ba.m_position % ba.m_baseSize < ba.m_baseSize := Nat.mod_lt _ h.base
  have hsplit := Nat.div_add_mod ba.m_position ba.m_baseSize
  obtain ⟨node, rest, hdrop, -, hnode, -⟩ := first_node h hlt
  rw [hdrop] at hok
  obtain ⟨d, more, hd, hdle, hmore, hunread⟩ := writeFileLoop_inv (by omega) hok
  obtain ⟨-, hdlt⟩ := toInt_nat hd
  by_cases hzero : min ba.getReadSize ba.m_baseSize - d = 0
  · have hn : ba.getReadSize = d := by omega
    rw [hzero, Nat.add_zero, Nat.sub_zero] at hmore
    exact writeFileLoop_stuck rest _ _ (by omega) (by omega) (by rw [hn]; exact hd) more hmore
  · have hfirst := congrArg (fun l => l[0]?) hunread
    have hload : (node.load d (min ba.getReadSize ba.m_baseSize - d) ++ more)[0]? = node.ptr[d]? := by
      have hsome := hnode d (by omega)
      rw [marked_get hbytes (by omega)] at hsome
      have hptr := (List.getElem?_eq_some_iff.mp hsome).1
      have hlength : 0 < (node.load d (min ba.getReadSize ba.m_baseSize - d)).length := by
        rw [Node.load, List.length_take, List.length_drop]
        omega
      rw [List.getElem?_append_left hlength, Node.load, List.getElem?_take,
        if_pos (by omega), List.getElem?_drop, Nat.add_zero]
    rw [hload, hnode d (by omega), unread_eq, List.getElem?_take, if_pos (by omega),
      List.getElem?_drop, Nat.add_zero, marked_get hbytes hlt, marked_get hbytes (by omega),
      if_pos rfl, if_neg (by omega)] at hfirst
    cases hfirst

/-- The end of what is left would have to come from the next nodes. -/
theorem marked_short (h : Rep ba) (h0 : ba.getReadSize ≠ 0)
    (hint : ba.m_position % ba.m_baseSize < 2 ^ 31) (hstart : ba.m_position % ba.m_baseSize ≠ 0)
    (hshort : ba.getReadSize < ba.m_baseSize)
    (hbytes : bytesOf ba.chain = (List.range ba.m_capacity).map fun i =>
      if i = ba.m_position + (ba.getReadSize - ba.m_position % ba.m_baseSize) then 1 else 0) :
    writeFileLoop ba.m_baseSize (ba.chain.drop (ba.m_position / ba.m_baseSize)) ba.m_position
      ba.getReadSize ≠ .ok (flat ba).unread := by
  intro hok
  have hle := h.size_le
  have hlt : ba.m_position < ba.m_capacity := by unfold getReadSize at h0; omega
  have hmod : ba.m_position % ba.m_baseSize < ba.m_baseSize := Nat.mod_lt _ h.base
  have hsplit := Nat.div_add_mod ba.m_position ba.m_baseSize
  obtain ⟨node, rest, hdrop, hptr, -, hrest⟩ := first_node h hlt
  rw [hdrop] at hok
  obtain ⟨d, more, hd, hdle, hmore, hunread⟩ := writeFileLoop_inv (by omega) hok
  rw [SocketStream.toInt_of_lt hint] at hd
  obtain rfl : ba.m_position % ba.m_baseSize = d := by exact_mod_cast hd
  rw [Nat.min_eq_left hshort.le] at hdle hmore hunread
  generalize hk : ba.getReadSize - ba.m_position % ba.m_baseSize = k at hmore hunread hbytes
  have hlast : ba.m_position + k < ba.m_capacity := by
    unfold getReadSize at hk
    omega
  have hlength : (node.load (ba.m_position % ba.m_baseSize) k).length = k := by
    rw [Node.load, List.length_take, List.length_drop]
    omega
  have hfirst := congrArg (fun l => l[k]?) hunread
  rw [List.getElem?_append_right hlength.le, hlength, Nat.sub_self, unread_eq, List.getElem?_take,
    if_pos (by omega), List.getElem?_drop, marked_get hbytes hlast, if_pos rfl] at hfirst
  -- the mark is in the first node, and not in those behind it
  have hmem := writeFileLoop_mem rest _ _ more hmore 1 (List.mem_of_getElem? hfirst.symm)
  rw [hrest] at hmem
  obtain ⟨j, hj⟩ := List.mem_iff_getElem?.mp hmem
  rw [List.getElem?_drop] at hj
  have hin : ba.m_baseSize * (ba.m_position / ba.m_baseSize) + ba.m_baseSize + j < ba.m_capacity := by
    have hlt' := (List.getElem?_eq_some_iff.mp hj).1
    rwa [h.nodes.length_bytesOf, ← h.capacity] at hlt'
  rw [marked_get hbytes hin, if_neg (by omega)] at hj
  cases hj

end Marked

theorem SameShape.readSize {ba ba' : ByteArray} (h : SameShape ba ba') :
    ba'.getReadSize = ba.getReadSize := by
  rw [getReadSize, getReadSize, h.size, h.position]

theorem SameShape.fileable {ba ba' : ByteArray} (h : SameShape ba ba') (hfile : Fileable ba) :
    Fileable ba' := by
  unfold Fileable getPosition at hfile ⊢
  rw [h.readSize, h.position, h.baseSize]
  exact hfile

theorem not_fileable {ba : ByteArray} (h : ¬ Fileable ba) :
    ba.getReadSize ≠ 0 ∧ ba.m_position % ba.m_baseSize ≠ 0 ∧
      (ba.m_baseSize ≤ ba.getReadSize → 2 ^ 31 ≤ ba.m_position % ba.m_baseSize) := by
  refine ⟨fun h0 => h (.inl h0), fun hstart => h (.inr (.inl hstart)), fun hle => ?_⟩
  by_contra hint
  exact h (.inr (.inr ⟨hle, Nat.not_le.mp hint⟩))

/-- Of a shape that is not fileable there is a state that comes out wrong. -/
theorem exists_not_writes {ba : ByteArray} (h : Reachable ba) (hsize : ba.getSize < 2 ^ 64)
    (hfile : ¬ Fileable ba) : ∃ ba', Reachable ba' ∧ SameShape ba ba' ∧ ¬ WritesUnread ba' := by
  obtain ⟨h0, hstart, hcase⟩ := not_fileable hfile
  by_cases hint : 2 ^ 31 ≤ ba.m_position % ba.m_baseSize
  · obtain ⟨ba', hreach, hs, hbytes⟩ := h.withBytes fun i => if i = ba.m_position then 1 else 0
    have hrep := reachable_rep hreach
    have hread := hs.readSize
    have hsize' : ba'.getSize = ba.getSize := hs.size
    refine ⟨ba', hreach, hs, ?_⟩
    rw [writesUnread_iff_loop hrep (by omega) (by omega)]
    refine marked_int hrep (by omega) ?_ ?_
    · rw [hs.position, hs.baseSize]
      exact hint
    · rw [hs.position, hs.capacity]
      exact hbytes
  · obtain ⟨ba', hreach, hs, hbytes⟩ := h.withBytes fun i =>
      if i = ba.m_position + (ba.getReadSize - ba.m_position % ba.m_baseSize) then 1 else 0
    have hrep := reachable_rep hreach
    have hread := hs.readSize
    have hsize' : ba'.getSize = ba.getSize := hs.size
    refine ⟨ba', hreach, hs, ?_⟩
    rw [writesUnread_iff_loop hrep (by omega) (by omega)]
    refine marked_short hrep (by omega) ?_ ?_ ?_ ?_
    · rw [hs.position, hs.baseSize]
      omega
    · rw [hs.position, hs.baseSize]
      exact hstart
    · rw [hread, hs.baseSize]
      by_contra hle
      exact hint (hcase (by omega))
    · rw [hs.position, hs.baseSize, hs.capacity, hread]
      exact hbytes

/-- When the file gets the unread bytes of every state of a shape; and, where every offset is an
`int`, when it gets those of one. -/
theorem writeToFile_iff {ba : ByteArray} (h : Reachable ba) (hsize : ba.getSize < 2 ^ 64) :
    ((∀ ba', Reachable ba' → SameShape ba ba' → WritesUnread ba') ↔ Fileable ba) ∧
    (ba.m_baseSize ≤ 2 ^ 31 → (WritesUnread ba ↔ Fileable ba)) := by
  have hrep := reachable_rep h
  have hmod : ba.m_position % ba.m_baseSize < ba.m_baseSize := Nat.mod_lt _ hrep.base
  constructor
  · constructor
    · intro hall
      by_contra hfile
      obtain ⟨ba', hreach, hs, hwrong⟩ := exists_not_writes h hsize hfile
      exact hwrong (hall ba' hreach hs)
    · intro hfile ba' hreach hs
      have hsize' : ba'.getSize = ba.getSize := hs.size
      exact fileable_writes (reachable_rep hreach) (by omega) (hs.fileable hfile)
  · intro hb
    refine ⟨fun hwrites => ?_, fileable_writes hrep hsize⟩
    by_contra hfile
    obtain ⟨h0, hstart, hcase⟩ := not_fileable hfile
    rw [writesUnread_iff_loop hrep hsize h0] at hwrites
    refine writeFileLoop_fails hb _ _ _ (by omega) ?_ hstart _ hwrites
    by_contra hle
    have := hcase (by omega)
    omega

/-- Three bytes from inside of a node of two. -/
theorem writeToFile_iff_inside :
    WritesUnread (machine.run (new (fun _ _ => 0) 2) [.write [1, 2, 3, 4], .setPosition 1]).2 :=
  ((writeToFile_iff ((Reachable.new _ (by decide)).run _) (by decide)).2 (by decide)).mpr
    (.inr (.inr (by decide)))

/-- One byte from inside of a node of two. -/
theorem not_writesUnread_short :
    ∃ ba, Reachable ba ∧ ¬ WritesUnread ba := by
  refine ⟨(machine.run (new (fun _ _ => 0) 2) [.write [1, 2, 3, 4], .setPosition 3]).2,
    (Reachable.new _ (by decide)).run _, ?_⟩
  rintro ⟨hok, -⟩
  cases hok

/-- The file is appended, a node's worth at a time, and the last read comes up short: with nothing,
where the length is a multiple of the size of a node. -/
theorem readFileLoop_appends : ∀ (turns : ℕ) (file : List UInt8) (ba : ByteArray) (bytes : List UInt8),
    file.length < turns → AtEnd ba bytes →
    ∃ ba', readFileLoop turns file ba = .ok (some ba') ∧ AtEnd ba' (bytes ++ file) := by
  intro turns
  induction turns with
  | zero => intro file ba bytes hturns _; omega
  | succ turns ih =>
    intro file ba bytes hturns h
    have hbase := h.1.base
    obtain ⟨ba', hwrite, hrep, hflat, -⟩ := write_spec h.1 (file.take ba.m_baseSize)
    have hend : AtEnd ba' (bytes ++ file.take ba.m_baseSize) := by
      refine ⟨hrep, ?_⟩
      rw [hflat, h.2, Flat.write]
      simp [overwrite]
    have hlength : (file.take ba.m_baseSize).length = min ba.m_baseSize file.length :=
      List.length_take
    rw [readFileLoop, hwrite]
    by_cases hshort : (file.take ba.m_baseSize).length < ba.m_baseSize
    · refine ⟨ba', if_pos hshort, ?_⟩
      rwa [List.take_of_length_le (by omega)] at hend
    · obtain ⟨loaded, hloop, hloaded⟩ := ih (file.drop ba.m_baseSize) ba' _
        (by rw [List.length_drop]; omega) hend
      refine ⟨loaded, (if_neg hshort).trans hloop, ?_⟩
      rwa [List.append_assoc, List.take_append_drop] at hloaded

/-- An array at its start is saved, and loaded into nodes of any size. -/
theorem file_round_trip {ba : ByteArray} (h : Reachable ba) (hposition : ba.getPosition = 0)
    (hsize : ba.getSize < 2 ^ 64) (heap : ℕ → ℕ → UInt8) {base_size : ℕ} (hb : 1 ≤ base_size) :
    ∃ file loaded rewound bytes, ba.writeToFile true = .ok (some file) ∧
      (new heap base_size).readFromFile (some file) = .ok (some (true, loaded)) ∧
      loaded.setPosition 0 = .ok rewound ∧
      ba.toString = .ok bytes ∧ rewound.toString = .ok bytes ∧ rewound.getSize = ba.getSize := by
  have hrep := reachable_rep h
  have hbytes : (flat ba).unread = (flat ba).bytes := by
    change (flat ba).bytes.drop ba.getPosition = _
    rw [hposition, List.drop_zero]
  obtain ⟨hfile, htext⟩ := fileable_writes hrep hsize (.inr (.inl (by rw [hposition, Nat.zero_mod])))
  rw [hbytes] at hfile htext
  obtain ⟨loaded, hload, hloaded⟩ := readFileLoop_appends ((flat ba).bytes.length + 1)
    (flat ba).bytes (new heap base_size) [] (Nat.lt_succ_self _) (new_rep heap hb)
  obtain ⟨rewound, hset, hrep', hflat, -⟩ := setPosition_spec hloaded.1 (Nat.zero_le loaded.getSize)
  rw [hloaded.2, List.nil_append] at hflat
  have hsize' : rewound.getSize = ba.getSize := by
    rw [getSize, getSize, ← hrep'.length_flat, hflat, hrep.length_flat]
  refine ⟨_, loaded, rewound, _, hfile, ?_, hset, htext, ?_, hsize'⟩
  · unfold readFromFile
    dsimp only
    rw [hload]
    rfl
  · rw [toString_spec hrep' (by omega), hflat]
    rfl

/-- Four bytes from nodes of three into nodes of two: the last read gets nothing. -/
theorem file_round_trip_even :
    ∃ file loaded rewound bytes,
      (machine.run (new (fun _ _ => 0) 3) [.write [1, 2, 3, 4], .setPosition 0]).2.writeToFile true =
        .ok (some file) ∧
      (new (fun _ _ => 0) 2).readFromFile (some file) = .ok (some (true, loaded)) ∧
      loaded.setPosition 0 = .ok rewound ∧
      (machine.run (new (fun _ _ => 0) 3) [.write [1, 2, 3, 4], .setPosition 0]).2.toString =
        .ok bytes ∧
      rewound.toString = .ok bytes ∧
      rewound.getSize =
        (machine.run (new (fun _ _ => 0) 3) [.write [1, 2, 3, 4], .setPosition 0]).2.getSize :=
  file_round_trip ((Reachable.new _ (by decide)).run _) rfl (by decide) (fun _ _ => 0) (by decide)

end ByteArray

end Sylar
