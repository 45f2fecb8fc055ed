import Sylar.Proofs.SocketStream
import Sylar.Spec.WSSession

/-! A message that is sent in fragments, with pings and pongs between them, is received as a
whole. What `WSSendMessage` writes of a fragment is a head, a length where the head has no room
for it, a mask from clients, and the payload; `WSRecvMessage` takes exactly these off the
stream. -/

namespace Sylar

open Lib

namespace WSFrameHead

variable {head : WSFrameHead}

theorem fields_lt (head : WSFrameHead) : ∀ f ∈ head.fields, f.2 < 2 ^ f.1 := by
  have hbool : ∀ b : Bool, b.toNat < 2 ^ 1 := by decide
  intro f hf
  simp only [fields, List.mem_cons, List.not_mem_nil, or_false] at hf
  rcases hf with rfl | rfl | rfl | rfl | rfl | rfl | rfl
  · exact head.opcode.isLt
  · exact hbool _
  · exact hbool _
  · exact hbool _
  · exact hbool _
  · exact head.payload.isLt
  · exact hbool _

theorem ofFields_fields (head : WSFrameHead) : ofFields (head.fields.map Prod.snd) = head := by
  simp [fields, ofFields]

theorem length_bytes (host : Endian) (head : WSFrameHead) : (head.bytes host).length = 2 :=
  length_objectBytes host 2 _

theorem objectValue_pack (host : Endian) {fs : List (ℕ × ℕ)} (h : ∀ f ∈ fs, f.2 < 2 ^ f.1)
    (hsum : (fs.map Prod.fst).sum = 16) : objectValue host (objectBytes host 2 (pack fs)) = pack fs := by
  have hlt := pack_lt h
  rw [hsum] at hlt
  rw [objectValue_objectBytes, Nat.mod_eq_of_lt (hlt.trans_eq (by norm_num))]

theorem ofBytes_bytes (host : Endian) (head : WSFrameHead) : ofBytes host (head.bytes host) = head := by
  cases host with
  | little =>
    have hunpack : unpack widths (pack head.fields) = head.fields.map Prod.snd :=
      unpack_pack head.fields_lt
    simp only [ofBytes, bytes]
    rw [objectValue_pack .little head.fields_lt rfl, hunpack, ofFields_fields]
  | big =>
    have hfields : ∀ f ∈ head.fields.reverse, f.2 < 2 ^ f.1 :=
      fun f hf => head.fields_lt f (List.mem_reverse.mp hf)
    have hunpack : unpack widths.reverse (pack head.fields.reverse) =
        head.fields.reverse.map Prod.snd := unpack_pack hfields
    simp only [ofBytes, bytes]
    rw [objectValue_pack .big hfields rfl, hunpack, List.map_reverse, List.reverse_reverse,
      ofFields_fields]

end WSFrameHead

theorem length_maskData (mask : List UInt8) (first n : ℕ) (data : List UInt8) :
    (maskData mask first n data).length = data.length := by
  simp [maskData]

theorem maskData_append (mask : List UInt8) (n : ℕ) (pre data : List UInt8) :
    maskData mask pre.length n (pre ++ data) = pre ++ maskData mask 0 n data := by
  unfold maskData
  rw [List.mapIdx_append]
  congr 1
  · apply List.ext_getElem
    · simp
    · intro j hj hj'
      rw [List.getElem_mapIdx, if_neg (by omega)]
  · apply List.ext_getElem
    · simp
    · intro j hj hj'
      simp only [List.getElem_mapIdx]
      have hiff : pre.length ≤ j + pre.length ∧ j + pre.length < pre.length + n ↔
          0 ≤ j ∧ j < 0 + n := by omega
      simp only [hiff, Nat.add_sub_cancel, Nat.sub_zero]

theorem maskData_maskData (mask : List UInt8) (first n : ℕ) (data : List UInt8) :
    maskData mask first n (maskData mask first n data) = data := by
  unfold maskData
  apply List.ext_getElem
  · simp
  · intro j hj hj'
    simp only [List.getElem_mapIdx]
    split
    · rw [UInt8.xor_assoc, UInt8.xor_self, UInt8.xor_zero]
    · rfl

namespace Connection

variable {s s' t : Connection} {data post : List UInt8}

/-- What is sent in network byte order, on a machine of either byte order. -/
theorem network_value (host : Endian) (n v : ℕ) :
    byteswapOnLittleEndian host n
      (objectValue host (objectBytes host n (byteswapOnLittleEndian host n v))) = v % 256 ^ n := by
  rw [objectValue_objectBytes]
  cases host with
  | little =>
    simp only [byteswapOnLittleEndian]
    rw [Nat.mod_eq_of_lt (byteswap_lt n v), byteswap_byteswap]
  | big => rfl

structure Sends (s : Connection) (data : List UInt8) (s' : Connection) : Prop where
  bytes : s'.outgoing.bytes = s.outgoing.bytes ++ data
  incoming : s'.incoming = s.incoming
  closed : s'.closed = false

theorem Sends.trans {more : List UInt8} {s'' : Connection} (h : Sends s data s') (h' : Sends s' more s'') :
    Sends s (data ++ more) s'' := by
  refine ⟨?_, h'.incoming.trans h.incoming, h'.closed⟩
  rw [h'.bytes, h.bytes, List.append_assoc]

/-- `post` is still to be received. -/
structure Has (s : Connection) (post : List UInt8) : Prop where
  bytes : s.incoming.bytes = post
  closed : s.closed = false

theorem writeFixSize_sends (hs : s.closed = false) (hlt : data.length < 2 ^ 31) :
    ∃ s', s.writeFixSize data = ((data.length : ℤ), s') ∧ Sends s data s' := by
  obtain ⟨out, hwrite, hbytes⟩ := s.outgoing.writeRawFixSize_sends data
  refine ⟨{ s with outgoing := out }, ?_, hbytes, rfl, hs⟩
  simp only [writeFixSize, hs, Bool.false_and, Bool.false_eq_true, if_false, hwrite]
  rw [SocketStream.toInt_of_lt hlt]

theorem readFixSize_reads (hs : s.Has (data ++ post)) (hlt : data.length < 2 ^ 63) :
    ∃ s', s.readFixSize data.length = (SocketStream.toInt data.length, data, s') ∧ s'.Has post := by
  obtain ⟨rest, hread, hbytes⟩ := SocketStream.readRawFixSize_takes hs.bytes hlt
  refine ⟨{ s with incoming := rest }, ?_, hbytes, hs.closed⟩
  simp only [readFixSize, hs.closed, Bool.false_and, Bool.false_eq_true, if_false, hread]

theorem readFixSize_takes (hs : s.Has (data ++ post)) (hlt : data.length < 2 ^ 31) {n : ℕ}
    (hn : data.length = n) :
    ∃ s', s.readFixSize n = ((n : ℤ), data, s') ∧ s'.Has post := by
  subst hn
  obtain ⟨s', hread, hs'⟩ := readFixSize_reads hs (hlt.trans (by norm_num))
  exact ⟨s', by rw [hread, SocketStream.toInt_of_lt hlt], hs'⟩

def wire (host : Endian) (client fin : Bool) (opcode : ℤ) (data : List UInt8) (rand : UInt32) :
    List UInt8 :=
  let head := sendHead ⟨opcode, data⟩ client fin
  let mask := objectBytes host 4 rand.toNat
  head.bytes host ++ ((sendLength host head data.length).getD [] ++
    ((if client then some mask else none).getD [] ++
      if client then maskData mask 0 data.length data else data))

theorem writeIf_sends (hs : s.closed = false) {o : Option (List UInt8)}
    (ho : ∀ data, o = some data → 0 < data.length ∧ data.length < 2 ^ 31) :
    ∃ n s', s.writeIf o = (n, s') ∧ 0 < n ∧ Sends s (o.getD []) s' := by
  cases o with
  | none => exact ⟨1, s, rfl, Int.one_pos, (List.append_nil _).symm, rfl, hs⟩
  | some data =>
    obtain ⟨hpos, hlt⟩ := ho data rfl
    obtain ⟨s', hwrite, hsends⟩ := writeFixSize_sends hs hlt
    exact ⟨_, s', hwrite, Int.natCast_pos.mpr hpos, hsends⟩

theorem sendLength_length {host : Endian} {head : WSFrameHead} {size : ℕ}
    (h : sendLength host head size = some data) : data.length = 2 ∨ data.length = 8 := by
  unfold sendLength at h
  split at h
  · cases h
    exact .inl (length_objectBytes host 2 _)
  · split at h
    · cases h
      exact .inr (length_objectBytes host 8 _)
    · cases h

theorem WSSendMessage_sends (host : Endian) (client fin : Bool) (opcode : ℤ) (rand : UInt32)
    (hs : s.closed = false) (hdata : data ≠ []) (hlt : data.length < 2 ^ 31) :
    (s.WSSendMessage host ⟨opcode, data⟩ client fin rand).1 = SocketStream.toInt (data.length + 2) ∧
      Sends s (wire host client fin opcode data rand)
        (s.WSSendMessage host ⟨opcode, data⟩ client fin rand).2.2 := by
  have hhead : ((sendHead ⟨opcode, data⟩ client fin).bytes host).length < 2 ^ 31 := by
    rw [WSFrameHead.length_bytes]
    norm_num
  obtain ⟨s₁, hwrite₁, hsends₁⟩ := writeFixSize_sends hs hhead
  rw [WSFrameHead.length_bytes] at hwrite₁
  have hlength : ∀ bytes, sendLength host (sendHead ⟨opcode, data⟩ client fin) data.length = some bytes →
      0 < bytes.length ∧ bytes.length < 2 ^ 31 := by
    intro bytes h
    have := sendLength_length h
    omega
  obtain ⟨n₂, s₂, hwrite₂, hpos₂, hsends₂⟩ := writeIf_sends hsends₁.closed hlength
  have hmask : ∀ bytes, (if client then some (objectBytes host 4 rand.toNat) else none) = some bytes →
      0 < bytes.length ∧ bytes.length < 2 ^ 31 := by
    intro bytes h
    split at h
    · cases h
      rw [length_objectBytes]
      norm_num
    · cases h
  obtain ⟨n₃, s₃, hwrite₃, hpos₃, hsends₃⟩ := writeIf_sends hsends₂.closed hmask
  have hpos : 0 < data.length := List.length_pos_iff.mpr hdata
  have hpayload : (if client then maskData (objectBytes host 4 rand.toNat) 0 data.length data
      else data).length = data.length := by
    split
    · exact length_maskData _ _ _ _
    · rfl
  obtain ⟨s₄, hwrite₄, hsends₄⟩ := writeFixSize_sends hsends₃.closed (hpayload.trans_lt hlt)
  have hmessage : (if client then WSFrameMessage.mk opcode
        (maskData (objectBytes host 4 rand.toNat) 0 data.length data)
      else ⟨opcode, data⟩).m_data =
      if client then maskData (objectBytes host 4 rand.toNat) 0 data.length data else data := by
    split <;> rfl
  have hsent := hsends₁.trans (hsends₂.trans (hsends₃.trans hsends₄))
  unfold WSSendMessage
  simp only [hwrite₁, hwrite₂, hwrite₃]
  rw [if_neg (by norm_num), if_neg (by omega), if_neg (by omega), hmessage, hwrite₄, hpayload,
    if_neg (by omega)]
  refine ⟨?_, hsent⟩
  dsimp only

theorem readNumber_takes (host : Endian) {n v : ℕ} (hn : 0 < n) (hn' : n < 2 ^ 31) (hv : v < 256 ^ n)
    (hs : s.Has (objectBytes host n (byteswapOnLittleEndian host n v) ++ post)) :
    ∃ s', s.readNumber host n = (some v, s') ∧ s'.Has post := by
  have hlength := length_objectBytes host n (byteswapOnLittleEndian host n v)
  obtain ⟨s', hread, hs'⟩ := readFixSize_takes hs (hlength.trans_lt hn') hlength
  refine ⟨s', ?_, hs'⟩
  simp only [readNumber, hread, network_value]
  rw [if_neg (by omega), Nat.mod_eq_of_lt hv]

theorem sendHead_payload (msg : WSFrameMessage) (client fin : Bool) :
    ((sendHead msg client fin).payload : ℕ) =
      if msg.m_data.length < 126 then msg.m_data.length
      else if msg.m_data.length < 65536 then 126 else 127 := by
  show (if _ then _ else _) % 128 = _
  split
  · omega
  · split <;> rfl

/-- A head that `size` bytes can follow: it has room for the number, or for which field it is in. -/
def Encodes (head : WSFrameHead) (size : ℕ) : Prop :=
  if (head.payload : ℕ) = 126 then size < 256 ^ 2
  else if (head.payload : ℕ) = 127 then size < 256 ^ 8
  else (head.payload : ℕ) = size

theorem sendHead_encodes (msg : WSFrameMessage) (client fin : Bool) (hlt : msg.m_data.length < 2 ^ 64) :
    Encodes (sendHead msg client fin) msg.m_data.length := by
  have hpayload := sendHead_payload msg client fin
  unfold Encodes
  split at hpayload
  · rw [if_neg (by omega), if_neg (by omega)]
    exact hpayload
  · split at hpayload
    · rw [if_pos hpayload]
      omega
    · rw [if_neg (by omega), if_pos hpayload]
      omega

theorem readLength_takes (host : Endian) {head : WSFrameHead} {size : ℕ} (hsize : Encodes head size)
    (hs : s.Has ((sendLength host head size).getD [] ++ post)) :
    ∃ s', s.readLength host head = (some size, s') ∧ s'.Has post := by
  have h126 : head.payload = 126 ↔ (head.payload : ℕ) = 126 := Fin.ext_iff
  have h127 : head.payload = 127 ↔ (head.payload : ℕ) = 127 := Fin.ext_iff
  unfold readLength
  unfold sendLength at hs
  simp only [h126, h127] at hs ⊢
  unfold Encodes at hsize
  split at hsize
  · next h126 =>
    rw [if_pos h126] at hs ⊢
    exact readNumber_takes host (by norm_num) (by norm_num) hsize hs
  · next h126 =>
    rw [if_neg h126] at hs ⊢
    split at hsize
    · next h127 =>
      rw [if_pos h127] at hs ⊢
      exact readNumber_takes host (by norm_num) (by norm_num) hsize hs
    · next h127 =>
      rw [if_neg h127] at hs ⊢
      exact ⟨s, by rw [hsize], hs⟩

theorem readMask_takes {mask : List UInt8} (hmask : mask.length = 4) (head : WSFrameHead)
    (hs : s.Has ((if head.mask then some mask else none).getD [] ++ post)) :
    ∃ s', s.readMask head = (some (if head.mask then mask else List.replicate 4 0), s') ∧
      s'.Has post := by
  unfold readMask
  split at hs
  · next hhead =>
    obtain ⟨s', hread, hs'⟩ := readFixSize_takes hs (by rw [Option.getD_some]; omega) hmask
    refine ⟨s', ?_, hs'⟩
    simp only [if_pos hhead, hread, Option.getD_some]
    rfl
  · next hhead =>
    refine ⟨s, ?_, hs⟩
    rw [if_neg hhead, if_neg hhead]

/-- The variables of the loop after a frame of data. -/
def Receiving.next (m : Receiving) (opcode : Fin 16) (data : List UInt8) : Receiving where
  opcode := m.opcodeWith opcode
  data := m.data ++ data
  cur_len := (m.data ++ data).length

/-- They are so as long as `cur_len` is within an `int`. -/
def Receiving.more (m : Receiving) (opcode : Fin 16) (data : List UInt8) : Receiving :=
  { m.next opcode data with cur_len := ((m.data ++ data).length : ℤ).bmod (2 ^ 32) }

@[simp] theorem Receiving.opcode_more (m : Receiving) (opcode : Fin 16) (data : List UInt8) :
    (m.more opcode data).opcode = (m.next opcode data).opcode := rfl

theorem Receiving.more_eq_next {m : Receiving} (opcode : Fin 16)
    (hlt : m.data.length + data.length < 2 ^ 31) : m.more opcode data = m.next opcode data := by
  have hcur : ((m.data ++ data).length : ℤ).bmod (2 ^ 32) = (m.data ++ data).length := by
    rw [List.length_append]
    exact Int.bmod_eq_of_le (by omega) (by omega)
  rw [more, hcur]
  rfl

theorem readPayload_takes {m : Receiving} (hm : m.cur_len = m.data.length) (head : WSFrameHead)
    (mask : List UInt8) (hdata : data ≠ []) (hold : m.data.length < 2 ^ 31) (hlt : data.length < 2 ^ 31)
    (hs : s.Has ((if head.mask then maskData mask 0 data.length data else data) ++ post)) :
    ∃ s', s.readPayload m head mask data.length = .ok (some (m.more head.opcode data), s') ∧
      s'.Has post := by
  set payload := if head.mask then maskData mask 0 data.length data else data with hpayload
  have hlength : payload.length = data.length := by
    rw [hpayload]
    split
    · exact length_maskData _ _ _ _
    · rfl
  have hpos : 0 < data.length := List.length_pos_iff.mpr hdata
  obtain ⟨s', hread, hs'⟩ := readFixSize_takes hs (by omega) hlength
  have hfirst : (m.cur_len % 2 ^ 64).toNat = m.data.length := by
    rw [hm]
    omega
  have htotal : ((m.cur_len + data.length) % 2 ^ 64).toNat = m.data.length + data.length := by
    rw [hm]
    omega
  have hn : (SocketStream.toInt data.length).toNat = data.length := by
    rw [SocketStream.toInt_of_lt (by omega)]
    rfl
  have hroom : (m.data ++ List.replicate data.length (0 : UInt8)).length =
      m.data.length + data.length := by simp
  have hstored : overwrite (m.data ++ List.replicate data.length 0) m.data.length payload =
      m.data ++ payload := by
    refine (overwrite_append_right m.data (List.replicate data.length 0) 0 payload).trans ?_
    simp [overwrite, hlength]
  have hunmasked : (if head.mask then maskData mask m.data.length data.length (m.data ++ payload)
      else m.data ++ payload) = m.data ++ data := by
    rw [hpayload]
    split
    · rw [maskData_append, maskData_maskData]
    · rfl
  refine ⟨s', ?_, hs'⟩
  simp only [readPayload, hread, hfirst, htotal, hn, takeD_add, hroom, hlength, hstored, hunmasked]
  rw [if_neg (by omega), if_neg (by omega), if_neg (by omega), hm]
  simp [Receiving.more, Receiving.next]

def IsData (head : WSFrameHead) : Prop :=
  head.opcode = WSFrameHead.CONTINUE ∨ head.opcode = WSFrameHead.TEXT_FRAME ∨
    head.opcode = WSFrameHead.BIN_FRAME

instance : DecidablePred IsData := fun _ => inferInstanceAs (Decidable (_ ∨ _ ∨ _))

section Turns

open WSFrameHead

variable (host : Endian) (max_size : UInt32) {m : Receiving}

def control (opcode : Fin 16) : WSFrameHead := { WSFrameHead.zero with fin := true, opcode := opcode }

theorem writeControl_sends (hs : s.closed = false) (opcode : Fin 16) :
    ∃ s', s.writeFixSize ((control opcode).bytes host) = (2, s') ∧
      Sends s ((control opcode).bytes host) s' := by
  have hlength := (control opcode).length_bytes host
  obtain ⟨s', hwrite, hsends⟩ := writeFixSize_sends hs (hlength.trans_lt (by norm_num))
  refine ⟨s', ?_, hsends⟩
  rw [hwrite, hlength]
  rfl

theorem WSPing_sends (hs : s.closed = false) :
    ∃ s', s.WSPing host = (2, s') ∧ Sends s ((control PING).bytes host) s' := by
  obtain ⟨s', hwrite, hsends⟩ := writeControl_sends host hs PING
  refine ⟨s', ?_, hsends⟩
  unfold control at hwrite
  simp only [WSPing, hwrite]
  rfl

theorem WSPong_sends (hs : s.closed = false) :
    ∃ s', s.WSPong host = (2, s') ∧ Sends s ((control PONG).bytes host) s' := by
  obtain ⟨s', hwrite, hsends⟩ := writeControl_sends host hs PONG
  refine ⟨s', ?_, hsends⟩
  unfold control at hwrite
  simp only [WSPong, hwrite]
  rfl

theorem readHead_takes (head : WSFrameHead) (hs : s.Has (head.bytes host ++ post)) :
    ∃ s', s.readFixSize 2 = (2, head.bytes host, s') ∧ s'.Has post := by
  have hlength := head.length_bytes host
  exact readFixSize_takes hs (hlength.trans_lt (by norm_num)) hlength

/-- The loop goes on after the head of a control frame, which is answered if it is a ping. -/
theorem recvTurn_control {head : WSFrameHead} (client : Bool)
    (hdata : ¬ IsData head) (hs : s.Has (head.bytes host ++ post)) :
    ∃ s', s.recvTurn host max_size client m = .ok (some (.inl m), s') ∧ s'.Has post := by
  unfold IsData at hdata
  obtain ⟨s₁, hread, hs₁⟩ := readHead_takes host head hs
  simp only [recvTurn, hread, ofBytes_bytes]
  rw [if_neg (by norm_num)]
  by_cases hping : head.opcode = PING
  · obtain ⟨s₂, hpong, hsends⟩ := WSPong_sends host hs₁.closed
    rw [if_pos hping, hpong]
    exact ⟨s₂, rfl, by rw [hsends.incoming]; exact hs₁.bytes, hsends.closed⟩
  · rw [if_neg hping, if_neg hdata]
    refine ⟨s₁, ?_, hs₁⟩
    split <;> rfl

/-- What a frame of data makes of the loop, with the variables after its payload. -/
def finish (head : WSFrameHead) (r : Option Receiving × Connection) :
    Option (Receiving ⊕ WSFrameMessage) × Connection :=
  (r.1.map fun m => if head.fin then .inr ⟨m.opcode, m.data⟩ else .inl m, r.2)

/-- A frame of data comes to its payload, unless the role of its sender or its length forbids. -/
theorem recvTurn_data {head : WSFrameHead} {mask : List UInt8} {size : ℕ} (client : Bool)
    (m : Receiving) (hdata : IsData head) (hmask : mask.length = 4) (hsize : Encodes head size)
    (hs : s.Has (head.bytes host ++ ((sendLength host head size).getD [] ++
      ((if head.mask then some mask else none).getD [] ++ post)))) :
    ∃ s' : Connection, s'.Has post ∧
      ((client || head.mask) = true → ((m.cur_len + size) % 2 ^ 64).toNat < max_size.toNat →
        s.recvTurn host max_size client m = (s'.readPayload m head
          (if head.mask then mask else List.replicate 4 0) size).map (finish head)) ∧
      (¬ ((client || head.mask) = true ∧ ((m.cur_len + size) % 2 ^ 64).toNat < max_size.toNat) →
        ∃ s'', s.recvTurn host max_size client m = .ok (none, s'')) := by
  obtain ⟨s₁, hread₁, hs₁⟩ := readHead_takes host head hs
  obtain ⟨s₂, hread₂, hs₂⟩ := readLength_takes host hsize hs₁
  obtain ⟨s₃, hread₃, hs₃⟩ := readMask_takes hmask head hs₂
  have hping : head.opcode ≠ PING ∧ head.opcode ≠ PONG := by
    rcases hdata with h | h | h <;> rw [h] <;> decide
  unfold IsData at hdata
  have hturn : s.recvTurn host max_size client m = s₁.recvFrame host max_size client m head := by
    simp only [recvTurn, hread₁, ofBytes_bytes]
    rw [if_neg (by norm_num), if_neg hping.1, if_neg hping.2, if_pos hdata]
  have hrole : (!client && !head.mask) = !(client || head.mask) := (Bool.not_or _ _).symm
  rw [hturn]
  refine ⟨s₃, hs₃, fun hclient hroom => ?_, fun hno => ?_⟩
  · simp only [recvFrame, hrole, hclient, hread₂, hread₃]
    rw [if_neg (by simp), if_neg (by omega)]
    generalize s₃.readPayload m head (if head.mask then mask else List.replicate 4 0) size = r
    obtain fault | ⟨_ | m', s₄⟩ := r
    · rfl
    · rfl
    · rfl
  · simp only [recvFrame, hrole, hread₂]
    by_cases hclient : (client || head.mask) = true
    · rw [hclient, if_neg (by simp), if_pos (by simp only [hclient, true_and] at hno; omega)]
      exact ⟨s₂, rfl⟩
    · rw [if_pos (by simpa using hclient)]
      exact ⟨s₁, rfl⟩

theorem recvTurn_wire {client fin : Bool} {opcode : ℤ} {rand : UInt32}
    (hopcode : code opcode = CONTINUE ∨ code opcode = TEXT_FRAME ∨ code opcode = BIN_FRAME)
    (hm : m.cur_len = m.data.length) (hdata : data ≠ []) (hold : m.data.length < 2 ^ 31)
    (hlt : data.length < 2 ^ 31) (hsize : m.data.length + data.length < max_size.toNat)
    (hs : s.Has (wire host client fin opcode data rand ++ post)) :
    ∃ s', s.recvTurn host max_size (!client) m = .ok (some
        (if fin then .inr ⟨(m.more (code opcode) data).opcode, m.data ++ data⟩
          else .inl (m.more (code opcode) data)), s') ∧ s'.Has post := by
  have hframe : IsData (sendHead ⟨opcode, data⟩ client fin) := hopcode
  simp only [wire, List.append_assoc] at hs
  obtain ⟨s₃, hs₃, hgoes, -⟩ := recvTurn_data host max_size (!client) m hframe
    (length_objectBytes host 4 rand.toNat)
    (sendHead_encodes ⟨opcode, data⟩ client fin (by dsimp only; omega)) hs
  have hpayload : (if client then maskData (objectBytes host 4 rand.toNat) 0 data.length data else data) =
      if (sendHead ⟨opcode, data⟩ client fin).mask then
        maskData (if (sendHead ⟨opcode, data⟩ client fin).mask then objectBytes host 4 rand.toNat
          else List.replicate 4 0) 0 data.length data else data := by
    cases client <;> rfl
  rw [hpayload] at hs₃
  obtain ⟨s₄, hread, hs₄⟩ := readPayload_takes hm _ _ hdata hold hlt hs₃
  have htotal : ((m.cur_len + data.length) % 2 ^ 64).toNat = m.data.length + data.length := by
    rw [hm]
    omega
  refine ⟨s₄, ?_, hs₄⟩
  rw [hgoes (by cases client <;> rfl) (by rw [htotal]; exact hsize), hread]
  rfl

end Turns

/-- A frame before the last fragment of a message. -/
inductive Frame where
  | ping
  | pong
  | fragment (data : List UInt8) (rand : UInt32)
deriving DecidableEq

def payload : Frame → List UInt8
  | .ping | .pong => []
  | .fragment data _ => data

/-- A message as its sender sends it: the first fragment has the opcode of the message and the
later ones are `CONTINUE`, and the last one is final. -/
def sendMessage (host : Endian) (client : Bool) (last : List UInt8) (rand : UInt32) :
    ℤ → List Frame → Connection → Connection
  | opcode, [], s => (s.WSSendMessage host ⟨opcode, last⟩ client true rand).2.2
  | opcode, .ping :: frames, s => sendMessage host client last rand opcode frames (s.WSPing host).2
  | opcode, .pong :: frames, s => sendMessage host client last rand opcode frames (s.WSPong host).2
  | opcode, .fragment data r :: frames, s =>
      sendMessage host client last rand (WSFrameHead.CONTINUE : ℕ) frames
        (s.WSSendMessage host ⟨opcode, data⟩ client false r).2.2

def Full (frames : List Frame) (last : List UInt8) : Prop :=
  last ≠ [] ∧ ∀ data r, .fragment data r ∈ frames → data ≠ []

/-- The opcode of the message is with the next fragment, or it has been received. -/
def Carries (opcode : Fin 16) (next : ℤ) (m : Receiving) : Prop :=
  m.opcode = WSFrameHead.CONTINUE ∧ code next = opcode ∨ m.opcode = opcode ∧ code next = WSFrameHead.CONTINUE

theorem Carries.code_next {opcode : Fin 16} {next : ℤ} {m : Receiving} (h : Carries opcode next m)
    (hopcode : opcode = WSFrameHead.TEXT_FRAME ∨ opcode = WSFrameHead.BIN_FRAME) :
    code next = WSFrameHead.CONTINUE ∨ code next = WSFrameHead.TEXT_FRAME ∨
      code next = WSFrameHead.BIN_FRAME := by
  rcases h with ⟨-, rfl⟩ | ⟨-, h⟩
  · exact .inr hopcode
  · exact .inl h

theorem Carries.opcode_next {opcode : Fin 16} {next : ℤ} {m : Receiving} (h : Carries opcode next m)
    (hopcode : opcode = WSFrameHead.TEXT_FRAME ∨ opcode = WSFrameHead.BIN_FRAME) :
    (m.next (code next) data).opcode = opcode := by
  have hne : opcode ≠ WSFrameHead.CONTINUE := by
    rcases hopcode with rfl | rfl <;> decide
  rcases h with ⟨h₀, rfl⟩ | ⟨rfl, h₁⟩
  · exact if_pos ⟨h₀, hne⟩
  · exact if_neg fun h => h.2 h₁

def wires (host : Endian) (client : Bool) (last : List UInt8) (rand : UInt32) :
    ℤ → List Frame → List UInt8
  | opcode, [] => wire host client true opcode last rand
  | opcode, .ping :: frames =>
      (control WSFrameHead.PING).bytes host ++ wires host client last rand opcode frames
  | opcode, .pong :: frames =>
      (control WSFrameHead.PONG).bytes host ++ wires host client last rand opcode frames
  | opcode, .fragment data r :: frames =>
      wire host client false opcode data r ++
        wires host client last rand (WSFrameHead.CONTINUE : ℕ) frames

def sendControl (host : Endian) (s : Connection) : Frame → Connection
  | .ping => (s.WSPing host).2
  | .pong => (s.WSPong host).2
  | .fragment _ _ => s

/-- A frame that is nothing but the head of a control frame, to both sides. -/
structure IsControl (host : Endian) (frame : Frame) (head : WSFrameHead) : Prop where
  not_data : ¬ IsData head
  not_fragment : ∀ data r, frame ≠ .fragment data r
  payload_eq : payload frame = []
  wires_eq : ∀ client last rand next frames, wires host client last rand next (frame :: frames) =
    head.bytes host ++ wires host client last rand next frames
  sends : ∀ s : Connection, s.closed = false → Sends s (head.bytes host) (sendControl host s frame)
  sendMessage_eq : ∀ client last rand next frames s,
    sendMessage host client last rand next (frame :: frames) s =
      sendMessage host client last rand next frames (sendControl host s frame)

theorem control_or_fragment (host : Endian) (frame : Frame) :
    (∃ head, IsControl host frame head) ∨ ∃ data r, frame = .fragment data r := by
  cases frame with
  | ping =>
    refine .inl ⟨control WSFrameHead.PING, by decide, nofun, rfl, fun _ _ _ _ _ => rfl, ?_,
      fun _ _ _ _ _ _ => rfl⟩
    intro s hs
    obtain ⟨s', hping, hsends⟩ := WSPing_sends host hs
    rwa [sendControl, hping]
  | pong =>
    refine .inl ⟨control WSFrameHead.PONG, by decide, nofun, rfl, fun _ _ _ _ _ => rfl, ?_,
      fun _ _ _ _ _ _ => rfl⟩
    intro s hs
    obtain ⟨s', hpong, hsends⟩ := WSPong_sends host hs
    rwa [sendControl, hpong]
  | fragment data r => exact .inr ⟨data, r, rfl⟩

/-- After `n` bytes of a message, what is left of it is within the limit, and its lengths are within
an `int`. -/
@[mk_iff fits_iff]
structure Fits (max_size : UInt32) (n : ℕ) (frames : List Frame) (last : List UInt8) : Prop where
  before_lt : n + ((frames.map payload).flatten).length < 2 ^ 31
  last_lt : last.length < 2 ^ 31
  total_lt : n + ((frames.map payload).flatten ++ last).length < max_size.toNat

theorem fits_cons {max_size : UInt32} {n : ℕ} {frame : Frame} {frames : List Frame}
    {last : List UInt8} : Fits max_size n (frame :: frames) last ↔
      Fits max_size (n + (payload frame).length) frames last := by
  simp only [fits_iff, List.map_cons, List.flatten_cons, List.length_append]
  omega

theorem full_cons {frame : Frame} {frames : List Frame} {last : List UInt8} :
    Full (frame :: frames) last ↔
      (∀ data r, frame = .fragment data r → data ≠ []) ∧ Full frames last := by
  unfold Full
  simp only [List.mem_cons]
  constructor
  · rintro ⟨hlast, hfull⟩
    exact ⟨fun data r h => hfull data r (.inl h.symm), hlast, fun data r h => hfull data r (.inr h)⟩
  · rintro ⟨hframe, hlast, hfull⟩
    exact ⟨hlast, fun data r h => h.elim (fun h => hframe data r h.symm) (hfull data r)⟩

theorem length_wires (host : Endian) (client : Bool) (last : List UInt8) (rand : UInt32)
    (frames : List Frame) :
    ∀ next, frames.length < (wires host client last rand next frames).length := by
  induction frames with
  | nil =>
    intro next
    simp [wires, wire, WSFrameHead.length_bytes]
  | cons frame frames ih =>
    intro next
    rcases control_or_fragment host frame with ⟨head, hcontrol⟩ | ⟨data, r, rfl⟩
    · have hrest := ih next
      rw [hcontrol.wires_eq, List.length_cons, List.length_append, head.length_bytes]
      omega
    · have hrest := ih (WSFrameHead.CONTINUE : ℕ)
      simp only [wires, wire, List.length_cons, List.length_append, WSFrameHead.length_bytes]
      omega

theorem sendMessage_sends (host : Endian) (client : Bool) {max_size : UInt32} {last : List UInt8}
    (rand : UInt32) (frames : List Frame) : ∀ (next : ℤ) (n : ℕ) (s : Connection), s.closed = false →
    Full frames last → Fits max_size n frames last →
    Sends s (wires host client last rand next frames)
      (sendMessage host client last rand next frames s) := by
  induction frames with
  | nil =>
    intro next n s hs hfull hfits
    exact (WSSendMessage_sends host client true next rand hs hfull.1 hfits.last_lt).2
  | cons frame frames ih =>
    intro next n s hs hfull hfits
    obtain ⟨hframe, hrest⟩ := full_cons.mp hfull
    have hfits' := fits_cons.mp hfits
    rcases control_or_fragment host frame with ⟨head, hcontrol⟩ | ⟨data, r, rfl⟩
    · have hsends := hcontrol.sends s hs
      rw [hcontrol.wires_eq, hcontrol.sendMessage_eq]
      exact hsends.trans (ih next _ _ hsends.closed hrest hfits')
    · have hbefore := hfits'.before_lt
      obtain ⟨-, hsends⟩ := WSSendMessage_sends host client false next r hs (hframe data r rfl)
        (show data.length < 2 ^ 31 by simp only [payload] at hbefore; omega)
      exact hsends.trans (ih _ _ _ hsends.closed hrest hfits')

theorem wires_received (host : Endian) (client : Bool) {max_size : UInt32} {opcode : Fin 16}
    (hopcode : opcode = WSFrameHead.TEXT_FRAME ∨ opcode = WSFrameHead.BIN_FRAME)
    {last : List UInt8} (rand : UInt32) (frames : List Frame) :
    ∀ (next : ℤ) (m : Receiving) (t : Connection) (post : List UInt8) (turns : ℕ),
    Full frames last → Carries opcode next m → m.cur_len = m.data.length →
    Fits max_size m.data.length frames last → t.Has (wires host client last rand next frames ++ post) →
    frames.length < turns →
    ∃ t', recvLoop host max_size (!client) turns t m =
        .ok (some ⟨(opcode : ℕ), m.data ++ ((frames.map payload).flatten ++ last)⟩, t') ∧
      t'.Has post := by
  induction frames with
  | nil =>
    intro next m t post turns hfull hcarries hm hfits ht hturns
    obtain ⟨turns, rfl⟩ : ∃ k, turns = k + 1 := ⟨turns - 1, by omega⟩
    obtain ⟨hbefore, hlast, htotal⟩ := hfits
    simp only [List.map_nil, List.flatten_nil, List.nil_append, List.length_nil] at hbefore htotal ⊢
    obtain ⟨t', hturn, ht'⟩ := recvTurn_wire host max_size (hcarries.code_next hopcode) hm hfull.1
      (by omega) hlast htotal ht
    refine ⟨t', ?_, ht'⟩
    simp only [recvLoop, hturn, if_true, Receiving.opcode_more, hcarries.opcode_next hopcode]
  | cons frame frames ih =>
    intro next m t post turns hfull hcarries hm hfits ht hturns
    obtain ⟨turns, rfl⟩ : ∃ k, turns = k + 1 := ⟨turns - 1, by omega⟩
    obtain ⟨hframe, hrest⟩ := full_cons.mp hfull
    have hfits' := fits_cons.mp hfits
    have hturns' : frames.length < turns := by simpa using hturns
    rcases control_or_fragment host frame with ⟨head, hcontrol⟩ | ⟨data, r, rfl⟩
    · rw [hcontrol.wires_eq, List.append_assoc] at ht
      rw [hcontrol.payload_eq] at hfits'
      obtain ⟨t₁, hturn, ht₁⟩ := recvTurn_control host max_size (!client) hcontrol.not_data ht
      obtain ⟨t', hloop, ht'⟩ := ih next m t₁ post turns hrest hcarries hm hfits' ht₁ hturns'
      refine ⟨t', ?_, ht'⟩
      rw [recvLoop, hturn, List.map_cons, hcontrol.payload_eq]
      exact hloop
    · have hbefore := hfits'.before_lt
      have htotal := hfits'.total_lt
      simp only [payload, List.length_append] at hbefore htotal
      rw [wires, List.append_assoc] at ht
      obtain ⟨t₁, hturn, ht₁⟩ := recvTurn_wire host max_size (hcarries.code_next hopcode) hm
        (hframe data r rfl) (by omega) (by omega) (by omega) ht
      rw [Receiving.more_eq_next _ (by omega)] at hturn
      have hcarries' : Carries opcode (WSFrameHead.CONTINUE : ℕ) (m.next (code next) data) :=
        .inr ⟨hcarries.opcode_next hopcode, rfl⟩
      obtain ⟨t', hloop, ht'⟩ := ih _ _ t₁ post turns hrest hcarries' rfl
        (by simpa [Receiving.next, payload] using hfits') ht₁ hturns'
      refine ⟨t', ?_, ht'⟩
      rw [recvLoop, hturn]
      simpa [Receiving.next, payload] using hloop

/-- Both ways, with any masks, pings and pongs, however the transport cuts up the bytes. -/
theorem message_received (host : Endian) (client : Bool) (max_size : UInt32) (opcode : Fin 16)
    (frames : List Frame) (last : List UInt8) (rand : UInt32) (s : Connection)
    (hopcode : opcode = WSFrameHead.TEXT_FRAME ∨ opcode = WSFrameHead.BIN_FRAME)
    (hfull : Full frames last) (hmax : max_size.toNat ≤ 2 ^ 31 - 1)
    (hsize : ((frames.map payload).flatten ++ last).length < max_size.toNat)
    (hs : s.closed = false) :
    ∃ sent, Sends s sent (sendMessage host client last rand (opcode : ℕ) frames s) ∧
      ∀ (t : Connection) (post : List UInt8), t.Has (sent ++ post) →
        ∃ t', t.WSRecvMessage host max_size (!client) =
            .ok (some ⟨(opcode : ℕ), (frames.map payload).flatten ++ last⟩, t') ∧
          t'.Has post := by
  have hcarries : Carries opcode (opcode : ℕ) ⟨0, [], 0⟩ := by
    refine .inl ⟨rfl, ?_⟩
    rcases hopcode with rfl | rfl <;> rfl
  have hfits : Fits max_size 0 frames last := by
    rw [List.length_append] at hsize
    exact ⟨by omega, by omega, by rw [List.length_append]; omega⟩
  refine ⟨_, sendMessage_sends host client rand frames _ 0 s hs hfull hfits, fun t post ht => ?_⟩
  have hlength := length_wires host client last rand frames (opcode : ℕ)
  refine wires_received host client hopcode rand frames _ ⟨0, [], 0⟩ t post _ hfull hcarries rfl hfits
    ht ?_
  rw [ht.bytes, List.length_append]
  omega

/-- A stream that nothing has been sent on, which moves `n` bytes at a time. -/
def fresh (n : ℕ) : Connection where
  incoming := ⟨[], fun _ => n, fun _ _ _ => 0⟩
  outgoing := ⟨[], fun _ => n, fun _ _ _ => 0⟩
  closed := false

/-- A client sends two fragments with a ping and a pong before the last. -/
theorem message_received_fragments :
    ∃ sent, Sends (fresh 3) sent (sendMessage .little true [5] 0x01020304 1
        [.ping, .fragment [1, 2, 3, 4] 0xfffefdfc, .pong] (fresh 3)) ∧
      ∀ (t : Connection) (post : List UInt8), t.Has (sent ++ post) →
        ∃ t', t.WSRecvMessage .little 6 false = .ok (some ⟨1, [1, 2, 3, 4, 5]⟩, t') ∧ t'.Has post :=
  message_received .little true 6 1 [.ping, .fragment [1, 2, 3, 4] 0xfffefdfc, .pong] [5] 0x01020304
    (fresh 3) (.inl rfl) ⟨by decide, by simp⟩ (by decide) (by decide) rfl

end Connection

end Sylar
