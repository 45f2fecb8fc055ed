import Sylar.Proofs.WSSession

/-! Which messages come through. `readFixSize` and `writeFixSize` have the result 0 at the end of the
stream and after no bytes, so that an empty fragment ends the stream, on either side of it. -/

namespace Sylar

open Lib

namespace Connection

variable {s s' t : Connection} {m m' : Receiving} {data post : List UInt8} {max_size : UInt32}
variable (host : Endian)

theorem readPayload_none {head : WSFrameHead} {mask : List UInt8} {length : ℕ}
    (h : (s.readFixSize length).1 ≤ 0) : s.readPayload m head mask length ≠ .ok (some m', s') := by
  unfold readPayload
  dsimp only
  split
  · rintro ⟨⟩
  · rintro ⟨⟩

theorem readPayload_outside {head : WSFrameHead} {mask : List UInt8} {length : ℕ}
    (hpos : 0 < (s.readFixSize length).2.1.length)
    (hlt : ((m.cur_len + length) % 2 ^ 64).toNat <
      (m.cur_len % 2 ^ 64).toNat + (s.readFixSize length).2.1.length) :
    s.readPayload m head mask length ≠ .ok (some m', s') := by
  unfold readPayload
  simp only [List.takeD_length]
  rw [if_pos ⟨hpos, hlt⟩]
  rintro ⟨⟩

section

open WSFrameHead

variable {client fin : Bool} {opcode : ℤ} {rand : UInt32}

/-- A fragment after which the loop does not go on, because of its payload. -/
theorem recvTurn_stops
    (hopcode : code opcode = CONTINUE ∨ code opcode = TEXT_FRAME ∨ code opcode = BIN_FRAME)
    (hlt : data.length < 2 ^ 63) (hs : s.Has (wire host client fin opcode data rand ++ post))
    (hpayload : ((m.cur_len + data.length) % 2 ^ 64).toNat < max_size.toNat →
      ∀ (s₁ s₂ : Connection) (bytes mask : List UInt8) (m₁ : Receiving),
        s₁.Has (bytes ++ post) → bytes.length = data.length →
        s₁.readPayload m (sendHead ⟨opcode, data⟩ client fin) mask data.length ≠ .ok (some m₁, s₂)) :
    ∀ x s', s.recvTurn host max_size (!client) m ≠ .ok (some x, s') := by
  intro x s' hturn
  have hframe : IsData (sendHead ⟨opcode, data⟩ client fin) := hopcode
  simp only [wire, List.append_assoc] at hs
  obtain ⟨s₁, hs₁, hgoes, hstops⟩ := recvTurn_data host max_size (!client) m hframe
    (length_objectBytes host 4 rand.toNat)
    (sendHead_encodes ⟨opcode, data⟩ client fin (by dsimp only; omega)) hs
  have hrole : (!client || (sendHead ⟨opcode, data⟩ client fin).mask) = true := by
    cases client <;> rfl
  by_cases hroom : ((m.cur_len + data.length) % 2 ^ 64).toNat < max_size.toNat
  · rw [hgoes hrole hroom] at hturn
    have hnone := fun s₂ mask m₁ => hpayload hroom s₁ s₂ _ mask m₁ hs₁ (by
      split
      · exact length_maskData _ _ _ _
      · rfl)
    obtain ⟨r, hread⟩ : ∃ r, s₁.readPayload m (sendHead ⟨opcode, data⟩ client fin)
        (if (sendHead ⟨opcode, data⟩ client fin).mask then objectBytes host 4 rand.toNat
          else List.replicate 4 0) data.length = r := ⟨_, rfl⟩
    rw [hread] at hturn
    obtain fault | ⟨_ | m₁, s₂⟩ := r
    · cases hturn
    · cases hturn
    · exact hnone s₂ _ m₁ hread
  · obtain ⟨s₂, hstop⟩ := hstops fun h => hroom h.2
    rw [hstop] at hturn
    cases hturn

/-- One that is empty, whose length is negative as an `int`, or that goes past the limit. -/
theorem recvTurn_refuses
    (hopcode : code opcode = CONTINUE ∨ code opcode = TEXT_FRAME ∨ code opcode = BIN_FRAME)
    (hm : m.cur_len = m.data.length) (hold : m.data.length < 2 ^ 31) (hlt : data.length < 2 ^ 63)
    (hdata : data = [] ∨ 2 ^ 31 ≤ data.length ∨ max_size.toNat ≤ m.data.length + data.length)
    (hs : s.Has (wire host client fin opcode data rand ++ post)) :
    ∀ x s', s.recvTurn host max_size (!client) m ≠ .ok (some x, s') := by
  refine recvTurn_stops host hopcode hlt hs fun hroom s₁ s₂ bytes mask m₁ hs₁ hlength => ?_
  have hmax := max_size.toNat_lt
  have htotal : ((m.cur_len + data.length) % 2 ^ 64).toNat = m.data.length + data.length := by
    rw [hm]
    omega
  rw [htotal] at hroom
  obtain ⟨s₃, hread, -⟩ := readFixSize_reads hs₁ (hlength.trans_lt hlt)
  rw [hlength] at hread
  refine readPayload_none ?_
  rw [hread]
  dsimp only
  rcases hdata with rfl | hlong | hover
  · rw [List.length_nil, SocketStream.toInt_of_lt (by norm_num), Nat.cast_zero]
  · unfold SocketStream.toInt
    rw [Int.bmod_def]
    omega
  · omega

/-- After `cur_len` has become negative there is no room for a fragment. -/
theorem recvTurn_negative
    (hopcode : code opcode = CONTINUE ∨ code opcode = TEXT_FRAME ∨ code opcode = BIN_FRAME)
    (hneg : m.cur_len < 0) (hle : -2 ^ 31 ≤ m.cur_len) (hlt : data.length < 2 ^ 63)
    (hs : s.Has (wire host client fin opcode data rand ++ post)) :
    ∀ x s', s.recvTurn host max_size (!client) m ≠ .ok (some x, s') := by
  refine recvTurn_stops host hopcode hlt hs fun hroom s₁ s₂ bytes mask m₁ hs₁ hlength => ?_
  have hmax := max_size.toNat_lt
  obtain ⟨s₃, hread, -⟩ := readFixSize_reads hs₁ (hlength.trans_lt hlt)
  rw [hlength] at hread
  refine readPayload_outside ?_ ?_
  · rw [hread]
    dsimp only
    omega
  · rw [hread]
    dsimp only
    omega

theorem recvLoop_stops {client : Bool}
    (h : ∀ x s', s.recvTurn host max_size client m ≠ .ok (some x, s')) (turns : ℕ)
    {msg : WSFrameMessage} : recvLoop host max_size client turns s m ≠ .ok (some msg, s') := by
  cases turns with
  | zero => rintro ⟨⟩
  | succ turns =>
    obtain ⟨r, hturn⟩ : ∃ r, s.recvTurn host max_size client m = r := ⟨_, rfl⟩
    rw [recvLoop, hturn]
    obtain fault | ⟨_ | x, s₁⟩ := r
    · rintro ⟨⟩
    · rintro ⟨⟩
    · exact absurd hturn (h x s₁)

theorem recvLoop_control {head : WSFrameHead} {client : Bool} {turns : ℕ} {msg : WSFrameMessage}
    (hdata : ¬ IsData head) (ht : t.Has (head.bytes host ++ post))
    (h : ∀ t₁ turns, t₁.Has post → recvLoop host max_size client turns t₁ m ≠ .ok (some msg, s')) :
    recvLoop host max_size client turns t m ≠ .ok (some msg, s') := by
  cases turns with
  | zero => rintro ⟨⟩
  | succ turns =>
    obtain ⟨t₁, hturn, ht₁⟩ := recvTurn_control host max_size client hdata ht
    rw [recvLoop, hturn]
    exact h t₁ turns ht₁

end

theorem wires_negative (host : Endian) (client : Bool) {last : List UInt8} (rand : UInt32)
    (frames : List Frame) : ∀ (next : ℤ) (t : Connection) (turns : ℕ),
    (code next = WSFrameHead.CONTINUE ∨ code next = WSFrameHead.TEXT_FRAME ∨
      code next = WSFrameHead.BIN_FRAME) →
    m.cur_len < 0 → -2 ^ 31 ≤ m.cur_len → ((frames.map payload).flatten ++ last).length < 2 ^ 63 →
    t.Has (wires host client last rand next frames ++ post) →
    ∀ msg s', recvLoop host max_size (!client) turns t m ≠ .ok (some msg, s') := by
  induction frames with
  | nil =>
    intro next t turns hnext hneg hle hlt ht msg s'
    exact recvLoop_stops host (recvTurn_negative host hnext hneg hle hlt ht) turns
  | cons frame frames ih =>
    intro next t turns hnext hneg hle hlt ht msg s'
    simp only [List.map_cons, List.flatten_cons, List.append_assoc, List.length_append] at hlt
    rcases control_or_fragment host frame with ⟨head, hcontrol⟩ | ⟨data, r, rfl⟩
    · rw [hcontrol.wires_eq, List.append_assoc] at ht
      refine recvLoop_control host hcontrol.not_data ht fun t₁ turns ht₁ => ?_
      exact ih next t₁ turns hnext hneg hle (by rw [List.length_append]; omega) ht₁ msg s'
    · rw [wires, List.append_assoc] at ht
      simp only [payload] at hlt
      exact recvLoop_stops host (recvTurn_negative host hnext hneg hle (by omega) ht) turns

/-- The first fragment that is empty, or that does not fit, ends the stream. One that only `cur_len`
has no room for is taken, and the next one ends it. -/
theorem wires_refused (host : Endian) (client : Bool) {opcode : Fin 16}
    (hopcode : opcode = WSFrameHead.TEXT_FRAME ∨ opcode = WSFrameHead.BIN_FRAME) {last : List UInt8}
    (rand : UInt32) (frames : List Frame) : ∀ (next : ℤ) (m : Receiving) (t : Connection) (turns : ℕ),
    ¬ (Full frames last ∧ Fits max_size m.data.length frames last) → Carries opcode next m →
    m.cur_len = m.data.length → m.data.length < 2 ^ 31 →
    ((frames.map payload).flatten ++ last).length < 2 ^ 63 →
    t.Has (wires host client last rand next frames ++ post) →
    ∀ msg s', recvLoop host max_size (!client) turns t m ≠ .ok (some msg, s') := by
  induction frames with
  | nil =>
    intro next m t turns hno hcarries hm hold hlt ht msg s'
    have hstop : last = [] ∨ 2 ^ 31 ≤ last.length ∨ max_size.toNat ≤ m.data.length + last.length := by
      by_contra hgoes
      push Not at hgoes
      exact hno ⟨⟨hgoes.1, fun _ _ h => absurd h List.not_mem_nil⟩, hold, hgoes.2.1, hgoes.2.2⟩
    exact recvLoop_stops host
      (recvTurn_refuses host (hcarries.code_next hopcode) hm hold hlt hstop ht) turns
  | cons frame frames ih =>
    intro next m t turns hno hcarries hm hold hlt ht msg s'
    rw [full_cons, fits_cons] at hno
    simp only [List.map_cons, List.flatten_cons, List.append_assoc, List.length_append] at hlt
    rcases control_or_fragment host frame with ⟨head, hcontrol⟩ | ⟨data, r, rfl⟩
    · have hno' : ¬ (Full frames last ∧ Fits max_size m.data.length frames last) := by
        rintro ⟨hfull, hfits⟩
        rw [hcontrol.payload_eq] at hno
        exact hno ⟨⟨fun data r h => absurd h (hcontrol.not_fragment data r), hfull⟩, hfits⟩
      rw [hcontrol.wires_eq, List.append_assoc] at ht
      refine recvLoop_control host hcontrol.not_data ht fun t₁ turns ht₁ => ?_
      exact ih next m t₁ turns hno' hcarries hm hold (by rw [List.length_append]; omega) ht₁ msg s'
    · rw [wires, List.append_assoc] at ht
      simp only [payload] at hlt hno
      have hcode := hcarries.code_next hopcode
      by_cases hstop : data = [] ∨ 2 ^ 31 ≤ data.length ∨ max_size.toNat ≤ m.data.length + data.length
      · exact recvLoop_stops host (recvTurn_refuses host hcode hm hold (by omega) hstop ht) turns
      · push Not at hstop
        obtain ⟨hdata, hlong, hroom⟩ := hstop
        cases turns with
        | zero => rintro ⟨⟩
        | succ turns =>
          obtain ⟨t₁, hturn, ht₁⟩ := recvTurn_wire host max_size hcode hm hdata hold hlong hroom ht
          have hrest : ((frames.map payload).flatten ++ last).length < 2 ^ 63 := by
            rw [List.length_append]
            omega
          rw [recvLoop, hturn]
          by_cases hcur : m.data.length + data.length < 2 ^ 31
          · have hcarries' : Carries opcode (WSFrameHead.CONTINUE : ℕ) (m.next (code next) data) :=
              .inr ⟨hcarries.opcode_next hopcode, rfl⟩
            have hlength : (m.next (code next) data).data.length = m.data.length + data.length :=
              List.length_append
            rw [Receiving.more_eq_next _ hcur]
            refine ih _ _ t₁ turns (fun h => hno ⟨⟨?_, h.1⟩, ?_⟩) hcarries' rfl (by omega) hrest ht₁
              msg s'
            · rintro _ _ ⟨⟩
              exact hdata
            · rw [← hlength]
              exact h.2
          · have hmax := max_size.toNat_lt
            have hneg : (m.more (code next) data).cur_len = m.data.length + data.length - 2 ^ 32 := by
              simp only [Receiving.more, List.length_append]
              rw [Int.bmod_def]
              omega
            exact wires_negative host client rand frames _ t₁ turns (.inl rfl) (by omega) (by omega)
              hrest ht₁ msg s'

/-- `WSSendMessage` has given no error, and the stream is open. -/
def Succeeds (r : ℤ × WSFrameMessage × Connection) : Prop := r.1 ≠ -1 ∧ r.2.2.closed = false

/-- Each `WSSendMessage` of `sendMessage` succeeds. -/
def SendsAll (host : Endian) (client : Bool) (last : List UInt8) (rand : UInt32) :
    ℤ → List Frame → Connection → Prop
  | opcode, [], s => Succeeds (s.WSSendMessage host ⟨opcode, last⟩ client true rand)
  | opcode, .ping :: frames, s => SendsAll host client last rand opcode frames (s.WSPing host).2
  | opcode, .pong :: frames, s => SendsAll host client last rand opcode frames (s.WSPong host).2
  | opcode, .fragment data r :: frames, s =>
      Succeeds (s.WSSendMessage host ⟨opcode, data⟩ client false r) ∧
        SendsAll host client last rand (WSFrameHead.CONTINUE : ℕ) frames
          (s.WSSendMessage host ⟨opcode, data⟩ client false r).2.2

theorem WSSendMessage_succeeds (client fin : Bool) (opcode : ℤ) (rand : UInt32)
    (hs : s.closed = false) (hdata : data ≠ []) (hlt : data.length < 2 ^ 31) :
    Succeeds (s.WSSendMessage host ⟨opcode, data⟩ client fin rand) := by
  obtain ⟨hresult, hsends⟩ := WSSendMessage_sends host client fin opcode rand hs hdata hlt
  refine ⟨?_, hsends.closed⟩
  rw [hresult]
  unfold SocketStream.toInt
  rw [Int.bmod_def]
  omega

/-- The empty payload is sent with the result 0, which is an error. -/
theorem WSSendMessage_empty (s : Connection) (client fin : Bool) (opcode : ℤ) (rand : UInt32) :
    (s.WSSendMessage host ⟨opcode, []⟩ client fin rand).1 = -1 := by
  have hempty : ∀ t : Connection, (t.writeFixSize []).1 ≤ 0 := by
    intro t
    have hzero : SocketStream.toInt 0 = 0 := SocketStream.toInt_of_lt (by norm_num)
    simp [writeFixSize, SocketStream.writeRawFixSize, SocketStream.writeRawLoop, hzero]
  have hmask : ∀ mask, maskData mask 0 0 [] = [] := fun _ => rfl
  unfold WSSendMessage
  cases client with
  | false =>
    simp only [Bool.false_eq_true, if_false]
    split
    · rfl
    split
    · rfl
    split
    · rfl
    rw [if_pos (hempty _)]
  | true =>
    simp only [if_true, List.length_nil, hmask]
    split
    · rfl
    split
    · rfl
    split
    · rfl
    rw [if_pos (hempty _)]

theorem IsControl.sendsAll_iff {frame : Frame} {head : WSFrameHead} {frames : List Frame}
    (h : IsControl host frame head) {client : Bool} {last : List UInt8} {rand : UInt32} {next : ℤ} :
    SendsAll host client last rand next (frame :: frames) s ↔
      SendsAll host client last rand next frames (sendControl host s frame) := by
  cases frame with
  | ping => exact Iff.rfl
  | pong => exact Iff.rfl
  | fragment data r => exact absurd rfl (h.not_fragment data r)

theorem SendsAll.full {client : Bool} {last : List UInt8} {rand : UInt32} (frames : List Frame) :
    ∀ {next : ℤ} {s : Connection}, SendsAll host client last rand next frames s → Full frames last := by
  induction frames with
  | nil =>
    intro next s h
    refine ⟨?_, fun _ _ hmem => absurd hmem List.not_mem_nil⟩
    rintro rfl
    exact h.1 (WSSendMessage_empty host s client true next rand)
  | cons frame frames ih =>
    intro next s h
    rw [full_cons]
    rcases control_or_fragment host frame with ⟨head, hcontrol⟩ | ⟨data, r, rfl⟩
    · exact ⟨fun data r h => absurd h (hcontrol.not_fragment data r), ih (hcontrol.sendsAll_iff.mp h)⟩
    · refine ⟨?_, ih h.2⟩
      rintro _ _ ⟨⟩ rfl
      exact h.1.1 (WSSendMessage_empty host s client false next r)

theorem sendsAll_of_full (client : Bool) {last : List UInt8} (rand : UInt32) (frames : List Frame) :
    ∀ (next : ℤ) (n : ℕ) (s : Connection), s.closed = false → Full frames last →
    Fits max_size n frames last → SendsAll host client last rand next frames s := by
  induction frames with
  | nil =>
    intro next n s hs hfull hfits
    exact WSSendMessage_succeeds host client true next rand hs hfull.1 hfits.last_lt
  | cons frame frames ih =>
    intro next n s hs hfull hfits
    obtain ⟨hframe, hrest⟩ := full_cons.mp hfull
    have hfits' := fits_cons.mp hfits
    rcases control_or_fragment host frame with ⟨head, hcontrol⟩ | ⟨data, r, rfl⟩
    · rw [hcontrol.sendsAll_iff]
      exact ih next _ _ (hcontrol.sends s hs).closed hrest hfits'
    · have hbefore := hfits'.before_lt
      simp only [payload] at hbefore
      have hsucceeds := WSSendMessage_succeeds host client false next r hs (hframe data r rfl)
        (show data.length < 2 ^ 31 by omega)
      exact ⟨hsucceeds, ih _ _ _ hsucceeds.2 hrest hfits'⟩

/-- `WSRecvMessage` on the frames of a message returns the message, and the stream stays open. -/
def Delivers (host : Endian) (client : Bool) (max_size : UInt32) (opcode : Fin 16) (frames : List Frame)
    (last : List UInt8) (rand : UInt32) : Prop :=
  ∀ (t : Connection) (post : List UInt8),
    t.Has (wires host client last rand (opcode : ℕ) frames ++ post) →
    ∃ t', t.WSRecvMessage host max_size (!client) =
        .ok (some ⟨(opcode : ℕ), (frames.map payload).flatten ++ last⟩, t') ∧ t'.closed = false

theorem delivers_iff (client : Bool) (max_size : UInt32) {opcode : Fin 16}
    (hopcode : opcode = WSFrameHead.TEXT_FRAME ∨ opcode = WSFrameHead.BIN_FRAME) (frames : List Frame)
    (last : List UInt8) (rand : UInt32) (hlt : ((frames.map payload).flatten ++ last).length < 2 ^ 63) :
    Delivers host client max_size opcode frames last rand ↔
      Full frames last ∧ Fits max_size 0 frames last := by
  have hcarries : Carries opcode (opcode : ℕ) ⟨0, [], 0⟩ := by
    refine .inl ⟨rfl, ?_⟩
    rcases hopcode with rfl | rfl <;> rfl
  constructor
  · intro h
    by_contra hno
    obtain ⟨t', hrecv, -⟩ := h
      { fresh 1 with incoming := ⟨wires host client last rand (opcode : ℕ) frames ++ [], fun _ => 1,
          fun _ _ _ => 0⟩ } [] ⟨rfl, rfl⟩
    exact wires_refused host client hopcode rand frames _ ⟨0, [], 0⟩ _ _ hno hcarries rfl
      (by norm_num) hlt ⟨rfl, rfl⟩ _ _ hrecv
  · rintro ⟨hfull, hfits⟩ t post ht
    have hlength := length_wires host client last rand frames (opcode : ℕ)
    obtain ⟨t', hrecv, ht'⟩ := wires_received host client hopcode rand frames _ ⟨0, [], 0⟩ t post
      (t.incoming.bytes.length + 1) hfull hcarries rfl hfits ht (by
        rw [ht.bytes, List.length_append]
        omega)
    exact ⟨t', hrecv, ht'.closed⟩

/-- A message comes through just if it has no empty fragment and is within the limits. One that has
an empty fragment fails on both sides. -/
theorem message_delivered_iff (client : Bool) (max_size : UInt32) (opcode : Fin 16)
    (frames : List Frame) (last : List UInt8) (rand : UInt32) (s : Connection)
    (hopcode : opcode = WSFrameHead.TEXT_FRAME ∨ opcode = WSFrameHead.BIN_FRAME)
    (hs : s.closed = false) (hlt : ((frames.map payload).flatten ++ last).length < 2 ^ 63) :
    (SendsAll host client last rand (opcode : ℕ) frames s ∧
        Delivers host client max_size opcode frames last rand ↔
      Full frames last ∧ Fits max_size 0 frames last) ∧
    (¬ Full frames last → ¬ SendsAll host client last rand (opcode : ℕ) frames s ∧
      ¬ Delivers host client max_size opcode frames last rand) := by
  have hdelivers := delivers_iff host client max_size hopcode frames last rand hlt
  refine ⟨⟨fun h => hdelivers.mp h.2, fun h => ?_⟩, fun hno => ⟨fun h => ?_, fun h => ?_⟩⟩
  · exact ⟨sendsAll_of_full host client rand frames _ 0 s hs h.1 h.2, hdelivers.mpr h⟩
  · exact hno (h.full host frames)
  · exact hno (hdelivers.mp h).1

theorem message_delivered_fragments :
    (SendsAll .little true [5] 7 ((1 : Fin 16) : ℕ) [.fragment [1, 2] 3, .ping, .fragment [] 4]
          (fresh 3) ∧
        Delivers .little true 9 1 [.fragment [1, 2] 3, .ping, .fragment [] 4] [5] 7 ↔
      Full [.fragment [1, 2] 3, .ping, .fragment [] 4] [5] ∧
        Fits 9 0 [.fragment [1, 2] 3, .ping, .fragment [] 4] [5]) ∧
    (¬ Full [.fragment [1, 2] 3, .ping, .fragment [] 4] [5] →
      ¬ SendsAll .little true [5] 7 ((1 : Fin 16) : ℕ) [.fragment [1, 2] 3, .ping, .fragment [] 4]
          (fresh 3) ∧
        ¬ Delivers .little true 9 1 [.fragment [1, 2] 3, .ping, .fragment [] 4] [5] 7) :=
  message_delivered_iff .little true 9 1 _ [5] 7 (fresh 3) (.inl rfl) rfl (by simp [payload])

/-- An empty text. -/
theorem message_empty :
    ¬ SendsAll .little false [] 0 ((1 : Fin 16) : ℕ) [] (fresh 3) ∧
      ¬ Delivers .little false 9 1 [] [] 0 := by
  refine ⟨fun h => h.1 rfl, fun h => ?_⟩
  obtain ⟨t', hrecv, -⟩ :=
    h { fresh 3 with incoming := ⟨[0x81, 0], fun _ => 3, fun _ _ _ => 0⟩ } [] ⟨rfl, rfl⟩
  cases hrecv

end Connection

end Sylar
