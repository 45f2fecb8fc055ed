import Sylar.Lib.Partial
import Sylar.Proofs.WSSession

/-! What `WSSendMessage` leaves of a message. A client masks the data in the message itself, so that
the next one who gets the message gets what was masked for the last. -/

namespace Sylar

open Lib

/-- A mask changes nothing just if the bytes of it that are used are 0. -/
theorem maskData_eq_self_iff {mask : List UInt8} (hmask : mask.length = 4) (data : List UInt8) :
    maskData mask 0 data.length data = data ↔ ∀ b ∈ mask.take data.length, b = 0 := by
  have hbyte : ∀ j (hj : j < data.length), (maskData mask 0 data.length data)[j]? =
      some (data[j] ^^^ mask.getD (j % 4) 0) := by
    intro j hj
    unfold maskData
    rw [List.getElem?_mapIdx, List.getElem?_eq_getElem hj, Option.map_some, if_pos (by omega),
      Nat.sub_zero]
  constructor
  · intro h b hb
    obtain ⟨j, hj, rfl⟩ := List.mem_take_iff_getElem.mp hb
    have hat := hbyte j (by omega)
    rw [h, List.getElem?_eq_getElem (by omega), Nat.mod_eq_of_lt (by omega),
      List.getD_eq_getElem _ _ (by omega)] at hat
    exact ((UInt8.xor_right_inj _).mp ((Option.some.inj hat).symm.trans UInt8.xor_zero.symm))
  · intro h
    apply List.ext_getElem?
    intro j
    by_cases hj : j < data.length
    · have hzero : mask.getD (j % 4) 0 = 0 := by
        rw [List.getD_eq_getElem _ _ (by omega)]
        have hle := Nat.mod_le j 4
        exact h _ (List.mem_take_iff_getElem.mpr ⟨j % 4, by omega, rfl⟩)
      rw [hbyte j hj, hzero, UInt8.xor_zero, List.getElem?_eq_getElem hj]
    · rw [List.getElem?_eq_none (by rw [length_maskData]; omega), List.getElem?_eq_none (by omega)]

namespace Connection

/-- A call of `WSSendMessage`. The stream is in whatever state the caller has it in. -/
structure Sending where
  stream : Connection
  client : Bool
  fin : Bool
  rand : UInt32

variable (host : Endian)

def Sending.mask (x : Sending) : List UInt8 := objectBytes host 4 x.rand.toNat

def sendStep (msg : WSFrameMessage) (x : Sending) : Except Fault WSFrameMessage :=
  .ok (x.stream.WSSendMessage host msg x.client x.fin x.rand).2.1

/-- No byte of the mask that is used for the message has a bit. It is not used by a server, and not on a
stream that does not take the head of the frame. -/
def KeepsData (msg : WSFrameMessage) (x : Sending) : Prop :=
  x.client = true → x.stream.closed = false → ∀ b ∈ (x.mask host).take msg.m_data.length, b = 0

/-- Where `m` is sent, the frame that is sent has the payload of `msg`. -/
def SendsPayload (msg m : WSFrameMessage) (x : Sending) : Prop :=
  x.stream.closed = false → msg.m_data ≠ [] → msg.m_data.length < 2 ^ 31 →
    Sends x.stream (wire host x.client x.fin msg.m_opcode msg.m_data x.rand)
      (x.stream.WSSendMessage host m x.client x.fin x.rand).2.2

variable {host : Endian} {s : Connection}

theorem WSSendMessage_server (msg : WSFrameMessage) (fin : Bool) (rand : UInt32) :
    (s.WSSendMessage host msg false fin rand).2.1 = msg := by
  unfold WSSendMessage
  simp only [Bool.false_eq_true, if_false]
  split
  · rfl
  split
  · rfl
  split
  · rfl
  split
  · rfl
  · rfl

theorem WSSendMessage_closed (hs : s.closed = true) (msg : WSFrameMessage) (client fin : Bool)
    (rand : UInt32) : (s.WSSendMessage host msg client fin rand).2.1 = msg := by
  have hwrite : (s.writeFixSize ((sendHead msg client fin).bytes host)).1 ≤ 0 := by
    have hpos : 0 < ((sendHead msg client fin).bytes host).length := by
      rw [WSFrameHead.length_bytes]
      norm_num
    simp [writeFixSize, hs, hpos]
  unfold WSSendMessage
  dsimp only
  rw [if_pos hwrite]

/-- The head and the length are sent, and then the data is masked, whatever is sent after it. -/
theorem WSSendMessage_client (hs : s.closed = false) (msg : WSFrameMessage) (fin : Bool)
    (rand : UInt32) : (s.WSSendMessage host msg true fin rand).2.1 =
      { msg with m_data := maskData (objectBytes host 4 rand.toNat) 0 msg.m_data.length msg.m_data } := by
  obtain ⟨s₁, hwrite₁, hsends₁⟩ := writeFixSize_sends hs
    (((sendHead msg true fin).length_bytes host).trans_lt (by norm_num))
  rw [WSFrameHead.length_bytes] at hwrite₁
  obtain ⟨n, s₂, hwrite₂, hpos, -⟩ := writeIf_sends hsends₁.closed
    (o := sendLength host (sendHead msg true fin) msg.m_data.length) (by
      intro bytes h
      have := sendLength_length h
      omega)
  unfold WSSendMessage
  simp only [hwrite₁, hwrite₂, if_true]
  rw [if_neg (by norm_num), if_neg (by omega)]
  split
  · rfl
  split
  · rfl
  · rfl

theorem sendStep_eq_iff (msg : WSFrameMessage) (x : Sending) :
    sendStep host msg x = .ok msg ↔ KeepsData host msg x := by
  have hmask : (x.mask host).length = 4 := length_objectBytes host 4 x.rand.toNat
  unfold sendStep KeepsData
  rw [Except.ok.injEq]
  cases hclient : x.client with
  | false =>
    rw [WSSendMessage_server]
    exact iff_of_true rfl nofun
  | true =>
    cases hclosed : x.stream.closed with
    | true =>
      rw [WSSendMessage_closed hclosed]
      exact iff_of_true rfl fun _ => nofun
    | false =>
      rw [WSSendMessage_client hclosed]
      have hdata := maskData_eq_self_iff hmask msg.m_data
      constructor
      · intro h _ _
        exact hdata.mp (congrArg WSFrameMessage.m_data h)
      · intro h
        have hsame := hdata.mpr (h rfl rfl)
        unfold Sending.mask at hsame
        rw [hsame]

theorem sendsPayload_self (msg : WSFrameMessage) (x : Sending) : SendsPayload host msg msg x :=
  fun hs hdata hlt => (WSSendMessage_sends host x.client x.fin msg.m_opcode x.rand hs hdata hlt).2

/-- A message that is sent any number of times stays what it is, and is sent as what it is each time,
just if no call has a mask that changes it. -/
theorem message_kept_iff (host : Endian) (msg : WSFrameMessage) (sends : List Sending) :
    Along (sendStep host) (· = msg) msg sends ∧ Each (sendStep host) (SendsPayload host msg) msg sends ↔
      Each (sendStep host) (KeepsData host) msg sends := by
  have hkeeps : Along (sendStep host) (· = msg) msg sends ↔
      Each (sendStep host) (KeepsData host) msg sends := by
    refine along_iff_each (fun _ => True) _ (fun _ _ => True) _ ?_ sends msg trivial rfl
      (each_true sends msg)
    rintro m x m' - rfl - h
    refine ⟨trivial, ?_⟩
    rw [← sendStep_eq_iff, h, Except.ok.injEq]
  rw [hkeeps]
  refine ⟨And.left, fun h => ⟨h, Along.each_of ?_ (hkeeps.mpr h)⟩⟩
  rintro m x rfl
  exact sendsPayload_self m x

/-- One byte that a client sends to two servers: the second gets another. -/
theorem message_kept_twice :
    ¬ Along (sendStep .little) (· = ⟨1, [1]⟩) ⟨1, [1]⟩
        [⟨fresh 3, true, true, 1⟩, ⟨fresh 3, true, true, 2⟩] ∧
      ¬ Each (sendStep .little) (SendsPayload .little ⟨1, [1]⟩) ⟨1, [1]⟩
        [⟨fresh 3, true, true, 1⟩, ⟨fresh 3, true, true, 2⟩] := by
  have hfirst : sendStep .little ⟨1, [1]⟩ ⟨fresh 3, true, true, 1⟩ = .ok ⟨1, [0]⟩ := rfl
  constructor
  · intro h
    exact absurd (h.2 _ hfirst).head (by decide)
  · intro h
    have hsecond := ((h _ hfirst).2 _ rfl).1 rfl (by decide) (by decide)
    exact absurd hsecond.bytes (by decide)

end Connection

end Sylar
