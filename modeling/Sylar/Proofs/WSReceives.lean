import Sylar.Lib.Partial
import Sylar.Proofs.WSSession

/-! `WSRecvMessage` on what any peer sends. A length that takes `cur_len` past `2 ^ 64` is let
through by the check of `max_size`, but it is negative as an `int64_t`, and nothing is read. A key
and a payload are read only for frames of data; what a control frame has of them is taken for the
next headers. -/

namespace Sylar

open Lib

namespace SocketStream

theorem length_recv_le (s : SocketStream) (length : ℕ) : (s.recv length).1.length ≤ length := by
  have hcut : s.cut (min length s.bytes.length) ≤ min length s.bytes.length := Nat.min_le_right _ _
  simp only [recv, List.length_take]
  omega

theorem length_readRawLoop_le (turns left : ℕ) (s : SocketStream) :
    (readRawLoop turns left s).1.length ≤ left := by
  induction turns generalizing left s with
  | zero => exact Nat.zero_le left
  | succ turns ih =>
    have hrecv := length_recv_le s left
    rw [readRawLoop]
    split
    · dsimp only
      split
      · exact Nat.zero_le left
      · have hmore := ih (left - (s.recv left).1.length) (s.recv left).2
        rw [List.length_append]
        omega
    · exact Nat.zero_le left

theorem length_readRawFixSize_le (s : SocketStream) (length : ℕ) :
    (s.readRawFixSize length).2.1.length ≤ (toInt64 length).toNat := by
  unfold readRawFixSize
  generalize (toInt64 length).toNat = left
  exact length_readRawLoop_le left left s

end SocketStream

namespace Connection

variable {s s' : Connection} {m m' : Receiving} {max_size : UInt32} (host : Endian)

theorem length_readFixSize_le (s : Connection) (length : ℕ) :
    (s.readFixSize length).2.1.length ≤ (SocketStream.toInt64 length).toNat := by
  have hraw := SocketStream.length_readRawFixSize_le s.incoming length
  obtain ⟨⟨n, data, rest⟩, hread⟩ : ∃ r, s.incoming.readRawFixSize length = r := ⟨_, rfl⟩
  rw [hread] at hraw
  simp only [readFixSize, hread]
  split
  · simp
  · simpa using hraw

/-- The result is that of the last `read`, or the length once all of it has been read. -/
theorem readFixSize_result (s : Connection) (length : ℕ) :
    (s.readFixSize length).1 ≤ 0 ∨ (s.readFixSize length).1 = SocketStream.toInt length := by
  unfold readFixSize SocketStream.readRawFixSize
  split
  · exact .inl (by norm_num)
  · dsimp only
    split
    · exact .inr rfl
    · exact .inl le_rfl

theorem readNumber_lt {n v : ℕ} (h : s.readNumber host n = (some v, s')) (hn : n < 2 ^ 31) :
    v < 256 ^ n := by
  have hlength := length_readFixSize_le s n
  rw [SocketStream.toInt64_of_lt (hn.trans (by norm_num))] at hlength
  have hvalue := (objectValue_lt host (s.readFixSize n).2.1).trans_le
    (Nat.pow_le_pow_right (by norm_num) hlength)
  unfold readNumber at h
  simp only [Prod.mk.injEq] at h
  obtain ⟨h, -⟩ := h
  split at h
  · cases h
  · cases h
    cases host with
    | little => exact byteswap_lt n _
    | big => exact hvalue

theorem readLength_lt {head : WSFrameHead} {length : ℕ}
    (h : s.readLength host head = (some length, s')) : length < 2 ^ 64 := by
  unfold readLength at h
  split at h
  · exact (readNumber_lt host h (by norm_num)).trans (by norm_num)
  · split at h
    · exact (readNumber_lt host h (by norm_num)).trans_eq (by norm_num)
    · cases h
      exact head.payload.isLt.trans (by norm_num)

/-- What has been received is what `cur_len` says. -/
structure Receiving.Sound (m : Receiving) : Prop where
  cur_len : m.cur_len = m.data.length
  length_lt : m.data.length < 2 ^ 31

/-- Where `cur_len + length` goes past `2 ^ 64`, `length` is negative as an `int64_t` and as an
`int`. -/
theorem wrapped_nonpos {length : ℕ} (hm : m.Sound) (hlength : length < 2 ^ 64)
    (hwrap : 2 ^ 64 ≤ m.data.length + length) :
    SocketStream.toInt64 length ≤ 0 ∧ SocketStream.toInt length ≤ 0 := by
  have hlt := hm.length_lt
  refine ⟨SocketStream.toInt64_nonpos (by omega) hlength, ?_⟩
  unfold SocketStream.toInt
  rw [Int.bmod_def]
  omega

theorem readPayload_within (hmax : max_size.toNat ≤ 2 ^ 31 - 1) (hm : m.Sound) (head : WSFrameHead)
    (mask : List UInt8) {length : ℕ} (hlength : length < 2 ^ 64)
    (hroom : ((m.cur_len + length) % 2 ^ 64).toNat < max_size.toNat) :
    ∃ o s', s.readPayload m head mask length = .ok (o, s') ∧
      ∀ m', o = some m' → m'.Sound ∧ m'.data.length < max_size.toNat := by
  have hlt := hm.length_lt
  have hread := length_readFixSize_le s length
  have hfirst : (m.cur_len % 2 ^ 64).toNat = m.data.length := by
    rw [hm.cur_len]
    omega
  by_cases hwrap : 2 ^ 64 ≤ m.data.length + length
  · -- nothing is read
    obtain ⟨hint64, hint⟩ := wrapped_nonpos hm hlength hwrap
    have hnone : (s.readFixSize length).2.1.length = 0 := by omega
    have hresult : (s.readFixSize length).1 ≤ 0 :=
      (readFixSize_result s length).elim id fun h => h.trans_le hint
    refine ⟨none, (s.readFixSize length).2.2, ?_, nofun⟩
    unfold readPayload
    rw [if_neg (by omega), if_pos hresult]
  · have htotal : ((m.cur_len + length) % 2 ^ 64).toNat = m.data.length + length := by
      rw [hm.cur_len]
      omega
    rw [htotal] at hroom
    rw [SocketStream.toInt64_of_lt (by omega)] at hread
    have hn : (SocketStream.toInt length).toNat = length := by
      rw [SocketStream.toInt_of_lt (by omega), Int.toNat_natCast]
    have hcur : (m.cur_len + length).bmod (2 ^ 32) = m.data.length + length := by
      rw [hm.cur_len]
      exact Int.bmod_eq_of_le (by omega) (by omega)
    have hdata : (m.data.takeD (m.data.length + length) 0).length = m.data.length + length :=
      List.takeD_length _ _ _
    unfold readPayload
    simp only [hfirst, htotal, hdata, hn, hcur]
    rw [if_neg (by omega)]
    by_cases hresult : (s.readFixSize length).1 ≤ 0
    · rw [if_pos hresult]
      exact ⟨none, _, rfl, nofun⟩
    · rw [if_neg hresult, if_neg (by omega)]
      refine ⟨some _, _, rfl, ?_⟩
      rintro m' ⟨⟩
      have hstored : (overwrite (m.data.takeD (m.data.length + length) 0) m.data.length
          (s.readFixSize length).2.1).length = m.data.length + length := by
        rw [length_overwrite (by omega), hdata]
      have hunmasked : (if head.mask then maskData mask m.data.length length
            (overwrite (m.data.takeD (m.data.length + length) 0) m.data.length
              (s.readFixSize length).2.1)
          else overwrite (m.data.takeD (m.data.length + length) 0) m.data.length
            (s.readFixSize length).2.1).length = m.data.length + length := by
        split
        · rw [length_maskData, hstored]
        · exact hstored
      refine ⟨⟨?_, ?_⟩, ?_⟩
      · dsimp only
        rw [hunmasked]
        rfl
      · dsimp only
        omega
      · dsimp only
        omega

/-- What a turn of the loop goes on with is sound, and what it returns is within the limit. -/
def Within (max_size : UInt32) : Receiving ⊕ WSFrameMessage → Prop
  | .inl m => m.Sound
  | .inr msg => msg.m_data.length < max_size.toNat

theorem recvFrame_within (hmax : max_size.toNat ≤ 2 ^ 31 - 1) (hm : m.Sound) (s : Connection)
    (client : Bool) (head : WSFrameHead) :
    ∃ o s', s.recvFrame host max_size client m head = .ok (o, s') ∧
      ∀ x, o = some x → Within max_size x := by
  unfold recvFrame
  split
  · exact ⟨none, _, rfl, nofun⟩
  split
  · exact ⟨none, _, rfl, nofun⟩
  next length s₁ hlength =>
  split
  · exact ⟨none, _, rfl, nofun⟩
  next hroom =>
  split
  · exact ⟨none, _, rfl, nofun⟩
  next mask s₂ hmask =>
  obtain ⟨o, s₃, hpayload, hwithin⟩ := readPayload_within (s := s₂) hmax hm head mask
    (readLength_lt host hlength) (by omega)
  rw [hpayload]
  cases o with
  | none => exact ⟨none, _, rfl, nofun⟩
  | some m' =>
    obtain ⟨hsound, hlt⟩ := hwithin m' rfl
    refine ⟨some _, _, rfl, ?_⟩
    rintro x ⟨⟩
    split
    · exact hlt
    · exact hsound

theorem recvTurn_within (hmax : max_size.toNat ≤ 2 ^ 31 - 1) (hm : m.Sound) (s : Connection)
    (client : Bool) :
    ∃ o s', s.recvTurn host max_size client m = .ok (o, s') ∧ ∀ x, o = some x → Within max_size x := by
  have hgoes : ∀ x, some (Sum.inl m : Receiving ⊕ WSFrameMessage) = some x → Within max_size x := by
    rintro x ⟨⟩
    exact hm
  unfold recvTurn
  dsimp only
  split
  · exact ⟨none, _, rfl, nofun⟩
  split
  · refine ⟨_, _, rfl, ?_⟩
    split
    · exact nofun
    · exact hgoes
  split
  · exact ⟨_, _, rfl, hgoes⟩
  split
  · exact recvFrame_within host hmax hm _ client _
  · exact ⟨_, _, rfl, hgoes⟩

theorem recvLoop_within (hmax : max_size.toNat ≤ 2 ^ 31 - 1) (client : Bool) (turns : ℕ)
    (s : Connection) (hm : m.Sound) :
    ∃ o s', recvLoop host max_size client turns s m = .ok (o, s') ∧
      ∀ msg, o = some msg → msg.m_data.length < max_size.toNat := by
  induction turns generalizing s m with
  | zero => exact ⟨none, _, rfl, nofun⟩
  | succ turns ih =>
    obtain ⟨o, s', hturn, hwithin⟩ := recvTurn_within host hmax hm s client
    rw [recvLoop, hturn]
    cases o with
    | none => exact ⟨none, _, rfl, nofun⟩
    | some x =>
      cases x with
      | inl m' => exact ih s' (hwithin _ rfl)
      | inr msg =>
        refine ⟨some msg, s', rfl, ?_⟩
        rintro msg' ⟨⟩
        exact hwithin _ rfl

/-- No peer makes it write outside of its data, or return a message that is too long. -/
theorem WSRecvMessage_within (max_size : UInt32) (hmax : max_size.toNat ≤ 2 ^ 31 - 1)
    (s : Connection) (client : Bool) :
    ∃ o s', s.WSRecvMessage host max_size client = .ok (o, s') ∧
      ∀ msg, o = some msg → msg.m_data.length < max_size.toNat :=
  recvLoop_within host hmax client _ s ⟨rfl, by norm_num⟩

/-- A final fragment of `2 ^ 64 - 1` bytes after one of one byte. -/
theorem WSRecvMessage_within_wrapped :
    ∃ o s', { fresh 3 with incoming := ⟨[0x01, 0x81, 0, 0, 0, 0, 7, 0x80, 0xff, 0xff, 0xff, 0xff,
          0xff, 0xff, 0xff, 0xff, 0xff, 0, 0, 0, 0, 1, 2, 3], fun _ => 3, fun _ _ _ => 0⟩ }.WSRecvMessage
        .little 0x7fffffff false = .ok (o, s') ∧
      ∀ msg, o = some msg → msg.m_data.length < 0x7fffffff :=
  WSRecvMessage_within .little 0x7fffffff (by decide) _ false

/-- A frame on the wire. The key is sent if the head has `mask`, and `data` is masked by then. -/
structure WSFrame where
  head : WSFrameHead
  mask : List UInt8
  data : List UInt8
  known : IsData head ∨ head.opcode = WSFrameHead.CLOSE ∨ head.opcode = WSFrameHead.PING ∨
    head.opcode = WSFrameHead.PONG
  length_mask : mask.length = 4
  encodes : Encodes head data.length
  length_lt : data.length < 2 ^ 63
  control_le : ¬ IsData head → (head.payload : ℕ) ≤ 125

namespace WSFrame

def tail (f : WSFrame) : List UInt8 := (if f.head.mask then some f.mask else none).getD [] ++ f.data

def bytes (f : WSFrame) : List UInt8 :=
  f.head.bytes host ++ ((sendLength host f.head f.data.length).getD [] ++ f.tail)

def Bare (f : WSFrame) : Prop := f.head.mask = false ∧ f.data = []

theorem tail_eq_nil_iff (f : WSFrame) : f.tail = [] ↔ f.Bare := by
  have hkey : f.mask ≠ [] := fun h => by simpa [h] using f.length_mask
  unfold tail Bare
  cases f.head.mask with
  | false => simp
  | true => simp [hkey]

theorem two_le_length (f : WSFrame) : 2 ≤ (f.bytes host).length := by
  rw [bytes, List.length_append, f.head.length_bytes]
  omega

theorem bytes_control {f : WSFrame} (hcontrol : ¬ IsData f.head) :
    f.bytes host = f.head.bytes host ++ f.tail := by
  have hle := f.control_le hcontrol
  have h126 : f.head.payload ≠ 126 := fun h => by simp [h] at hle
  have h127 : f.head.payload ≠ 127 := fun h => by simp [h] at hle
  rw [bytes, sendLength, if_neg h126, if_neg h127]
  rfl

end WSFrame

def sent (frames : List WSFrame) : List UInt8 := frames.flatMap (WSFrame.bytes host)

theorem length_sent_le {rest frames : List WSFrame} (h : rest <:+ frames) :
    (sent host rest).length ≤ (sent host frames).length := by
  obtain ⟨pre, rfl⟩ := h
  simp [sent]

theorem length_sent_cons (f : WSFrame) (rest : List WSFrame) :
    (sent host (f :: rest)).length = (f.bytes host).length + (sent host rest).length := by
  simp [sent]

theorem eq_of_length_sent {rest rest' frames : List WSFrame} (h : rest <:+ frames)
    (h' : rest' <:+ frames) (heq : (sent host rest).length = (sent host rest').length) :
    rest = rest' := by
  have hle : ∀ {a b : List WSFrame}, a <:+ b → (sent host a).length = (sent host b).length → a = b := by
    rintro a b ⟨pre, rfl⟩ hlength
    cases pre with
    | nil => rfl
    | cons f pre =>
      have hf := f.two_le_length host
      have ha := length_sent_le host (List.suffix_append pre a)
      rw [List.cons_append, length_sent_cons] at hlength
      omega
  rcases List.suffix_or_suffix_of_suffix h h' with hsuffix | hsuffix
  · exact hle hsuffix heq
  · exact (hle hsuffix heq.symm).symm

/-- The next header to be read is that of one of the frames. -/
def AtFrame (frames : List WSFrame) (p : Connection × Receiving) : Prop :=
  ∃ rest, rest <:+ frames ∧ p.1.incoming.bytes = sent host rest

theorem not_atFrame {f : WSFrame} {rest frames : List WSFrame} {p : Connection × Receiving}
    {x : List UInt8} (h : f :: rest <:+ frames) (hx : x ≠ []) (hlt : x.length < (f.bytes host).length)
    (hp : p.1.incoming.bytes = x ++ sent host rest) : ¬ AtFrame host frames p := by
  rintro ⟨rest', hrest', hbytes⟩
  have hpos : 0 < x.length := List.length_pos_iff.mpr hx
  have hlength := congrArg List.length (hp.symm.trans hbytes)
  rw [List.length_append] at hlength
  have hcons := length_sent_cons host f rest
  rcases List.suffix_or_suffix_of_suffix h hrest' with hsuffix | hsuffix
  · have hle := length_sent_le host hsuffix
    omega
  · rcases List.suffix_cons_iff.mp hsuffix with rfl | hsuffix
    · omega
    · have hle := length_sent_le host hsuffix
      omega

theorem recvTurn_end (max_size : UInt32) (client : Bool) (m : Receiving) (hs : s.Has []) :
    ∃ s', s.recvTurn host max_size client m = .ok (none, s') := by
  have hread : (s.readFixSize 2).1 ≤ 0 := by
    have hleft : (SocketStream.toInt64 2).toNat = 2 := SocketStream.toInt64_of_lt (by norm_num)
    simp [readFixSize, hs.closed, SocketStream.readRawFixSize, hleft, SocketStream.readRawLoop,
      SocketStream.recv, hs.bytes]
  refine ⟨(s.readFixSize 2).2.2, ?_⟩
  simp only [recvTurn]
  rw [if_pos hread]

theorem readPayload_stream {head : WSFrameHead} {mask : List UInt8} {length : ℕ}
    {o : Option Receiving} (h : s.readPayload m head mask length = .ok (o, s')) :
    s' = (s.readFixSize length).2.2 := by
  unfold readPayload at h
  dsimp only at h
  split at h
  · cases h
  split at h
  · cases h
    rfl
  split at h
  · cases h
  · cases h
    rfl

theorem nextHeader_data {f : WSFrame} (client : Bool) (hdata : IsData f.head)
    (hs : s.Has (f.bytes host ++ post))
    (h : nextHeader host max_size client (s, m) () = .ok (s', m')) : s'.Has post := by
  simp only [WSFrame.bytes, WSFrame.tail, List.append_assoc] at hs
  obtain ⟨s₁, hs₁, hgoes, hstops⟩ :=
    recvTurn_data host max_size client m hdata f.length_mask f.encodes hs
  obtain ⟨s₂, hread, hs₂⟩ := readFixSize_reads hs₁ f.length_lt
  by_cases hgo : (client || f.head.mask) = true ∧
      ((m.cur_len + f.data.length) % 2 ^ 64).toNat < max_size.toNat
  · have hturn := hgoes hgo.1 hgo.2
    obtain ⟨r, hpayload⟩ : ∃ r, s₁.readPayload m f.head
        (if f.head.mask then f.mask else List.replicate 4 0) f.data.length = r := ⟨_, rfl⟩
    unfold nextHeader at h
    rw [hturn, hpayload] at h
    cases r with
    | error fault => cases h
    | ok r =>
      obtain ⟨o, s₃⟩ := r
      have hstream : s₃ = s₂ := by rw [readPayload_stream hpayload, hread]
      subst hstream
      cases o with
      | none => cases h
      | some m₁ =>
        cases hfin : f.head.fin with
        | false =>
          simp only [Except.map, finish, Option.map_some, hfin] at h
          cases h
          exact hs₂
        | true =>
          simp only [Except.map, finish, Option.map_some, hfin] at h
          cases h
          exact hs₂
  · obtain ⟨s₃, hturn⟩ := hstops hgo
    unfold nextHeader at h
    rw [hturn] at h
    cases h

/-- After the head of a control frame what follows the head is next. -/
theorem nextHeader_control {f : WSFrame} (client : Bool) (hcontrol : ¬ IsData f.head)
    (hs : s.Has (f.bytes host ++ post))
    (h : nextHeader host max_size client (s, m) () = .ok (s', m')) : s'.Has (f.tail ++ post) := by
  rw [f.bytes_control host hcontrol, List.append_assoc] at hs
  obtain ⟨s₁, hturn, hs₁⟩ := recvTurn_control host max_size client hcontrol hs
  unfold nextHeader at h
  rw [hturn] at h
  cases h
  exact hs₁

/-- The frame whose header is next is taken as a whole. -/
def TakesNext (frames : List WSFrame) (p : Connection × Receiving) : Prop :=
  ∀ f rest, f :: rest <:+ frames → p.1.incoming.bytes = sent host (f :: rest) →
    IsData f.head ∨ f.Bare

theorem nextHeader_atFrame_iff {frames : List WSFrame} {p p' : Connection × Receiving} (client : Bool)
    (hopen : p.1.closed = false) (hat : AtFrame host frames p)
    (h : nextHeader host max_size client p () = .ok p') :
    p'.1.closed = false ∧ (AtFrame host frames p' ↔ TakesNext host frames p) := by
  obtain ⟨s, m⟩ := p
  obtain ⟨s', m'⟩ := p'
  obtain ⟨rest, hrest, hbytes⟩ := hat
  cases rest with
  | nil =>
    obtain ⟨s₁, hturn⟩ := recvTurn_end host max_size client m ⟨hbytes, hopen⟩
    unfold nextHeader at h
    rw [hturn] at h
    cases h
  | cons f rest =>
    have hs : s.Has (f.bytes host ++ sent host rest) := ⟨hbytes, hopen⟩
    have hsuffix : rest <:+ frames := (List.suffix_cons f rest).trans hrest
    have hnext : TakesNext host frames (s, m) ↔ IsData f.head ∨ f.Bare := by
      constructor
      · intro htakes
        exact htakes f rest hrest hbytes
      · intro hf f₁ rest₁ hrest₁ hbytes₁
        cases eq_of_length_sent host hrest hrest₁ (congrArg List.length (hbytes.symm.trans hbytes₁))
        exact hf
    rw [hnext]
    by_cases hdata : IsData f.head
    · have hs' := nextHeader_data host client hdata hs h
      exact ⟨hs'.closed, fun _ => .inl hdata, fun _ => ⟨rest, hsuffix, hs'.bytes⟩⟩
    · have hs' := nextHeader_control host client hdata hs h
      refine ⟨hs'.closed, fun hat' => .inr ?_, ?_⟩
      · by_contra hbare
        refine not_atFrame host hrest (fun hnil => hbare (f.tail_eq_nil_iff.mp hnil)) ?_ hs'.bytes hat'
        rw [f.bytes_control host hdata, List.length_append, f.head.length_bytes]
        omega
      · rintro (hdata' | hbare)
        · exact absurd hdata' hdata
        · refine ⟨rest, hsuffix, ?_⟩
          have hbytes' := hs'.bytes
          rwa [f.tail_eq_nil_iff.mpr hbare] at hbytes'

/-- The header that is read is always that of a frame just if each control frame that it comes to is
nothing but its head. -/
theorem headers_atFrame_iff (max_size : UInt32) (client : Bool) (frames : List WSFrame)
    (hs : s.Has (sent host frames)) (turns : List Unit) :
    Along (nextHeader host max_size client) (AtFrame host frames) (s, ⟨0, [], 0⟩) turns ↔
      Each (nextHeader host max_size client) (fun p _ => TakesNext host frames p) (s, ⟨0, [], 0⟩)
        turns := by
  refine along_iff_each (fun p => p.1.closed = false) _ (fun _ _ => True) _ ?_ turns _ hs.closed
    ⟨frames, List.suffix_refl frames, hs.bytes⟩ (each_true turns _)
  intro p _ p' hopen hat _ h
  exact nextHeader_atFrame_iff host client hopen hat h

def maskedPing (mask : List UInt8) (hmask : mask.length = 4) : WSFrame where
  head := { control WSFrameHead.PING with mask := true }
  mask := mask
  data := []
  known := .inr (.inr (.inl rfl))
  length_mask := hmask
  encodes := rfl
  length_lt := by norm_num
  control_le := fun _ => Nat.zero_le 125

def carrying (frames : List WSFrame) : Connection :=
  { fresh 3 with incoming := ⟨sent host frames, fun _ => 3, fun _ _ _ => 0⟩ }

theorem headers_atFrame_masked :
    Along (nextHeader .little 6 false) (AtFrame .little [maskedPing [1, 2, 3, 4] rfl])
        (carrying .little [maskedPing [1, 2, 3, 4] rfl], ⟨0, [], 0⟩) [()] ↔
      Each (nextHeader .little 6 false)
        (fun p _ => TakesNext .little [maskedPing [1, 2, 3, 4] rfl] p)
        (carrying .little [maskedPing [1, 2, 3, 4] rfl], ⟨0, [], 0⟩) [()] :=
  headers_atFrame_iff .little 6 false [maskedPing [1, 2, 3, 4] rfl] ⟨rfl, rfl⟩ [()]

/-- The key of a ping is taken for a header. -/
theorem headers_after_ping :
    ¬ Along (nextHeader .little 6 false) (AtFrame .little [maskedPing [1, 2, 3, 4] rfl])
      (carrying .little [maskedPing [1, 2, 3, 4] rfl], ⟨0, [], 0⟩) [()] := by
  intro h
  obtain ⟨rest, hrest, hbytes⟩ := h.2 _ rfl
  rcases List.suffix_cons_iff.mp hrest with rfl | hrest
  · exact absurd (congrArg List.length hbytes) (by decide)
  · rw [List.suffix_nil.mp hrest] at hbytes
    exact absurd (congrArg List.length hbytes) (by decide)

end Connection

end Sylar
