import Sylar.Proofs.RockMessages

/-! Messages on a stream. What `serializeTo` writes is a header and a body, plain or packed;
`parseFrom` takes exactly these off the stream and finds the message in them. -/

namespace Sylar

open Lib

/-- The header on the wire, which has the length in network byte order. -/
def wireHeader (flag : UInt8) (length : ℕ) : List UInt8 :=
  [0xab, 0xcd, 1, flag] ++ (leBytes 4 length).reverse

def frame (flag : UInt8) (y : List UInt8) : List UInt8 := wireHeader flag y.length ++ y

theorem length_wireHeader (flag : UInt8) (length : ℕ) : (wireHeader flag length).length = 8 := by
  simp [wireHeader]

theorem toNat_byteswap (v : ℕ) : (UInt32.ofNat (byteswap 4 v)).toNat = byteswap 4 v :=
  UInt32.toNat_ofNat_of_lt' ((byteswap_lt 4 v).trans_le (by norm_num [UInt32.size]))

theorem objectBytes_byteswapOnLittleEndian (host : Endian) (v : UInt32) :
    objectBytes host 4 (byteswapOnLittleEndian host v).toNat = (leBytes 4 v.toNat).reverse := by
  cases host with
  | little =>
    have hbytes := leBytes_leNat (leBytes 4 v.toNat).reverse
    rw [List.length_reverse, length_leBytes] at hbytes
    rw [byteswapOnLittleEndian, toNat_byteswap, objectBytes]
    exact hbytes
  | big => rw [byteswapOnLittleEndian, objectBytes]

theorem bytes_header (host : Endian) (flag : UInt8) (length : ℕ) (hlt : length < 2 ^ 32) :
    RockMsgHeader.bytes host { RockMsgHeader.new with
      flag := flag, length := byteswapOnLittleEndian host (UInt32.ofNat length) } =
      wireHeader flag length := by
  have hlength : (UInt32.ofNat length).toNat = length := UInt32.toNat_ofNat_of_lt' hlt
  unfold RockMsgHeader.bytes wireHeader
  rw [objectBytes_byteswapOnLittleEndian, hlength]
  rfl

theorem ofBytes_wireHeader (host : Endian) (flag : UInt8) (length : ℕ) :
    ∃ header, RockMsgHeader.ofBytes host (wireHeader flag length) = header ∧
      header.magic = s_rock_magic ∧ header.version = 1 ∧ header.flag = flag ∧
      byteswapOnLittleEndian host header.length = UInt32.ofNat length := by
  refine ⟨_, rfl, rfl, rfl, rfl, ?_⟩
  change byteswapOnLittleEndian host
    (UInt32.ofNat (objectValue host (leBytes 4 length).reverse)) = _
  have hmod : UInt32.ofNat (length % 256 ^ 4) = UInt32.ofNat length := by
    apply UInt32.toNat_inj.mp
    rw [UInt32.toNat_ofNat', UInt32.toNat_ofNat']
    omega
  cases host with
  | little =>
    have hswap : objectValue .little (leBytes 4 length).reverse = byteswap 4 length := rfl
    rw [byteswapOnLittleEndian, hswap, toNat_byteswap, byteswap_byteswap, hmod]
  | big => rw [byteswapOnLittleEndian, objectValue, List.reverse_reverse, leNat_leBytes, hmod]

/-- `y` is what is sent of a message, under the flag of the header. -/
def Packed (zlib : Zlib) (msg : RockMessage) (flag : UInt8) (y : List UInt8) : Prop :=
  flag = 0 ∧ y = msg.bytes ∨ flag = 1 ∧ zlib.Gzip msg.bytes y

theorem Packed.ne_nil {zlib : Zlib} {msg : RockMessage} {flag : UInt8} {y : List UInt8}
    (h : Packed zlib msg flag y) : y ≠ [] := by
  rcases h with ⟨-, rfl⟩ | ⟨-, h⟩
  · exact msg.bytes_ne_nil
  · exact zlib.nonempty _ _ h

namespace RockPeer

variable {p : RockPeer} {msg : RockMessage} {flag : UInt8} {y post : List UInt8}

theorem pack_spec (p : RockPeer) (msg : RockMessage) (heap zheap : ℕ → ℕ → UInt8) :
    ∃ ba flag y, p.pack msg heap zheap = .ok (.inr (ba, { RockMsgHeader.new with
        flag := flag, length := UInt32.ofNat y.length })) ∧
      ba.Holds [] y ∧ Packed p.zlib msg flag y := by
  obtain ⟨ba, hmsg, hba⟩ := msg.toByteArray_holds heap
  obtain ⟨ba₀, hset, hba₀⟩ := hba.rewind
  rw [List.append_nil] at hba₀
  have hsize : ba₀.getSize = msg.bytes.length := hba₀.size_eq
  by_cases hmin : UInt32.ofNat msg.bytes.length ≥ p.config.gzip_min_length
  · obtain ⟨z, z', hwrite, hflush, hgzip⟩ := ZlibStream.write_flush (p.zlib.deflates msg.bytes)
      hba₀.unread msg.length_bytes_lt
    obtain ⟨ba', hget, hba'⟩ := z'.getByteArray_holds zheap
    have hsize' : ba'.getSize = z'.m_buffs.flatten.length := hba'.size_eq
    refine ⟨ba', 1, z'.m_buffs.flatten, ?_, hba', .inr ⟨rfl, hgzip⟩⟩
    simp only [pack, hmsg, hset, hsize, hmin, hwrite, hflush, hget, hsize', bind, Except.bind,
      ne_eq, not_true_eq_false, if_true, if_false]
  · refine ⟨ba₀, 0, msg.bytes, ?_, hba₀, .inl ⟨rfl, rfl⟩⟩
    simp only [pack, hmsg, hset, hsize, hmin, bind, Except.bind, if_false]
    rfl

theorem send_spec (p : RockPeer) (s : SocketStream) {ba : ByteArray} (flag : UInt8)
    (h : ba.Holds [] y) (hlt : y.length < 2 ^ 32) :
    ∃ code s', p.send s ba { RockMsgHeader.new with
        flag := flag, length := UInt32.ofNat y.length } = (.ok code, s') ∧
      s'.bytes = s.bytes ++ frame flag y := by
  obtain ⟨s₁, hraw, hbytes₁⟩ := s.writeRawFixSize_sends (wireHeader flag y.length)
  obtain ⟨ba', s₂, hfix, hbytes₂, -⟩ := s₁.writeFixSize_sends h.unread (by omega)
  have hread : ba.getReadSize = y.length := by rw [← h.rep.length_unread, h.unread.2]
  have hheader : ¬ SocketStream.toInt (wireHeader flag y.length).length ≤ 0 := by
    rw [length_wireHeader]
    decide
  have hbytes : s₂.bytes = s.bytes ++ frame flag y := by
    rw [hbytes₂, hbytes₁, List.append_assoc]
    rfl
  unfold send
  simp only [bytes_header p.host flag y.length hlt, hraw, hheader, if_false, hread, hfix]
  split
  · exact ⟨_, s₂, rfl, hbytes⟩
  · exact ⟨_, s₂, rfl, hbytes⟩

/-- How long the body is that `serializeTo` writes. -/
def wireLength (p : RockPeer) (s : SocketStream) (msg : RockMessage) : ℕ :=
  match p.pack msg (s.heap 0) (s.heap 1) with
  | .ok (.inr (ba, _)) => ba.getSize
  | _ => 0

theorem wireLength_eq {s : SocketStream} {ba : ByteArray} {header : RockMsgHeader}
    (hpack : p.pack msg (s.heap 0) (s.heap 1) = .ok (.inr (ba, header))) (hba : ba.Holds [] y) :
    p.wireLength s msg = y.length := by
  unfold wireLength
  rw [hpack]
  exact hba.size_eq

theorem serializeTo_spec (p : RockPeer) (s : SocketStream) (msg : RockMessage)
    (hlt : p.wireLength s msg < 2 ^ 32) :
    ∃ code s' flag y, p.serializeTo s msg = (.ok code, s') ∧ s'.bytes = s.bytes ++ frame flag y ∧
      Packed p.zlib msg flag y ∧ p.wireLength s msg = y.length := by
  obtain ⟨ba, flag, y, hpack, hba, hpacked⟩ := p.pack_spec msg (s.heap 0) (s.heap 1)
  have hwire := wireLength_eq hpack hba
  obtain ⟨code, s', hsend, hbytes⟩ := p.send_spec s.malloc.2.malloc.2 flag hba (by omega)
  refine ⟨code, s', flag, y, ?_, hbytes, hpacked, hwire⟩
  unfold serializeTo
  have hpack' : p.pack msg s.malloc.1 s.malloc.2.malloc.1 = _ := hpack
  simp only [hpack', hsend]

theorem caught_parsed (msg : RockMessage) : caught msg.parsed = msg.parsed := by
  unfold RockMessage.parsed
  split <;> rfl

theorem unpack_spec (h : Packed p.zlib msg flag y) (heap : ℕ → ℕ → UInt8) {ba : ByteArray}
    (hba : ba.Holds y []) (hlt : y.length < 2 ^ 64) : p.unpack flag heap ba = msg.parsed := by
  obtain ⟨ba₀, hset, hba₀⟩ := hba.rewind
  rw [List.append_nil] at hba₀
  unfold unpack
  rw [hset]
  rcases h with ⟨rfl, rfl⟩ | ⟨rfl, hgzip⟩
  · exact parseMessage_holds msg hba₀
  · obtain ⟨z, z', hwrite, hflush, hout⟩ :=
      ZlibStream.write_flush (p.zlib.inflates msg.bytes y hgzip) hba₀.unread hlt
    obtain ⟨ba', hget, hba'⟩ := z'.getByteArray_holds heap
    rw [hout] at hba'
    have hflag : (1 : UInt8) &&& 1 ≠ 0 := by decide
    simp only [bind, Except.bind, if_pos hflag, hwrite, hflush, hget, ne_eq, not_true_eq_false,
      if_false]
    exact parseMessage_holds msg hba'

theorem parseFrom_header (p : RockPeer) {r : SocketStream} (hr : r.bytes = frame flag y ++ post)
    (hmax : y.length < p.config.max_length.toNat) :
    ∃ r', p.parseFrom r = p.parseBody r' flag (UInt32.ofNat y.length) ∧ r'.bytes = y ++ post := by
  unfold frame at hr
  rw [List.append_assoc] at hr
  have hlt := p.config.max_length.toNat_lt
  obtain ⟨r', hread, hbytes⟩ := SocketStream.readRawFixSize_takes hr (by simp [length_wireHeader])
  obtain ⟨header, hof, hmagic, hversion, hflag, hlength⟩ := ofBytes_wireHeader p.host flag y.length
  rw [length_wireHeader] at hread
  have hpos : ¬ SocketStream.toInt 8 ≤ 0 := by decide
  have hless : ¬ UInt32.ofNat y.length ≥ p.config.max_length := by
    rw [ge_iff_le, UInt32.le_iff_toNat_le, UInt32.toNat_ofNat_of_lt' (by rw [UInt32.size]; omega)]
    omega
  refine ⟨r', ?_, hbytes⟩
  unfold parseFrom
  simp only [hread, hof, hmagic, hversion, hflag, hlength, hpos, hless, ne_eq, not_true_eq_false,
    if_false]

theorem toSize_of_lt {n : ℕ} (hlt : n < 2 ^ 31) : toSize (UInt32.ofNat n) = n := by
  have hn : (UInt32.ofNat n).toNat = n := UInt32.toNat_ofNat_of_lt' (by rw [UInt32.size]; omega)
  unfold toSize
  rw [hn, if_pos hlt]

theorem parseBody_of_read {r s : SocketStream} {length : UInt32} {rt : ℤ} {ba : ByteArray}
    (hread : r.malloc.2.malloc.2.readFixSize (ByteArray.new r.malloc.1 4096) (toSize length) =
      (.ok (rt, ba), s)) :
    p.parseBody r flag length =
      (caught (if rt ≤ 0 then .ok none else p.unpack flag r.malloc.2.malloc.1 ba), s) := by
  unfold parseBody
  dsimp only
  rw [hread]
  rfl

theorem parseBody_spec (h : Packed p.zlib msg flag y) {r : SocketStream} (hr : r.bytes = y ++ post)
    (hlt : y.length < 2 ^ 31) :
    ∃ r', p.parseBody r flag (UInt32.ofNat y.length) = (msg.parsed, r') ∧ r'.bytes = post := by
  have hpos := List.length_pos_iff.mpr h.ne_nil
  have hnew := ByteArray.holds_new r.malloc.1
  obtain ⟨ba, r', hread, hbytes, hend, hframe, htight⟩ :=
    SocketStream.readFixSize_appends (s := r.malloc.2.malloc.2) hnew.atEnd hr (by omega) (by
      change 4096 < max 1 y.length + 4096
      omega)
  have hba := hend.holds (hframe.1.trans hnew.endian) (hframe.2.trans hnew.base) htight
  refine ⟨r', ?_, hbytes⟩
  have hrt : ¬ SocketStream.toInt y.length ≤ 0 := by
    rw [SocketStream.toInt_of_lt hlt]
    omega
  rw [← toSize_of_lt hlt] at hread
  rw [parseBody_of_read hread, toSize_of_lt hlt, if_neg hrt, unpack_spec h _ hba (by omega),
    caught_parsed]

/-- A length that is negative as an `int32_t`: nothing is read, which is taken for a failure. -/
theorem readFixSize_negative (s : SocketStream) (ba : ByteArray) {n : ℕ} (hlow : 2 ^ 31 ≤ n)
    (hlt : n < 2 ^ 32) :
    ∃ rt, s.readFixSize ba (toSize (UInt32.ofNat n)) = (.ok (rt, ba), s) ∧ rt ≤ 0 := by
  have hn : (UInt32.ofNat n).toNat = n := UInt32.toNat_ofNat_of_lt' hlt
  have hsize : toSize (UInt32.ofNat n) = n + (2 ^ 64 - 2 ^ 32) := by
    unfold toSize
    rw [hn, if_neg (by omega)]
  have hleft : (SocketStream.toInt64 (n + (2 ^ 64 - 2 ^ 32))).toNat = 0 := by
    unfold SocketStream.toInt64
    rw [Int.bmod_def]
    split <;> omega
  refine ⟨SocketStream.toInt (n + (2 ^ 64 - 2 ^ 32)), ?_, ?_⟩
  · unfold SocketStream.readFixSize SocketStream.fixSize
    rw [hsize, hleft]
    simp only [SocketStream.fixLoop, Except.map, if_true]
  · unfold SocketStream.toInt
    rw [Int.bmod_def]
    split <;> omega

theorem parseBody_negative (p : RockPeer) (r : SocketStream) (flag : UInt8) {n : ℕ}
    (hlow : 2 ^ 31 ≤ n) (hlt : n < 2 ^ 32) :
    (p.parseBody r flag (UInt32.ofNat n)).1 = .ok none := by
  obtain ⟨rt, hread, hrt⟩ := readFixSize_negative r.malloc.2.malloc.2
    (ByteArray.new r.malloc.1 4096) hlow hlt
  rw [parseBody_of_read hread, if_pos hrt]
  rfl

section

variable (p q : RockPeer)

/-- What is sent of a message is parsed by the other peer, and nothing that comes after it is
touched. -/
theorem message_arrives (hzlib : q.zlib = p.zlib) (s : SocketStream) (msg : RockMessage)
    (hmax : p.wireLength s msg < q.config.max_length.toNat) (hlt : p.wireLength s msg < 2 ^ 31) :
    ∃ code s' sent, p.serializeTo s msg = (.ok code, s') ∧ s'.bytes = s.bytes ++ sent ∧
      ∀ (r : SocketStream) (post : List UInt8), r.bytes = sent ++ post →
        ∃ r', q.parseFrom r = (msg.parsed, r') ∧ r'.bytes = post := by
  obtain ⟨code, s', flag, y, hserialize, hbytes, hpacked, hwire⟩ :=
    p.serializeTo_spec s msg (by omega)
  refine ⟨code, s', frame flag y, hserialize, hbytes, fun r post hr => ?_⟩
  obtain ⟨r₁, hheader, hr₁⟩ := q.parseFrom_header hr (by omega)
  rw [← hzlib] at hpacked
  rw [hheader]
  exact parseBody_spec hpacked hr₁ (by omega)

theorem message_refused (s : SocketStream) (msg : RockMessage)
    (hmax : p.wireLength s msg < q.config.max_length.toNat) (hlow : 2 ^ 31 ≤ p.wireLength s msg) :
    ∃ code s' sent, p.serializeTo s msg = (.ok code, s') ∧ s'.bytes = s.bytes ++ sent ∧
      ∀ (r : SocketStream) (post : List UInt8), r.bytes = sent ++ post →
        (q.parseFrom r).1 = .ok none := by
  have hlt := q.config.max_length.toNat_lt
  obtain ⟨code, s', flag, y, hserialize, hbytes, -, hwire⟩ := p.serializeTo_spec s msg (by omega)
  refine ⟨code, s', frame flag y, hserialize, hbytes, fun r post hr => ?_⟩
  obtain ⟨r₁, hheader, -⟩ := q.parseFrom_header hr (by omega)
  rw [hheader]
  exact q.parseBody_negative r₁ flag (by omega) (by omega)

def sendAll : SocketStream → List RockMessage → Except Fault SocketStream
  | s, [] => .ok s
  | s, msg :: msgs => do
      let _ ← (p.serializeTo s msg).1
      sendAll (p.serializeTo s msg).2 msgs

def receiveAll : ℕ → SocketStream → Except Fault (List (Option RockMessage) × SocketStream)
  | 0, s => .ok ([], s)
  | n + 1, s => do
      let msg ← (p.parseFrom s).1
      let r ← receiveAll n (p.parseFrom s).2
      .ok (msg :: r.1, r.2)

def Below (limit : ℕ) : SocketStream → List RockMessage → Prop
  | _, [] => True
  | s, msg :: msgs => p.wireLength s msg < limit ∧ Below limit (p.serializeTo s msg).2 msgs

/-- Messages are received as they were sent, one after the other. -/
theorem messages_received (hzlib : q.zlib = p.zlib) (hmax : q.config.max_length.toNat ≤ 2 ^ 31 - 1)
    (msgs : List RockMessage) (s : SocketStream) (hmsgs : ∀ msg ∈ msgs, ¬ msg.Dangling)
    (hbelow : p.Below q.config.max_length.toNat s msgs) :
    ∃ s' sent, p.sendAll s msgs = .ok s' ∧ s'.bytes = s.bytes ++ sent ∧
      ∀ (r : SocketStream) (post : List UInt8), r.bytes = sent ++ post →
        ∃ r', q.receiveAll msgs.length r = .ok (msgs.map some, r') ∧ r'.bytes = post := by
  induction msgs generalizing s with
  | nil => exact ⟨s, [], rfl, (List.append_nil _).symm, fun r post hr => ⟨r, rfl, hr⟩⟩
  | cons msg msgs ih =>
    obtain ⟨hwire, hbelow⟩ := hbelow
    obtain ⟨code, s₁, sent₁, hserialize, hbytes₁, hparse⟩ :=
      p.message_arrives q hzlib s msg hwire (by omega)
    rw [hserialize] at hbelow
    obtain ⟨s', sent, hsend, hbytes, hreceive⟩ :=
      ih s₁ (fun msg' hmsg' => hmsgs msg' (List.mem_cons_of_mem msg hmsg')) hbelow
    have hparsed : msg.parsed = .ok (some msg) := if_neg (hmsgs msg List.mem_cons_self)
    refine ⟨s', sent₁ ++ sent, ?_, ?_, fun r post hr => ?_⟩
    · rw [sendAll, hserialize]
      exact hsend
    · rw [hbytes, hbytes₁, List.append_assoc]
    · rw [List.append_assoc] at hr
      obtain ⟨r₁, hparse₁, hr₁⟩ := hparse r (sent ++ post) hr
      obtain ⟨r', hreceive', hr'⟩ := hreceive r₁ post hr₁
      refine ⟨r', ?_, hr'⟩
      rw [List.length_cons, receiveAll, hparse₁, hparsed]
      change q.receiveAll msgs.length r₁ >>= _ = _
      rw [hreceive']
      rfl

/-- Requests and notifies are received as they were sent, however the stream is cut up, on plain
and packed bodies and between machines of any byte order. -/
theorem requests_and_notifies_received (hzlib : q.zlib = p.zlib)
    (hmax : q.config.max_length.toNat ≤ 2 ^ 31 - 1) (msgs : List RockMessage) (s : SocketStream)
    (hkind : ∀ msg ∈ msgs, msg.getType ≠ 2) (hbelow : p.Below q.config.max_length.toNat s msgs) :
    ∃ s' sent, p.sendAll s msgs = .ok s' ∧ s'.bytes = s.bytes ++ sent ∧
      ∀ (r : SocketStream) (post : List UInt8), r.bytes = sent ++ post →
        ∃ r', q.receiveAll msgs.length r = .ok (msgs.map some, r') ∧ r'.bytes = post :=
  p.messages_received q hzlib hmax msgs s
    (fun msg hmsg => RockMessage.not_dangling (hkind msg hmsg)) hbelow

theorem wireLength_sample (config : RockConfig) (host : Endian) (s : SocketStream)
    (msg : RockMessage) : wireLength ⟨.sample, config, host⟩ s msg ≤ 27 + msg.bytes.length := by
  obtain ⟨ba, flag, y, hpack, hba, hpacked⟩ :=
    pack_spec ⟨.sample, config, host⟩ msg (s.heap 0) (s.heap 1)
  rw [wireLength_eq hpack hba]
  rcases hpacked with ⟨-, rfl⟩ | ⟨-, rfl⟩
  · omega
  · exact Zlib.length_gzip_le msg.bytes

/-- A request without a body, and a notify that is packed, in pieces of one to four bytes. -/
theorem request_and_greeting_received :
    ∃ s' sent, sendAll ⟨.sample, ⟨0x4000000, 10⟩, .little⟩ ⟨[], fun k => k % 5, fun _ _ _ => 0xEE⟩
        [.request 1 2 ⟨[], by decide⟩,
          .notify 7 ⟨[104, 105, 32, 104, 105, 32, 104, 105, 32, 104, 105], by decide⟩] = .ok s' ∧
      s'.bytes = [] ++ sent ∧
      ∀ (r : SocketStream) (post : List UInt8), r.bytes = sent ++ post →
        ∃ r', receiveAll ⟨.sample, ⟨0x4000000, 0x1000⟩, .big⟩ 2 r =
          .ok ([some (.request 1 2 ⟨[], by decide⟩),
            some (.notify 7 ⟨[104, 105, 32, 104, 105, 32, 104, 105, 32, 104, 105], by decide⟩)],
            r') ∧ r'.bytes = post :=
  requests_and_notifies_received ⟨.sample, ⟨0x4000000, 10⟩, .little⟩
    ⟨.sample, ⟨0x4000000, 0x1000⟩, .big⟩ rfl (by decide) _ ⟨[], fun k => k % 5, fun _ _ _ => 0xEE⟩
    (by decide)
    ⟨(wireLength_sample _ _ _ _).trans_lt (by decide),
      (wireLength_sample _ _ _ _).trans_lt (by decide), trivial⟩

def RoundTrips (s : SocketStream) (msg : RockMessage) : Prop :=
  ∃ code s' sent, p.serializeTo s msg = (.ok code, s') ∧ s'.bytes = s.bytes ++ sent ∧
    ∀ (r : SocketStream) (post : List UInt8), r.bytes = sent ++ post →
      (q.parseFrom r).1 = .ok (some msg)

variable {p q}

theorem roundTrips_iff {s : SocketStream} {msg : RockMessage} {code : ℤ} {s' : SocketStream}
    {sent : List UInt8} {result : Except Fault (Option RockMessage)}
    (hserialize : p.serializeTo s msg = (.ok code, s')) (hbytes : s'.bytes = s.bytes ++ sent)
    (hparse : ∀ (r : SocketStream) (post : List UInt8), r.bytes = sent ++ post →
      (q.parseFrom r).1 = result) :
    p.RoundTrips q s msg ↔ result = .ok (some msg) := by
  constructor
  · rintro ⟨code', s'', sent', hserialize', hbytes', hparse'⟩
    obtain ⟨-, rfl⟩ := Prod.mk.inj (hserialize.symm.trans hserialize')
    have hsent : sent' = sent := List.append_cancel_left (hbytes'.symm.trans hbytes)
    subst hsent
    rw [← hparse ⟨sent', s.cuts, s.heap⟩ [] (List.append_nil _).symm]
    exact hparse' ⟨sent', s.cuts, s.heap⟩ [] (List.append_nil _).symm
  · intro hresult
    exact ⟨code, s', sent, hserialize, hbytes, fun r post hr => (hparse r post hr).trans hresult⟩

theorem parsed_eq_iff (msg : RockMessage) : msg.parsed = .ok (some msg) ↔ ¬ msg.Dangling := by
  unfold RockMessage.parsed
  split
  · next h => simp [h]
  · next h => simp [h]

theorem roundTrips_iff_not_dangling (hzlib : q.zlib = p.zlib) {s : SocketStream} {msg : RockMessage}
    (hmax : p.wireLength s msg < q.config.max_length.toNat) (hlt : p.wireLength s msg < 2 ^ 31) :
    p.RoundTrips q s msg ↔ ¬ msg.Dangling := by
  obtain ⟨code, s', sent, hserialize, hbytes, hparse⟩ := p.message_arrives q hzlib s msg hmax hlt
  have hparsed : ∀ (r : SocketStream) (post : List UInt8), r.bytes = sent ++ post →
      (q.parseFrom r).1 = msg.parsed := by
    intro r post hr
    obtain ⟨r', hr', -⟩ := hparse r post hr
    rw [hr']
  rw [roundTrips_iff hserialize hbytes hparsed, parsed_eq_iff]

/-- When a response is received. -/
theorem response_received_iff (hzlib : q.zlib = p.zlib) (s : SocketStream)
    (m_sn m_cmd m_result : UInt32) (m_resultStr m_body : StdString)
    (hmax : p.wireLength s (.response m_sn m_cmd m_result m_resultStr m_body) <
      q.config.max_length.toNat) :
    p.RoundTrips q s (.response m_sn m_cmd m_result m_resultStr m_body) ↔
      p.wireLength s (.response m_sn m_cmd m_result m_resultStr m_body) < 2 ^ 31 ∧
      ¬ (m_body.1 = [] ∧
        4096 ∣ (RockMessage.response m_sn m_cmd m_result m_resultStr m_body).bytes.length) := by
  by_cases hlt : p.wireLength s (.response m_sn m_cmd m_result m_resultStr m_body) < 2 ^ 31
  · rw [roundTrips_iff_not_dangling hzlib hmax hlt]
    exact (and_iff_right hlt).symm
  · obtain ⟨code, s', sent, hserialize, hbytes, hparse⟩ :=
      p.message_refused q s _ hmax (Nat.le_of_not_lt hlt)
    rw [roundTrips_iff hserialize hbytes hparse]
    exact iff_of_false (by simp) fun h => hlt h.1

theorem short_response_received :
    RoundTrips ⟨.sample, ⟨0x4000000, 0x1000⟩, .little⟩ ⟨.sample, ⟨0x4000000, 0x1000⟩, .little⟩
      ⟨[], fun k => k % 5, fun _ _ _ => 0xEE⟩
      (.response 1 2 200 ⟨[111, 107], by decide⟩ ⟨[], by decide⟩) :=
  (response_received_iff rfl _ _ _ _ _ _ ((wireLength_sample _ _ _ _).trans_lt (by decide))).mpr
    ⟨(wireLength_sample _ _ _ _).trans_lt (by decide), by decide⟩

/-- Together with the other fields, 4089 bytes fill a node, and the body is empty. -/
def fillingResponse : RockMessage :=
  .response 0 0 0 ⟨List.replicate 4089 97, by rw [List.length_replicate]; decide⟩
    ⟨[], by decide⟩

theorem length_fillingResponse : fillingResponse.bytes.length = 4096 := by
  have hlength : (vint 10 4089).length = 2 := by decide
  simp only [fillingResponse, RockMessage.bytes, vstring, List.length_append, List.length_replicate,
    hlength]
  rfl

theorem filling_response_lost :
    wireLength ⟨.sample, ⟨0x4000000, 0x2000⟩, .little⟩ ⟨[], fun k => k, fun _ _ _ => 0xEE⟩
        fillingResponse < 0x4000000 ∧
      ¬ RoundTrips ⟨.sample, ⟨0x4000000, 0x2000⟩, .little⟩ ⟨.sample, ⟨0x4000000, 0x2000⟩, .little⟩
        ⟨[], fun k => k, fun _ _ _ => 0xEE⟩ fillingResponse := by
  have hle := wireLength_sample ⟨0x4000000, 0x2000⟩ .little
    ⟨[], fun k => k, fun _ _ _ => 0xEE⟩ fillingResponse
  rw [length_fillingResponse] at hle
  refine ⟨hle.trans_lt (by norm_num), ?_⟩
  rw [roundTrips_iff_not_dangling rfl (hle.trans_lt (by decide)) (hle.trans_lt (by norm_num)),
    not_not]
  exact ⟨rfl, by rw [length_fillingResponse]⟩

end

end RockPeer

end Sylar
