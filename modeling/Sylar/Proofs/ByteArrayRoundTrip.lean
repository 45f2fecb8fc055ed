import Sylar.Proofs.ByteArrayFlat
import Sylar.Spec.ByteArrayTyped

/-! Typed values written to a fresh `ByteArray` are read back. A codec pairs a
writer with a reader through the bytes between them: the writer appends exactly
these bytes and the reader, finding them next, consumes exactly these and gives
the value back. Codecs are built up from raw bytes, along the definitions of the
writers, and then chained over a sequence of values. -/

namespace Sylar

open Lib

/-- Swapping twice, through the memory of either kind of machine. -/
theorem objectValue_objectBytes (host : Endian) (n v : ℕ) :
    objectValue host (objectBytes host n v) = v % 256 ^ n := by
  cases host with
  | little => exact leNat_leBytes n v
  | big => simp only [objectValue, objectBytes, List.reverse_reverse, leNat_leBytes]

theorem byteswap_byteswap (n v : ℕ) : byteswap n (byteswap n v) = v % 256 ^ n := by
  have h := leBytes_leNat (leBytes n v).reverse
  rw [List.length_reverse, length_leBytes] at h
  rw [byteswap, byteswap, h, List.reverse_reverse, leNat_leBytes]

theorem byteswap_lt (n v : ℕ) : byteswap n v < 256 ^ n := by
  have h := leNat_lt (leBytes n v).reverse
  rwa [List.length_reverse, length_leBytes] at h

theorem objectValue_lt (e : Endian) (bytes : List UInt8) :
    objectValue e bytes < 256 ^ bytes.length := by
  cases e with
  | little => exact leNat_lt bytes
  | big =>
    have h := leNat_lt bytes.reverse
    rwa [List.length_reverse] at h

theorem length_objectBytes (host : Endian) (n v : ℕ) : (objectBytes host n v).length = n := by
  cases host <;> simp [objectBytes]

namespace ByteArray

/-- The array ends with its position: `bytes` were written and nothing is unread. -/
def AtEnd (ba : ByteArray) (bytes : List UInt8) : Prop :=
  Rep ba ∧ flat ba = ⟨bytes, bytes.length⟩

def Unread (ba : ByteArray) (bytes : List UInt8) : Prop := Rep ba ∧ (flat ba).unread = bytes

def Writes (e : Endian) (x : Except Fault ByteArray) (bytes : List UInt8) : Prop :=
  ∃ ba, x = .ok ba ∧ AtEnd ba bytes ∧ ba.m_endian = e

def Reads {α : Type} (e : Endian) (x : Except Fault (α × ByteArray)) (v : α)
    (rest : List UInt8) : Prop :=
  ∃ ba, x = .ok (v, ba) ∧ Unread ba rest ∧ ba.m_endian = e

theorem Writes.bind {e : Endian} {x : Except Fault ByteArray} {bytes bytes' : List UInt8}
    {g : ByteArray → Except Fault ByteArray} (h : Writes e x bytes)
    (hg : ∀ ba, AtEnd ba bytes → ba.m_endian = e → Writes e (g ba) bytes') :
    Writes e (x >>= g) bytes' := by
  obtain ⟨ba, rfl, hend, he⟩ := h
  exact hg ba hend he

theorem Reads.bind {α β : Type} {e : Endian} {x : Except Fault (α × ByteArray)} {v : α} {u : β}
    {mid rest : List UInt8} {g : α × ByteArray → Except Fault (β × ByteArray)}
    (h : Reads e x v mid)
    (hg : ∀ ba, Unread ba mid → ba.m_endian = e → Reads e (g (v, ba)) u rest) :
    Reads e (x >>= g) u rest := by
  obtain ⟨ba, rfl, hmid, he⟩ := h
  exact hg ba hmid he

theorem Reads.pure {α : Type} {e : Endian} {ba : ByteArray} {v : α} {rest : List UInt8}
    (h : Unread ba rest) (he : ba.m_endian = e) :
    Reads e (Except.ok (v, ba) : Except Fault (α × ByteArray)) v rest :=
  ⟨ba, rfl, h, he⟩

theorem write_append {ba : ByteArray} {bytes : List UInt8} (h : AtEnd ba bytes)
    (buf : List UInt8) : Writes ba.m_endian (ba.write buf) (bytes ++ buf) := by
  obtain ⟨hr, hf⟩ := h
  obtain ⟨ba', hw, hr', hf', he, -⟩ := write_spec hr buf
  refine ⟨ba', hw, ⟨hr', ?_⟩, he⟩
  rw [hf', hf, Flat.write]
  simp [overwrite]

theorem read_next {ba : ByteArray} {bytes rest : List UInt8} (h : Unread ba (bytes ++ rest))
    (hne : bytes ≠ []) : Reads ba.m_endian (ba.read bytes.length) bytes rest := by
  obtain ⟨hr, hu⟩ := h
  have hlen := hr.length_unread
  rw [hu, List.length_append] at hlen
  obtain ⟨ba', hread, hr', hf', he, -⟩ := read_spec hr (List.length_pos_iff.mpr hne)
    (show bytes.length ≤ ba.getReadSize by omega)
  rw [hu, List.take_left] at hread
  refine ⟨ba', hread, ⟨hr', ?_⟩, he⟩
  rw [hf', Flat.unread, ← List.drop_drop]
  change (flat ba).unread.drop bytes.length = rest
  rw [hu, List.drop_left]

/-- The writer `w` appends some bytes, and `r` makes `v` of exactly these. -/
def Codec {α : Type} (e : Endian) (w : ByteArray → Except Fault ByteArray)
    (r : ByteArray → Except Fault (α × ByteArray)) (v : α) : Prop :=
  ∃ enc : List UInt8,
    (∀ ba bytes, AtEnd ba bytes → ba.m_endian = e → Writes e (w ba) (bytes ++ enc)) ∧
    (∀ ba rest, Unread ba (enc ++ rest) → ba.m_endian = e → Reads e (r ba) v rest)

theorem codec_raw (e : Endian) (buf : List UInt8) (hne : buf ≠ []) :
    Codec e (fun ba => ba.write buf) (fun ba => ba.read buf.length) buf :=
  ⟨buf, fun _ _ h he => he ▸ write_append h buf, fun _ _ h he => he ▸ read_next h hne⟩

theorem Codec.map {α β : Type} {e : Endian} {w : ByteArray → Except Fault ByteArray}
    {r : ByteArray → Except Fault (α × ByteArray)} {v : α} (h : Codec e w r v)
    (g : ByteArray → α × ByteArray → Except Fault (β × ByteArray)) (u : β)
    (hg : ∀ ba ba', ba.m_endian = e → g ba (v, ba') = .ok (u, ba')) :
    Codec e w (fun ba => r ba >>= g ba) u := by
  obtain ⟨enc, hw, hr⟩ := h
  refine ⟨enc, hw, fun ba rest hu he => (hr ba rest hu he).bind fun ba' hu' he' => ?_⟩
  rw [hg ba ba' he]
  exact Reads.pure hu' he'

/-- One codec after the other; the second reader may depend on the first value. -/
theorem Codec.seq {α β : Type} {e : Endian} {w₁ w₂ : ByteArray → Except Fault ByteArray}
    {r₁ : ByteArray → Except Fault (α × ByteArray)} {v : α} (h₁ : Codec e w₁ r₁ v)
    (r₂ : α × ByteArray → Except Fault (β × ByteArray)) {u : β}
    (h₂ : Codec e w₂ (fun ba => r₂ (v, ba)) u) :
    Codec e (fun ba => w₁ ba >>= w₂) (fun ba => r₁ ba >>= r₂) u := by
  obtain ⟨enc₁, hw₁, hr₁⟩ := h₁
  obtain ⟨enc₂, hw₂, hr₂⟩ := h₂
  refine ⟨enc₁ ++ enc₂, ?_, ?_⟩
  · intro ba bytes hend he
    rw [← List.append_assoc]
    exact (hw₁ ba bytes hend he).bind fun ba' hend' he' => hw₂ ba' _ hend' he'
  · intro ba rest hu he
    rw [List.append_assoc] at hu
    exact (hr₁ ba _ hu he).bind fun ba' hu' he' => hr₂ ba' _ hu' he'

theorem read_fuint8 {e : Endian} {ba : ByteArray} {b : UInt8} {rest : List UInt8}
    (hu : Unread ba (b :: rest)) (he : ba.m_endian = e) : Reads e ba.readFuint8 b rest := by
  have h := read_next (show Unread ba ([b] ++ rest) from hu) (by simp)
  rw [he] at h
  refine h.bind fun ba' hu' he' => ?_
  simpa [leNat] using Reads.pure hu' he'

theorem codec_fuint8 (e : Endian) (v : UInt8) :
    Codec e (fun ba => ba.writeFuint8 v) readFuint8 v := by
  exact ⟨[v], fun _ _ h he => he ▸ write_append h [v], fun _ _ h he => read_fuint8 h he⟩

theorem codec_fint8 (e : Endian) (v : Int8) :
    Codec e (fun ba => ba.writeFint8 v) readFint8 v := by
  refine (codec_raw e [v.toUInt8] (by simp)).map
    (fun _ p => .ok ((UInt8.ofNat (leNat p.1)).toInt8, p.2)) v ?_
  intro ba ba' _
  simp [leNat]

theorem codec_fixed (host e : Endian) {n v : ℕ} (hn : 1 ≤ n) (hv : v < 256 ^ n) :
    Codec e (fun ba => writeFixed host n ba v) (readFixed host n) v := by
  set stored := if e ≠ host then byteswap n v else v with hstored
  have hlt : stored < 256 ^ n := by
    rw [hstored]
    split_ifs
    · exact byteswap_lt n v
    · exact hv
  have hlen := length_objectBytes host n stored
  have hraw := codec_raw e (objectBytes host n stored) (by
    intro h
    rw [h, List.length_nil] at hlen
    omega)
  have hmap := hraw.map (fun ba p => .ok
    (if ba.m_endian = host then objectValue host p.1 else byteswap n (objectValue host p.1), p.2)) v
    (by
      intro ba ba' he
      rw [objectValue_objectBytes, Nat.mod_eq_of_lt hlt, he, hstored]
      by_cases h : e = host
      · rw [if_pos h, if_neg (not_not.mpr h)]
      · rw [if_neg h, if_pos h, byteswap_byteswap, Nat.mod_eq_of_lt hv])
  rw [hlen] at hmap
  obtain ⟨enc, hw, hr⟩ := hmap
  refine ⟨enc, fun ba bytes hend he => ?_, hr⟩
  have hwrite : writeFixed host n ba v = ba.write (objectBytes host n stored) := by
    rw [writeFixed, he]
  change Writes e (writeFixed host n ba v) (bytes ++ enc)
  rw [hwrite]
  exact hw ba bytes hend he

/-- Seven bits a turn: `tmp` never overflows, and the bytes are not empty. -/
theorem varintLoop_ok {room v : ℕ} (hroom : 1 ≤ room) (hv : v < 128 ^ room) :
    ∃ enc, varintLoop room v = .ok enc := by
  induction room generalizing v with
  | zero => omega
  | succ room ih =>
    rw [varintLoop]
    by_cases hbig : v ≥ 0x80
    · rw [pow_succ'] at hv
      have hne : room ≠ 0 := by rintro rfl; omega
      obtain ⟨rest, hrest⟩ := ih (v := v >>> 7) (by omega) (by
        rw [Nat.shiftRight_eq_div_pow]
        omega)
      rw [if_pos hbig, hrest]
      exact ⟨_, rfl⟩
    · rw [if_neg hbig]
      exact ⟨_, rfl⟩

theorem byte_of_seven {v : ℕ} :
    (UInt8.ofNat (v &&& 0x7F ||| 0x80)).toNat = v % 128 + 128 := by
  have : v % 128 < 128 := Nat.mod_lt _ (by decide)
  rw [and_127, or_128 this, UInt8.toNat_ofNat']
  omega

/-- A digit shifted into place stays below `2 ^ w` with the whole number. -/
theorem shifted_digit {digit v i w : ℕ} (hd : digit ≤ v) (h : 2 ^ i * v < 2 ^ w) :
    digit <<< i % 2 ^ w = digit <<< i := by
  apply Nat.mod_eq_of_lt
  rw [Nat.shiftLeft_eq, Nat.mul_comm]
  exact lt_of_le_of_lt (Nat.mul_le_mul_left _ hd) h

/-- The reading loop, `i` bits into the number with `result` read so far, meets
the bytes of what is left of it. -/
theorem unvarintLoop_reads {w : ℕ} (e : Endian) : ∀ (room v : ℕ) (enc : List UInt8),
    varintLoop room v = .ok enc → ∀ (fuel i result : ℕ) (ba : ByteArray) (rest : List UInt8),
    room ≤ fuel → i + 7 * room ≤ w + 6 → result < 2 ^ i → result + 2 ^ i * v < 2 ^ w →
    Unread ba (enc ++ rest) → ba.m_endian = e →
    Reads e (unvarintLoop w fuel i result ba) (result + 2 ^ i * v) rest := by
  intro room
  induction room with
  | zero => intro v enc h; simp [varintLoop] at h
  | succ room ih =>
    intro v enc henc fuel i result ba rest hfuel hi hres hsum hu he
    obtain ⟨fuel, rfl⟩ : ∃ f, fuel = f + 1 := ⟨fuel - 1, by omega⟩
    have hiw : i < w := by omega
    rw [unvarintLoop, if_pos hiw]
    rw [varintLoop] at henc
    by_cases hbig : v ≥ 0x80
    · rw [if_pos hbig] at henc
      cases hmore : varintLoop room (v >>> 7) with
      | error f => rw [hmore] at henc; cases henc
      | ok more =>
        rw [hmore] at henc
        obtain rfl := Except.ok.inj henc
        refine (read_fuint8 hu he).bind fun ba' hu' he' => ?_
        have hbyte := byte_of_seven (v := v)
        have hdigit : (v % 128 + 128) &&& 0x7F = v % 128 := by rw [and_127]; omega
        have hsmall := shifted_digit (Nat.mod_le v 128) (show 2 ^ i * v < 2 ^ w by omega)
        dsimp only
        rw [if_neg (by omega), hbyte, hdigit, hsmall, or_shiftLeft hres]
        have hsplit : result + 2 ^ i * (v % 128) + 2 ^ (i + 7) * (v >>> 7) = result + 2 ^ i * v := by
          rw [Nat.shiftRight_eq_div_pow, pow_add, Nat.add_assoc, Nat.mul_assoc, ← Nat.mul_add,
            show 2 ^ 7 = 128 by norm_num, Nat.mod_add_div]
        rw [← hsplit]
        refine ih (v >>> 7) more hmore fuel (i + 7) _ ba' rest (by omega) (by omega) ?_ ?_ hu' he'
        · have : v % 128 ≤ 127 := by omega
          have := Nat.mul_le_mul_left (2 ^ i) this
          rw [pow_add]
          omega
        · rw [hsplit]
          exact hsum
    · rw [if_neg hbig] at henc
      obtain rfl := Except.ok.inj henc
      refine (read_fuint8 hu he).bind fun ba' hu' he' => ?_
      have hbyte : (UInt8.ofNat v).toNat = v := by rw [UInt8.toNat_ofNat']; omega
      dsimp only
      rw [if_pos (by omega), hbyte, shifted_digit le_rfl (show 2 ^ i * v < 2 ^ w by omega),
        or_shiftLeft hres]
      exact Reads.pure hu' he'

theorem codec_varint (e : Endian) (w room : ℕ) {v : ℕ} (hroom : 1 ≤ room) (hle : room ≤ w)
    (hw : 7 * room ≤ w + 6) (hcap : 2 ^ w ≤ 128 ^ room) (hv : v < 2 ^ w) :
    Codec e (fun ba => varintLoop room v >>= ba.write) (unvarintLoop w w 0 0) v := by
  obtain ⟨enc, henc⟩ := varintLoop_ok hroom (lt_of_lt_of_le hv hcap)
  refine ⟨enc, ?_, ?_⟩
  · intro ba bytes hend he
    change Writes e (varintLoop room v >>= ba.write) (bytes ++ enc)
    rw [henc]
    exact he ▸ write_append hend enc
  · intro ba rest hu he
    have h := unvarintLoop_reads (w := w) e room v enc henc w 0 0 ba rest hle (by omega) (by simp)
      (by simpa using hv) hu he
    simpa using h

theorem codec_uint32 (e : Endian) (v : UInt32) :
    Codec e (fun ba => ba.writeUint32 v) readUint32 v :=
  (codec_varint e 32 5 (by decide) (by decide) (by decide) (by norm_num)
    v.toNat_lt).map (fun _ p => .ok (UInt32.ofNat p.1, p.2)) v (by simp)

theorem codec_uint64 (e : Endian) (v : UInt64) :
    Codec e (fun ba => ba.writeUint64 v) readUint64 v :=
  (codec_varint e 64 10 (by decide) (by decide) (by decide) (by norm_num)
    v.toNat_lt).map (fun _ p => .ok (UInt64.ofNat p.1, p.2)) v (by simp)

theorem decodeZigzag32_encodeZigzag32 (v : Int32) : decodeZigzag32 (encodeZigzag32 v) = v := by
  apply Int32.toBitVec_inj.mp
  exact unzigzag_zigzag (by decide) v.toBitVec

theorem decodeZigzag64_encodeZigzag64 (v : Int64) : decodeZigzag64 (encodeZigzag64 v) = v := by
  apply Int64.toBitVec_inj.mp
  exact unzigzag_zigzag (by decide) v.toBitVec

theorem codec_int32 (e : Endian) (v : Int32) :
    Codec e (fun ba => ba.writeInt32 v) readInt32 v :=
  (codec_uint32 e (encodeZigzag32 v)).map (fun _ p => .ok (decodeZigzag32 p.1, p.2)) v
    (by simp [decodeZigzag32_encodeZigzag32])

theorem codec_int64 (e : Endian) (v : Int64) :
    Codec e (fun ba => ba.writeInt64 v) readInt64 v :=
  (codec_uint64 e (encodeZigzag64 v)).map (fun _ p => .ok (decodeZigzag64 p.1, p.2)) v
    (by simp [decodeZigzag64_encodeZigzag64])

section

variable (host e : Endian)

theorem codec_fuint16 (v : UInt16) :
    Codec e (fun ba => writeFuint16 host ba v) (readFuint16 host) v :=
  (codec_fixed host e (n := 2) (by decide) v.toNat_lt).map
    (fun _ p => .ok (UInt16.ofNat p.1, p.2)) v (by simp)

theorem codec_fint16 (v : Int16) :
    Codec e (fun ba => writeFint16 host ba v) (readFint16 host) v :=
  (codec_fixed host e (n := 2) (by decide) v.toUInt16.toNat_lt).map
    (fun _ p => .ok ((UInt16.ofNat p.1).toInt16, p.2)) v (by simp)

theorem codec_fuint32 (v : UInt32) :
    Codec e (fun ba => writeFuint32 host ba v) (readFuint32 host) v :=
  (codec_fixed host e (n := 4) (by decide) v.toNat_lt).map
    (fun _ p => .ok (UInt32.ofNat p.1, p.2)) v (by simp)

theorem codec_fint32 (v : Int32) :
    Codec e (fun ba => writeFint32 host ba v) (readFint32 host) v :=
  (codec_fixed host e (n := 4) (by decide) v.toUInt32.toNat_lt).map
    (fun _ p => .ok ((UInt32.ofNat p.1).toInt32, p.2)) v (by simp)

theorem codec_fuint64 (v : UInt64) :
    Codec e (fun ba => writeFuint64 host ba v) (readFuint64 host) v :=
  (codec_fixed host e (n := 8) (by decide) v.toNat_lt).map
    (fun _ p => .ok (UInt64.ofNat p.1, p.2)) v (by simp)

theorem codec_fint64 (v : Int64) :
    Codec e (fun ba => writeFint64 host ba v) (readFint64 host) v :=
  (codec_fixed host e (n := 8) (by decide) v.toUInt64.toNat_lt).map
    (fun _ p => .ok ((UInt64.ofNat p.1).toInt64, p.2)) v (by simp)

/-- A string behind a length: `len` is the prefix as the reader decodes it. -/
theorem codec_string {α : Type} {w : ByteArray → Except Fault ByteArray}
    {r : ByteArray → Except Fault (α × ByteArray)} {len : α} (h : Codec e w r len)
    (size : α → ℕ) {v : List UInt8} (hne : v ≠ []) (hsize : size len = v.length) :
    Codec e (fun ba => w ba >>= fun ba' => ba'.write v)
      (fun ba => r ba >>= fun p => p.2.read (size p.1)) v := by
  refine h.seq (fun p => p.2.read (size p.1)) ?_
  dsimp only
  rw [hsize]
  exact codec_raw e v hne

theorem codec_item (item : Item) (hfits : item.Fits) :
    Codec e (fun ba => writeItem host ba item) (fun ba => readItem host ba item.kind) item := by
  have wrapped : ∀ {α : Type} {w : ByteArray → Except Fault ByteArray}
      {r : ByteArray → Except Fault (α × ByteArray)} {v : α} (c : α → Item),
      Codec e w r v → Codec e w (fun ba => wrap c (r ba)) (c v) := by
    intro α w r v c h
    exact h.map (fun _ p => .ok (c p.1, p.2)) (c v) (by simp)
  cases item with
  | fint8 v => exact wrapped .fint8 (codec_fint8 e v)
  | fuint8 v => exact wrapped .fuint8 (codec_fuint8 e v)
  | fint16 v => exact wrapped .fint16 (codec_fint16 host e v)
  | fuint16 v => exact wrapped .fuint16 (codec_fuint16 host e v)
  | fint32 v => exact wrapped .fint32 (codec_fint32 host e v)
  | fuint32 v => exact wrapped .fuint32 (codec_fuint32 host e v)
  | fint64 v => exact wrapped .fint64 (codec_fint64 host e v)
  | fuint64 v => exact wrapped .fuint64 (codec_fuint64 host e v)
  | int32 v => exact wrapped .int32 (codec_int32 e v)
  | uint32 v => exact wrapped .uint32 (codec_uint32 e v)
  | int64 v => exact wrapped .int64 (codec_int64 e v)
  | uint64 v => exact wrapped .uint64 (codec_uint64 e v)
  | stringF16 v =>
    exact wrapped .stringF16 (codec_string e (codec_fuint16 host e _) UInt16.toNat hfits.1
      (UInt16.toNat_ofNat_of_lt' hfits.2))
  | stringF32 v =>
    exact wrapped .stringF32 (codec_string e (codec_fuint32 host e _) UInt32.toNat hfits.1
      (UInt32.toNat_ofNat_of_lt' hfits.2))
  | stringF64 v =>
    exact wrapped .stringF64 (codec_string e (codec_fuint64 host e _) UInt64.toNat hfits.1
      (UInt64.toNat_ofNat_of_lt' hfits.2))
  | stringVint v =>
    exact wrapped .stringVint (codec_string e (codec_uint64 e _) UInt64.toNat hfits.1
      (UInt64.toNat_ofNat_of_lt' hfits.2))

end

theorem Rep.setIsLittleEndian {ba : ByteArray} (h : Rep ba) (little : Bool) :
    Rep (ba.setIsLittleEndian little) :=
  ⟨h.base, h.root, h.nodes, h.capacity, h.position_le, h.size_le, h.cur⟩

/-- The codecs of a sequence in a row, the byte order set anew before each. -/
theorem codec_items (host : Endian) : ∀ items : List (Bool × Item), (∀ p ∈ items, p.2.Fits) →
    ∃ enc : List UInt8,
      (∀ ba bytes, AtEnd ba bytes →
        ∃ ba', writeItems host ba items = .ok ba' ∧ AtEnd ba' (bytes ++ enc)) ∧
      (∀ ba rest, Unread ba (enc ++ rest) →
        ∃ ba', readItems host ba (items.map fun p => (p.1, p.2.kind)) =
          .ok (items.map Prod.snd, ba') ∧ Unread ba' rest) := by
  intro items
  induction items with
  | nil =>
    intro _
    exact ⟨[], fun ba bytes h => ⟨ba, rfl, by simpa using h⟩, fun ba rest h => ⟨ba, rfl, h⟩⟩
  | cons p items ih =>
    intro hfits
    obtain ⟨little, item⟩ := p
    obtain ⟨enc₂, hw₂, hr₂⟩ := ih fun q hq => hfits q (by simp [hq])
    obtain ⟨enc₁, hw₁, hr₁⟩ :=
      codec_item host (if little then .little else .big) item (hfits (little, item) (by simp))
    refine ⟨enc₁ ++ enc₂, ?_, ?_⟩
    · intro ba bytes ⟨hr, hf⟩
      obtain ⟨ba₁, hw, hend, -⟩ := hw₁ (ba.setIsLittleEndian little) bytes
        ⟨hr.setIsLittleEndian little, hf⟩ rfl
      obtain ⟨ba₂, hw', hend'⟩ := hw₂ ba₁ _ hend
      dsimp only at hw
      refine ⟨ba₂, ?_, by rwa [← List.append_assoc]⟩
      rw [writeItems, hw]
      exact hw'
    · intro ba rest ⟨hr, hu⟩
      rw [List.append_assoc] at hu
      obtain ⟨ba₁, hread, hu₁, -⟩ := hr₁ (ba.setIsLittleEndian little) _
        ⟨hr.setIsLittleEndian little, hu⟩ rfl
      obtain ⟨ba₂, hread', hu₂⟩ := hr₂ ba₁ rest hu₁
      dsimp only at hread
      refine ⟨ba₂, ?_, hu₂⟩
      rw [List.map_cons, readItems, hread]
      change (readItems host ba₁ _ >>= _) = _
      rw [hread']
      rfl

/-- Any sequence of values, each under its own byte order, over nodes of any
size: what was written is read back and nothing is left over. -/
theorem typed_round_trip (host : Endian) (heap : ℕ → ℕ → UInt8) (base_size : ℕ)
    (hb : 1 ≤ base_size) (items : List (Bool × Item)) (hfits : ∀ p ∈ items, p.2.Fits) :
    ∃ written rewound done,
      writeItems host (new heap base_size) items = .ok written ∧
      written.setPosition 0 = .ok rewound ∧
      readItems host rewound (items.map fun p => (p.1, p.2.kind)) =
        .ok (items.map Prod.snd, done) ∧
      done.getReadSize = 0 := by
  obtain ⟨enc, hw, hr⟩ := codec_items host items hfits
  obtain ⟨written, hwrite, hrep, hflat⟩ := hw (new heap base_size) [] (new_rep heap hb)
  obtain ⟨rewound, hset, hrep', hflat', -⟩ := setPosition_spec hrep (Nat.zero_le _)
  obtain ⟨done, hread, hdone, hnil⟩ := hr rewound [] ⟨hrep', by
    rw [hflat', hflat, Flat.unread]
    simp⟩
  refine ⟨written, rewound, done, hwrite, hset, hread, ?_⟩
  rw [← hdone.length_unread, hnil, List.length_nil]

/-- Nodes of three bytes, so that every value here crosses a node edge. -/
theorem typed_round_trip_edges :
    ∃ written rewound done,
      writeItems .little (new (fun _ _ => 0) 3) [(false, .fint64 (-2)), (true, .fuint32 0xDEADBEEF),
        (true, .int32 (-2147483648)), (false, .stringF16 [104, 105])] = .ok written ∧
      written.setPosition 0 = .ok rewound ∧
      readItems .little rewound [(false, .fint64), (true, .fuint32), (true, .int32),
        (false, .stringF16)] =
        .ok ([.fint64 (-2), .fuint32 0xDEADBEEF, .int32 (-2147483648), .stringF16 [104, 105]],
          done) ∧
      done.getReadSize = 0 :=
  typed_round_trip .little (fun _ _ => 0) 3 (by decide)
    [(false, .fint64 (-2)), (true, .fuint32 0xDEADBEEF), (true, .int32 (-2147483648)),
      (false, .stringF16 [104, 105])] (by simp [Item.Fits])

end ByteArray

end Sylar
