import Sylar.Proofs.ByteArrayReads

/-! Strings behind their length. The prefix is the length cut down to the type of the prefix, and
the string is written in full, so the two agree as long as the type holds the length. -/

namespace Sylar

open Lib

namespace ByteArray

/-- What a string's length is written as. -/
inductive StringPrefix where
  | f16
  | f32
  | f64
  | vint

/-- The number of lengths that the type of the prefix has. -/
def StringPrefix.limit : StringPrefix → ℕ
  | .f16 => 2 ^ 16
  | .f32 => 2 ^ 32
  | .f64 => 2 ^ 64
  | .vint => 2 ^ 64

def StringPrefix.zeroWidth : StringPrefix → ℕ
  | .f16 => 2
  | .f32 => 4
  | .f64 => 8
  | .vint => 1

section

variable (host : Endian)

def writeString (ba : ByteArray) (value : List UInt8) : StringPrefix → Except Fault ByteArray
  | .f16 => writeStringF16 host ba value
  | .f32 => writeStringF32 host ba value
  | .f64 => writeStringF64 host ba value
  | .vint => ba.writeStringVint value

def readString (ba : ByteArray) : StringPrefix → Except Fault (List UInt8 × ByteArray)
  | .f16 => readStringF16 host ba
  | .f32 => readStringF32 host ba
  | .f64 => readStringF64 host ba
  | .vint => ba.readStringVint

def writeLength (ba : ByteArray) (len : ℕ) : StringPrefix → Except Fault ByteArray
  | .f16 => writeFuint16 host ba (UInt16.ofNat len)
  | .f32 => writeFuint32 host ba (UInt32.ofNat len)
  | .f64 => writeFuint64 host ba (UInt64.ofNat len)
  | .vint => ba.writeUint64 (UInt64.ofNat len)

def readLength (ba : ByteArray) : StringPrefix → Except Fault (ℕ × ByteArray)
  | .f16 => do
      let (len, ba') ← readFuint16 host ba
      .ok (len.toNat, ba')
  | .f32 => do
      let (len, ba') ← readFuint32 host ba
      .ok (len.toNat, ba')
  | .f64 => do
      let (len, ba') ← readFuint64 host ba
      .ok (len.toNat, ba')
  | .vint => do
      let (len, ba') ← ba.readUint64
      .ok (len.toNat, ba')

theorem writeString_eq (ba : ByteArray) (value : List UInt8) (p : StringPrefix) :
    writeString host ba value p =
      writeLength host ba value.length p >>= fun ba' => ba'.write value := by
  cases p <;> rfl

theorem bind_read {α : Type} (x : Except Fault (α × ByteArray)) (size : α → ℕ) :
    (x >>= fun r => r.2.read (size r.1)) =
      (x >>= fun r => Except.ok (size r.1, r.2)) >>= fun r => r.2.read r.1 := by
  cases x <;> rfl

theorem readString_eq (ba : ByteArray) (p : StringPrefix) :
    readString host ba p = readLength host ba p >>= fun r => r.2.read r.1 := by
  cases p with
  | f16 => exact bind_read (readFuint16 host ba) UInt16.toNat
  | f32 => exact bind_read (readFuint32 host ba) UInt32.toNat
  | f64 => exact bind_read (readFuint64 host ba) UInt64.toNat
  | vint => exact bind_read ba.readUint64 UInt64.toNat

/-- The reader of the prefix makes the length of it that the type of the prefix holds. -/
theorem codec_length (e : Endian) (len : ℕ) (p : StringPrefix) :
    Codec e (fun ba => writeLength host ba len p) (fun ba => readLength host ba p)
      (len % p.limit) := by
  cases p with
  | f16 =>
    exact (codec_fuint16 host e (UInt16.ofNat len)).map (fun _ r => .ok (r.1.toNat, r.2)) _
      fun _ _ _ => by rw [UInt16.toNat_ofNat']; rfl
  | f32 =>
    exact (codec_fuint32 host e (UInt32.ofNat len)).map (fun _ r => .ok (r.1.toNat, r.2)) _
      fun _ _ _ => by rw [UInt32.toNat_ofNat']; rfl
  | f64 =>
    exact (codec_fuint64 host e (UInt64.ofNat len)).map (fun _ r => .ok (r.1.toNat, r.2)) _
      fun _ _ _ => by rw [UInt64.toNat_ofNat']; rfl
  | vint =>
    exact (codec_uint64 e (UInt64.ofNat len)).map (fun _ r => .ok (r.1.toNat, r.2)) _
      fun _ _ _ => by rw [UInt64.toNat_ofNat']; rfl

theorem writeLength_write (e : Endian) (len : ℕ) (p : StringPrefix) :
    ∃ bytes, (∀ ba : ByteArray, ba.m_endian = e → writeLength host ba len p = ba.write bytes) ∧
      (len = 0 → bytes.length = p.zeroWidth) := by
  have hfixed : ∀ n v, ∃ bytes, (∀ ba : ByteArray, ba.m_endian = e →
      writeFixed host n ba v = ba.write bytes) ∧ bytes.length = n := fun n v =>
    ⟨objectBytes host n (if e ≠ host then byteswap n v else v),
      fun ba he => by rw [writeFixed, he], length_objectBytes host n _⟩
  cases p with
  | f16 =>
    obtain ⟨bytes, hwrite, hlen⟩ := hfixed 2 (UInt16.ofNat len).toNat
    exact ⟨bytes, hwrite, fun _ => hlen⟩
  | f32 =>
    obtain ⟨bytes, hwrite, hlen⟩ := hfixed 4 (UInt32.ofNat len).toNat
    exact ⟨bytes, hwrite, fun _ => hlen⟩
  | f64 =>
    obtain ⟨bytes, hwrite, hlen⟩ := hfixed 8 (UInt64.ofNat len).toNat
    exact ⟨bytes, hwrite, fun _ => hlen⟩
  | vint =>
    have hlt : (UInt64.ofNat len).toNat < 128 ^ 10 :=
      lt_of_lt_of_le (UInt64.ofNat len).toNat_lt (by norm_num)
    obtain ⟨bytes, hbytes⟩ := varintLoop_ok (by decide) hlt
    refine ⟨bytes, fun ba _ => ?_, ?_⟩
    · change (varintLoop 10 (UInt64.ofNat len).toNat >>= ba.write) = _
      rw [hbytes]
      rfl
    · rintro rfl
      obtain rfl := Except.ok.inj hbytes
      rfl

end

/-- A codec whose writer writes these bytes has a reader for these bytes. -/
theorem Codec.reads {α : Type} {e : Endian} {w : ByteArray → Except Fault ByteArray}
    {r : ByteArray → Except Fault (α × ByteArray)} {v : α} {bytes : List UInt8} (h : Codec e w r v)
    (hw : ∀ ba : ByteArray, ba.m_endian = e → w ba = ba.write bytes) (ba : ByteArray)
    (rest : List UInt8) (hu : Unread ba (bytes ++ rest)) (he : ba.m_endian = e) :
    Reads e (r ba) v rest := by
  obtain ⟨enc, hwrites, hreads⟩ := h
  -- both are what an empty array holds when the writer is through
  obtain ⟨start, hempty, hendian⟩ : ∃ start, AtEnd start [] ∧ start.m_endian = e := by
    have hnew := new_rep (fun _ _ => 0) (le_refl 1)
    refine ⟨(new (fun _ _ => 0) 1).setIsLittleEndian (decide (e = .little)),
      ⟨hnew.1.setIsLittleEndian _, hnew.2⟩, ?_⟩
    cases e <;> rfl
  obtain ⟨ba₁, hba₁, ⟨-, hflat₁⟩, -⟩ := hwrites _ [] hempty hendian
  obtain ⟨ba₂, hba₂, ⟨-, hflat₂⟩, -⟩ := write_append hempty bytes
  rw [hw _ hendian] at hba₁
  obtain rfl := Except.ok.inj (hba₁.symm.trans hba₂)
  rw [List.nil_append] at hflat₁ hflat₂
  obtain rfl : enc = bytes := congrArg Flat.bytes (hflat₁.symm.trans hflat₂)
  exact hreads ba rest hu he

theorem unvarintLoop_inv {w : ℕ} : ∀ (fuel i result : ℕ) (ba : ByteArray) {v : ℕ} {ba' : ByteArray},
    unvarintLoop w fuel i result ba = .ok (v, ba') →
      ba'.m_size = ba.m_size ∧ ba'.m_capacity = ba.m_capacity := by
  intro fuel
  induction fuel with
  | zero =>
    intro i result ba v ba' h
    cases h
    exact ⟨rfl, rfl⟩
  | succ fuel ih =>
    intro i result ba v ba' h
    rw [unvarintLoop] at h
    split_ifs at h
    · obtain ⟨⟨b, ba₁⟩, hbyte, h⟩ := ok_of_bind h
      obtain ⟨⟨bytes, ba₂⟩, hread, hpair⟩ := ok_of_bind hbyte
      cases hpair
      obtain ⟨-, hsize, hcapacity, -⟩ := read_inv hread
      dsimp only at h
      split_ifs at h
      · cases h
        exact ⟨hsize, hcapacity⟩
      · obtain ⟨hsize', hcapacity'⟩ := ih _ _ _ h
        exact ⟨hsize'.trans hsize, hcapacity'.trans hcapacity⟩
    · cases h
      exact ⟨rfl, rfl⟩

theorem readFixed_inv {host : Endian} {n : ℕ} {ba ba' : ByteArray} {v : ℕ}
    (h : readFixed host n ba = .ok (v, ba')) :
    ba'.m_size = ba.m_size ∧ ba'.m_capacity = ba.m_capacity := by
  obtain ⟨⟨bytes, ba₁⟩, hread, hpair⟩ := ok_of_bind h
  cases hpair
  obtain ⟨-, hsize, hcapacity, -⟩ := read_inv hread
  exact ⟨hsize, hcapacity⟩

theorem readLength_inv {host : Endian} {p : StringPrefix} {ba ba' : ByteArray} {len : ℕ}
    (h : readLength host ba p = .ok (len, ba')) :
    ba'.m_size = ba.m_size ∧ ba'.m_capacity = ba.m_capacity := by
  have hfixed : ∀ {n : ℕ} {α : Type} {f : ℕ → α} {size : α → ℕ},
      ((readFixed host n ba >>= fun r => Except.ok (f r.1, r.2)) >>= fun r =>
        Except.ok (size r.1, r.2)) = .ok (len, ba') →
      ba'.m_size = ba.m_size ∧ ba'.m_capacity = ba.m_capacity := by
    intro n α f size h
    obtain ⟨r, hread, hpair⟩ := ok_of_bind h
    obtain ⟨r', hfixed, hpair'⟩ := ok_of_bind hread
    cases hpair
    cases hpair'
    exact readFixed_inv hfixed
  cases p with
  | f16 => exact hfixed h
  | f32 => exact hfixed h
  | f64 => exact hfixed h
  | vint =>
    obtain ⟨⟨v, ba₁⟩, hread, hpair⟩ := ok_of_bind h
    obtain ⟨⟨v', ba₂⟩, hloop, hpair'⟩ := ok_of_bind hread
    cases hpair
    cases hpair'
    exact unvarintLoop_inv _ _ _ _ hloop

theorem Reachable.write {ba ba' : ByteArray} (h : Reachable ba) {buf : List UInt8}
    (hwrite : ba.write buf = .ok ba') : Reachable ba' := by
  have hstep := h.step (.write buf)
  simp only [ByteArray.step, hwrite] at hstep
  exact hstep

section

variable (host : Endian) {p : StringPrefix} {bytes s rest : List UInt8}

theorem writeString_spec {ba : ByteArray} (h : Reachable ba)
    (hbytes : writeLength host ba s.length p = ba.write bytes) :
    ∃ written, writeString host ba s p = .ok written ∧ Reachable written ∧
      flat written = (flat ba).write (bytes ++ s) ∧ written.m_endian = ba.m_endian := by
  have hrep := reachable_rep h
  obtain ⟨ba₁, hwrite, hrep₁, hflat, hendian, -⟩ := write_spec hrep bytes
  obtain ⟨ba₂, hwrite', -, hflat', hendian', -⟩ := write_spec hrep₁ s
  refine ⟨ba₂, ?_, (h.write hwrite).write hwrite', ?_, hendian'.trans hendian⟩
  · rw [writeString_eq, hbytes, hwrite]
    exact hwrite'
  · have hpos : (flat ba).pos ≤ (flat ba).bytes.length := by
      rw [hrep.length_flat]
      exact hrep.position_le
    rw [hflat', hflat, Flat.write, Flat.write, Flat.write, overwrite_overwrite bytes s hpos,
      List.length_append, Nat.add_assoc]

section

variable {ba : ByteArray} (h : Rep ba)
  (hbytes : ∀ ba' : ByteArray, ba'.m_endian = ba.m_endian →
    writeLength host ba' s.length p = ba'.write bytes)
  (hu : (flat ba).unread = bytes ++ (s ++ rest))

include h hbytes hu

theorem readLength_next : ∃ ba', readLength host ba p = .ok (s.length % p.limit, ba') ∧ Rep ba' ∧
    (flat ba').unread = s ++ rest ∧ ba'.m_position = ba.m_position + bytes.length ∧
    ba'.m_capacity = ba.m_capacity := by
  obtain ⟨ba', hread, ⟨hrep, hu'⟩, -⟩ :=
    (codec_length host ba.m_endian s.length p).reads hbytes ba (s ++ rest) ⟨h, hu⟩ rfl
  obtain ⟨hsize, hcapacity⟩ := readLength_inv hread
  have hlen := h.length_unread
  have hlen' := hrep.length_unread
  have hposition := h.position_le
  have hposition' := hrep.position_le
  rw [hu, List.length_append, getReadSize] at hlen
  rw [hu', getReadSize] at hlen'
  exact ⟨ba', hread, hrep, hu', by omega, hcapacity⟩

/-- The reader of the string gets as much of it as the prefix says. -/
theorem readString_next (hlt : ba.m_position + bytes.length < ba.m_capacity) :
    ∃ ba', readString host ba p = .ok (s.take (s.length % p.limit), ba') ∧
      (flat ba').unread = s.drop (s.length % p.limit) ++ rest := by
  obtain ⟨ba₁, hlength, hrep, hu₁, hposition, hcapacity⟩ := readLength_next host h hbytes hu
  have hle : s.length % p.limit ≤ s.length := Nat.mod_le _ _
  have hlen := hrep.length_unread
  rw [hu₁, List.length_append] at hlen
  obtain ⟨ba₂, hread, -, hflat, -⟩ := read_within hrep (by omega)
    (show s.length % p.limit ≤ ba₁.getReadSize by omega)
  rw [hu₁, List.take_append_of_le_length hle] at hread
  refine ⟨ba₂, ?_, ?_⟩
  · rw [readString_eq, hlength]
    exact hread
  · rw [hflat, Flat.unread, ← List.drop_drop]
    change (flat ba₁).unread.drop _ = _
    rw [hu₁, List.drop_append_of_le_length hle]

theorem readString_null (hs : s = []) (hend : ba.m_position + bytes.length = ba.m_capacity) :
    readString host ba p = .error .nullDeref := by
  obtain ⟨ba₁, hlength, hrep, -, hposition, hcapacity⟩ := readLength_next host h hbytes hu
  have hcur := hrep.cur
  rw [if_pos (by omega)] at hcur
  rw [hs, List.length_nil, Nat.zero_mod] at hlength
  rw [readString_eq, hlength]
  change ba₁.read 0 = _
  rw [read, if_neg (Nat.not_lt_zero _), hcur]

end

end

theorem rewind {ba : ByteArray} (h : Reachable ba) :
    ∃ rewound, ba.setPosition 0 = .ok rewound ∧ Reachable rewound ∧ rewound.m_endian = ba.m_endian ∧
      (flat rewound).unread = (flat ba).bytes := by
  obtain ⟨rewound, hset, -, hflat, hendian, -⟩ := setPosition_spec (reachable_rep h) (Nat.zero_le _)
  have hstep := h.step (.setPosition 0)
  simp only [ByteArray.step, hset] at hstep
  exact ⟨rewound, hset, hstep, hendian, by rw [hflat]; rfl⟩

/-- The prefix is the length of the string, and the reader returns the string and stops behind
it. -/
structure Framed (host : Endian) (p : StringPrefix) (s rest : List UInt8) (ba : ByteArray) :
    Prop where
  length : ∃ ba', readLength host ba p = .ok (s.length, ba') ∧ (flat ba').unread = s ++ rest
  value : ∃ ba', readString host ba p = .ok (s, ba') ∧ (flat ba').unread = rest

/-- Written wherever, and read wherever its bytes are next, a string is framed exactly if the type
of the prefix holds its length, and if, where it is empty, the prefix does not end with the
capacity. -/
theorem strings_framed_iff (host : Endian) {ba : ByteArray} (h : Reachable ba) (s : List UInt8)
    (p : StringPrefix) :
    ∃ bytes written, writeString host ba s p = .ok written ∧ Reachable written ∧
      flat written = (flat ba).write (bytes ++ s) ∧ written.m_endian = ba.m_endian ∧
      ∀ reading rest, Reachable reading → reading.m_endian = ba.m_endian →
        (flat reading).unread = bytes ++ (s ++ rest) →
        (Framed host p s rest reading ↔ s.length < p.limit ∧
          (s = [] → reading.m_position + p.zeroWidth ≠ reading.m_capacity)) := by
  obtain ⟨bytes, hbytes, hzero⟩ := writeLength_write host ba.m_endian s.length p
  obtain ⟨written, hwrite, hreach, hflat, hend⟩ := writeString_spec host h (hbytes ba rfl)
  refine ⟨bytes, written, hwrite, hreach, hflat, hend, fun reading rest hreading hendian hu => ?_⟩
  have hrep := reachable_rep hreading
  have hbytes' : ∀ ba' : ByteArray, ba'.m_endian = reading.m_endian →
      writeLength host ba' s.length p = ba'.write bytes :=
    fun ba' he => hbytes ba' (he.trans hendian)
  constructor
  · rintro ⟨⟨ba₁, hlength, -⟩, ⟨ba₂, hvalue, -⟩⟩
    constructor
    · obtain ⟨ba₃, hlength', -⟩ := readLength_next host hrep hbytes' hu
      have hmod : s.length % p.limit = s.length :=
        (Prod.mk.inj (Except.ok.inj (hlength'.symm.trans hlength))).1
      rw [← hmod]
      exact Nat.mod_lt _ (by cases p <;> norm_num [StringPrefix.limit])
    · intro hs hend
      rw [← hzero (by rw [hs]; rfl)] at hend
      rw [readString_null host hrep hbytes' hu hs hend] at hvalue
      cases hvalue
  · rintro ⟨hlt, hempty⟩
    have hmod := Nat.mod_eq_of_lt hlt
    obtain ⟨ba₁, hlength, -, hu₁, -⟩ := readLength_next host hrep hbytes' hu
    rw [hmod] at hlength
    have hroom : reading.m_position + bytes.length < reading.m_capacity := by
      have hlen := hrep.length_unread
      have hposition := hrep.position_le
      have hsize := hrep.size_le
      rw [hu, List.length_append, List.length_append, getReadSize] at hlen
      by_cases hs : s = []
      · have hne := hempty hs
        rw [← hzero (by rw [hs]; rfl)] at hne
        omega
      · have := List.length_pos_iff.mpr hs
        omega
    obtain ⟨ba₂, hvalue, hu₂⟩ := readString_next host hrep hbytes' hu hroom
    rw [hmod, List.take_length] at hvalue
    rw [hmod, List.drop_length] at hu₂
    exact ⟨⟨ba₁, hlength, hu₁⟩, ⟨ba₂, hvalue, hu₂⟩⟩

theorem new_write (b : ℕ) (hb : 1 ≤ b) (buf : List UInt8) :
    ((flat (new (fun _ _ => 0) b)).write buf).bytes = buf := by
  rw [(new_rep (fun _ _ => 0) hb).2, Flat.write, Flat.empty, overwrite]
  simp

/-- Nodes of three bytes. -/
theorem strings_framed_two : ∃ written rewound,
    writeStringF16 .little (new (fun _ _ => 0) 3) [104, 105] = .ok written ∧
    written.setPosition 0 = .ok rewound ∧ Framed .little .f16 [104, 105] [] rewound := by
  obtain ⟨bytes, written, hwrite, hreach, hflat, hendian, hiff⟩ := strings_framed_iff .little
    (Reachable.new (fun _ _ => 0) (by decide : 1 ≤ 3)) [104, 105] .f16
  obtain ⟨rewound, hset, hrewound, hendian', hu⟩ := rewind hreach
  rw [hflat, new_write 3 (by decide)] at hu
  refine ⟨written, rewound, hwrite, hset, (hiff rewound [] hrewound (hendian'.trans hendian) ?_).mpr
    ⟨by decide, by simp⟩⟩
  rw [hu, List.append_nil]

/-- Of a string of 65536 bytes the reader returns none, and they are what is read next. -/
theorem strings_framed_not_long : ∃ written rewound done,
    writeStringF16 .little (new (fun _ _ => 0) 4096) (List.replicate 65536 7) = .ok written ∧
    written.setPosition 0 = .ok rewound ∧ readStringF16 .little rewound = .ok ([], done) ∧
    (flat done).unread = List.replicate 65536 7 := by
  have hlen : (List.replicate 65536 7 : List UInt8).length = 65536 := List.length_replicate
  generalize (List.replicate 65536 7 : List UInt8) = s at hlen ⊢
  have hnew := Reachable.new (fun _ _ => 0) (by decide : 1 ≤ 4096)
  obtain ⟨bytes, hbytes, -⟩ :=
    writeLength_write .little (new (fun _ _ => 0) 4096).m_endian s.length .f16
  obtain ⟨written, hwrite, hreach, hflat, hendian⟩ := writeString_spec .little hnew (hbytes _ rfl)
  obtain ⟨rewound, hset, hrewound, hendian', hu⟩ := rewind hreach
  rw [hflat, new_write 4096 (by decide), ← List.append_nil s] at hu
  have hrep := reachable_rep hrewound
  have hroom : rewound.m_position + bytes.length < rewound.m_capacity := by
    have hunread := hrep.length_unread
    have hposition := hrep.position_le
    have hsize := hrep.size_le
    rw [hu, List.length_append, List.length_append, hlen, getReadSize] at hunread
    omega
  obtain ⟨done, hread, hdone⟩ := readString_next .little hrep
    (fun ba he => hbytes ba (he.trans (hendian'.trans hendian))) hu hroom
  have hmod : s.length % StringPrefix.limit .f16 = 0 := by rw [hlen]; rfl
  rw [hmod, List.take_zero] at hread
  rw [hmod, List.drop_zero, List.append_nil] at hdone
  exact ⟨written, rewound, done, hwrite, hset, hread, hdone⟩

end ByteArray

end Sylar
