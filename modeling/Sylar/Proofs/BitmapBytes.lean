import Sylar.Proofs.BitmapCompress
import Sylar.Proofs.ByteArrayReach
import Sylar.Spec.BitmapBytes

/-! `readFrom` on bytes of any kind. It overwrites the bitmap member by member while it reads, and it
never compares the two sizes that it has read. -/

namespace Sylar

open Lib

namespace ByteArray

/-- `k` of the bytes that were unread in `ba` have been read in `ba'`. -/
structure Passed (ba ba' : ByteArray) (k : ℕ) : Prop where
  rep : Rep ba'
  unread : (flat ba').unread = (flat ba).unread.drop k
  position : ba'.m_position = ba.m_position + k
  capacity : ba'.m_capacity = ba.m_capacity
  endian : ba'.m_endian = ba.m_endian

section

variable {ba ba' : ByteArray} {k : ℕ}

theorem Passed.start (h : Rep ba) : Passed ba ba 0 := ⟨h, rfl, rfl, rfl, rfl⟩

theorem Passed.read (h : Passed ba ba' k) {n : ℕ} (hk : k + n ≤ (flat ba).unread.length)
    (hlt : 1 ≤ n ∨ ba.m_position + k < ba.m_capacity) :
    ∃ ba'', ba'.read n = .ok (((flat ba).unread.drop k).take n, ba'') ∧ Passed ba ba'' (k + n) := by
  have hlength := h.rep.length_unread
  rw [h.unread, List.length_drop] at hlength
  have hsize := h.rep.size_le
  have hposition := h.position
  have hcapacity := h.capacity
  unfold getReadSize at hlength
  obtain ⟨ba'', hread, hrep, hflat, hendian, -⟩ := read_within h.rep (n := n) (by omega)
    (by unfold getReadSize; omega)
  rw [h.unread] at hread
  obtain ⟨hposition', -, hcapacity', -⟩ := read_inv hread
  refine ⟨ba'', hread, hrep, ?_, by omega, hcapacity'.trans hcapacity, hendian.trans h.endian⟩
  rw [hflat, Flat.unread, ← List.drop_drop]
  change (flat ba').unread.drop n = _
  rw [h.unread, List.drop_drop]

theorem Passed.short (h : Passed ba ba' k) {n : ℕ} (hn : 1 ≤ n) (hk : (flat ba).unread.length < k + n) :
    ba'.read n = .error (.outOfRange "not enough len") := by
  have hlength := h.rep.length_unread
  rw [h.unread, List.length_drop] at hlength
  unfold ByteArray.read
  rw [if_pos (by omega)]

theorem Passed.null (h : Passed ba ba' k) (hend : ba.m_position + k = ba.m_capacity) :
    ba'.read 0 = .error .nullDeref := by
  have hcur := h.rep.cur
  rw [if_pos (by rw [h.position, h.capacity, hend])] at hcur
  unfold ByteArray.read
  rw [if_neg (Nat.not_lt_zero _), hcur]

theorem objectValue_swapped (host e : Endian) (bytes : List UInt8) :
    (if e = host then objectValue host bytes else byteswap bytes.length (objectValue host bytes)) =
      objectValue e bytes := by
  cases e <;> cases host
  · rfl
  · have h := leBytes_leNat bytes.reverse
    rw [List.length_reverse] at h
    simp [objectValue, byteswap, h]
  · simp [objectValue, byteswap, leBytes_leNat]
  · rfl

def field (ba : ByteArray) (k : ℕ) : ℕ := objectValue ba.m_endian (((flat ba).unread.drop k).take 4)

theorem Passed.readFuint8 (h : Passed ba ba' k) (hk : k + 1 ≤ (flat ba).unread.length) :
    ∃ ba'', ba'.readFuint8 = .ok ((flat ba).unread.getD k 0, ba'') ∧ Passed ba ba'' (k + 1) := by
  obtain ⟨ba'', hread, hpassed⟩ := h.read hk (.inl le_rfl)
  refine ⟨ba'', ?_, hpassed⟩
  have hbyte : ((flat ba).unread.drop k).take 1 = [(flat ba).unread.getD k 0] := by
    rw [List.drop_eq_getElem_cons (by omega), List.take_succ_cons, List.take_zero,
      List.getD_eq_getElem _ _ (by omega)]
  unfold ByteArray.readFuint8
  rw [hread, hbyte]
  simp [bind, Except.bind, leNat]

theorem Passed.readFuint32 (host : Endian) (h : Passed ba ba' k)
    (hk : k + 4 ≤ (flat ba).unread.length) :
    ∃ v ba'', readFuint32 host ba' = .ok (v, ba'') ∧ v.toNat = field ba k ∧ Passed ba ba'' (k + 4) := by
  obtain ⟨ba'', hread, hpassed⟩ := h.read hk (.inl (by decide))
  have hlength : (((flat ba).unread.drop k).take 4).length = 4 := by
    rw [List.length_take, List.length_drop]
    omega
  have hvalue := objectValue_swapped host ba'.m_endian (((flat ba).unread.drop k).take 4)
  rw [hlength, h.endian] at hvalue
  have hlt := objectValue_lt ba.m_endian (((flat ba).unread.drop k).take 4)
  rw [hlength] at hlt
  refine ⟨UInt32.ofNat (field ba k), ba'', ?_, UInt32.toNat_ofNat_of_lt' hlt, hpassed⟩
  unfold ByteArray.readFuint32 readFixed
  simp only [hread, bind, Except.bind, h.endian]
  rw [hvalue]
  rfl

theorem Passed.readFuint32_short (host : Endian) (h : Passed ba ba' k)
    (hk : (flat ba).unread.length < k + 4) :
    ByteArray.readFuint32 host ba' = .error (.outOfRange "not enough len") := by
  unfold ByteArray.readFuint32 readFixed
  rw [h.short (by decide) hk]
  rfl

end

end ByteArray

namespace Bitmap

theorem wordBytes_cons (host : Endian) (w : Word) (data : List Word) :
    wordBytes host (w :: data) = objectBytes host 2 w.toNat ++ wordBytes host data :=
  List.flatMap_cons

theorem loadWords_wordBytes (host : Endian) (data : List Word) :
    loadWords host data.length (wordBytes host data) = data := by
  induction data with
  | nil => rfl
  | cons w data ih =>
    have hlength := length_objectBytes host 2 w.toNat
    have hvalue : objectValue host (objectBytes host 2 w.toNat) = w.toNat := by
      rw [objectValue_objectBytes]
      exact Nat.mod_eq_of_lt w.isLt
    rw [List.length_cons, loadWords, wordBytes_cons, List.take_left' hlength, List.drop_left' hlength, ih,
      hvalue, BitVec.ofNat_toNat, BitVec.setWidth_eq]

theorem length_wordBytes (host : Endian) (data : List Word) :
    (wordBytes host data).length = data.length * 2 := by
  induction data with
  | nil => rfl
  | cons w data ih =>
    rw [wordBytes_cons, List.length_append, length_objectBytes, ih, List.length_cons]
    omega

theorem readFrom_writeTo (host : Endian) (heap : ℕ → ℕ → UInt8) {base_size : ℕ}
    (hb : 1 ≤ base_size) (block : ℕ → Word) (b b₀ : Bitmap) (hsize : b.m_size < 2 ^ 32)
    (hdata : b.m_data.length < 2 ^ 32) (hne : b.m_data ≠ []) :
    ∃ written rewound done, writeTo host b (ByteArray.new heap base_size) = .ok written ∧
      written.setPosition 0 = .ok rewound ∧ readFrom host block b₀ rewound = .ok (true, b, done) := by
  have hlength := length_wordBytes host b.m_data
  have hpos := List.length_pos_iff.mpr hne
  have hwords : wordBytes host b.m_data ≠ [] := by
    intro hnil
    rw [hnil, List.length_nil] at hlength
    omega
  obtain ⟨enc₁, hw₁, hr₁⟩ := ByteArray.codec_fuint8 .big (if b.m_compress then 1 else 0)
  obtain ⟨enc₂, hw₂, hr₂⟩ := ByteArray.codec_fuint32 host .big (UInt32.ofNat b.m_size)
  obtain ⟨enc₃, hw₃, hr₃⟩ := ByteArray.codec_fuint32 host .big (UInt32.ofNat b.m_data.length)
  obtain ⟨enc₄, hw₄, hr₄⟩ := ByteArray.codec_raw .big (wordBytes host b.m_data) hwords
  -- written one after the other
  obtain ⟨ba₁, hwrite₁, hend₁, he₁⟩ :=
    hw₁ (ByteArray.new heap base_size) [] (ByteArray.new_rep heap hb) rfl
  obtain ⟨ba₂, hwrite₂, hend₂, he₂⟩ := hw₂ ba₁ _ hend₁ he₁
  obtain ⟨ba₃, hwrite₃, hend₃, he₃⟩ := hw₃ ba₂ _ hend₂ he₂
  obtain ⟨written, hwrite₄, ⟨hrep, hflat⟩, he₄⟩ := hw₄ ba₃ _ hend₃ he₃
  obtain ⟨rewound, hset, hrep', hflat', he', -⟩ :=
    ByteArray.setPosition_spec hrep (Nat.zero_le written.getSize)
  -- and read in the same order
  have hunread : rewound.Unread (enc₁ ++ (enc₂ ++ (enc₃ ++ (enc₄ ++ [])))) := by
    refine ⟨hrep', ?_⟩
    rw [hflat', hflat, Flat.unread]
    simp
  obtain ⟨bb₁, hread₁, hunread₁, hx₁⟩ := hr₁ rewound _ hunread (he'.trans he₄)
  obtain ⟨bb₂, hread₂, hunread₂, hx₂⟩ := hr₂ bb₁ _ hunread₁ hx₁
  obtain ⟨bb₃, hread₃, hunread₃, hx₃⟩ := hr₃ bb₂ _ hunread₂ hx₂
  obtain ⟨done, hread₄, -, -⟩ := hr₄ bb₃ _ hunread₃ hx₃
  refine ⟨written, rewound, done, ?_, hset, ?_⟩
  · unfold writeTo
    dsimp only at hwrite₁ hwrite₂ hwrite₃ hwrite₄
    simp only [hwrite₁, hwrite₂, hwrite₃, hwrite₄, bind, Except.bind]
  · rw [hlength] at hread₄
    unfold readFrom
    simp only [hread₁, hread₂, hread₃, UInt32.toNat_ofNat_of_lt' hdata,
      UInt32.toNat_ofNat_of_lt' hsize, hread₄, loadWords_wordBytes]
    cases b with
    | mk compress size data => cases compress <;> rfl

/-- `readFrom` keeps the bitmap when it fails, and when it succeeds with an uncompressed one its
words are there, whatever was in the block it allocated. -/
def ReadsSafely (host : Endian) (b : Bitmap) (ba : ByteArray) : Prop :=
  ∀ block r, readFrom host block b ba = .ok r →
    (r.1 = false → r.2.1 = b) ∧
    (r.1 = true → r.2.1.isCompress = false →
      r.2.1.getDataSize = wordsFor r.2.1.getSize ∧ ∀ i < r.2.1.getSize, ∃ v, r.2.1.get i = .ok v)

def unreadLength (ba : ByteArray) : ℕ := ba.flat.unread.length

def headerFlag (ba : ByteArray) : Bool := ba.flat.unread.getD 0 0 != 0
def headerSize (ba : ByteArray) : ℕ := ba.field 1
def headerDataSize (ba : ByteArray) : ℕ := ba.field 5

/-- A whole header that counts no words, behind which there is no node. -/
def EmptyAtEnd (ba : ByteArray) : Prop :=
  9 ≤ unreadLength ba ∧ headerDataSize ba = 0 ∧ ba.m_position + 9 = ba.m_capacity

/-- Where the bytes are cut off, what was read up to there is what the bitmap has; and if they are
not, the two sizes fit. -/
def Harmless (b : Bitmap) (ba : ByteArray) : Prop :=
  if unreadLength ba < 1 then True
  else if unreadLength ba < 5 then headerFlag ba = b.isCompress
  else if unreadLength ba < 9 then headerFlag ba = b.isCompress ∧ headerSize ba = b.getSize
  else if unreadLength ba < 9 + headerDataSize ba * 2 then False
  else headerFlag ba = true ∨ headerDataSize ba = wordsFor (headerSize ba)

theorem length_loadWords (host : Endian) (n : ℕ) (bytes : List UInt8) :
    (loadWords host n bytes).length = n := by
  induction n generalizing bytes with
  | zero => rfl
  | succ n ih => rw [loadWords, List.length_cons, ih]

section Cases

variable (host : Endian) {ba : ByteArray} (block : ℕ → Word) (b : Bitmap)

theorem readFrom_none (h : ba.Rep) (h1 : unreadLength ba < 1) :
    readFrom host block b ba = .ok (false, b, ba) := by
  have hread := (ByteArray.Passed.start h).short le_rfl (by rw [Nat.zero_add]; exact h1)
  unfold readFrom ByteArray.readFuint8
  rw [hread]
  rfl

theorem readFrom_flag (h : ba.Rep) (h1 : 1 ≤ unreadLength ba) (h5 : unreadLength ba < 5) :
    ∃ ba', readFrom host block b ba = .ok (false, { b with m_compress := headerFlag ba }, ba') := by
  obtain ⟨ba₁, hflag, hpassed⟩ := (ByteArray.Passed.start h).readFuint8 h1
  have hsize := hpassed.readFuint32_short host h5
  refine ⟨ba₁, ?_⟩
  unfold readFrom
  simp only [hflag, hsize]
  rfl

theorem readFrom_size (h : ba.Rep) (h5 : 5 ≤ unreadLength ba) (h9 : unreadLength ba < 9) :
    ∃ ba', readFrom host block b ba =
      .ok (false, ⟨headerFlag ba, headerSize ba, b.m_data⟩, ba') := by
  obtain ⟨ba₁, hflag, hpassed⟩ := (ByteArray.Passed.start h).readFuint8 (le_trans (by decide) h5)
  obtain ⟨v, ba₂, hsize, hv, hpassed⟩ := hpassed.readFuint32 host h5
  have hdata := hpassed.readFuint32_short host h9
  refine ⟨ba₂, ?_⟩
  unfold readFrom
  simp only [hflag, hsize, hdata, hv]
  rfl

/-- The whole of the header: what is left to do is to read the words. -/
theorem readFrom_header (h : ba.Rep) (h9 : 9 ≤ unreadLength ba) :
    ∃ ba', ba.Passed ba' 9 ∧
      (∀ fault, ba'.read (headerDataSize ba * 2) = .error fault → readFrom host block b ba =
        caught fault ⟨headerFlag ba, headerSize ba, (List.range (headerDataSize ba)).map block⟩ ba') ∧
      ∀ bytes ba'', ba'.read (headerDataSize ba * 2) = .ok (bytes, ba'') → readFrom host block b ba =
        .ok (true, ⟨headerFlag ba, headerSize ba, loadWords host (headerDataSize ba) bytes⟩, ba'') := by
  obtain ⟨ba₁, hflag, hpassed⟩ := (ByteArray.Passed.start h).readFuint8 (le_trans (by decide) h9)
  obtain ⟨v, ba₂, hsize, hv, hpassed⟩ := hpassed.readFuint32 host (le_trans (by decide) h9)
  obtain ⟨w, ba₃, hdata, hw, hpassed⟩ := hpassed.readFuint32 host h9
  refine ⟨ba₃, hpassed, fun fault hread => ?_, fun bytes ba'' hread => ?_⟩
  all_goals
    change ba₃.read (ba.field 5 * 2) = _ at hread
    unfold readFrom
    simp only [hflag, hsize, hdata, hv, hw, hread]
    rfl

theorem readFrom_cut (h : ba.Rep) (h9 : 9 ≤ unreadLength ba)
    (hcut : unreadLength ba < 9 + headerDataSize ba * 2) :
    ∃ ba', readFrom host block b ba =
      .ok (false, ⟨headerFlag ba, headerSize ba, (List.range (headerDataSize ba)).map block⟩, ba') := by
  obtain ⟨ba', hpassed, hfailed, -⟩ := readFrom_header host block b h h9
  exact ⟨ba', hfailed _ (hpassed.short (by omega) hcut)⟩

theorem readFrom_whole (h : ba.Rep) (h9 : 9 ≤ unreadLength ba)
    (hwhole : 9 + headerDataSize ba * 2 ≤ unreadLength ba) (hend : ¬ EmptyAtEnd ba) :
    ∃ data ba', data.length = headerDataSize ba ∧
      readFrom host block b ba = .ok (true, ⟨headerFlag ba, headerSize ba, data⟩, ba') := by
  obtain ⟨ba', hpassed, -, hread⟩ := readFrom_header host block b h h9
  have hroom : ba.m_position + 9 ≤ ba.m_capacity := by
    have hle := hpassed.rep.position_le.trans hpassed.rep.size_le
    rwa [hpassed.position, hpassed.capacity] at hle
  have hlt : 1 ≤ headerDataSize ba * 2 ∨ ba.m_position + 9 < ba.m_capacity := by
    by_contra hnot
    exact hend ⟨h9, by omega, by omega⟩
  obtain ⟨ba'', hwords, -⟩ := hpassed.read hwhole hlt
  exact ⟨_, ba'', length_loadWords host _ _, hread _ _ hwords⟩

theorem readFrom_null (h : ba.Rep) (hend : EmptyAtEnd ba) :
    readFrom host block b ba = .error .nullDeref := by
  obtain ⟨h9, h0, hcapacity⟩ := hend
  obtain ⟨ba', hpassed, hfailed, -⟩ := readFrom_header host block b h h9
  rw [h0, Nat.zero_mul] at hfailed
  exact hfailed _ (hpassed.null hcapacity)

end Cases

theorem get_ok {b : Bitmap} (h : b.m_data.length = wordsFor b.m_size) {i : ℕ} (hi : i < b.m_size) :
    ∃ v, b.get i = .ok v := by
  have hword := List.getElem?_eq_getElem (h ▸ index_lt_wordsFor hi)
  unfold get
  rw [hword]
  exact ⟨_, rfl⟩

theorem readsSafely_failed {host : Endian} {b b' : Bitmap} {ba : ByteArray}
    (hread : ∀ block, ∃ ba', readFrom host block b ba = .ok (false, b', ba')) :
    ReadsSafely host b ba ↔ b' = b := by
  constructor
  · intro h
    obtain ⟨ba', hread'⟩ := hread fun _ => 0#16
    exact (h _ _ hread').1 rfl
  · intro h block r hr
    obtain ⟨ba', hread'⟩ := hread block
    obtain rfl := Except.ok.inj (hread'.symm.trans hr)
    exact ⟨fun _ => h, nofun⟩

theorem readsSafely_iff {host : Endian} {b : Bitmap} {ba : ByteArray} (h : ba.Rep)
    (hend : ¬ EmptyAtEnd ba) : ReadsSafely host b ba ↔ Harmless b ba := by
  unfold Harmless
  split_ifs with h1 h5 h9 hcut
  · rw [readsSafely_failed fun block => ⟨ba, readFrom_none host block b h h1⟩]
    exact iff_of_true rfl trivial
  · rw [readsSafely_failed fun block => readFrom_flag host block b h (by omega) h5]
    exact ⟨congrArg m_compress, fun hflag => by rw [hflag]; rfl⟩
  · rw [readsSafely_failed fun block => readFrom_size host block b h (by omega) h9]
    constructor
    · intro heq
      exact ⟨congrArg m_compress heq, congrArg m_size heq⟩
    · rintro ⟨hflag, hsize⟩
      rw [hflag, hsize]
      rfl
  · -- the block that was allocated may hold anything, also what differs from the first word
    refine iff_of_false (fun hsafe => ?_) id
    obtain ⟨ba', hread⟩ := readFrom_cut host (fun _ => ~~~ b.m_data.headD 0#16) b h
      (by omega) hcut
    have hdata := congrArg m_data ((hsafe _ _ hread).1 rfl)
    obtain ⟨n, hn⟩ : ∃ n, headerDataSize ba = n + 1 := ⟨headerDataSize ba - 1, by omega⟩
    have hhead : b.m_data.headD 0#16 = ~~~ b.m_data.headD 0#16 := by
      conv_lhs => rw [← hdata, hn, List.range_succ_eq_map]
      rfl
    simpa using congrArg (fun w => w.getLsbD 0) hhead
  · constructor
    · intro hsafe
      obtain ⟨data, ba', hlength, hread⟩ := readFrom_whole host (fun _ => 0#16) b h
        (by omega) (by omega) hend
      by_cases hflag : headerFlag ba = true
      · exact .inl hflag
      · have hsizes := ((hsafe _ _ hread).2 rfl (Bool.eq_false_iff.mpr hflag)).1
        exact .inr (hlength.symm.trans hsizes)
    · intro hfit block r hr
      obtain ⟨data, ba', hlength, hread⟩ := readFrom_whole host block b h (by omega)
        (by omega) hend
      obtain rfl := Except.ok.inj (hread.symm.trans hr)
      refine ⟨nofun, fun _ hflag => ?_⟩
      have hsizes := hfit.resolve_left (Bool.eq_false_iff.mp hflag)
      exact ⟨hlength.trans hsizes, fun i hi => get_ok (hlength.trans hsizes) hi⟩

/-- Where the call returns, what it owes is given exactly if the bytes are harmless. -/
theorem readFrom_safe_iff (host : Endian) {ba : ByteArray} (h : ba.Reachable) (b : Bitmap) :
    (∀ block, (∃ r, readFrom host block b ba = .ok r) ↔ ¬ EmptyAtEnd ba) ∧
    (ReadsSafely host b ba ↔ EmptyAtEnd ba ∨ Harmless b ba) := by
  have hrep := ByteArray.reachable_rep h
  by_cases hend : EmptyAtEnd ba
  · have hnull := fun block => readFrom_null host block b hrep hend
    constructor
    · intro block
      refine iff_of_false ?_ (not_not.mpr hend)
      rintro ⟨r, hr⟩
      cases (hnull block).symm.trans hr
    · refine iff_of_true (fun block r hr => ?_) (.inl hend)
      cases (hnull block).symm.trans hr
  · refine ⟨fun block => iff_of_true ?_ hend, ?_⟩
    · by_cases h1 : unreadLength ba < 1
      · exact ⟨_, readFrom_none host block b hrep h1⟩
      by_cases h5 : unreadLength ba < 5
      · obtain ⟨ba', hread⟩ := readFrom_flag host block b hrep (by omega) h5
        exact ⟨_, hread⟩
      by_cases h9 : unreadLength ba < 9
      · obtain ⟨ba', hread⟩ := readFrom_size host block b hrep (by omega) h9
        exact ⟨_, hread⟩
      by_cases hcut : unreadLength ba < 9 + headerDataSize ba * 2
      · obtain ⟨ba', hread⟩ := readFrom_cut host block b hrep (by omega) hcut
        exact ⟨_, hread⟩
      · obtain ⟨data, ba', -, hread⟩ :=
          readFrom_whole host block b hrep (by omega) (by omega) hend
        exact ⟨_, hread⟩
    · rw [or_iff_right hend]
      exact readsSafely_iff hrep hend

def holding (base_size : ℕ) (bytes : List UInt8) : ByteArray :=
  (ByteArray.machine.run (ByteArray.new (fun _ _ => 0) base_size)
    [.write bytes, .setPosition 0]).2

theorem holding_reachable {base_size : ℕ} (h : 1 ≤ base_size) (bytes : List UInt8) :
    (holding base_size bytes).Reachable :=
  (ByteArray.Reachable.new _ h).run _

/-- A header that says two bits in one word, with the word behind it. -/
theorem readFrom_safe_iff_word :
    ReadsSafely .little (new 1 0) (holding 4 [0, 0, 0, 0, 2, 0, 0, 0, 1, 3, 0]) := by
  refine (readFrom_safe_iff .little (holding_reachable (by decide) _) (new 1 0)).2.mpr (.inr ?_)
  unfold Harmless
  decide

/-- The one byte that is there makes an uncompressed bitmap a compressed one. -/
theorem not_readsSafely_byte :
    ∃ ba : ByteArray, ba.Reachable ∧ ¬ ReadsSafely .little (new 1 0) ba := by
  refine ⟨holding 1 [1], holding_reachable (by decide) _, fun h => ?_⟩
  have hflag := congrArg m_compress ((h (fun _ => 0#16) _ rfl).1 rfl)
  exact absurd hflag (by decide)

end Bitmap

end Sylar
