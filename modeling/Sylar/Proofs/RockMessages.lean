import Sylar.Proofs.ZlibStream
import Sylar.Spec.RockProtocol

/-! The bytes of a message: what it is serialized to, and what becomes of it when these are parsed.
`parseMessage` finds the message again, except where an empty body begins at the end of the last
node: `read` then looks at a node that is not there. -/

namespace Sylar

open Lib

/-- What `writeUint32` and `writeUint64` write, of which there are at most `room` bytes. -/
def vint (room value : ℕ) : List UInt8 := (ByteArray.varintLoop room value).toOption.getD []

def vstring (s : StdString) : List UInt8 := vint 10 s.1.length ++ s.1

namespace RockMessage

def bytes : RockMessage → List UInt8
  | .request m_sn m_cmd m_body =>
      [1] ++ vint 5 m_sn.toNat ++ vint 5 m_cmd.toNat ++ vstring m_body
  | .response m_sn m_cmd m_result m_resultStr m_body =>
      [2] ++ vint 5 m_sn.toNat ++ vint 5 m_cmd.toNat ++ vint 5 m_result.toNat ++
        vstring m_resultStr ++ vstring m_body
  | .notify m_notify m_body => [3] ++ vint 5 m_notify.toNat ++ vstring m_body

def body : RockMessage → List UInt8
  | .request _ _ m_body => m_body.1
  | .response _ _ _ _ m_body => m_body.1
  | .notify _ m_body => m_body.1

/-- An empty body begins where the last node ends. -/
def Dangling (msg : RockMessage) : Prop := msg.body = [] ∧ 4096 ∣ msg.bytes.length

instance (msg : RockMessage) : Decidable msg.Dangling :=
  inferInstanceAs (Decidable (msg.body = [] ∧ 4096 ∣ msg.bytes.length))

end RockMessage

theorem varintLoop_vint {room value : ℕ} (hroom : 1 ≤ room) (hvalue : value < 128 ^ room) :
    ByteArray.varintLoop room value = .ok (vint room value) := by
  obtain ⟨enc, henc⟩ := ByteArray.varintLoop_ok hroom hvalue
  unfold vint
  rw [henc]
  rfl

theorem varintLoop_uint32 (v : UInt32) : ByteArray.varintLoop 5 v.toNat = .ok (vint 5 v.toNat) :=
  varintLoop_vint (by decide) (v.toNat_lt.trans_le (by norm_num))

theorem varintLoop_uint64 (v : UInt64) : ByteArray.varintLoop 10 v.toNat = .ok (vint 10 v.toNat) :=
  varintLoop_vint (by decide) (v.toNat_lt.trans_le (by norm_num))

theorem length_varintLoop : ∀ (room value : ℕ) (enc : List UInt8),
    ByteArray.varintLoop room value = .ok enc → 1 ≤ enc.length ∧ enc.length ≤ room := by
  intro room
  induction room with
  | zero => intro value enc h; cases h
  | succ room ih =>
    intro value enc h
    rw [ByteArray.varintLoop] at h
    split at h
    · obtain ⟨rest, hrest, h⟩ := ok_of_bind h
      have hlen := ih (value >>> 7) rest hrest
      rw [← Except.ok.inj h, List.length_cons]
      omega
    · rw [← Except.ok.inj h, List.length_singleton]
      omega

theorem length_vint_le (room value : ℕ) : (vint room value).length ≤ room := by
  unfold vint
  cases h : ByteArray.varintLoop room value with
  | error fault => exact Nat.zero_le _
  | ok enc => exact (length_varintLoop room value enc h).2

theorem StdString.toNat_length (s : StdString) : (UInt64.ofNat s.1.length).toNat = s.1.length :=
  UInt64.toNat_ofNat_of_lt' (s.2.trans (by norm_num [UInt64.size]))

theorem vint_length_ne_nil (s : StdString) : vint 10 s.1.length ≠ [] := by
  have h := length_varintLoop 10 _ _ (varintLoop_uint64 (UInt64.ofNat s.1.length))
  rw [s.toNat_length] at h
  exact List.length_pos_iff.mp h.1

theorem vstring_ne_nil (s : StdString) : vstring s ≠ [] := by
  unfold vstring
  simp [vint_length_ne_nil s]

theorem length_vstring_le (s : StdString) : (vstring s).length ≤ 10 + s.1.length := by
  have h := length_vint_le 10 s.1.length
  unfold vstring
  rw [List.length_append]
  omega

namespace RockMessage

theorem bytes_ne_nil (msg : RockMessage) : msg.bytes ≠ [] := by
  cases msg <;> simp [bytes]

theorem length_bytes_le {msg : RockMessage} (h : msg.getType ≠ 2) :
    msg.bytes.length ≤ 21 + msg.body.length := by
  cases msg with
  | request m_sn m_cmd m_body =>
    have hsn := length_vint_le 5 m_sn.toNat
    have hcmd := length_vint_le 5 m_cmd.toNat
    have hbody := length_vstring_le m_body
    simp only [bytes, body, List.length_append, List.length_singleton]
    omega
  | response => exact absurd rfl h
  | notify m_notify m_body =>
    have hnotify := length_vint_le 5 m_notify.toNat
    have hbody := length_vstring_le m_body
    simp only [bytes, body, List.length_append, List.length_singleton]
    omega

theorem length_body_lt (msg : RockMessage) : msg.body.length < 2 ^ 62 := by
  cases msg with
  | request _ _ m_body => exact m_body.2
  | response _ _ _ _ m_body => exact m_body.2
  | notify _ m_body => exact m_body.2

theorem length_bytes_lt (msg : RockMessage) : msg.bytes.length < 2 ^ 64 := by
  by_cases h : msg.getType ≠ 2
  · have hle := length_bytes_le h
    have hbody := msg.length_body_lt
    omega
  · cases msg with
    | response m_sn m_cmd m_result m_resultStr m_body =>
      have hsn := length_vint_le 5 m_sn.toNat
      have hcmd := length_vint_le 5 m_cmd.toNat
      have hresult := length_vint_le 5 m_result.toNat
      have hresultStr := length_vstring_le m_resultStr
      have hbody := length_vstring_le m_body
      have hresultStr' := m_resultStr.2
      have hbody' := m_body.2
      simp only [bytes, List.length_append, List.length_singleton]
      omega
    | _ => exact absurd (by simp [getType]) h

theorem not_dangling {msg : RockMessage} (h : msg.getType ≠ 2) : ¬ msg.Dangling := by
  rintro ⟨hbody, hdvd⟩
  have hle := Nat.le_of_dvd (List.length_pos_iff.mpr msg.bytes_ne_nil) hdvd
  have hlength := length_bytes_le h
  rw [hbody, List.length_nil] at hlength
  omega

end RockMessage

namespace ByteArray

structure Same (ba ba' : ByteArray) : Prop where
  chain : ba'.chain = ba.chain
  size : ba'.m_size = ba.m_size
  capacity : ba'.m_capacity = ba.m_capacity
  base : ba'.m_baseSize = ba.m_baseSize

theorem Same.refl (ba : ByteArray) : Same ba ba := ⟨rfl, rfl, rfl, rfl⟩

theorem Same.trans {ba₁ ba₂ ba₃ : ByteArray} (h : Same ba₁ ba₂) (h' : Same ba₂ ba₃) :
    Same ba₁ ba₃ where
  chain := h'.chain.trans h.chain
  size := h'.size.trans h.size
  capacity := h'.capacity.trans h.capacity
  base := h'.base.trans h.base

theorem read_same {ba ba' : ByteArray} {n : ℕ} {bytes : List UInt8}
    (h : ba.read n = .ok (bytes, ba')) : Same ba ba' := by
  unfold read at h
  split at h
  · cases h
  · split at h
    · cases h
    · obtain ⟨r, -, h⟩ := ok_of_bind h
      obtain ⟨-, rfl⟩ := Prod.mk.inj (Except.ok.inj h)
      exact ⟨rfl, rfl, rfl, rfl⟩

theorem readFuint8_same {ba ba' : ByteArray} {v : UInt8} (h : ba.readFuint8 = .ok (v, ba')) :
    Same ba ba' := by
  obtain ⟨r, hread, h⟩ := ok_of_bind h
  obtain ⟨-, rfl⟩ := Prod.mk.inj (Except.ok.inj h)
  exact read_same hread

theorem unvarintLoop_same {w : ℕ} : ∀ (fuel i result : ℕ) (ba : ByteArray) {v : ℕ}
    {ba' : ByteArray}, unvarintLoop w fuel i result ba = .ok (v, ba') → Same ba ba' := by
  intro fuel
  induction fuel with
  | zero =>
    intro i result ba v ba' h
    obtain ⟨-, rfl⟩ := Prod.mk.inj (Except.ok.inj h)
    exact .refl ba
  | succ fuel ih =>
    intro i result ba v ba' h
    rw [unvarintLoop] at h
    split at h
    · obtain ⟨r, hread, h⟩ := ok_of_bind h
      have hsame := readFuint8_same hread
      dsimp only at h
      split at h
      · obtain ⟨-, rfl⟩ := Prod.mk.inj (Except.ok.inj h)
        exact hsame
      · exact hsame.trans (ih _ _ _ h)
    · obtain ⟨-, rfl⟩ := Prod.mk.inj (Except.ok.inj h)
      exact .refl ba

/-- `v` is read, and the position is between `done` and `rest` then. -/
def Takes {α : Type} (x : Except Fault (α × ByteArray)) (v : α) (done rest : List UInt8) : Prop :=
  ∃ ba, x = .ok (v, ba) ∧ Holds ba done rest

variable {ba : ByteArray} {done enc rest : List UInt8}

theorem Holds.takes {α : Type} {x : Except Fault (α × ByteArray)} {v : α}
    (h : Holds ba done (enc ++ rest)) (hx : Reads .big x v rest)
    (hsame : ∀ ba', x = .ok (v, ba') → Same ba ba') : Takes x v (done ++ enc) rest := by
  obtain ⟨ba', hx, ⟨hrep, hunread⟩, hendian⟩ := hx
  have hs := hsame ba' hx
  have hbytes : (flat ba').bytes = done ++ (enc ++ rest) := by
    have hflat := congrArg Flat.bytes h.flat_eq
    unfold flat at hflat ⊢
    rwa [hs.chain, hs.size]
  have hposition : ba'.m_position = (done ++ enc).length := by
    have hlength := hrep.length_unread
    have hle := hrep.position_le
    have hsize := h.size_eq
    unfold getReadSize at hlength
    unfold getSize at hsize
    rw [hunread, hs.size] at hlength
    rw [hs.size] at hle
    simp only [List.length_append] at hsize ⊢
    omega
  refine ⟨ba', hx, hrep, ?_, hendian, hs.base.trans h.base, ?_⟩
  · rw [List.append_assoc, ← hbytes, ← hposition]
    rfl
  · unfold Tight
    rw [hs.capacity, hs.base, List.append_assoc]
    exact h.tight

theorem Holds.readFuint8 {v : UInt8} (h : Holds ba done ([v] ++ rest)) :
    Takes ba.readFuint8 v (done ++ [v]) rest :=
  h.takes (read_fuint8 h.unread h.endian) fun _ => readFuint8_same

theorem Holds.unvarint {w room v : ℕ} (h : Holds ba done (vint room v ++ rest))
    (hvint : varintLoop room v = .ok (vint room v)) (hle : room ≤ w) (hw : 7 * room ≤ w + 6)
    (hv : v < 2 ^ w) : Takes (unvarintLoop w w 0 0 ba) v (done ++ vint room v) rest := by
  refine h.takes ?_ fun _ => unvarintLoop_same w 0 0 ba
  have hreads := unvarintLoop_reads (w := w) .big room v _ hvint w 0 0 ba rest hle (by omega)
    (by simp) (by simpa using hv) h.unread h.endian
  simpa using hreads

theorem Holds.readUint32 {v : UInt32} (h : Holds ba done (vint 5 v.toNat ++ rest)) :
    Takes ba.readUint32 v (done ++ vint 5 v.toNat) rest := by
  obtain ⟨ba', hloop, h'⟩ := h.unvarint (varintLoop_uint32 v) (by decide) (by decide) v.toNat_lt
  refine ⟨ba', ?_, h'⟩
  unfold ByteArray.readUint32
  rw [hloop]
  change Except.ok (UInt32.ofNat v.toNat, ba') = _
  rw [UInt32.ofNat_toNat]

theorem Holds.readUint64 {v : UInt64} (h : Holds ba done (vint 10 v.toNat ++ rest)) :
    Takes ba.readUint64 v (done ++ vint 10 v.toNat) rest := by
  obtain ⟨ba', hloop, h'⟩ := h.unvarint (varintLoop_uint64 v) (by decide) (by decide) v.toNat_lt
  refine ⟨ba', ?_, h'⟩
  unfold ByteArray.readUint64
  rw [hloop]
  change Except.ok (UInt64.ofNat v.toNat, ba') = _
  rw [UInt64.ofNat_toNat]

/-- There is a current node, except where the last node ends with the bytes. -/
theorem Holds.position_lt (h : Holds ba done rest) (hne : done ≠ []) :
    ba.m_position < ba.m_capacity ↔ rest ≠ [] ∨ ¬ 4096 ∣ done.length := by
  have hpos := List.length_pos_iff.mpr hne
  have hposition := h.position_eq
  have hsize := h.size_eq
  have hle := h.rep.size_le
  have hcapacity := h.rep.capacity
  have htight := h.tight
  unfold getSize at hsize
  unfold Tight at htight
  rw [List.length_append] at hsize htight
  rw [h.base] at hcapacity htight
  by_cases hrest : rest = []
  · rw [hrest, List.length_nil] at hsize htight
    simp only [hrest, ne_eq, not_true_eq_false, false_or]
    omega
  · have hsome := List.length_pos_iff.mpr hrest
    simp only [ne_eq, hrest, not_false_eq_true, true_or, iff_true]
    omega

theorem Holds.read_within (h : Holds ba done (enc ++ rest)) (hlt : ba.m_position < ba.m_capacity) :
    Takes (ba.read enc.length) enc (done ++ enc) rest := by
  have hunread := h.unread.2
  have hlength := h.rep.length_unread
  rw [hunread, List.length_append] at hlength
  obtain ⟨ba', hread, hrep, hflat, hendian, -⟩ :=
    ByteArray.read_within h.rep hlt (show enc.length ≤ ba.getReadSize by omega)
  rw [hunread, List.take_left] at hread
  refine h.takes ⟨ba', hread, ⟨hrep, ?_⟩, hendian.trans h.endian⟩ fun _ => read_same
  rw [hflat, Flat.unread, ← List.drop_drop]
  change (flat ba).unread.drop enc.length = rest
  rw [hunread, List.drop_left]

theorem Holds.read_null (h : Holds ba done rest) (hle : ¬ ba.m_position < ba.m_capacity) :
    ba.read 0 = .error .nullDeref := by
  have hcur := h.rep.cur
  have hposition := h.rep.position_le.trans h.rep.size_le
  rw [if_pos (by omega)] at hcur
  unfold ByteArray.read
  rw [if_neg (by omega), hcur]

theorem Holds.writeUint32 (h : Holds ba done []) (v : UInt32) :
    ∃ ba', ba.writeUint32 v = .ok ba' ∧ Holds ba' (done ++ vint 5 v.toNat) [] := by
  unfold ByteArray.writeUint32
  rw [varintLoop_uint32]
  exact h.write (vint 5 v.toNat)

theorem Holds.writeStringVint (h : Holds ba done []) (s : StdString) :
    ∃ ba', ba.writeStringVint s.1 = .ok ba' ∧ Holds ba' (done ++ vstring s) [] := by
  obtain ⟨ba₁, hwrite₁, h₁⟩ := h.write (vint 10 s.1.length)
  obtain ⟨ba₂, hwrite₂, h₂⟩ := h₁.write s.1
  refine ⟨ba₂, ?_, by rwa [List.append_assoc] at h₂⟩
  have hvint := varintLoop_uint64 (UInt64.ofNat s.1.length)
  unfold ByteArray.writeStringVint ByteArray.writeUint64
  rw [hvint, s.toNat_length]
  change ba.write (vint 10 s.1.length) >>= _ = _
  rw [hwrite₁]
  exact hwrite₂

theorem Holds.readLength {s : StdString} (h : Holds ba done (vstring s ++ rest)) :
    Takes ba.readUint64 (UInt64.ofNat s.1.length) (done ++ vint 10 s.1.length) (s.1 ++ rest) := by
  unfold vstring at h
  rw [List.append_assoc, ← s.toNat_length] at h
  have htakes := h.readUint64
  rwa [s.toNat_length] at htakes

theorem Holds.readStdString {s : StdString} (h : Holds ba done (vstring s ++ rest))
    (hcur : s.1 ≠ [] ∨ rest ≠ [] ∨ ¬ 4096 ∣ (done ++ vstring s).length) :
    Takes (readStdString ba) s (done ++ vstring s) rest := by
  obtain ⟨ba₁, hlength, h₁⟩ := h.readLength
  have hlt : ba₁.m_position < ba₁.m_capacity := by
    rw [h₁.position_lt (by simp [vint_length_ne_nil s])]
    by_cases hs : s.1 = []
    · simpa [vstring, hs] using hcur
    · exact .inl (by simp [hs])
  obtain ⟨ba₂, hread, h₂⟩ := h₁.read_within hlt
  refine ⟨ba₂, ?_, by rwa [List.append_assoc] at h₂⟩
  have hstring : ba.readStringVint = .ok (s.1, ba₂) := by
    unfold readStringVint
    rw [hlength]
    change ba₁.read (UInt64.ofNat s.1.length).toNat = _
    rw [s.toNat_length, hread]
  unfold Sylar.readStdString
  rw [hstring]
  exact dif_pos s.2

theorem Holds.readStdString_null {s : StdString} (h : Holds ba done (vstring s)) (hs : s.1 = [])
    (hdvd : 4096 ∣ (done ++ vstring s).length) : Sylar.readStdString ba = .error .nullDeref := by
  rw [← List.append_nil (vstring s)] at h
  obtain ⟨ba₁, hlength, h₁⟩ := h.readLength
  have hnull : ba₁.read 0 = .error .nullDeref := by
    apply h₁.read_null
    rw [h₁.position_lt (by simp [vint_length_ne_nil s])]
    simpa [vstring, hs] using hdvd
  unfold Sylar.readStdString readStringVint
  rw [hlength]
  change ba₁.read (UInt64.ofNat s.1.length).toNat >>= _ = _
  rw [s.toNat_length, hs, List.length_nil, hnull]
  rfl

theorem Holds.readBody {β : Type} {s : StdString} {total : List UInt8}
    (h : Holds ba done (vstring s)) (htotal : done ++ vstring s = total)
    (g : StdString → β) : (do
      let r ← Sylar.readStdString ba
      Except.ok (some (g r.1))) =
      if s.1 = [] ∧ 4096 ∣ total.length then .error .nullDeref else .ok (some (g s)) := by
  subst htotal
  by_cases hnull : s.1 = [] ∧ 4096 ∣ (done ++ vstring s).length
  · rw [if_pos hnull, h.readStdString_null hnull.1 hnull.2]
    rfl
  · rw [if_neg hnull]
    rw [← List.append_nil (vstring s)] at h
    obtain ⟨ba', hread, -⟩ := h.readStdString (by
      by_cases hs : s.1 = []
      · exact .inr (.inr fun hdvd => hnull ⟨hs, hdvd⟩)
      · exact .inl hs)
    rw [hread]
    rfl

end ByteArray

namespace RockMessage

theorem serializeToByteArray_holds (msg : RockMessage) {ba : ByteArray} (h : ba.Holds [] []) :
    ∃ ba', msg.serializeToByteArray ba = .ok ba' ∧ ba'.Holds msg.bytes [] := by
  obtain ⟨ba₀, htype, h₀⟩ := h.write [msg.getType]
  rw [List.nil_append] at h₀
  unfold serializeToByteArray ByteArray.writeFuint8
  rw [htype]
  cases msg with
  | request m_sn m_cmd m_body =>
    obtain ⟨ba₁, hsn, h₁⟩ := h₀.writeUint32 m_sn
    obtain ⟨ba₂, hcmd, h₂⟩ := h₁.writeUint32 m_cmd
    obtain ⟨ba₃, hbody, h₃⟩ := h₂.writeStringVint m_body
    exact ⟨ba₃, by simp only [bind, Except.bind, hsn, hcmd, hbody], h₃⟩
  | response m_sn m_cmd m_result m_resultStr m_body =>
    obtain ⟨ba₁, hsn, h₁⟩ := h₀.writeUint32 m_sn
    obtain ⟨ba₂, hcmd, h₂⟩ := h₁.writeUint32 m_cmd
    obtain ⟨ba₃, hresult, h₃⟩ := h₂.writeUint32 m_result
    obtain ⟨ba₄, hresultStr, h₄⟩ := h₃.writeStringVint m_resultStr
    obtain ⟨ba₅, hbody, h₅⟩ := h₄.writeStringVint m_body
    exact ⟨ba₅, by simp only [bind, Except.bind, hsn, hcmd, hresult, hresultStr, hbody], h₅⟩
  | notify m_notify m_body =>
    obtain ⟨ba₁, hnotify, h₁⟩ := h₀.writeUint32 m_notify
    obtain ⟨ba₂, hbody, h₂⟩ := h₁.writeStringVint m_body
    exact ⟨ba₂, by simp only [bind, Except.bind, hnotify, hbody], h₂⟩

theorem toByteArray_holds (msg : RockMessage) (heap : ℕ → ℕ → UInt8) :
    ∃ ba, msg.toByteArray heap = .ok (some ba) ∧ ba.Holds msg.bytes [] := by
  obtain ⟨ba, hserialize, h⟩ := msg.serializeToByteArray_holds (ByteArray.holds_new heap)
  refine ⟨ba, ?_, h⟩
  unfold toByteArray
  rw [hserialize]
  rfl

def parsed (msg : RockMessage) : Except Fault (Option RockMessage) :=
  if msg.Dangling then .error .nullDeref else .ok (some msg)

end RockMessage

theorem parseMessage_holds (msg : RockMessage) {ba : ByteArray} (h : ba.Holds [] msg.bytes) :
    parseMessage ba = msg.parsed := by
  unfold parseMessage
  cases msg with
  | request m_sn m_cmd m_body =>
    simp only [RockMessage.bytes, List.append_assoc] at h
    obtain ⟨ba₀, htype, h₀⟩ := h.readFuint8
    obtain ⟨ba₁, hsn, h₁⟩ := h₀.readUint32
    obtain ⟨ba₂, hcmd, h₂⟩ := h₁.readUint32
    rw [htype]
    change parseFromByteArray 1 ba₀ = _
    unfold parseFromByteArray
    rw [if_pos rfl, hsn]
    change ba₁.readUint32 >>= _ = _
    rw [hcmd]
    exact h₂.readBody (by simp [RockMessage.bytes]) fun m_body => RockMessage.request m_sn m_cmd m_body
  | response m_sn m_cmd m_result m_resultStr m_body =>
    simp only [RockMessage.bytes, List.append_assoc] at h
    obtain ⟨ba₀, htype, h₀⟩ := h.readFuint8
    obtain ⟨ba₁, hsn, h₁⟩ := h₀.readUint32
    obtain ⟨ba₂, hcmd, h₂⟩ := h₁.readUint32
    obtain ⟨ba₃, hresult, h₃⟩ := h₂.readUint32
    obtain ⟨ba₄, hresultStr, h₄⟩ := h₃.readStdString (.inr (.inl (vstring_ne_nil m_body)))
    rw [htype]
    change parseFromByteArray 2 ba₀ = _
    unfold parseFromByteArray
    rw [if_neg (by decide), if_pos rfl, hsn]
    change ba₁.readUint32 >>= _ = _
    rw [hcmd]
    change ba₂.readUint32 >>= _ = _
    rw [hresult]
    change readStdString ba₃ >>= _ = _
    rw [hresultStr]
    exact h₄.readBody (by simp [RockMessage.bytes]) fun m_body =>
      RockMessage.response m_sn m_cmd m_result m_resultStr m_body
  | notify m_notify m_body =>
    simp only [RockMessage.bytes, List.append_assoc] at h
    obtain ⟨ba₀, htype, h₀⟩ := h.readFuint8
    obtain ⟨ba₁, hnotify, h₁⟩ := h₀.readUint32
    rw [htype]
    change parseFromByteArray 3 ba₀ = _
    unfold parseFromByteArray
    rw [if_neg (by decide), if_neg (by decide), if_pos rfl, hnotify]
    exact h₁.readBody (by simp [RockMessage.bytes]) fun m_body => RockMessage.notify m_notify m_body

end Sylar
