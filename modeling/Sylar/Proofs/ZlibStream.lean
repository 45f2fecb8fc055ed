import Sylar.Lib.Partial
import Sylar.Proofs.SocketStream
import Sylar.Spec.ZlibStream

/-! A `ZlibStream` puts out what zlib makes of its whole input, however the input is cut into
buffers and however full the output buffers were. What is asked of zlib can be met: `sample` does
with `greeting` what zlib does with it, and something simpler with other input. -/

namespace Sylar

open Lib

namespace ByteArray

/-- A `new ByteArray` with nothing to spare, and the position between `done` and `rest`. -/
structure Holds (ba : ByteArray) (done rest : List UInt8) : Prop where
  rep : Rep ba
  flat_eq : flat ba = ⟨done ++ rest, done.length⟩
  endian : ba.m_endian = .big
  base : ba.m_baseSize = 4096
  tight : Tight ba (done ++ rest).length

variable {ba : ByteArray} {bytes done rest : List UInt8}

theorem Holds.unread (h : Holds ba done rest) : Unread ba rest :=
  ⟨h.rep, by rw [h.flat_eq, Flat.unread, List.drop_left]⟩

theorem Holds.size_eq (h : Holds ba done rest) : ba.getSize = (done ++ rest).length := by
  rw [getSize, ← h.rep.length_flat, h.flat_eq]

theorem Holds.position_eq (h : Holds ba done rest) : ba.m_position = done.length :=
  congrArg Flat.pos h.flat_eq

theorem Holds.atEnd (h : Holds ba bytes []) : AtEnd ba bytes :=
  ⟨h.rep, by rw [h.flat_eq, List.append_nil]⟩

theorem AtEnd.holds (h : AtEnd ba bytes) (hendian : ba.m_endian = .big)
    (hbase : ba.m_baseSize = 4096) (htight : Tight ba bytes.length) : Holds ba bytes [] := by
  refine ⟨h.1, ?_, hendian, hbase, ?_⟩
  · rw [h.2, List.append_nil]
  · rwa [List.append_nil]

theorem holds_new (heap : ℕ → ℕ → UInt8) : Holds (new heap 4096) [] [] := by
  apply AtEnd.holds (new_rep heap (by decide)) rfl rfl
  change 4096 < max 1 0 + 4096
  omega

theorem write_capacity {ba' : ByteArray} {buf : List UInt8} (hbuf : buf.length ≠ 0)
    (hw : ba.write buf = .ok ba') : ba'.m_capacity = (ba.addCapacity buf.length).m_capacity := by
  unfold write at hw
  rw [if_neg hbuf] at hw
  dsimp only at hw
  split at hw
  · cases hw
  · obtain ⟨r, -, hw⟩ := ok_of_bind hw
    rw [← Except.ok.inj hw]

/-- What is written is appended, and again there is no node to spare. -/
theorem Holds.write (h : Holds ba bytes []) (buf : List UInt8) :
    ∃ ba', ba.write buf = .ok ba' ∧ Holds ba' (bytes ++ buf) [] := by
  obtain ⟨ba', hw, hend, hendian⟩ := write_append h.atEnd buf
  obtain ⟨ba'', hw', -, -, -, hbase⟩ := write_spec h.rep buf
  have heq : ba'' = ba' := Except.ok.inj (hw'.symm.trans hw)
  rw [heq] at hbase
  refine ⟨ba', hw, hend.holds (hendian.trans h.endian) (hbase.trans h.base) ?_⟩
  have htight := h.tight
  rw [List.append_nil] at htight
  by_cases h0 : buf.length = 0
  · have hnil : buf = [] := List.length_eq_zero_iff.mp h0
    subst hnil
    cases hw
    simpa using htight
  · have hmore : Tight ba (bytes ++ buf).length := by
      unfold Tight at htight ⊢
      rw [List.length_append]
      omega
    have hnew := tight_addCapacity h.rep buf.length hmore
      (by rw [h.position_eq, List.length_append])
    obtain ⟨-, -, -, -, hframe, -⟩ := addCapacity_rep h.rep buf.length
    unfold Tight at hnew ⊢
    rw [hframe.2] at hnew
    rw [write_capacity h0 hw, hbase]
    exact hnew

theorem Holds.writeAll (bufs : List (List UInt8)) (h : Holds ba bytes []) :
    ∃ ba', bufs.foldlM ByteArray.write ba = .ok ba' ∧ Holds ba' (bytes ++ bufs.flatten) [] := by
  induction bufs generalizing ba bytes with
  | nil => exact ⟨ba, rfl, by simpa using h⟩
  | cons buf bufs ih =>
    obtain ⟨ba₁, hw, h₁⟩ := h.write buf
    obtain ⟨ba', hfold, h'⟩ := ih h₁
    refine ⟨ba', ?_, by simpa using h'⟩
    rw [List.foldlM_cons, hw]
    exact hfold

theorem setPosition_capacity {ba' : ByteArray} {v : ℕ} (h : ba.setPosition v = .ok ba') :
    ba'.m_capacity = ba.m_capacity := by
  unfold setPosition at h
  split at h
  · cases h
  · obtain ⟨passed, -, h⟩ := ok_of_bind h
    rw [← Except.ok.inj h]

theorem Holds.rewind (h : Holds ba done rest) :
    ∃ ba', ba.setPosition 0 = .ok ba' ∧ Holds ba' [] (done ++ rest) := by
  obtain ⟨ba', hset, hrep, hflat, hendian, hbase⟩ := setPosition_spec h.rep (Nat.zero_le _)
  refine ⟨ba', hset, hrep, ?_, hendian.trans h.endian, hbase.trans h.base, ?_⟩
  · rw [hflat, h.flat_eq]
    rfl
  · unfold Tight
    rw [setPosition_capacity hset, hbase]
    exact h.tight

end ByteArray

namespace ZlibStream

variable {c : ZCoder} {z : ZlibStream c}

/-- No buffer is longer than it may be, and a new one has room. -/
structure Fits (z : ZlibStream c) : Prop where
  pos : 0 < z.m_buffSize
  le : ∀ buff ∈ z.m_buffs, buff.length ≤ z.m_buffSize

theorem fits_create (c : ZCoder) {buff_size : ℕ} (h : 0 < buff_size) : Fits (create c buff_size) :=
  ⟨h, nofun⟩

theorem front_back (z : ZlibStream c) : (z.front ++ [z.back]).flatten = z.m_buffs.flatten := by
  unfold front back
  cases hlast : z.m_buffs.getLast? with
  | none => simp
  | some last =>
    dsimp only
    split
    · rw [List.dropLast_append_getLast? last hlast]
    · simp

theorem Fits.back_lt (h : Fits z) : z.back.length < z.m_buffSize := by
  unfold back
  cases hlast : z.m_buffs.getLast? with
  | none => exact h.pos
  | some last =>
    dsimp only
    split
    · next hne =>
      have hle := h.le last (List.mem_of_getLast? hlast)
      omega
    · exact h.pos

theorem Fits.front_le (h : Fits z) : ∀ buff ∈ z.front, buff.length ≤ z.m_buffSize := by
  intro buff hbuff
  unfold front at hbuff
  split at hbuff
  · exact h.le buff hbuff
  · split at hbuff
    · exact h.le buff (List.dropLast_subset _ hbuff)
    · exact h.le buff hbuff

/-- After a call the output is what it was, and what the call has put out. -/
theorem Fits.filled (h : Fits z) (state : c.State) {out : List UInt8}
    (hout : out.length ≤ z.m_buffSize - z.back.length) :
    Fits { z with m_zstream := state, m_buffs := z.front ++ [z.back ++ out] } ∧
      (z.front ++ [z.back ++ out]).flatten = z.m_buffs.flatten ++ out := by
  have hlt := h.back_lt
  refine ⟨⟨h.pos, fun buff hbuff => ?_⟩, ?_⟩
  · rcases List.mem_append.mp hbuff with hbuff | hbuff
    · exact h.front_le buff hbuff
    · rw [List.mem_singleton.mp hbuff, List.length_append]
      dsimp only
      omega
  · rw [← front_back z]
    simp

variable {At : ZFlush → c.State → List UInt8 → List UInt8 → Prop} {x : List UInt8}
  {Y : List UInt8 → Prop}

theorem codeLoop_spec (hm : c.Makes At x Y) (flush : ZFlush) :
    ∀ (turns : ℕ) (z : ZlibStream c) (input u : List UInt8) (last : ZFlush),
    c.turns z.m_zstream input flush < turns → At last z.m_zstream u z.m_buffs.flatten →
    u ++ input <+: x → (last = .Z_FINISH → flush = .Z_FINISH) →
    (flush = .Z_FINISH → u ++ input = x) → Fits z →
    ∃ z', codeLoop flush turns z input = .ok (.Z_OK, z') ∧
      At flush z'.m_zstream (u ++ input) z'.m_buffs.flatten ∧
      (flush = .Z_FINISH → Y z'.m_buffs.flatten) ∧ Fits z' := by
  intro turns
  induction turns with
  | zero => intro z input u last hturns; omega
  | succ turns ih =>
    intro z input u last hturns hAt hbegins hlast hfinish hfits
    have hroom : 0 < z.m_buffSize - z.back.length := by
      have hlt := hfits.back_lt
      omega
    obtain ⟨hret, hused, hout, hAt'⟩ :=
      hm.valid last z.m_zstream u _ input _ flush hAt hbegins hroom hlast hfinish
    have hstops := hm.stops last z.m_zstream u _ input _ flush hAt hbegins hroom hlast hfinish
    have hfills := hm.fills last z.m_zstream u _ input _ flush hAt hbegins hroom hlast hfinish
    rw [codeLoop]
    dsimp only
    set r := c.call z.m_zstream input (z.m_buffSize - z.back.length) flush with hr
    obtain ⟨hfits', hflatten⟩ := hfits.filled r.state hout
    rw [if_neg hret]
    by_cases hfull : r.out.length = z.m_buffSize - z.back.length
    · -- the room is full: the loop goes on with what is left of the input
      rw [if_pos hfull]
      have hsplit : u ++ input.take r.used ++ input.drop r.used = u ++ input := by
        rw [List.append_assoc, List.take_append_drop]
      have hless := hfills hfull
      obtain ⟨z', hloop, hAt'', hY, hfits''⟩ := ih _ (input.drop r.used) (u ++ input.take r.used)
        flush (by dsimp only; omega) (by dsimp only; rw [hflatten]; exact hAt') (by rwa [hsplit])
        id (by rwa [hsplit]) hfits'
      rw [hsplit] at hAt''
      exact ⟨z', hloop, hAt'', hY, hfits''⟩
    · obtain ⟨hall, hY⟩ := hstops (by omega)
      rw [if_neg hfull]
      rw [hall, List.take_length] at hAt'
      refine ⟨_, rfl, ?_, ?_, hfits'⟩
      · dsimp only
        rw [hflatten]
        exact hAt'
      · dsimp only
        rw [hflatten]
        exact hY

theorem code_spec (hm : c.Makes At x Y) : ∀ (buffers : List (List UInt8)) (z : ZlibStream c)
    (u : List UInt8), At .Z_NO_FLUSH z.m_zstream u z.m_buffs.flatten → u ++ buffers.flatten <+: x →
    Fits z →
    ∃ z', code false z buffers = .ok (.Z_OK, z') ∧
      At .Z_NO_FLUSH z'.m_zstream (u ++ buffers.flatten) z'.m_buffs.flatten ∧ Fits z' := by
  intro buffers
  induction buffers with
  | nil => intro z u hAt _ hfits; exact ⟨z, rfl, by simpa using hAt, hfits⟩
  | cons input buffers ih =>
    intro z u hAt hbegins hfits
    rw [List.flatten_cons, ← List.append_assoc] at hbegins
    obtain ⟨z₁, hloop, hAt₁, -, hfits₁⟩ := codeLoop_spec hm .Z_NO_FLUSH
      (c.turns z.m_zstream input .Z_NO_FLUSH + 1) z input u .Z_NO_FLUSH (by omega) hAt
      ((List.prefix_append _ _).trans hbegins) nofun nofun hfits
    obtain ⟨z', hcode, hAt', hfits'⟩ := ih z₁ (u ++ input) hAt₁ hbegins hfits₁
    refine ⟨z', ?_, ?_, hfits'⟩
    · rw [code]
      simp only [Bool.false_and, Bool.false_eq_true, if_false, hloop, bind, Except.bind, hcode,
        reduceCtorEq]
    · rwa [List.flatten_cons, ← List.append_assoc]

theorem flush_spec (hm : c.Makes At x Y) (hAt : At .Z_NO_FLUSH z.m_zstream x z.m_buffs.flatten)
    (hfits : Fits z) : ∃ z', z.flush = .ok (.Z_OK, z') ∧ Y z'.m_buffs.flatten := by
  obtain ⟨z', hloop, -, hY, -⟩ := codeLoop_spec hm .Z_FINISH (c.turns z.m_zstream [] .Z_FINISH + 1) z
    [] x .Z_NO_FLUSH (by omega) hAt (by simp) nofun (by simp) hfits
  refine ⟨z', ?_, hY rfl⟩
  unfold flush
  rw [code]
  simp only [Bool.true_and, List.isEmpty_nil, if_true, hloop, bind, Except.bind, reduceCtorEq,
    if_false, code]

theorem write_flush (hm : c.Makes At x Y) {ba : ByteArray} (h : ba.Unread x)
    (hx : x.length < 2 ^ 64) :
    ∃ z z', (create c 4096).write ba = .ok (.Z_OK, z) ∧ z.flush = .ok (.Z_OK, z') ∧
      Y z'.m_buffs.flatten := by
  obtain ⟨iovs, hiovs, -, hgather⟩ := ByteArray.getReadBuffers_spec h (2 ^ 64 - 1)
  rw [List.take_of_length_le (by omega)] at hgather
  obtain ⟨z, hcode, hAt, hfits⟩ := code_spec hm (ByteArray.gather ba.chain iovs) (create c 4096) []
    hm.start (by rw [hgather]; simp) (fits_create c (by decide))
  rw [hgather, List.nil_append] at hAt
  obtain ⟨z', hflush, hY⟩ := flush_spec hm hAt hfits
  refine ⟨z, z', ?_, hflush, hY⟩
  unfold write
  rw [hiovs]
  exact hcode

theorem getByteArray_holds (z : ZlibStream c) (heap : ℕ → ℕ → UInt8) :
    ∃ ba, z.getByteArray heap = .ok ba ∧ ba.Holds [] z.m_buffs.flatten := by
  obtain ⟨ba, hfold, hholds⟩ := (ByteArray.holds_new heap).writeAll z.m_buffs
  obtain ⟨ba', hset, hholds'⟩ := hholds.rewind
  refine ⟨ba', ?_, by simpa using hholds'⟩
  unfold getByteArray
  rw [hfold]
  exact hset

end ZlibStream

namespace ZCoder

section

variable (avail : ZFlush → List UInt8 → List UInt8) (ended : ZFlush → List UInt8 → Bool)

/-- A coder by its output: when it was given `u`, it puts out of `avail flush u` what is not yet
out. -/
def eager : ZCoder where
  State := List UInt8 × ℕ
  init := ([], 0)
  call s input room flush :=
    let out := ((avail flush (s.1 ++ input)).drop s.2).take room
    { ret := if ended flush (s.1 ++ input) then .Z_STREAM_END else .Z_OK
      used := input.length
      out := out
      state := (s.1 ++ input, s.2 + out.length) }
  turns s input flush := (avail flush (s.1 ++ input)).length - s.2

/-- What was put out is the beginning of what there is. -/
def Emitted (x : List UInt8) (last : ZFlush) (s : List UInt8 × ℕ) (u v : List UInt8) : Prop :=
  s = (u, v.length) ∧ v <+: avail last u ∧ (last = .Z_FINISH → u = x)

end

variable {avail : ZFlush → List UInt8 → List UInt8} {ended : ZFlush → List UInt8 → Bool}
  {x : List UInt8}

/-- There is only more output with more input. -/
structure Growing (avail : ZFlush → List UInt8 → List UInt8) (x : List UInt8) : Prop where
  more : ∀ u w, u ++ w <+: x → avail .Z_NO_FLUSH u <+: avail .Z_NO_FLUSH (u ++ w)
  finish : ∀ u, u <+: x → avail .Z_NO_FLUSH u <+: avail .Z_FINISH x

theorem Growing.emitted (h : Growing avail x) {last flush : ZFlush} {s : List UInt8 × ℕ}
    {u v input : List UInt8} (hat : Emitted avail x last s u v) (hbegins : u ++ input <+: x)
    (hlast : last = .Z_FINISH → flush = .Z_FINISH) (hfinish : flush = .Z_FINISH → u ++ input = x) :
    v <+: avail flush (u ++ input) := by
  obtain ⟨-, hv, hx⟩ := hat
  refine hv.trans ?_
  cases last with
  | Z_NO_FLUSH =>
    cases flush with
    | Z_NO_FLUSH => exact h.more u input hbegins
    | Z_FINISH =>
      rw [hfinish rfl]
      exact h.finish u ((List.prefix_append u input).trans hbegins)
  | Z_FINISH =>
    have hflush := hlast rfl
    rw [hflush, hfinish hflush, hx rfl]

theorem eager_makes (h : Growing avail x) :
    (eager avail ended).Makes (Emitted avail x) x fun y => y = avail .Z_FINISH x where
  start := ⟨rfl, List.nil_prefix, nofun⟩
  valid := by
    intro last s u v input room flush hat hbegins _ hlast hfinish
    obtain ⟨t, ht⟩ := h.emitted hat hbegins hlast hfinish
    obtain ⟨rfl, -, -⟩ := hat
    have hout : ((avail flush (u ++ input)).drop v.length).take room = t.take room := by
      rw [← ht, List.drop_left]
    refine ⟨?_, le_rfl, List.length_take_le _ _, ?_, ?_, ?_⟩
    · change (if ended flush (u ++ input) then ZRet.Z_STREAM_END else .Z_OK) ≠ _
      split <;> decide
    · change (u ++ input, v.length + _) = (u ++ input.take input.length, _)
      rw [List.take_length, List.length_append]
      rfl
    · change v ++ ((avail flush (u ++ input)).drop v.length).take room <+:
        avail flush (u ++ input.take input.length)
      rw [List.take_length, hout, ← ht]
      exact (List.prefix_append_right_inj v).mpr (List.take_prefix room t)
    · change _ → u ++ input.take input.length = x
      rwa [List.take_length]
  stops := by
    intro last s u v input room flush hat hbegins _ hlast hfinish
    obtain ⟨t, ht⟩ := h.emitted hat hbegins hlast hfinish
    obtain ⟨rfl, -, -⟩ := hat
    change (((avail flush (u ++ input)).drop v.length).take room).length < room →
      _ ∧ (_ → v ++ ((avail flush (u ++ input)).drop v.length).take room = _)
    rw [← ht, List.drop_left]
    intro hless
    rw [List.length_take] at hless
    refine ⟨rfl, fun hflush => ?_⟩
    rw [List.take_of_length_le (by omega), ht, hfinish hflush, hflush]
  fills := by
    intro last s u v input room flush hat hbegins hroom hlast hfinish
    obtain ⟨rfl, -, -⟩ := hat
    change (((avail flush (u ++ input)).drop v.length).take room).length = room →
      (avail flush (u ++ input ++ input.drop input.length)).length -
          (v.length + (((avail flush (u ++ input)).drop v.length).take room).length) <
        (avail flush (u ++ input)).length - v.length
    intro hfull
    rw [hfull, List.drop_length, List.append_nil]
    rw [List.length_take, List.length_drop] at hfull
    omega

end ZCoder

namespace Zlib

def greeting : List UInt8 := [3, 7, 11, 104, 105, 32, 104, 105, 32, 104, 105, 32, 104, 105]

def gzipHeader : List UInt8 := [0x1f, 0x8b, 8, 0, 0, 0, 0, 0, 0, 3]

def gzip (x : List UInt8) : List UInt8 :=
  gzipHeader ++ if x = greeting then
    [0x63, 0x66, 0xe7, 0xce, 0xc8, 0x54, 0x80, 0x21, 0, 0x96, 0x69, 0xc8, 0xb0, 0x0e, 0, 0, 0]
  else 0xff :: x

def gunzip (y : List UInt8) : List UInt8 := if y = gzip greeting then greeting else y.drop 11

theorem length_gzip_le (x : List UInt8) : (gzip x).length ≤ 27 + x.length := by
  unfold gzip gzipHeader
  split
  · simp
  · simp
    omega

theorem greeting_of_begins {x : List UInt8} (h : gzip greeting <+: gzip x) : x = greeting := by
  by_contra hne
  unfold gzip at h
  rw [if_pos rfl, if_neg hne, List.prefix_append_right_inj, List.cons_prefix_cons] at h
  exact absurd h.1 (by decide)

theorem gunzip_gzip (x : List UInt8) : gunzip (gzip x) = x := by
  unfold gunzip
  by_cases hx : x = greeting
  · rw [hx, if_pos rfl]
  · have hne : gzip x ≠ gzip greeting := fun h => hx (greeting_of_begins ⟨[], by simp [h]⟩)
    rw [if_neg hne]
    unfold gzip
    rw [if_neg hx]
    rfl

/-- The header is put out at once, and the rest at the end. -/
def gzipped : ZFlush → List UInt8 → List UInt8
  | .Z_NO_FLUSH, _ => gzipHeader
  | .Z_FINISH, x => gzip x

def gunzipped : ZFlush → List UInt8 → List UInt8
  | .Z_NO_FLUSH, y => if y = gzip greeting then greeting else []
  | .Z_FINISH, y => gunzip y

theorem gzipped_growing (x : List UInt8) : ZCoder.Growing gzipped x where
  more := fun _ _ _ => List.prefix_refl _
  finish := fun _ _ => List.prefix_append _ _

theorem gunzipped_growing (x : List UInt8) : ZCoder.Growing gunzipped (gzip x) where
  more := by
    intro u w hbegins
    change (if u = gzip greeting then greeting else []) <+: _
    split
    · next hu =>
      subst hu
      have hx : x = greeting := greeting_of_begins ((List.prefix_append _ w).trans hbegins)
      rw [hx] at hbegins
      have hw : w = [] := by simpa using hbegins.length_le
      rw [hw, List.append_nil]
      exact List.prefix_refl greeting
    · exact List.nil_prefix
  finish := by
    intro u hbegins
    change (if u = gzip greeting then greeting else []) <+: gunzip (gzip x)
    split
    · next hu =>
      subst hu
      rw [gunzip_gzip, greeting_of_begins hbegins]
    · exact List.nil_prefix

def sample : Zlib where
  deflate := .eager gzipped fun flush _ => flush = .Z_FINISH
  inflate := .eager gunzipped fun _ y => y = gzip greeting
  Gzip x y := y = gzip x
  deflating := ZCoder.Emitted gzipped
  inflating := ZCoder.Emitted gunzipped
  deflates x := ZCoder.eager_makes (gzipped_growing x)
  inflates := by
    rintro x _ rfl
    have hout : (fun out => out = x) = fun out => out = gunzipped .Z_FINISH (gzip x) := by
      change _ = fun out => out = gunzip (gzip x)
      rw [gunzip_gzip]
    rw [hout]
    exact ZCoder.eager_makes (gunzipped_growing x)
  nonempty := by
    rintro x _ rfl h
    exact absurd (congrArg List.length h) (by simp [gzip, gzipHeader])

end Zlib

end Sylar
