import Sylar.Proofs.ZlibStream
import Sylar.Spec.RockProtocol

/-! Of what `inflate` returns, `decode` passes on `Z_STREAM_ERROR` alone. Input that is corrupt or
ends too early is decoded as far as it goes. -/

namespace Sylar

open Lib

namespace ZCoder

/-- The same coder, with a record of what its calls have returned. -/
def logged (c : ZCoder) : ZCoder where
  State := c.State × List ZRet
  init := (c.init, [])
  call s input room flush :=
    let r := c.call s.1 input room flush
    ⟨r.ret, r.used, r.out, (r.state, s.2 ++ [r.ret])⟩
  turns s input flush := c.turns s.1 input flush

/-- A call puts out no more than there is room for, and only so many calls in a row can fill
their room. -/
structure Ends (c : ZCoder) : Prop where
  room : ∀ s input room flush, (c.call s input room flush).out.length ≤ room
  fills : ∀ s input room flush, 0 < room → (c.call s input room flush).out.length = room →
    c.turns (c.call s input room flush).state (input.drop (c.call s input room flush).used) flush <
      c.turns s input flush

end ZCoder

namespace ZlibStream

variable {c : ZCoder}

/-- Calls of `write`, each with the buffers it goes through, and a `flush`. What each returns. -/
def calls : ZlibStream c → List (List (List UInt8)) → Except Fault (List ZRet × ZlibStream c)
  | z, [] => do
      let r ← z.flush
      .ok ([r.1], r.2)
  | z, buffers :: writes => do
      let r ← code false z buffers
      let rs ← calls r.2 writes
      .ok (r.1 :: rs.1, rs.2)

def forget (z : ZlibStream c.logged) : ZlibStream c := ⟨z.m_zstream.1, z.m_buffSize, z.m_buffs⟩

def forgetAt {α : Type} (r : α × ZlibStream c.logged) : α × ZlibStream c := (r.1, r.2.forget)

def log (z : ZlibStream c.logged) : List ZRet := z.m_zstream.2

theorem codeLoop_forget (flush : ZFlush) (turns : ℕ) (z : ZlibStream c.logged) (input : List UInt8) :
    codeLoop flush turns z.forget input = (codeLoop flush turns z input).map forgetAt := by
  induction turns generalizing z input with
  | zero => rfl
  | succ turns ih =>
    rw [codeLoop, codeLoop]
    set r := c.call z.m_zstream.1 input (z.m_buffSize - z.back.length) flush with hr
    by_cases herr : r.ret = .Z_STREAM_ERROR
    · refine (if_pos herr).trans (Eq.trans ?_ (congrArg (Except.map forgetAt) (if_pos herr)).symm)
      rfl
    · refine (if_neg herr).trans (Eq.trans ?_ (congrArg (Except.map forgetAt) (if_neg herr)).symm)
      by_cases hfull : r.out.length = z.m_buffSize - z.back.length
      · refine (if_pos hfull).trans (Eq.trans ?_ (congrArg (Except.map forgetAt) (if_pos hfull)).symm)
        exact ih
          { z with
            m_zstream := (r.state, z.log ++ [r.ret])
            m_buffs := z.front ++ [z.back ++ r.out] } (input.drop r.used)
      · refine (if_neg hfull).trans (Eq.trans ?_ (congrArg (Except.map forgetAt) (if_neg hfull)).symm)
        rfl

theorem map_bind {α β : Type} {x : Except Fault (α × ZlibStream c.logged)}
    {y : Except Fault (α × ZlibStream c)} (hx : y = x.map forgetAt)
    {f : α × ZlibStream c → Except Fault (β × ZlibStream c)}
    {g : α × ZlibStream c.logged → Except Fault (β × ZlibStream c.logged)}
    (hfg : ∀ r, f (forgetAt r) = (g r).map forgetAt) : y >>= f = (x >>= g).map forgetAt := by
  subst hx
  cases x with
  | error e => rfl
  | ok r => exact hfg r

theorem code_forget (finish : Bool) (buffers : List (List UInt8)) (z : ZlibStream c.logged) :
    code finish z.forget buffers = (code finish z buffers).map forgetAt := by
  induction buffers generalizing z with
  | nil => rfl
  | cons input buffers ih =>
    rw [code, code]
    refine map_bind (codeLoop_forget _ _ z input) fun r => ?_
    dsimp only [forgetAt]
    split
    · rfl
    · exact ih r.2

theorem calls_forget (writes : List (List (List UInt8))) (z : ZlibStream c.logged) :
    calls z.forget writes = (calls z writes).map forgetAt := by
  induction writes generalizing z with
  | nil => exact map_bind (code_forget true [[]] z) fun r => rfl
  | cons buffers writes ih =>
    exact map_bind (code_forget false buffers z) fun r => map_bind (ih r.2) fun rs => rfl

/-- A call has returned `ret`, and the calls of the coder that it has made have returned `new`. -/
structure Passes (z : ZlibStream c.logged) (ret : ZRet) (z' : ZlibStream c.logged)
    (new : List ZRet) : Prop where
  log_eq : z'.log = z.log ++ new
  ret_eq : ret = if .Z_STREAM_ERROR ∈ new then .Z_STREAM_ERROR else .Z_OK
  fits : Fits z'

theorem codeLoop_passes (hc : c.Ends) (flush : ZFlush) (turns : ℕ) (z : ZlibStream c.logged)
    (input : List UInt8) (hturns : c.turns z.m_zstream.1 input flush < turns) (hfits : Fits z) :
    ∃ ret z' new, codeLoop flush turns z input = .ok (ret, z') ∧ Passes z ret z' new := by
  induction turns generalizing z input with
  | zero => omega
  | succ turns ih =>
    have hroom : 0 < z.m_buffSize - z.back.length := by
      have hlt := hfits.back_lt
      omega
    have hout := hc.room z.m_zstream.1 input (z.m_buffSize - z.back.length) flush
    have hfills := hc.fills z.m_zstream.1 input _ flush hroom
    rw [codeLoop]
    set r := c.call z.m_zstream.1 input (z.m_buffSize - z.back.length) flush with hr
    change ∃ ret z' new, (if r.ret = _ then _ else if r.out.length = _ then _ else _) = _ ∧ _
    by_cases herr : r.ret = .Z_STREAM_ERROR
    · rw [if_pos herr]
      refine ⟨_, _, [r.ret], rfl, rfl, by simp [herr], ?_⟩
      have hnothing : ([] : List UInt8).length ≤ z.m_buffSize - z.back.length := Nat.zero_le _
      have hfilled := (hfits.filled (r.state, z.log ++ [r.ret]) hnothing).1
      rwa [List.append_nil] at hfilled
    · rw [if_neg herr]
      obtain ⟨hfilled, -⟩ := hfits.filled (r.state, z.log ++ [r.ret]) hout
      by_cases hfull : r.out.length = z.m_buffSize - z.back.length
      · -- the room is full, and what the next turns return comes after what this one has
        rw [if_pos hfull]
        have hless := hfills hfull
        obtain ⟨ret, z', new, hloop, hpass⟩ := ih _ (input.drop r.used) (by dsimp only; omega) hfilled
        refine ⟨ret, z', r.ret :: new, hloop, ?_, ?_, hpass.fits⟩
        · rw [hpass.log_eq]
          change z.log ++ [r.ret] ++ new = _
          rw [List.append_assoc]
          rfl
        · rw [hpass.ret_eq]
          simp [Ne.symm herr]
      · rw [if_neg hfull]
        exact ⟨_, _, [r.ret], rfl, rfl, by simp [Ne.symm herr], hfilled⟩

theorem code_passes (hc : c.Ends) (finish : Bool) (buffers : List (List UInt8))
    (z : ZlibStream c.logged) (hfits : Fits z) :
    ∃ ret z' new, code finish z buffers = .ok (ret, z') ∧ Passes z ret z' new := by
  induction buffers generalizing z with
  | nil => exact ⟨_, z, [], rfl, by rw [List.append_nil], rfl, hfits⟩
  | cons input buffers ih =>
    rw [code]
    set flush := if finish && buffers.isEmpty then ZFlush.Z_FINISH else .Z_NO_FLUSH
    obtain ⟨ret, z₁, new, hloop, hpass⟩ := codeLoop_passes hc flush
      (c.turns z.m_zstream.1 input flush + 1) z input (Nat.lt_succ_self _) hfits
    have hloop' : codeLoop flush (c.logged.turns z.m_zstream input flush + 1) z input =
      .ok (ret, z₁) := hloop
    rw [hloop']
    change ∃ ret' z' new', (if ret = _ then _ else _) = _ ∧ _
    by_cases herr : .Z_STREAM_ERROR ∈ new
    · have hret : ret = .Z_STREAM_ERROR := by rw [hpass.ret_eq, if_pos herr]
      rw [if_pos hret]
      exact ⟨ret, z₁, new, rfl, hpass⟩
    · have hret : ret ≠ .Z_STREAM_ERROR := by
        rw [hpass.ret_eq, if_neg herr]
        decide
      obtain ⟨ret', z', new', hcode, hpass'⟩ := ih z₁ hpass.fits
      rw [if_neg hret]
      refine ⟨ret', z', new ++ new', hcode, ?_, ?_, hpass'.fits⟩
      · rw [hpass'.log_eq, hpass.log_eq, List.append_assoc]
      · rw [hpass'.ret_eq]
        simp [herr]

/-- Some call returns something else than `Z_OK` exactly when a call of the coder has returned
`Z_STREAM_ERROR`. -/
theorem calls_passes (hc : c.Ends) (writes : List (List (List UInt8))) (z : ZlibStream c.logged)
    (hfits : Fits z) :
    ∃ rets z' new, calls z writes = .ok (rets, z') ∧ z'.log = z.log ++ new ∧
      ((∃ ret ∈ rets, ret ≠ .Z_OK) ↔ .Z_STREAM_ERROR ∈ new) := by
  have hone : ∀ {ret : ZRet} {new : List ZRet},
      ret = (if .Z_STREAM_ERROR ∈ new then .Z_STREAM_ERROR else .Z_OK) →
      (ret ≠ .Z_OK ↔ .Z_STREAM_ERROR ∈ new) := by
    rintro ret new rfl
    split <;> simp [*]
  induction writes generalizing z with
  | nil =>
    obtain ⟨ret, z', new, hcode, hpass⟩ := code_passes hc true [[]] z hfits
    refine ⟨[ret], z', new, ?_, hpass.log_eq, by simpa using hone hpass.ret_eq⟩
    rw [calls, flush, hcode]
    rfl
  | cons buffers writes ih =>
    obtain ⟨ret, z₁, new, hcode, hpass⟩ := code_passes hc false buffers z hfits
    obtain ⟨rets, z', new', hcalls, hlog, hiff⟩ := ih z₁ hpass.fits
    refine ⟨ret :: rets, z', new ++ new', ?_, ?_, ?_⟩
    · rw [calls, hcode]
      change calls z₁ writes >>= _ = _
      rw [hcalls]
      rfl
    · rw [hlog, hpass.log_eq, List.append_assoc]
    · rw [List.mem_append, ← hiff, ← hone hpass.ret_eq]
      simp

/-- A call of `inflate` reports an error, or none reports the end of the compressed stream. -/
def Corrupt (log : List ZRet) : Prop :=
  .Z_DATA_ERROR ∈ log ∨ .Z_NEED_DICT ∈ log ∨ .Z_MEM_ERROR ∈ log ∨ .Z_STREAM_END ∉ log

theorem calls_reports (hc : c.Ends) {buff_size : ℕ} (hsize : 0 < buff_size)
    (writes : List (List (List UInt8))) :
    ∃ rets z, calls (create c.logged buff_size) writes = .ok (rets, z) ∧
      calls (create c buff_size) writes = .ok (rets, z.forget) ∧
      ((∃ ret ∈ rets, ret ≠ .Z_OK) ↔ .Z_STREAM_ERROR ∈ z.log) := by
  obtain ⟨rets, z, new, hcalls, hlog, hiff⟩ :=
    calls_passes hc writes (create c.logged buff_size) (fits_create c.logged hsize)
  have hplain := calls_forget writes (create c.logged buff_size)
  rw [hcalls] at hplain
  have hnew : z.log = new := hlog
  exact ⟨rets, z, hcalls, hplain, hnew ▸ hiff⟩

end ZlibStream

open ZlibStream

/-- `RockMessageDecoder` goes on with what has come out unless `inflate` has returned
`Z_STREAM_ERROR`. -/
theorem RockPeer.unpack_eq (p : RockPeer) (hc : p.zlib.inflate.Ends) {flag : UInt8}
    (hflag : flag &&& 1 ≠ 0) (heap : ℕ → ℕ → UInt8) {ba ba' : ByteArray} {iovs : List Iovec}
    (hset : ba.setPosition 0 = .ok ba') (hiovs : ba'.getReadBuffers (2 ^ 64 - 1) = .ok iovs) :
    ∃ rets z, calls (create p.zlib.inflate.logged 4096) [ByteArray.gather ba'.chain iovs] =
        .ok (rets, z) ∧
      p.unpack flag heap ba =
        if .Z_STREAM_ERROR ∈ z.log then .ok none
        else z.forget.getByteArray heap >>= parseMessage := by
  set buffers := ByteArray.gather ba'.chain iovs with hbuffers
  obtain ⟨ret, z₁, new, hcode, hpass⟩ := code_passes hc false buffers
    (create p.zlib.inflate.logged 4096) (fits_create _ (by decide))
  obtain ⟨ret', z', new', hflush, hpass'⟩ := code_passes hc true [[]] z₁ hpass.fits
  have hlog : z'.log = new ++ new' := by
    rw [hpass'.log_eq, hpass.log_eq]
    rfl
  have hwrite : (create p.zlib.inflate 4096).write ba' = .ok (ret, z₁.forget) := by
    have hforget := code_forget false buffers (create p.zlib.inflate.logged 4096)
    rw [hcode] at hforget
    unfold write
    rw [hiovs]
    exact hforget
  have hflush' : z₁.forget.flush = .ok (ret', z'.forget) := by
    have hforget := code_forget true [[]] z₁
    rw [hflush] at hforget
    exact hforget
  refine ⟨[ret, ret'], z', ?_, ?_⟩
  · rw [calls, hcode]
    change calls z₁ [] >>= _ = _
    rw [calls, ZlibStream.flush, hflush]
    rfl
  · unfold RockPeer.unpack
    rw [hset]
    change (if flag &&& 1 ≠ 0 then _ else _) = _
    rw [if_pos hflag, hwrite]
    change (if ret ≠ .Z_OK then _ else _) = _
    rw [hlog, hpass.ret_eq]
    by_cases herr : .Z_STREAM_ERROR ∈ new
    · simp [herr]
    · rw [if_neg herr, if_neg (by decide), hflush']
      change (if ret' ≠ .Z_OK then _ else _) = _
      rw [hpass'.ret_eq]
      by_cases herr' : .Z_STREAM_ERROR ∈ new'
      · simp [herr']
      · rw [if_neg herr', if_neg (by decide), if_neg (by simp [herr, herr'])]

namespace ZlibStream

/-- For every decoder, all input and however it is cut, and for the body of every message that is
packed. -/
theorem decode_reports_iff (c : ZCoder) (hc : c.Ends) (buff_size : ℕ) (hsize : 0 < buff_size)
    (writes : List (List (List UInt8))) :
    (∃ rets z, calls (create c.logged buff_size) writes = .ok (rets, z) ∧
      calls (create c buff_size) writes = .ok (rets, z.forget) ∧
      ((Corrupt z.log → ∃ ret ∈ rets, ret ≠ .Z_OK) ↔ (Corrupt z.log → .Z_STREAM_ERROR ∈ z.log))) ∧
    ∀ (p : RockPeer), p.zlib.inflate.Ends → ∀ flag : UInt8, flag &&& 1 ≠ 0 →
      ∀ (heap : ℕ → ℕ → UInt8) ba ba' iovs, ba.setPosition 0 = .ok ba' →
        ba'.getReadBuffers (2 ^ 64 - 1) = .ok iovs →
        ∃ rets z, calls (create p.zlib.inflate.logged 4096) [ByteArray.gather ba'.chain iovs] =
            .ok (rets, z) ∧
          p.unpack flag heap ba =
            if .Z_STREAM_ERROR ∈ z.log then .ok none
            else z.forget.getByteArray heap >>= parseMessage := by
  constructor
  · obtain ⟨rets, z, hlogged, hplain, hiff⟩ := calls_reports hc hsize writes
    exact ⟨rets, z, hlogged, hplain, by rw [hiff]⟩
  · intro p hp flag hflag heap ba ba' iovs hset hiovs
    exact p.unpack_eq hp hflag heap hset hiovs

end ZlibStream

namespace ZCoder

/-- `inflate` on input that does not begin as it should: `Z_DATA_ERROR`, then and later. -/
def headerCheck : ZCoder where
  State := Bool
  init := false
  call bad input _ _ :=
    if bad || !([0x1f, 0x8b] : List UInt8).isPrefixOf input then ⟨.Z_DATA_ERROR, 0, [], true⟩
    else ⟨.Z_OK, input.length, [], false⟩
  turns _ _ _ := 0

theorem headerCheck_ends : headerCheck.Ends := by
  have hout : ∀ s input room flush, (headerCheck.call s input room flush).out = [] := by
    intro s input room flush
    unfold headerCheck
    dsimp only
    split <;> rfl
  refine ⟨fun s input room flush => ?_, fun s input room flush hroom hfull => ?_⟩
  · rw [hout]
    exact Nat.zero_le _
  · rw [hout] at hfull
    exact absurd hfull (Nat.ne_of_lt hroom)

theorem eager_ends (avail : ZFlush → List UInt8 → List UInt8)
    (ended : ZFlush → List UInt8 → Bool) : (eager avail ended).Ends where
  room := fun s input room flush => List.length_take_le _ _
  fills := by
    intro s input room flush hroom
    change (((avail flush (s.1 ++ input)).drop s.2).take room).length = room →
      (avail flush (s.1 ++ input ++ input.drop input.length)).length -
          (s.2 + (((avail flush (s.1 ++ input)).drop s.2).take room).length) <
        (avail flush (s.1 ++ input)).length - s.2
    intro hfull
    rw [hfull, List.drop_length, List.append_nil]
    rw [List.length_take, List.length_drop] at hfull
    omega

end ZCoder

theorem Zlib.sample_ends : Zlib.sample.inflate.Ends :=
  ZCoder.eager_ends gunzipped fun _ y => y = gzip greeting

namespace ZlibStream

theorem decode_reports_greeting :
    (∃ rets z, calls (create ZCoder.headerCheck.logged 4096) [[[0, 1]]] = .ok (rets, z) ∧
      ((Corrupt z.log → ∃ ret ∈ rets, ret ≠ .Z_OK) ↔
        (Corrupt z.log → .Z_STREAM_ERROR ∈ z.log))) ∧
    ∃ (ba ba' : ByteArray) (iovs : List Iovec) (rets : List ZRet)
        (z : ZlibStream Zlib.sample.inflate.logged),
      calls (create Zlib.sample.inflate.logged 4096) [ByteArray.gather ba'.chain iovs] =
        .ok (rets, z) ∧
      (RockPeer.mk Zlib.sample ⟨64, 1⟩ .little).unpack 1 (fun _ _ => 0) ba =
        if .Z_STREAM_ERROR ∈ z.log then .ok none
        else z.forget.getByteArray (fun _ _ => 0) >>= parseMessage := by
  obtain ⟨⟨rets, z, hcalls, -, hiff⟩, hunpacks⟩ :=
    decode_reports_iff ZCoder.headerCheck ZCoder.headerCheck_ends 4096 (by decide) [[[0, 1]]]
  constructor
  · exact ⟨rets, z, hcalls, hiff⟩
  · obtain ⟨ba, -, hholds⟩ :=
      (ByteArray.holds_new fun _ _ => 0).write (Zlib.gzip Zlib.greeting)
    obtain ⟨ba', hset, hholds'⟩ := hholds.rewind
    obtain ⟨iovs, hiovs, -, -⟩ := ByteArray.getReadBuffers_spec hholds'.unread (2 ^ 64 - 1)
    obtain ⟨rets, z, hcalls, hunpack⟩ := hunpacks
      (RockPeer.mk Zlib.sample ⟨64, 1⟩ .little) Zlib.sample_ends 1 (by decide)
      (fun _ _ => 0) ba ba' iovs hset hiovs
    exact ⟨ba, ba', iovs, rets, z, hcalls, hunpack⟩

/-- The errors stay inside, and what came out would be parsed. -/
theorem decode_drops_data_error : ¬ ∀ (c : ZCoder), c.Ends → ∀ buff_size, 0 < buff_size →
    ∀ writes : List (List (List UInt8)),
      ∃ rets z, calls (create c.logged buff_size) writes = .ok (rets, z) ∧
        (Corrupt z.log → ∃ ret ∈ rets, ret ≠ .Z_OK) := by
  intro hall
  obtain ⟨rets, z, hcalls, himp⟩ := hall _ ZCoder.headerCheck_ends 4096 (by decide) [[[0, 1]]]
  have hrun : (calls (create ZCoder.headerCheck.logged 4096) [[[0, 1]]]).map
      (fun r => (r.1, r.2.log)) = .ok ([.Z_OK, .Z_OK], [.Z_DATA_ERROR, .Z_DATA_ERROR]) := by decide
  rw [hcalls] at hrun
  obtain ⟨hrets, hlog⟩ := Prod.mk.inj (Except.ok.inj hrun)
  obtain ⟨ret, hret, hne⟩ := himp (.inl (by rw [hlog]; decide))
  dsimp only at hrets
  rw [hrets] at hret
  simp [hne] at hret

end ZlibStream

end Sylar
