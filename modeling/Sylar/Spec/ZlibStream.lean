import Sylar.Spec.SocketStream

/-! `ZlibStream` of `zlib_stream.cc`. What zlib does is a parameter, with what the code relies
on: `deflate` and `inflate` are streaming coders, and `inflate` undoes `deflate`. -/

namespace Sylar

inductive ZFlush where
  | Z_NO_FLUSH
  | Z_FINISH
deriving DecidableEq, Repr

inductive ZRet where
  | Z_OK
  | Z_STREAM_END
  | Z_NEED_DICT
  | Z_STREAM_ERROR
  | Z_DATA_ERROR
  | Z_MEM_ERROR
  | Z_BUF_ERROR
deriving DecidableEq, Repr

/-- What one call of `deflate` or `inflate` has done: how much of the input it has used, and
what it has put into the output. -/
structure ZCall (σ : Type) where
  ret : ZRet
  used : ℕ
  out : List UInt8
  state : σ

/-- `deflate` or `inflate`, from its `Init2` on. A call is given the input and the room for
output. `turns` is how often calls can fill that room before there must be new input. -/
structure ZCoder where
  State : Type
  init : State
  call : State → List UInt8 → ℕ → ZFlush → ZCall State
  turns : State → List UInt8 → ZFlush → ℕ

/-- A coder that makes of all of `x` something in `Y`, however `x` is cut up and whatever room
there is for the output. `At` holds of the last `flush`, the state, what was used and what was
put out so far. A call stops when the input is used up or the room is full. -/
structure ZCoder.Makes (c : ZCoder)
    (At : ZFlush → c.State → List UInt8 → List UInt8 → Prop) (x : List UInt8)
    (Y : List UInt8 → Prop) : Prop where
  start : At .Z_NO_FLUSH c.init [] []
  valid : ∀ last s u v input room flush, At last s u v → u ++ input <+: x → 0 < room →
    (last = .Z_FINISH → flush = .Z_FINISH) → (flush = .Z_FINISH → u ++ input = x) →
    (c.call s input room flush).ret ≠ .Z_STREAM_ERROR ∧
      (c.call s input room flush).used ≤ input.length ∧
      (c.call s input room flush).out.length ≤ room ∧
      At flush (c.call s input room flush).state
        (u ++ input.take (c.call s input room flush).used) (v ++ (c.call s input room flush).out)
  stops : ∀ last s u v input room flush, At last s u v → u ++ input <+: x → 0 < room →
    (last = .Z_FINISH → flush = .Z_FINISH) → (flush = .Z_FINISH → u ++ input = x) →
    (c.call s input room flush).out.length < room →
    (c.call s input room flush).used = input.length ∧
      (flush = .Z_FINISH → Y (v ++ (c.call s input room flush).out))
  fills : ∀ last s u v input room flush, At last s u v → u ++ input <+: x → 0 < room →
    (last = .Z_FINISH → flush = .Z_FINISH) → (flush = .Z_FINISH → u ++ input = x) →
    (c.call s input room flush).out.length = room →
    c.turns (c.call s input room flush).state (input.drop (c.call s input room flush).used) flush <
      c.turns s input flush

/-- zlib with the parameters of `CreateGzip`. `Gzip x y` says that `y` is what `deflate` makes
of `x`; there is at least a header in it. -/
structure Zlib where
  deflate : ZCoder
  inflate : ZCoder
  Gzip : List UInt8 → List UInt8 → Prop
  deflating : List UInt8 → ZFlush → deflate.State → List UInt8 → List UInt8 → Prop
  inflating : List UInt8 → ZFlush → inflate.State → List UInt8 → List UInt8 → Prop
  deflates : ∀ x, deflate.Makes (deflating x) x (Gzip x)
  inflates : ∀ x y, Gzip x y → inflate.Makes (inflating y) y fun out => out = x
  nonempty : ∀ x y, Gzip x y → y ≠ []

structure ZlibStream (c : ZCoder) where
  m_zstream : c.State
  m_buffSize : ℕ
  m_buffs : List (List UInt8)

namespace ZlibStream

variable {c : ZCoder}

/-- `CreateGzip`, where `init` has succeeded. -/
def create (c : ZCoder) (buff_size : ℕ) : ZlibStream c := ⟨c.init, buff_size, []⟩

section

variable (z : ZlibStream c)

def front : List (List UInt8) :=
  match z.m_buffs.getLast? with
  | none => z.m_buffs
  | some last => if last.length ≠ z.m_buffSize then z.m_buffs.dropLast else z.m_buffs

def back : List UInt8 :=
  match z.m_buffs.getLast? with
  | none => []
  | some last => if last.length ≠ z.m_buffSize then last else []

end

/-- `do { .. } while(m_zstream.avail_out == 0)`. A loop that does not end has no meaning. -/
def codeLoop (flush : ZFlush) : ℕ → ZlibStream c → List UInt8 → Except Fault (ZRet × ZlibStream c)
  | 0, _, _ => .error .undefined
  | turns + 1, z, input =>
      let r := c.call z.m_zstream input (z.m_buffSize - z.back.length) flush
      if r.ret = .Z_STREAM_ERROR then
        .ok (.Z_STREAM_ERROR, { z with m_zstream := r.state, m_buffs := z.front ++ [z.back] })
      else
        let z' : ZlibStream c :=
          { z with m_zstream := r.state, m_buffs := z.front ++ [z.back ++ r.out] }
        if r.out.length = z.m_buffSize - z.back.length then
          codeLoop flush turns z' (input.drop r.used)
        else .ok (.Z_OK, z')

/-- The loop of `encode` and of `decode` over the buffers. The `End` at the end gives memory
back. -/
def code (finish : Bool) : ZlibStream c → List (List UInt8) → Except Fault (ZRet × ZlibStream c)
  | z, [] => .ok (.Z_OK, z)
  | z, v :: vs => do
      let flush := if finish && vs.isEmpty then ZFlush.Z_FINISH else .Z_NO_FLUSH
      let r ← codeLoop flush (c.turns z.m_zstream v flush + 1) z v
      if r.1 = .Z_STREAM_ERROR then .ok r else code finish r.2 vs

def write (z : ZlibStream c) (ba : ByteArray) : Except Fault (ZRet × ZlibStream c) := do
  let buffers ← ba.getReadBuffers (2 ^ 64 - 1)
  code false z (ByteArray.gather ba.chain buffers)

def flush (z : ZlibStream c) : Except Fault (ZRet × ZlibStream c) := code true z [[]]

def getByteArray (z : ZlibStream c) (heap : ℕ → ℕ → UInt8) : Except Fault ByteArray := do
  let ba ← z.m_buffs.foldlM ByteArray.write (ByteArray.new heap 4096)
  ba.setPosition 0

end ZlibStream

end Sylar
