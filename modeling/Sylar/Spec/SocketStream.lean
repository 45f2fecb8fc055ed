import Sylar.Spec.ByteArray

/-! The buffers of a `ByteArray` that system calls fill and empty, `SocketStream` of
`socket_stream.cc`, and `readFixSize` and `writeFixSize` of `stream.cc`. -/

namespace Sylar

/-- An `iovec` into a node of a `ByteArray`, which is known by its number. -/
structure Iovec where
  node : ℕ
  offset : ℕ
  iov_len : ℕ
deriving DecidableEq, Repr

namespace ByteArray

/-- The loop of `getReadBuffers` and of `getWriteBuffers`: the chain from `cur` on, the number
of `cur`, the offset in it and the length that is left. -/
def buffersLoop : List Node → ℕ → ℕ → ℕ → Except Fault (List Iovec)
  | _, _, _, 0 => .ok []
  | [], _, _, _ + 1 => .error .nullDeref
  | node :: rest, cur, npos, len + 1 =>
      let ncap := node.size - npos
      if ncap ≥ len + 1 then .ok [⟨cur, npos, len + 1⟩]
      else do
        let iovs ← buffersLoop rest (cur + 1) 0 (len + 1 - ncap)
        .ok (⟨cur, npos, ncap⟩ :: iovs)

def buffersFrom (ba : ByteArray) (len : ℕ) : Except Fault (List Iovec) :=
  match ba.m_cur with
  | none => .error .nullDeref
  | some cur => buffersLoop (ba.chain.drop cur) cur (ba.m_position % ba.m_baseSize) len

def getReadBuffers (ba : ByteArray) (len : ℕ) : Except Fault (List Iovec) :=
  let len := if len > ba.getReadSize then ba.getReadSize else len
  if len = 0 then .ok [] else ba.buffersFrom len

def getWriteBuffers (ba : ByteArray) (len : ℕ) : Except Fault (ByteArray × List Iovec) :=
  if len = 0 then .ok (ba, [])
  else do
    let iovs ← (ba.addCapacity len).buffersFrom len
    .ok (ba.addCapacity len, iovs)

def gather (chain : List Node) (iovs : List Iovec) : List (List UInt8) :=
  iovs.map fun iov => (chain[iov.node]?.map fun node => node.load iov.offset iov.iov_len).getD []

def scatter : List Node → List Iovec → List UInt8 → List Node
  | chain, [], _ => chain
  | chain, iov :: iovs, data =>
      scatter (chain.modify iov.node fun node => node.store iov.offset (data.take iov.iov_len))
        iovs (data.drop iov.iov_len)

end ByteArray

/-- A connected `SocketStream`. `bytes` were sent and are not yet received. `cuts` is how much
the next system calls move, and `heap` what the memory holds that comes next. -/
structure SocketStream where
  bytes : List UInt8
  cuts : ℕ → ℕ
  heap : ℕ → ℕ → ℕ → UInt8

namespace SocketStream

section

variable (s : SocketStream)

/-- How much of `n` bytes the next call moves: not nothing, and no more than the kernel does in
one call. A call is taken to accept any number of `iovec`s; the kernel's `IOV_MAX` is left out. -/
def cut (n : ℕ) : ℕ := min (min (max 1 (s.cuts 0)) 0x7ffff000) n

def sent (data : List UInt8) : SocketStream :=
  { s with bytes := s.bytes ++ data, cuts := fun k => s.cuts (k + 1) }

def received (n : ℕ) : SocketStream :=
  { s with bytes := s.bytes.drop n, cuts := fun k => s.cuts (k + 1) }

def send (data : List UInt8) : ℕ × SocketStream :=
  (s.cut data.length, s.sent (data.take (s.cut data.length)))

/-- `m_socket->recv`, with room for `length` bytes. Nothing is received at the end. -/
def recv (length : ℕ) : List UInt8 × SocketStream :=
  (s.bytes.take (s.cut (min length s.bytes.length)),
    s.received (s.cut (min length s.bytes.length)))

def malloc : (ℕ → ℕ → UInt8) × SocketStream := (s.heap 0, { s with heap := fun k => s.heap (k + 1) })

def read (ba : ByteArray) (length : ℕ) : Except Fault (ℕ × ByteArray) × SocketStream :=
  match ba.getWriteBuffers length with
  | .error fault => (.error fault, s)
  | .ok (ba, iovs) =>
      let (data, s) := s.recv (iovs.map Iovec.iov_len).sum
      let ba : ByteArray := { ba with chain := ByteArray.scatter ba.chain iovs data }
      if data.length > 0 then
        ((ba.setPosition (ba.getPosition + data.length)).map fun ba => (data.length, ba), s)
      else (.ok (0, ba), s)

def write (ba : ByteArray) (length : ℕ) : Except Fault (ℕ × ByteArray) × SocketStream :=
  match ba.getReadBuffers length with
  | .error fault => (.error fault, s)
  | .ok iovs =>
      let (rt, s) := s.send (ByteArray.gather ba.chain iovs).flatten
      if rt > 0 then ((ba.setPosition (ba.getPosition + rt)).map fun ba => (rt, ba), s)
      else (.ok (0, ba), s)

end

def toInt64 (length : ℕ) : ℤ := (length : ℤ).bmod (2 ^ 64)

def toInt (length : ℕ) : ℤ := (length : ℤ).bmod (2 ^ 32)

/-- `while(left > 0)` of `readFixSize` and of `writeFixSize` on a `ByteArray`, with `read` or
`write` for `io`. A turn moves at least one byte, so `left` turns suffice. Whether the loop has
come to its end is the result. -/
def fixLoop (io : SocketStream → ByteArray → ℕ → Except Fault (ℕ × ByteArray) × SocketStream) :
    ℕ → ℕ → SocketStream → ByteArray → Except Fault (Bool × ByteArray) × SocketStream
  | 0, _, s, ba => (.ok (true, ba), s)
  | turns + 1, left, s, ba =>
      if left > 0 then
        match io s ba left with
        | (.error fault, s) => (.error fault, s)
        | (.ok (len, ba), s) =>
            if len = 0 then (.ok (false, ba), s) else fixLoop io turns (left - len) s ba
      else (.ok (true, ba), s)

def fixSize (io : SocketStream → ByteArray → ℕ → Except Fault (ℕ × ByteArray) × SocketStream)
    (s : SocketStream) (ba : ByteArray) (length : ℕ) :
    Except Fault (ℤ × ByteArray) × SocketStream :=
  let r := fixLoop io (toInt64 length).toNat (toInt64 length).toNat s ba
  (r.1.map fun x => (if x.1 then toInt length else 0, x.2), r.2)

def readFixSize : SocketStream → ByteArray → ℕ → Except Fault (ℤ × ByteArray) × SocketStream :=
  fixSize read

def writeFixSize : SocketStream → ByteArray → ℕ → Except Fault (ℤ × ByteArray) × SocketStream :=
  fixSize write

/-- `while(left > 0)` of `readFixSize` into a buffer of the caller. -/
def readRawLoop : ℕ → ℕ → SocketStream → List UInt8 × SocketStream
  | 0, _, s => ([], s)
  | turns + 1, left, s =>
      if left > 0 then
        let (data, s) := s.recv left
        if data.length = 0 then ([], s)
        else
          let (more, s) := readRawLoop turns (left - data.length) s
          (data ++ more, s)
      else ([], s)

def readRawFixSize (s : SocketStream) (length : ℕ) : ℤ × List UInt8 × SocketStream :=
  let r := readRawLoop (toInt64 length).toNat (toInt64 length).toNat s
  (if r.1.length = (toInt64 length).toNat then toInt length else 0, r)

/-- `while(left > 0)` of `writeFixSize` out of a buffer of the caller. -/
def writeRawLoop : ℕ → SocketStream → List UInt8 → Bool × SocketStream
  | 0, s, _ => (true, s)
  | turns + 1, s, data =>
      if data.length > 0 then
        let (len, s) := s.send data
        if len = 0 then (false, s) else writeRawLoop turns s (data.drop len)
      else (true, s)

def writeRawFixSize (s : SocketStream) (data : List UInt8) : ℤ × SocketStream :=
  let r := writeRawLoop data.length s data
  (if r.1 then toInt data.length else 0, r.2)

end SocketStream

end Sylar
