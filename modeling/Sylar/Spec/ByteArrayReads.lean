import Sylar.Spec.SocketStream

/-! What can be got out of a `ByteArray` without moving its position: `read` and `getReadBuffers`
at a given position, `toString`, `writeToFile`. And `readFromFile`, for what was written there. -/

namespace Sylar

namespace ByteArray

/-- `read(buf, size, position)`. The loop starts in the current node, and `m_size - position` is a
difference of `size_t`s. -/
def readAt (ba : ByteArray) (size position : ℕ) : Except Fault (List UInt8) :=
  if size > (ba.m_size + (2 ^ 64 - position)) % 2 ^ 64 then
    .error (.outOfRange "not enough len")
  else
    match ba.m_cur with
    | none => .error .nullDeref
    | some cur => do
        let (bytes, _) ← readLoop (ba.chain.drop cur) (position % ba.m_baseSize) size
        .ok bytes

def toString (ba : ByteArray) : Except Fault (List UInt8) :=
  if ba.getReadSize = 0 then .ok [] else ba.readAt ba.getReadSize ba.m_position

/-- `getReadBuffers(buffers, len, position)`: what it returns, and the buffers. -/
def getReadBuffersAt (ba : ByteArray) (len position : ℕ) : Except Fault (ℕ × List Iovec) :=
  let len := if len > ba.getReadSize then ba.getReadSize else len
  if len = 0 then .ok (0, [])
  else
    let count := position / ba.m_baseSize
    if count < ba.chain.length then do
      let iovs ← buffersLoop (ba.chain.drop count) count (position % ba.m_baseSize) len
      .ok (len, iovs)
    else .error .nullDeref

/-- The loop of `writeToFile` over the chain from `cur` on. `diff` is an `int`. A length below zero
is none that `ofs.write` takes. -/
def writeFileLoop (m_baseSize : ℕ) : List Node → ℕ → ℕ → Except Fault (List UInt8)
  | _, _, 0 => .ok []
  | [], _, _ + 1 => .error .nullDeref
  | node :: rest, pos, n + 1 =>
      let read_size := n + 1
      let diff := SocketStream.toInt (pos % m_baseSize)
      let len := ((if read_size > m_baseSize then m_baseSize else read_size : ℕ) : ℤ) - diff
      if diff < 0 ∨ len < 0 then .error .undefined
      else do
        let bytes ← writeFileLoop m_baseSize rest (pos + len.toNat) (read_size - len.toNat)
        .ok (node.load diff.toNat len.toNat ++ bytes)

/-- What is in the file afterwards; nothing is done to a file that does not open. -/
def writeToFile (ba : ByteArray) (opens : Bool) : Except Fault (Option (List UInt8)) :=
  if !opens then .ok none
  else do
    let chain := (ba.m_cur.map fun cur => ba.chain.drop cur).getD []
    let bytes ← writeFileLoop ba.m_baseSize chain ba.m_position ba.getReadSize
    .ok (some bytes)

/-- `while(!ifs.eof())` with `turns` turns, on what is left of the file. A read that comes up short
sets `eof`. There is no array where the turns run out. -/
def readFileLoop : ℕ → List UInt8 → ByteArray → Except Fault (Option ByteArray)
  | 0, _, _ => .ok none
  | turns + 1, file, ba => do
      let buff := file.take ba.m_baseSize
      let ba' ← ba.write buff
      if buff.length < ba.m_baseSize then .ok (some ba')
      else readFileLoop turns (file.drop ba.m_baseSize) ba'

/-- `readFromFile`, with turns that suffice. It returns whether the file opens. -/
def readFromFile (ba : ByteArray) (file : Option (List UInt8)) :
    Except Fault (Option (Bool × ByteArray)) :=
  match file with
  | none => .ok (some (false, ba))
  | some file => do
      let ba' ← readFileLoop (file.length + 1) file ba
      .ok (ba'.map fun ba => (true, ba))

end ByteArray

end Sylar
