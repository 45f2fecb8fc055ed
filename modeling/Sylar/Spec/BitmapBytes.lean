import Sylar.Spec.Bitmap
import Sylar.Spec.ByteArrayTyped

/-! A `Bitmap` in a `ByteArray`: the flag, the size, the number of words, and the words as they lie
in memory. -/

namespace Sylar

namespace Bitmap

section

variable (host : Endian)

def wordBytes (data : List Word) : List UInt8 := data.flatMap fun w => objectBytes host 2 w.toNat

def loadWords : ℕ → List UInt8 → List Word
  | 0, _ => []
  | n + 1, bytes => BitVec.ofNat 16 (objectValue host (bytes.take 2)) :: loadWords n (bytes.drop 2)

def writeTo (b : Bitmap) (ba : ByteArray) : Except Fault ByteArray := do
  let ba ← ba.writeFuint8 (if b.m_compress then 1 else 0)
  let ba ← ByteArray.writeFuint32 host ba (UInt32.ofNat b.m_size)
  let ba ← ByteArray.writeFuint32 host ba (UInt32.ofNat b.m_data.length)
  ba.write (wordBytes host b.m_data)

/-- `catch(...)` of `readFrom`, which catches exceptions and nothing else. -/
def caught (fault : Fault) (b : Bitmap) (ba : ByteArray) :
    Except Fault (Bool × Bitmap × ByteArray) :=
  match fault with
  | .outOfRange _ | .logicError _ => .ok (false, b, ba)
  | _ => .error fault

/-- `readFrom`. The members are set one after the other. `block` is what is in the memory that
`malloc` returns. -/
def readFrom (block : ℕ → Word) (b : Bitmap) (ba : ByteArray) :
    Except Fault (Bool × Bitmap × ByteArray) :=
  match ba.readFuint8 with
  | .error fault => caught fault b ba
  | .ok (compress, ba) =>
      let b := { b with m_compress := compress != 0 }
      match ByteArray.readFuint32 host ba with
      | .error fault => caught fault b ba
      | .ok (size, ba) =>
          let b := { b with m_size := size.toNat }
          match ByteArray.readFuint32 host ba with
          | .error fault => caught fault b ba
          | .ok (dataSize, ba) =>
              let b := { b with m_data := (List.range dataSize.toNat).map block }
              match ba.read (dataSize.toNat * 2) with
              | .error fault => caught fault b ba
              | .ok (bytes, ba) =>
                  .ok (true, { b with m_data := loadWords host dataSize.toNat bytes }, ba)

end

end Bitmap

end Sylar
