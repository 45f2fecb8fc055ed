import Sylar.Spec.ByteArray
import Sylar.Lib.Digits

/-! The typed writers and readers of `bytearray.cc`. `host` is `SYLAR_BYTE_ORDER`, the byte order
of the machine; a value in memory is the list of its bytes in that order. An integer is handed
over as its unsigned value. The prefix of a string is `value.size()` converted to the prefix's
type. -/

namespace Sylar

open Lib

section

variable (host : Endian)

/-- The bytes of an `n`-byte value in memory. -/
def objectBytes (n value : ℕ) : List UInt8 :=
  match host with
  | .little => leBytes n value
  | .big => (leBytes n value).reverse

def objectValue (bytes : List UInt8) : ℕ :=
  match host with
  | .little => leNat bytes
  | .big => leNat bytes.reverse

/-- `byteswap` of `endian.h` on `n` bytes (`bswap_16`, `bswap_32`, `bswap_64`). -/
def byteswap (n value : ℕ) : ℕ := leNat (leBytes n value).reverse

namespace ByteArray

def writeFixed (n : ℕ) (ba : ByteArray) (value : ℕ) : Except Fault ByteArray :=
  let value := if ba.m_endian ≠ host then byteswap n value else value
  ba.write (objectBytes host n value)

def readFixed (n : ℕ) (ba : ByteArray) : Except Fault (ℕ × ByteArray) := do
  let (bytes, ba') ← ba.read n
  let v := objectValue host bytes
  .ok (if ba.m_endian = host then v else byteswap n v, ba')

-- one byte has no order, and these two never look at `m_endian`
def writeFuint8 (ba : ByteArray) (value : UInt8) : Except Fault ByteArray := ba.write [value]
def writeFint8 (ba : ByteArray) (value : Int8) : Except Fault ByteArray := ba.write [value.toUInt8]

def writeFint16 (ba : ByteArray) (value : Int16) : Except Fault ByteArray :=
  writeFixed host 2 ba value.toUInt16.toNat
def writeFuint16 (ba : ByteArray) (value : UInt16) : Except Fault ByteArray :=
  writeFixed host 2 ba value.toNat
def writeFint32 (ba : ByteArray) (value : Int32) : Except Fault ByteArray :=
  writeFixed host 4 ba value.toUInt32.toNat
def writeFuint32 (ba : ByteArray) (value : UInt32) : Except Fault ByteArray :=
  writeFixed host 4 ba value.toNat
def writeFint64 (ba : ByteArray) (value : Int64) : Except Fault ByteArray :=
  writeFixed host 8 ba value.toUInt64.toNat
def writeFuint64 (ba : ByteArray) (value : UInt64) : Except Fault ByteArray :=
  writeFixed host 8 ba value.toNat

def readFuint8 (ba : ByteArray) : Except Fault (UInt8 × ByteArray) := do
  let (bytes, ba') ← ba.read 1
  .ok (UInt8.ofNat (leNat bytes), ba')

def readFint8 (ba : ByteArray) : Except Fault (Int8 × ByteArray) := do
  let (bytes, ba') ← ba.read 1
  .ok ((UInt8.ofNat (leNat bytes)).toInt8, ba')

def readFint16 (ba : ByteArray) : Except Fault (Int16 × ByteArray) := do
  let (v, ba') ← readFixed host 2 ba
  .ok ((UInt16.ofNat v).toInt16, ba')
def readFuint16 (ba : ByteArray) : Except Fault (UInt16 × ByteArray) := do
  let (v, ba') ← readFixed host 2 ba
  .ok (UInt16.ofNat v, ba')
def readFint32 (ba : ByteArray) : Except Fault (Int32 × ByteArray) := do
  let (v, ba') ← readFixed host 4 ba
  .ok ((UInt32.ofNat v).toInt32, ba')
def readFuint32 (ba : ByteArray) : Except Fault (UInt32 × ByteArray) := do
  let (v, ba') ← readFixed host 4 ba
  .ok (UInt32.ofNat v, ba')
def readFint64 (ba : ByteArray) : Except Fault (Int64 × ByteArray) := do
  let (v, ba') ← readFixed host 8 ba
  .ok ((UInt64.ofNat v).toInt64, ba')
def readFuint64 (ba : ByteArray) : Except Fault (UInt64 × ByteArray) := do
  let (v, ba') ← readFixed host 8 ba
  .ok (UInt64.ofNat v, ba')

/-- The loop of `writeUint32` and `writeUint64` with `room` bytes left in `tmp`. -/
def varintLoop : ℕ → ℕ → Except Fault (List UInt8)
  | 0, _ => .error .outOfBounds
  | room + 1, value =>
      if value ≥ 0x80 then do
        let rest ← varintLoop room (value >>> 7)
        .ok (UInt8.ofNat (value &&& 0x7F ||| 0x80) :: rest)
      else .ok [UInt8.ofNat value]

def writeUint32 (ba : ByteArray) (value : UInt32) : Except Fault ByteArray := do
  let tmp ← varintLoop 5 value.toNat
  ba.write tmp

def writeUint64 (ba : ByteArray) (value : UInt64) : Except Fault ByteArray := do
  let tmp ← varintLoop 10 value.toNat
  ba.write tmp

/-- `for(int i = 0; i < w; i += 7)` of `readUint32` and `readUint64`, with at
most `fuel` turns; `w` turns are more than the loop can take. -/
def unvarintLoop (w : ℕ) : ℕ → ℕ → ℕ → ByteArray → Except Fault (ℕ × ByteArray)
  | 0, _, result, ba => .ok (result, ba)
  | fuel + 1, i, result, ba =>
      if i < w then do
        let (b, ba') ← ba.readFuint8
        if b.toNat < 0x80 then .ok (result ||| b.toNat <<< i % 2 ^ w, ba')
        else unvarintLoop w fuel (i + 7) (result ||| (b.toNat &&& 0x7F) <<< i % 2 ^ w) ba'
      else .ok (result, ba)

def readUint32 (ba : ByteArray) : Except Fault (UInt32 × ByteArray) := do
  let (v, ba') ← unvarintLoop 32 32 0 0 ba
  .ok (UInt32.ofNat v, ba')

def readUint64 (ba : ByteArray) : Except Fault (UInt64 × ByteArray) := do
  let (v, ba') ← unvarintLoop 64 64 0 0 ba
  .ok (UInt64.ofNat v, ba')

def encodeZigzag32 (v : Int32) : UInt32 := ⟨zigzag v.toBitVec⟩
def encodeZigzag64 (v : Int64) : UInt64 := ⟨zigzag v.toBitVec⟩
def decodeZigzag32 (v : UInt32) : Int32 := ⟨⟨unzigzag v.toBitVec⟩⟩
def decodeZigzag64 (v : UInt64) : Int64 := ⟨⟨unzigzag v.toBitVec⟩⟩

def writeInt32 (ba : ByteArray) (value : Int32) : Except Fault ByteArray :=
  ba.writeUint32 (encodeZigzag32 value)
def writeInt64 (ba : ByteArray) (value : Int64) : Except Fault ByteArray :=
  ba.writeUint64 (encodeZigzag64 value)

def readInt32 (ba : ByteArray) : Except Fault (Int32 × ByteArray) := do
  let (v, ba') ← ba.readUint32
  .ok (decodeZigzag32 v, ba')
def readInt64 (ba : ByteArray) : Except Fault (Int64 × ByteArray) := do
  let (v, ba') ← ba.readUint64
  .ok (decodeZigzag64 v, ba')

def writeStringF16 (ba : ByteArray) (value : List UInt8) : Except Fault ByteArray := do
  let ba' ← writeFuint16 host ba (UInt16.ofNat value.length)
  ba'.write value
def writeStringF32 (ba : ByteArray) (value : List UInt8) : Except Fault ByteArray := do
  let ba' ← writeFuint32 host ba (UInt32.ofNat value.length)
  ba'.write value
def writeStringF64 (ba : ByteArray) (value : List UInt8) : Except Fault ByteArray := do
  let ba' ← writeFuint64 host ba (UInt64.ofNat value.length)
  ba'.write value
def writeStringVint (ba : ByteArray) (value : List UInt8) : Except Fault ByteArray := do
  let ba' ← ba.writeUint64 (UInt64.ofNat value.length)
  ba'.write value

def readStringF16 (ba : ByteArray) : Except Fault (List UInt8 × ByteArray) := do
  let (len, ba') ← readFuint16 host ba
  ba'.read len.toNat
def readStringF32 (ba : ByteArray) : Except Fault (List UInt8 × ByteArray) := do
  let (len, ba') ← readFuint32 host ba
  ba'.read len.toNat
def readStringF64 (ba : ByteArray) : Except Fault (List UInt8 × ByteArray) := do
  let (len, ba') ← readFuint64 host ba
  ba'.read len.toNat
def readStringVint (ba : ByteArray) : Except Fault (List UInt8 × ByteArray) := do
  let (len, ba') ← ba.readUint64
  ba'.read len.toNat

inductive Item where
  | fint8 (v : Int8)
  | fuint8 (v : UInt8)
  | fint16 (v : Int16)
  | fuint16 (v : UInt16)
  | fint32 (v : Int32)
  | fuint32 (v : UInt32)
  | fint64 (v : Int64)
  | fuint64 (v : UInt64)
  | int32 (v : Int32)
  | uint32 (v : UInt32)
  | int64 (v : Int64)
  | uint64 (v : UInt64)
  | stringF16 (v : List UInt8)
  | stringF32 (v : List UInt8)
  | stringF64 (v : List UInt8)
  | stringVint (v : List UInt8)
deriving DecidableEq

/-- Strings are not empty, and their length fits the prefix. -/
def Item.Fits : Item → Prop
  | .stringF16 v => v ≠ [] ∧ v.length < 2 ^ 16
  | .stringF32 v => v ≠ [] ∧ v.length < 2 ^ 32
  | .stringF64 v => v ≠ [] ∧ v.length < 2 ^ 64
  | .stringVint v => v ≠ [] ∧ v.length < 2 ^ 64
  | _ => True

def writeItem (ba : ByteArray) : Item → Except Fault ByteArray
  | .fint8 v => ba.writeFint8 v
  | .fuint8 v => ba.writeFuint8 v
  | .fint16 v => writeFint16 host ba v
  | .fuint16 v => writeFuint16 host ba v
  | .fint32 v => writeFint32 host ba v
  | .fuint32 v => writeFuint32 host ba v
  | .fint64 v => writeFint64 host ba v
  | .fuint64 v => writeFuint64 host ba v
  | .int32 v => ba.writeInt32 v
  | .uint32 v => ba.writeUint32 v
  | .int64 v => ba.writeInt64 v
  | .uint64 v => ba.writeUint64 v
  | .stringF16 v => writeStringF16 host ba v
  | .stringF32 v => writeStringF32 host ba v
  | .stringF64 v => writeStringF64 host ba v
  | .stringVint v => ba.writeStringVint v

inductive Kind where
  | fint8
  | fuint8
  | fint16
  | fuint16
  | fint32
  | fuint32
  | fint64
  | fuint64
  | int32
  | uint32
  | int64
  | uint64
  | stringF16
  | stringF32
  | stringF64
  | stringVint
deriving DecidableEq

def Item.kind : Item → Kind
  | .fint8 _ => .fint8
  | .fuint8 _ => .fuint8
  | .fint16 _ => .fint16
  | .fuint16 _ => .fuint16
  | .fint32 _ => .fint32
  | .fuint32 _ => .fuint32
  | .fint64 _ => .fint64
  | .fuint64 _ => .fuint64
  | .int32 _ => .int32
  | .uint32 _ => .uint32
  | .int64 _ => .int64
  | .uint64 _ => .uint64
  | .stringF16 _ => .stringF16
  | .stringF32 _ => .stringF32
  | .stringF64 _ => .stringF64
  | .stringVint _ => .stringVint

def wrap {α : Type} (c : α → Item) (x : Except Fault (α × ByteArray)) :
    Except Fault (Item × ByteArray) := do
  let (v, ba) ← x
  .ok (c v, ba)

def readItem (ba : ByteArray) : Kind → Except Fault (Item × ByteArray)
  | .fint8 => wrap .fint8 ba.readFint8
  | .fuint8 => wrap .fuint8 ba.readFuint8
  | .fint16 => wrap .fint16 (readFint16 host ba)
  | .fuint16 => wrap .fuint16 (readFuint16 host ba)
  | .fint32 => wrap .fint32 (readFint32 host ba)
  | .fuint32 => wrap .fuint32 (readFuint32 host ba)
  | .fint64 => wrap .fint64 (readFint64 host ba)
  | .fuint64 => wrap .fuint64 (readFuint64 host ba)
  | .int32 => wrap .int32 ba.readInt32
  | .uint32 => wrap .uint32 ba.readUint32
  | .int64 => wrap .int64 ba.readInt64
  | .uint64 => wrap .uint64 ba.readUint64
  | .stringF16 => wrap .stringF16 (readStringF16 host ba)
  | .stringF32 => wrap .stringF32 (readStringF32 host ba)
  | .stringF64 => wrap .stringF64 (readStringF64 host ba)
  | .stringVint => wrap .stringVint ba.readStringVint

def writeItems : ByteArray → List (Bool × Item) → Except Fault ByteArray
  | ba, [] => .ok ba
  | ba, (little, item) :: items => do
      let ba' ← writeItem host (ba.setIsLittleEndian little) item
      ba'.writeItems items

def readItems : ByteArray → List (Bool × Kind) → Except Fault (List Item × ByteArray)
  | ba, [] => .ok ([], ba)
  | ba, (little, kind) :: kinds => do
      let (v, ba') ← readItem host (ba.setIsLittleEndian little) kind
      let (vs, ba'') ← ba'.readItems kinds
      .ok (v :: vs, ba'')

end ByteArray

end

end Sylar
