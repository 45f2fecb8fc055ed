import Sylar.Spec.ByteArrayTyped
import Sylar.Spec.ZlibStream

/-! The messages of `protocol.cc` and `rock_protocol.cc`, and how `RockMessageDecoder` puts them
on a stream and takes them off it. `host` is the byte order of the machine. -/

namespace Sylar

def StdString : Type := { s : List UInt8 // s.length < 2 ^ 62 }

instance : DecidableEq StdString :=
  inferInstanceAs (DecidableEq { s : List UInt8 // s.length < 2 ^ 62 })

inductive RockMessage where
  | request (m_sn m_cmd : UInt32) (m_body : StdString)
  | response (m_sn m_cmd m_result : UInt32) (m_resultStr m_body : StdString)
  | notify (m_notify : UInt32) (m_body : StdString)
deriving DecidableEq

def RockMessage.getType : RockMessage → UInt8
  | .request _ _ _ => 1
  | .response _ _ _ _ _ => 2
  | .notify _ _ => 3

/-- `catch(..)` around what gives a null pointer then. Only exceptions can be caught. -/
def caught {α : Type} : Except Fault (Option α) → Except Fault (Option α)
  | .error (.outOfRange _) | .error (.logicError _) => .ok none
  | x => x

namespace RockMessage

/-- `serializeToByteArray` of `Request`, `Response` and `Notify`, and then that of `RockBody`. -/
def serializeToByteArray (msg : RockMessage) (ba : ByteArray) : Except Fault ByteArray := do
  let ba ← ba.writeFuint8 msg.getType
  match msg with
  | .request m_sn m_cmd m_body =>
      let ba ← ba.writeUint32 m_sn
      let ba ← ba.writeUint32 m_cmd
      ba.writeStringVint m_body.1
  | .response m_sn m_cmd m_result m_resultStr m_body =>
      let ba ← ba.writeUint32 m_sn
      let ba ← ba.writeUint32 m_cmd
      let ba ← ba.writeUint32 m_result
      let ba ← ba.writeStringVint m_resultStr.1
      ba.writeStringVint m_body.1
  | .notify m_notify m_body =>
      let ba ← ba.writeUint32 m_notify
      ba.writeStringVint m_body.1

def toByteArray (msg : RockMessage) (heap : ℕ → ℕ → UInt8) : Except Fault (Option ByteArray) :=
  caught ((msg.serializeToByteArray (ByteArray.new heap 4096)).map some)

end RockMessage

def readStdString (ba : ByteArray) : Except Fault (StdString × ByteArray) := do
  let r ← ba.readStringVint
  if h : r.1.length < 2 ^ 62 then .ok (⟨r.1, h⟩, r.2)
  else .error (.logicError "basic_string::resize")

/-- The message of a type with its `parseFromByteArray`. There is none of another type. -/
def parseFromByteArray (type : UInt8) (ba : ByteArray) : Except Fault (Option RockMessage) :=
  if type = 1 then do
    let sn ← ba.readUint32
    let cmd ← sn.2.readUint32
    let body ← readStdString cmd.2
    .ok (some (.request sn.1 cmd.1 body.1))
  else if type = 2 then do
    let sn ← ba.readUint32
    let cmd ← sn.2.readUint32
    let result ← cmd.2.readUint32
    let resultStr ← readStdString result.2
    let body ← readStdString resultStr.2
    .ok (some (.response sn.1 cmd.1 result.1 resultStr.1 body.1))
  else if type = 3 then do
    let notify ← ba.readUint32
    let body ← readStdString notify.2
    .ok (some (.notify notify.1 body.1))
  else .ok none

/-- The rest of `parseFrom`, once the body is there and not packed. -/
def parseMessage (ba : ByteArray) : Except Fault (Option RockMessage) := do
  let type ← ba.readFuint8
  parseFromByteArray type.1 type.2

/-- `length` has the bits of the `int32_t`. -/
structure RockMsgHeader where
  magic : List UInt8
  version : UInt8
  flag : UInt8
  length : UInt32
deriving DecidableEq

def s_rock_magic : List UInt8 := [0xab, 0xcd]

namespace RockMsgHeader

def new : RockMsgHeader := ⟨s_rock_magic, 1, 0, 0⟩

def bytes (host : Endian) (header : RockMsgHeader) : List UInt8 :=
  header.magic ++ [header.version, header.flag] ++ objectBytes host 4 header.length.toNat

def ofBytes (host : Endian) (bytes : List UInt8) : RockMsgHeader :=
  ⟨bytes.take 2, bytes.getD 2 0, bytes.getD 3 0, UInt32.ofNat (objectValue host (bytes.drop 4))⟩

end RockMsgHeader

def byteswapOnLittleEndian (host : Endian) (v : UInt32) : UInt32 :=
  match host with
  | .little => UInt32.ofNat (byteswap 4 v.toNat)
  | .big => v

def toSize (length : UInt32) : ℕ :=
  if length.toNat < 2 ^ 31 then length.toNat else length.toNat + (2 ^ 64 - 2 ^ 32)

/-- `rock.protocol.max_length` and `rock.protocol.gzip_min_length`. -/
structure RockConfig where
  max_length : UInt32
  gzip_min_length : UInt32
deriving DecidableEq

structure RockPeer where
  zlib : Zlib
  config : RockConfig
  host : Endian

namespace RockPeer

section

variable (p : RockPeer)

/-- `serializeTo` up to the header's byte order: what to return, or what to write. -/
def pack (msg : RockMessage) (heap zheap : ℕ → ℕ → UInt8) :
    Except Fault (ℤ ⊕ ByteArray × RockMsgHeader) := do
  match ← msg.toByteArray heap with
  | none => .error .nullDeref
  | some ba =>
      let ba ← ba.setPosition 0
      let length := UInt32.ofNat ba.getSize
      if length ≥ p.config.gzip_min_length then
        let r ← (ZlibStream.create p.zlib.deflate 4096).write ba
        if r.1 ≠ .Z_OK then .ok (.inl (-1))
        else
          let r ← r.2.flush
          if r.1 ≠ .Z_OK then .ok (.inl (-2))
          else
            let ba ← r.2.getByteArray zheap
            .ok (.inr (ba, { RockMsgHeader.new with flag := 1, length := UInt32.ofNat ba.getSize }))
      else .ok (.inr (ba, { RockMsgHeader.new with length := length }))

def send (s : SocketStream) (ba : ByteArray) (header : RockMsgHeader) :
    Except Fault ℤ × SocketStream :=
  let header := { header with length := byteswapOnLittleEndian p.host header.length }
  let r := s.writeRawFixSize (header.bytes p.host)
  if r.1 ≤ 0 then (.ok (-3), r.2)
  else
    match r.2.writeFixSize ba ba.getReadSize with
    | (.error fault, s) => (.error fault, s)
    | (.ok (rt, ba), s) =>
        if rt ≤ 0 then (.ok (-4), s) else (.ok (SocketStream.toInt (8 + ba.getSize)), s)

def serializeTo (s : SocketStream) (msg : RockMessage) : Except Fault ℤ × SocketStream :=
  let heap := s.malloc
  let zheap := heap.2.malloc
  match p.pack msg heap.1 zheap.1 with
  | .error fault => (.error fault, zheap.2)
  | .ok (.inl code) => (.ok code, zheap.2)
  | .ok (.inr (ba, header)) => p.send zheap.2 ba header

def unpack (flag : UInt8) (heap : ℕ → ℕ → UInt8) (ba : ByteArray) :
    Except Fault (Option RockMessage) := do
  let ba ← ba.setPosition 0
  if flag &&& 1 ≠ 0 then
    let r ← (ZlibStream.create p.zlib.inflate 4096).write ba
    if r.1 ≠ .Z_OK then .ok none
    else
      let r ← r.2.flush
      if r.1 ≠ .Z_OK then .ok none
      else
        let ba ← r.2.getByteArray heap
        parseMessage ba
  else parseMessage ba

def parseBody (s : SocketStream) (flag : UInt8) (length : UInt32) :
    Except Fault (Option RockMessage) × SocketStream :=
  let heap := s.malloc
  let zheap := heap.2.malloc
  let r := zheap.2.readFixSize (ByteArray.new heap.1 4096) (toSize length)
  (caught (do
    let rt ← r.1
    if rt.1 ≤ 0 then .ok none else p.unpack flag zheap.1 rt.2), r.2)

def parseFrom (s : SocketStream) : Except Fault (Option RockMessage) × SocketStream :=
  let r := s.readRawFixSize 8
  let s := r.2.2
  let header := RockMsgHeader.ofBytes p.host r.2.1
  let length := byteswapOnLittleEndian p.host header.length
  if r.1 ≤ 0 then (.ok none, s)
  else if header.magic ≠ s_rock_magic then (.ok none, s)
  else if header.version ≠ 1 then (.ok none, s)
  else if length ≥ p.config.max_length then (.ok none, s)
  else p.parseBody s header.flag length

end

end RockPeer

end Sylar
