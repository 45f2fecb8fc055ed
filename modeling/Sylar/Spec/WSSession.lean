import Sylar.Lib.BitFields
import Sylar.Lib.Blocks
import Sylar.Spec.ByteArrayTyped
import Sylar.Spec.SocketStream

/-! Frames and messages of `ws_session.cc`, and the `Stream` that they are sent and received on.
`host` is the byte order of the machine, `max_size` is `websocket.message.max_size`, and `rand`
what the random number generator gives. `WSRecvMessage` returns nothing where the source breaks
out of the loop. -/

namespace Sylar

open Lib

structure WSFrameHead where
  opcode : Fin 16
  rsv3 : Bool
  rsv2 : Bool
  rsv1 : Bool
  fin : Bool
  payload : Fin 128
  mask : Bool
deriving DecidableEq, Repr

namespace WSFrameHead

def CONTINUE : Fin 16 := 0
def TEXT_FRAME : Fin 16 := 1
def BIN_FRAME : Fin 16 := 2
def CLOSE : Fin 16 := 8
def PING : Fin 16 := 9
def PONG : Fin 16 := 10

def zero : WSFrameHead := ⟨0, false, false, false, false, 0, false⟩

def fields (head : WSFrameHead) : List (ℕ × ℕ) :=
  [(4, head.opcode), (1, head.rsv3.toNat), (1, head.rsv2.toNat), (1, head.rsv1.toNat),
    (1, head.fin.toNat), (7, head.payload), (1, head.mask.toNat)]

def widths : List ℕ := [4, 1, 1, 1, 1, 7, 1]

def ofFields : List ℕ → WSFrameHead
  | [opcode, rsv3, rsv2, rsv1, fin, payload, mask] =>
      ⟨.ofNat 16 opcode, rsv3 = 1, rsv2 = 1, rsv1 = 1, fin = 1, .ofNat 128 payload, mask = 1⟩
  | _ => zero

/-- The head in memory. The first field has the low bits on a little-endian machine and the
high bits on a big-endian one. -/
def bytes (host : Endian) (head : WSFrameHead) : List UInt8 :=
  objectBytes host 2 <| pack <|
    match host with
    | .little => head.fields
    | .big => head.fields.reverse

def ofBytes (host : Endian) (bytes : List UInt8) : WSFrameHead :=
  match host with
  | .little => ofFields (unpack widths (objectValue host bytes))
  | .big => ofFields (unpack widths.reverse (objectValue host bytes)).reverse

end WSFrameHead

structure WSFrameMessage where
  m_opcode : ℤ
  m_data : List UInt8
deriving DecidableEq, Repr

/-- A `Stream`: what its peer sends, what it sends itself, and whether it has been closed. -/
structure Connection where
  incoming : SocketStream
  outgoing : SocketStream
  closed : Bool

namespace Connection

/-- What the buffer gets, with the result in front. A closed stream has an error to give as soon
as it is asked for a byte. -/
def readFixSize (s : Connection) (length : ℕ) : ℤ × List UInt8 × Connection :=
  if s.closed && 0 < SocketStream.toInt64 length then (-1, [], s)
  else
    let r := s.incoming.readRawFixSize length
    (r.1, r.2.1, { s with incoming := r.2.2 })

def writeFixSize (s : Connection) (data : List UInt8) : ℤ × Connection :=
  if s.closed && 0 < data.length then (-1, s)
  else
    let r := s.outgoing.writeRawFixSize data
    (r.1, { s with outgoing := r.2 })

def close (s : Connection) : Connection := { s with closed := true }

end Connection

/-- `data[first + i] ^= mask[i % 4]` for the `n` numbers `i` from 0 on. -/
def maskData (mask : List UInt8) (first n : ℕ) (data : List UInt8) : List UInt8 :=
  data.mapIdx fun j b => if first ≤ j ∧ j < first + n then b ^^^ mask.getD ((j - first) % 4) 0 else b

namespace Connection

open WSFrameHead

variable (host : Endian)

def byteswapOnLittleEndian (n value : ℕ) : ℕ :=
  match host with
  | .little => byteswap n value
  | .big => value

def WSPing (s : Connection) : ℤ × Connection :=
  let r := s.writeFixSize ({ WSFrameHead.zero with fin := true, opcode := PING }.bytes host)
  if r.1 ≤ 0 then (r.1, r.2.close) else r

def WSPong (s : Connection) : ℤ × Connection :=
  let r := s.writeFixSize ({ WSFrameHead.zero with fin := true, opcode := PONG }.bytes host)
  if r.1 ≤ 0 then (r.1, r.2.close) else r

def code (opcode : ℤ) : Fin 16 := .ofNat 16 (opcode % 16).toNat

def sendHead (msg : WSFrameMessage) (client fin : Bool) : WSFrameHead :=
  let size := msg.m_data.length
  { WSFrameHead.zero with
    fin := fin
    opcode := code msg.m_opcode
    mask := client
    payload := .ofNat 128 (if size < 126 then size else if size < 65536 then 126 else 127) }

def sendLength (head : WSFrameHead) (size : ℕ) : Option (List UInt8) :=
  if head.payload = 126 then some (objectBytes host 2 (byteswapOnLittleEndian host 2 size))
  else if head.payload = 127 then some (objectBytes host 8 (byteswapOnLittleEndian host 8 size))
  else none

def writeIf (s : Connection) : Option (List UInt8) → ℤ × Connection
  | some data => s.writeFixSize data
  | none => (1, s)

def WSSendMessage (s : Connection) (msg : WSFrameMessage) (client fin : Bool) (rand : UInt32) :
    ℤ × WSFrameMessage × Connection :=
  let head := sendHead msg client fin
  let size := msg.m_data.length
  let r := s.writeFixSize (head.bytes host)
  if r.1 ≤ 0 then (-1, msg, r.2.close) else
  let r := r.2.writeIf (sendLength host head size)
  if r.1 ≤ 0 then (-1, msg, r.2.close) else
  let mask := objectBytes host 4 rand.toNat
  let msg := if client then { msg with m_data := maskData mask 0 size msg.m_data } else msg
  let r := r.2.writeIf (if client then some mask else none)
  if r.1 ≤ 0 then (-1, msg, r.2.close) else
  let r := r.2.writeFixSize msg.m_data
  if r.1 ≤ 0 then (-1, msg, r.2.close) else
  (SocketStream.toInt (size + 2), msg, r.2)

structure Receiving where
  opcode : Fin 16
  data : List UInt8
  cur_len : ℤ
deriving DecidableEq, Repr

/-- The opcode of the message is that of its first frame that does not continue it. -/
def Receiving.opcodeWith (m : Receiving) (opcode : Fin 16) : Fin 16 :=
  if m.opcode = 0 ∧ opcode ≠ CONTINUE then opcode else m.opcode

def readNumber (s : Connection) (n : ℕ) : Option ℕ × Connection :=
  let r := s.readFixSize n
  (if r.1 ≤ 0 then none else some (byteswapOnLittleEndian host n (objectValue host r.2.1)), r.2.2)

def readLength (s : Connection) (head : WSFrameHead) : Option ℕ × Connection :=
  if head.payload = 126 then s.readNumber host 2
  else if head.payload = 127 then s.readNumber host 8
  else (some head.payload, s)

def readMask (s : Connection) (head : WSFrameHead) : Option (List UInt8) × Connection :=
  if head.mask then
    let r := s.readFixSize 4
    (if r.1 ≤ 0 then none else some r.2.1, r.2.2)
  else (some (List.replicate 4 0), s)

/-- The payload is read into `data`, after the bytes that are there. -/
def readPayload (s : Connection) (m : Receiving) (head : WSFrameHead) (mask : List UInt8) (length : ℕ) :
    Except Fault (Option Receiving × Connection) :=
  let first := (m.cur_len % 2 ^ 64).toNat
  let data := m.data.takeD (((m.cur_len + length) % 2 ^ 64).toNat) 0
  let r := s.readFixSize length
  let n := (SocketStream.toInt length).toNat
  if 0 < r.2.1.length ∧ data.length < first + r.2.1.length then .error .outOfBounds
  else if r.1 ≤ 0 then .ok (none, r.2.2)
  else if head.mask ∧ data.length < first + n then .error .outOfBounds
  else
    let data := overwrite data first r.2.1
    .ok (some
      { opcode := m.opcodeWith head.opcode
        data := if head.mask then maskData mask first n data else data
        cur_len := (m.cur_len + length).bmod (2 ^ 32) }, r.2.2)

def recvFrame (max_size : UInt32) (s : Connection) (client : Bool) (m : Receiving) (head : WSFrameHead) :
    Except Fault (Option (Receiving ⊕ WSFrameMessage) × Connection) :=
  if !client && !head.mask then .ok (none, s) else
  match s.readLength host head with
  | (none, s) => .ok (none, s)
  | (some length, s) =>
  if max_size.toNat ≤ ((m.cur_len + length) % 2 ^ 64).toNat then .ok (none, s) else
  match s.readMask head with
  | (none, s) => .ok (none, s)
  | (some mask, s) =>
  match s.readPayload m head mask length with
  | .error fault => .error fault
  | .ok (none, s) => .ok (none, s)
  | .ok (some m, s) => .ok (some (if head.fin then .inr ⟨m.opcode, m.data⟩ else .inl m), s)

/-- A turn of the loop, which goes on with the variables or returns the message. -/
def recvTurn (max_size : UInt32) (s : Connection) (client : Bool) (m : Receiving) :
    Except Fault (Option (Receiving ⊕ WSFrameMessage) × Connection) :=
  let r := s.readFixSize 2
  let s := r.2.2
  let head := ofBytes host r.2.1
  if r.1 ≤ 0 then .ok (none, s)
  else if head.opcode = PING then
    let r := s.WSPong host
    .ok (if r.1 ≤ 0 then none else some (.inl m), r.2)
  else if head.opcode = PONG then .ok (some (.inl m), s)
  else if head.opcode = CONTINUE ∨ head.opcode = TEXT_FRAME ∨ head.opcode = BIN_FRAME then
    s.recvFrame host max_size client m head
  else .ok (some (.inl m), s)

/-- A turn takes at least the two bytes of a head, so there are fewer turns than bytes. -/
def recvLoop (max_size : UInt32) (client : Bool) :
    ℕ → Connection → Receiving → Except Fault (Option WSFrameMessage × Connection)
  | 0, s, _ => .ok (none, s.close)
  | turns + 1, s, m =>
      match s.recvTurn host max_size client m with
      | .error fault => .error fault
      | .ok (none, s) => .ok (none, s.close)
      | .ok (some (.inr msg), s) => .ok (some msg, s)
      | .ok (some (.inl m), s) => recvLoop max_size client turns s m

def WSRecvMessage (max_size : UInt32) (s : Connection) (client : Bool) :
    Except Fault (Option WSFrameMessage × Connection) :=
  recvLoop host max_size client (s.incoming.bytes.length + 1) s ⟨0, [], 0⟩

/-- From one header that is read to the next, in the same call or, after a message, in the next. -/
def nextHeader (max_size : UInt32) (client : Bool) (p : Connection × Receiving) (_ : Unit) :
    Except (Option Fault) (Connection × Receiving) :=
  match p.1.recvTurn host max_size client p.2 with
  | .error fault => .error (some fault)
  | .ok (none, _) => .error none
  | .ok (some (.inl m), s) => .ok (s, m)
  | .ok (some (.inr _), s) => .ok (s, ⟨0, [], 0⟩)

end Connection

end Sylar
