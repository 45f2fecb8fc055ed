import Sylar.Spec.HttpDump
import Sylar.Spec.RockProtocol

/-! `IPv4Address` and `IPv6Address` of `address.cc`: the addresses of a subnet, and the text of
an IPv6 address. `host` is the byte order of the machine; the two bytes of `sin_port` and the four of
`s_addr` stand in memory in network order, whatever it is. -/

namespace Sylar

open Lib

/-- What a difference below the least `int` is: `-O0` lets it wrap, the language leaves it open. -/
inductive SignedOverflow where
  | wraps
  | undefined
deriving DecidableEq, Repr

def AF_INET : UInt16 := 2
def AF_INET6 : UInt16 := 10

def byteswapOnLittleEndian16 (host : Endian) (v : UInt16) : UInt16 :=
  match host with
  | .little => UInt16.ofNat (byteswap 2 v.toNat)
  | .big => v

/-- `CreateMask<T>` for a `T` of `size` bytes: `(1 << (sizeof(T) * 8 - bits)) - 1`, before it is
narrowed to `T`. The width less `bits` is a `size_t`; the `1` that is shifted is an `int`. -/
def CreateMask (overflow : SignedOverflow) (size : ℕ) (bits : UInt32) : Except Fault UInt32 :=
  let shift := UInt64.ofNat (size * 8) - bits.toUInt64
  if 32 ≤ shift then .error .undefined
  else
    -- `1 << 31` is the least `int` there is
    if shift = 31 ∧ overflow = .undefined then .error .undefined
    else .ok (1 <<< shift.toUInt32 - 1)

structure IPv4Address where
  sin_family : UInt16
  sin_port : UInt16
  s_addr : UInt32
deriving DecidableEq, Repr

namespace IPv4Address

variable (host : Endian) (overflow : SignedOverflow)

def new (address : UInt32) (port : UInt16) : IPv4Address :=
  { sin_family := AF_INET
    sin_port := byteswapOnLittleEndian16 host port
    s_addr := byteswapOnLittleEndian host address }

def bytes (a : IPv4Address) : List UInt8 := objectBytes host 4 a.s_addr.toNat

def broadcastAddress (a : IPv4Address) (prefix_len : UInt32) : Except Fault (Option IPv4Address) :=
  if 32 < prefix_len then .ok none
  else do
    let mask ← CreateMask overflow 4 prefix_len
    .ok (some { a with s_addr := a.s_addr ||| byteswapOnLittleEndian host mask })

def subnetMask (prefix_len : UInt32) : Except Fault IPv4Address := do
  let mask ← CreateMask overflow 4 prefix_len
  .ok { sin_family := AF_INET, sin_port := 0, s_addr := ~~~ (byteswapOnLittleEndian host mask) }

end IPv4Address

structure IPv6Address where
  sin6_family : UInt16
  sin6_port : UInt16
  sin6_flowinfo : UInt32
  s6_addr : List UInt8
  sin6_scope_id : UInt32
  length_addr : s6_addr.length = 16
deriving DecidableEq, Repr

namespace IPv6Address

variable (host : Endian) (overflow : SignedOverflow)

def new (address : List UInt8) (port : UInt16) (length : address.length = 16) : IPv6Address :=
  { sin6_family := AF_INET6
    sin6_port := byteswapOnLittleEndian16 host port
    sin6_flowinfo := 0
    s6_addr := address
    sin6_scope_id := 0
    length_addr := length }

/-- `for(i = first; i < last; ++i) s6_addr[i] = b`. -/
def fill (first last : ℕ) (b : UInt8) (addr : List UInt8) : List UInt8 :=
  addr.mapIdx fun i x => if first ≤ i ∧ i < last then b else x

theorem length_fill (first last : ℕ) (b : UInt8) (addr : List UInt8) :
    (fill first last b addr).length = addr.length := List.length_mapIdx

/-- An assignment to `s6_addr[i]`, of what `f` makes of the byte there. -/
def assign (a : IPv6Address) (i : ℕ) (f : UInt8 → UInt8) : Except Fault IPv6Address :=
  if i < 16 then
    .ok { a with
      s6_addr := a.s6_addr.modify i f
      length_addr := by rw [List.length_modify, a.length_addr] }
  else .error .outOfBounds

def fillAddr (a : IPv6Address) (first last : ℕ) (b : UInt8) : IPv6Address :=
  { a with
    s6_addr := fill first last b a.s6_addr
    length_addr := by rw [length_fill, a.length_addr] }

def broadcastAddress (a : IPv6Address) (prefix_len : UInt32) : Except Fault IPv6Address := do
  let mask ← CreateMask overflow 1 (prefix_len % 8)
  let baddr ← a.assign (prefix_len / 8).toNat (· ||| mask.toUInt8)
  .ok (baddr.fillAddr ((prefix_len / 8).toNat + 1) 16 0xff)

def zero : IPv6Address :=
  { sin6_family := AF_INET6
    sin6_port := 0
    sin6_flowinfo := 0
    s6_addr := List.replicate 16 0
    sin6_scope_id := 0
    length_addr := List.length_replicate }

def subnetMask (prefix_len : UInt32) : Except Fault IPv6Address := do
  let mask ← CreateMask overflow 1 (prefix_len % 8)
  let subnet ← zero.assign (prefix_len / 8).toNat fun _ => ~~~ mask.toUInt8
  .ok (subnet.fillAddr 0 (prefix_len / 8).toNat 0xff)

/-- `addr[i]` of the eight `uint16_t`s the bytes are read as. -/
def groups (a : IPv6Address) : List UInt16 :=
  (List.range 8).map fun i => UInt16.ofNat (objectValue host (substr a.s6_addr (2 * i) 2))

def hexText (v : ℕ) : List UInt8 := (Nat.toDigits 16 v).map fun c => UInt8.ofNat c.toNat

/-- The loop of `insert`, with what is left of `addr`; `prev` is `addr[i - 1]`, none where `i` is 0.
Gives what is written, and `used_zeros` after the loop. -/
def insertLoop : Option UInt16 → Bool → List UInt16 → List UInt8 × Bool
  | _, used_zeros, [] => ([], used_zeros)
  | prev, used_zeros, g :: rest =>
      if g = 0 ∧ used_zeros = false then insertLoop (some g) used_zeros rest
      else
        let elides := prev = some 0 ∧ used_zeros = false
        let r := insertLoop (some g) (used_zeros || decide elides) rest
        ((if elides then ascii ":" else []) ++ (if prev.isSome then ascii ":" else []) ++
          hexText (byteswapOnLittleEndian16 host g).toNat ++ r.1, r.2)

def insert (a : IPv6Address) : List UInt8 :=
  let addr := a.groups host
  let r := insertLoop host none false addr
  ascii "[" ++ r.1 ++ (if r.2 = false ∧ addr.getLast? = some 0 then ascii "::" else []) ++ ascii "]:" ++
    decimalText (byteswapOnLittleEndian16 host a.sin6_port).toNat

end IPv6Address

end Sylar
