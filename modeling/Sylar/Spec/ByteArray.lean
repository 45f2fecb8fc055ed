import Sylar.Spec.Basic
import Sylar.Lib.Blocks
import Sylar.Lib.Machine

/-! `ByteArray` of `bytearray.cc`: a chain of nodes of `m_baseSize` bytes with a
current node, a position, a size and a capacity. The chain from `m_root` on is a
list, and a node pointer is the number of a node in it (`none` for a null
pointer). `new char[s]` leaves its bytes indeterminate: `heap` holds what the
blocks to come will contain. Sizes are natural numbers: every one of them counts
bytes that are in memory. -/

namespace Sylar

open Lib

/-- `SYLAR_LITTLE_ENDIAN` and `SYLAR_BIG_ENDIAN`. -/
inductive Endian where
  | little
  | big
deriving DecidableEq, Repr

/-- `ByteArray::Node`; its `next` is the following element of the chain. -/
structure Node where
  ptr : List UInt8
  size : ℕ

/-- `memcpy(node->ptr + npos, bytes, bytes.size())`. -/
def Node.store (node : Node) (npos : ℕ) (bytes : List UInt8) : Node :=
  { node with ptr := overwrite node.ptr npos bytes }

/-- The `n` bytes from `node->ptr + npos` on. -/
def Node.load (node : Node) (npos n : ℕ) : List UInt8 := (node.ptr.drop npos).take n

/-- `Node(s)` over a fresh block whose bytes are `block`. -/
def Node.ofBlock (s : ℕ) (block : ℕ → UInt8) : Node := ⟨(List.range s).map block, s⟩

structure ByteArray where
  m_baseSize : ℕ
  m_position : ℕ
  m_capacity : ℕ
  m_size : ℕ
  m_endian : Endian
  chain : List Node
  m_cur : Option ℕ
  heap : ℕ → ℕ → UInt8

namespace ByteArray

/-- `ByteArray::ByteArray(size_t base_size)`. -/
def new (heap : ℕ → ℕ → UInt8) (base_size : ℕ) : ByteArray where
  m_baseSize := base_size
  m_position := 0
  m_capacity := base_size
  m_size := 0
  m_endian := .big
  chain := [Node.ofBlock base_size (heap 0)]
  m_cur := some 0
  heap := fun k => heap (k + 1)

def getPosition (ba : ByteArray) : ℕ := ba.m_position
def getSize (ba : ByteArray) : ℕ := ba.m_size
def getReadSize (ba : ByteArray) : ℕ := ba.m_size - ba.m_position
def getCapacity (ba : ByteArray) : ℕ := ba.m_capacity - ba.m_position

def setIsLittleEndian (ba : ByteArray) (val : Bool) : ByteArray :=
  { ba with m_endian := if val then .little else .big }

/-- The pointer to node number `i`: null past the end of the chain. -/
def nodeAt (chain : List Node) (i : ℕ) : Option ℕ := if i < chain.length then some i else none

/-- `clear`: the root node stays, the others are deleted. -/
def clear (ba : ByteArray) : ByteArray :=
  { ba with
    m_position := 0
    m_size := 0
    m_capacity := ba.m_baseSize
    chain := ba.chain.take 1
    m_cur := some 0 }

/-- `addCapacity`: `count` nodes are linked after the last one. -/
def addCapacity (ba : ByteArray) (size : ℕ) : ByteArray :=
  if size = 0 then ba
  else
    let old_cap := ba.getCapacity
    if old_cap ≥ size then ba
    else
      -- `ceil(1.0 * size / m_baseSize)` as the integer ceiling
      let count := (size - old_cap + ba.m_baseSize - 1) / ba.m_baseSize
      let fresh := (List.range count).map fun k => Node.ofBlock ba.m_baseSize (ba.heap k)
      { ba with
        m_capacity := ba.m_capacity + count * ba.m_baseSize
        chain := ba.chain ++ fresh
        m_cur := if old_cap = 0 then nodeAt (ba.chain ++ fresh) ba.chain.length else ba.m_cur
        heap := fun k => ba.heap (k + count) }

/-- The loop of `write`: the chain from `m_cur` on, the offset in its first node
and the bytes still to copy. Answers the chain written to and by how many nodes
`m_cur` has moved. -/
def writeLoop : List Node → ℕ → List UInt8 → Except Fault (List Node × ℕ)
  | chain, _, [] => .ok (chain, 0)
  | [], _, _ :: _ => .error .nullDeref
  | node :: rest, npos, b :: bs =>
      let buf := b :: bs
      let ncap := node.size - npos
      if ncap ≥ buf.length then
        .ok (node.store npos buf :: rest, if node.size = npos + buf.length then 1 else 0)
      else do
        let (rest', moved) ← writeLoop rest 0 (buf.drop ncap)
        .ok (node.store npos (buf.take ncap) :: rest', moved + 1)

def write (ba : ByteArray) (buf : List UInt8) : Except Fault ByteArray :=
  if buf.length = 0 then .ok ba
  else
    let ba := ba.addCapacity buf.length
    match ba.m_cur with
    | none => .error .nullDeref
    | some cur => do
        let npos := ba.m_position % ba.m_baseSize
        let (tail, moved) ← writeLoop (ba.chain.drop cur) npos buf
        let chain := ba.chain.take cur ++ tail
        let m_position := ba.m_position + buf.length
        .ok { ba with
          chain := chain
          m_cur := nodeAt chain (cur + moved)
          m_position := m_position
          m_size := if m_position > ba.m_size then m_position else ba.m_size }

/-- The loop of `read`, which copies out of the chain as `writeLoop` copies in. -/
def readLoop : List Node → ℕ → ℕ → Except Fault (List UInt8 × ℕ)
  | _, _, 0 => .ok ([], 0)
  | [], _, _ + 1 => .error .nullDeref
  | node :: rest, npos, n + 1 =>
      let size := n + 1
      let ncap := node.size - npos
      if ncap ≥ size then
        .ok (node.load npos size, if node.size = npos + size then 1 else 0)
      else do
        let (bytes, moved) ← readLoop rest 0 (size - ncap)
        .ok (node.load npos ncap ++ bytes, moved + 1)

/-- `read(buf, size)`. `m_cur->size` is read before the loop, also when `size`
is 0. -/
def read (ba : ByteArray) (size : ℕ) : Except Fault (List UInt8 × ByteArray) :=
  if size > ba.getReadSize then .error (.outOfRange "not enough len")
  else
    match ba.m_cur with
    | none => .error .nullDeref
    | some cur => do
        let npos := ba.m_position % ba.m_baseSize
        let (bytes, moved) ← readLoop (ba.chain.drop cur) npos size
        .ok (bytes, { ba with
          m_cur := nodeAt ba.chain (cur + moved)
          m_position := ba.m_position + size })

/-- The walk of `setPosition` from `m_root`: how many nodes it passes. -/
def seekLoop : List Node → ℕ → Except Fault ℕ
  | [], _ => .error .nullDeref
  | node :: rest, v =>
      if v > node.size then do
        let passed ← seekLoop rest (v - node.size)
        .ok (passed + 1)
      else .ok (if v = node.size then 1 else 0)

def setPosition (ba : ByteArray) (v : ℕ) : Except Fault ByteArray :=
  if v > ba.m_capacity then .error (.outOfRange "set_position out of range")
  else do
    let passed ← seekLoop ba.chain v
    .ok { ba with
      m_position := v
      m_size := if v > ba.m_size then v else ba.m_size
      m_cur := nodeAt ba.chain passed }

inductive Op where
  | write (buf : List UInt8)
  | read (n : ℕ)
  | setPosition (v : ℕ)
  | clear

inductive Out where
  | done
  | bytes (bs : List UInt8)
  | failed (f : Fault)
deriving DecidableEq

def step (ba : ByteArray) : Op → Out × ByteArray
  | .write buf =>
      match ba.write buf with
      | .ok ba' => (.done, ba')
      | .error f => (.failed f, ba)
  | .read n =>
      match ba.read n with
      | .ok (bs, ba') => (.bytes bs, ba')
      | .error f => (.failed f, ba)
  | .setPosition v =>
      match ba.setPosition v with
      | .ok ba' => (.done, ba')
      | .error f => (.failed f, ba)
  | .clear => (.done, ba.clear)

/-- Reads of at least one byte, and positions inside the data. -/
def Allowed (ba : ByteArray) : Op → Prop
  | .read n => 1 ≤ n
  | .setPosition v => v ≤ ba.getSize
  | _ => True

instance (ba : ByteArray) : DecidablePred (Allowed ba)
  | .write _ => inferInstanceAs (Decidable True)
  | .read n => inferInstanceAs (Decidable (1 ≤ n))
  | .setPosition v => inferInstanceAs (Decidable (v ≤ ba.getSize))
  | .clear => inferInstanceAs (Decidable True)

def machine : Machine ByteArray Op Out := ⟨step, Allowed⟩

instance (ba : ByteArray) (o : Op) : Decidable (machine.ok ba o) :=
  inferInstanceAs (Decidable (Allowed ba o))

end ByteArray

end Sylar
