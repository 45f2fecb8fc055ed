import Sylar.Spec.Stream

/-! `Array` of `DataStructure/array.h`, and `BinarySearch` of `util.h`. The block of an array
is the list of the elements it has room for. Indices are `int64_t` and sizes `uint64_t`; both
stay far below `2 ^ 62`, since the elements are in memory. -/

namespace Sylar

open Lib

structure Array (T : Type) where
  m_size : ℕ
  m_data : List T
deriving DecidableEq

def readAt {T : Type} (data : List T) (idx : ℤ) : Except Fault T :=
  match if 0 ≤ idx then data[idx.toNat]? else none with
  | none => .error .outOfBounds
  | some x => .ok x

/-- A search between `begin` and `end`, for at most `turns` turns; `none` when it is not over
by then. `half` is the middle of two bounds, and `goLeft m end` the new `end` where `v` is
less than the element at `m`. -/
def searchLoop {T : Type} (lt : T → T → Bool) (half : ℤ → ℤ → Except Fault ℤ)
    (goLeft : ℤ → ℤ → ℤ) (data : List T) (v : T) : ℕ → ℤ → ℤ → Except Fault (Option ℤ)
  | 0, _, _ => .ok none
  | turns + 1, first, last =>
      if first ≤ last then do
        let m ← half first last
        let x ← readAt data m
        if lt v x then searchLoop lt half goLeft data v turns first (goLeft m last)
        else if lt x v then searchLoop lt half goLeft data v turns (m + 1) last
        else .ok (some m)
      else .ok (some (-first - 1))

def middle (first last : ℤ) : Except Fault ℤ := .ok ((first + last).tdiv 2)

/-- `realloc`, for `n` elements. `fresh` is what is in the memory behind the block. -/
def realloc {T : Type} (fresh : ℕ → T) (data : List T) (n : ℕ) : List T :=
  data.take n ++ (List.range (n - data.length)).map fresh

/-- `memmove` inside a block. A length below zero is, as a `size_t`, beyond every block. -/
def memmove {T : Type} (data : List T) (dst src n : ℤ) : Except Fault (List T) :=
  if 0 ≤ dst ∧ 0 ≤ src ∧ 0 ≤ n ∧ src + n ≤ data.length ∧ dst + n ≤ data.length then
    .ok (data.take dst.toNat ++ (data.drop src.toNat).take n.toNat ++ data.drop (dst + n).toNat)
  else .error .outOfBounds

def assignAt {T : Type} (data : List T) (idx : ℤ) (v : T) : Except Fault (List T) :=
  if 0 ≤ idx ∧ idx < data.length then .ok (data.set idx.toNat v) else .error .outOfBounds

namespace Array

variable {T : Type}

def new : Array T := ⟨0, []⟩

def get (a : Array T) (idx : ℕ) : Except Fault T :=
  match a.m_data[idx]? with
  | none => .error .outOfBounds
  | some x => .ok x

/-- `exists(v, cmp)`. What should become the new `end` is only compared with it. -/
def existsCmp (a : Array T) (v : T) (cmp : T → T → Bool) (turns : ℕ) :
    Except Fault (Option ℤ) :=
  searchLoop cmp middle (fun _ last => last) a.m_data v turns 0 (a.m_size - 1)

def insertAt (fresh : ℕ → T) (a : Array T) (idx : ℤ) (v : T) : Except Fault (Bool × Array T) := do
  let m_data := realloc fresh a.m_data (a.m_size + 1)
  let idx := -idx - 1
  let m_data ← memmove m_data (idx + 1) idx (a.m_size - idx)
  let m_data ← assignAt m_data idx v
  .ok (true, ⟨a.m_size + 1, m_data⟩)

/-- How `insert` goes on from what the search returned. -/
def insertFound (fresh : ℕ → T) (a : Array T) (idx : ℤ) (v : T) :
    Except Fault (Bool × Array T) :=
  if 0 ≤ idx then do
    let m_data ← assignAt a.m_data idx v
    .ok (false, { a with m_data := m_data })
  else a.insertAt fresh idx v

/-- `insert(v, cmp)`, with `none` as in `existsCmp`. -/
def insertCmp (fresh : ℕ → T) (a : Array T) (v : T) (cmp : T → T → Bool) (turns : ℕ) :
    Except Fault (Option (Bool × Array T)) := do
  match ← a.existsCmp v cmp turns with
  | none => .ok none
  | some idx => do
      let r ← a.insertFound fresh idx v
      .ok (some r)

def erase (a : Array T) (idx : ℤ) : Except Fault (Bool × Array T) := do
  let size : ℤ := a.m_size - 1
  let m_data ← memmove a.m_data idx (idx + 1) (size - idx)
  -- nothing behind the block is read, as it only shrinks
  .ok (true, ⟨size.toNat, m_data.take size.toNat⟩)

section

variable [LT T] [DecidableLT T]

/-- `exists(v)`, with turns enough for every block. -/
def exists_ (a : Array T) (v : T) : Except Fault ℤ := do
  match ← searchLoop (fun x y => x < y) middle (fun m _ => m - 1) a.m_data v (a.m_size + 1) 0
    (a.m_size - 1) with
  | none => .error .undefined
  | some idx => .ok idx

def insert (fresh : ℕ → T) (a : Array T) (v : T) : Except Fault (Bool × Array T) := do
  let idx ← a.exists_ v
  a.insertFound fresh idx v

end

/-- `writeTo(os, speed)`, where `elem` is the layout of an element. -/
def writeTo (rate : ℕ → ℕ) (elem : Pod T) (a : Array T) (os : List UInt8) (speed : ℕ) :
    Except Fault (Bool × List UInt8) :=
  let os := os ++ leBytes 8 a.m_size
  let data := elem.bytes (a.m_data.take a.m_size)
  if a.m_data.length < a.m_size then .error .outOfBounds
  else if speed = unlimited then .ok (true, os ++ data)
  else .ok (true, writeFixToStreamWithSpeed rate os data speed)

/-- `readFrom(is, speed)`. A block that cannot be had leaves a null pointer; what is then read
into it ends the program. -/
def readFrom (rate : ℕ → ℕ) (elem : Pod T) (allocates : ℕ → Bool) (fresh : ℕ → T) (a : Array T)
    (is : IStream) (speed : ℕ) : Except Fault (Bool × Array T × IStream) :=
  let (ok, field, is) := readFixFromStream is 8
  let m_size := leNat (field ++ (leBytes 8 a.m_size).drop field.length)
  if !ok then .ok (false, { a with m_size := m_size }, is)
  else
    let size := m_size * elem.size % 2 ^ 64
    let m_data := if allocates size then realloc fresh a.m_data (size / elem.size) else []
    let (ok, data, is) :=
      if speed = unlimited then readFixFromStream is size
      else readFixFromStreamWithSpeed rate is size speed
    if !allocates size && 0 < data.length then .error .nullDeref
    else
      let bytes := data ++ (elem.bytes m_data).drop data.length
      .ok (ok, ⟨m_size, elem.items m_data.length bytes⟩, is)

end Array

/-- `(begin + end) / 2` of two `int`: a sum that is no `int` has no meaning. -/
def Util.middle (first last : ℤ) : Except Fault ℤ :=
  if first + last < 2 ^ 31 then .ok ((first + last).tdiv 2) else .error .undefined

def Util.binarySearch {T : Type} [LT T] [DecidableLT T] (arr : List T) (length : ℕ) (v : T) :
    Except Fault ℤ := do
  match ← searchLoop (fun x y => x < y) Util.middle (fun m _ => m - 1) arr v (length + 1) 0
    (length - 1) with
  | none => .error .undefined
  | some idx => .ok idx

end Sylar
