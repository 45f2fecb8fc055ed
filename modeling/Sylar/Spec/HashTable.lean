import Sylar.Spec.Stream
import Sylar.Lib.Search
import Mathlib.Data.List.Sort

/-! What `HashMap`, `Dict` and `HashMultimap` of `DataStructure/` have in common, with
the helpers of `DataStructure/util.h`: an array of buckets, each a vector of nodes that
is kept sorted by key. A node is its key and what is stored under it. `posHash` is the
hash function of the container. -/

namespace Sylar

open Lib

/-- `basket`. The logarithm of zero and the absolute value of the least `int` have no
meaning as an `int`. -/
def basket (n : ℤ) : Except Fault ℕ :=
  if n = 0 ∨ n = -2 ^ 31 then .error .undefined
  else .ok (1 <<< min (Nat.log 2 n.natAbs + 1) 30)

def toInt (n : ℕ) : ℤ := Int.bmod n (2 ^ 32)

section

variable {α : Type}

/-- `BinarySearch` for `v`, where `below x` is `x < v` and `above x` is `v < x`; `none`
is `end`. -/
def binarySearch (below above : α → Bool) (l : List α) : Option ℕ :=
  let tmp := lowerBound below l
  match l[tmp]? with
  | none => none
  | some x => if above x then none else some tmp

/-- The loop of `SortLast`, with `i + 1` turns left. -/
def sortLastLoop (lt : α → α → Bool) : ℕ → List α → List α
  | 0, data => data
  | i + 1, data =>
      match data[i]?, data[i + 1]? with
      | some x, some y =>
          if lt y x then sortLastLoop lt i ((data.set i y).set (i + 1) x) else data
      | _, _ => data

/-- `SortLast(data, size)`; `size` is an `int`. -/
def sortLast (lt : α → α → Bool) (data : List α) : List α :=
  if toInt data.length ≤ 1 then data else sortLastLoop lt (data.length - 1) data

def swapRemove (l : List α) (i : ℕ) : List α :=
  let l :=
    if l.length > 1 then
      match l[i]?, l.getLast? with
      | some x, some y => (l.set i y).set (l.length - 1) x
      | _, _ => l
    else l
  l.dropLast

end

structure Table (K P : Type) where
  m_size : ℕ
  m_total : ℕ
  m_datas : List (List (K × P))

namespace Table

variable {K P : Type} [LinearOrder K]

def nodeLt (a b : K × P) : Bool := a.1 < b.1

/-- `BinarySearch` for `Node(k)` in a bucket. -/
def search (b : List (K × P)) (k : K) : Option ℕ :=
  binarySearch (fun n => decide (n.1 < k)) (fun n => decide (k < n.1)) b

def sortNodes (b : List (K × P)) : List (K × P) := b.insertionSort fun a b => a.1 ≤ b.1

def new (size : ℕ) : Except Fault (Table K P) := do
  let m_size ← basket (toInt size)
  .ok ⟨m_size, 0, List.replicate m_size []⟩

def getTotal (m : Table K P) : ℕ := m.m_total

def nodes (m : Table K P) : List (K × P) := m.m_datas.flatten

section

variable (posHash : K → ℕ)

/-- `hashvalue % m_size`, where `hashvalue` is a `uint32_t`, and the bucket there. -/
def bucketOf (m : Table K P) (k : K) : Except Fault (ℕ × List (K × P)) :=
  if m.m_size = 0 then .error .undefined
  else
    let pos := posHash k % 2 ^ 32 % m.m_size
    match m.m_datas[pos]? with
    | none => .error .outOfBounds
    | some b => .ok (pos, b)

def nodeAt (b : List (K × P)) (it : ℕ) : Except Fault (K × P) :=
  match b[it]? with
  | none => .error .outOfBounds
  | some n => .ok n

/-- What is stored under `k`: the search of `get` and `exists`. -/
def find (m : Table K P) (k : K) : Except Fault (Option P) := do
  let (_, b) ← bucketOf posHash m k
  match search b k with
  | none => .ok none
  | some it => do
      let n ← nodeAt b it
      .ok (some n.2)

/-- Store `f` of what is stored under `k`: a new node goes to the end of its bucket and
is sorted in. Returns what was stored. -/
def upsert (m : Table K P) (k : K) (f : Option P → P) : Except Fault (Option P × Table K P) := do
  let (pos, b) ← bucketOf posHash m k
  match search b k with
  | none =>
      .ok (none, { m with
        m_datas := m.m_datas.set pos (sortLast nodeLt (b ++ [(k, f none)]))
        m_total := (m.m_total + 1) % 2 ^ 64 })
  | some it => do
      let n ← nodeAt b it
      .ok (some n.2, { m with m_datas := m.m_datas.set pos (b.set it (n.1, f (some n.2))) })

/-- `del(const K& k)`. Returns what was stored. -/
def erase (m : Table K P) (k : K) : Except Fault (Option P × Table K P) := do
  let (pos, b) ← bucketOf posHash m k
  match search b k with
  | none => .ok (none, m)
  | some it => do
      let n ← nodeAt b it
      .ok (some n.2, { m with
        m_datas := m.m_datas.set pos (sortNodes (swapRemove b it))
        m_total := (m.m_total + (2 ^ 64 - 1)) % 2 ^ 64 })

/-- Fill `size` new buckets with `ns`, in order, and sort each. -/
def distribute (size : ℕ) (ns : List (K × P)) : List (List (K × P)) :=
  (ns.foldl (fun datas n => datas.modify (posHash n.1 % size) (· ++ [n]))
    (List.replicate size [])).map sortNodes

def rehashUnlock (m : Table K P) : Except Fault (Table K P) := do
  let size ← basket (toInt m.m_total)
  if size = m.m_size then .ok m
  else .ok { m with m_size := size, m_datas := distribute posHash size m.nodes }

/-- `getRate() > 16`. The quotient is a `float`; `load` is the test on the total and the
size, which an empty container never meets. -/
def needRehash (load : ℕ → ℕ → Bool) (m : Table K P) : Bool :=
  m.m_total ≠ 0 && load m.m_total m.m_size

def rehash (load : ℕ → ℕ → Bool) (m : Table K P) : Except Fault (Table K P) :=
  if needRehash load m then rehashUnlock posHash m else .ok m

/-- `if(needRehash()) rehash();`, with which every insertion starts. -/
def rehashIfNeeded (load : ℕ → ℕ → Bool) (m : Table K P) : Except Fault (Table K P) :=
  if needRehash load m then rehash posHash load m else .ok m

/-- How `readFrom` starts: the buckets are freed and `m_size` is read. A read that comes
up short has changed the first bytes of `m_size`. -/
def readSize (m : Table K P) (is : IStream) : Bool × Table K P × IStream :=
  let (ok, field, is) := readFixFromStream is 8
  let m_size := leNat (field ++ (leBytes 8 m.m_size).drop field.length)
  (ok, { m with m_size := m_size, m_datas := [] }, is)

/-- How `readFrom` ends, on the nodes it has read: `m_size` new buckets, each a vector of
24 bytes, are filled. -/
def rebuild (allocates : ℕ → Bool) (m : Table K P) (total : ℕ)
    (load : Except Fault (List (K × P))) : Except Fault (Bool × Table K P) :=
  let m := { m with m_total := total }
  if allocates (24 * m.m_size) then do
    let ns ← load
    if m.m_size = 0 ∧ ns.length ≠ 0 then .error .undefined
    else .ok (true, { m with m_datas := distribute posHash m.m_size ns })
  else .ok (false, m)

end

end Table

end Sylar
