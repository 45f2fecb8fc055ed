import Sylar.Spec.Dict

/-! `HashMultimap` of `DataStructure/hash_multimap.h`: a table whose nodes hold a sorted
array, and a count of all values. A function finds the node of its key once; here the node
is found again where it is written. -/

namespace Sylar

open Lib

structure HashMultimap (K V : Type) where
  table : Table K (List V)
  m_elements : ℕ

namespace HashMultimap

variable {K V : Type} [LinearOrder K] [LinearOrder V]

/-- `BinarySearch` for `v` in the array of a node. -/
def searchValue (vals : List V) (v : V) : Option ℕ :=
  binarySearch (fun x => decide (x < v)) (fun x => decide (v < x)) vals

def sortValues (vals : List V) : List V := vals.insertionSort fun a b => a ≤ b

def new (size : ℕ) : Except Fault (HashMultimap K V) := do
  let t ← Table.new size
  .ok ⟨t, 0⟩

def getTotal (m : HashMultimap K V) : ℕ := m.table.m_total
def getElements (m : HashMultimap K V) : ℕ := m.m_elements

/-- One turn of the loop of `insert(k, v, size)`: `acc` is the array of the node and the
`std::set` of the values that are not in it. -/
def absorb (acc : List V × List V) (x : V) : List V × List V :=
  match searchValue acc.1 x with
  | none => (acc.1, if x ∈ acc.2 then acc.2 else acc.2.orderedInsert (· ≤ ·) x)
  | some i => (acc.1.set i x, acc.2)

/-- The loop of `wforeach` over a bucket, as long as the callback says so. `cb k vals` is
what it says and what it writes to the start of the array. -/
def visit (cb : K → List V → Bool × List V) :
    Bool → List (K × List V) → Bool × List (K × List V)
  | go, [] => (go, [])
  | false, b => (false, b)
  | true, n :: b =>
      let (go, w) := cb n.1 n.2
      let (go, b) := visit cb go b
      (go, (n.1, w.take n.2.length ++ n.2.drop w.length) :: b)

def visitAll (cb : K → List V → Bool × List V) :
    Bool → List (List (K × List V)) → List (List (K × List V))
  | _, [] => []
  | go, b :: bs =>
      let (go, b) := visit cb go b
      b :: visitAll cb go bs

def wforeach (cb : K → List V → Bool × List V) (m : HashMultimap K V) : HashMultimap K V :=
  { m with table := { m.table with m_datas := visitAll cb true m.table.m_datas } }

section

variable (posHash : K → ℕ)

def get (m : HashMultimap K V) (k : K) : Except Fault (Option (List V)) := m.table.find posHash k

def exists_ (m : HashMultimap K V) (k : K) : Except Fault Bool := do
  let vals ← m.table.find posHash k
  .ok vals.isSome

def existsValue (m : HashMultimap K V) (k : K) (v : V) : Except Fault Bool := do
  match ← m.table.find posHash k with
  | none => .ok false
  | some vals => .ok (searchValue vals v).isSome

/-- `get(k, v)`: the stored value that equals `v`. -/
def getValue (m : HashMultimap K V) (k : K) (v : V) : Except Fault (Option V) := do
  match ← m.table.find posHash k with
  | none => .ok none
  | some vals =>
      match searchValue vals v with
      | none => .ok none
      | some i => .ok vals[i]?

def store (t : Table K (List V)) (k : K) (vals : List V) : Except Fault (Table K (List V)) := do
  let vals ← nodeArray vals
  let (_, t) ← t.upsert posHash k fun _ => vals
  .ok t

def insert (load : ℕ → ℕ → Bool) (m : HashMultimap K V) (k : K) (v : V) :
    Except Fault (Bool × HashMultimap K V) := do
  let t ← m.table.rehashIfNeeded posHash load
  match ← t.find posHash k with
  | none => do
      let t ← store posHash t k [v]
      .ok (true, ⟨t, (m.m_elements + 1) % 2 ^ 64⟩)
  | some vals =>
      match searchValue vals v with
      | some i => do
          let t ← store posHash t k (vals.set i v)
          .ok (true, ⟨t, m.m_elements⟩)
      | none => do
          let t ← store posHash t k (sortLast (fun a b => decide (a < b)) (vals ++ [v]))
          .ok (true, ⟨t, (m.m_elements + 1) % 2 ^ 64⟩)

/-- `insert(k, v, size)`, where `v` is the `size` values. -/
def insertAll (load : ℕ → ℕ → Bool) (m : HashMultimap K V) (k : K) (v : List V) :
    Except Fault (Bool × HashMultimap K V) := do
  let t ← m.table.rehashIfNeeded posHash load
  match ← t.find posHash k with
  | none => do
      let t ← store posHash t k (sortValues v)
      .ok (true, ⟨t, (m.m_elements + v.length) % 2 ^ 64⟩)
  | some vals => do
      let (vals, news) := v.foldl absorb (vals, [])
      let t ← store posHash t k (sortValues (vals ++ news))
      .ok (true, ⟨t, (m.m_elements + news.length) % 2 ^ 64⟩)

/-- `set(k, v, size)`. The count grows by `size` also where an array is replaced. -/
def set (load : ℕ → ℕ → Bool) (m : HashMultimap K V) (k : K) (v : List V) :
    Except Fault (Bool × HashMultimap K V) := do
  let t ← m.table.rehashIfNeeded posHash load
  let t ← store posHash t k (sortValues v)
  .ok (true, ⟨t, (m.m_elements + v.length) % 2 ^ 64⟩)

def del (m : HashMultimap K V) (k : K) : Except Fault (Bool × HashMultimap K V) := do
  let (old, t) ← m.table.erase posHash k
  match old with
  | none => .ok (false, m)
  | some vals => .ok (true, ⟨t, (m.m_elements + (2 ^ 64 - vals.length)) % 2 ^ 64⟩)

/-- `del(k, v)`. The second `memcpy` starts at `it + 1`, which is behind the node and not
behind the value, and writes to the start of the array; `behind` is the memory it reads,
as values. The count is not changed there. `it + 1` is read as a pointer to a node: where the
iterators of `std::vector` are a class, as in libstdc++, the line does not compile as written. -/
def delValue [Inhabited V] (behind : ℕ → V) (m : HashMultimap K V) (k : K) (v : V) :
    Except Fault (Bool × HashMultimap K V) := do
  match ← m.table.find posHash k with
  | none => .ok (false, m)
  | some vals =>
      match searchValue vals v with
      | none => .ok (false, m)
      | some i =>
          if vals.length = 1 then do
            let (_, t) ← m.table.erase posHash k
            .ok (true, ⟨t, (m.m_elements + (2 ^ 64 - 1)) % 2 ^ 64⟩)
          else do
            let datas := List.replicate (vals.length - 1) default
            let datas := vals.take i ++ datas.drop i
            let junk := (List.range (vals.length - i - 1)).map behind
            let datas := junk ++ datas.drop junk.length
            let t ← store posHash m.table k datas
            .ok (true, ⟨t, m.m_elements⟩)

def rehash (load : ℕ → ℕ → Bool) (m : HashMultimap K V) : Except Fault (HashMultimap K V) := do
  let t ← m.table.rehash posHash load
  .ok { m with table := t }

def writeTo (F : Format K V) (m : HashMultimap K V) (os : List UInt8) (speed : ℕ) :
    Bool × List UInt8 :=
  let os := os ++ leBytes 8 m.table.m_size
  let arrays := m.table.nodes.foldl
    (fun acc n => if n.2.length = 0 then acc else Stored.collect acc n) ([], [])
  (true, F.writeArrays os arrays speed)

def addSize (m_elements : ℕ) (n : Stored K) : ℕ :=
  ((m_elements + n.size.toInt) % 2 ^ 64).toNat

def readFrom (F : Format K V) (m : HashMultimap K V) (is : IStream) (speed : ℕ) :
    Except Fault (Bool × HashMultimap K V × IStream) :=
  let (ok, t, is) := m.table.readSize is
  if !ok then .ok (false, { m with table := t }, is)
  else do
    let (arrays, is) ← F.readArrays is speed
    match arrays with
    | none => .ok (false, { m with table := t }, is)
    | some (vs, ns) => do
        let (ok, t) ← t.rebuild posHash F.allocates ns.length (ns.mapM (Stored.rebase vs))
        .ok (ok, ⟨t, if ok then ns.foldl addSize 0 else 0⟩, is)

end

end HashMultimap

end Sylar
