import Sylar.Spec.HashTable

/-! `Dict` of `DataStructure/dict.h`: a table whose nodes hold an array. In memory a node
points to its values, on a stream it has their offset in one array of all values. Who
owns the memory of an array, which `m_values` and `inValues` are for, is left out. -/

namespace Sylar

open Lib

/-- An array as a node can hold it: `Node::size` is an `int`. A longer array is refused by
`new V[node.size]` or leaves a negative size. -/
def nodeArray {V : Type} (v : List V) : Except Fault (List V) :=
  if v.length < 2 ^ 31 then .ok v else .error .undefined

/-- A `Node` as it is written: `val` is an offset. -/
structure Stored (K : Type) where
  key : K
  size : BitVec 32
  val : BitVec 64
deriving DecidableEq

namespace Stored

variable {K V : Type}

/-- The loop of `writeTo`: the values of `n` go to the end of `vs`, and `n` to `ns`. -/
def collect (acc : List V × List (Stored K)) (n : K × List V) : List V × List (Stored K) :=
  let offset := acc.1.length
  (acc.1 ++ n.2, acc.2 ++ [⟨n.1, BitVec.ofNat 32 n.2.length, BitVec.ofNat 64 offset⟩])

/-- `n.val = &vs[0] + (uint64_t)n.val`, with the values that `n.val` and `n.size` then
stand for. -/
def rebase (vs : List V) (n : Stored K) : Except Fault (K × List V) :=
  let offset := n.val.toNat
  if 0 ≤ n.size.toInt ∧ offset + n.size.toNat ≤ vs.length then
    .ok (n.key, (vs.drop offset).take n.size.toNat)
  else .error .outOfBounds

end Stored

/-- The layouts of a value and of a node, the turns of throttled streams, and for how many bytes
memory can be had. -/
structure Format (K V : Type) where
  rate : ℕ → ℕ
  allocates : ℕ → Bool
  value : Pod V
  node : Pod (Stored K)

namespace Format

variable {K V : Type} (F : Format K V)

def writeArrays (os : List UInt8) (arrays : List V × List (Stored K)) (speed : ℕ) : List UInt8 :=
  let os := writeBlock F.rate os (F.value.bytes arrays.1) speed
  writeBlock F.rate os (F.node.bytes arrays.2) speed

def readArrays (is : IStream) (speed : ℕ) :
    Except Fault (Option (List V × List (Stored K)) × IStream) := do
  let (vs, is) ← readBlock F.rate F.value F.allocates is speed
  match vs with
  | none => .ok (none, is)
  | some vs => do
      let (ns, is) ← readBlock F.rate F.node F.allocates is speed
      match ns with
      | none => .ok (none, is)
      | some ns => .ok (some (vs, ns), is)

end Format

abbrev Dict (K V : Type) := Table K (List V)

namespace Dict

variable {K V : Type} [LinearOrder K] (posHash : K → ℕ)

def get (d : Dict K V) (k : K) : Except Fault (Option (List V)) := d.find posHash k

def exists_ (d : Dict K V) (k : K) : Except Fault Bool := do
  let v ← d.find posHash k
  .ok v.isSome

/-- `insert(k, v, size)`, where `v` is the `size` values. A new array takes the place of
an old one, in the same memory if their sizes agree. -/
def insert (load : ℕ → ℕ → Bool) (d : Dict K V) (k : K) (v : List V) :
    Except Fault (Bool × Dict K V) :=
  if v.length = 0 then .ok (true, d)
  else do
    let d ← d.rehashIfNeeded posHash load
    let v ← nodeArray v
    let (_, d) ← d.upsert posHash k fun _ => v
    .ok (true, d)

def del (d : Dict K V) (k : K) : Except Fault (Bool × Dict K V) := do
  let (old, d) ← d.erase posHash k
  .ok (old.isSome, d)

def writeTo (F : Format K V) (d : Dict K V) (os : List UInt8) (speed : ℕ) : Bool × List UInt8 :=
  let os := os ++ leBytes 8 d.m_size
  (true, F.writeArrays os (d.nodes.foldl Stored.collect ([], [])) speed)

def readFrom (F : Format K V) (d : Dict K V) (is : IStream) (speed : ℕ) :
    Except Fault (Bool × Dict K V × IStream) :=
  let (ok, d, is) := d.readSize is
  if !ok then .ok (false, d, is)
  else do
    let (arrays, is) ← F.readArrays is speed
    match arrays with
    | none => .ok (false, d, is)
    | some (vs, ns) => do
        let (ok, d) ← d.rebuild posHash F.allocates ns.length (ns.mapM (Stored.rebase vs))
        .ok (ok, d, is)

end Dict

end Sylar
