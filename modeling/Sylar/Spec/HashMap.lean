import Sylar.Spec.HashTable

/-! `HashMap` of `DataStructure/hash_map.h`: a table whose nodes hold one value. -/

namespace Sylar

open Lib

abbrev HashMap (K V : Type) := Table K V

namespace HashMap

variable {K V : Type} [LinearOrder K] (posHash : K → ℕ)

def get (m : HashMap K V) (k : K) : Except Fault (Option V) := m.find posHash k

def exists_ (m : HashMap K V) (k : K) : Except Fault Bool := do
  let v ← m.find posHash k
  .ok v.isSome

def set (load : ℕ → ℕ → Bool) (m : HashMap K V) (k : K) (v : V) :
    Except Fault (Bool × HashMap K V) := do
  let m ← m.rehashIfNeeded posHash load
  let (old, m) ← m.upsert posHash k fun _ => v
  .ok (old.isNone, m)

def del (m : HashMap K V) (k : K) : Except Fault (Bool × HashMap K V) := do
  let (old, m) ← m.erase posHash k
  .ok (old.isSome, m)

def clear (_ : HashMap K V) : HashMap K V := ⟨0, 0, []⟩

/-- The loop over a bucket: `n` is a copy of the node. Returns whether to go on. -/
def visitCopies {S : Type} (cb : S → K → V → S × Bool) : S → List (K × V) → S × Bool
  | s, [] => (s, true)
  | s, n :: b =>
      let (s, go) := cb s n.1 n.2
      if go then visitCopies cb s b else (s, false)

def visitBuckets {S : Type} (cb : S → K → V → S × Bool) :
    ℕ → S → List (List (K × V)) → Except Fault S
  | 0, s, _ => .ok s
  | _ + 1, _, [] => .error .outOfBounds
  | size + 1, s, b :: datas =>
      let (s, go) := visitCopies cb s b
      if go then visitBuckets cb size s datas else .ok s

/-- `wforeach`. What the callback works on besides its arguments is the `S`; the value it
leaves in `V&` is that of the copy. -/
def wforeach {S : Type} (cb : S → K → V → S × Bool × V) (s : S) (m : HashMap K V) :
    Except Fault (S × HashMap K V) := do
  let s ← visitBuckets (fun s k v => ((cb s k v).1, (cb s k v).2.1)) m.m_size s m.m_datas
  .ok (s, m)

def swap (m oth : HashMap K V) : HashMap K V × HashMap K V := (oth, m)

/-- The loop of `merge` over what it collected from the other map. -/
def setAll (load : ℕ → ℕ → Bool) : HashMap K V → List (K × V) → Except Fault (HashMap K V)
  | m, [] => .ok m
  | m, i :: tmp => do
      let (_, m) ← set posHash load m i.1 i.2
      setAll load m tmp

def merge (load : ℕ → ℕ → Bool) (m oth : HashMap K V) : Except Fault (HashMap K V) :=
  setAll posHash load m oth.nodes

section

variable (rate : ℕ → ℕ) (node : Pod (K × V))

/-- `writeTo(os, speed)`, where `node` is the layout of a node. -/
def writeTo (m : HashMap K V) (os : List UInt8) (speed : ℕ) : Bool × List UInt8 :=
  let os := os ++ leBytes 8 m.m_size
  let ns := m.nodes
  (true, writeBlock rate os (node.bytes ns) speed)

def readFrom (allocates : ℕ → Bool) (m : HashMap K V) (is : IStream) (speed : ℕ) :
    Except Fault (Bool × HashMap K V × IStream) :=
  let (ok, m, is) := m.readSize is
  if !ok then .ok (false, m, is)
  else do
    let (ns, is) ← readBlock rate node allocates is speed
    match ns with
    | none => .ok (false, m, is)
    | some ns => do
        let (ok, m) ← m.rebuild posHash allocates ns.length (.ok ns)
        .ok (ok, m, is)

end

end HashMap

end Sylar
