import Sylar.Spec.Bitmap

/-! Where the bits of an uncompressed `Bitmap` are: `foreach`, `listPosAsc`, `rforeach`, the
iterators, and `getCount`. The loops over words skip those without bits, four at a time where
they can. -/

namespace Sylar

namespace Bitmap

section Visit

variable {σ : Type} (cb : ℕ → σ → Bool × σ) (size : ℕ)

/-- `for(; n < VALUE_SIZE && cur_pos < m_size; ++n, ++cur_pos)` with `turns` turns, which calls
`cb` where a bit is set. What it comes to: whether `cb` has never said to stop, and `cur_pos`. -/
def visitBits (tmp : Word) : ℕ → ℕ → ℕ → σ → Bool × ℕ × σ
  | 0, _, cur_pos, s => (true, cur_pos, s)
  | turns + 1, n, cur_pos, s =>
      if cur_pos < size then
        if tmp &&& POS n ≠ 0#16 then
          let r := cb cur_pos s
          if r.1 then visitBits tmp turns (n + 1) (cur_pos + 1) r.2 else (false, cur_pos, r.2)
        else visitBits tmp turns (n + 1) (cur_pos + 1) s
      else (true, cur_pos, s)

def visitWords : List Word → ℕ → σ → Bool × ℕ × σ
  | [], cur_pos, s => (true, cur_pos, s)
  | tmp :: ws, cur_pos, s =>
      let r := visitBits cb size tmp VALUE_SIZE 0 cur_pos s
      if r.1 then visitWords ws r.2.1 r.2.2 else r

def visitTail : List Word → ℕ → σ → σ
  | [], _, s => s
  | tmp :: ws, cur_pos, s =>
      if tmp = 0#16 then visitTail ws ((cur_pos + VALUE_SIZE) % 2 ^ 32) s
      else
        let r := visitBits cb size tmp VALUE_SIZE 0 cur_pos s
        if r.1 then visitTail ws r.2.1 r.2.2 else r.2.2

def visitGroups : ℕ → List Word → ℕ → σ → Except Fault σ
  | 0, ws, cur_pos, s => .ok (visitTail cb size ws cur_pos s)
  | n + 1, w₀ :: w₁ :: w₂ :: w₃ :: ws, cur_pos, s =>
      if pack w₀ w₁ w₂ w₃ = 0#64 then visitGroups n ws ((cur_pos + U64_VALUE_SIZE) % 2 ^ 32) s
      else
        let r := visitWords cb size [w₀, w₁, w₂, w₃] cur_pos s
        if r.1 then visitGroups n ws r.2.1 r.2.2 else .ok r.2.2
  | _ + 1, _, _, _ => .error .outOfBounds

end Visit

/-- `foreach`, with a callback that has a state. -/
def foreach {σ : Type} (b : Bitmap) (cb : ℕ → σ → Bool × σ) (s : σ) : Except Fault σ :=
  visitGroups cb b.m_size (b.m_size / U64_VALUE_SIZE) b.m_data 0 s

/-- `listPosAsc`, which has the same loops with `pos.push_back(cur_pos)` in them. -/
def listPosAsc (b : Bitmap) (pos : List ℕ) : Except Fault (List ℕ) :=
  visitGroups (fun cur_pos pos => (true, pos ++ [cur_pos])) b.m_size (b.m_size / U64_VALUE_SIZE)
    b.m_data 0 pos

def down (cur_pos n : ℕ) : ℕ := (cur_pos + (2 ^ 32 - n)) % 2 ^ 32

section Descend

variable {σ : Type} (cb : ℕ → σ → Bool × σ)

def rvisitBits (tmp : Word) : ℕ → ℕ → σ → Bool × ℕ × σ
  | 0, cur_pos, s => (true, cur_pos, s)
  | turns + 1, cur_pos, s =>
      if tmp &&& POS turns ≠ 0#16 then
        let r := cb cur_pos s
        if r.1 then rvisitBits tmp turns (down cur_pos 1) r.2 else (false, cur_pos, r.2)
      else rvisitBits tmp turns (down cur_pos 1) s

def rvisitStart (size : ℕ) (tmp : Word) (cur_pos : ℕ) (s : σ) : Bool × ℕ × σ :=
  if tmp = 0#16 then
    if size % VALUE_SIZE = 0 then (true, down cur_pos VALUE_SIZE, s)
    else (true, down cur_pos (size % VALUE_SIZE), s)
  else if size % VALUE_SIZE = 0 then rvisitBits cb tmp VALUE_SIZE cur_pos s
  else rvisitBits cb tmp (size % VALUE_SIZE + 1) ((cur_pos + 1) % 2 ^ 32) s

def rvisitTail : List Word → ℕ → σ → Bool × ℕ × σ
  | [], cur_pos, s => (true, cur_pos, s)
  | tmp :: ws, cur_pos, s =>
      if tmp = 0#16 then rvisitTail ws (down cur_pos VALUE_SIZE) s
      else
        let r := rvisitBits cb tmp VALUE_SIZE cur_pos s
        if r.1 then rvisitTail ws r.2.1 r.2.2 else r

def rvisitWords : List Word → ℕ → σ → Bool × ℕ × σ
  | [], cur_pos, s => (true, cur_pos, s)
  | tmp :: ws, cur_pos, s =>
      let r := rvisitBits cb tmp VALUE_SIZE cur_pos s
      if r.1 then rvisitWords ws r.2.1 r.2.2 else r

def rvisitGroups (data : List Word) : ℕ → ℕ → σ → Except Fault σ
  | 0, _, s => .ok s
  | i + 1, cur_pos, s =>
      match data.drop (i * U64_DIV_BASE) with
      | w₀ :: w₁ :: w₂ :: w₃ :: _ =>
          if pack w₀ w₁ w₂ w₃ = 0#64 then rvisitGroups data i (down cur_pos U64_VALUE_SIZE) s
          else
            let r := rvisitWords cb [w₃, w₂, w₁, w₀] cur_pos s
            if r.1 then rvisitGroups data i r.2.1 r.2.2 else .ok r.2.2
      | _ => .error .outOfBounds

end Descend

/-- `rforeach`. The words outside of the groups are those behind them. -/
def rforeach {σ : Type} (b : Bitmap) (cb : ℕ → σ → Bool × σ) (s : σ) : Except Fault σ :=
  let max_size := b.m_size / U64_VALUE_SIZE
  let cur_pos := down b.m_size 1
  if b.m_size % U64_VALUE_SIZE ≠ 0 then
    match (b.m_data.drop (max_size * U64_DIV_BASE)).reverse with
    | [] => rvisitGroups cb b.m_data max_size cur_pos s
    | start :: ws =>
        let r := rvisitStart cb b.m_size start cur_pos s
        if r.1 then
          let r := rvisitTail cb ws r.2.1 r.2.2
          if r.1 then rvisitGroups cb b.m_data max_size r.2.1 r.2.2 else .ok r.2.2
        else .ok r.2.2
  else rvisitGroups cb b.m_data max_size cur_pos s

def toInt32 (x : ℤ) : ℤ := x.bmod (2 ^ 32)

def toUInt32 (x : ℤ) : ℕ := (x % 2 ^ 32).toNat

/-- What `iterator` and `iterator_reverse` have in common. -/
structure iterator_base where
  m_pos : ℤ
  m_size : ℤ
  m_data : List Word

namespace iterator_base

/-- `operator!`, which says that there is a position. -/
def valid (it : iterator_base) : Bool := !(it.m_pos ≥ it.m_size || it.m_pos < 0)

def pos (it : iterator_base) : ℤ := it.m_pos

/-- Bits `i` and up of `v`, with `turns` turns: whether one is set, and `m_pos` then. -/
def bitsUp (v : Word) (m_size : ℤ) : ℕ → ℕ → ℤ → Bool × ℤ
  | 0, _, m_pos => (false, m_pos)
  | turns + 1, i, m_pos =>
      if m_pos < m_size then
        if v &&& POS i ≠ 0#16 then (true, m_pos) else bitsUp v m_size turns (i + 1) (m_pos + 1)
      else (false, m_pos)

def wordsUp (m_size : ℤ) : List Word → ℤ → ℤ
  | [], m_pos => m_pos
  | v :: ws, m_pos =>
      if m_pos < m_size then
        if v = 0#16 then wordsUp m_size ws (toInt32 (m_pos + VALUE_SIZE))
        else
          let r := bitsUp v m_size VALUE_SIZE 0 m_pos
          if r.1 then r.2 else wordsUp m_size ws r.2
      else m_pos

def next (it : iterator_base) : Except Fault iterator_base :=
  let m_pos := it.m_pos + 1
  let left := toUInt32 m_pos % VALUE_SIZE
  let rest (m_pos : ℤ) : iterator_base :=
    { it with m_pos := wordsUp it.m_size (it.m_data.drop (toUInt32 m_pos / VALUE_SIZE)) m_pos }
  if left ≠ 0 then
    match it.m_data[toUInt32 m_pos / VALUE_SIZE]? with
    | none => .error .outOfBounds
    | some v =>
        let r := bitsUp v it.m_size (VALUE_SIZE - left) left m_pos
        .ok (if r.1 then { it with m_pos := r.2 } else rest r.2)
  else .ok (rest m_pos)

def bitsDown (v : Word) : ℕ → ℤ → Bool × ℤ
  | 0, m_pos => (false, m_pos)
  | turns + 1, m_pos =>
      if 0 ≤ m_pos then
        if v &&& POS turns ≠ 0#16 then (true, m_pos) else bitsDown v turns (m_pos - 1)
      else (false, m_pos)

def wordsDown : List Word → ℤ → ℤ
  | [], m_pos => m_pos
  | v :: ws, m_pos =>
      if 0 ≤ m_pos then
        if v = 0#16 then wordsDown ws (toInt32 (m_pos - VALUE_SIZE))
        else
          let r := bitsDown v VALUE_SIZE m_pos
          if r.1 then r.2 else wordsDown ws r.2
      else m_pos

/-- The words up to the `n`-th, without it, from the last one down. -/
def below (it : iterator_base) (n : ℕ) : Except Fault (List Word) :=
  if n ≤ it.m_data.length then .ok (it.m_data.take n).reverse else .error .outOfBounds

def rnext (it : iterator_base) : Except Fault iterator_base :=
  if it.m_pos ≤ 0 then .ok { it with m_pos := -1 }
  else
    let m_pos := it.m_pos - 1
    let left := toUInt32 m_pos % VALUE_SIZE
    let pos := toUInt32 m_pos / VALUE_SIZE
    if left ≠ VALUE_SIZE - 1 then
      match it.m_data[pos]? with
      | none => .error .outOfBounds
      | some v =>
          let r := bitsDown v (left + 1) m_pos
          if r.1 then .ok { it with m_pos := r.2 }
          else do
            let ws ← it.below pos
            .ok { it with m_pos := wordsDown ws r.2 }
    else do
      let ws ← it.below (pos + 1)
      .ok { it with m_pos := wordsDown ws m_pos }

end iterator_base

def begin_ (b : Bitmap) : Except Fault iterator_base :=
  iterator_base.next ⟨-1, toInt32 b.m_size, b.m_data⟩

def rbegin (b : Bitmap) : Except Fault iterator_base :=
  iterator_base.rnext ⟨toInt32 b.m_size, toInt32 b.m_size, b.m_data⟩

/-- `for(; !it; it.next())`, with at most `turns` turns: the positions, when it has come to its
end. -/
def walk (next : iterator_base → Except Fault iterator_base) :
    ℕ → iterator_base → Except Fault (Option (List ℤ))
  | 0, it => .ok (if it.valid then none else some [])
  | turns + 1, it =>
      if it.valid then do
        let it' ← next it
        let rest ← walk next turns it'
        .ok (rest.map (it.pos :: ·))
      else .ok (some [])

/-- `__builtin_popcount` of an `unsigned int`. -/
def popcount (x : BitVec 32) : ℕ := (List.range 32).countP fun i => x.getLsbD i

def count_bits64 (x : BitVec 64) : ℕ :=
  popcount ((x &&& 0xFFFFFFFF#64).setWidth 32) + popcount ((x >>> 32).setWidth 32)

/-- `len` groups, then the words after them bit by bit. -/
def countGroups (size : ℕ) : ℕ → List Word → ℕ → ℕ → Except Fault ℕ
  | 0, ws, cur_pos, count =>
      .ok (visitTail (fun _ count => (true, (count + 1) % 2 ^ 32)) size ws cur_pos count)
  | n + 1, w₀ :: w₁ :: w₂ :: w₃ :: ws, cur_pos, count =>
      countGroups size n ws ((cur_pos + U64_VALUE_SIZE) % 2 ^ 32)
        ((count + count_bits64 (pack w₀ w₁ w₂ w₃)) % 2 ^ 32)
  | _ + 1, _, _, _ => .error .outOfBounds

def getCount (b : Bitmap) : Except Fault ℕ :=
  if !b.m_compress then countGroups b.m_size (b.m_data.length / U64_DIV_BASE) b.m_data 0 0
  else
    .ok (b.m_data.foldl (fun count tmp =>
      if tmp &&& COMPRESS_MASK ≠ 0#16 then
        if tmp &&& VALUE_MASK ≠ 0#16 then (count + (tmp &&& COUNT_MASK).toNat) % 2 ^ 32 else count
      else (count + count_bits tmp) % 2 ^ 32) 0)

end Bitmap

end Sylar
