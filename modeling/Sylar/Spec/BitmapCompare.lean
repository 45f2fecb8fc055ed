import Sylar.Spec.Bitmap

/-! Two bitmaps side by side: `operator==`, and `cross`, which says whether they have a bit in
common. -/

namespace Sylar

namespace Bitmap

/-- `operator==`. `same` says whether the operands are one object. The words are compared whole,
and the last one then once more, up to the size. -/
def equal (a b : Bitmap) (same : Bool) : Except Fault Bool :=
  if same then .ok true
  else if a.m_compress != b.m_compress || a.m_size != b.m_size ||
      a.m_data.length != b.m_data.length then .ok false
  else if a.m_data ≠ b.m_data then .ok false
  else
    let left := a.m_size % VALUE_SIZE
    if left ≠ 0 then
      let last := (a.m_data.length + (2 ^ 32 - 1)) % 2 ^ 32
      match a.m_data[last]?, b.m_data[last]? with
      | some w, some x => .ok (w &&& MASK left == x &&& MASK left)
      | _, _ => .error .outOfBounds
    else .ok true

/-- The loop of `get(uint32_t from, uint32_t size, bool v)`, with `n` turns from word `i` on. -/
def getLoop (data : List Word) (v : Bool) : ℕ → ℕ → Except Fault Bool
  | 0, _ => .ok false
  | n + 1, i =>
      match data[i]? with
      | none => .error .outOfBounds
      | some w =>
          if v then
            if w &&& COUNT_MASK ≠ 0#16 then .ok true else getLoop data v n (i + 1)
          else if w &&& COUNT_MASK = 0#16 then .ok true
          else getLoop data v n (i + 1)

/-- `get(uint32_t from, uint32_t size, bool v)` on the words of a bitmap: is there a word with a
bit set, or one without? -/
def getRange (data : List Word) (from_ size : ℕ) (v : Bool) : Except Fault Bool :=
  if size = 0 then .ok false
  else
    let to_ := (from_ + size) % 2 ^ 32
    if from_ % VALUE_SIZE ≠ 0 ∨ to_ % VALUE_SIZE ≠ 0 then .error .assertFailed
    else getLoop data v (to_ / VALUE_SIZE - from_ / VALUE_SIZE) (from_ / VALUE_SIZE)

/-- The loop of `compressCross` over the words of the compressed operand, as in `scan`; it returns
at the first bit in common. -/
def crossLoop (data : List Word) : ℕ → List Word → ℕ → Except Fault Bool
  | 0, _, _ => .ok false
  | _ + 1, [], _ => .ok false
  | fuel + 1, cur :: rest, cur_pos =>
      if cur &&& COMPRESS_MASK ≠ 0#16 then do
        let v := cur &&& VALUE_MASK != 0#16
        let (count, rest) ← gather v 1 (cur &&& COUNT_MASK).toNat rest
        if v then
          let found ← getRange data cur_pos count true
          if found then .ok true else crossLoop data fuel rest ((cur_pos + count) % 2 ^ 32)
        else crossLoop data fuel rest ((cur_pos + count) % 2 ^ 32)
      else
        match data[cur_pos / VALUE_SIZE]? with
        | none => .error .outOfBounds
        | some w =>
            if w &&& (cur &&& COUNT_MASK) ≠ 0#16 then .ok true
            else crossLoop data fuel rest ((cur_pos + VALUE_SIZE) % 2 ^ 32)

def compressCross (a b : Bitmap) : Except Fault Bool :=
  crossLoop a.m_data b.m_data.length b.m_data 0

def crossTail : List Word → List Word → Except Fault Bool
  | [], _ => .ok false
  | _ :: _, [] => .error .outOfBounds
  | a :: as, b :: bs => if a &&& b ≠ 0#16 then .ok true else crossTail as bs

def crossGroups : ℕ → List Word → List Word → Except Fault Bool
  | 0, as, bs => crossTail as bs
  | n + 1, a₀ :: a₁ :: a₂ :: a₃ :: as, bs =>
      if pack a₀ a₁ a₂ a₃ ≠ 0#64 then
        match bs with
        | b₀ :: b₁ :: b₂ :: b₃ :: bs =>
            if pack a₀ a₁ a₂ a₃ &&& pack b₀ b₁ b₂ b₃ ≠ 0#64 then .ok true else crossGroups n as bs
        | _ => .error .outOfBounds
      else crossGroups n as (bs.drop U64_DIV_BASE)
  | _ + 1, _, _ => .error .outOfBounds

def normalCross (a b : Bitmap) : Except Fault Bool :=
  crossGroups (a.m_size / U64_VALUE_SIZE) a.m_data b.m_data

def cross (a b : Bitmap) : Except Fault Bool :=
  if !a.m_compress && b.m_compress then a.compressCross b
  else if !a.m_compress && !b.m_compress then a.normalCross b
  else .ok false

end Bitmap

end Sylar
