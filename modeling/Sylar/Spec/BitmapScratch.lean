import Sylar.Spec.Bitmap

/-! `compress` of `DataStructure/bitmap.cc` with the block it mallocs for its result: a store that is
not below `room` is out of bounds. -/

namespace Sylar

namespace Bitmap

def put (room : ℕ) (data : List Word) (w : Word) : Except Fault (List Word) :=
  if data.length < room then .ok (data ++ [w]) else .error .outOfBounds

def putAll (room : ℕ) (data ws : List Word) : Except Fault (List Word) := ws.foldlM (put room) data

def Run.flushIn (room : ℕ) (s : Run) : Except Fault (List Word) :=
  if s.cur_count / VALUE_SIZE > 1 then
    if s.cur_count % VALUE_SIZE = 0 then putAll room s.data (countWords s.cur_value s.cur_count)
    else .error .assertFailed
  else if s.cur_count ≠ 0 then put room s.data (if s.cur_value then COUNT_MASK else 0#16)
  else .ok s.data

/-- The turn at word `i`; there is room for `limit n` words once `n` words of the input are in what
is written. -/
def Run.stepIn (limit : ℕ → ℕ) (i : ℕ) (s : Run) (cur : Word) : Except Fault Run :=
  let c := count_bits (cur &&& COUNT_MASK)
  if c = 0 ∧ s.cur_value = false then .ok { s with cur_count := s.cur_count + VALUE_SIZE }
  else if c = VALUE_SIZE ∧ s.cur_value = true then
    .ok { s with cur_count := s.cur_count + VALUE_SIZE }
  else do
    -- the run ends before word `i`
    let data ← s.flushIn (limit i)
    if c = 0 ∨ c = VALUE_SIZE then .ok ⟨c = VALUE_SIZE, VALUE_SIZE, data⟩
    else do
      let data ← put (limit (i + 1)) data cur
      .ok ⟨s.cur_value, 0, data⟩

def Run.loopIn (limit : ℕ → ℕ) : ℕ → Run → List Word → Except Fault Run
  | _, s, [] => .ok s
  | i, s, cur :: rest => do
      let s ← s.stepIn limit i cur
      loopIn limit (i + 1) s rest

def Run.finishIn (room : ℕ) (s : Run) : Except Fault (List Word) :=
  if s.cur_count > 0 then
    if s.cur_count / VALUE_SIZE > 1 then putAll room s.data (countWords s.cur_value s.cur_count)
    else put room s.data (if s.cur_value then COUNT_MASK else 0#16)
  else .ok s.data

def compressIn (limit : ℕ → ℕ) (b : Bitmap) : Except Fault Bitmap :=
  if b.m_compress then .ok b
  else do
    let s ← Run.loopIn limit 0 ⟨false, 0, []⟩ b.m_data
    let data ← s.finishIn (limit b.m_data.length)
    .ok ⟨true, b.m_size, data⟩

end Bitmap

end Sylar
