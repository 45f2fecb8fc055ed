import Sylar.Spec.Basic

/-! `Bitmap` of `DataStructure/bitmap.cc` with its default word, `uint16_t`:
fourteen payload bits and two flag bits a word. A compressed bitmap is a list of
literal words and of run words, which count bits; a count that does not fit into
fourteen bits goes on in the words after it. `m_data` is the block up to
`m_dataSize`; what a shrinking `resize` leaves behind it is never read again. -/

namespace Sylar

abbrev Word := BitVec 16

structure Bitmap where
  m_compress : Bool
  m_size : ℕ
  m_data : List Word
deriving DecidableEq

namespace Bitmap

def VALUE_SIZE : ℕ := 14
def COMPRESS_MASK : Word := 0x8000#16
def VALUE_MASK : Word := 0x4000#16
def COUNT_MASK : Word := 0x3FFF#16
def NOT_VALUE_MASK : Word := ~~~VALUE_MASK
def U64_DIV_BASE : ℕ := 4
def U64_VALUE_SIZE : ℕ := VALUE_SIZE * U64_DIV_BASE

def POS (i : ℕ) : Word := 1#16 <<< i
def NPOS (i : ℕ) : Word := ~~~POS i
def MASK (i : ℕ) : Word := POS i - 1#16

def getSize (b : Bitmap) : ℕ := b.m_size
def getDataSize (b : Bitmap) : ℕ := b.m_data.length
def isCompress (b : Bitmap) : Bool := b.m_compress

/-- `ceil(size * 1.0 / VALUE_SIZE)`, which is exact for 32-bit sizes. -/
def wordsFor (size : ℕ) : ℕ := (size + VALUE_SIZE - 1) / VALUE_SIZE

/-- The word whose two bytes are `def_`, as `memset` leaves it. -/
def memsetWord (def_ : UInt8) : Word := def_.toBitVec ++ def_.toBitVec

/-- `Bitmap::Bitmap(uint32_t size, uint8_t def)`. -/
def new (size : ℕ) (def_ : UInt8) : Bitmap :=
  ⟨false, size, List.replicate (wordsFor size) (memsetWord def_)⟩

def store (data : List Word) (i : ℕ) (f : Word → Word) : Except Fault (List Word) :=
  match data[i]? with
  | none => .error .outOfBounds
  | some w => .ok (data.set i (f w))

def get (b : Bitmap) (idx : ℕ) : Except Fault Bool :=
  match b.m_data[idx / VALUE_SIZE]? with
  | none => .error .outOfBounds
  | some w => .ok (w &&& POS (idx % VALUE_SIZE) != 0#16)

def set (b : Bitmap) (idx : ℕ) (v : Bool) : Except Fault Bitmap := do
  let data ← store b.m_data (idx / VALUE_SIZE) fun w =>
    if v then w ||| POS (idx % VALUE_SIZE) else w &&& NPOS (idx % VALUE_SIZE)
  .ok { b with m_data := data }

/-- `n` turns of `for(i = cur_from; i < cur_to; ++i) m_data[i] = w`. -/
def fillLoop (w : Word) : ℕ → ℕ → List Word → Except Fault (List Word)
  | 0, _, data => .ok data
  | n + 1, i, data => do
      let data ← store data i fun _ => w
      fillLoop w n (i + 1) data

/-- `set(uint32_t from, uint32_t size, bool v)` on the words of a bitmap. -/
def setRange (data : List Word) (from_ size : ℕ) (v : Bool) : Except Fault (List Word) :=
  if size = 0 then .ok data
  else
    let to_ := (from_ + size) % 2 ^ 32
    if from_ % VALUE_SIZE ≠ 0 ∨ to_ % VALUE_SIZE ≠ 0 then .error .assertFailed
    else
      fillLoop (if v then COUNT_MASK else 0#16) (to_ / VALUE_SIZE - from_ / VALUE_SIZE)
        (from_ / VALUE_SIZE) data

def pack (w₀ w₁ w₂ w₃ : Word) : BitVec 64 := w₃ ++ w₂ ++ w₁ ++ w₀
def lane (x : BitVec 64) (i : ℕ) : Word := x.extractLsb' (16 * i) 16

def zipTail (f : Word → Word → Word) : List Word → List Word → Except Fault (List Word)
  | [], _ => .ok []
  | _ :: _, [] => .error .outOfBounds
  | a :: as, b :: bs => do
      let rest ← zipTail f as bs
      .ok (f a b :: rest)

/-- `max_size` groups of `((uint64_t*)m_data)[i] op= ((uint64_t*)b.m_data)[i]`,
then the tail. -/
def zipGroups (f64 : BitVec 64 → BitVec 64 → BitVec 64) (f : Word → Word → Word) :
    ℕ → List Word → List Word → Except Fault (List Word)
  | 0, as, bs => zipTail f as bs
  | n + 1, a₀ :: a₁ :: a₂ :: a₃ :: as, b₀ :: b₁ :: b₂ :: b₃ :: bs => do
      let x := f64 (pack a₀ a₁ a₂ a₃) (pack b₀ b₁ b₂ b₃)
      let rest ← zipGroups f64 f n as bs
      .ok (lane x 0 :: lane x 1 :: lane x 2 :: lane x 3 :: rest)
  | _ + 1, _, _ => .error .outOfBounds

def complGroups : ℕ → List Word → Except Fault (List Word)
  | 0, as => .ok (as.map (~~~·))
  | n + 1, a₀ :: a₁ :: a₂ :: a₃ :: as => do
      let x := ~~~(pack a₀ a₁ a₂ a₃)
      let rest ← complGroups n as
      .ok (lane x 0 :: lane x 1 :: lane x 2 :: lane x 3 :: rest)
  | _ + 1, _ => .error .outOfBounds

/-- `operator~`. Only the compressed literals are masked. -/
def compl (b : Bitmap) : Except Fault Bitmap :=
  if !b.m_compress then do
    let data ← complGroups (b.m_size / U64_VALUE_SIZE) b.m_data
    .ok { b with m_data := data }
  else
    .ok { b with m_data := b.m_data.map fun cur =>
      if cur &&& COMPRESS_MASK ≠ 0#16 then
        if cur &&& VALUE_MASK ≠ 0#16 then cur &&& NOT_VALUE_MASK else cur ||| VALUE_MASK
      else ~~~cur &&& COUNT_MASK }

/-- The inner loop over the words that carry on the count of a run of `v`, the
`j`-th of them at bit `14 * j`. A shift by the width of `uint32_t` or more has
no meaning. -/
def gather (v : Bool) : ℕ → ℕ → List Word → Except Fault (ℕ × List Word)
  | _, count, [] => .ok (count, [])
  | j, count, w :: ws =>
      if w &&& COMPRESS_MASK ≠ 0#16 ∧ v = (w &&& VALUE_MASK != 0#16) then
        if VALUE_SIZE * j < 32 then
          gather v (j + 1) ((w &&& COUNT_MASK).toNat <<< (VALUE_SIZE * j) % 2 ^ 32 ||| count) ws
        else .error .outOfBounds
      else .ok (count, w :: ws)

/-- The loop over the words of a compressed bitmap in `uncompress`, `operator&=`
and `operator|=`: what they do with a run and with a literal word at `cur_pos` is
`onRun` and `onWord`. Each turn takes a word, so as many turns as words suffice. -/
def scan {σ : Type} (onRun : σ → ℕ → ℕ → Bool → Except Fault σ)
    (onWord : σ → ℕ → Word → Except Fault σ) : ℕ → List Word → ℕ → σ → Except Fault σ
  | 0, _, _, s => .ok s
  | _ + 1, [], _, s => .ok s
  | fuel + 1, cur :: rest, cur_pos, s =>
      if cur &&& COMPRESS_MASK ≠ 0#16 then do
        let v := cur &&& VALUE_MASK != 0#16
        let (count, rest) ← gather v 1 (cur &&& COUNT_MASK).toNat rest
        let s ← onRun s cur_pos count v
        scan onRun onWord fuel rest ((cur_pos + count) % 2 ^ 32) s
      else do
        let s ← onWord s cur_pos (cur &&& COUNT_MASK)
        scan onRun onWord fuel rest ((cur_pos + VALUE_SIZE) % 2 ^ 32) s

def uncompress (b : Bitmap) : Except Fault Bitmap :=
  if !b.m_compress then .ok b
  else do
    let fresh := new b.m_size 0
    let data ← scan (fun data cur_pos count v => setRange data cur_pos count v)
      (fun data cur_pos w => store data (cur_pos / VALUE_SIZE) fun _ => w)
      b.m_data.length b.m_data 0 fresh.m_data
    .ok { fresh with m_data := data }

/-- `operator&=` and `operator|=`: `sym` is the operator, `f64` and `f` what it
does to 64 and to 16 bits, and `onRun` what it does with a run. -/
def assignWith (sym : String) (f64 : BitVec 64 → BitVec 64 → BitVec 64) (f : Word → Word → Word)
    (onRun : List Word → ℕ → ℕ → Bool → Except Fault (List Word)) (a b : Bitmap) :
    Except Fault Bitmap :=
  if a.m_size ≠ b.m_size then .error (.logicError "m_size != b.m_size")
  else if !a.m_compress && !b.m_compress then do
    let data ← zipGroups f64 f (a.m_size / U64_VALUE_SIZE) a.m_data b.m_data
    .ok { a with m_data := data }
  else if a.m_compress != b.m_compress then
    if a.m_compress then .error (.logicError ("compress " ++ sym ++ " uncompress not support"))
    else do
      let data ← scan onRun
        (fun data cur_pos w => store data (cur_pos / VALUE_SIZE) fun x => f x w)
        b.m_data.length b.m_data 0 a.m_data
      .ok { a with m_data := data }
  else .error (.logicError ("compress " ++ sym ++ " compress not support"))

def andAssign (a b : Bitmap) : Except Fault Bitmap :=
  assignWith "&=" (· &&& ·) (· &&& ·)
    (fun data cur_pos count v => if !v then setRange data cur_pos count false else .ok data) a b

def orAssign (a b : Bitmap) : Except Fault Bitmap :=
  assignWith "|=" (· ||| ·) (· ||| ·)
    (fun data cur_pos count v => if v then setRange data cur_pos count true else .ok data) a b

def count_bits (w : Word) : ℕ := (List.range 16).countP fun i => w.getLsbD i

/-- `while(cur_count)`: the count, fourteen bits a word, the lowest first. -/
def countWords (v : Bool) (cur_count : ℕ) : List Word :=
  if cur_count = 0 then []
  else
    (if v then COMPRESS_MASK ||| VALUE_MASK ||| (BitVec.ofNat 16 cur_count &&& COUNT_MASK)
      else COMPRESS_MASK ||| (BitVec.ofNat 16 cur_count &&& COUNT_MASK)) ::
      countWords v (cur_count >>> VALUE_SIZE)
termination_by cur_count
decreasing_by
  have : cur_count ≠ 0 := by assumption
  rw [Nat.shiftRight_eq_div_pow]
  exact Nat.div_lt_self (by omega) (by decide)

/-- The locals of the loop of `compress`; `data` is the scratch buffer up to
`dst_cur_pos`. `cur_count` is 64 bits wide and counts at most 14 times `2 ^ 32`. -/
structure Run where
  cur_value : Bool
  cur_count : ℕ
  data : List Word

def Run.flush (s : Run) : Except Fault (List Word) :=
  if s.cur_count / VALUE_SIZE > 1 then
    if s.cur_count % VALUE_SIZE = 0 then .ok (s.data ++ countWords s.cur_value s.cur_count)
    else .error .assertFailed
  else if s.cur_count ≠ 0 then .ok (s.data ++ [if s.cur_value then COUNT_MASK else 0#16])
  else .ok s.data

def Run.step (s : Run) (cur : Word) : Except Fault Run :=
  let c := count_bits (cur &&& COUNT_MASK)
  if c = 0 ∧ s.cur_value = false then .ok { s with cur_count := s.cur_count + VALUE_SIZE }
  else if c = VALUE_SIZE ∧ s.cur_value = true then
    .ok { s with cur_count := s.cur_count + VALUE_SIZE }
  else do
    let data ← s.flush
    if c = 0 ∨ c = VALUE_SIZE then .ok ⟨c = VALUE_SIZE, VALUE_SIZE, data⟩
    else .ok ⟨s.cur_value, 0, data ++ [cur]⟩

def Run.finish (s : Run) : List Word :=
  if s.cur_count > 0 then
    if s.cur_count / VALUE_SIZE > 1 then s.data ++ countWords s.cur_value s.cur_count
    else s.data ++ [if s.cur_value then COUNT_MASK else 0#16]
  else s.data

def compress (b : Bitmap) : Except Fault Bitmap :=
  if b.m_compress then .ok b
  else do
    let s ← b.m_data.foldlM Run.step ⟨false, 0, []⟩
    .ok ⟨true, b.m_size, s.finish⟩

/-- `for(i = 0; i < m_dataSize - 1; ++i) if(m_data[i]) return true`, with `n` turns. -/
def anyLoop : ℕ → List Word → Except Fault Bool
  | 0, _ => .ok false
  | _ + 1, [] => .error .outOfBounds
  | n + 1, w :: ws => if w ≠ 0#16 then .ok true else anyLoop n ws

def lowByte (w : Word) : Word := (w.setWidth 8).setWidth 16

/-- `any`. `null` says whether `m_data` is `NULL`, which the words do not tell when there are
none. The number of words less one is a `uint32_t`, and wraps when there is none. -/
def any (b : Bitmap) (null : Bool) : Except Fault Bool :=
  if null then .ok false
  else if !b.m_compress then do
    let last := (b.m_data.length + (2 ^ 32 - 1)) % 2 ^ 32
    let found ← anyLoop last b.m_data
    if found then .ok true
    else
      match b.m_data[last]? with
      | none => .error .outOfBounds
      | some w => .ok (w &&& MASK (b.m_size % VALUE_SIZE) != 0#16)
  else
    .ok (b.m_data.any fun w =>
      if lowByte w &&& COMPRESS_MASK ≠ 0#16 then lowByte w &&& VALUE_MASK != 0#16
      else lowByte w != 0#16)

/-- `resize`. The word index of the last word is a `uint32_t`, and wraps when
there is none. -/
def resize (b : Bitmap) (size : ℕ) (v : Bool) : Except Fault Bitmap :=
  if b.m_compress then .error (.logicError "compress bitmap not support resize")
  else
    let len := wordsFor size
    if len > b.m_data.length then do
      let new_data := b.m_data ++
        List.replicate (len - b.m_data.length) (if v then memsetWord 0xFF else memsetWord 0)
      let left := b.m_size % VALUE_SIZE
      let data ← store new_data ((b.m_data.length + (2 ^ 32 - 1)) % 2 ^ 32) fun w =>
        if v then w ||| MASK left else w &&& MASK left
      .ok { b with m_size := size, m_data := data }
    else .ok { b with m_size := size, m_data := b.m_data.take len }

end Bitmap

end Sylar
