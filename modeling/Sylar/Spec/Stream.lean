import Sylar.Spec.Basic
import Sylar.Lib.Digits
import Sylar.Lib.Pod

/-! Reading and writing blocks of `util.h` and `util.cc`. A stream is a sequence of bytes;
an output stream takes all it is given. The pauses of `SpeedLimit` change no byte and are
left out. `rate` is `(uint64_t)ceil(speed / 100.0)`, which is computed as a `double`. -/

namespace Sylar

open Lib

/-- A `std::istream`: the bytes that are left, and whether no read has come up short. -/
structure IStream where
  left : List UInt8
  good : Bool
deriving DecidableEq

/-- `is.read(data, n)`; as many bytes are returned as `gcount()` says. -/
def IStream.read (is : IStream) (n : ℕ) : List UInt8 × IStream :=
  if is.good then (is.left.take n, ⟨is.left.drop n, n ≤ is.left.length⟩) else ([], is)

/-- `while(is && (offset < size))`. A turn asks for `part missing` of the `missing` bytes;
unless the stream has ended it gets at least one, so `missing` turns suffice. -/
def readLoop (part : ℕ → ℕ) : ℕ → IStream → ℕ → List UInt8 × IStream
  | 0, is, _ => ([], is)
  | turns + 1, is, missing =>
      if is.good && 0 < missing then
        let (got, is) := is.read (part missing)
        let (more, is) := readLoop part turns is (missing - got.length)
        (got ++ more, is)
      else ([], is)

def readFixFromStream (is : IStream) (size : ℕ) : Bool × List UInt8 × IStream :=
  let (data, is) := readLoop id size is size
  (data.length = size, data, is)

def perTurn (rate : ℕ → ℕ) (speed : ℕ) : ℕ := max (rate speed) (1024 * 64)

def readFixFromStreamWithSpeed (rate : ℕ → ℕ) (is : IStream) (size speed : ℕ) :
    Bool × List UInt8 × IStream :=
  let per := perTurn rate speed
  let (data, is) := readLoop (fun missing => if missing > per then per else missing) size is size
  (data.length = size, data, is)

/-- `while(os && (offset < size))`, on what is not written yet. -/
def writeLoop (per : ℕ) : ℕ → List UInt8 → List UInt8 → List UInt8
  | 0, os, _ => os
  | turns + 1, os, data =>
      if data.length = 0 then os
      else
        let s := if data.length > per then per else data.length
        writeLoop per turns (os ++ data.take s) (data.drop s)

def writeFixToStreamWithSpeed (rate : ℕ → ℕ) (os data : List UInt8) (speed : ℕ) : List UInt8 :=
  writeLoop (perTurn rate speed) data.length os data

def unlimited : ℕ := 2 ^ 64 - 1

def writeBlock (rate : ℕ → ℕ) (os data : List UInt8) (speed : ℕ) : List UInt8 :=
  let os := os ++ leBytes 8 data.length
  if speed = unlimited then os ++ data else writeFixToStreamWithSpeed rate os data speed

/-- A block read into a vector that is resized to hold it; `allocates` says for how many bytes
memory can be had, and `none` is the way out with `false`. The bytes of a broken element at the
end have no room in the vector. -/
def readBlock {α : Type} (rate : ℕ → ℕ) (P : Pod α) (allocates : ℕ → Bool) (is : IStream)
    (speed : ℕ) : Except Fault (Option (List α) × IStream) :=
  let (ok, field, is) := readFixFromStream is 8
  if !ok then .ok (none, is)
  else
    let size := leNat field
    let count := size / P.size
    if !allocates (count * P.size) then .ok (none, is)
    else
      let (ok, data, is) :=
        if speed = unlimited then readFixFromStream is size
        else readFixFromStreamWithSpeed rate is size speed
      if count * P.size < data.length then .error .outOfBounds
      else if !ok then .ok (none, is)
      else .ok (some (P.items count data), is)

end Sylar
