import Sylar.Lib.Text
import Sylar.Spec.Basic
import Sylar.Spec.Http

/-! Base 64, hexadecimal digits, `replace` and `split` of `util/hash_util.cc`. A loop of `replace`
is given a number of turns, and gives nothing where they do not end it; `index` is `none` for
`npos`. -/

namespace Sylar

open Lib

/-- A write into the result, of which only `room` bytes are there. -/
def writeBuf (room : ℕ) (result : List UInt8) (c : UInt8) : Except Fault (List UInt8) :=
  if result.length < room then .ok (result ++ [c]) else .error .outOfBounds

def base64val (c : UInt8) : Option ℕ :=
  if 65 ≤ c && c ≤ 90 then some (c.toNat - 65)
  else if 97 ≤ c && c ≤ 122 then some (c.toNat - 97 + 26)
  else if 48 ≤ c && c ≤ 57 then some (c.toNat - 48 + 52)
  else if c = 43 then some 62
  else if c = 47 then some 63
  else none

/-- The inner loop over four characters or what is left: the padding and what is packed, or `none`
where it returns. `=` is 61. -/
def base64unpack : List UInt8 → ℕ → ℕ → Option (ℕ × ℕ)
  | [], padding, packed => some (padding, packed)
  | c :: rest, padding, packed =>
      if c = 61 then base64unpack rest (padding + 1) (packed <<< 6)
      else if 0 < padding then none
      else
        match base64val c with
        | none => none
        | some val => base64unpack rest padding (packed <<< 6 ||| val)

def base64decodeLoop (room : ℕ) (result src : List UInt8) : Except Fault (List UInt8) :=
  if src = [] then .ok result
  else
    match base64unpack (src.take 4) 0 0 with
    | none => .ok []
    | some (padding, packed) =>
        if (src.take 4).length ≠ 4 then .ok []
        else if 0 < padding && src.drop 4 ≠ [] then .ok []
        else if 2 < padding then .ok []
        else do
          let result ← writeBuf room result (UInt8.ofNat (packed >>> 16 &&& 0xff))
          let result ← if padding ≠ 2 then writeBuf room result (UInt8.ofNat (packed >>> 8 &&& 0xff))
            else .ok result
          let result ← if padding = 0 then writeBuf room result (UInt8.ofNat (packed &&& 0xff))
            else .ok result
          base64decodeLoop room result (src.drop 4)
termination_by src.length
decreasing_by
  have := List.length_pos_iff.mpr ‹¬src = []›
  rw [List.length_drop]
  omega

def base64decode (src : List UInt8) : Except Fault (List UInt8) :=
  base64decodeLoop (src.length * 3 / 4) [] src

def base64 (i : ℕ) : UInt8 :=
  (ascii "ABCDEFGHIJKLMNOPQRSTUVWXYZabcdefghijklmnopqrstuvwxyz0123456789+/").getD i 0

def base64encode (data : List UInt8) : List UInt8 :=
  if data = [] then []
  else
    let i := (data.take 3).length
    let padding := if i = 2 then 1 else if i = 1 then 2 else 0
    let packed := ((data.take 3).foldl (fun packed c => packed <<< 8 ||| c.toNat) 0) <<< (8 * (3 - i))
    [base64 (packed >>> 18), base64 (packed >>> 12 &&& 0x3f)] ++
      (if padding ≠ 2 then [base64 (packed >>> 6 &&& 0x3f)] else []) ++
      (if padding = 0 then [base64 (packed &&& 0x3f)] else []) ++
      List.replicate padding 61 ++ base64encode (data.drop 3)
termination_by data.length
decreasing_by
  have := List.length_pos_iff.mpr ‹¬data = []›
  rw [List.length_drop]
  omega

def hexchar (c : UInt8) : UInt8 := if 9 < c then c + 97 - 10 else c + 48

def hexstring_from_data (data : List UInt8) : List UInt8 :=
  if data.length = 0 then []
  else data.flatMap fun (c : UInt8) => [hexchar (c >>> 4 &&& 0xf), hexchar (c &&& 0xf)]

def highNibble (c : UInt8) : Option UInt8 :=
  if 97 ≤ c && c ≤ 102 then some ((c - 97 + 10) <<< 4)
  else if 65 ≤ c && c ≤ 70 then some ((c - 65 + 10) <<< 4)
  else if 48 ≤ c && c ≤ 57 then some ((c - 48) <<< 4)
  else none

def lowNibble (c : UInt8) : Option UInt8 :=
  if 97 ≤ c && c ≤ 102 then some (c - 97 + 10)
  else if 65 ≤ c && c ≤ 70 then some (c - 65 + 10)
  else if 48 ≤ c && c ≤ 57 then some (c - 48)
  else none

/-- What is thrown is the text of an `std::invalid_argument`. -/
def data_from_hexstringLoop : List UInt8 → Except String (List UInt8)
  | [] => .ok []
  | [_] => .error "data_from_hexstring invalid hexstring"
  | high :: low :: rest =>
      match highNibble high with
      | none => .error "data_from_hexstring invalid hexstring"
      | some byte =>
          match lowNibble low with
          | none => .error "data_from_hexstring invalid hexstring"
          | some digit => do
              let data ← data_from_hexstringLoop rest
              .ok ((byte ||| digit) :: data)

def data_from_hexstring (hexstring : List UInt8) : Except String (List UInt8) :=
  if hexstring.length % 2 ≠ 0 then .error "data_from_hexstring length % 2 != 0"
  else if hexstring.length = 0 then .ok []
  else data_from_hexstringLoop hexstring

def replaceCharLoop (find replaceWith : UInt8) :
    ℕ → List UInt8 → Option ℕ → Option (List UInt8)
  | _, str, none => some str
  | 0, _, some _ => none
  | turns + 1, str, some index =>
      let str := str.set index replaceWith
      replaceCharLoop find replaceWith turns str (findFrom [find] str (index + 1))

def replaceChar (turns : ℕ) (str1 : List UInt8) (find replaceWith : UInt8) : Option (List UInt8) :=
  replaceCharLoop find replaceWith turns str1 (findFrom [find] str1 0)

def replaceCharStringLoop (find : UInt8) (replaceWith : List UInt8) :
    ℕ → List UInt8 → Option ℕ → Option (List UInt8)
  | _, str, none => some str
  | 0, _, some _ => none
  | turns + 1, str, some index =>
      let str := substr str 0 index ++ replaceWith ++ str.drop (index + 1)
      replaceCharStringLoop find replaceWith turns str
        (findFrom [find] str (index + replaceWith.length))

def replaceCharString (turns : ℕ) (str1 : List UInt8) (find : UInt8) (replaceWith : List UInt8) :
    Option (List UInt8) :=
  replaceCharStringLoop find replaceWith turns str1 (findFrom [find] str1 0)

def replaceLoop (find replaceWith : List UInt8) :
    ℕ → List UInt8 → Option ℕ → Option (List UInt8)
  | _, str, none => some str
  | 0, _, some _ => none
  | turns + 1, str, some index =>
      let str := substr str 0 index ++ replaceWith ++ str.drop (index + find.length)
      replaceLoop find replaceWith turns str (findFrom find str (index + replaceWith.length))

/-- `replace(str1, std::string, std::string)`. -/
def replace (turns : ℕ) (str1 find replaceWith : List UInt8) : Option (List UInt8) :=
  replaceLoop find replaceWith turns str1 (findFrom find str1 0)

def splitLoop (str : List UInt8) (delim : UInt8) (last : ℕ) (max : UInt64) : List (List UInt8) :=
  match h : findFrom [delim] str last with
  | none => [str.drop last]
  | some pos =>
      substr str last (pos - last) ::
        if max - 1 = 1 then [str.drop (pos + 1)] else splitLoop str delim (pos + 1) (max - 1)
termination_by str.length - last
decreasing_by
  have := findFrom_singleton_lt h
  omega

def split (str : List UInt8) (delim : UInt8) (max : UInt64) : List (List UInt8) :=
  if str = [] then [] else splitLoop str delim 0 max

end Sylar
