import Sylar.Lib.Text
import Sylar.Spec.Http

/-! `UrlEncode`, `UrlDecode` and the three `Trim`s of `StringUtil` in `util.cc`. -/

namespace Sylar

open Lib

namespace StringUtil

def uri_chars : List UInt8 := [
  -- 0
  0, 0, 0, 0, 0, 0, 0, 0,   0, 0, 0, 0, 0, 0, 0, 0,
  0, 0, 0, 0, 0, 0, 0, 0,   0, 0, 0, 0, 0, 0, 0, 0,
  0, 0, 0, 0, 0, 0, 0, 0,   0, 0, 0, 0, 0, 1, 1, 0,
  1, 1, 1, 1, 1, 1, 1, 1,   1, 1, 0, 0, 0, 1, 0, 0,
  -- 64
  0, 1, 1, 1, 1, 1, 1, 1,   1, 1, 1, 1, 1, 1, 1, 1,
  1, 1, 1, 1, 1, 1, 1, 1,   1, 1, 1, 0, 0, 0, 0, 1,
  0, 1, 1, 1, 1, 1, 1, 1,   1, 1, 1, 1, 1, 1, 1, 1,
  1, 1, 1, 1, 1, 1, 1, 1,   1, 1, 1, 0, 0, 0, 1, 0,
  -- 128
  0, 0, 0, 0, 0, 0, 0, 0,   0, 0, 0, 0, 0, 0, 0, 0,
  0, 0, 0, 0, 0, 0, 0, 0,   0, 0, 0, 0, 0, 0, 0, 0,
  0, 0, 0, 0, 0, 0, 0, 0,   0, 0, 0, 0, 0, 0, 0, 0,
  0, 0, 0, 0, 0, 0, 0, 0,   0, 0, 0, 0, 0, 0, 0, 0,
  -- 192
  0, 0, 0, 0, 0, 0, 0, 0,   0, 0, 0, 0, 0, 0, 0, 0,
  0, 0, 0, 0, 0, 0, 0, 0,   0, 0, 0, 0, 0, 0, 0, 0,
  0, 0, 0, 0, 0, 0, 0, 0,   0, 0, 0, 0, 0, 0, 0, 0,
  0, 0, 0, 0, 0, 0, 0, 0,   0, 0, 0, 0, 0, 0, 0, 0]

def xdigit_chars : List UInt8 := [
  0,0,0,0,0,0,0,0,0,0,0,0,0,0,0,0,
  0,0,0,0,0,0,0,0,0,0,0,0,0,0,0,0,
  0,0,0,0,0,0,0,0,0,0,0,0,0,0,0,0,
  0,1,2,3,4,5,6,7,8,9,0,0,0,0,0,0,
  0,10,11,12,13,14,15,0,0,0,0,0,0,0,0,0,
  0,0,0,0,0,0,0,0,0,0,0,0,0,0,0,0,
  0,10,11,12,13,14,15,0,0,0,0,0,0,0,0,0,
  0,0,0,0,0,0,0,0,0,0,0,0,0,0,0,0,
  0,0,0,0,0,0,0,0,0,0,0,0,0,0,0,0,
  0,0,0,0,0,0,0,0,0,0,0,0,0,0,0,0,
  0,0,0,0,0,0,0,0,0,0,0,0,0,0,0,0,
  0,0,0,0,0,0,0,0,0,0,0,0,0,0,0,0,
  0,0,0,0,0,0,0,0,0,0,0,0,0,0,0,0,
  0,0,0,0,0,0,0,0,0,0,0,0,0,0,0,0,
  0,0,0,0,0,0,0,0,0,0,0,0,0,0,0,0,
  0,0,0,0,0,0,0,0,0,0,0,0,0,0,0,0]

def CHAR_IS_UNRESERVED (c : UInt8) : Bool := uri_chars.getD c.toNat 0 != 0

def xdigit (c : UInt8) : UInt8 := xdigit_chars.getD c.toNat 0

def isxdigit (c : UInt8) : Bool := (48 ≤ c && c ≤ 57) || (65 ≤ c && c ≤ 70) || (97 ≤ c && c ≤ 102)

def hexdigit (i : UInt8) : UInt8 := (ascii "0123456789ABCDEF").getD i.toNat 0

/-- `c` has come to `rest`, and `done` is what it has passed. `ss` is `none` as long as nothing is
copied. -/
def UrlEncodeLoop (space_as_plus : Bool) :
    List UInt8 → Option (List UInt8) → List UInt8 → Option (List UInt8)
  | _, ss, [] => ss
  | done, ss, c :: rest =>
      if !CHAR_IS_UNRESERVED c then
        let copy := ss.getD done
        if c = 0x20 && space_as_plus then
          UrlEncodeLoop space_as_plus (done ++ [c]) (some (copy ++ [0x2B])) rest
        else
          UrlEncodeLoop space_as_plus (done ++ [c])
            (some (copy ++ [0x25, hexdigit (c >>> 4), hexdigit (c &&& 0xF)])) rest
      else UrlEncodeLoop space_as_plus (done ++ [c]) (ss.map (· ++ [c])) rest

def UrlEncode (str : List UInt8) (space_as_plus : Bool) : List UInt8 :=
  (UrlEncodeLoop space_as_plus [] none str).getD str

/-- The loop of `UrlDecode`, with what `UrlEncodeLoop` carries. -/
def UrlDecodeLoop (space_as_plus : Bool) (done : List UInt8) (ss : Option (List UInt8)) :
    List UInt8 → Option (List UInt8)
  | [] => ss
  | c :: rest =>
      if c = 0x2B && space_as_plus then
        UrlDecodeLoop space_as_plus (done ++ [c]) (some (ss.getD done ++ [0x20])) rest
      else if c = 0x25 && 2 ≤ rest.length && isxdigit (rest.getD 0 0) && isxdigit (rest.getD 1 0) then
        UrlDecodeLoop space_as_plus (done ++ c :: rest.take 2)
          (some (ss.getD done ++ [xdigit (rest.getD 0 0) <<< 4 ||| xdigit (rest.getD 1 0)]))
          (rest.drop 2)
      else UrlDecodeLoop space_as_plus (done ++ [c]) (ss.map (· ++ [c])) rest
termination_by rest => rest.length
decreasing_by
  all_goals
    simp only [List.length_drop, List.length_cons]
    omega

def UrlDecode (str : List UInt8) (space_as_plus : Bool) : List UInt8 :=
  (UrlDecodeLoop space_as_plus [] none str).getD str

def find_first_not_of (str delimit : List UInt8) : Option ℕ :=
  str.findIdx? fun c => !delimit.contains c

def find_last_not_of (str delimit : List UInt8) : Option ℕ :=
  (str.reverse.findIdx? fun c => !delimit.contains c).map fun i => str.length - 1 - i

/-- `" \t\r\n"`, where no `delimit` is given. -/
def whitespace : List UInt8 := [0x20, 0x09, 0x0D, 0x0A]

def Trim (str delimit : List UInt8) : List UInt8 :=
  match find_first_not_of str delimit, find_last_not_of str delimit with
  | some first, some last => substr str first (last - first + 1)
  | _, _ => []

def TrimLeft (str delimit : List UInt8) : List UInt8 :=
  match find_first_not_of str delimit with
  | none => []
  | some first => str.drop first

def TrimRight (str delimit : List UInt8) : List UInt8 :=
  match find_last_not_of str delimit with
  | none => []
  | some last => substr str 0 last

end StringUtil

end Sylar
