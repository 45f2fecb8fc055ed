import Sylar.Spec.Http

/-! `NeedEscape` and `Escape` of `util/json_util.cc`. -/

namespace Sylar

namespace JsonUtil

/-- `\f`, `\t`, `\r`, `\n`, `\b`, the quotation mark and the backslash. -/
def special (c : UInt8) : Bool :=
  c = 0x0C || c = 0x09 || c = 0x0D || c = 0x0A || c = 0x08 || c = 0x22 || c = 0x5C

def NeedEscape (v : List UInt8) : Bool := v.any special

def escaped (c : UInt8) : List UInt8 :=
  if c = 0x0C then ascii "\\f"
  else if c = 0x09 then ascii "\\t"
  else if c = 0x0D then ascii "\\r"
  else if c = 0x0A then ascii "\\n"
  else if c = 0x08 then ascii "\\b"
  else if c = 0x22 then ascii "\\\""
  else if c = 0x5C then ascii "\\\\"
  else [c]

def escapedSize (v : List UInt8) : ℕ := v.foldl (fun size c => if special c then size + 2 else size + 1) 0

/-- `resize` fills `rt` with as many zeros, and `append` adds to them. -/
def Escape (v : List UInt8) : List UInt8 :=
  let size := escapedSize v
  if size = v.length then v
  else v.foldl (fun rt c => rt ++ escaped c) (List.replicate size 0)

end JsonUtil

end Sylar
