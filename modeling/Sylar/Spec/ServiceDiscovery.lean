import Mathlib.Data.List.TakeWhile
import Mathlib.Data.String.Defs

/-! `ServiceItemInfo::Create` of `streams/service_discovery.cc`, with `TypeUtil::Atoi` of
`util.cc`. `inet_addr` is the function of the C library, of a string as `c_str()` gives it. -/

namespace Sylar

namespace TypeUtil

/-- `strtoull` in base 10: white space, a sign, digits. A value that is too large is
`ULLONG_MAX`. -/
def strtoull (s : List Char) : UInt64 :=
  let s := s.dropWhile fun c => c.toNat = 32 || 9 ≤ c.toNat && c.toNat ≤ 13
  let digits := if s.head? = some '-' || s.head? = some '+' then s.drop 1 else s
  let v := (digits.takeWhile Char.isDigit).foldl (fun v c => 10 * v + (c.toNat - 48)) 0
  if UInt64.size ≤ v then 0xffffffffffffffff
  else if s.head? = some '-' then -UInt64.ofNat v
  else UInt64.ofNat v

/-- The result is an `int64_t` and is used as one of 64 bits. -/
def Atoi (str : String) : UInt64 := if str.isEmpty then 0 else strtoull str.toList

end TypeUtil

structure ServiceItemInfo where
  m_id : UInt64
  m_port : UInt16
  m_ip : String
  m_data : String
deriving DecidableEq

namespace ServiceItemInfo

/-- What is before the first `:` and what is after it. -/
def ip (ip_and_port : String) : String :=
  String.ofList (ip_and_port.toList.takeWhile (· ≠ ':'))

def port (ip_and_port : String) : UInt64 :=
  TypeUtil.Atoi (String.ofList ((ip_and_port.toList.dropWhile (· ≠ ':')).drop 1))

def Create (inet_addr : String → UInt32) (ip_and_port data : String) : Option ServiceItemInfo :=
  if ':' ∉ ip_and_port.toList then none
  else
    let ip := ServiceItemInfo.ip ip_and_port
    let port := ServiceItemInfo.port ip_and_port
    let ip_addr := inet_addr ip
    if ip_addr = 0 then none
    else
      some
        { m_id := ip_addr.toUInt64 <<< 32 ||| port
          m_ip := ip
          m_port := port.toUInt16
          m_data := data }

end ServiceItemInfo

end Sylar
