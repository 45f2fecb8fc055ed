import Sylar.Spec.StringUtil

/-! The maps of `HttpRequest` and what `initQueryParam`, `initBodyParam` and `initCookies` put into
them. -/

namespace Sylar

open Lib

namespace MapType

variable (m : MapType)

def place (kv : List UInt8 × List UInt8) : MapType :=
  m.takeWhile (fun i => strcasecmp i.1 kv.1 = .lt) ++
    kv :: m.dropWhile fun i => strcasecmp i.1 kv.1 = .lt

def insert (kv : List UInt8 × List UInt8) : MapType :=
  if (m.find kv.1).isSome then m else m.place kv

def set (key val : List UInt8) : MapType :=
  if (m.find key).isSome then m.map fun i => if strcasecmp i.1 key = .eq then (i.1, val) else i
  else m.place (key, val)

end MapType

def strcasestr (haystack needle : List UInt8) : Bool :=
  (cut (needle.map tolower) ((haystack.takeWhile (· ≠ 0)).map tolower)).isSome

/-- `PARSE_PARAM(str, m, flag, trim)` from `pos` on, where `m` is whatever pairs are inserted into. -/
def PARSE_PARAM {M : Type} (insert : M → List UInt8 × List UInt8 → M) (str : List UInt8) (m : M)
    (flag : UInt8) (trim : List UInt8 → List UInt8) (pos : ℕ) : M :=
  match _hkey : findFrom [0x3D] str pos with
  | none => m
  | some key =>
      match _hpos : findFrom [flag] str key with
      | none =>
          insert m (trim (substr str pos (key - pos)), StringUtil.UrlDecode (str.drop (key + 1)) true)
      | some pos' =>
          PARSE_PARAM insert str
            (insert m (trim (substr str pos (key - pos)),
              StringUtil.UrlDecode (substr str (key + 1) (pos' - key - 1)) true))
            flag trim (pos' + 1)
termination_by str.length - pos
decreasing_by
  have := findFrom_singleton_lt _hkey
  have := findFrom_singleton_lt _hpos
  omega

namespace HttpRequest

variable (req : HttpRequest)

def setHeader (key val : List UInt8) : HttpRequest :=
  { req with m_headers := req.m_headers.set key val }

def initQueryParam : HttpRequest :=
  if req.m_parserParamFlag &&& 0x1 ≠ 0 then req
  else
    { req with
      m_params := PARSE_PARAM MapType.insert req.m_query req.m_params 0x26 id 0
      m_parserParamFlag := req.m_parserParamFlag ||| 0x1 }

def initBodyParam : HttpRequest :=
  if req.m_parserParamFlag &&& 0x2 ≠ 0 then req
  else
    let content_type := req.getHeader (ascii "content-type") []
    if !strcasestr content_type (ascii "application/x-www-form-urlencoded") then
      { req with m_parserParamFlag := req.m_parserParamFlag ||| 0x2 }
    else
      { req with
        m_params := PARSE_PARAM MapType.insert req.m_body req.m_params 0x26 id 0
        m_parserParamFlag := req.m_parserParamFlag ||| 0x2 }

def initCookies : HttpRequest :=
  if req.m_parserParamFlag &&& 0x4 ≠ 0 then req
  else
    let cookie := req.getHeader (ascii "cookie") []
    if cookie = [] then { req with m_parserParamFlag := req.m_parserParamFlag ||| 0x4 }
    else
      { req with
        m_cookies := PARSE_PARAM MapType.insert cookie req.m_cookies 0x3B
          (fun str => StringUtil.Trim str StringUtil.whitespace) 0
        m_parserParamFlag := req.m_parserParamFlag ||| 0x4 }

def getParam (key dflt : List UInt8) : List UInt8 × HttpRequest :=
  let req := req.initQueryParam.initBodyParam
  ((req.m_params.find key).getD dflt, req)

def getCookie (key dflt : List UInt8) : List UInt8 × HttpRequest :=
  let req := req.initCookies
  ((req.m_cookies.find key).getD dflt, req)

end HttpRequest

end Sylar
