import Sylar.Lib.Reader

/-! Requests and responses of `HttpServer/http.h` and `http.cc`, and the parsers of
`http_parser.cc`. A string is its bytes. -/

namespace Sylar

open Lib

inductive HttpMethod where
  | DELETE | GET | HEAD | POST | PUT | CONNECT | OPTIONS | TRACE | COPY | LOCK | MKCOL | MOVE
  | PROPFIND | PROPPATCH | SEARCH | UNLOCK | BIND | REBIND | UNBIND | ACL | REPORT | MKACTIVITY
  | CHECKOUT | MERGE | MSEARCH | NOTIFY | SUBSCRIBE | UNSUBSCRIBE | PATCH | PURGE | MKCALENDAR
  | LINK | UNLINK | SOURCE | INVALID_METHOD
deriving DecidableEq, Repr

def ascii (s : String) : List UInt8 := s.toList.map fun c => UInt8.ofNat c.toNat

def tolower (c : UInt8) : UInt8 := if 65 ≤ c ∧ c ≤ 90 then c + 32 else c

def strcasecmp (lhs rhs : List UInt8) : Ordering :=
  compare ((lhs.takeWhile (· ≠ 0)).map tolower) ((rhs.takeWhile (· ≠ 0)).map tolower)

/-- A `std::map` with `CaseInsensitiveLess`, in the order of its keys. -/
abbrev MapType : Type := List (List UInt8 × List UInt8)

namespace MapType

variable (m : MapType) (key : List UInt8)

def find : Option (List UInt8) := (m.find? fun i => strcasecmp i.1 key = .eq).map Prod.snd

/-- `lexical_cast` is nothing where it throws. -/
def getAs {T : Type} (lexical_cast : List UInt8 → Option T) (dflt : T) : T :=
  ((m.find key).bind lexical_cast).getD dflt

end MapType

structure HttpRequest where
  m_method : HttpMethod
  m_version : UInt8
  m_close : Bool
  m_websocket : Bool
  m_parserParamFlag : UInt8
  m_path : List UInt8
  m_query : List UInt8
  m_fragment : List UInt8
  m_body : List UInt8
  m_headers : MapType
  m_params : MapType
  m_cookies : MapType
deriving DecidableEq, Repr

namespace HttpRequest

def new (version : UInt8) (close : Bool) : HttpRequest where
  m_method := .GET
  m_version := version
  m_close := close
  m_websocket := false
  m_parserParamFlag := 0
  m_path := ascii "/"
  m_query := []
  m_fragment := []
  m_body := []
  m_headers := []
  m_params := []
  m_cookies := []

variable (req : HttpRequest)

def getHeader (key dflt : List UInt8) : List UInt8 := (req.m_headers.find key).getD dflt

def setBody (v : List UInt8) : HttpRequest := { req with m_body := v }

def init : HttpRequest :=
  let conn := req.getHeader (ascii "connection") []
  if conn ≠ [] then
    if strcasecmp conn (ascii "keep-alive") = .eq then { req with m_close := false }
    else { req with m_close := true }
  else req

end HttpRequest

/-- `m_status` is any `int`: the parser casts what it reads. -/
structure HttpResponse where
  m_status : Int32
  m_version : UInt8
  m_close : Bool
  m_websocket : Bool
  m_body : List UInt8
  m_reason : List UInt8
  m_headers : MapType
  m_cookies : List (List UInt8)
deriving DecidableEq

namespace HttpResponse

def new (version : UInt8) (close : Bool) : HttpResponse where
  m_status := 200
  m_version := version
  m_close := close
  m_websocket := false
  m_body := []
  m_reason := []
  m_headers := []
  m_cookies := []

variable (rsp : HttpResponse)

def getHeader (key dflt : List UInt8) : List UInt8 := (rsp.m_headers.find key).getD dflt

def setBody (v : List UInt8) : HttpResponse := { rsp with m_body := v }

end HttpResponse

/-- `HttpRequestParser` over a generated machine. The callbacks that `execute` calls fill what
`getData` gives. -/
structure HttpRequestParser (σ : Type) extends Reader σ UInt8 where
  new : σ
  getData : σ → HttpRequest

def HttpRequestParser.getContentLength {σ : Type} (P : HttpRequestParser σ)
    (lexical_cast : List UInt8 → Option UInt64) (parser : σ) : UInt64 :=
  (P.getData parser).m_headers.getAs (ascii "content-length") lexical_cast 0

/-- `HttpResponseParser` over a generated machine, which `init` resets. -/
structure HttpResponseParser (σ : Type) extends Reader σ UInt8 where
  new : σ
  getData : σ → HttpResponse
  init : σ → σ
  content_len : σ → ℤ
  chunked : σ → Bool
  chunks_done : σ → Bool

namespace HttpResponseParser

variable {σ : Type} (P : HttpResponseParser σ)

def getContentLength (lexical_cast : List UInt8 → Option UInt64) (parser : σ) : UInt64 :=
  (P.getData parser).m_headers.getAs (ascii "content-length") lexical_cast 0

def executeChunk (parser : σ) (data : List UInt8) : ℕ × σ := P.execute (P.init parser) data

end HttpResponseParser

end Sylar
