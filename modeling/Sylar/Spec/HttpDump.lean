import Sylar.Spec.HttpParams

/-! `dump` of `HttpRequest` and of `HttpResponse`: what goes out as text. -/

namespace Sylar

def s_method_string : List String := [
  "DELETE", "GET", "HEAD", "POST", "PUT", "CONNECT", "OPTIONS", "TRACE", "COPY", "LOCK", "MKCOL",
  "MOVE", "PROPFIND", "PROPPATCH", "SEARCH", "UNLOCK", "BIND", "REBIND", "UNBIND", "ACL",
  "REPORT", "MKACTIVITY", "CHECKOUT", "MERGE", "M-SEARCH", "NOTIFY", "SUBSCRIBE", "UNSUBSCRIBE",
  "PATCH", "PURGE", "MKCALENDAR", "LINK", "UNLINK", "SOURCE"]

def HttpMethodToString (m : HttpMethod) : List UInt8 :=
  ascii (s_method_string.getD m.ctorIdx "<unknown>")

def statusTexts : List (Int32 × String) := [
  (100, "Continue"), (101, "Switching Protocols"), (102, "Processing"), (200, "OK"),
  (201, "Created"), (202, "Accepted"), (203, "Non-Authoritative Information"),
  (204, "No Content"), (205, "Reset Content"), (206, "Partial Content"), (207, "Multi-Status"),
  (208, "Already Reported"), (226, "IM Used"), (300, "Multiple Choices"),
  (301, "Moved Permanently"), (302, "Found"), (303, "See Other"), (304, "Not Modified"),
  (305, "Use Proxy"), (307, "Temporary Redirect"), (308, "Permanent Redirect"),
  (400, "Bad Request"), (401, "Unauthorized"), (402, "Payment Required"), (403, "Forbidden"),
  (404, "Not Found"), (405, "Method Not Allowed"), (406, "Not Acceptable"),
  (407, "Proxy Authentication Required"), (408, "Request Timeout"), (409, "Conflict"),
  (410, "Gone"), (411, "Length Required"), (412, "Precondition Failed"),
  (413, "Payload Too Large"), (414, "URI Too Long"), (415, "Unsupported Media Type"),
  (416, "Range Not Satisfiable"), (417, "Expectation Failed"), (421, "Misdirected Request"),
  (422, "Unprocessable Entity"), (423, "Locked"), (424, "Failed Dependency"),
  (426, "Upgrade Required"), (428, "Precondition Required"), (429, "Too Many Requests"),
  (431, "Request Header Fields Too Large"), (451, "Unavailable For Legal Reasons"),
  (500, "Internal Server Error"), (501, "Not Implemented"), (502, "Bad Gateway"),
  (503, "Service Unavailable"), (504, "Gateway Timeout"), (505, "HTTP Version Not Supported"),
  (506, "Variant Also Negotiates"), (507, "Insufficient Storage"), (508, "Loop Detected"),
  (510, "Not Extended"), (511, "Network Authentication Required")]

def HttpStatusToString (s : Int32) : List UInt8 := ascii ((statusTexts.lookup s).getD "<unknown>")

def decimalText (n : ℕ) : List UInt8 := ascii (toString n)

def crlf : List UInt8 := [0x0D, 0x0A]

def dumpVersion (m_version : UInt8) : List UInt8 :=
  ascii "HTTP/" ++ decimalText (m_version >>> 4).toNat ++ ascii "." ++
    decimalText (m_version &&& 0x0F).toNat

def dumpConnection (m_websocket m_close : Bool) : List UInt8 :=
  if !m_websocket then
    ascii "connection: " ++ (if m_close then ascii "close" else ascii "keep-alive") ++ crlf
  else []

def dumpHeaders (m_websocket : Bool) (m_headers : MapType) : List UInt8 :=
  m_headers.flatMap fun i =>
    if !m_websocket && strcasecmp i.1 (ascii "connection") = .eq then []
    else i.1 ++ ascii ": " ++ i.2 ++ crlf

def dumpBody (m_body : List UInt8) : List UInt8 :=
  if m_body ≠ [] then
    ascii "content-length: " ++ decimalText m_body.length ++ crlf ++ crlf ++ m_body
  else crlf

namespace HttpRequest

variable (req : HttpRequest)

def startLine : List UInt8 :=
  HttpMethodToString req.m_method ++ ascii " " ++ req.m_path ++
    (if req.m_query = [] then [] else ascii "?") ++ req.m_query ++
    (if req.m_fragment = [] then [] else ascii "#") ++ req.m_fragment ++ ascii " " ++
    dumpVersion req.m_version

def dump : List UInt8 :=
  req.startLine ++ crlf ++ dumpConnection req.m_websocket req.m_close ++
    dumpHeaders req.m_websocket req.m_headers ++ dumpBody req.m_body

end HttpRequest

namespace HttpResponse

variable (rsp : HttpResponse)

def setHeader (key val : List UInt8) : HttpResponse :=
  { rsp with m_headers := rsp.m_headers.set key val }

def startLine : List UInt8 :=
  dumpVersion rsp.m_version ++ ascii " " ++ decimalText rsp.m_status.toUInt32.toNat ++ ascii " " ++
    if rsp.m_reason = [] then HttpStatusToString rsp.m_status else rsp.m_reason

def dump : List UInt8 :=
  rsp.startLine ++ crlf ++ dumpHeaders rsp.m_websocket rsp.m_headers ++
    (rsp.m_cookies.flatMap fun i => ascii "Set-Cookie: " ++ i ++ crlf) ++
    dumpConnection rsp.m_websocket rsp.m_close ++ dumpBody rsp.m_body

end HttpResponse

end Sylar
