import Sylar.Lib.Nodes
import Sylar.Spec.HttpDump
import Sylar.Spec.HttpSession

/-! `ServletDispatch` of `HttpServer/servlet.cc` and `HttpServer::handleClient` of `http_server.cc`.
A servlet is known by what `handle` does with the request and the response; what a servlet writes to
the session by itself is left out. A creator is the servlet that it gets. `fnmatch` is the function of
the C library, with true for a match. -/

namespace Sylar

open Lib

abbrev Servlet : Type := HttpRequest → HttpResponse → HttpRequest × HttpResponse

def notFoundServlet (name : List UInt8) : Servlet := fun request response =>
  let m_content := ascii "<html><head><title>404 Not Found" ++
    ascii "</title></head><body><center><h1>404 Not Found</h1></center>" ++
    ascii "<hr><center>" ++ name ++ ascii "</center></body></html>"
  let response := { response with m_status := 404 }
  let response := response.setHeader (ascii "Server") (ascii "Sylar/1.0.0")
  let response := response.setHeader (ascii "Content-Type") (ascii "text/html")
  (request, response.setBody m_content)

/-- `S` are the servlets. A default that is null is none. -/
structure ServletDispatch (S : Type) where
  m_datas : List (List UInt8 × S)
  m_globs : List (List UInt8 × S)
  m_default : Option S

namespace ServletDispatch

variable {S : Type} (d : ServletDispatch S)

def addServlet (uri : List UInt8) (slt : S) : ServletDispatch S :=
  { d with m_datas := Assoc.set d.m_datas uri slt }

def delGlobServlet (uri : List UInt8) : ServletDispatch S :=
  { d with m_globs := d.m_globs.eraseP fun i => i.1 = uri }

def addGlobServlet (uri : List UInt8) (slt : S) : ServletDispatch S :=
  { d with m_globs := (d.delGlobServlet uri).m_globs ++ [(uri, slt)] }

def delServlet (uri : List UInt8) : ServletDispatch S :=
  { d with m_datas := Assoc.without d.m_datas uri }

def setDefault (v : Option S) : ServletDispatch S := { d with m_default := v }

def getServlet (uri : List UInt8) : Option S := Assoc.find d.m_datas uri

def getGlobServlet (uri : List UInt8) : Option S :=
  (d.m_globs.find? fun i => i.1 = uri).map Prod.snd

def getMatchedServlet (fnmatch : List UInt8 → List UInt8 → Bool) (uri : List UInt8) : Option S :=
  match Assoc.find d.m_datas uri with
  | some slt => some slt
  | none =>
      match d.m_globs.find? fun i => fnmatch i.1 uri with
      | some i => some i.2
      | none => d.m_default

def handle (fnmatch : List UInt8 → List UInt8 → Bool) (d : ServletDispatch Servlet) : Servlet :=
  fun request response =>
    match d.getMatchedServlet fnmatch request.m_path with
    | some slt => slt request response
    | none => (request, response)

inductive Op (S : Type) where
  | addServlet (uri : List UInt8) (slt : S)
  | delServlet (uri : List UInt8)
  | addGlobServlet (uri : List UInt8) (slt : S)
  | delGlobServlet (uri : List UInt8)
  | setDefault (v : Option S)

def apply : Op S → ServletDispatch S
  | .addServlet uri slt => d.addServlet uri slt
  | .delServlet uri => d.delServlet uri
  | .addGlobServlet uri slt => d.addGlobServlet uri slt
  | .delGlobServlet uri => d.delGlobServlet uri
  | .setDefault v => d.setDefault v

/-- `ServletDispatch()`, with its `NotFoundServlet`. -/
def new (m_default : S) : ServletDispatch S := ⟨[], [], some m_default⟩

end ServletDispatch

structure HttpServer where
  m_name : List UInt8
  m_isKeepalive : Bool
  m_dispatch : ServletDispatch Servlet

namespace HttpServer

section

variable (server : HttpServer) (fnmatch : List UInt8 → List UInt8 → Bool)

/-- What comes of a request: the response, and whether the request asks for the end. -/
def respond (req : HttpRequest) : HttpResponse × Bool :=
  let rsp := HttpResponse.new req.m_version (req.m_close || !server.m_isKeepalive)
  let rsp := rsp.setHeader (ascii "Server") server.m_name
  let r := server.m_dispatch.handle fnmatch req rsp
  (r.2, r.1.m_close)

end

variable {σ : Type} (P : HttpRequestParser σ) (lexical_cast : List UInt8 → Option UInt64)
  (buff_size : ℕ) (fnmatch : List UInt8 → List UInt8 → Bool)

/-- The loop, and `close` behind it. `servers k` is the server as it is for the request `k`. A turn that
goes on has received something, so there are no more turns than bytes, and one. -/
def serve (servers : ℕ → HttpServer) : ℕ → ℕ → Connection → Connection
  | 0, _, session => session
  | turns + 1, k, session =>
      match session.recvRequest P lexical_cast buff_size with
      | (none, session) => session.close
      | (some req, session) =>
          let r := (servers k).respond fnmatch req
          let session := (session.writeFixSize r.1.dump).2
          if !(servers k).m_isKeepalive || r.2 then session.close
          else serve servers turns (k + 1) session

def handleClient (servers : ℕ → HttpServer) (client : Connection) : Connection :=
  serve P lexical_cast buff_size fnmatch servers (client.incoming.bytes.length + 1) 0 client

end HttpServer

end Sylar
