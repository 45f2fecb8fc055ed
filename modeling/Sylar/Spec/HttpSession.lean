import Sylar.Spec.Http
import Sylar.Spec.WSSession

/-! `HttpSession::recvRequest` of `HttpServer/http_session.cc`. `buff_size` is
`http.request.buffer_size`. What is in the buffer before `offset` is `data`. -/

namespace Sylar

open Lib

namespace Connection

/-- `read(buffer, length)`. Where there is an error, or the end, nothing is received. -/
def read (s : Connection) (length : ℕ) : List UInt8 × Connection :=
  if s.closed then ([], s)
  else
    let r := s.incoming.recv length
    (r.1, { s with incoming := r.2 })

section

variable {σ : Type} (P : Reader σ UInt8) (buff_size : ℕ)

/-- The loop at the beginning of `recvRequest` and of `recvResponse`. A turn that goes on has
received something, so there are no more turns than bytes, and one. -/
def recvHeader : ℕ → Connection → σ → List UInt8 → Option (σ × List UInt8) × Connection
  | 0, s, _, _ => (none, s)
  | turns + 1, s, parser, data =>
      let r := s.read (buff_size - data.length)
      let s := r.2
      if r.1.length = 0 then (none, s.close) else
      let data := data ++ r.1
      let e := P.execute parser data
      let parser := e.2
      if P.hasError parser then (none, s.close) else
      let data := data.drop e.1
      if (data.length : ℤ) = SocketStream.toInt buff_size then (none, s.close)
      else if P.isFinished parser then (some (parser, data), s)
      else recvHeader turns s parser data

end

/-- A body of `length` bytes, of which the first are in the buffer. -/
def recvBody (s : Connection) (data : List UInt8) (length : ℤ) : Option (List UInt8) × Connection :=
  let body := data.take length.toNat
  let left := length - data.length
  if left > 0 then
    let r := s.readFixSize left.toNat
    if r.1 ≤ 0 then (none, r.2.2.close) else (some (body ++ r.2.1), r.2.2)
  else (some body, s)

variable {σ : Type} (P : HttpRequestParser σ) (lexical_cast : List UInt8 → Option UInt64)
  (buff_size : ℕ)

def recvRequest (s : Connection) : Option HttpRequest × Connection :=
  match s.recvHeader P.toReader buff_size (s.incoming.bytes.length + 1) P.new [] with
  | (none, s) => (none, s)
  | (some (parser, data), s) =>
      let length := SocketStream.toInt64 (P.getContentLength lexical_cast parser).toNat
      if length > 0 then
        match s.recvBody data length with
        | (none, s) => (none, s)
        | (some body, s) => (some ((P.getData parser).setBody body).init, s)
      else (some (P.getData parser).init, s)

end Connection

end Sylar
