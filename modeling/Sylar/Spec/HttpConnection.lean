import Sylar.Spec.HttpSession
import Sylar.Spec.ZlibStream

/-! `HttpConnection::recvResponse` of `HttpServer/http_connection.cc`. What is in the buffer before
`len` is `data`; a count of bytes in it fits an `int`. -/

namespace Sylar

open Lib

namespace Connection

section

variable {σ : Type} (P : HttpResponseParser σ) (buff_size : ℕ)

/-- The loop up to the end of a chunk header. It first tries what is in the buffer, if anything.
After that a turn that goes on has received something. -/
def recvChunkHeader : ℕ → Connection → σ → List UInt8 → Bool → Option (σ × List UInt8) × Connection
  | 0, s, _, _, _ => (none, s)
  | turns + 1, s, parser, data, begin =>
      let reads := !begin || data.length = 0
      let r := if reads then s.read (buff_size - data.length) else ([], s)
      let s := r.2
      if reads && r.1.length = 0 then (none, s.close) else
      let data := data ++ r.1
      let e := P.executeChunk parser data
      let parser := e.2
      if P.hasError parser then (none, s.close) else
      let data := data.drop e.1
      if (data.length : ℤ) = SocketStream.toInt buff_size then (none, s.close)
      else if P.isFinished parser then (some (parser, data), s)
      else recvChunkHeader turns s parser data false

/-- `while(left > 0)`. A turn receives something, so `left` turns suffice. -/
def recvLeft : ℕ → Connection → ℤ → Option (List UInt8) × Connection
  | 0, s, _ => (some [], s)
  | turns + 1, s, left =>
      if left > 0 then
        let length := if left > SocketStream.toInt buff_size then SocketStream.toInt buff_size else left
        let r := s.read (length % 2 ^ 64).toNat
        if r.1.length = 0 then (none, r.2.close)
        else
          let more := recvLeft turns r.2 (left - r.1.length)
          (more.1.map fun data => r.1 ++ data, more.2)
      else (some [], s)

/-- The payload of a chunk, and two bytes. The buffer and the body after it. -/
def recvPayload (s : Connection) (content_len : ℤ) (data body : List UInt8) :
    Except Fault (Option (List UInt8 × List UInt8) × Connection) :=
  if content_len + 2 ≥ 2 ^ 31 then .error .undefined
  else if content_len + 2 ≤ data.length then
    if content_len < 0 then .error (.logicError "basic_string::append")
    else
      .ok (some (data.drop (content_len + 2).toNat, body ++ data.take content_len.toNat), s)
  else
    let left := content_len - data.length + 2
    match s.recvLeft buff_size left.toNat left with
    | (none, s) => .ok (none, s)
    | (some more, s) =>
        let body := body ++ data ++ more
        if body.length < 2 then .error (.logicError "basic_string::_M_replace_aux")
        else .ok (some ([], body.take (body.length - 2)), s)

/-- `do { .. } while(!client_parser.chunks_done)`. A turn that goes on has taken a byte out of the
buffer or the stream. -/
def recvChunks : ℕ → Connection → σ → List UInt8 → List UInt8 →
    Except Fault (Option (σ × List UInt8) × Connection)
  | 0, s, _, _, _ => .ok (none, s)
  | turns + 1, s, parser, data, body =>
      match s.recvChunkHeader P buff_size (s.incoming.bytes.length + 2) parser data true with
      | (none, s) => .ok (none, s)
      | (some (parser, data), s) =>
          match s.recvPayload buff_size (P.content_len parser) data body with
          | .error fault => .error fault
          | .ok (none, s) => .ok (none, s)
          | .ok (some (data, body), s) =>
              if P.chunks_done parser then .ok (some (parser, body), s)
              else recvChunks turns s parser data body

end

/-- `write`, `flush` and `getResult` of a stream that decodes. -/
def decoded (c : ZCoder) (body : List UInt8) : Except Fault (List UInt8) := do
  let written ← ZlibStream.code false (ZlibStream.create c 4096) [body]
  let flushed ← written.2.flush
  .ok flushed.2.m_buffs.flatten

/-- `gzip` and `deflate` are the streams that `CreateGzip(false)` and `CreateDeflate(false)`
make. -/
def decodedAs (gzip deflate : ZCoder) (content_encoding body : List UInt8) :
    Except Fault (List UInt8) :=
  if strcasecmp content_encoding (ascii "gzip") = .eq then decoded gzip body
  else if strcasecmp content_encoding (ascii "deflate") = .eq then decoded deflate body
  else .ok body

variable {σ : Type} (P : HttpResponseParser σ) (lexical_cast : List UInt8 → Option UInt64)
  (gzip deflate : ZCoder) (buff_size : ℕ)

def recvResponseBody (s : Connection) (parser : σ) (data : List UInt8) :
    Except Fault (Option (σ × List UInt8) × Connection) :=
  if P.chunked parser then
    s.recvChunks P buff_size (data.length + s.incoming.bytes.length + 1) parser data []
  else
    let length := SocketStream.toInt64 (P.getContentLength lexical_cast parser).toNat
    if length > 0 then
      let r := s.recvBody data length
      .ok (r.1.map fun body => (parser, body), r.2)
    else .ok (some (parser, []), s)

def recvResponse (s : Connection) : Except Fault (Option HttpResponse × Connection) :=
  match s.recvHeader P.toReader buff_size (s.incoming.bytes.length + 1) P.new [] with
  | (none, s) => .ok (none, s)
  | (some (parser, data), s) =>
      match s.recvResponseBody P lexical_cast buff_size parser data with
      | .error fault => .error fault
      | .ok (none, s) => .ok (none, s)
      | .ok (some (parser, body), s) =>
          if body ≠ [] then
            let content_encoding := (P.getData parser).getHeader (ascii "content-encoding") []
            (decodedAs gzip deflate content_encoding body).map fun body =>
              (some ((P.getData parser).setBody body), s)
          else .ok (some (P.getData parser), s)

end Connection

end Sylar
