import Sylar.Proofs.HttpSession
import Sylar.Proofs.ZlibStream
import Sylar.Spec.HttpConnection

/-! Chunked responses. The parser is reset before each try at a chunk header, so a header that a
read has cut is not put together again. Where each header is whole when it is tried, the body is
put together of all payloads, however those are cut. -/

namespace Sylar

open Lib

namespace Connection

variable {σ : Type} {s : Connection} {data bytes post : List UInt8} {buff_size : ℕ}

def fill (buff_size : ℕ) (data : List UInt8) (s : SocketStream) : List UInt8 × SocketStream :=
  if data.length = 0 then s.recv buff_size else (data, s)

/-- The stream behind `left` bytes that are read past the buffer. -/
def afterLeft (buff_size : ℕ) : ℕ → SocketStream → ℕ → SocketStream
  | 0, s, _ => s
  | turns + 1, s, left =>
      if left = 0 then s
      else
        let r := s.recv (min left (SocketStream.toInt buff_size).toNat)
        afterLeft buff_size turns r.2 (left - r.1.length)

/-- What is in the buffer behind a chunk, and the stream. -/
def afterChunk (buff_size line size : ℕ) (data : List UInt8) (s : SocketStream) :
    List UInt8 × SocketStream :=
  let r := fill buff_size data s
  let left := r.1.length - line
  if size + 2 ≤ left then (r.1.drop (line + (size + 2)), r.2)
  else ([], afterLeft buff_size (size + 2 - left) r.2 (size + 2 - left))

/-- A chunk header is whole when it is tried. The lengths are those that the code can count. -/
def HeaderWhole (buff_size line size : ℕ) (data : List UInt8) (s : SocketStream) : Prop :=
  line ≤ (fill buff_size data s).1.length ∧
    (((fill buff_size data s).1.length - line : ℕ) : ℤ) ≠ SocketStream.toInt buff_size ∧
    size + 2 < 2 ^ 31 ∧
    ((fill buff_size data s).1.length - line < size + 2 → 0 < SocketStream.toInt buff_size)

/-- For the lengths of chunk headers and of the payloads behind them. -/
def HeadersWhole (buff_size : ℕ) : List (ℕ × ℕ) → List UInt8 → SocketStream → Prop
  | [], _, _ => True
  | (line, size) :: rest, data, s =>
      HeaderWhole buff_size line size data s ∧
        HeadersWhole buff_size rest (afterChunk buff_size line size data s).1
          (afterChunk buff_size line size data s).2

theorem toNat_room (hbuff : 0 < SocketStream.toInt buff_size) (left : ℕ) :
    ((if (left : ℤ) > SocketStream.toInt buff_size then SocketStream.toInt buff_size else left) %
      2 ^ 64).toNat = min left (SocketStream.toInt buff_size).toNat := by
  have hint : SocketStream.toInt buff_size < 2 ^ 31 := by
    have := Int.bmod_lt (x := (buff_size : ℤ)) (m := 2 ^ 32) (by norm_num)
    unfold SocketStream.toInt
    omega
  generalize SocketStream.toInt buff_size = room at *
  have hmod : (if (left : ℤ) > room then room else left) % 2 ^ 64 =
      if (left : ℤ) > room then room else left :=
    Int.emod_eq_of_lt (by split_ifs <;> omega) (by split_ifs <;> omega)
  rw [hmod]
  split_ifs <;> omega

theorem recvLeft_takes (hbuff : 0 < SocketStream.toInt buff_size) :
    ∀ (turns : ℕ) (s : Connection) (data post : List UInt8), data.length ≤ turns →
    s.Has (data ++ post) →
    s.recvLeft buff_size turns data.length =
        (some data, { s with incoming := afterLeft buff_size turns s.incoming data.length }) ∧
      (afterLeft buff_size turns s.incoming data.length).bytes = post := by
  intro turns
  induction turns with
  | zero =>
    intro s data post hturns hs
    have hnil : data = [] := List.length_eq_zero_iff.mp (by omega)
    subst hnil
    exact ⟨rfl, hs.bytes⟩
  | succ turns ih =>
    intro s data post hturns hs
    by_cases h0 : data.length = 0
    · have hnil : data = [] := List.length_eq_zero_iff.mp h0
      subst hnil
      exact ⟨rfl, hs.bytes⟩
    · have hbytes : s.incoming.bytes.length = data.length + post.length := by
        rw [hs.bytes, List.length_append]
      rw [recvLeft, afterLeft, if_pos (by omega), if_neg h0]
      dsimp only
      rw [toNat_room hbuff]
      have hm : 0 < min data.length (SocketStream.toInt buff_size).toNat := by omega
      have hm' : min data.length (SocketStream.toInt buff_size).toNat ≤ data.length := Nat.min_le_left _ _
      generalize min data.length (SocketStream.toInt buff_size).toNat = m at hm hm' ⊢
      obtain ⟨hgot, hrest, hn, -, hroom, hpos⟩ := recv_takes s.incoming m
      generalize s.incoming.cut (min m s.incoming.bytes.length) = n at *
      have hsome : 0 < n := hpos hm (by omega)
      rw [hs.bytes, List.take_append_of_le_length (by omega)] at hgot
      rw [hs.bytes, List.drop_append_of_le_length (by omega)] at hrest
      have hcount : data.length - n = (data.drop n).length := List.length_drop.symm
      have hleft : (data.length : ℤ) - (n : ℕ) = ((data.drop n).length : ℕ) := by omega
      obtain ⟨hloop, hpost⟩ := ih { s with incoming := (s.incoming.recv m).2 } (data.drop n) post
        (by omega) ⟨hrest, hs.closed⟩
      rw [read_open hs.closed, hn, if_neg (by omega), hleft, hloop, hcount, hgot]
      refine ⟨?_, hpost⟩
      rw [Option.map_some, List.take_append_drop]

/-- The parser has read a chunk header of the size. No extension in it was taken for the encoding
of the body. -/
structure SizeRead (P : HttpResponseParser σ) (size : ℕ) (parser parser' : σ) : Prop where
  content_len : P.content_len parser' = SocketStream.toInt size
  chunks_done : P.chunks_done parser' = true ↔ P.content_len parser' ≤ 0
  body : (P.getData parser').m_body = (P.getData parser).m_body
  encoding : (P.getData parser').getHeader (ascii "content-encoding") [] =
    (P.getData parser).getHeader (ascii "content-encoding") []

/-- A chunk header of the size. The parser, which is reset before, takes all of it and nothing of what
is behind it. -/
structure ChunkHeader (P : HttpResponseParser σ) (line : List UInt8) (size : ℕ) : Prop where
  nonempty : 0 < line.length
  whole : ∀ parser, P.hasError parser = false → ∃ parser',
    (∀ more, P.executeChunk parser (line ++ more) = (line.length, parser')) ∧
      P.hasError parser' = false ∧ P.isFinished parser' = true ∧ SizeRead P size parser parser'

theorem fill_append (buff_size : ℕ) (data : List UInt8) (s : SocketStream) :
    (fill buff_size data s).1 ++ (fill buff_size data s).2.bytes = data ++ s.bytes := by
  unfold fill
  split_ifs with h0
  · obtain ⟨hgot, hrest, -, -, -, -⟩ := recv_takes s buff_size
    rw [hgot, hrest, List.take_append_drop, List.length_eq_zero_iff.mp h0, List.nil_append]
  · rfl

theorem recvChunkHeader_whole {P : HttpResponseParser σ} {line : List UInt8} {size : ℕ} {parser : σ}
    (hline : ChunkHeader P line size) (hparser : P.hasError parser = false)
    (hs : s.closed = false) (hdata : data ++ s.incoming.bytes = line ++ post)
    (hwhole : line.length ≤ (fill buff_size data s.incoming).1.length)
    (hfull : (((fill buff_size data s.incoming).1.length - line.length : ℕ) : ℤ) ≠
      SocketStream.toInt buff_size) (turns : ℕ) :
    ∃ parser', s.recvChunkHeader P buff_size (turns + 1) parser data true =
        (some (parser', (fill buff_size data s.incoming).1.drop line.length),
          { s with incoming := (fill buff_size data s.incoming).2 }) ∧
      (fill buff_size data s.incoming).1.drop line.length ++
        (fill buff_size data s.incoming).2.bytes = post ∧
      P.hasError parser' = false ∧ SizeRead P size parser parser' := by
  obtain ⟨parser', htakes, hsound, hfinished, hread⟩ := hline.whole parser hparser
  have hpos := hline.nonempty
  have hall := (fill_append buff_size data s.incoming).trans hdata
  have htake : (fill buff_size data s.incoming).1.take line.length = line := by
    have hline := congrArg (List.take line.length) hall
    rwa [List.take_append_of_le_length hwhole, List.take_left] at hline
  have hpost : (fill buff_size data s.incoming).1.drop line.length ++
      (fill buff_size data s.incoming).2.bytes = post := by
    rw [← List.drop_append_of_le_length hwhole, hall, List.drop_left]
  have hexecute : P.executeChunk parser (fill buff_size data s.incoming).1 =
      (line.length, parser') := by
    have hlast := htakes ((fill buff_size data s.incoming).1.drop line.length)
    nth_rewrite 1 [← htake] at hlast
    rwa [List.take_append_drop] at hlast
  refine ⟨parser', ?_, hpost, hsound, hread⟩
  rw [recvChunkHeader]
  by_cases h0 : data.length = 0
  · have hnil : data = [] := List.length_eq_zero_iff.mp h0
    have hfill : fill buff_size data s.incoming = s.incoming.recv buff_size := if_pos h0
    rw [hfill] at hexecute hwhole hfull ⊢
    have hsome : ¬ (true && decide ((s.incoming.recv buff_size).1.length = 0)) = true := by
      rw [Bool.true_and, decide_eq_true_eq]
      omega
    simp only [h0, Bool.not_true, Bool.false_or, decide_true, if_true, Nat.sub_zero, read_open hs]
    rw [if_neg hsome, hnil, List.nil_append, hexecute]
    dsimp only
    rw [hsound, if_neg Bool.false_ne_true, List.length_drop, if_neg hfull, if_pos hfinished]
  · have hfill : fill buff_size data s.incoming = (data, s.incoming) := if_neg h0
    rw [hfill] at hexecute hfull ⊢
    simp only [h0, Bool.not_true, Bool.false_or, decide_false, Bool.false_and, if_false,
      Bool.false_eq_true, List.append_nil]
    rw [hexecute]
    dsimp only
    rw [hsound, if_neg Bool.false_ne_true, List.length_drop, if_neg hfull, if_pos hfinished]

/-- The payload and the end of its line, of which the first bytes are in the buffer. -/
theorem recvPayload_buffered (buff_size : ℕ) (body : List UInt8) (s : Connection)
    {payload ending : List UInt8}
    (hdata : data ++ bytes = payload ++ (ending ++ post)) (hending : ending.length = 2)
    (hsize : payload.length + 2 < 2 ^ 31) (hall : payload.length + 2 ≤ data.length) :
    s.recvPayload buff_size payload.length data body =
        .ok (some (data.drop (payload.length + 2), body ++ payload), s) ∧
      data.drop (payload.length + 2) ++ bytes = post := by
  have htake : data.take payload.length = payload := by
    have hpayload := congrArg (List.take payload.length) hdata
    rwa [List.take_append_of_le_length (by omega), List.take_left] at hpayload
  have hdrop : data.drop (payload.length + 2) ++ bytes = post := by
    have hlength : (payload ++ ending).length = payload.length + 2 := by
      rw [List.length_append, hending]
    rw [← List.append_assoc] at hdata
    have hpost := congrArg (List.drop (payload ++ ending).length) hdata
    rwa [List.drop_left, hlength, List.drop_append_of_le_length hall] at hpost
  refine ⟨?_, hdrop⟩
  have hcount : ((payload.length : ℤ) + 2).toNat = payload.length + 2 := by omega
  unfold recvPayload
  rw [if_neg (by omega), if_pos (by omega), if_neg (by omega), hcount, Int.toNat_natCast, htake]

theorem recvPayload_left (body : List UInt8) {payload ending : List UInt8}
    (hs : s.Has bytes) (hdata : data ++ bytes = payload ++ (ending ++ post))
    (hending : ending.length = 2) (hsize : payload.length + 2 < 2 ^ 31)
    (hpart : data.length < payload.length + 2) (hbuff : 0 < SocketStream.toInt buff_size) :
    s.recvPayload buff_size payload.length data body =
        .ok (some ([], body ++ payload),
          { s with
            incoming := afterLeft buff_size (payload.length + 2 - data.length) s.incoming
              (payload.length + 2 - data.length) }) ∧
      (afterLeft buff_size (payload.length + 2 - data.length) s.incoming
        (payload.length + 2 - data.length)).bytes = post := by
  have hdata' : data ++ bytes = (payload ++ ending) ++ post := by rw [hdata, List.append_assoc]
  have hlength : (payload ++ ending).length = payload.length + 2 := by
    rw [List.length_append, hending]
  have htake : (payload ++ ending).take data.length = data := by
    have hprefix := congrArg (List.take data.length) hdata'
    rw [List.take_left, List.take_append_of_le_length (by omega)] at hprefix
    exact hprefix.symm
  have hdrop : bytes = (payload ++ ending).drop data.length ++ post := by
    have hrest := congrArg (List.drop data.length) hdata'
    rwa [List.drop_left, List.drop_append_of_le_length (by omega)] at hrest
  have hcount : ((payload ++ ending).drop data.length).length = payload.length + 2 - data.length := by
    rw [List.length_drop, hlength]
  rw [hdrop] at hs
  obtain ⟨hloop, hpost⟩ := recvLeft_takes hbuff _ s _ post hcount.le hs
  rw [hcount] at hloop hpost
  refine ⟨?_, hpost⟩
  have hleft : (payload.length : ℤ) - data.length + 2 = ((payload.length + 2 - data.length : ℕ) : ℤ) := by
    omega
  have hbody : body ++ data ++ (payload ++ ending).drop data.length = body ++ payload ++ ending := by
    rw [List.append_assoc]
    nth_rewrite 1 [← htake]
    rw [List.take_append_drop, List.append_assoc]
  unfold recvPayload
  rw [if_neg (by omega), if_neg (by omega)]
  dsimp only
  rw [hleft, Int.toNat_natCast, hloop]
  dsimp only
  have hends : (body ++ payload ++ ending).length - 2 = (body ++ payload).length := by
    rw [List.length_append, hending, Nat.add_sub_cancel]
  rw [hbody, if_neg (by rw [List.length_append, hending]; omega), hends, List.take_left]

theorem recvChunks_turn (body : List UInt8) {P : HttpResponseParser σ}
    {line payload ending : List UInt8} {parser : σ}
    (hline : ChunkHeader P line payload.length) (hparser : P.hasError parser = false)
    (hs : s.closed = false) (hdata : data ++ s.incoming.bytes = line ++ (payload ++ (ending ++ post)))
    (hending : ending.length = 2)
    (hwhole : HeaderWhole buff_size line.length payload.length data s.incoming) :
    ∃ parser', P.hasError parser' = false ∧ SizeRead P payload.length parser parser' ∧
      (afterChunk buff_size line.length payload.length data s.incoming).1 ++
        (afterChunk buff_size line.length payload.length data s.incoming).2.bytes = post ∧
      ∀ turns, s.recvChunks P buff_size (turns + 1) parser data body =
        if P.chunks_done parser' then
          .ok (some (parser', body ++ payload),
            { s with incoming := (afterChunk buff_size line.length payload.length data s.incoming).2 })
        else
          recvChunks P buff_size turns
            { s with incoming := (afterChunk buff_size line.length payload.length data s.incoming).2 }
            parser' (afterChunk buff_size line.length payload.length data s.incoming).1
            (body ++ payload) := by
  obtain ⟨hin, hfull, hsize, hbuff⟩ := hwhole
  obtain ⟨parser', hheader, hleft, hsound, hread⟩ :=
    recvChunkHeader_whole hline hparser hs hdata hin hfull (s.incoming.bytes.length + 1)
  have hlen : P.content_len parser' = (payload.length : ℕ) := by
    rw [hread.content_len, SocketStream.toInt_of_lt (by omega)]
  have hcount : ((fill buff_size data s.incoming).1.drop line.length).length =
      (fill buff_size data s.incoming).1.length - line.length := List.length_drop
  refine ⟨parser', hsound, hread, ?_⟩
  unfold afterChunk
  dsimp only
  by_cases hall : payload.length + 2 ≤ (fill buff_size data s.incoming).1.length - line.length
  · obtain ⟨hpayload, hpost⟩ := recvPayload_buffered buff_size body
      { s with incoming := (fill buff_size data s.incoming).2 } hleft hending hsize (by omega)
    rw [List.drop_drop] at hpayload hpost
    rw [if_pos hall]
    refine ⟨hpost, fun turns => ?_⟩
    rw [recvChunks, hheader]
    dsimp only
    rw [hlen, hpayload]
  · have hs' : Has { s with incoming := (fill buff_size data s.incoming).2 }
        (fill buff_size data s.incoming).2.bytes := ⟨rfl, hs⟩
    obtain ⟨hpayload, hpost⟩ := recvPayload_left body hs' hleft hending hsize (by omega)
      (hbuff (by omega))
    rw [hcount] at hpayload hpost
    rw [if_neg hall]
    refine ⟨hpost, fun turns => ?_⟩
    rw [recvChunks, hheader]
    dsimp only
    rw [hlen, hpayload]

structure Chunk (P : HttpResponseParser σ) where
  line : List UInt8
  payload : List UInt8
  header : ChunkHeader P line payload.length
  nonempty : 0 < payload.length

namespace Chunk

variable {P : HttpResponseParser σ}

def sent (c : Chunk P) : List UInt8 := c.line ++ (c.payload ++ ascii "\r\n")

def sizes (c : Chunk P) : ℕ × ℕ := (c.line.length, c.payload.length)

end Chunk

theorem recvChunks_whole {P : HttpResponseParser σ} {last tail : List UInt8}
    (hlast : ChunkHeader P last 0) (htail : 2 ≤ tail.length) :
    ∀ (chunks : List (Chunk P)) (turns : ℕ) (s : Connection) (parser : σ) (data body : List UInt8),
    P.hasError parser = false → s.closed = false →
    data ++ s.incoming.bytes = chunks.flatMap Chunk.sent ++ (last ++ tail) →
    data.length + s.incoming.bytes.length < turns →
    HeadersWhole buff_size (chunks.map Chunk.sizes ++ [(last.length, 0)]) data s.incoming →
    ∃ parser' s', s.recvChunks P buff_size turns parser data body =
        .ok (some (parser', body ++ chunks.flatMap Chunk.payload), s') ∧
      (P.getData parser').m_body = (P.getData parser).m_body ∧
      (P.getData parser').getHeader (ascii "content-encoding") [] =
        (P.getData parser).getHeader (ascii "content-encoding") [] := by
  intro chunks
  induction chunks with
  | nil =>
    intro turns s parser data body hparser hs hdata hturns hwhole
    obtain ⟨turns, rfl⟩ : ∃ k, turns = k + 1 := ⟨turns - 1, by omega⟩
    have hsplit : data ++ s.incoming.bytes = last ++ ([] ++ (tail.take 2 ++ tail.drop 2)) := by
      rw [hdata, List.take_append_drop]
      rfl
    obtain ⟨parser', hsound, hread, -, hturn⟩ := recvChunks_turn body hlast hparser hs hsplit
      (by rw [List.length_take]; omega) hwhole.1
    have hdone : P.chunks_done parser' = true := by
      rw [hread.chunks_done, hread.content_len]
      exact le_rfl
    have hend := hturn turns
    rw [hdone, if_pos rfl] at hend
    exact ⟨parser', _, hend, hread.body, hread.encoding⟩
  | cons c chunks ih =>
    intro turns s parser data body hparser hs hdata hturns hwhole
    obtain ⟨turns, rfl⟩ : ∃ k, turns = k + 1 := ⟨turns - 1, by omega⟩
    have hsplit : data ++ s.incoming.bytes =
        c.line ++ (c.payload ++ (ascii "\r\n" ++ (chunks.flatMap Chunk.sent ++ (last ++ tail)))) := by
      rw [hdata, List.flatMap_cons, Chunk.sent]
      simp only [List.append_assoc]
    obtain ⟨parser₁, hsound, hread, hleft, hturn⟩ :=
      recvChunks_turn body c.header hparser hs hsplit rfl hwhole.1
    have hpos := c.nonempty
    have hsize : c.payload.length + 2 < 2 ^ 31 := hwhole.1.2.2.1
    have hgoing : ¬ P.chunks_done parser₁ = true := by
      rw [hread.chunks_done, hread.content_len, SocketStream.toInt_of_lt (by omega)]
      omega
    have hshorter := congrArg List.length hsplit
    have hshorter' := congrArg List.length hleft
    simp only [List.length_append] at hshorter hshorter'
    obtain ⟨parser₂, s₂, hrest, hbody, hencoding⟩ := ih turns
      { s with incoming := (afterChunk buff_size c.line.length c.payload.length data s.incoming).2 }
      parser₁ _ (body ++ c.payload) hsound hs hleft
      (by dsimp only; omega) hwhole.2
    refine ⟨parser₂, s₂, ?_, hbody.trans hread.body, hencoding.trans hread.encoding⟩
    rw [hturn turns, if_neg hgoing, hrest, List.flatMap_cons, List.append_assoc]

/-- A chunked response as it is sent, with the states of the parser while it reads the header. The
last chunk has no payload; the trailer behind it ends in an empty line. The machine of
`httpclient_parser.rl` forgets on every `execute` where a token began, so it follows a header only
where no read ends inside of a token. -/
structure SentResponse (P : HttpResponseParser σ) where
  header : List UInt8
  states : ℕ → σ
  chunks : List (Chunk P)
  last : List UInt8
  trailer : List UInt8
  start : states 0 = P.new
  follows : P.Follows states header
  chunked : P.chunked (states header.length) = true
  noBody : (P.getData (states header.length)).m_body = []
  lastHeader : ChunkHeader P last 0
  trailer_length : 2 ≤ trailer.length

namespace SentResponse

variable {P : HttpResponseParser σ} (r : SentResponse P)

def sent : List UInt8 := r.chunks.flatMap Chunk.sent ++ (r.last ++ r.trailer)

def payload : List UInt8 := r.chunks.flatMap Chunk.payload

/-- The reads of a stream that begins with the response leave every chunk header whole. -/
def ReadsWhole (buff_size : ℕ) (s : SocketStream) : Prop :=
  ∃ len rest, readAhead buff_size r.header.length s r.header.length = some (len, rest) ∧
    HeadersWhole buff_size (r.chunks.map Chunk.sizes ++ [(r.last.length, 0)]) (r.sent.take len) rest

/-- The body is not one that `recvResponse` decodes. -/
def Uncoded : Prop :=
  let content_encoding :=
    (P.getData (r.states r.header.length)).getHeader (ascii "content-encoding") []
  strcasecmp content_encoding (ascii "gzip") ≠ .eq ∧
    strcasecmp content_encoding (ascii "deflate") ≠ .eq

end SentResponse

variable {P : HttpResponseParser σ}

/-- However the stream is cut into reads that leave the chunk headers whole, the body is put
together of the payloads. -/
theorem body_of_readsWhole (lexical_cast : List UInt8 → Option UInt64) (gzip deflate : ZCoder)
    (r : SentResponse P) (hs : s.Has (r.header ++ r.sent)) (hwhole : r.ReadsWhole buff_size s.incoming)
    (huncoded : r.Uncoded) :
    ∃ rsp s', s.recvResponse P lexical_cast gzip deflate buff_size = .ok (some rsp, s') ∧
      rsp.m_body = r.payload := by
  obtain ⟨len, rest, hahead, hheaders⟩ := hwhole
  obtain ⟨hheader, hrest, hlen⟩ := (recvHeader_follows buff_size r.follows r.header.length
    (s.incoming.bytes.length + 1) 0 s r.sent r.follows.nonempty (Nat.sub_le _ _) (Nat.lt_succ_self _)
    hs).2 len rest hahead
  rw [r.start] at hheader
  have hsound := r.follows.noError _ le_rfl r.follows.nonempty
  have hdata : r.sent.take len ++ rest.bytes = r.chunks.flatMap Chunk.sent ++ (r.last ++ r.trailer) := by
    rw [hrest, List.take_append_drop]
    rfl
  obtain ⟨parser', s', hchunks, hbody, hencoding⟩ := recvChunks_whole r.lastHeader r.trailer_length
    r.chunks _ { s with incoming := rest } _ _ [] hsound hs.closed hdata (Nat.lt_succ_self _) hheaders
  have hplain : decodedAs gzip deflate ((P.getData parser').getHeader (ascii "content-encoding") [])
      r.payload = .ok r.payload := by
    rw [decodedAs, hencoding, if_neg huncoded.1, if_neg huncoded.2]
  have hresult : recvResponseBody P lexical_cast buff_size { s with incoming := rest }
      (r.states r.header.length) (r.sent.take len) = .ok (some (parser', r.payload), s') := by
    rw [recvResponseBody, r.chunked, if_pos rfl]
    exact hchunks
  rw [recvResponse, hheader]
  dsimp only
  rw [hresult]
  dsimp only
  by_cases hnil : r.payload = []
  · refine ⟨P.getData parser', s', if_neg (not_not.mpr hnil), ?_⟩
    rw [hbody, r.noBody, hnil]
  · refine ⟨(P.getData parser').setBody r.payload, s', ?_, rfl⟩
    rw [if_pos hnil, hplain]
    rfl

/-- The header, and the line since the machine was last reset. -/
structure LineState where
  head : List UInt8
  line : Option (List UInt8)

namespace LineState

def step (q : LineState) (c : UInt8) : LineState :=
  match q.line with
  | none => { q with head := q.head ++ [c] }
  | some line => { q with line := some (line ++ [c]) }

def complete (q : LineState) : Bool :=
  match q.line with
  | none => (ascii "\r\n\r\n").isSuffixOf q.head
  | some line => (ascii "\n").isSuffixOf line

theorem foldl_line (head : List UInt8) : ∀ (bs line : List UInt8),
    bs.foldl step ⟨head, some line⟩ = ⟨head, some (line ++ bs)⟩
  | [], line => by rw [List.append_nil]; rfl
  | b :: bs, line => by
    change bs.foldl step ⟨head, some (line ++ [b])⟩ = _
    rw [foldl_line head bs, List.append_assoc]
    rfl

theorem foldl_head : ∀ bs head : List UInt8, bs.foldl step ⟨head, none⟩ = ⟨head ++ bs, none⟩
  | [], head => by rw [List.append_nil]; rfl
  | b :: bs, head => by
    change bs.foldl step ⟨head ++ [b], none⟩ = _
    rw [foldl_head bs, List.append_assoc]
    rfl

end LineState

def hexValue (line : List UInt8) : ℕ :=
  (line.takeWhile fun c => 48 ≤ c ∧ c ≤ 57 ∨ 97 ≤ c ∧ c ≤ 102).foldl
    (fun v c => 16 * v + if c ≤ 57 then (c - 48).toNat else (c - 87).toNat) 0

def LineState.content_len (q : LineState) : ℤ :=
  match q.line with
  | none => -1
  | some line => hexValue line

def lineResponseParser : HttpResponseParser LineState where
  toReader := Reader.stepwise LineState.step LineState.complete
  new := ⟨[], none⟩
  getData := fun q =>
    { HttpResponse.new 0x11 true with
      m_reason := ascii "OK"
      m_headers := headerLines q.head }
  init := fun q => { q with line := some [] }
  content_len := LineState.content_len
  chunked := fun q => (headerLines q.head).find (ascii "transfer-encoding") = some (ascii "chunked")
  chunks_done := fun q => q.line.isSome && q.content_len ≤ 0

theorem chunkHeader_line {line : List UInt8} {size : ℕ} (hpos : 0 < line.length)
    (going : ∀ i < line.length, 0 < i → (ascii "\n").isSuffixOf (line.take i) = false)
    (stops : (ascii "\n").isSuffixOf line = true) (hsize : hexValue line = size) (hlt : size < 2 ^ 31) :
    ChunkHeader lineResponseParser line size := by
  refine ⟨hpos, fun q _ => ⟨⟨q.head, some line⟩, fun more => ?_, rfl, stops, ?_⟩⟩
  · change Reader.takeUntil LineState.step LineState.complete ⟨q.head, some []⟩ (line ++ more) = _
    refine (Reader.takeUntil_last more line _ hpos (fun i hi hlt => ?_) ?_).trans ?_
    · rw [LineState.foldl_line]
      exact going i hlt hi
    · rw [LineState.foldl_line]
      exact stops
    · rw [LineState.foldl_line, List.nil_append]
  · refine ⟨?_, ?_, rfl, rfl⟩
    · rw [SocketStream.toInt_of_lt hlt, ← hsize]
      rfl
    · change (true && decide ((hexValue line : ℤ) ≤ 0)) = true ↔ (hexValue line : ℤ) ≤ 0
      rw [Bool.true_and, decide_eq_true_eq]

theorem follows_head {header : List UInt8} (hpos : 0 < header.length)
    (going : ∀ i < header.length, 0 < i → (ascii "\r\n\r\n").isSuffixOf (header.take i) = false)
    (stops : (ascii "\r\n\r\n").isSuffixOf header = true) :
    lineResponseParser.Follows (fun i => ⟨header.take i, none⟩) header := by
  have hseen : (fun i => (⟨header.take i, none⟩ : LineState)) =
      fun i => (header.take i).foldl LineState.step ⟨[], none⟩ :=
    funext fun i => (LineState.foldl_head (header.take i) []).symm
  rw [hseen]
  refine Reader.follows_stepwise (LineState.mk [] none) hpos (fun i hi hlt => ?_) ?_
  · rw [LineState.foldl_head]
    exact going i hlt hi
  · rw [LineState.foldl_head]
    exact stops

def sixteen : Chunk lineResponseParser where
  line := ascii "10\r\n"
  payload := ascii "0123456789abcdef"
  header := chunkHeader_line (by decide) (by decide) (by decide) (by decide) (by decide)
  nonempty := by decide

def okLines : List UInt8 := ascii "HTTP/1.1 200 OK\r\nTransfer-Encoding: chunked\r\n\r\n"

def chunkedResponse : SentResponse lineResponseParser where
  header := okLines
  states := fun i => ⟨okLines.take i, none⟩
  chunks := [sixteen]
  last := ascii "0\r\n"
  trailer := ascii "\r\n"
  start := rfl
  follows := follows_head (by decide) (by decide) (by decide)
  chunked := by decide
  noBody := rfl
  lastHeader := chunkHeader_line (by decide) (by decide) (by decide) (by decide) (by decide)
  trailer_length := by decide

/-- The stream of the response, in reads of `cuts` bytes. -/
def responding (cuts : ℕ → ℕ) : Connection :=
  ⟨⟨chunkedResponse.header ++ chunkedResponse.sent, cuts, fun _ _ _ => 0⟩,
    ⟨[], fun _ => 1, fun _ _ _ => 0⟩, false⟩

/-- The payload is cut, and the chunk headers are not. -/
theorem body_of_readsWhole_sixteen :
    ∃ rsp s', (responding fun _ => 55).recvResponse lineResponseParser decimal Zlib.sample.inflate
        Zlib.sample.inflate 4096 = .ok (some rsp, s') ∧
      rsp.m_body = ascii "0123456789abcdef" :=
  body_of_readsWhole decimal _ _ chunkedResponse ⟨rfl, rfl⟩
    ⟨8, _, rfl, ⟨by decide, by decide, by decide, fun _ => by decide⟩,
      ⟨by decide, by decide, by decide, fun _ => by decide⟩, trivial⟩
    ⟨by decide, by decide⟩

/-- A read ends behind the first digit of the length: what is left of it is zero. -/
theorem not_body_of_cut_header :
    ¬ ∃ rsp s', (responding fun k => if k = 0 then 47 else if k = 1 then 1 else 4096).recvResponse
        lineResponseParser decimal Zlib.sample.inflate Zlib.sample.inflate 4096 =
          .ok (some rsp, s') ∧
      rsp.m_body = chunkedResponse.payload := by
  rintro ⟨rsp, s', hrecv, hbody⟩
  have hempty : (recvResponse lineResponseParser decimal Zlib.sample.inflate Zlib.sample.inflate 4096
      (responding fun k => if k = 0 then 47 else if k = 1 then 1 else 4096)).map
        (fun r => r.1.map HttpResponse.m_body) = .ok (some []) := rfl
  rw [hrecv] at hempty
  have hnil : rsp.m_body = [] := Option.some.inj (Except.ok.inj hempty)
  exact absurd (hbody.symm.trans hnil) (by decide)

end Connection

end Sylar
