import Sylar.Proofs.WSSession
import Sylar.Spec.HttpSession

/-! Requests that a client sends one behind the other. What a call has read beyond the body is in
its own buffer and goes with it, so a call returns its request and leaves the next ones alone
exactly if the read that completes the header ends in the body. `offset` is how many bytes behind
the header are in the buffer then. -/

namespace Sylar

open Lib

namespace Connection

variable {σ : Type} {s : Connection} {post : List UInt8} {buff_size : ℕ}

/-- How far the reads that complete a header go beyond it, where `missing` bytes of it are still
to come, and the stream after them. Where there is none, there is nothing to be read, or the bytes
that are left are taken for a full buffer. -/
def readAhead (buff_size : ℕ) : ℕ → SocketStream → ℕ → Option (ℕ × SocketStream)
  | 0, _, _ => none
  | turns + 1, s, missing =>
      let n := (s.recv buff_size).1.length
      if n = 0 ∨ ((n - missing : ℕ) : ℤ) = SocketStream.toInt buff_size then none
      else if missing ≤ n then some (n - missing, (s.recv buff_size).2)
      else readAhead buff_size turns (s.recv buff_size).2 (missing - n)

theorem read_open (hs : s.closed = false) (length : ℕ) :
    s.read length = ((s.incoming.recv length).1, { s with incoming := (s.incoming.recv length).2 }) := by
  rw [read, hs]
  rfl

/-- A read takes bytes off the front, and some if there are any and there is room for any. -/
structure Takes (s : SocketStream) (length n : ℕ) (r : List UInt8 × SocketStream) : Prop where
  got : r.1 = s.bytes.take n
  left : r.2.bytes = s.bytes.drop n
  count : r.1.length = n
  le : n ≤ s.bytes.length
  room : n ≤ length
  pos : 0 < length → 0 < s.bytes.length → 0 < n

theorem recv_takes (s : SocketStream) (length : ℕ) :
    Takes s length (s.cut (min length s.bytes.length)) (s.recv length) := by
  have hcut : s.cut (min length s.bytes.length) ≤ min length s.bytes.length := by
    unfold SocketStream.cut
    omega
  refine ⟨rfl, rfl, ?_, by omega, by omega, fun _ _ => (s.cut_spec (by omega)).1⟩
  rw [SocketStream.recv, List.length_take]
  omega

/-- The loop over a header of which the first `i` bytes have been read. -/
theorem recvHeader_follows (buff_size : ℕ) {P : Reader σ UInt8} {states : ℕ → σ}
    {header : List UInt8} (h : P.Follows states header) :
    ∀ (fuel turns i : ℕ) (s : Connection) (post : List UInt8),
    i < header.length → header.length - i ≤ fuel → s.incoming.bytes.length < turns →
    s.Has (header.drop i ++ post) →
    (readAhead buff_size fuel s.incoming (header.length - i) = none →
      (s.recvHeader P buff_size turns (states i) []).1 = none) ∧
    ∀ offset rest, readAhead buff_size fuel s.incoming (header.length - i) = some (offset, rest) →
      s.recvHeader P buff_size turns (states i) [] =
          (some (states header.length, post.take offset), { s with incoming := rest }) ∧
        rest.bytes = post.drop offset ∧ offset ≤ post.length := by
  intro fuel
  induction fuel with
  | zero =>
    intro turns i s post hi hfuel
    omega
  | succ fuel ih =>
    intro turns i s post hi hfuel hturns hs
    obtain ⟨turns, rfl⟩ : ∃ k, turns = k + 1 := ⟨turns - 1, by omega⟩
    obtain ⟨hgot, hrest, hn, hle, -, -⟩ := recv_takes s.incoming buff_size
    set n := s.incoming.cut (min buff_size s.incoming.bytes.length)
    have hlength : (header.drop i).length = header.length - i := List.length_drop
    have hbytes : s.incoming.bytes.length = header.length - i + post.length := by
      rw [hs.bytes, List.length_append, hlength]
    rw [hs.bytes] at hgot hrest
    rw [readAhead, recvHeader, List.length_nil, Nat.sub_zero, read_open hs.closed]
    dsimp only
    rw [hn]
    by_cases h0 : n = 0
    · rw [if_pos (.inl h0), if_pos h0]
      exact ⟨fun _ => rfl, by rintro _ _ ⟨⟩⟩
    rw [if_neg h0, List.nil_append, hgot, h.execute_take hi (Nat.pos_of_ne_zero h0) post]
    dsimp only
    have hleft := Reader.drop_piece (header.drop i) post n
    rw [hlength] at hleft
    have hcount : (post.take (n - (header.length - i))).length = n - (header.length - i) := by
      rw [List.length_take]
      omega
    have hsound : ¬ P.hasError (states (i + min n (header.length - i))) = true := by
      rw [h.noError _ (by omega) (by omega)]
      exact Bool.false_ne_true
    rw [if_neg hsound, hleft, hcount]
    by_cases hfull : ((n - (header.length - i) : ℕ) : ℤ) = SocketStream.toInt buff_size
    · rw [if_pos (.inr hfull), if_pos hfull]
      exact ⟨fun _ => rfl, by rintro _ _ ⟨⟩⟩
    rw [if_neg (not_or.mpr ⟨h0, hfull⟩), if_neg hfull]
    by_cases hlast : header.length - i ≤ n
    · have hend : i + min n (header.length - i) = header.length := by omega
      rw [hend, if_pos hlast, if_pos ((h.finished _ le_rfl h.nonempty).mpr rfl)]
      refine ⟨fun hnone => absurd hnone (Option.some_ne_none _), fun offset rest hsome => ?_⟩
      obtain ⟨rfl, rfl⟩ := Prod.mk.inj (Option.some.inj hsome)
      refine ⟨rfl, ?_, by omega⟩
      rw [hrest, List.drop_append, hlength, List.drop_of_length_le (by omega), List.nil_append]
    · have hgoing : ¬ P.isFinished (states (i + min n (header.length - i))) = true := fun hfinished =>
        absurd ((h.finished _ (by omega) (by omega)).mp hfinished) (by omega)
      have hnext : (s.incoming.recv buff_size).2.bytes = header.drop (i + n) ++ post := by
        rw [hrest, List.drop_append_of_le_length (by omega), List.drop_drop]
      have hshorter : (s.incoming.recv buff_size).2.bytes.length < turns := by
        rw [hnext, List.length_append, List.length_drop]
        omega
      have hnil : post.take (n - (header.length - i)) = [] := by
        rw [Nat.sub_eq_zero_of_le (by omega), List.take_zero]
      rw [if_neg hlast, if_neg hgoing, hnil, Nat.min_eq_left (by omega), Nat.sub_sub]
      exact ih turns (i + n) { s with incoming := (s.incoming.recv buff_size).2 } post (by omega)
        (by omega) hshorter ⟨hnext, hs.closed⟩

section

variable {body : List UInt8} {offset : ℕ}

theorem recvBody_within (hs : s.Has ((body ++ post).drop offset)) (hlt : body.length < 2 ^ 63)
    (hoffset : offset ≤ body.length)
    (hint : offset < body.length → 0 < SocketStream.toInt (body.length - offset)) :
    ∃ s', s.recvBody ((body ++ post).take offset) body.length = (some body, s') ∧ s'.Has post := by
  have htake : (body ++ post).take offset = body.take offset := List.take_append_of_le_length hoffset
  have hdrop : (body ++ post).drop offset = body.drop offset ++ post :=
    List.drop_append_of_le_length hoffset
  have hlength : (body.take offset).length = offset := by rw [List.length_take]; omega
  have hrest : (body.drop offset).length = body.length - offset := List.length_drop
  unfold recvBody
  rw [htake, hlength, Int.toNat_natCast, List.take_of_length_le (by omega)]
  dsimp only
  by_cases hall : offset < body.length
  · have hleft : ((body.length : ℤ) - offset).toNat = (body.drop offset).length := by omega
    rw [hdrop] at hs
    obtain ⟨s', hread, hs'⟩ := readFixSize_reads hs (by omega)
    refine ⟨s', ?_, hs'⟩
    rw [if_pos (by omega), hleft, hread, hrest]
    dsimp only
    rw [if_neg (by have := hint hall; omega), List.take_append_drop]
  · have heq : offset = body.length := by omega
    refine ⟨s, ?_, ?_⟩
    · rw [if_neg (by omega), heq, List.take_length]
    · rwa [hdrop, heq, List.drop_length] at hs

theorem recvBody_none (hs : s.Has ((body ++ post).drop offset)) (hlt : body.length < 2 ^ 63)
    (hoffset : offset < body.length) (hint : SocketStream.toInt (body.length - offset) ≤ 0) :
    (s.recvBody ((body ++ post).take offset) body.length).1 = none := by
  have hlength : ((body ++ post).take offset).length = offset := by
    rw [List.length_take, List.length_append]
    omega
  have hdrop : (body ++ post).drop offset = body.drop offset ++ post :=
    List.drop_append_of_le_length hoffset.le
  have hrest : (body.drop offset).length = body.length - offset := List.length_drop
  have hleft : ((body.length : ℤ) - offset).toNat = (body.drop offset).length := by omega
  rw [hdrop] at hs
  obtain ⟨s', hread, -⟩ := readFixSize_reads hs (by omega)
  unfold recvBody
  rw [hlength]
  dsimp only
  rw [if_pos (by omega), hleft, hread, hrest]
  dsimp only
  rw [if_pos hint]

theorem recvBody_beyond (s : Connection) (post : List UInt8) (hoffset : body.length ≤ offset)
    (hpost : offset ≤ (body ++ post).length) :
    s.recvBody ((body ++ post).take offset) body.length = (some body, s) := by
  have hlength : ((body ++ post).take offset).length = offset := by rw [List.length_take]; omega
  unfold recvBody
  rw [hlength, Int.toNat_natCast, List.take_take, Nat.min_eq_left hoffset, List.take_left]
  dsimp only
  rw [if_neg (by omega)]

end

/-- A request as it is sent, with the states of the parser while it reads the header. The machine of
`http11_parser.rl` forgets on every `execute` where a token began, so it follows a header only where
no read ends inside of a token. -/
structure SentRequest (P : HttpRequestParser σ) (lexical_cast : List UInt8 → Option UInt64) where
  header : List UInt8
  body : List UInt8
  states : ℕ → σ
  start : states 0 = P.new
  follows : P.Follows states header
  length : (P.getContentLength lexical_cast (states header.length)).toNat = body.length
  noBody : (P.getData (states header.length)).m_body = []

namespace SentRequest

variable {P : HttpRequestParser σ} {lexical_cast : List UInt8 → Option UInt64}

def request (r : SentRequest P lexical_cast) : HttpRequest :=
  ((P.getData (r.states r.header.length)).setBody r.body).init

def stream (rs : List (SentRequest P lexical_cast)) : List UInt8 :=
  rs.flatMap fun r => r.header ++ r.body

/-- The read that completes the header of a request, which is next in the stream, ends in its body
or where that ends. The lengths are those that the code can count. -/
def ReadsEnd (buff_size : ℕ) (r : SentRequest P lexical_cast) (s : SocketStream) : Prop :=
  r.body.length < 2 ^ 63 ∧
    ∃ offset rest, readAhead buff_size r.header.length s r.header.length = some (offset, rest) ∧
      offset ≤ r.body.length ∧
      (offset < r.body.length → 0 < SocketStream.toInt (r.body.length - offset))

end SentRequest

section

variable (P : HttpRequestParser σ) (lexical_cast : List UInt8 → Option UInt64) (buff_size : ℕ)

/-- Each call returns the next request and leaves those after it. -/
def Served : List (SentRequest P lexical_cast) → Connection → Prop
  | [], _ => True
  | r :: rs, s =>
      (s.recvRequest P lexical_cast buff_size).1 = some r.request ∧
        (s.recvRequest P lexical_cast buff_size).2.incoming.bytes = SentRequest.stream rs ∧
        Served rs (s.recvRequest P lexical_cast buff_size).2

def ReadsEndAll : List (SentRequest P lexical_cast) → Connection → Prop
  | [], _ => True
  | r :: rs, s =>
      r.ReadsEnd buff_size s.incoming ∧ ReadsEndAll rs (s.recvRequest P lexical_cast buff_size).2

end

section

variable {P : HttpRequestParser σ} {lexical_cast : List UInt8 → Option UInt64}

open SentRequest

theorem init_body (req : HttpRequest) : req.init.m_body = req.m_body := by
  unfold HttpRequest.init
  dsimp only
  split_ifs <;> rfl

theorem SentRequest.request_of_nil (r : SentRequest P lexical_cast) (hbody : r.body = []) :
    r.request = (P.getData (r.states r.header.length)).init := by
  have hsame : (P.getData (r.states r.header.length)).setBody r.body =
      P.getData (r.states r.header.length) := by
    rw [hbody, HttpRequest.setBody, ← r.noBody]
  rw [request, hsame]

theorem recvHeader_next (buff_size : ℕ) {r : SentRequest P lexical_cast} (hs : s.Has (r.header ++ post)) :
    (readAhead buff_size r.header.length s.incoming r.header.length = none →
      (s.recvHeader P.toReader buff_size (s.incoming.bytes.length + 1) P.new []).1 = none) ∧
    ∀ offset rest, readAhead buff_size r.header.length s.incoming r.header.length = some (offset, rest) →
      s.recvHeader P.toReader buff_size (s.incoming.bytes.length + 1) P.new [] =
          (some (r.states r.header.length, post.take offset), { s with incoming := rest }) ∧
        rest.bytes = post.drop offset ∧ offset ≤ post.length := by
  have hnext := recvHeader_follows buff_size r.follows r.header.length
    (s.incoming.bytes.length + 1) 0 s post r.follows.nonempty (Nat.sub_le _ _) (Nat.lt_succ_self _) hs
  rwa [r.start, Nat.sub_zero] at hnext

theorem recvRequest_of_readsEnd {r : SentRequest P lexical_cast}
    (hs : s.Has (r.header ++ (r.body ++ post))) (h : r.ReadsEnd buff_size s.incoming) :
    ∃ s', s.recvRequest P lexical_cast buff_size = (some r.request, s') ∧ s'.Has post := by
  obtain ⟨hlt, offset, rest, hahead, hoffset, hint⟩ := h
  obtain ⟨hheader, hrest, -⟩ := (recvHeader_next buff_size hs).2 offset rest hahead
  have hs₁ : Has { s with incoming := rest } ((r.body ++ post).drop offset) := ⟨hrest, hs.closed⟩
  generalize { s with incoming := rest } = s₁ at hheader hs₁
  unfold recvRequest
  rw [hheader]
  dsimp only
  rw [r.length, SocketStream.toInt64_eq hlt]
  by_cases hnil : r.body = []
  · have h0 : offset = 0 := by
      rw [hnil] at hoffset
      exact Nat.le_zero.mp hoffset
    refine ⟨s₁, ?_, ?_⟩
    · rw [if_neg (by rw [hnil]; simp), r.request_of_nil hnil]
    · rwa [hnil, h0, List.nil_append, List.drop_zero] at hs₁
  · have hpos : 0 < r.body.length := List.length_pos_iff.mpr hnil
    obtain ⟨s₂, hbody, hs₂⟩ := recvBody_within hs₁ hlt hoffset hint
    refine ⟨s₂, ?_, hs₂⟩
    rw [if_pos (by omega), hbody]
    rfl

theorem readsEnd_of_recvRequest {r : SentRequest P lexical_cast}
    (hs : s.Has (r.header ++ (r.body ++ post)))
    (hreq : (s.recvRequest P lexical_cast buff_size).1 = some r.request)
    (hpost : (s.recvRequest P lexical_cast buff_size).2.incoming.bytes = post) :
    r.ReadsEnd buff_size s.incoming := by
  obtain ⟨hnone, hsome⟩ := recvHeader_next buff_size hs
  cases hahead : readAhead buff_size r.header.length s.incoming r.header.length with
  | none =>
    have hclosed := hnone hahead
    unfold recvRequest at hreq
    rcases hheader : s.recvHeader P.toReader buff_size (s.incoming.bytes.length + 1) P.new [] with ⟨o, s'⟩
    rw [hheader] at hclosed hreq
    cases hclosed
    exact absurd hreq (by rintro ⟨⟩)
  | some ahead =>
    obtain ⟨offset, rest⟩ := ahead
    obtain ⟨hheader, hrest, hle⟩ := hsome offset rest hahead
    have hs₁ : Has { s with incoming := rest } ((r.body ++ post).drop offset) := ⟨hrest, hs.closed⟩
    generalize { s with incoming := rest } = s₁ at hheader hs₁
    have hcount := congrArg List.length hs₁.bytes
    rw [List.length_drop, List.length_append] at hcount
    rw [List.length_append] at hle
    unfold recvRequest at hreq hpost
    rw [hheader] at hreq hpost
    dsimp only at hreq hpost
    rw [r.length] at hreq hpost
    by_cases hlt : r.body.length < 2 ^ 63
    · refine ⟨hlt, offset, rest, hahead, ?_⟩
      rw [SocketStream.toInt64_eq hlt] at hreq hpost
      by_cases hoffset : offset ≤ r.body.length
      · refine ⟨hoffset, fun hpart => ?_⟩
        by_contra hint
        have hfails := recvBody_none hs₁ hlt hpart (by omega)
        rw [if_pos (by omega)] at hreq
        rcases hbody : s₁.recvBody ((r.body ++ post).take offset) r.body.length with ⟨o, s'⟩
        rw [hbody] at hfails hreq
        cases hfails
        exact absurd hreq (by rintro ⟨⟩)
      · -- what was read of the next request is missing from what is left
        have hbeyond := recvBody_beyond s₁ post (show r.body.length ≤ offset by omega)
          (by rw [List.length_append]; omega)
        have hleft : s₁.incoming.bytes = post := by
          split_ifs at hpost with hpos
          · rw [hbeyond] at hpost
            exact hpost
          · exact hpost
        rw [hleft] at hcount
        omega
    · -- the length is negative, and there is no body
      have hbound : r.body.length < 2 ^ 64 := r.length ▸ UInt64.toNat_lt _
      have hneg := SocketStream.toInt64_nonpos (by omega) hbound
      rw [if_neg (by omega)] at hreq
      have hsame := congrArg HttpRequest.m_body (Option.some.inj hreq)
      rw [init_body, r.noBody, request, init_body] at hsame
      have hnil : r.body = [] := hsame.symm
      rw [hnil] at hlt
      exact absurd (by norm_num) hlt

/-- However the stream is cut into reads, the calls return the requests one after the other, with
nothing lost between them, exactly if the read that completes a header never goes beyond the body
behind it. -/
theorem served_iff_readsEnd : ∀ (rs : List (SentRequest P lexical_cast)) (s : Connection),
    s.Has (stream rs) →
    (Served P lexical_cast buff_size rs s ↔ ReadsEndAll P lexical_cast buff_size rs s) := by
  intro rs
  induction rs with
  | nil => intro s _; exact Iff.rfl
  | cons r rs ih =>
    intro s hs
    have hs' : s.Has (r.header ++ (r.body ++ stream rs)) := by
      rwa [stream, List.flatMap_cons, List.append_assoc] at hs
    constructor
    · rintro ⟨hreq, hbytes, hrest⟩
      have hends := readsEnd_of_recvRequest hs' hreq hbytes
      obtain ⟨s₁, hrecv, hs₁⟩ := recvRequest_of_readsEnd hs' hends
      rw [hrecv] at hrest
      refine ⟨hends, ?_⟩
      rw [hrecv]
      exact (ih s₁ hs₁).mp hrest
    · rintro ⟨hends, hrest⟩
      obtain ⟨s₁, hrecv, hs₁⟩ := recvRequest_of_readsEnd hs' hends
      rw [hrecv] at hrest
      unfold Served
      rw [hrecv]
      exact ⟨rfl, hs₁.bytes, (ih s₁ hs₁).mpr hrest⟩

end

def headerLines (seen : List UInt8) : MapType :=
  ((seen.filter (· ≠ 13)).splitOn 10).tail.filterMap fun line =>
    if 58 ∈ line then
      some (line.takeWhile (· ≠ 58), ((line.dropWhile (· ≠ 58)).drop 1).dropWhile (· = 32))
    else none

/-- A machine that has seen the header when it has seen the empty line. -/
def lineParser : HttpRequestParser (List UInt8) where
  toReader := Reader.stepwise (fun seen c => seen ++ [c]) (ascii "\r\n\r\n").isSuffixOf
  new := []
  getData := fun seen =>
    { HttpRequest.new 0x11 true with
      m_method := if (ascii "POST ").isPrefixOf seen then .POST else .GET
      m_headers := headerLines seen }

def decimal (s : List UInt8) : Option UInt64 :=
  if s ≠ [] ∧ s.all fun c => 48 ≤ c ∧ c ≤ 57 then
    some (s.foldl (fun v c => 10 * v + (c - 48).toUInt64) 0)
  else none

theorem foldl_seen (bs seen : List UInt8) : bs.foldl (fun seen c => seen ++ [c]) seen = seen ++ bs := by
  rw [List.foldl_append_eq_append, ← List.flatMap_def, List.flatMap_singleton']

theorem follows_line {header : List UInt8} (hpos : 0 < header.length)
    (going : ∀ i < header.length, 0 < i → (ascii "\r\n\r\n").isSuffixOf (header.take i) = false)
    (stops : (ascii "\r\n\r\n").isSuffixOf header = true) :
    lineParser.Follows (fun i => header.take i) header := by
  have hseen : (fun i => header.take i) =
      fun i => (header.take i).foldl (fun seen c => seen ++ [c]) [] :=
    funext fun i => (foldl_seen (header.take i) []).symm
  rw [hseen]
  refine Reader.follows_stepwise [] hpos (fun i hi hlt => ?_) ?_
  · rw [foldl_seen]
    exact going i hlt hi
  · rw [foldl_seen]
    exact stops

def getLines : List UInt8 := ascii "GET / HTTP/1.1\r\n\r\n"

def postLines : List UInt8 := ascii "POST / HTTP/1.1\r\nContent-Length: 2\r\n\r\n"

def getRequest : SentRequest lineParser decimal where
  header := getLines
  body := []
  states := fun i => getLines.take i
  start := rfl
  follows := follows_line (by decide) (by decide) (by decide)
  length := by decide
  noBody := rfl

def postRequest : SentRequest lineParser decimal where
  header := postLines
  body := ascii "hi"
  states := fun i => postLines.take i
  start := rfl
  follows := follows_line (by decide) (by decide) (by decide)
  length := by decide
  noBody := rfl

/-- The stream of requests, in reads of `cuts` bytes. -/
def arriving (rs : List (SentRequest lineParser decimal)) (cuts : ℕ → ℕ) : Connection :=
  ⟨⟨SentRequest.stream rs, cuts, fun _ _ _ => 0⟩, ⟨[], fun _ => 1, fun _ _ _ => 0⟩, false⟩

/-- A body of which one byte comes with the header, and a request behind it. -/
theorem served_iff_readsEnd_post :
    Served lineParser decimal 4096 [postRequest, getRequest]
      (arriving [postRequest, getRequest] fun _ => 39) :=
  (served_iff_readsEnd [postRequest, getRequest] _ ⟨rfl, rfl⟩).mpr
    ⟨⟨by decide, 1, _, rfl, by decide, by decide⟩, ⟨by decide, 0, _, rfl, by decide, by decide⟩,
      trivial⟩

/-- Two requests that come in one read: the second is lost. -/
theorem not_served_of_one_read :
    ¬ Served lineParser decimal 4096 [getRequest, getRequest]
      (arriving [getRequest, getRequest] fun _ => 4096) := by
  rintro ⟨-, hbytes, -⟩
  exact absurd hbytes (by decide)

end Connection

end Sylar
