import Sylar.Proofs.HttpSession
import Sylar.Spec.HttpServer

/-! Which servlet a uri is given to, after any additions and removals; and what a client gets that sends
requests one behind the other. -/

namespace Sylar

open Lib

namespace ServletDispatch

variable {S : Type} {d : ServletDispatch S}

namespace Op

def pattern : Op S → Option (List UInt8)
  | addGlobServlet uri _ => some uri
  | delGlobServlet uri => some uri
  | _ => none

def added : Op S → List (List UInt8 × S)
  | addGlobServlet uri slt => [(uri, slt)]
  | _ => []

/-- What a call leaves for exactly this uri, if it is about that. -/
def exactly (uri : List UInt8) : Op S → Option (Option S)
  | addServlet uri' slt => if uri' = uri then some (some slt) else none
  | delServlet uri' => if uri' = uri then some none else none
  | _ => none

def fallback : Op S → Option (Option S)
  | setDefault v => some v
  | _ => none

end Op

def Untouched (ops : List (Op S)) (i : List UInt8 × S) : Prop := ∀ op ∈ ops, op.pattern ≠ some i.1

instance (ops : List (Op S)) (i : List UInt8 × S) : Decidable (Untouched ops i) :=
  inferInstanceAs (Decidable (∀ op ∈ ops, op.pattern ≠ some i.1))

/-- The patterns that are added and not touched later, in the order in which they were added. -/
def standing : List (Op S) → List (List UInt8 × S)
  | [] => []
  | op :: ops => (op.added.filter fun i => Untouched ops i) ++ standing ops

def latestOf {α : Type} (f : Op S → Option α) (ops : List (Op S)) : Option α := (ops.filterMap f).getLast?

/-- The servlet of a uri: the last that was set for it, the first of the patterns that match, or the
default. -/
def routed (fnmatch : List UInt8 → List UInt8 → Bool) (m_default : S) (ops : List (Op S))
    (uri : List UInt8) : Option S :=
  match (latestOf (Op.exactly uri) ops).join with
  | some slt => some slt
  | none =>
      match (standing ops).find? fun i => fnmatch i.1 uri with
      | some i => some i.2
      | none => (latestOf Op.fallback ops).getD (some m_default)

theorem latestOf_append {α : Type} (f : Op S → Option α) (ops : List (Op S)) (op : Op S) :
    latestOf f (ops ++ [op]) = (f op).or (latestOf f ops) := by
  unfold latestOf
  cases h : f op with
  | none => simp [h]
  | some x => simp [h]

theorem eraseP_eq_filter {l : List (List UInt8 × S)} (h : (l.map Prod.fst).Nodup) (uri : List UInt8) :
    (l.eraseP fun i => i.1 = uri) = l.filter fun i => i.1 ≠ uri := by
  induction l with
  | nil => rfl
  | cons i l ih =>
    rw [List.map_cons, List.nodup_cons] at h
    by_cases hi : i.1 = uri
    · have hall : l.filter (fun i => decide (i.1 ≠ uri)) = l := by
        rw [List.filter_eq_self]
        intro j hj
        rw [decide_eq_true_eq]
        intro hj'
        exact h.1 (List.mem_map.mpr ⟨j, hj, hj'.trans hi.symm⟩)
      rw [List.eraseP_cons_of_pos (by simp [hi]), List.filter_cons_of_neg (by simp [hi]), hall]
    · rw [List.eraseP_cons_of_neg (by simp [hi]), List.filter_cons_of_pos (by simp [hi]), ih h.2]

/-- A call on globs takes its pattern from its place, and may put it at the end. -/
theorem globs_apply (h : (d.m_globs.map Prod.fst).Nodup) (op : Op S) :
    (d.apply op).m_globs = (d.m_globs.filter fun i => Untouched [op] i) ++ op.added := by
  have hall : op.pattern = none → (d.m_globs.filter fun i => Untouched [op] i) = d.m_globs := by
    intro hnone
    rw [List.filter_eq_self]
    intro i hi
    simp [Untouched, hnone]
  have hdel : ∀ uri, op.pattern = some uri →
      d.m_globs.eraseP (fun i => i.1 = uri) = d.m_globs.filter fun i => Untouched [op] i := by
    intro uri hsome
    rw [eraseP_eq_filter h]
    simp [Untouched, hsome, eq_comm]
  cases op with
  | addGlobServlet uri slt => exact congrArg (· ++ [(uri, slt)]) (hdel uri rfl)
  | delGlobServlet uri => exact (hdel uri rfl).trans (List.append_nil _).symm
  | addServlet uri slt => exact ((List.append_nil _).trans (hall rfl)).symm
  | delServlet uri => exact ((List.append_nil _).trans (hall rfl)).symm
  | setDefault v => exact ((List.append_nil _).trans (hall rfl)).symm

theorem nodup_apply (h : (d.m_globs.map Prod.fst).Nodup) (op : Op S) :
    ((d.apply op).m_globs.map Prod.fst).Nodup := by
  rw [globs_apply h, List.map_append, List.nodup_append]
  refine ⟨h.sublist (List.filter_sublist.map _), ?_, ?_⟩
  · cases op <;> simp [Op.added]
  · intro uri huri uri' huri' heq
    obtain ⟨i, hi, rfl⟩ := List.mem_map.mp huri
    obtain ⟨j, hj, rfl⟩ := List.mem_map.mp huri'
    have huntouched := of_decide_eq_true (List.mem_filter.mp hi).2
    cases op with
    | addGlobServlet uri slt =>
      cases List.mem_singleton.mp hj
      exact huntouched _ List.mem_cons_self (congrArg some heq.symm)
    | _ => cases hj

theorem globs_foldl (ops : List (Op S)) : ∀ {d : ServletDispatch S}, (d.m_globs.map Prod.fst).Nodup →
    (ops.foldl apply d).m_globs = (d.m_globs.filter fun i => Untouched ops i) ++ standing ops := by
  induction ops with
  | nil =>
    intro d _
    simp [standing, Untouched]
  | cons op ops ih =>
    intro d h
    have hboth : ∀ i : List UInt8 × S, Untouched (op :: ops) i ↔ Untouched [op] i ∧ Untouched ops i := by
      intro i
      simp [Untouched]
    rw [List.foldl_cons, ih (nodup_apply h op), globs_apply h, List.filter_append, List.filter_filter,
      List.append_assoc]
    simp only [standing, hboth, Bool.decide_and]
    congr 2
    funext i
    exact Bool.and_comm _ _

theorem datas_foldl (ops : List (Op S)) (uri : List UInt8) :
    Assoc.find (ops.foldl apply d).m_datas uri =
      ((latestOf (Op.exactly uri) ops).getD (Assoc.find d.m_datas uri)) := by
  induction ops using List.reverseRecOn with
  | nil => rfl
  | append_singleton ops op ih =>
    rw [List.foldl_append, List.foldl_cons, List.foldl_nil, latestOf_append]
    cases op with
    | addServlet uri' slt =>
      show Assoc.find (Assoc.set _ uri' slt) uri = _
      rw [Assoc.find_set, ih]
      by_cases heq : uri' = uri
      · simp [Op.exactly, heq]
      · simp [Op.exactly, heq]
    | delServlet uri' =>
      show Assoc.find (Assoc.without _ uri') uri = _
      rw [Assoc.find_without, ih]
      by_cases heq : uri' = uri
      · simp [Op.exactly, heq]
      · simp [Op.exactly, heq]
    | addGlobServlet uri' slt => exact ih
    | delGlobServlet uri' => exact ih
    | setDefault v => exact ih

theorem default_foldl (ops : List (Op S)) :
    (ops.foldl apply d).m_default = (latestOf Op.fallback ops).getD d.m_default := by
  induction ops using List.reverseRecOn with
  | nil => rfl
  | append_singleton ops op ih =>
    rw [List.foldl_append, List.foldl_cons, List.foldl_nil, latestOf_append]
    cases op with
    | setDefault v => rfl
    | _ => exact ih

/-- Whatever was added and removed, in whatever order. -/
theorem matched_by_history (fnmatch : List UInt8 → List UInt8 → Bool) (m_default : S) (ops : List (Op S))
    (uri : List UInt8) : (ops.foldl apply (new m_default)).getMatchedServlet fnmatch uri =
      routed fnmatch m_default ops uri := by
  have hdatas := datas_foldl (d := new m_default) ops uri
  have hglobs := globs_foldl ops (d := new m_default) List.nodup_nil
  have hdefault := default_foldl (d := new m_default) ops
  unfold getMatchedServlet routed
  rw [hdatas, hglobs, hdefault]
  cases latestOf (Op.exactly uri) ops with
  | none => rfl
  | some o => rfl

end ServletDispatch

namespace Connection

variable {σ : Type} (P : HttpRequestParser σ) (lexical_cast : List UInt8 → Option UInt64) (buff_size : ℕ)

/-- A call does not depend on what was sent, and leaves it as it is. -/
def Apart {α : Type} (f : Connection → α × Connection) (s : Connection) : Prop :=
  ∃ a incoming closed, ∀ out, f { s with outgoing := out } = (a, ⟨incoming, out, closed⟩)

theorem apart_readFixSize (s : Connection) (n : ℕ) :
    ∃ rt data incoming, ∀ out, ({ s with outgoing := out } : Connection).readFixSize n =
      (rt, data, ⟨incoming, out, s.closed⟩) := by
  by_cases h : (s.closed && decide (0 < SocketStream.toInt64 n)) = true
  · refine ⟨-1, [], s.incoming, fun out => ?_⟩
    unfold readFixSize
    rw [if_pos h]
  · refine ⟨(s.incoming.readRawFixSize n).1, (s.incoming.readRawFixSize n).2.1,
      (s.incoming.readRawFixSize n).2.2, fun out => ?_⟩
    unfold readFixSize
    rw [if_neg h]

theorem apart_recvBody (s : Connection) (data : List UInt8) (length : ℤ) :
    Apart (fun s => s.recvBody data length) s := by
  obtain ⟨rt, body, incoming, hread⟩ := apart_readFixSize s (length - data.length).toNat
  unfold Apart recvBody
  simp only [hread]
  by_cases hleft : length - data.length > 0
  · simp only [if_pos hleft]
    by_cases hrt : rt ≤ 0
    · exact ⟨none, incoming, true, fun out => by rw [if_pos hrt]; rfl⟩
    · exact ⟨some (data.take length.toNat ++ body), incoming, s.closed, fun out => by rw [if_neg hrt]⟩
  · exact ⟨some (data.take length.toNat), s.incoming, s.closed, fun out => by rw [if_neg hleft]⟩

theorem apart_recvHeader (turns : ℕ) (s : Connection) (parser : σ) (data : List UInt8) :
    Apart (fun s => s.recvHeader P.toReader buff_size turns parser data) s := by
  induction turns generalizing s parser data with
  | zero => exact ⟨none, s.incoming, s.closed, fun _ => rfl⟩
  | succ turns ih =>
    obtain ⟨bytes, incoming, hread⟩ : ∃ bytes incoming, ∀ out,
        ({ s with outgoing := out } : Connection).read (buff_size - data.length) =
          (bytes, ⟨incoming, out, s.closed⟩) := by
      unfold read
      by_cases h : s.closed = true
      · exact ⟨[], s.incoming, fun out => by rw [if_pos h]⟩
      · exact ⟨(s.incoming.recv (buff_size - data.length)).1, (s.incoming.recv (buff_size - data.length)).2,
          fun out => by rw [if_neg h]⟩
    unfold Apart recvHeader
    simp only [hread]
    by_cases hnil : bytes.length = 0
    · exact ⟨none, incoming, true, fun out => by rw [if_pos hnil]; rfl⟩
    simp only [if_neg hnil]
    generalize P.execute parser (data ++ bytes) = e
    by_cases herror : P.hasError e.2 = true
    · exact ⟨none, incoming, true, fun out => by rw [if_pos herror]; rfl⟩
    simp only [if_neg herror]
    generalize (data ++ bytes).drop e.1 = left
    by_cases hfull : (left.length : ℤ) = SocketStream.toInt buff_size
    · exact ⟨none, incoming, true, fun out => by rw [if_pos hfull]; rfl⟩
    simp only [if_neg hfull]
    by_cases hfinished : P.isFinished e.2 = true
    · exact ⟨some (e.2, left), incoming, s.closed, fun out => by rw [if_pos hfinished]⟩
    simp only [if_neg hfinished]
    exact ih ⟨incoming, s.outgoing, s.closed⟩ e.2 left

section

variable {P lexical_cast buff_size} {s s' : Connection} {parser : σ} {data : List UInt8}

theorem recvRequest_none (hheader : s.recvHeader P.toReader buff_size (s.incoming.bytes.length + 1) P.new [] =
    (none, s')) : s.recvRequest P lexical_cast buff_size = (none, s') := by
  unfold recvRequest
  rw [hheader]

theorem recvRequest_of_header (hheader : s.recvHeader P.toReader buff_size (s.incoming.bytes.length + 1)
    P.new [] = (some (parser, data), s')) {length : ℤ}
    (hlength : SocketStream.toInt64 (P.getContentLength lexical_cast parser).toNat = length)
    {o : Option (List UInt8)} {s'' : Connection} (hbody : s'.recvBody data length = (o, s'')) :
    s.recvRequest P lexical_cast buff_size =
      if length > 0 then (o.map fun body => ((P.getData parser).setBody body).init, s'')
      else (some (P.getData parser).init, s') := by
  unfold recvRequest
  rw [hheader]
  dsimp only
  rw [hlength, hbody]
  cases o with
  | none => rfl
  | some body => rfl

end

theorem apart_recvRequest (s : Connection) :
    Apart (fun s => s.recvRequest P lexical_cast buff_size) s := by
  obtain ⟨o, incoming, closed, hheader⟩ :=
    apart_recvHeader P buff_size (s.incoming.bytes.length + 1) s P.new []
  cases o with
  | none => exact ⟨none, incoming, closed, fun out => recvRequest_none (hheader out)⟩
  | some x =>
    obtain ⟨length, hlength⟩ : ∃ length,
        SocketStream.toInt64 (P.getContentLength lexical_cast x.1).toNat = length := ⟨_, rfl⟩
    obtain ⟨o, incoming', closed', hbody⟩ := apart_recvBody ⟨incoming, s.outgoing, closed⟩ x.2 length
    have hrequest := fun out => recvRequest_of_header (hheader out) hlength (hbody out)
    by_cases hpos : length > 0
    · exact ⟨_, incoming', closed', fun out => (hrequest out).trans (if_pos hpos)⟩
    · exact ⟨_, incoming, closed, fun out => (hrequest out).trans (if_neg hpos)⟩

theorem readsEndAll_outgoing (rs : List (SentRequest P lexical_cast)) (s : Connection) (out : SocketStream) :
    ReadsEndAll P lexical_cast buff_size rs s →
      ReadsEndAll P lexical_cast buff_size rs { s with outgoing := out } := by
  induction rs generalizing s with
  | nil => exact fun h => h
  | cons r rs ih =>
    intro h
    obtain ⟨o, incoming, closed, hrecv⟩ := apart_recvRequest P lexical_cast buff_size s
    have hsame : s.recvRequest P lexical_cast buff_size = (o, ⟨incoming, s.outgoing, closed⟩) := hrecv s.outgoing
    have hout : ({ s with outgoing := out } : Connection).recvRequest P lexical_cast buff_size =
      (o, ⟨incoming, out, closed⟩) := hrecv out
    refine ⟨h.1, ?_⟩
    have hrest := h.2
    rw [hsame] at hrest
    rw [hout]
    exact ih _ hrest

end Connection

namespace HttpServer

open Connection

variable {σ : Type} {P : HttpRequestParser σ} {lexical_cast : List UInt8 → Option UInt64} {buff_size : ℕ}
variable (fnmatch : List UInt8 → List UInt8 → Bool) (servers : ℕ → HttpServer)

/-- The responses to requests, as far as the first that ends it. -/
def answers : ℕ → List HttpRequest → List HttpResponse
  | _, [] => []
  | k, req :: reqs =>
      let r := (servers k).respond fnmatch req
      r.1 :: if !(servers k).m_isKeepalive || r.2 then [] else answers (k + 1) reqs

theorem recvRequest_end {s : Connection} (hs : s.Has []) :
    ∃ s', s.recvRequest P lexical_cast buff_size = (none, s') ∧ s'.outgoing = s.outgoing := by
  have hheader : s.recvHeader P.toReader buff_size (s.incoming.bytes.length + 1) P.new [] =
      (none, ({ s with incoming := (s.incoming.recv buff_size).2 } : Connection).close) := by
    rw [recvHeader, read_open hs.closed]
    simp [SocketStream.recv, hs.bytes]
  refine ⟨({ s with incoming := (s.incoming.recv buff_size).2 } : Connection).close, ?_, rfl⟩
  unfold recvRequest
  rw [hheader]

theorem serve_answers (rs : List (SentRequest P lexical_cast)) : ∀ (turns k : ℕ) (s : Connection),
    s.incoming.bytes.length < turns → s.Has (SentRequest.stream rs) →
    ReadsEndAll P lexical_cast buff_size rs s →
    (serve P lexical_cast buff_size fnmatch servers turns k s).outgoing.bytes =
        s.outgoing.bytes ++ (answers fnmatch servers k (rs.map SentRequest.request)).flatMap HttpResponse.dump ∧
      (serve P lexical_cast buff_size fnmatch servers turns k s).closed = true := by
  induction rs with
  | nil =>
    intro turns k s hturns hs _
    obtain ⟨turns, rfl⟩ : ∃ n, turns = n + 1 := ⟨turns - 1, by omega⟩
    obtain ⟨s', hrecv, hout⟩ := @recvRequest_end σ P lexical_cast buff_size s hs
    unfold serve
    rw [hrecv]
    simp [answers, close, hout]
  | cons r rs ih =>
    intro turns k s hturns hs hends
    obtain ⟨turns, rfl⟩ : ∃ n, turns = n + 1 := ⟨turns - 1, by omega⟩
    have hs' : s.Has (r.header ++ (r.body ++ SentRequest.stream rs)) := by
      rwa [SentRequest.stream, List.flatMap_cons, List.append_assoc] at hs
    obtain ⟨hend, hrest⟩ := hends
    obtain ⟨s₁, hrecv, hs₁⟩ := recvRequest_of_readsEnd hs' hend
    rw [hrecv] at hrest
    -- the response goes out behind what was sent before
    have hout : s₁.outgoing = s.outgoing := by
      obtain ⟨o, incoming, closed, hall⟩ := apart_recvRequest P lexical_cast buff_size s
      rw [(Prod.mk.inj (hrecv.symm.trans (hall s.outgoing))).2]
    set rsp := (servers k).respond fnmatch r.request with hrsp
    obtain ⟨out, hwrite, hbytes⟩ := s₁.outgoing.writeRawFixSize_sends rsp.1.dump
    have hsent : (s₁.writeFixSize rsp.1.dump).2 = { s₁ with outgoing := out } := by
      simp only [writeFixSize, hs₁.closed, Bool.false_and, Bool.false_eq_true, if_false, hwrite]
    rw [hout] at hbytes
    rw [serve, hrecv]
    simp only [← hrsp, hsent, List.map_cons, answers, List.flatMap_cons]
    by_cases hlast : (!(servers k).m_isKeepalive || rsp.2) = true
    · rw [if_pos hlast, if_pos hlast]
      simp [close, hbytes]
    · rw [if_neg hlast, if_neg hlast]
      have hturns' : s₁.incoming.bytes.length < turns := by
        have hpos := r.follows.nonempty
        have hlength := congrArg List.length hs'.bytes
        rw [List.length_append, List.length_append, ← hs₁.bytes] at hlength
        omega
      obtain ⟨hbytes', hclosed⟩ := ih turns (k + 1) { s₁ with outgoing := out } hturns'
        ⟨hs₁.bytes, hs₁.closed⟩ (readsEndAll_outgoing P lexical_cast buff_size rs s₁ out hrest)
      refine ⟨?_, hclosed⟩
      rw [hbytes', hbytes, List.append_assoc]

/-- Requests that are read apart get their responses in order, up to the first that ends it or to the
last, each from the servlets as they are then; and the connection is closed. -/
theorem handleClient_answers (rs : List (SentRequest P lexical_cast)) (client : Connection)
    (hs : client.Has (SentRequest.stream rs)) (hends : ReadsEndAll P lexical_cast buff_size rs client) :
    (handleClient P lexical_cast buff_size fnmatch servers client).outgoing.bytes =
        client.outgoing.bytes ++
          (answers fnmatch servers 0 (rs.map SentRequest.request)).flatMap HttpResponse.dump ∧
      (handleClient P lexical_cast buff_size fnmatch servers client).closed = true :=
  serve_answers fnmatch servers rs _ 0 client (Nat.lt_succ_self _) hs hends

def emptyServer : HttpServer := ⟨ascii "sylar", true, .new (notFoundServlet (ascii "sylar"))⟩

/-- The first request asks for the end, and the second gets no response. -/
theorem handleClient_answers_closing :
    (handleClient lineParser decimal 4096 (fun pattern uri => pattern = uri) (fun _ => emptyServer)
        (arriving [postRequest, getRequest] fun _ => 39)).outgoing.bytes =
        [] ++ (answers (fun pattern uri => pattern = uri) (fun _ => emptyServer) 0
          [postRequest.request, getRequest.request]).flatMap HttpResponse.dump ∧
      (handleClient lineParser decimal 4096 (fun pattern uri => pattern = uri) (fun _ => emptyServer)
        (arriving [postRequest, getRequest] fun _ => 39)).closed = true :=
  handleClient_answers (fun pattern uri => pattern = uri) (fun _ => emptyServer) [postRequest, getRequest]
    (arriving [postRequest, getRequest] fun _ => 39) ⟨rfl, rfl⟩
    ⟨⟨by decide, 1, _, rfl, by decide, by decide⟩, ⟨by decide, 0, _, rfl, by decide, by decide⟩, trivial⟩

end HttpServer

end Sylar
