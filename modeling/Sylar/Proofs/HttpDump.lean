import Sylar.Proofs.MapType
import Sylar.Spec.HttpDump

/-! The length in a message that is dumped. It is written whatever the headers are, so a header of
that name makes it the second one. -/

namespace Sylar

open Lib

def head (text body : List UInt8) : List UInt8 := text.take (text.length - body.length)

/-- The name, which is what is before the first `:`, in any case of its letters. -/
def isContentLength (line : List UInt8) : Bool :=
  (cut [0x3A] line).any fun c => c.1.map tolower = ascii "content-length"

def lineValue (line : List UInt8) : List UInt8 :=
  (cut [0x3A] line).elim [] fun c => c.2.dropWhile (· = 0x20)

/-- There is one line of this name, and it has the size of the body. -/
def FramedOnce (text body : List UInt8) : Prop :=
  ∃ line, (lines 0x0D 0x0A (head text body)).filter isContentLength = [line] ∧
    lineValue line = decimalText body.length

/-- None of the lines in a text is one of this name. -/
def Unframed (text : List UInt8) : Prop := ∀ line ∈ lines 0x0D 0x0A text, isContentLength line = false

instance (text : List UInt8) : Decidable (Unframed text) :=
  inferInstanceAs (Decidable (∀ line ∈ lines 0x0D 0x0A text, isContentLength line = false))

theorem not_mem_decimalText {c : UInt8} (h : c.toNat < 48 ∨ 57 < c.toNat) (n : ℕ) :
    c ∉ decimalText n := by
  intro hmem
  obtain ⟨d, hd, rfl⟩ := List.mem_map.mp hmem
  rw [show toString n = n.repr from rfl, Nat.toList_repr] at hd
  obtain ⟨hlow, hhigh⟩ :=
    Char.isDigit_iff_toNat.mp (Nat.isDigit_of_mem_toDigits (by decide) (by decide) hd)
  change 48 ≤ d.toNat at hlow
  change d.toNat ≤ 57 at hhigh
  rw [UInt8.toNat_ofNat'] at h
  omega

/-- The line that `dump` writes for a body of `n` bytes. -/
def lengthLine (n : ℕ) : List UInt8 := ascii "content-length: " ++ decimalText n

theorem cut_lengthLine (n : ℕ) :
    cut [0x3A] (lengthLine n) = some (ascii "content-length", 0x20 :: decimalText n) := by
  have hname : ascii "content-length: " = ascii "content-length" ++ [0x3A, 0x20] := by decide
  have hcolon : 0x3A ∉ ascii "content-length" := by decide
  rw [lengthLine, hname, List.append_assoc, List.cons_append]
  exact cut_singleton hcolon (0x20 :: decimalText n)

theorem isContentLength_lengthLine (n : ℕ) : isContentLength (lengthLine n) = true := by
  have hname : decide ((ascii "content-length").map tolower = ascii "content-length") = true := by
    decide
  rw [isContentLength, cut_lengthLine]
  exact hname

theorem lineValue_lengthLine (n : ℕ) : lineValue (lengthLine n) = decimalText n := by
  have hself : (decimalText n).dropWhile (· = 0x20) = decimalText n :=
    List.dropWhile_eq_self_iff.mpr fun hlen hblank =>
      not_mem_decimalText (c := 0x20) (.inl (by decide)) n
        (of_decide_eq_true hblank ▸ List.getElem_mem hlen)
  rw [lineValue, cut_lengthLine, Option.elim_some, List.dropWhile_cons_of_pos (by decide), hself]

theorem lines_lengthLine (n : ℕ) : lines 0x0D 0x0A (lengthLine n) = [lengthLine n] := by
  refine lines_of_not_mem fun hmem => ?_
  rcases List.mem_append.mp hmem with hname | hvalue
  · revert hname
    decide
  · exact not_mem_decimalText (.inl (by decide)) n hvalue

theorem head_append (front body : List UInt8) : head (front ++ body) body = front := by
  rw [head, List.length_append, Nat.add_sub_cancel, List.take_left]

theorem framedOnce_iff (texts : List (List UInt8)) {body : List UInt8} (hbody : body ≠ []) :
    FramedOnce ((texts.flatMap fun t => t ++ crlf) ++ dumpBody body) body ↔
      ∀ t ∈ texts, Unframed t := by
  have hdump : (texts.flatMap fun t => t ++ crlf) ++ dumpBody body =
      (texts.flatMap fun t => t ++ [0x0D, 0x0A]) ++
        (lengthLine body.length ++ 0x0D :: 0x0A :: ([] ++ 0x0D :: 0x0A :: [])) ++ body := by
    rw [dumpBody, if_pos hbody, lengthLine]
    simp [crlf]
  have hne : (0x0D : UInt8) ≠ 0x0A := by decide
  have hlines : lines 0x0D 0x0A
      (head ((texts.flatMap fun t => t ++ crlf) ++ dumpBody body) body) =
        texts.flatMap (lines 0x0D 0x0A) ++ [lengthLine body.length, [], []] := by
    rw [hdump, head_append, lines_flatMap hne, lines_append hne, lines_append hne, lines_lengthLine]
    rfl
  have hfilter : [lengthLine body.length, [], []].filter isContentLength =
      [lengthLine body.length] := by
    rw [List.filter_cons_of_pos (isContentLength_lengthLine _)]
    rfl
  have hunframed : (texts.flatMap (lines 0x0D 0x0A)).filter isContentLength = [] ↔
      ∀ t ∈ texts, Unframed t := by
    rw [List.filter_eq_nil_iff]
    simp only [List.mem_flatMap, Unframed]
    constructor
    · intro h t ht line hline
      simpa using h line ⟨t, ht, hline⟩
    · rintro h line ⟨t, ht, hline⟩
      simpa using h t ht line hline
  rw [FramedOnce, hlines, List.filter_append, hfilter, ← hunframed]
  constructor
  · rintro ⟨line, hline, -⟩
    have hlen := congrArg List.length hline
    rw [List.length_append, List.length_singleton, List.length_singleton] at hlen
    exact List.length_eq_zero_iff.mp (by omega)
  · intro h
    rw [h]
    exact ⟨_, rfl, lineValue_lengthLine _⟩

def headerTexts (m_websocket : Bool) (m_headers : MapType) : List (List UInt8) :=
  (m_headers.filter fun i =>
    !(!m_websocket && strcasecmp i.1 (ascii "connection") = .eq)).map fun i => i.1 ++ ascii ": " ++ i.2

theorem dumpHeaders_eq (m_websocket : Bool) (m_headers : MapType) :
    dumpHeaders m_websocket m_headers =
      (headerTexts m_websocket m_headers).flatMap fun t => t ++ crlf := by
  induction m_headers with
  | nil => rfl
  | cons i m_headers ih =>
    rw [dumpHeaders, List.flatMap_cons, ← dumpHeaders, ih, headerTexts, headerTexts, List.filter_cons]
    by_cases hi : (!m_websocket && decide (strcasecmp i.1 (ascii "connection") = .eq)) = true
    · rw [if_pos hi, if_neg (by rw [hi]; decide), List.nil_append]
    · rw [Bool.not_eq_true] at hi
      rw [hi, if_neg Bool.false_ne_true, if_pos Bool.not_false, List.map_cons, List.flatMap_cons]

def connectionTexts (m_websocket m_close : Bool) : List (List UInt8) :=
  if !m_websocket then [ascii "connection: " ++ (if m_close then ascii "close" else ascii "keep-alive")]
  else []

theorem dumpConnection_eq (m_websocket m_close : Bool) :
    dumpConnection m_websocket m_close =
      (connectionTexts m_websocket m_close).flatMap fun t => t ++ crlf := by
  rw [dumpConnection, connectionTexts]
  split_ifs <;> simp

theorem unframed_connection (m_websocket m_close : Bool) :
    ∀ t ∈ connectionTexts m_websocket m_close, Unframed t := by
  cases m_websocket <;> cases m_close <;> decide

/-- The lines that a request is dumped to before the length, but for the connection. -/
def HttpRequest.texts (req : HttpRequest) : List (List UInt8) :=
  req.startLine :: headerTexts req.m_websocket req.m_headers

def HttpResponse.texts (rsp : HttpResponse) : List (List UInt8) :=
  rsp.startLine :: headerTexts rsp.m_websocket rsp.m_headers ++
    rsp.m_cookies.map fun i => ascii "Set-Cookie: " ++ i

theorem HttpRequest.framedOnce_dump (req : HttpRequest) (hbody : req.m_body ≠ []) :
    FramedOnce req.dump req.m_body ↔ ∀ t ∈ req.texts, Unframed t := by
  have hdump : req.dump = ((req.startLine :: connectionTexts req.m_websocket req.m_close ++
      headerTexts req.m_websocket req.m_headers).flatMap fun t => t ++ crlf) ++ dumpBody req.m_body := by
    rw [dump, dumpConnection_eq, dumpHeaders_eq, List.flatMap_append, List.flatMap_cons]
  rw [hdump, framedOnce_iff _ hbody, texts, List.forall_mem_append, List.forall_mem_cons,
    List.forall_mem_cons]
  constructor
  · rintro ⟨⟨hstart, -⟩, hheaders⟩
    exact ⟨hstart, hheaders⟩
  · rintro ⟨hstart, hheaders⟩
    exact ⟨⟨hstart, unframed_connection _ _⟩, hheaders⟩

theorem HttpResponse.framedOnce_dump (rsp : HttpResponse) (hbody : rsp.m_body ≠ []) :
    FramedOnce rsp.dump rsp.m_body ↔ ∀ t ∈ rsp.texts, Unframed t := by
  have hdump : rsp.dump = ((rsp.texts ++ connectionTexts rsp.m_websocket rsp.m_close).flatMap
      fun t => t ++ crlf) ++ dumpBody rsp.m_body := by
    rw [dump, dumpConnection_eq, dumpHeaders_eq, texts, List.flatMap_append, List.flatMap_append,
      List.flatMap_cons, List.flatMap_map]
  rw [hdump, framedOnce_iff _ hbody, List.forall_mem_append]
  exact ⟨And.left, fun h => ⟨h, unframed_connection _ _⟩⟩

def PlainHeaders (m_headers : MapType) : Prop :=
  ∀ i ∈ m_headers, 0x0A ∉ i.1 ∧ 0x3A ∉ i.1 ∧ 0x0A ∉ i.2

def HttpRequest.Plain (req : HttpRequest) : Prop :=
  0x0A ∉ req.m_path ∧ 0x0A ∉ req.m_query ∧ 0x0A ∉ req.m_fragment ∧ PlainHeaders req.m_headers

def HttpResponse.Plain (rsp : HttpResponse) : Prop :=
  0x0A ∉ rsp.m_reason ∧ (∀ i ∈ rsp.m_cookies, 0x0A ∉ i) ∧ PlainHeaders rsp.m_headers

/-- No header has the name, in any case of its letters. -/
def NoLength (m_headers : MapType) : Prop :=
  ∀ i ∈ m_headers, i.1.map tolower ≠ ascii "content-length"

theorem unframed_iff {text : List UInt8} (h : 0x0A ∉ text) :
    Unframed text ↔ isContentLength text = false := by
  rw [Unframed, lines_of_not_mem h]
  exact List.forall_mem_singleton

theorem isContentLength_word {word : List UInt8} (h : 0x3A ∉ word) (rest : List UInt8) :
    isContentLength (word ++ 0x20 :: rest) = false := by
  rw [isContentLength]
  cases hcut : cut [0x3A] (word ++ 0x20 :: rest) with
  | none => rfl
  | some c =>
    obtain ⟨hline, -⟩ := cut_singleton_eq_some.mp hcut
    have hblank : (0x20 : UInt8) ∈ c.1 := by
      rcases cut_singleton_cases 0x3A rest with hrest | ⟨x, y, rfl, hx⟩
      · have hmem : (0x3A : UInt8) ∈ word ++ 0x20 :: rest := hline ▸ by simp
        simp [h, hrest] at hmem
      · have hword : 0x3A ∉ word ++ 0x20 :: x := by simp [h, hx]
        have hcut' := cut_singleton hword y
        rw [List.append_assoc, List.cons_append, hcut, Option.some.injEq] at hcut'
        rw [hcut']
        simp
    have hne : c.1.map tolower ≠ ascii "content-length" := fun heq => by
      have hlower : tolower 0x20 ∈ c.1.map tolower := List.mem_map_of_mem hblank
      rw [heq] at hlower
      revert hlower
      decide
    exact decide_eq_false hne

theorem isContentLength_header {key : List UInt8} (h : 0x3A ∉ key) (val : List UInt8) :
    isContentLength (key ++ ascii ": " ++ val) = decide (key.map tolower = ascii "content-length") := by
  have hcut : cut [0x3A] (key ++ ascii ": " ++ val) = some (key, 0x20 :: val) := by
    rw [show key ++ ascii ": " ++ val = key ++ 0x3A :: (0x20 :: val) by simp [ascii], cut_singleton h]
  rw [isContentLength, hcut]
  rfl

theorem ne_connection {key : List UInt8} (h : key.map tolower = ascii "content-length") :
    strcasecmp key (ascii "connection") ≠ .eq := by
  have hzero : ∀ c ∈ key, c ≠ 0 := by
    rintro c hc rfl
    have hmem : tolower 0 ∈ key.map tolower := List.mem_map_of_mem hc
    rw [h] at hmem
    revert hmem
    decide
  have hfolded : folded key = ascii "content-length" := by
    rw [folded, List.takeWhile_eq_self_iff.mpr fun c hc => decide_eq_true (hzero c hc), h]
  rw [Ne, strcasecmp_eq_iff, hfolded]
  decide

theorem unframed_headers {m_websocket : Bool} {m_headers : MapType} (h : PlainHeaders m_headers) :
    (∀ t ∈ headerTexts m_websocket m_headers, Unframed t) ↔ NoLength m_headers := by
  have hone : ∀ i ∈ m_headers, Unframed (i.1 ++ ascii ": " ++ i.2) ↔
      i.1.map tolower ≠ ascii "content-length" := by
    intro i hi
    obtain ⟨hkey, hcolon, hval⟩ := h i hi
    have hline : 0x0A ∉ i.1 ++ ascii ": " ++ i.2 := by
      simp only [List.mem_append, not_or]
      exact ⟨⟨hkey, by decide⟩, hval⟩
    rw [unframed_iff hline, isContentLength_header hcolon, decide_eq_false_iff_not]
  constructor
  · intro hall i hi heq
    refine (hone i hi).mp (hall _ ?_) heq
    exact List.mem_map.mpr ⟨i, List.mem_filter.mpr ⟨hi, by simp [ne_connection heq]⟩, rfl⟩
  · intro hno t ht
    obtain ⟨i, hi, rfl⟩ := List.mem_map.mp ht
    have hmem := (List.mem_filter.mp hi).1
    exact (hone i hmem).mpr (hno i hmem)

theorem not_mem_dumpVersion {c : UInt8} (h : c = 0x0A ∨ c = 0x3A) (m_version : UInt8) :
    c ∉ dumpVersion m_version := by
  have hdigits : c.toNat < 48 ∨ 57 < c.toNat := by rcases h with rfl | rfl <;> decide
  have hword : c ∉ ascii "HTTP/" ∧ c ∉ ascii "." := by rcases h with rfl | rfl <;> decide
  rw [dumpVersion]
  simp only [List.mem_append, not_or]
  exact ⟨⟨⟨hword.1, not_mem_decimalText hdigits _⟩, hword.2⟩, not_mem_decimalText hdigits _⟩

theorem not_mem_HttpMethodToString {c : UInt8} (h : c = 0x0A ∨ c = 0x3A) (m : HttpMethod) :
    c ∉ HttpMethodToString m := by
  have hnames : ∀ name ∈ "<unknown>" :: s_method_string, 0x0A ∉ ascii name ∧ 0x3A ∉ ascii name := by
    decide
  have hname : s_method_string.getD m.ctorIdx "<unknown>" ∈ "<unknown>" :: s_method_string := by
    rw [List.getD_eq_getElem?_getD]
    cases h : s_method_string[m.ctorIdx]? with
    | none => exact List.mem_cons_self
    | some name => exact List.mem_cons_of_mem _ (List.mem_of_getElem? h)
  obtain ⟨hfeed, hcolon⟩ := hnames _ hname
  rcases h with rfl | rfl
  · exact hfeed
  · exact hcolon

theorem not_mem_HttpStatusToString (s : Int32) : 0x0A ∉ HttpStatusToString s := by
  have htexts : ∀ i ∈ statusTexts, 0x0A ∉ ascii i.2 := by decide +kernel
  rw [HttpStatusToString]
  cases h : statusTexts.lookup s with
  | none => decide
  | some text =>
    obtain ⟨l₁, l₂, hl, -⟩ := List.lookup_eq_some_iff.mp h
    exact htexts (s, text) (by rw [hl]; simp)

theorem HttpRequest.unframed_startLine {req : HttpRequest} (h : req.Plain) :
    Unframed req.startLine := by
  obtain ⟨hpath, hquery, hfragment, -⟩ := h
  have hmark : 0x0A ∉ (if req.m_query = [] then [] else ascii "?") := by
    split_ifs <;> decide
  have hhash : 0x0A ∉ (if req.m_fragment = [] then [] else ascii "#") := by
    split_ifs <;> decide
  have hline : 0x0A ∉ req.startLine := by
    rw [startLine]
    simp only [List.mem_append, not_or]
    exact ⟨⟨⟨⟨⟨⟨⟨⟨not_mem_HttpMethodToString (.inl rfl) _, by decide⟩, hpath⟩, hmark⟩, hquery⟩,
      hhash⟩, hfragment⟩, by decide⟩, not_mem_dumpVersion (.inl rfl) _⟩
  obtain ⟨rest, hrest⟩ : ∃ rest, req.startLine = HttpMethodToString req.m_method ++ 0x20 :: rest :=
    ⟨_, by
      simp only [startLine, List.append_assoc]
      rfl⟩
  rw [unframed_iff hline, hrest]
  exact isContentLength_word (not_mem_HttpMethodToString (.inr rfl) _) rest

theorem HttpResponse.unframed_startLine {rsp : HttpResponse} (h : rsp.Plain) :
    Unframed rsp.startLine := by
  have hreason :
      0x0A ∉ (if rsp.m_reason = [] then HttpStatusToString rsp.m_status else rsp.m_reason) := by
    split_ifs
    · exact not_mem_HttpStatusToString _
    · exact h.1
  have hline : 0x0A ∉ rsp.startLine := by
    rw [startLine]
    simp only [List.mem_append, not_or]
    exact ⟨⟨⟨⟨not_mem_dumpVersion (.inl rfl) _, by decide⟩,
      not_mem_decimalText (.inl (by decide)) _⟩, by decide⟩, hreason⟩
  obtain ⟨rest, hrest⟩ : ∃ rest, rsp.startLine = dumpVersion rsp.m_version ++ 0x20 :: rest :=
    ⟨_, by
      simp only [startLine, List.append_assoc]
      rfl⟩
  rw [unframed_iff hline, hrest]
  exact isContentLength_word (not_mem_dumpVersion (.inr rfl) _) rest

theorem HttpRequest.unframed_texts {req : HttpRequest} (h : req.Plain) :
    (∀ t ∈ req.texts, Unframed t) ↔ NoLength req.m_headers := by
  rw [texts, List.forall_mem_cons, unframed_headers h.2.2.2]
  exact ⟨And.right, fun hno => ⟨unframed_startLine h, hno⟩⟩

theorem HttpResponse.unframed_texts {rsp : HttpResponse} (h : rsp.Plain) :
    (∀ t ∈ rsp.texts, Unframed t) ↔ NoLength rsp.m_headers := by
  have hcookies : ∀ t ∈ rsp.m_cookies.map fun i => ascii "Set-Cookie: " ++ i, Unframed t := by
    intro t ht
    obtain ⟨i, hi, rfl⟩ := List.mem_map.mp ht
    have hline : 0x0A ∉ ascii "Set-Cookie: " ++ i := by
      rw [List.mem_append, not_or]
      exact ⟨by decide, h.2.1 i hi⟩
    have hkey : 0x3A ∉ ascii "Set-Cookie" := by decide
    have hname := isContentLength_header hkey i
    rw [unframed_iff hline]
    exact hname.trans (by decide)
  rw [texts, List.forall_mem_append, List.forall_mem_cons, unframed_headers h.2.2]
  exact ⟨fun hall => hall.1.2, fun hno => ⟨⟨unframed_startLine h, hno⟩, hcookies⟩⟩

theorem framedOnce_dump_iff (req : HttpRequest) (rsp : HttpResponse) (hreq : req.m_body ≠ [])
    (hrsp : rsp.m_body ≠ []) :
    ((FramedOnce req.dump req.m_body ↔ ∀ t ∈ req.texts, Unframed t) ∧
        (req.Plain → (FramedOnce req.dump req.m_body ↔ NoLength req.m_headers))) ∧
      (FramedOnce rsp.dump rsp.m_body ↔ ∀ t ∈ rsp.texts, Unframed t) ∧
        (rsp.Plain → (FramedOnce rsp.dump rsp.m_body ↔ NoLength rsp.m_headers)) := by
  refine ⟨⟨req.framedOnce_dump hreq, fun h => ?_⟩, rsp.framedOnce_dump hrsp, fun h => ?_⟩
  · rw [req.framedOnce_dump hreq, HttpRequest.unframed_texts h]
  · rw [rsp.framedOnce_dump hrsp, HttpResponse.unframed_texts h]

def posted : HttpRequest :=
  { HttpRequest.new 0x11 true with m_body := ascii "abc" }.setHeader (ascii "Host") (ascii "a")

def answered : HttpResponse :=
  { HttpResponse.new 0x11 true with m_body := ascii "abc" }.setHeader (ascii "Server") (ascii "b")

theorem framedOnce_dump_posted :
    ((FramedOnce posted.dump posted.m_body ↔ ∀ t ∈ posted.texts, Unframed t) ∧
        (posted.Plain → (FramedOnce posted.dump posted.m_body ↔ NoLength posted.m_headers))) ∧
      (FramedOnce answered.dump answered.m_body ↔ ∀ t ∈ answered.texts, Unframed t) ∧
        (answered.Plain → (FramedOnce answered.dump answered.m_body ↔ NoLength answered.m_headers)) :=
  framedOnce_dump_iff posted answered (by decide) (by decide)

theorem two_lengths : ¬ FramedOnce (posted.setHeader (ascii "Content-Length") (ascii "10")).dump
    (posted.setHeader (ascii "Content-Length") (ascii "10")).m_body := by
  rw [HttpRequest.framedOnce_dump _ (by decide)]
  intro h
  have hcopy : ascii "Content-Length: 10" ∈
      (posted.setHeader (ascii "Content-Length") (ascii "10")).texts := by decide
  have hname := h _ hcopy
  revert hname
  decide

end Sylar
