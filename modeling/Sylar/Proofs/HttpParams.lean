import Sylar.Lib.Fields
import Sylar.Proofs.MapType
import Sylar.Proofs.StringTrim
import Sylar.Proofs.UrlCodes

/-! What `PARSE_PARAM` puts into a map, and that it reads what was joined from encoded values. -/

namespace Sylar

open Lib

open StringUtil (UrlEncode UrlDecode Trim whitespace encodeByte UrlEncode_eq UrlDecode_eq)

section

variable {M : Type} (insert : M → List UInt8 × List UInt8 → M) {flag : UInt8}
  (trim : List UInt8 → List UInt8)

def decoded (field : List UInt8 × List UInt8) : List UInt8 × List UInt8 :=
  (trim field.1, UrlDecode field.2 true)

section

variable {str : List UInt8} {pos key : ℕ} (m : M)

theorem PARSE_PARAM_of_none (h : findFrom [0x3D] str pos = none) :
    PARSE_PARAM insert str m flag trim pos = m := by
  rw [PARSE_PARAM]
  split
  · rfl
  · rename_i key hkey
    cases h.symm.trans hkey

theorem PARSE_PARAM_of_key (hkey : findFrom [0x3D] str pos = some key) :
    PARSE_PARAM insert str m flag trim pos =
      (findFrom [flag] str key).elim
        (insert m (decoded trim (substr str pos (key - pos), str.drop (key + 1)))) fun pos' =>
          PARSE_PARAM insert str
            (insert m (decoded trim (substr str pos (key - pos), substr str (key + 1) (pos' - key - 1))))
            flag trim (pos' + 1) := by
  rw [PARSE_PARAM]
  split
  · rename_i hnone
    cases hnone.symm.trans hkey
  · rename_i key' hkey'
    obtain rfl : key = key' := Option.some.inj (hkey.symm.trans hkey')
    split
    · rename_i hpos
      rw [hpos, Option.elim_none]
      rfl
    · rename_i pos' hpos
      rw [hpos, Option.elim_some]
      rfl

end

theorem PARSE_PARAM_end (pre : List UInt8) {rest : List UInt8} (h : 0x3D ∉ rest) (m : M) :
    PARSE_PARAM insert (pre ++ rest) m flag trim pre.length = m :=
  PARSE_PARAM_of_none insert trim m (findFrom_singleton_eq_none pre h)

theorem PARSE_PARAM_last (hflag : flag ≠ 0x3D) (pre : List UInt8) {name value : List UInt8}
    (hname : 0x3D ∉ name) (hvalue : flag ∉ value) (m : M) :
    PARSE_PARAM insert (pre ++ (name ++ 0x3D :: value)) m flag trim pre.length =
      insert m (decoded trim (name, value)) := by
  have hpos : findFrom [flag] (pre ++ (name ++ 0x3D :: value)) (pre.length + name.length) = none := by
    rw [← List.append_assoc, ← List.length_append]
    exact findFrom_singleton_eq_none _ (List.not_mem_cons_of_ne_of_not_mem hflag hvalue)
  have hdrop : (pre ++ (name ++ 0x3D :: value)).drop (pre.length + name.length + 1) = value := by
    rw [show pre ++ (name ++ 0x3D :: value) = (pre ++ (name ++ [0x3D])) ++ value by simp]
    exact List.drop_left' (by simp only [List.length_append, List.length_singleton]; omega)
  rw [PARSE_PARAM_of_key insert trim m (findFrom_singleton_eq_some pre hname value), hpos,
    Option.elim_none, Nat.add_sub_cancel_left, substr_append, hdrop]

theorem PARSE_PARAM_field (hflag : flag ≠ 0x3D) (pre : List UInt8) {name value : List UInt8}
    (hname : 0x3D ∉ name) (hvalue : flag ∉ value) (rest : List UInt8) (m : M) :
    PARSE_PARAM insert (pre ++ (name ++ 0x3D :: (value ++ flag :: rest))) m flag trim pre.length =
      PARSE_PARAM insert (pre ++ (name ++ 0x3D :: (value ++ [flag])) ++ rest)
        (insert m (decoded trim (name, value))) flag trim
        (pre ++ (name ++ 0x3D :: (value ++ [flag]))).length := by
  have hpos : findFrom [flag] (pre ++ (name ++ 0x3D :: (value ++ flag :: rest)))
      (pre.length + name.length) = some (pre.length + name.length + (value.length + 1)) := by
    have := findFrom_singleton_eq_some (pre ++ name)
      (List.not_mem_cons_of_ne_of_not_mem hflag hvalue) rest
    rw [List.length_append, List.length_cons] at this
    rw [← this]
    simp
  have hvalues : substr (pre ++ (name ++ 0x3D :: (value ++ flag :: rest)))
      (pre.length + name.length + 1) value.length = value := by
    have := substr_append (pre ++ (name ++ [0x3D])) value (flag :: rest)
    simp only [List.length_append, List.length_singleton, ← Nat.add_assoc] at this
    rw [show pre ++ (name ++ 0x3D :: (value ++ flag :: rest)) =
      pre ++ (name ++ [0x3D]) ++ (value ++ flag :: rest) by simp, this]
  have hnext : pre.length + name.length + (value.length + 1) + 1 =
      (pre ++ (name ++ 0x3D :: (value ++ [flag]))).length := by
    simp only [List.length_append, List.length_cons, List.length_nil]
    omega
  rw [PARSE_PARAM_of_key insert trim m (findFrom_singleton_eq_some pre hname _), hpos,
    Option.elim_some, hnext, Nat.add_sub_cancel_left, Nat.add_sub_cancel_left, Nat.add_sub_cancel,
    substr_append, hvalues,
    show pre ++ (name ++ 0x3D :: (value ++ flag :: rest)) =
      pre ++ (name ++ 0x3D :: (value ++ [flag])) ++ rest by simp]

theorem PARSE_PARAM_eq (hflag : flag ≠ 0x3D) (rest pre : List UInt8) (m : M) :
    PARSE_PARAM insert (pre ++ rest) m flag trim pre.length =
      ((runTogether 0x3D flag [] (rest.splitOn flag)).map (decoded trim)).foldl insert m := by
  induction hn : rest.length using Nat.strong_induction_on generalizing rest pre m with
  | _ n ih =>
    rcases cut_singleton_cases 0x3D rest with h | ⟨name, behind, rfl, hname⟩
    · rw [PARSE_PARAM_end insert trim pre h, runTogether_splitOn_eq_nil h]
      rfl
    · rcases cut_singleton_cases flag behind with hvalue | ⟨value, more, rfl, hvalue⟩
      · have hrun := runTogether_splitOn_append hname hvalue hflag [] []
        rw [List.append_nil] at hrun
        rw [PARSE_PARAM_last insert trim hflag pre hname hvalue, hrun]
        rfl
      · have hsplit : (name ++ 0x3D :: (value ++ flag :: more)).splitOn flag =
            (name ++ 0x3D :: value).splitOn flag ++ more.splitOn flag := by
          rw [← List.splitOn_append_cons_self]
          simp
        have hlen : more.length < n := by
          simp only [List.length_append, List.length_cons] at hn
          omega
        rw [PARSE_PARAM_field insert trim hflag pre hname hvalue, ih _ hlen _ _ _ rfl, hsplit,
          runTogether_splitOn_append hname hvalue hflag]
        rfl

end

namespace HttpRequest

variable (req : HttpRequest)

theorem initQueryParam_of_flag (h : req.m_parserParamFlag &&& 0x1 ≠ 0) : req.initQueryParam = req := by
  rw [initQueryParam, if_pos h]

theorem initBodyParam_of_flag (h : req.m_parserParamFlag &&& 0x2 ≠ 0) : req.initBodyParam = req := by
  rw [initBodyParam, if_pos h]

theorem initCookies_of_flag (h : req.m_parserParamFlag &&& 0x4 ≠ 0) : req.initCookies = req := by
  rw [initCookies, if_pos h]

theorem flag_or (flag : UInt8) : (flag ||| 0x1) &&& 0x1 ≠ 0 ∧ (flag ||| 0x2) &&& 0x2 ≠ 0 ∧
    (flag ||| 0x4) &&& 0x4 ≠ 0 ∧ (flag ||| 0x2) &&& 0x1 = flag &&& 0x1 :=
  forall_byte (P := fun flag => (flag ||| 0x1) &&& 0x1 ≠ 0 ∧ (flag ||| 0x2) &&& 0x2 ≠ 0 ∧
    (flag ||| 0x4) &&& 0x4 ≠ 0 ∧ (flag ||| 0x2) &&& 0x1 = flag &&& 0x1) (by decide +kernel) flag

theorem flag_initQueryParam : req.initQueryParam.m_parserParamFlag &&& 0x1 ≠ 0 := by
  rw [initQueryParam]
  split_ifs with h
  · exact h
  · exact (flag_or _).1

theorem m_headers_initQueryParam : req.initQueryParam.m_headers = req.m_headers := by
  rw [initQueryParam]
  split_ifs <;> rfl

theorem m_params_of_not_form (h : strcasestr (req.getHeader (ascii "content-type") [])
    (ascii "application/x-www-form-urlencoded") = false) : req.initBodyParam.m_params = req.m_params := by
  rw [initBodyParam]
  split_ifs
  · rfl
  · dsimp only
    rw [h]
    rfl

theorem flag_initBodyParam : req.initBodyParam.m_parserParamFlag &&& 0x2 ≠ 0 ∧
    req.initBodyParam.m_parserParamFlag &&& 0x1 = req.m_parserParamFlag &&& 0x1 := by
  obtain ⟨-, hbody, -, hquery⟩ := flag_or req.m_parserParamFlag
  rw [initBodyParam]
  split_ifs with h
  · exact ⟨h, rfl⟩
  · dsimp only
    split_ifs
    · exact ⟨hbody, hquery⟩
    · exact ⟨hbody, hquery⟩

theorem flag_initCookies : req.initCookies.m_parserParamFlag &&& 0x4 ≠ 0 := by
  obtain ⟨-, -, hcookies, -⟩ := flag_or req.m_parserParamFlag
  rw [initCookies]
  split_ifs with h
  · exact h
  · dsimp only
    split_ifs
    · exact hcookies
    · exact hcookies

/-- Whatever is asked for first, the maps are those of the first call. -/
theorem getParam_again (key dflt key' dflt' : List UInt8) :
    (req.getParam key dflt).2.getParam key' dflt' =
      (((req.getParam key dflt).2.m_params.find key').getD dflt', (req.getParam key dflt).2) := by
  obtain ⟨hbody, hquery⟩ := req.initQueryParam.flag_initBodyParam
  have hflag := hquery ▸ req.flag_initQueryParam
  rw [getParam, getParam]
  dsimp only
  rw [initQueryParam_of_flag _ hflag, initBodyParam_of_flag _ hbody]

theorem getCookie_again (key dflt key' dflt' : List UInt8) :
    (req.getCookie key dflt).2.getCookie key' dflt' =
      (((req.getCookie key dflt).2.m_cookies.find key').getD dflt', (req.getCookie key dflt).2) := by
  rw [getCookie, getCookie]
  dsimp only
  rw [initCookies_of_flag _ req.flag_initCookies]

end HttpRequest

def isKeyChar (c : UInt8) : Bool :=
  (48 ≤ c && c ≤ 57) || (65 ≤ c && c ≤ 90) || (97 ≤ c && c ≤ 122) || c = 0x2D || c = 0x2E ||
    c = 0x5F || c = 0x7E

def encoded (pair : List UInt8 × List UInt8) : List UInt8 := pair.1 ++ 0x3D :: UrlEncode pair.2 true

def queryOf (pairs : List (List UInt8 × List UInt8)) : List UInt8 :=
  [0x26].intercalate (pairs.map encoded)

def spaced (pairs : List (ℕ × List UInt8 × List UInt8)) : List (List UInt8) :=
  pairs.map fun pair => List.replicate pair.1 0x20 ++ encoded pair.2

def cookieOf (pairs : List (ℕ × List UInt8 × List UInt8)) : List UInt8 :=
  [0x3B].intercalate (spaced pairs)

/-- The map has these bindings and no others. -/
structure Binds (m : MapType) (pairs : List (List UInt8 × List UInt8)) : Prop where
  perm : m.Perm pairs
  find : ∀ pair ∈ pairs, m.find pair.1 = some pair.2

structure Keys (pairs : List (List UInt8 × List UInt8)) : Prop where
  chars : ∀ pair ∈ pairs, ∀ c ∈ pair.1, isKeyChar c
  distinct : pairs.Pairwise fun p q => p.1.map tolower ≠ q.1.map tolower

theorem keyChar_ne {c : UInt8} (h : isKeyChar c) : c ≠ 0 ∧ c ≠ 0x3D ∧ c ≠ 0x26 ∧ c ≠ 0x3B ∧
    whitespace.contains c = false :=
  forall_byte (P := fun c => isKeyChar c → c ≠ 0 ∧ c ≠ 0x3D ∧ c ≠ 0x26 ∧ c ≠ 0x3B ∧
    whitespace.contains c = false) (by decide +kernel) c h

theorem separator_not_mem_UrlEncode (value : List UInt8) :
    0x26 ∉ UrlEncode value true ∧ 0x3B ∉ UrlEncode value true := by
  have htext := StringUtil.urlText_flatMap true value
  rw [UrlEncode_eq]
  exact ⟨htext.not_mem rfl rfl (by decide) (by decide), htext.not_mem rfl rfl (by decide) (by decide)⟩

theorem folded_key {key : List UInt8} (h : ∀ c ∈ key, isKeyChar c) : folded key = key.map tolower := by
  rw [folded, List.takeWhile_eq_self_iff.mpr fun c hc => by simpa using (keyChar_ne (h c hc)).1]

theorem Keys.folded {pairs : List (List UInt8 × List UInt8)} (h : Keys pairs) :
    pairs.Pairwise fun p q => folded p.1 ≠ folded q.1 :=
  h.distinct.imp_of_mem fun hp hq hne => by
    rwa [folded_key (h.chars _ hp), folded_key (h.chars _ hq)]

theorem find_of_mem {pairs : MapType} (h : pairs.Pairwise fun p q => folded p.1 ≠ folded q.1)
    {pair : List UInt8 × List UInt8} (hpair : pair ∈ pairs) : pairs.find pair.1 = some pair.2 := by
  induction pairs with
  | nil => cases hpair
  | cons p pairs ih =>
    rw [List.pairwise_cons] at h
    rw [MapType.find_eq, List.find?_cons]
    rcases List.mem_cons.mp hpair with rfl | hpair
    · rw [decide_eq_true rfl]
      rfl
    · rw [decide_eq_false (h.1 pair hpair), ← ih h.2 hpair, MapType.find_eq]

theorem binds_foldl_insert {pairs : List (List UInt8 × List UInt8)} (h : Keys pairs) :
    Binds (pairs.foldl MapType.insert []) pairs where
  perm := MapType.foldl_insert_perm [] pairs h.folded
  find pair hpair := by
    rw [MapType.find_foldl_insert, find_of_mem h.folded hpair]
    rfl

theorem Trim_blanks {key : List UInt8} (h : ∀ c ∈ key, isKeyChar c) (n : ℕ) :
    Trim (List.replicate n 0x20 ++ key) whitespace = key := by
  have hkey : ∀ c ∈ key, whitespace.contains c = false := fun c hc => (keyChar_ne (h c hc)).2.2.2.2
  have hfront : key.dropWhile whitespace.contains = key :=
    List.dropWhile_eq_self_iff.mpr fun hlen => by rw [hkey _ (List.getElem_mem hlen)]; decide
  have hback : key.rdropWhile whitespace.contains = key :=
    List.rdropWhile_eq_self_iff.mpr fun hne => by rw [hkey _ (List.getLast_mem hne)]; decide
  rw [StringUtil.Trim_eq, List.dropWhile_append_of_pos fun c hc => by
    rw [List.eq_of_mem_replicate hc]; rfl, hfront, hback]

section

variable {pairs : List (ℕ × List UInt8 × List UInt8)} (hkeys : Keys (pairs.map Prod.snd))
include hkeys

theorem separator_not_mem {sep : UInt8} (hsep : sep = 0x26 ∨ sep = 0x3B) :
    ∀ c ∈ spaced pairs, sep ∉ c := by
  intro c hc hmem
  obtain ⟨pair, hpair, rfl⟩ := List.mem_map.mp hc
  have hchars := hkeys.chars pair.2 (List.mem_map_of_mem hpair)
  obtain ⟨hamp, hsemi⟩ := separator_not_mem_UrlEncode pair.2.2
  rw [encoded, List.mem_append, List.mem_append, List.mem_cons] at hmem
  rcases hmem with hblank | hkey | hsign | hvalue
  · rcases hsep with rfl | rfl <;> cases List.eq_of_mem_replicate hblank
  · obtain ⟨-, -, h26, h3B, -⟩ := keyChar_ne (hchars sep hkey)
    rcases hsep with rfl | rfl
    · exact h26 rfl
    · exact h3B rfl
  · rcases hsep with rfl | rfl <;> cases hsign
  · rcases hsep with rfl | rfl
    · exact hamp hvalue
    · exact hsemi hvalue

theorem runTogether_spaced (sep : UInt8) : runTogether 0x3D sep [] (spaced pairs) =
    pairs.map fun pair => (List.replicate pair.1 0x20 ++ pair.2.1, UrlEncode pair.2.2 true) := by
  have hsign : ∀ pair ∈ pairs, 0x3D ∉ List.replicate pair.1 0x20 ++ pair.2.1 := by
    intro pair hpair hmem
    rcases List.mem_append.mp hmem with hblank | hkey
    · cases List.eq_of_mem_replicate hblank
    · exact (keyChar_ne (hkeys.chars pair.2 (List.mem_map_of_mem hpair) _ hkey)).2.1 rfl
  clear hkeys
  induction pairs with
  | nil => rfl
  | cons pair pairs ih =>
    rw [List.forall_mem_cons] at hsign
    rw [spaced, List.map_cons, encoded, ← List.append_assoc, runTogether_field hsign.1, ← spaced,
      ih hsign.2]
    rfl

theorem PARSE_PARAM_joined {sep : UInt8} (hsep : sep = 0x26 ∨ sep = 0x3B)
    {trim : List UInt8 → List UInt8}
    (htrim : ∀ pair ∈ pairs, trim (List.replicate pair.1 0x20 ++ pair.2.1) = pair.2.1) :
    Binds (PARSE_PARAM MapType.insert ([sep].intercalate (spaced pairs)) [] sep trim 0)
      (pairs.map Prod.snd) := by
  have hflag : sep ≠ 0x3D := by rcases hsep with rfl | rfl <;> decide
  have hsplit : runTogether 0x3D sep [] (([sep].intercalate (spaced pairs)).splitOn sep) =
      runTogether 0x3D sep [] (spaced pairs) := by
    by_cases hnil : spaced pairs = []
    · rw [hnil]
      exact runTogether_eq_nil (by simp)
    · rw [List.splitOn_intercalate sep (separator_not_mem hkeys hsep) hnil]
  have hdecoded : (runTogether 0x3D sep [] (spaced pairs)).map (decoded trim) =
      pairs.map Prod.snd := by
    rw [runTogether_spaced hkeys, List.map_map]
    refine List.map_congr_left fun pair hpair => ?_
    rw [Function.comp_apply, decoded, htrim pair hpair, UrlDecode_eq, UrlEncode_eq,
      StringUtil.decodeBytes_flatMap]
  have hparse := PARSE_PARAM_eq MapType.insert trim hflag ([sep].intercalate (spaced pairs)) [] []
  rw [List.nil_append, List.length_nil, hsplit, hdecoded] at hparse
  rw [hparse]
  exact binds_foldl_insert hkeys

end

theorem params_round_trip (pairs : List (ℕ × List UInt8 × List UInt8))
    (hkeys : Keys (pairs.map Prod.snd)) :
    (∀ req : HttpRequest, req.m_parserParamFlag &&& 0x1 = 0 → req.m_params = [] →
      req.m_query = queryOf (pairs.map Prod.snd) →
      Binds req.initQueryParam.m_params (pairs.map Prod.snd)) ∧
    ∀ req : HttpRequest, req.m_parserParamFlag &&& 0x4 = 0 → req.m_cookies = [] →
      req.getHeader (ascii "cookie") [] = cookieOf pairs →
      Binds req.initCookies.m_cookies (pairs.map Prod.snd) := by
  constructor
  · intro req hflag hparams hquery
    obtain ⟨bare, hbare⟩ : ∃ bare, bare = pairs.map fun pair => (0, pair.2) := ⟨_, rfl⟩
    have hsnd : bare.map Prod.snd = pairs.map Prod.snd := by
      rw [hbare, List.map_map]
      rfl
    have htext : queryOf (pairs.map Prod.snd) = [0x26].intercalate (spaced bare) := by
      rw [queryOf, ← hsnd, spaced, List.map_map]
      refine congrArg _ (List.map_congr_left fun pair hpair => ?_)
      obtain ⟨pair', -, rfl⟩ := List.mem_map.mp (hbare ▸ hpair)
      rfl
    rw [HttpRequest.initQueryParam, if_neg (by simp [hflag])]
    dsimp only
    rw [hparams, hquery, htext, ← hsnd]
    refine PARSE_PARAM_joined (hsnd ▸ hkeys) (.inl rfl) fun pair hpair => ?_
    obtain ⟨pair', -, rfl⟩ := List.mem_map.mp (hbare ▸ hpair)
    rfl
  · intro req hflag hcookies hcookie
    have hparse : Binds (PARSE_PARAM MapType.insert (cookieOf pairs) [] 0x3B
        (fun str => Trim str whitespace) 0) (pairs.map Prod.snd) :=
      PARSE_PARAM_joined hkeys (.inr rfl) fun pair hpair =>
        Trim_blanks (hkeys.chars pair.2 (List.mem_map_of_mem hpair)) pair.1
    rw [HttpRequest.initCookies, if_neg (by simp [hflag])]
    dsimp only
    rw [hcookie]
    split_ifs with hnil
    · -- nothing was joined, and nothing is parsed
      rw [hnil, PARSE_PARAM_of_none _ _ _ rfl] at hparse
      rw [hcookies]
      exact hparse
    · rw [hcookies]
      exact hparse

def samplePairs : List (ℕ × List UInt8 × List UInt8) :=
  [(0, ascii "a", ascii "x &="), (3, ascii "B-1", [0x00, 0xFF])]

def sampleRequest : HttpRequest :=
  { HttpRequest.new 0x11 true with
    m_query := ascii "a=x+%26=&B-1=%00%FF"
    m_headers := [(ascii "Cookie", ascii "a=x+%26=;   B-1=%00%FF")] }

theorem params_round_trip_sample :
    Binds sampleRequest.initQueryParam.m_params (samplePairs.map Prod.snd) ∧
      Binds sampleRequest.initCookies.m_cookies (samplePairs.map Prod.snd) :=
  have h := params_round_trip samplePairs ⟨by decide +kernel, by decide⟩
  ⟨h.1 sampleRequest rfl rfl (by decide),
    h.2 sampleRequest rfl rfl (by decide)⟩

end Sylar
