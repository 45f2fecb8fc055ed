import Sylar.Lib.Numerals
import Sylar.Proofs.ByteArrayRoundTrip
import Sylar.Spec.Address

/-! The text of an IPv6 address. The first run of zero groups, if there is one, becomes a `::`, and
what is on either side of it is written as groups with colons between them. -/

namespace Sylar

open Lib

namespace IPv6Address

def parseGroup (text : List UInt8) : Option UInt16 :=
  if text.length ≤ 4 then (number 16 text).map UInt16.ofNat else none

/-- Any number of groups with a colon between any two. -/
def parseGroups (text : List UInt8) : Option (List UInt16) :=
  if text = [] then some [] else (text.splitOn 0x3A).mapM parseGroup

/-- Eight groups, or fewer and a `::` for those that are missing. -/
def parseAddress (text : List UInt8) : Option (List UInt16) :=
  match cut (ascii "::") text with
  | none => (parseGroups text).filter (·.length = 8)
  | some (left, right) => do
      let l ← parseGroups left
      let r ← parseGroups right
      if l.length + r.length < 8 then
        some (l ++ List.replicate (8 - (l.length + r.length)) 0 ++ r)
      else none

def parse (text : List UInt8) : Option (List UInt16 × UInt16) :=
  match cut (ascii "]:") (text.drop 1) with
  | none => none
  | some (address, port) => do
      let gs ← parseAddress address
      let p ← number 10 port
      if text.head? = some 0x5B ∧ p < 2 ^ 16 then some (gs, UInt16.ofNat p) else none

/-- The number of places where a colon follows a colon. -/
def doubleColons : List UInt8 → ℕ
  | c :: d :: rest => (if c = 0x3A ∧ d = 0x3A then 1 else 0) + doubleColons (d :: rest)
  | _ => 0

theorem zeros_cases (gs : List UInt16) : 0 ∉ gs ∨ ∃ pre n post,
    gs = pre ++ (List.replicate (n + 1) 0 ++ post) ∧ 0 ∉ pre ∧ post.head? ≠ some 0 := by
  rcases cut_singleton_cases 0 gs with h | ⟨pre, rest, rfl, hpre⟩
  · exact .inl h
  · obtain ⟨n, post, rfl, hpost⟩ := leading_run 0 rest
    exact .inr ⟨pre, n, post, by rw [List.replicate_succ, List.cons_append], hpre, hpost⟩

section

variable (host : Endian)

theorem byteswap_zero : byteswapOnLittleEndian16 host 0 = 0 := by
  cases host <;> rfl

def groupText (g : UInt16) : List UInt8 := hexText (byteswapOnLittleEndian16 host g).toNat

def joined (gs : List UInt16) : List UInt8 := [0x3A].intercalate (gs.map (groupText host))

def colonGroups (gs : List UInt16) : List UInt8 := gs.flatMap fun g => 0x3A :: groupText host g

theorem colonGroups_cons (g : UInt16) (gs : List UInt16) :
    colonGroups host (g :: gs) = 0x3A :: (groupText host g ++ colonGroups host gs) := rfl

theorem joined_cons (g : UInt16) (gs : List UInt16) :
    joined host (g :: gs) = groupText host g ++ colonGroups host gs := by
  induction gs generalizing g with
  | nil => simp [joined, colonGroups, List.intercalate]
  | cons g' gs ih =>
    have hcons : joined host (g :: g' :: gs) = groupText host g ++ 0x3A :: joined host (g' :: gs) := by
      simp [joined, List.intercalate]
    rw [hcons, ih, colonGroups_cons]

theorem insertLoop_skip (prev : Option UInt16) (rest : List UInt16) :
    insertLoop host prev false (0 :: rest) = insertLoop host (some 0) false rest := by
  rw [insertLoop, if_pos ⟨rfl, rfl⟩]

theorem insertLoop_write {prev : Option UInt16} {g : UInt16} (hprev : prev ≠ some 0) (hg : g ≠ 0)
    (rest : List UInt16) : insertLoop host prev false (g :: rest) =
      ((if prev.isSome then [0x3A] else []) ++ groupText host g ++
        (insertLoop host (some g) false rest).1, (insertLoop host (some g) false rest).2) := by
  rw [insertLoop, if_neg fun h => hg h.1]
  simp only [hprev, false_and, decide_false, Bool.or_false, if_false, List.nil_append]
  rfl

theorem insertLoop_elide {g : UInt16} (hg : g ≠ 0) (rest : List UInt16) :
    insertLoop host (some 0) false (g :: rest) =
      ([0x3A, 0x3A] ++ groupText host g ++ (insertLoop host (some g) true rest).1,
        (insertLoop host (some g) true rest).2) := by
  rw [insertLoop, if_neg fun h => hg h.1]
  rfl

theorem insertLoop_follow (p g : UInt16) (rest : List UInt16) :
    insertLoop host (some p) true (g :: rest) =
      (0x3A :: groupText host g ++ (insertLoop host (some g) true rest).1,
        (insertLoop host (some g) true rest).2) := by
  rw [insertLoop, if_neg fun h => absurd h.2 (by decide)]
  simp only [Bool.true_or, reduceCtorEq, and_false, if_false]
  rfl

theorem insertLoop_used (p : UInt16) (gs : List UInt16) :
    insertLoop host (some p) true gs = (colonGroups host gs, true) := by
  induction gs generalizing p with
  | nil => rfl
  | cons g gs ih =>
    rw [insertLoop_follow, ih g, colonGroups_cons, List.cons_append]

theorem insertLoop_zeros (prev : Option UInt16) (n : ℕ) (rest : List UInt16) :
    insertLoop host prev false (List.replicate (n + 1) 0 ++ rest) =
      insertLoop host (some 0) false rest := by
  induction n generalizing prev with
  | zero => exact insertLoop_skip host prev rest
  | succ n ih => rw [List.replicate_succ, List.cons_append, insertLoop_skip, ih]

theorem insertLoop_colons {p : UInt16} (hp : p ≠ 0) {gs : List UInt16} (hgs : 0 ∉ gs)
    (rest : List UInt16) : ∃ p', p' ≠ 0 ∧ insertLoop host (some p) false (gs ++ rest) =
      (colonGroups host gs ++ (insertLoop host (some p') false rest).1,
        (insertLoop host (some p') false rest).2) := by
  induction gs generalizing p with
  | nil => exact ⟨p, hp, rfl⟩
  | cons g gs ih =>
    rw [List.mem_cons, not_or] at hgs
    obtain ⟨p', hp', heq⟩ := ih (Ne.symm hgs.1) hgs.2
    refine ⟨p', hp', ?_⟩
    rw [List.cons_append, insertLoop_write host (by simpa using hp) (Ne.symm hgs.1), heq,
      colonGroups_cons]
    simp

theorem insertLoop_nonzero {gs : List UInt16} (hgs : 0 ∉ gs) (rest : List UInt16) :
    ∃ prev, prev ≠ some 0 ∧ insertLoop host none false (gs ++ rest) =
      (joined host gs ++ (insertLoop host prev false rest).1, (insertLoop host prev false rest).2) := by
  cases gs with
  | nil => exact ⟨none, by simp, rfl⟩
  | cons g gs =>
    rw [List.mem_cons, not_or] at hgs
    obtain ⟨p, hp, heq⟩ := insertLoop_colons host (Ne.symm hgs.1) hgs.2 rest
    refine ⟨some p, by simpa using hp, ?_⟩
    rw [List.cons_append, insertLoop_write host (by simp) (Ne.symm hgs.1), heq, joined_cons]
    simp

def body (gs : List UInt16) : List UInt8 :=
  (insertLoop host none false gs).1 ++
    if (insertLoop host none false gs).2 = false ∧ gs.getLast? = some 0 then ascii "::" else []

theorem body_nonzero {gs : List UInt16} (hgs : 0 ∉ gs) : body host gs = joined host gs := by
  obtain ⟨prev, -, heq⟩ := insertLoop_nonzero host hgs []
  rw [List.append_nil, insertLoop, List.append_nil] at heq
  have hlast : gs.getLast? ≠ some 0 := fun h => hgs (List.mem_of_getLast? h)
  rw [body, heq, if_neg fun h => hlast h.2, List.append_nil]

theorem body_zeros {pre post : List UInt16} (hpre : 0 ∉ pre) (hpost : post.head? ≠ some 0) (n : ℕ) :
    body host (pre ++ (List.replicate (n + 1) 0 ++ post)) =
      joined host pre ++ (ascii "::" ++ joined host post) := by
  obtain ⟨prev, -, heq⟩ := insertLoop_nonzero host hpre (List.replicate (n + 1) 0 ++ post)
  rw [insertLoop_zeros] at heq
  cases post with
  | nil =>
    have hlast : (pre ++ (List.replicate (n + 1) 0 ++ [])).getLast? = some (0 : UInt16) := by
      simp [List.replicate_succ']
    rw [body, heq, insertLoop, if_pos ⟨rfl, hlast⟩]
    simp [joined]
  | cons g post =>
    have hg : g ≠ 0 := fun h => hpost (by rw [h]; rfl)
    rw [insertLoop_elide host hg, insertLoop_used] at heq
    rw [body, heq, if_neg (by simp), joined_cons]
    simp [ascii]

theorem groupText_eq (g : UInt16) :
    groupText host g = numeral 16 (byteswapOnLittleEndian16 host g).toNat := rfl

theorem not_mem_groupText {c : UInt8} (hc : digitValue c = none) (g : UInt16) :
    c ∉ groupText host g := not_mem_numeral (by decide) (by decide) hc _

theorem groupText_cons (g : UInt16) : ∃ d t, groupText host g = d :: t ∧ d ≠ 0x3A := by
  obtain ⟨d, t, heq⟩ := List.exists_cons_of_ne_nil (numeral_ne_nil 16
    (byteswapOnLittleEndian16 host g).toNat)
  refine ⟨d, t, heq, ?_⟩
  rintro rfl
  exact not_mem_groupText host (c := 0x3A) (by decide) g (by rw [groupText_eq, heq]; simp)

theorem not_mem_joined {c : UInt8} (hc : digitValue c = none) (hcolon : c ≠ 0x3A)
    (gs : List UInt16) : c ∉ joined host gs := by
  have hgroups : c ∉ colonGroups host gs := by
    rw [colonGroups, List.mem_flatMap]
    rintro ⟨g, -, hmem⟩
    rcases List.mem_cons.mp hmem with h | h
    · exact hcolon h
    · exact not_mem_groupText host hc g h
  cases gs with
  | nil => simp [joined]
  | cons g gs =>
    rw [colonGroups_cons, List.mem_cons, not_or] at hgroups
    rw [joined_cons]
    exact hgroups.2

theorem parseGroup_groupText (g : UInt16) :
    parseGroup (groupText host g) = some (byteswapOnLittleEndian16 host g) := by
  have hlt := (byteswapOnLittleEndian16 host g).toNat_lt
  have hlength : (groupText host g).length ≤ 4 := length_numeral_le (by decide) (by decide) hlt
  rw [parseGroup, if_pos hlength, groupText_eq, number_numeral (by decide) (by decide),
    Option.map_some, UInt16.ofNat_toNat]

theorem parseGroups_joined (gs : List UInt16) :
    parseGroups (joined host gs) = some (gs.map (byteswapOnLittleEndian16 host)) := by
  cases gs with
  | nil => rfl
  | cons g gs =>
    have hne : joined host (g :: gs) ≠ [] := by
      obtain ⟨d, t, heq, -⟩ := groupText_cons host g
      rw [joined_cons, heq]
      simp
    have hcolon : ∀ l ∈ (g :: gs).map (groupText host), 0x3A ∉ l := by
      intro l hl
      obtain ⟨g', -, rfl⟩ := List.mem_map.mp hl
      exact not_mem_groupText host (by decide) g'
    have hread : (parseGroup ∘ groupText host) = fun g => pure (byteswapOnLittleEndian16 host g) :=
      funext (parseGroup_groupText host)
    rw [parseGroups, if_neg hne, joined, List.splitOn_intercalate _ hcolon (by simp), List.mapM_map,
      hread, List.mapM_pure]
    rfl

theorem cut_joined (gs : List UInt16) (rest : List UInt8) :
    cut (ascii "::") (joined host gs ++ rest) =
      (cut (ascii "::") rest).map fun c => (joined host gs ++ c.1, c.2) := by
  have hgroup : ∀ g x, cut (ascii "::") (groupText host g ++ x) =
      (cut (ascii "::") x).map fun c => (groupText host g ++ c.1, c.2) := fun g x =>
    cut_append_of_not_mem (not_mem_groupText host (by decide) g) x
  have hgroups : ∀ gs, cut (ascii "::") (colonGroups host gs ++ rest) =
      (cut (ascii "::") rest).map fun c => (colonGroups host gs ++ c.1, c.2) := by
    intro gs
    induction gs with
    | nil => simp [colonGroups]
    | cons g gs ih =>
      obtain ⟨d, t, heq, hd⟩ := groupText_cons host g
      have hnot : ¬ (ascii "::").isPrefixOf
          (0x3A :: (groupText host g ++ (colonGroups host gs ++ rest))) = true := by
        rw [heq]
        simpa [ascii] using Ne.symm hd
      rw [colonGroups_cons, List.cons_append, List.append_assoc, cut_cons, if_neg hnot, hgroup, ih,
        Option.map_map, Option.map_map]
      refine congrArg (Option.map · _) (funext fun c => ?_)
      simp
  cases gs with
  | nil => simp [joined]
  | cons g gs =>
    rw [joined_cons, List.append_assoc, hgroup, hgroups, Option.map_map]
    refine congrArg (Option.map · _) (funext fun c => ?_)
    simp

theorem parseAddress_joined {gs : List UInt16} (hlength : gs.length = 8) :
    parseAddress (joined host gs) = some (gs.map (byteswapOnLittleEndian16 host)) := by
  have hcut : cut (ascii "::") (joined host gs) = none := by
    have h := cut_joined host gs []
    rwa [List.append_nil] at h
  rw [parseAddress, hcut, parseGroups_joined]
  simp [Option.filter, hlength]

theorem parseAddress_zeros {pre post : List UInt16} {n : ℕ}
    (hlength : (pre ++ (List.replicate (n + 1) 0 ++ post)).length = 8) :
    parseAddress (joined host pre ++ (ascii "::" ++ joined host post)) =
      some ((pre ++ (List.replicate (n + 1) 0 ++ post)).map (byteswapOnLittleEndian16 host)) := by
  have hcut : cut (ascii "::") (joined host pre ++ (ascii "::" ++ joined host post)) =
      some (joined host pre, joined host post) := by
    rw [cut_joined, cut_part (by decide), Option.map_some, List.append_nil]
  have hn : 8 - (pre.length + post.length) = n + 1 := by
    simp only [List.length_append, List.length_replicate] at hlength
    omega
  rw [parseAddress, hcut]
  simp only [parseGroups_joined, bind, Option.bind, List.length_map]
  rw [if_pos (by omega), hn, List.map_append, List.map_append, List.map_replicate, byteswap_zero,
    List.append_assoc]

theorem parseAddress_body {gs : List UInt16} (hlength : gs.length = 8) :
    parseAddress (body host gs) = some (gs.map (byteswapOnLittleEndian16 host)) := by
  rcases zeros_cases gs with hgs | ⟨pre, n, post, rfl, hpre, hpost⟩
  · rw [body_nonzero host hgs, parseAddress_joined host hlength]
  · rw [body_zeros host hpre hpost, parseAddress_zeros host hlength]

theorem insert_eq (a : IPv6Address) : a.insert host = 0x5B :: (body host (a.groups host) ++
    (ascii "]:" ++ decimalText (byteswapOnLittleEndian16 host a.sin6_port).toNat)) := by
  rw [insert, body]
  simp [ascii]

theorem not_mem_body (gs : List UInt16) : 0x5D ∉ body host gs := by
  have hjoined := fun gs => not_mem_joined host (c := 0x5D) (by decide) (by decide) gs
  rcases zeros_cases gs with hgs | ⟨pre, n, post, rfl, hpre, hpost⟩
  · rw [body_nonzero host hgs]
    exact hjoined gs
  · rw [body_zeros host hpre hpost, List.mem_append, List.mem_append, not_or, not_or]
    exact ⟨hjoined pre, by decide, hjoined post⟩

theorem length_groups (a : IPv6Address) : (a.groups host).length = 8 := by
  rw [groups, List.length_map, List.length_range]

theorem decimalText_eq (n : ℕ) : decimalText n = numeral 10 n := by
  rw [decimalText, ascii, show toString n = n.repr from rfl, Nat.toList_repr, numeral]

theorem parse_insert (a : IPv6Address) : parse (a.insert host) =
    some ((a.groups host).map (byteswapOnLittleEndian16 host),
      byteswapOnLittleEndian16 host a.sin6_port) := by
  have hcut : cut (ascii "]:") ((a.insert host).drop 1) = some (body host (a.groups host),
      decimalText (byteswapOnLittleEndian16 host a.sin6_port).toNat) := by
    rw [insert_eq, List.drop_succ_cons, List.drop_zero, show ascii "]:" = [0x5D, 0x3A] from rfl,
      cut_append_of_not_mem (not_mem_body host _), cut_part (by decide), Option.map_some,
      List.append_nil]
  have hhead : (a.insert host).head? = some 0x5B := by rw [insert_eq, List.head?_cons]
  have hport := (byteswapOnLittleEndian16 host a.sin6_port).toNat_lt
  rw [parse, hcut]
  simp only [parseAddress_body host (length_groups host a), decimalText_eq, bind, Option.bind,
    number_numeral (show 1 < 10 by decide) (by decide)]
  rw [if_pos ⟨hhead, hport⟩, UInt16.ofNat_toNat]

theorem doubleColons_cons {c : UInt8} {rest : List UInt8} (h : c ≠ 0x3A ∨ rest.head? ≠ some 0x3A) :
    doubleColons (c :: rest) = doubleColons rest := by
  cases rest with
  | nil => rfl
  | cons d rest =>
    rw [doubleColons, if_neg, Nat.zero_add]
    rintro ⟨rfl, rfl⟩
    rcases h with h | h
    · exact h rfl
    · exact h rfl

theorem doubleColons_append {t : List UInt8} (ht : 0x3A ∉ t) (rest : List UInt8) :
    doubleColons (t ++ rest) = doubleColons rest := by
  induction t with
  | nil => rfl
  | cons c t ih =>
    rw [List.mem_cons, not_or] at ht
    rw [List.cons_append, doubleColons_cons (.inl (Ne.symm ht.1)), ih ht.2]

theorem doubleColons_joined (gs : List UInt16) (rest : List UInt8) :
    doubleColons (joined host gs ++ rest) = doubleColons rest := by
  have hgroup : ∀ g x, doubleColons (groupText host g ++ x) = doubleColons x := fun g x =>
    doubleColons_append (not_mem_groupText host (by decide) g) x
  have hgroups : ∀ gs, doubleColons (colonGroups host gs ++ rest) = doubleColons rest := by
    intro gs
    induction gs with
    | nil => rfl
    | cons g gs ih =>
      obtain ⟨d, t, heq, hd⟩ := groupText_cons host g
      rw [colonGroups_cons, List.cons_append, List.append_assoc,
        doubleColons_cons (.inr (by rw [heq]; simpa using hd)), hgroup, ih]
  cases gs with
  | nil => rfl
  | cons g gs => rw [joined_cons, List.append_assoc, hgroup, hgroups]

theorem doubleColons_insert (a : IPv6Address) : doubleColons (a.insert host) ≤ 1 := by
  have hport : doubleColons (ascii "]:" ++
      decimalText (byteswapOnLittleEndian16 host a.sin6_port).toNat) = 0 := by
    have hcolon : 0x3A ∉ decimalText (byteswapOnLittleEndian16 host a.sin6_port).toNat := by
      rw [decimalText_eq]
      exact not_mem_numeral (by decide) (by decide) (by decide) _
    have hdigits := doubleColons_append hcolon []
    rw [List.append_nil] at hdigits
    rw [show ascii "]:" = [0x5D, 0x3A] from rfl, List.cons_append, List.singleton_append,
      doubleColons_cons (.inl (by decide)),
      doubleColons_cons (.inr fun h => hcolon (List.mem_of_mem_head? h)), hdigits]
    rfl
  rw [insert_eq, doubleColons_cons (.inl (by decide))]
  rcases zeros_cases (a.groups host) with hgs | ⟨pre, n, post, heq, hpre, hpost⟩
  · rw [body_nonzero host hgs, doubleColons_joined, hport]
    exact Nat.zero_le 1
  · have hhead : (joined host post ++ (ascii "]:" ++
        decimalText (byteswapOnLittleEndian16 host a.sin6_port).toNat)).head? ≠ some 0x3A := by
      cases post with
      | nil => simp [joined, ascii]
      | cons g post =>
        obtain ⟨d, t, hg, hd⟩ := groupText_cons host g
        rw [joined_cons, hg]
        simpa using hd
    rw [heq, body_zeros host hpre hpost, List.append_assoc, doubleColons_joined, List.append_assoc]
    rw [show ascii "::" = [0x3A, 0x3A] from rfl, List.cons_append, List.singleton_append,
      doubleColons, doubleColons_cons (.inr hhead), doubleColons_joined, hport]
    exact Nat.le_refl 1

end

/-- The eight groups, the high byte of each first. -/
def values (a : IPv6Address) : List UInt16 := (List.range 8).map fun i =>
  UInt16.ofNat (256 * (a.s6_addr.getD (2 * i) 0).toNat + (a.s6_addr.getD (2 * i + 1) 0).toNat)

theorem byteswap_two (b c : UInt8) : byteswap 2 (leNat [b, c]) = leNat [c, b] := by
  rw [byteswap, show leBytes 2 (leNat [b, c]) = [b, c] from leBytes_leNat [b, c]]
  rfl

theorem groups_values (host : Endian) (a : IPv6Address) :
    (a.groups host).map (byteswapOnLittleEndian16 host) = a.values := by
  rw [groups, values, List.map_map]
  refine List.map_congr_left fun i hi => ?_
  have hi8 := List.mem_range.mp hi
  have hlength := a.length_addr
  have hbytes : substr a.s6_addr (2 * i) 2 = [a.s6_addr.getD (2 * i) 0, a.s6_addr.getD (2 * i + 1) 0] := by
    rw [substr, List.drop_eq_getElem_cons (by omega), List.drop_eq_getElem_cons (by omega),
      List.getD_eq_getElem _ _ (by omega), List.getD_eq_getElem _ _ (by omega)]
    rfl
  rw [Function.comp_apply, hbytes]
  generalize a.s6_addr.getD (2 * i) 0 = b
  generalize a.s6_addr.getD (2 * i + 1) 0 = c
  have hb := b.toNat_lt
  have hc := c.toNat_lt
  cases host with
  | little =>
    have hlt : leNat [b, c] < 2 ^ 16 := by
      rw [leNat, leNat, leNat]
      omega
    rw [objectValue, byteswapOnLittleEndian16, UInt16.toNat_ofNat_of_lt' hlt, byteswap_two, leNat, leNat,
      leNat, Nat.mul_zero, Nat.add_zero, Nat.add_comm]
  | big =>
    rw [objectValue, byteswapOnLittleEndian16, show [b, c].reverse = [c, b] from rfl, leNat, leNat,
      leNat, Nat.mul_zero, Nat.add_zero, Nat.add_comm]

theorem bytes_of_group {b c b' c' : UInt8} (h : UInt16.ofNat (256 * b.toNat + c.toNat) =
    UInt16.ofNat (256 * b'.toNat + c'.toNat)) : b = b' ∧ c = c' := by
  have hb := b.toNat_lt
  have hc := c.toNat_lt
  have hb' := b'.toNat_lt
  have hc' := c'.toNat_lt
  have hnat := congrArg UInt16.toNat h
  rw [UInt16.toNat_ofNat', UInt16.toNat_ofNat', Nat.mod_eq_of_lt (by omega),
    Nat.mod_eq_of_lt (by omega)] at hnat
  exact ⟨UInt8.toNat_inj.mp (by omega), UInt8.toNat_inj.mp (by omega)⟩

theorem values_injective {a b : IPv6Address} (h : a.values = b.values) : a.s6_addr = b.s6_addr := by
  have hgroup : ∀ i < 8, a.s6_addr.getD (2 * i) 0 = b.s6_addr.getD (2 * i) 0 ∧
      a.s6_addr.getD (2 * i + 1) 0 = b.s6_addr.getD (2 * i + 1) 0 := fun i hi =>
    bytes_of_group (List.map_inj_left.mp h i (List.mem_range.mpr hi))
  apply List.ext_getElem (a.length_addr.trans b.length_addr.symm)
  intro k ha hb
  have hk := a.length_addr ▸ ha
  obtain ⟨heven, hodd⟩ := hgroup (k / 2) (by omega)
  rw [← List.getD_eq_getElem _ 0 ha, ← List.getD_eq_getElem _ 0 hb]
  rcases Nat.mod_two_eq_zero_or_one k with hk0 | hk1
  · rwa [show 2 * (k / 2) = k by omega] at heven
  · rwa [show 2 * (k / 2) + 1 = k by omega] at hodd

theorem byteswap_involutive (host : Endian) (v : UInt16) :
    byteswapOnLittleEndian16 host (byteswapOnLittleEndian16 host v) = v := by
  cases host with
  | little =>
    have hlt : byteswap 2 v.toNat < 2 ^ 16 := byteswap_lt 2 v.toNat
    have hv : v.toNat % 256 ^ 2 = v.toNat := Nat.mod_eq_of_lt v.toNat_lt
    rw [byteswapOnLittleEndian16, byteswapOnLittleEndian16, UInt16.toNat_ofNat_of_lt' hlt,
      byteswap_byteswap, hv, UInt16.ofNat_toNat]
  | big => rfl

theorem byteswap_injective (host : Endian) {v w : UInt16}
    (h : byteswapOnLittleEndian16 host v = byteswapOnLittleEndian16 host w) : v = w := by
  rw [← byteswap_involutive host v, h, byteswap_involutive]

/-- The text has at most one `::` and reads back as the groups and the port of the address, which
no other address therefore has. -/
theorem insert_reads_back (host : Endian) (a : IPv6Address) :
    parse (a.insert host) = some (a.values, byteswapOnLittleEndian16 host a.sin6_port) ∧
      doubleColons (a.insert host) ≤ 1 ∧
      ∀ b : IPv6Address, b.insert host = a.insert host →
        b.s6_addr = a.s6_addr ∧ b.sin6_port = a.sin6_port := by
  have hparse := fun c : IPv6Address => (parse_insert host c).trans (by rw [groups_values])
  refine ⟨hparse a, doubleColons_insert host a, fun b heq => ?_⟩
  have hboth := (hparse b).symm.trans ((congrArg parse heq).trans (hparse a))
  rw [Option.some.injEq, Prod.mk.injEq] at hboth
  exact ⟨values_injective hboth.1, byteswap_injective host hboth.2⟩

end IPv6Address

end Sylar
