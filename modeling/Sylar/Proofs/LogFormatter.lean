import Sylar.Spec.LogFormatter

/-! A pattern written from pieces and what `init` makes of it. The scanner is followed through the
text piece by piece; where a literal has a `%`, its doubled text is read one place off. -/

namespace Sylar

open Lib

namespace LogFormatter

open FormatItem

inductive Piece where
  | literal (s : List UInt8)
  | specifier (letter : UInt8) (arg : Option (List UInt8))
deriving DecidableEq

def doubled (s : List UInt8) : List UInt8 := s.flatMap fun c => if c = 0x25 then [0x25, 0x25] else [c]

def Piece.text : Piece → List UInt8
  | .literal s => doubled s
  | .specifier letter none => [0x25, letter]
  | .specifier letter (some arg) => 0x25 :: letter :: 0x7B :: (arg ++ [0x7D])

def written (ps : List Piece) : List UInt8 := ps.flatMap Piece.text

/-- What may follow a specifier without an argument: nothing, or no letter and no brace. -/
def Delimits : List UInt8 → Prop
  | [] => True
  | c :: _ => isalpha c = false ∧ c ≠ 0x7B ∧ c ≠ 0x7D

/-- The specifiers are known, an argument has no `}`, and a specifier without one is delimited;
`after` is what follows the pieces. -/
def Valid (after : List UInt8) : List Piece → Prop
  | [] => True
  | .literal _ :: ps => Valid after ps
  | .specifier letter none :: ps =>
      (s_format_items.lookup [letter]).isSome ∧ Delimits (written ps ++ after) ∧ Valid after ps
  | .specifier letter (some arg) :: ps =>
      (s_format_items.lookup [letter]).isSome ∧ 0x7D ∉ arg ∧ Valid after ps

def textItem (s : List UInt8) : List FormatItem := if s = [] then [] else [StringFormatItem s]

/-- The items of the pieces, where `lit` is the text before them; adjacent texts are one. -/
def items : List UInt8 → List Piece → List FormatItem
  | lit, [] => textItem lit
  | lit, .literal s :: ps => items (lit ++ s) ps
  | lit, .specifier letter arg :: ps =>
      textItem lit ++ (item ([letter], arg.getD [], 1)).1 :: items [] ps

theorem getD_of_eq {m_pattern pre rest : List UInt8} {c : UInt8} (h : m_pattern = pre ++ c :: rest)
    {n : ℕ} (hn : n = pre.length) : m_pattern.getD n 0 = c ∧ n < m_pattern.length := by
  subst h hn
  simp

theorem substr_of_eq {m_pattern pre x rest : List UInt8} (h : m_pattern = pre ++ (x ++ rest)) {n k : ℕ}
    (hn : n = pre.length) (hk : k = x.length) : substr m_pattern n k = x := by
  subst h hn hk
  exact substr_append pre x rest

theorem isalpha_of_known {letter : UInt8} (h : (s_format_items.lookup [letter]).isSome) :
    isalpha letter = true := by
  have hall : s_format_items.all (fun p => p.1.all isalpha) = true := by decide
  obtain ⟨create, hlookup⟩ := Option.isSome_iff_exists.mp h
  obtain ⟨l₁, l₂, heq, -⟩ := List.lookup_eq_some_iff.mp hlookup
  have hletter := List.all_eq_true.mp hall ([letter], create) (by rw [heq]; simp)
  exact List.all_eq_true.mp hletter letter (List.mem_singleton_self letter)

theorem not_brace_of_isalpha {c : UInt8} (h : isalpha c = true) : c ≠ 0x7B ∧ c ≠ 0x7D ∧ c ≠ 0x25 := by
  refine ⟨?_, ?_, ?_⟩
  · rintro rfl
    exact absurd h (by decide)
  · rintro rfl
    exact absurd h (by decide)
  · rintro rfl
    exact absurd h (by decide)

section

variable {m_pattern : List UInt8} {i n b fuel : ℕ} {str fmt : List UInt8}

theorem fmtLoop_end (h : m_pattern.length ≤ n) (status : ℕ) :
    fmtLoop m_pattern i fuel ⟨n, status, b, str, fmt⟩ = ⟨n, status, b, str, fmt⟩ := by
  cases fuel with
  | zero => rfl
  | succ fuel => exact if_neg (not_lt.mpr h)

theorem fmtLoop_letter (h : n < m_pattern.length) (hc : isalpha (m_pattern.getD n 0) = true) :
    fmtLoop m_pattern i (fuel + 1) ⟨n, 0, b, str, fmt⟩ = fmtLoop m_pattern i fuel
      ⟨n + 1, 0, b, if n + 1 = m_pattern.length ∧ str = [] then m_pattern.drop (i + 1) else str, fmt⟩ := by
  obtain ⟨hopen, -, -⟩ := not_brace_of_isalpha hc
  rw [fmtLoop, if_pos h]
  simp only
  rw [if_neg (by rw [hc]; simp), if_neg fun hand => hopen hand.2,
    if_neg fun hand => absurd hand.1 (by decide)]

theorem fmtLoop_delimiter (h : n < m_pattern.length) (hc : isalpha (m_pattern.getD n 0) = false)
    (hopen : m_pattern.getD n 0 ≠ 0x7B) (hclose : m_pattern.getD n 0 ≠ 0x7D) :
    fmtLoop m_pattern i (fuel + 1) ⟨n, 0, b, str, fmt⟩ =
      ⟨n, 0, b, substr m_pattern (i + 1) (n - i - 1), fmt⟩ := by
  rw [fmtLoop, if_pos h]
  simp only
  rw [if_pos ⟨trivial, by rw [hc]; rfl, hopen, hclose⟩]

theorem fmtLoop_open (h : n < m_pattern.length) (hc : m_pattern.getD n 0 = 0x7B) :
    fmtLoop m_pattern i (fuel + 1) ⟨n, 0, b, str, fmt⟩ =
      fmtLoop m_pattern i fuel ⟨n + 1, 1, n, substr m_pattern (i + 1) (n - i - 1), fmt⟩ := by
  rw [fmtLoop, if_pos h]
  simp only
  rw [if_neg fun hand => hand.2.2.1 hc, if_pos ⟨trivial, hc⟩]

theorem fmtLoop_inside (h : n < m_pattern.length) (hc : m_pattern.getD n 0 ≠ 0x7D)
    (hstr : str ≠ []) : fmtLoop m_pattern i (fuel + 1) ⟨n, 1, b, str, fmt⟩ =
      fmtLoop m_pattern i fuel ⟨n + 1, 1, b, str, fmt⟩ := by
  rw [fmtLoop, if_pos h]
  simp only
  rw [if_neg fun hand => absurd hand.1 (by decide), if_neg fun hand => absurd hand.1 (by decide),
    if_neg fun hand => hc hand.2, if_neg fun hand => hstr hand.2]

theorem fmtLoop_close (h : n < m_pattern.length) (hc : m_pattern.getD n 0 = 0x7D) :
    fmtLoop m_pattern i (fuel + 1) ⟨n, 1, b, str, fmt⟩ =
      ⟨n + 1, 0, b, str, substr m_pattern (b + 1) (n - b - 1)⟩ := by
  rw [fmtLoop, if_pos h]
  simp only
  rw [if_neg fun hand => absurd hand.1 (by decide), if_neg fun hand => absurd hand.1 (by decide),
    if_pos ⟨trivial, hc⟩]

theorem fmtLoop_delimited {pre rest : List UInt8} {letter : UInt8}
    (hm : m_pattern = pre ++ 0x25 :: letter :: rest) (hletter : isalpha letter = true)
    (hrest : Delimits rest) (fuel : ℕ) :
    fmtLoop m_pattern pre.length (fuel + 2) ⟨pre.length + 1, 0, 0, [], []⟩ =
      ⟨pre.length + 2, 0, 0, [letter], []⟩ := by
  have hlength : m_pattern.length = pre.length + 2 + rest.length := by
    rw [hm, List.length_append, List.length_cons, List.length_cons]
    omega
  have hm' : m_pattern = (pre ++ [0x25]) ++ ([letter] ++ rest) := by rw [hm]; simp
  have hat := getD_of_eq hm' (n := pre.length + 1) (by simp)
  rw [fmtLoop_letter hat.2 (by rw [hat.1]; exact hletter)]
  cases rest with
  | nil =>
    have hdrop : m_pattern.drop (pre.length + 1) = [letter] := by
      rw [hm', List.append_nil]
      exact List.drop_left' (by simp)
    rw [fmtLoop_end (by simp [hlength]), hdrop, if_pos ⟨by simp [hlength], rfl⟩]
  | cons d rest =>
    obtain ⟨hd, hopen, hclose⟩ := hrest
    have hm'' : m_pattern = (pre ++ [0x25, letter]) ++ d :: rest := by rw [hm]; simp
    have hat' := getD_of_eq hm'' (n := pre.length + 1 + 1) (by simp)
    have hstr : substr m_pattern (pre.length + 1) (pre.length + 1 + 1 - pre.length - 1) = [letter] :=
      substr_of_eq hm' (by simp) (by rw [List.length_singleton]; omega)
    rw [fmtLoop_delimiter hat'.2 (by rw [hat'.1]; exact hd) (by rw [hat'.1]; exact hopen)
      (by rw [hat'.1]; exact hclose), hstr]

theorem fmtLoop_argument {arg rest : List UInt8} (harg : 0x7D ∉ arg) (hstr : str ≠ [])
    {done : List UInt8} (hm : m_pattern = done ++ (arg ++ 0x7D :: rest)) (hn : n = done.length)
    (fuel : ℕ) : fmtLoop m_pattern i (fuel + arg.length + 1) ⟨n, 1, b, str, fmt⟩ =
      ⟨n + arg.length + 1, 0, b, str, substr m_pattern (b + 1) (n + arg.length - b - 1)⟩ := by
  induction arg generalizing n done with
  | nil =>
    have hat := getD_of_eq hm hn
    rw [List.length_nil, fmtLoop_close hat.2 hat.1]
    rfl
  | cons c arg ih =>
    rw [List.mem_cons, not_or] at harg
    have hat := getD_of_eq hm hn
    have hm' : m_pattern = (done ++ [c]) ++ (arg ++ 0x7D :: rest) := by
      rw [hm]
      simp
    have hnext := ih harg.2 hm' (n := n + 1) (by simp [hn])
    have hinside : m_pattern.getD n 0 ≠ 0x7D := by
      rw [hat.1]
      exact Ne.symm harg.1
    rw [List.length_cons, ← Nat.add_assoc, fmtLoop_inside hat.2 hinside hstr, hnext]
    congr 1
    · omega
    · congr 1
      omega

theorem fmtLoop_braced {pre arg rest : List UInt8} {letter : UInt8}
    (hm : m_pattern = pre ++ 0x25 :: letter :: 0x7B :: (arg ++ 0x7D :: rest))
    (hletter : isalpha letter = true) (harg : 0x7D ∉ arg) (fuel : ℕ) :
    fmtLoop m_pattern pre.length (fuel + arg.length + 3) ⟨pre.length + 1, 0, 0, [], []⟩ =
      ⟨pre.length + arg.length + 4, 0, pre.length + 2, [letter], arg⟩ := by
  have hm₁ : m_pattern = (pre ++ [0x25]) ++ ([letter] ++ 0x7B :: (arg ++ 0x7D :: rest)) := by
    rw [hm]
    simp
  have hm₂ : m_pattern = (pre ++ [0x25, letter]) ++ 0x7B :: (arg ++ 0x7D :: rest) := by
    rw [hm]
    simp
  have hm₃ : m_pattern = (pre ++ [0x25, letter, 0x7B]) ++ (arg ++ 0x7D :: rest) := by
    rw [hm]
    simp
  have hat₁ := getD_of_eq hm₁ (n := pre.length + 1) (by simp)
  have hat₂ := getD_of_eq hm₂ (n := pre.length + 1 + 1) (by simp)
  have hstr : substr m_pattern (pre.length + 1) (pre.length + 1 + 1 - pre.length - 1) = [letter] :=
    substr_of_eq hm₁ (by simp) (by rw [List.length_singleton]; omega)
  have hfmt : substr m_pattern (pre.length + 1 + 1 + 1)
      (pre.length + 1 + 1 + 1 + arg.length - (pre.length + 1 + 1) - 1) = arg :=
    substr_of_eq hm₃ (by simp) (by omega)
  have hne : ¬ (pre.length + 1 + 1 = m_pattern.length ∧ ([] : List UInt8) = []) := fun h => by
    have := hat₂.2
    omega
  rw [fmtLoop_letter hat₁.2 (by rw [hat₁.1]; exact hletter), if_neg hne, fmtLoop_open hat₂.2 hat₂.1,
    hstr, fmtLoop_argument harg (by simp) hm₃ (by simp), hfmt]
  congr 1
  omega

end

def scan (pre rest : List UInt8) (fuel : ℕ) (nstr : List UInt8) : List Entry × Bool :=
  initLoop (pre ++ rest) fuel pre.length nstr

section

variable {pre rest : List UInt8}

theorem initLoop_end {m_pattern : List UInt8} {i : ℕ} (h : m_pattern.length ≤ i) (fuel : ℕ)
    (nstr : List UInt8) : initLoop m_pattern fuel i nstr = (pushed nstr, false) := by
  cases fuel with
  | zero => rfl
  | succ fuel => rw [initLoop, if_neg (not_lt.mpr h)]

theorem scan_nil (pre : List UInt8) (fuel : ℕ) (nstr : List UInt8) :
    scan pre [] fuel nstr = (pushed nstr, false) := initLoop_end (by simp) fuel nstr

theorem scan_plain {c : UInt8} (hc : c ≠ 0x25) (fuel : ℕ) (nstr : List UInt8) :
    scan pre (c :: rest) (fuel + 1) nstr = scan (pre ++ [c]) rest fuel (nstr ++ [c]) := by
  have hat := getD_of_eq (Eq.refl (pre ++ c :: rest)) rfl
  rw [scan, initLoop, if_pos hat.2, hat.1, if_pos hc, scan]
  simp

theorem scan_double (fuel : ℕ) (nstr : List UInt8) : scan pre (0x25 :: 0x25 :: rest) (fuel + 1) nstr =
    scan (pre ++ [0x25]) (0x25 :: rest) fuel (nstr ++ [0x25]) := by
  have hat := getD_of_eq (Eq.refl (pre ++ 0x25 :: 0x25 :: rest)) rfl
  have hm : pre ++ 0x25 :: 0x25 :: rest = (pre ++ [0x25]) ++ 0x25 :: rest := by simp
  have hat' := getD_of_eq hm (n := pre.length + 1) (by simp)
  rw [scan, initLoop, if_pos hat.2, hat.1, if_neg (by simp), if_pos ⟨hat'.2, hat'.1⟩, scan, ← hm]
  simp

/-- At a `%` that no other follows, a specifier is read, whatever it is. -/
theorem scan_percent (hrest : rest.head? ≠ some 0x25) (fuel : ℕ) (nstr : List UInt8) :
    scan pre (0x25 :: rest) (fuel + 1) nstr =
      let m_pattern := pre ++ 0x25 :: rest
      let s := fmtLoop m_pattern pre.length m_pattern.length ⟨pre.length + 1, 0, 0, [], []⟩
      if s.fmt_status = 0 then
        let r := initLoop m_pattern fuel s.n []
        (pushed nstr ++ (s.str, s.fmt, 1) :: r.1, r.2)
      else
        let r := initLoop m_pattern fuel (pre.length + 1) nstr
        ((ascii "<<pattern_error>>", s.fmt, 0) :: r.1, true) := by
  have hat := getD_of_eq (Eq.refl (pre ++ 0x25 :: rest)) rfl
  have hnext : ¬ (pre.length + 1 < (pre ++ 0x25 :: rest).length ∧
      (pre ++ 0x25 :: rest).getD (pre.length + 1) 0 = 0x25) := by
    rintro ⟨hlt, heq⟩
    cases rest with
    | nil => simp at hlt
    | cons d rest =>
      have hm : pre ++ 0x25 :: d :: rest = (pre ++ [0x25]) ++ d :: rest := by simp
      have hat' := getD_of_eq hm (n := pre.length + 1) (by simp)
      rw [hat'.1] at heq
      exact hrest (by rw [heq]; rfl)
  rw [scan, initLoop, if_pos hat.2, hat.1, if_neg (by simp), if_neg hnext]

theorem scan_delimited {letter : UInt8} (hletter : isalpha letter = true) (hrest : Delimits rest)
    (fuel : ℕ) (nstr : List UInt8) : scan pre (0x25 :: letter :: rest) (fuel + 1) nstr =
      (pushed nstr ++ ([letter], [], 1) :: (scan (pre ++ [0x25, letter]) rest fuel []).1,
        (scan (pre ++ [0x25, letter]) rest fuel []).2) := by
  have hne : (letter :: rest).head? ≠ some 0x25 := fun h =>
    (not_brace_of_isalpha hletter).2.2 (Option.some.inj h)
  have hlength : (pre ++ 0x25 :: letter :: rest).length = pre.length + rest.length + 2 := by
    simp only [List.length_append, List.length_cons]
    omega
  rw [scan_percent hne]
  simp only
  rw [hlength, fmtLoop_delimited rfl hletter hrest]
  simp [scan]

theorem scan_braced {letter : UInt8} {arg : List UInt8} (hletter : isalpha letter = true)
    (harg : 0x7D ∉ arg) (fuel : ℕ) (nstr : List UInt8) :
    scan pre (0x25 :: letter :: 0x7B :: (arg ++ 0x7D :: rest)) (fuel + 1) nstr =
      (pushed nstr ++ ([letter], arg, 1) ::
          (scan (pre ++ 0x25 :: letter :: 0x7B :: (arg ++ [0x7D])) rest fuel []).1,
        (scan (pre ++ 0x25 :: letter :: 0x7B :: (arg ++ [0x7D])) rest fuel []).2) := by
  have hne : (letter :: 0x7B :: (arg ++ 0x7D :: rest)).head? ≠ some 0x25 := fun h =>
    (not_brace_of_isalpha hletter).2.2 (Option.some.inj h)
  have hlength : (pre ++ 0x25 :: letter :: 0x7B :: (arg ++ 0x7D :: rest)).length =
      pre.length + rest.length + 1 + arg.length + 3 := by
    simp only [List.length_append, List.length_cons]
    omega
  rw [scan_percent hne]
  simp only
  have hscan : scan (pre ++ 0x25 :: letter :: 0x7B :: (arg ++ [0x7D])) rest fuel [] =
      initLoop (pre ++ 0x25 :: letter :: 0x7B :: (arg ++ 0x7D :: rest)) fuel
        (pre.length + arg.length + 4) [] := by
    rw [scan]
    congr 1
    · simp
    · simp only [List.length_append, List.length_cons, List.length_nil]
      omega
  rw [hlength, fmtLoop_braced rfl hletter harg, hscan]
  rfl

theorem scan_lone (fuel : ℕ) (nstr : List UInt8) :
    scan pre [0x25] (fuel + 1) nstr = (pushed nstr ++ [([], [], 1)], false) := by
  rw [scan_percent (by simp)]
  simp only
  rw [fmtLoop_end (by simp), if_pos rfl, initLoop_end (by simp)]
  rfl

theorem scan_literal {s : List UInt8} (hs : 0x25 ∉ s) (rest : List UInt8) (fuel : ℕ)
    (pre nstr : List UInt8) :
    scan pre (s ++ rest) (fuel + s.length) nstr = scan (pre ++ s) rest fuel (nstr ++ s) := by
  induction s generalizing pre nstr with
  | nil => simp
  | cons c s ih =>
    rw [List.mem_cons, not_or] at hs
    rw [List.cons_append, List.length_cons, ← Nat.add_assoc, scan_plain (Ne.symm hs.1), ih hs.2]
    simp

theorem scan_run (k fuel : ℕ) (pre rest nstr : List UInt8) :
    scan pre (List.replicate (k + 1) 0x25 ++ rest) (fuel + k) nstr =
      scan (pre ++ List.replicate k 0x25) (0x25 :: rest) fuel (nstr ++ List.replicate k 0x25) := by
  induction k generalizing pre nstr with
  | zero => simp
  | succ k ih =>
    have hrun : List.replicate (k + 1 + 1) 0x25 ++ rest =
        0x25 :: 0x25 :: (List.replicate k 0x25 ++ rest) := by
      simp [List.replicate_succ]
    rw [hrun, ← Nat.add_assoc, scan_double, ← List.cons_append, ← List.replicate_succ, ih]
    simp [List.replicate_succ]

end

theorem doubled_of_not_mem {s : List UInt8} (hs : 0x25 ∉ s) : doubled s = s := by
  induction s with
  | nil => rfl
  | cons c s ih =>
    rw [List.mem_cons, not_or] at hs
    rw [doubled, List.flatMap_cons, if_neg (Ne.symm hs.1), ← doubled, ih hs.2, List.singleton_append]

theorem doubled_append (s t : List UInt8) : doubled (s ++ t) = doubled s ++ doubled t :=
  List.flatMap_append

theorem doubled_replicate (k : ℕ) :
    doubled (List.replicate k 0x25) = List.replicate (k + k) 0x25 := by
  induction k with
  | zero => rfl
  | succ k ih =>
    rw [List.replicate_succ, doubled, List.flatMap_cons, ← doubled, ih, if_pos rfl]
    simp [List.replicate_succ, ← Nat.add_assoc, Nat.add_right_comm]

/-- What is pushed for the pieces, and what they leave in `nstr`. -/
def entries : List UInt8 → List Piece → List Entry
  | _, [] => []
  | lit, .literal s :: ps => entries (lit ++ s) ps
  | lit, .specifier letter arg :: ps => pushed lit ++ ([letter], arg.getD [], 1) :: entries [] ps

def pending : List UInt8 → List Piece → List UInt8
  | lit, [] => lit
  | lit, .literal s :: ps => pending (lit ++ s) ps
  | _, .specifier _ _ :: ps => pending [] ps

theorem valid_append {after : List UInt8} {ps qs : List Piece} :
    Valid after (ps ++ qs) ↔ Valid (written qs ++ after) ps ∧ Valid after qs := by
  have hwritten : ∀ ps, written (ps ++ qs) ++ after = written ps ++ (written qs ++ after) := by
    intro ps
    rw [written, List.flatMap_append, List.append_assoc, ← written, ← written]
  induction ps with
  | nil => simp [Valid]
  | cons p ps ih =>
    rw [List.cons_append]
    match p with
    | .literal s => exact ih
    | .specifier letter none => simp only [Valid, hwritten, ih, and_assoc]
    | .specifier letter (some arg) => simp only [Valid, ih, and_assoc]

theorem textItem_eq (s : List UInt8) : textItem s = (pushed s).map fun e => (item e).1 := by
  rw [textItem, pushed]
  split_ifs <;> rfl

theorem items_append (lit : List UInt8) (ps qs : List Piece) :
    items lit (ps ++ qs) = ((entries lit ps).map fun e => (item e).1) ++ items (pending lit ps) qs := by
  induction ps generalizing lit with
  | nil => rfl
  | cons p ps ih =>
    cases p with
    | literal s => exact ih (lit ++ s)
    | specifier letter arg =>
      rw [List.cons_append, items, ih, entries, pending, List.map_append, List.map_cons, textItem_eq]
      simp

theorem item_known {letter : UInt8} (h : (s_format_items.lookup [letter]).isSome)
    (arg : List UInt8) : (item ([letter], arg, 1)).2 = false := by
  obtain ⟨create, hlookup⟩ := Option.isSome_iff_exists.mp h
  simp only [item, hlookup]
  rfl

theorem pushed_known (lit : List UInt8) : ((pushed lit).any fun e => (item e).2) = false := by
  rw [pushed]
  split_ifs <;> rfl

theorem entries_known {after : List UInt8} {ps : List Piece} (h : Valid after ps) (lit : List UInt8) :
    ((entries lit ps).any fun e => (item e).2) = false := by
  induction ps generalizing lit with
  | nil => rfl
  | cons p ps ih =>
    have hspecifier : ∀ letter arg, (s_format_items.lookup [letter]).isSome → Valid after ps →
        ((entries lit (.specifier letter arg :: ps)).any fun e => (item e).2) = false := by
      intro letter arg hknown hps
      rw [entries, List.any_append, List.any_cons, pushed_known, item_known hknown, ih hps]
      rfl
    match p with
    | .literal s => exact ih h (lit ++ s)
    | .specifier letter none => exact hspecifier letter none h.1 h.2.2
    | .specifier letter (some arg) => exact hspecifier letter (some arg) h.1 h.2.2

theorem written_cons (p : Piece) (ps : List Piece) : written (p :: ps) = p.text ++ written ps := rfl

/-- The scanner takes the pieces, and comes to what follows them. -/
theorem scan_pieces {after : List UInt8} {ps : List Piece} (h : Valid after ps)
    (hs : ∀ s, .literal s ∈ ps → 0x25 ∉ s) (pre nstr : List UInt8) {fuel : ℕ}
    (hfuel : (written ps ++ after).length ≤ fuel) : ∃ pre' fuel', after.length ≤ fuel' ∧
      scan pre (written ps ++ after) fuel nstr =
        (entries nstr ps ++ (scan pre' after fuel' (pending nstr ps)).1,
          (scan pre' after fuel' (pending nstr ps)).2) := by
  induction ps generalizing pre nstr fuel with
  | nil => exact ⟨pre, fuel, hfuel, rfl⟩
  | cons p ps ih =>
    have hs' : ∀ s, .literal s ∈ ps → 0x25 ∉ s := fun s hmem => hs s (List.mem_cons_of_mem p hmem)
    rw [written_cons, List.append_assoc, List.length_append] at hfuel
    rw [written_cons, List.append_assoc]
    match p with
    | .literal s =>
      have hplain : 0x25 ∉ s := hs s List.mem_cons_self
      rw [Piece.text, doubled_of_not_mem hplain] at hfuel ⊢
      obtain ⟨f, rfl⟩ := Nat.exists_eq_add_of_le' (Nat.le_of_add_right_le hfuel)
      rw [scan_literal hplain]
      exact ih h hs' (pre ++ s) (nstr ++ s) (by omega)
    | .specifier letter none =>
      obtain ⟨hknown, hdelimits, hps⟩ := h
      rw [Piece.text, List.length_cons] at hfuel
      obtain ⟨f, rfl⟩ := Nat.exists_eq_add_one_of_ne_zero (n := fuel) (by omega)
      have hf : (written ps ++ after).length ≤ f := by
        rw [List.length_singleton] at hfuel
        omega
      obtain ⟨pre', fuel', hle, heq⟩ := ih hps hs' (pre ++ [0x25, letter]) [] hf
      refine ⟨pre', fuel', hle, ?_⟩
      change scan pre (0x25 :: letter :: (written ps ++ after)) (f + 1) nstr = _
      rw [scan_delimited (isalpha_of_known hknown) hdelimits, heq, entries, pending]
      simp
    | .specifier letter (some arg) =>
      obtain ⟨hknown, harg, hps⟩ := h
      rw [Piece.text, List.length_cons] at hfuel
      obtain ⟨f, rfl⟩ := Nat.exists_eq_add_one_of_ne_zero (n := fuel) (by omega)
      have hf : (written ps ++ after).length ≤ f := by omega
      obtain ⟨pre', fuel', hle, heq⟩ :=
        ih hps hs' (pre ++ 0x25 :: letter :: 0x7B :: (arg ++ [0x7D])) [] hf
      refine ⟨pre', fuel', hle, ?_⟩
      have htext : Piece.text (.specifier letter (some arg)) ++ (written ps ++ after) =
          0x25 :: letter :: 0x7B :: (arg ++ 0x7D :: (written ps ++ after)) := by
        simp [Piece.text]
      rw [htext, scan_braced (isalpha_of_known hknown) harg, heq, entries, pending]
      simp

/-- Text is one item with the text of the pieces up to the next specifier. -/
theorem items_text {lit : List UInt8} (hlit : lit ≠ []) (ps : List Piece) : ∃ t rest out,
    written ps = doubled t ++ rest ∧ (rest = [] ∨ rest.head? = some 0x25) ∧
      items lit ps = StringFormatItem (lit ++ t) :: out := by
  induction ps generalizing lit with
  | nil => exact ⟨[], [], [], rfl, .inl rfl, by rw [items, textItem, if_neg hlit, List.append_nil]⟩
  | cons p ps ih =>
    cases p with
    | literal s =>
      have hlit' : lit ++ s ≠ [] := List.append_ne_nil_of_left_ne_nil hlit s
      obtain ⟨t, rest, out, hwritten, hrest, hitems⟩ := ih hlit'
      refine ⟨s ++ t, rest, out, ?_, hrest, ?_⟩
      · rw [written_cons, Piece.text, hwritten, doubled_append, List.append_assoc]
      · rw [items, hitems, List.append_assoc]
    | specifier letter arg =>
      refine ⟨[], written (.specifier letter arg :: ps),
        (item ([letter], arg.getD [], 1)).1 :: items [] ps, rfl, .inr ?_, ?_⟩
      · rw [written_cons]
        cases arg <;> rfl
      · rw [items, textItem, if_neg hlit, List.append_nil]
        rfl

/-- Whatever follows a run of `%`, its text is pushed, or `m_error` is set. -/
theorem scan_pushes {rest : List UInt8} (hrest : rest.head? ≠ some 0x25) (fuel : ℕ)
    (pre : List UInt8) {nstr : List UInt8} (hnstr : nstr ≠ []) :
    (scan pre (0x25 :: rest) (fuel + 1) nstr).2 = true ∨
      ∃ out, (scan pre (0x25 :: rest) (fuel + 1) nstr).1 = (nstr, [], 0) :: out := by
  rw [scan_percent hrest]
  simp only
  split_ifs
  · exact .inr ⟨_, by rw [pushed, if_neg hnstr]; rfl⟩
  · exact .inl rfl

/-- The doubled text of a `%` with what follows in the literal: read as it is meant, it can only be
the last, and then the pattern ends in a specifier without a name. -/
theorem scan_doubled {t rest : List UInt8} (hrest : rest = [] ∨ rest.head? = some 0x25)
    (pre lit : List UInt8) {fuel : ℕ}
    (hfuel : (0x25 :: 0x25 :: (doubled t ++ rest)).length ≤ fuel) {out : List FormatItem}
    (hitems : (scan pre (0x25 :: 0x25 :: (doubled t ++ rest)) fuel lit).1.map (fun e => (item e).1) =
      StringFormatItem (lit ++ 0x25 :: t) :: out) :
    (scan pre (0x25 :: 0x25 :: (doubled t ++ rest)) fuel lit).2 = true ∨
      ((scan pre (0x25 :: 0x25 :: (doubled t ++ rest)) fuel lit).1.any fun e => (item e).2) = true := by
  obtain ⟨k, tail, htext, htail⟩ := leading_run 0x25 (doubled t ++ rest)
  have hrun : 0x25 :: 0x25 :: (doubled t ++ rest) = List.replicate (k + 1 + 1) 0x25 ++ tail := by
    rw [htext, List.replicate_succ, List.replicate_succ]
    rfl
  have hlength := congrArg List.length hrun
  rw [List.length_append, List.length_replicate] at hlength
  obtain ⟨f, rfl⟩ : ∃ f, fuel = f + 1 + (k + 1) := ⟨fuel - (k + 2), by omega⟩
  rw [hrun, scan_run] at hitems ⊢
  have hne : lit ++ List.replicate (k + 1) 0x25 ≠ [] := by simp
  rcases scan_pushes htail f (pre ++ List.replicate (k + 1) 0x25) hne with herror | ⟨out', hout⟩
  · exact .inl herror
  · right
    rw [hout, List.map_cons, List.cons.injEq] at hitems
    have hlit : List.replicate (k + 1) 0x25 = 0x25 :: t :=
      List.append_cancel_left (StringFormatItem.inj hitems.1)
    rw [List.replicate_succ, List.cons.injEq] at hlit
    have ht := hlit.2.symm
    -- the literal is `k` more of them, so that twice as many are to come, and only `k` do
    rw [ht, doubled_replicate, List.replicate_add, List.append_assoc] at htext
    have htail' := List.append_cancel_left htext
    have hk : k = 0 := by
      cases k with
      | zero => rfl
      | succ k => exact absurd (by rw [← htail']; rfl) htail
    subst hk
    rw [List.replicate_zero, List.nil_append] at htail'
    have hend : tail = [] := by
      rcases hrest with h | h
      · rw [← htail', h]
      · exact absurd (htail' ▸ h) htail
    have hunnamed : (item ([], [], 1)).2 = true := rfl
    rw [hend, scan_lone, List.any_append, List.any_cons, hunnamed, Bool.true_or, Bool.or_true]

theorem percent_cases (ps : List Piece) : (∀ s, .literal s ∈ ps → 0x25 ∉ s) ∨
    ∃ ps₁ s ps₂, ps = ps₁ ++ .literal s :: ps₂ ∧ (∀ s, .literal s ∈ ps₁ → 0x25 ∉ s) ∧ 0x25 ∈ s := by
  induction ps with
  | nil => exact .inl fun s hs => by cases hs
  | cons p ps ih =>
    by_cases hp : ∃ s, p = .literal s ∧ 0x25 ∈ s
    · obtain ⟨s, rfl, hs⟩ := hp
      exact .inr ⟨[], s, ps, rfl, fun s hs => (by cases hs), hs⟩
    · have hplain : ∀ s, .literal s = p → 0x25 ∉ s := fun s heq hs => hp ⟨s, heq.symm, hs⟩
      rcases ih with h | ⟨ps₁, s, ps₂, rfl, h₁, hs⟩
      · refine .inl fun s hs => ?_
        rcases List.mem_cons.mp hs with heq | hmem
        · exact hplain s heq
        · exact h s hmem
      · refine .inr ⟨p :: ps₁, s, ps₂, rfl, fun s' hs' => ?_, hs⟩
        rcases List.mem_cons.mp hs' with heq | hmem
        · exact hplain s' heq
        · exact h₁ s' hmem

theorem init_plain {ps : List Piece} (h : Valid [] ps) (hplain : ∀ s, .literal s ∈ ps → 0x25 ∉ s) :
    (init (written ps)).m_error = false ∧ (init (written ps)).m_items = items [] ps := by
  have hfuel : (written ps ++ []).length ≤ (written ps).length := by rw [List.append_nil]
  obtain ⟨pre', fuel', -, heq⟩ := scan_pieces h hplain [] [] hfuel
  rw [List.append_nil, scan_nil] at heq
  have hloop : initLoop (written ps) (written ps).length 0 [] = _ := heq
  have hitems := items_append [] ps []
  rw [List.append_nil, items, textItem_eq] at hitems
  rw [init, hloop, hitems, List.map_append]
  refine ⟨?_, rfl⟩
  rw [List.any_append, entries_known h, pushed_known]
  rfl

/-- The pieces before the first `%` of a literal are read as they are meant, and what is from there to
the next specifier is not. -/
theorem init_percent {ps₁ ps₂ : List Piece} {s₁ s₂ : List UInt8}
    (h : Valid [] (ps₁ ++ .literal (s₁ ++ 0x25 :: s₂) :: ps₂))
    (h₁ : ∀ s, .literal s ∈ ps₁ → 0x25 ∉ s) (hs₁ : 0x25 ∉ s₁)
    (herror : (init (written (ps₁ ++ .literal (s₁ ++ 0x25 :: s₂) :: ps₂))).m_error = false)
    (hitems : (init (written (ps₁ ++ .literal (s₁ ++ 0x25 :: s₂) :: ps₂))).m_items =
      items [] (ps₁ ++ .literal (s₁ ++ 0x25 :: s₂) :: ps₂)) : False := by
  have hne : pending [] ps₁ ++ (s₁ ++ 0x25 :: s₂) ≠ [] := by simp
  obtain ⟨t, rest, out, hwritten, hrest, hmeant⟩ := items_text hne ps₂
  -- what follows `ps₁`, up to the next specifier
  have htext : written (.literal (s₁ ++ 0x25 :: s₂) :: ps₂) =
      s₁ ++ 0x25 :: 0x25 :: (doubled (s₂ ++ t) ++ rest) := by
    have hpercent : doubled (0x25 :: s₂) = 0x25 :: 0x25 :: doubled s₂ := rfl
    rw [written_cons, Piece.text, doubled_append, doubled_of_not_mem hs₁, hpercent, hwritten,
      doubled_append]
    simp
  have hall : written (ps₁ ++ .literal (s₁ ++ 0x25 :: s₂) :: ps₂) =
      written ps₁ ++ (s₁ ++ 0x25 :: 0x25 :: (doubled (s₂ ++ t) ++ rest)) := by
    rw [← htext, written, List.flatMap_append, ← written, ← written]
  have hvalid := (valid_append.mp h).1
  rw [List.append_nil, htext] at hvalid
  obtain ⟨pre', fuel', hfuel, heq⟩ := scan_pieces hvalid h₁ [] [] (congrArg List.length hall).ge
  rw [List.length_append] at hfuel
  obtain ⟨f, rfl⟩ := Nat.exists_eq_add_of_le' (Nat.le_of_add_right_le hfuel)
  rw [scan_literal hs₁, ← hall] at heq
  have hloop : initLoop (written (ps₁ ++ .literal (s₁ ++ 0x25 :: s₂) :: ps₂))
      (written (ps₁ ++ .literal (s₁ ++ 0x25 :: s₂) :: ps₂)).length 0 [] = _ := heq
  rw [init, hloop] at herror hitems
  simp only [List.any_append, entries_known hvalid, Bool.false_or, Bool.or_eq_false_iff] at herror
  simp only [List.map_append, items_append, items, hmeant] at hitems
  have hlit : pending [] ps₁ ++ (s₁ ++ 0x25 :: s₂) ++ t =
      pending [] ps₁ ++ s₁ ++ 0x25 :: (s₂ ++ t) := by simp
  rw [hlit] at hitems
  rcases scan_doubled hrest (pre' ++ s₁) (pending [] ps₁ ++ s₁) (by omega)
    (List.append_cancel_left hitems) with hset | hset
  · rw [herror.1] at hset
    cases hset
  · rw [herror.2] at hset
    cases hset

/-- `init` makes of a pattern the items it is written from, unless a literal has a `%`. -/
theorem init_reads_iff (ps : List Piece) (h : Valid [] ps) :
    ((init (written ps)).m_error = false ∧ (init (written ps)).m_items = items [] ps) ↔
      ∀ s, .literal s ∈ ps → 0x25 ∉ s := by
  rcases percent_cases ps with hplain | ⟨ps₁, s, ps₂, rfl, h₁, hs⟩
  · exact iff_of_true (init_plain h hplain) hplain
  · refine iff_of_false ?_ fun hplain => hplain s (by simp) hs
    rintro ⟨herror, hitems⟩
    rcases cut_singleton_cases 0x25 s with hmem | ⟨s₁, s₂, rfl, hs₁⟩
    · exact hmem hs
    · exact init_percent h h₁ hs₁ herror hitems

theorem init_reads_default :
    let ps := [Piece.specifier 0x64 (some (ascii "%Y-%m")), .literal (ascii " ["), .specifier 0x70 none,
      .literal (ascii "]"), .specifier 0x6E none]
    (init (written ps)).m_error = false ∧ (init (written ps)).m_items = items [] ps := by
  intro ps
  have hvalid : Valid [] ps := ⟨by decide, by decide, by decide, ⟨by decide, by decide, by decide⟩,
    by decide, trivial, trivial⟩
  refine (init_reads_iff ps hvalid).mpr ?_
  intro s hs
  simp only [ps, List.mem_cons, Piece.literal.injEq, reduceCtorEq, List.not_mem_nil, or_false,
    false_or] at hs
  rcases hs with rfl | rfl
  · decide
  · decide

/-- `100%` ends in an error, and a `%` before a specifier becomes two. -/
theorem percent_misread :
    ¬ (∀ ps, Valid [] ps → (init (written ps)).m_error = false ∧
        (init (written ps)).m_items = items [] ps) ∧
      (init (written [.literal (ascii "100%")])).m_error = true ∧
      (init (written [.literal (ascii "%"), .specifier 0x6D none])).m_items =
        [StringFormatItem (ascii "%%"), MessageFormatItem] := by
  have herror : (init (written [.literal (ascii "100%")])).m_error = true := by decide
  refine ⟨fun hall => ?_, herror, by decide⟩
  have hfalse := (hall [.literal (ascii "100%")] trivial).1
  rw [herror] at hfalse
  cases hfalse

end LogFormatter

end Sylar
