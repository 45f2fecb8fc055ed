import Mathlib.Data.List.DropRight
import Mathlib.Tactic

/-! Strings as lists: where a part stands in one, cutting one up there, replacing a part, and
taking off its ends, up to the first element and from the last that fails a test. -/

namespace Lib

variable {α : Type*}

/-- `count` elements from `pos` on, where there are that many. -/
def substr (l : List α) (pos count : ℕ) : List α := (l.drop pos).take count

theorem forall_byte {P : UInt8 → Prop} (h : ∀ n < 256, P (UInt8.ofNat n)) (c : UInt8) : P c := by
  simpa using h c.toNat c.toNat_lt

theorem forall_nibble {P : UInt8 → Prop} (h : ∀ n < 16, P (UInt8.ofNat n)) {v : UInt8} (hv : v < 16) :
    P v := by
  simpa using h v.toNat hv

theorem nibbles (c : UInt8) : c >>> 4 < 16 ∧ c &&& 0xF < 16 ∧ (c >>> 4) <<< 4 ||| (c &&& 0xF) = c :=
  forall_byte (P := fun c => c >>> 4 < 16 ∧ c &&& 0xF < 16 ∧ (c >>> 4) <<< 4 ||| (c &&& 0xF) = c)
    (by decide +kernel) c

theorem substr_append (pre x post : List α) :
    substr (pre ++ (x ++ post)) pre.length x.length = x := by
  rw [substr, List.drop_left, List.take_left]

variable [DecidableEq α]

/-- What is before the first `part` and what is behind it. -/
def cut (part : List α) : List α → Option (List α × List α)
  | [] => if part = [] then some ([], []) else none
  | x :: l =>
      if part.isPrefixOf (x :: l) then some ([], (x :: l).drop part.length)
      else (cut part l).map fun c => (x :: c.1, c.2)

/-- The first place of `part` at `pos` or behind it. -/
def findFrom (part l : List α) (pos : ℕ) : Option ℕ :=
  if pos ≤ l.length then (cut part (l.drop pos)).map fun c => pos + c.1.length else none

section

variable {part l x y : List α} {a : α}

theorem cut_cons (part : List α) (a : α) (l : List α) :
    cut part (a :: l) =
      if part.isPrefixOf (a :: l) then some ([], (a :: l).drop part.length)
      else (cut part l).map fun c => (a :: c.1, c.2) := rfl

theorem cut_nil_part : ∀ l : List α, cut [] l = some ([], l)
  | [] => rfl
  | a :: l => by rw [cut_cons, if_pos List.isPrefixOf_nil_left, List.length_nil, List.drop_zero]

theorem eq_of_cut (h : cut part l = some (x, y)) : l = x ++ (part ++ y) := by
  induction l generalizing x with
  | nil =>
    rw [cut] at h
    split_ifs at h with hp
    obtain ⟨rfl, rfl⟩ : [] = x ∧ [] = y := by simpa using h
    simp [hp]
  | cons a l ih =>
    rw [cut_cons] at h
    split_ifs at h with hp
    · obtain ⟨rfl, rfl⟩ : [] = x ∧ (a :: l).drop part.length = y := by simpa using h
      obtain ⟨t, ht⟩ := List.isPrefixOf_iff_prefix.mp hp
      rw [← ht, List.drop_left, List.nil_append]
    · obtain ⟨⟨x', y'⟩, hc, he⟩ := Option.map_eq_some_iff.mp h
      obtain ⟨rfl, rfl⟩ : a :: x' = x ∧ y' = y := by simpa using he
      rw [List.cons_append, ← ih hc]

/-- No `part` begins before the place where the list is cut. -/
theorem not_prefix_of_cut (h : cut part l = some (x, y)) :
    ∀ i < x.length, ¬ part <+: l.drop i := by
  induction l generalizing x with
  | nil =>
    rw [cut] at h
    split_ifs at h
    obtain ⟨rfl, rfl⟩ : [] = x ∧ [] = y := by simpa using h
    simp
  | cons a l ih =>
    rw [cut_cons] at h
    split_ifs at h with hp
    · obtain ⟨rfl, rfl⟩ : [] = x ∧ (a :: l).drop part.length = y := by simpa using h
      simp
    · obtain ⟨⟨x', y'⟩, hc, he⟩ := Option.map_eq_some_iff.mp h
      obtain ⟨rfl, rfl⟩ : a :: x' = x ∧ y' = y := by simpa using he
      intro i hi
      cases i with
      | zero => exact fun hpre => hp (List.isPrefixOf_iff_prefix.mpr hpre)
      | succ i => exact ih hc i (by simpa using hi)

/-- A part does not begin in what is without its first element. -/
theorem cut_append_of_not_mem (hx : a ∉ x) (rest : List α) : cut (a :: part) (x ++ rest) =
    (cut (a :: part) rest).map fun c => (x ++ c.1, c.2) := by
  induction x with
  | nil => simp
  | cons b x ih =>
    rw [List.mem_cons, not_or] at hx
    have hb : ¬ (a :: part).isPrefixOf (b :: (x ++ rest)) = true := by simp [hx.1]
    rw [List.cons_append, cut_cons, if_neg hb, ih hx.2, Option.map_map]
    rfl

theorem cut_part (hne : part ≠ []) (y : List α) : cut part (part ++ y) = some ([], y) := by
  obtain ⟨b, t, rfl⟩ := List.exists_cons_of_ne_nil hne
  have hp : (b :: t).isPrefixOf (b :: (t ++ y)) = true :=
    List.isPrefixOf_iff_prefix.mpr ⟨y, rfl⟩
  rw [List.cons_append, cut_cons, if_pos hp, ← List.cons_append, List.drop_left]

theorem cut_singleton_eq_none : cut [a] l = none ↔ a ∉ l := by
  induction l with
  | nil => simp [cut]
  | cons b l ih =>
    rw [cut_cons]
    by_cases hb : a = b
    · simp [hb]
    · simp [hb, ih]

theorem cut_singleton (hx : a ∉ x) (y : List α) : cut [a] (x ++ a :: y) = some (x, y) := by
  induction x with
  | nil => simp [cut_cons]
  | cons b x ih =>
    rw [List.mem_cons, not_or] at hx
    rw [List.cons_append, cut_cons, ih hx.2]
    simp [hx.1]

theorem cut_singleton_eq_some : cut [a] l = some (x, y) ↔ l = x ++ a :: y ∧ a ∉ x := by
  constructor
  · intro h
    have hl := eq_of_cut h
    refine ⟨hl, fun hmem => ?_⟩
    obtain ⟨s, t, rfl⟩ := List.append_of_mem hmem
    refine not_prefix_of_cut h s.length (by simp) ?_
    rw [hl, List.append_assoc, List.drop_left]
    exact ⟨t ++ ([a] ++ y), by simp⟩
  · rintro ⟨rfl, hx⟩
    exact cut_singleton hx y

theorem cut_singleton_cases (a : α) (l : List α) :
    a ∉ l ∨ ∃ x y, l = x ++ a :: y ∧ a ∉ x := by
  rcases h : cut [a] l with _ | ⟨x, y⟩
  · exact .inl (cut_singleton_eq_none.mp h)
  · exact .inr ⟨x, y, cut_singleton_eq_some.mp h⟩

theorem leading_run (a : α) (l : List α) :
    ∃ n rest, l = List.replicate n a ++ rest ∧ rest.head? ≠ some a := by
  induction l with
  | nil => exact ⟨0, [], rfl, by simp⟩
  | cons b l ih =>
    by_cases hb : b = a
    · obtain ⟨n, rest, rfl, hrest⟩ := ih
      exact ⟨n + 1, rest, by rw [hb, List.replicate_succ, List.cons_append], hrest⟩
    · exact ⟨0, b :: l, rfl, fun h => hb (Option.some.inj h)⟩

theorem cut_induction (a : α) {P : List α → Prop} (none : ∀ l, a ∉ l → P l)
    (some : ∀ x y, a ∉ x → P y → P (x ++ a :: y)) (l : List α) : P l := by
  induction hn : l.length using Nat.strong_induction_on generalizing l with
  | _ n ih =>
    rcases cut_singleton_cases a l with h | ⟨x, y, rfl, hx⟩
    · exact none l h
    · refine some x y hx (ih y.length ?_ y rfl)
      rw [← hn, List.length_append, List.length_cons]
      omega

theorem findFrom_append (part pre rest : List α) :
    findFrom part (pre ++ rest) pre.length = (cut part rest).map fun c => pre.length + c.1.length := by
  rw [findFrom, if_pos (by simp), List.drop_left]

theorem findFrom_singleton_eq_none (pre : List α) (h : a ∉ l) :
    findFrom [a] (pre ++ l) pre.length = none := by
  rw [findFrom_append, cut_singleton_eq_none.mpr h, Option.map_none]

theorem findFrom_singleton_eq_some (pre : List α) (hx : a ∉ x) (y : List α) :
    findFrom [a] (pre ++ (x ++ a :: y)) pre.length = some (pre.length + x.length) := by
  rw [findFrom_append, cut_singleton hx, Option.map_some]

/-- Where a search from `pos` finds, the list is what is before `pos`, then what is passed over. -/
theorem cut_of_findFrom {pos i : ℕ} (h : findFrom part l pos = some i) :
    ∃ pre x y, l = pre ++ (x ++ (part ++ y)) ∧ pre.length = pos ∧ i = pos + x.length ∧
      cut part (x ++ (part ++ y)) = some (x, y) := by
  rw [findFrom] at h
  split_ifs at h with hpos
  obtain ⟨⟨x, y⟩, hc, rfl⟩ := Option.map_eq_some_iff.mp h
  have hl := eq_of_cut hc
  refine ⟨l.take pos, x, y, ?_, by rw [List.length_take]; omega, rfl, ?_⟩
  · rw [← hl, List.take_append_drop]
  · rw [← hl, hc]

theorem findFrom_le {pos i : ℕ} (h : findFrom part l pos = some i) :
    pos ≤ i ∧ i + part.length ≤ l.length := by
  obtain ⟨pre, x, y, rfl, rfl, rfl, -⟩ := cut_of_findFrom h
  simp only [List.length_append]
  omega

/-- A search for one element ends before the end of the list. -/
theorem findFrom_singleton_lt {pos i : ℕ} (h : findFrom [a] l pos = some i) :
    pos ≤ i ∧ i < l.length := findFrom_le h

end

/-- What is put in is not looked at again. -/
def replaceAll (part other : List α) : List α → List α
  | [] => []
  | x :: l =>
      if part.isPrefixOf (x :: l) then other ++ replaceAll part other (l.drop (part.length - 1))
      else x :: replaceAll part other l
termination_by l => l.length
decreasing_by
  · simp only [List.length_drop, List.length_cons]
    omega
  · simp

section

variable {part other l x y : List α}

theorem replaceAll_of_cut_eq_none (h : cut part l = none) : replaceAll part other l = l := by
  induction l with
  | nil => rw [replaceAll]
  | cons a l ih =>
    rw [cut_cons] at h
    split_ifs at h with hp
    rw [replaceAll, if_neg hp, ih (by simpa using h)]

theorem replaceAll_of_cut (hne : part ≠ []) (h : cut part l = some (x, y)) :
    replaceAll part other l = x ++ (other ++ replaceAll part other y) := by
  induction l generalizing x with
  | nil => simp [cut, hne] at h
  | cons a l ih =>
    rw [cut_cons] at h
    split_ifs at h with hp
    · obtain ⟨rfl, rfl⟩ : [] = x ∧ (a :: l).drop part.length = y := by simpa using h
      obtain ⟨n, hn⟩ := Nat.exists_eq_add_one_of_ne_zero fun h0 => hne (List.length_eq_zero_iff.mp h0)
      rw [replaceAll, if_pos hp, hn, Nat.add_sub_cancel, List.drop_succ_cons, List.nil_append]
    · obtain ⟨⟨x', y'⟩, hc, he⟩ := Option.map_eq_some_iff.mp h
      obtain ⟨rfl, rfl⟩ : a :: x' = x ∧ y' = y := by simpa using he
      rw [replaceAll, if_neg hp, ih hc, List.cons_append]

end

def lines (cr lf : α) : List α → List (List α)
  | [] => [[]]
  | [c] => [[c]]
  | c :: d :: rest =>
      if c = cr ∧ d = lf then [] :: lines cr lf rest else (lines cr lf (d :: rest)).modifyHead (c :: ·)

section

variable {cr lf : α}

theorem lines_cons_cons (cr lf c d : α) (rest : List α) : lines cr lf (c :: d :: rest) =
    if c = cr ∧ d = lf then [] :: lines cr lf rest
    else (lines cr lf (d :: rest)).modifyHead (c :: ·) := rfl

theorem lines_ne_nil : ∀ l : List α, lines cr lf l ≠ []
  | [] => List.cons_ne_nil _ _
  | [_] => List.cons_ne_nil _ _
  | c :: d :: rest => by
    rw [lines_cons_cons]
    split_ifs
    · exact List.cons_ne_nil _ _
    · rw [Ne, List.modifyHead_eq_nil_iff]
      exact lines_ne_nil (d :: rest)

theorem lines_append (hne : cr ≠ lf) (y : List α) : ∀ x : List α,
    lines cr lf (x ++ cr :: lf :: y) = lines cr lf x ++ lines cr lf y
  | [] => by
    rw [List.nil_append, lines_cons_cons, if_pos ⟨rfl, rfl⟩]
    rfl
  | [c] => by
    have hhead := lines_append hne y []
    rw [List.nil_append] at hhead
    rw [List.singleton_append, lines_cons_cons, if_neg fun h => hne h.2, hhead]
    rfl
  | c :: d :: x => by
    rw [List.cons_append, List.cons_append, lines_cons_cons, lines_cons_cons]
    split_ifs
    · rw [lines_append hne y x, List.cons_append]
    · rw [← List.cons_append, lines_append hne y (d :: x)]
      cases h : lines cr lf (d :: x) with
      | nil => exact absurd h (lines_ne_nil _)
      | cons l ls => rfl

theorem lines_of_not_mem : ∀ {l : List α}, lf ∉ l → lines cr lf l = [l]
  | [], _ => rfl
  | [_], _ => rfl
  | c :: d :: rest, h => by
    rw [List.mem_cons, not_or] at h
    have hd : d ≠ lf := fun he => h.2 (he ▸ List.mem_cons_self)
    rw [lines_cons_cons, if_neg fun hand => hd hand.2, lines_of_not_mem h.2]
    rfl

theorem lines_flatMap (hne : cr ≠ lf) (texts : List (List α)) (y : List α) :
    lines cr lf ((texts.flatMap fun t => t ++ [cr, lf]) ++ y) =
      texts.flatMap (lines cr lf) ++ lines cr lf y := by
  induction texts with
  | nil => rfl
  | cons t texts ih =>
    rw [List.flatMap_cons, List.flatMap_cons, List.append_assoc, List.append_assoc, List.append_assoc,
      List.cons_append, List.singleton_append, lines_append hne, ih]

end

section

omit [DecidableEq α]

variable {p : α → Bool} {l a m b : List α}

theorem findIdx_append {x : α} (ha : ∀ y ∈ a, p y = true) (hx : p x = false) (l : List α) :
    (a ++ x :: l).findIdx? (!p ·) = some a.length := by
  induction a with
  | nil => rw [List.nil_append, List.findIdx?_cons, hx, Bool.not_false, if_pos rfl, List.length_nil]
  | cons y a ih =>
    rw [List.cons_append, List.findIdx?_cons, ha y (by simp),
      ih fun z hz => ha z (List.mem_cons_of_mem y hz)]
    rfl

/-- `l` is `m` between two ends that are as long as can be. -/
structure Ends (p : α → Bool) (l a m b : List α) : Prop where
  eq : l = a ++ (m ++ b)
  front : ∀ x ∈ a, p x = true
  back : ∀ x ∈ b, p x = true
  first : ∃ x t, m = x :: t ∧ p x = false
  last : ∃ t x, m = t ++ [x] ∧ p x = false

theorem ends_cases (p : α → Bool) (l : List α) :
    (∀ x ∈ l, p x = true) ∨ ∃ a m b, Ends p l a m b := by
  by_cases hall : ∀ x ∈ l, p x = true
  · exact .inl hall
  · right
    have hne : l.dropWhile p ≠ [] := fun h => hall (List.dropWhile_eq_nil_iff.mp h)
    obtain ⟨x, t, hx⟩ := List.exists_cons_of_ne_nil hne
    have hpx : p x = false := by
      have := List.head_dropWhile_not p hne
      simpa [hx] using this
    have hm : (l.dropWhile p).rdropWhile p ≠ [] := fun h => by
      have := List.rdropWhile_eq_nil_iff.mp h x (by simp [hx])
      simp [hpx] at this
    have hsplit : (l.dropWhile p).rdropWhile p ++ (l.dropWhile p).rtakeWhile p = l.dropWhile p :=
      List.rdropWhile_append_rtakeWhile
    refine ⟨l.takeWhile p, (l.dropWhile p).rdropWhile p, (l.dropWhile p).rtakeWhile p,
      ⟨?_, fun y hy => List.mem_takeWhile_imp hy, fun y hy => List.mem_rtakeWhile_imp hy, ?_, ?_⟩⟩
    · rw [hsplit, List.takeWhile_append_dropWhile]
    · obtain ⟨y, t', hy⟩ := List.exists_cons_of_ne_nil hm
      rw [hy, hx, List.cons_append, List.cons.injEq] at hsplit
      exact ⟨y, t', hy, hsplit.1 ▸ hpx⟩
    · refine ⟨_, _, (List.dropLast_append_getLast hm).symm, ?_⟩
      simpa using List.rdropWhile_last_not p _ hm

namespace Ends

variable (h : Ends p l a m b)
include h

theorem findIdx : l.findIdx? (!p ·) = some a.length := by
  obtain ⟨x, t, rfl, hx⟩ := h.first
  rw [h.eq]
  exact findIdx_append h.front hx _

theorem findIdx_reverse : l.reverse.findIdx? (!p ·) = some b.length := by
  obtain ⟨t, x, rfl, hx⟩ := h.last
  have := findIdx_append (a := b.reverse) (fun y hy => h.back y (List.mem_reverse.mp hy)) hx
    (t.reverse ++ a.reverse)
  rw [List.length_reverse] at this
  rw [h.eq, ← this]
  simp

theorem dropWhile : l.dropWhile p = m ++ b := by
  obtain ⟨x, t, rfl, hx⟩ := h.first
  rw [h.eq, List.dropWhile_append_of_pos h.front, List.cons_append,
    List.dropWhile_cons_of_neg (by simp [hx])]

theorem rdropWhile : l.rdropWhile p = a ++ m := by
  obtain ⟨t, x, rfl, hx⟩ := h.last
  rw [List.rdropWhile, h.eq, List.reverse_append, List.reverse_append, List.append_assoc,
    List.dropWhile_append_of_pos fun y hy => h.back y (List.mem_reverse.mp hy), List.reverse_append,
    List.reverse_singleton, List.singleton_append, List.cons_append,
    List.dropWhile_cons_of_neg (by simp [hx])]
  simp

theorem pos : 0 < m.length := by
  obtain ⟨x, t, rfl, -⟩ := h.first
  simp

theorem of_front : Ends p (m ++ b) [] m b where
  eq := rfl
  front := by simp
  back := h.back
  first := h.first
  last := h.last

end Ends

end

end Lib
