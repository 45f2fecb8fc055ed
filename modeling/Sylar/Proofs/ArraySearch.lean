import Sylar.Spec.Array
import Sylar.Lib.Search

/-! The binary searches of `Array`. `exists(v)` finds an element equivalent to `v`, or the place
for one. `exists(v, cmp)` does not move its end, so it is stuck as soon as it meets an element
above `v`. -/

namespace Sylar

open Lib

section

variable {T : Type} {lt : T → T → Bool} {half : ℤ → ℤ → Except Fault ℤ} {goLeft : ℤ → ℤ → ℤ}
  {data : List T} {v : T}

def Found (lt : T → T → Bool) (data : List T) (v : T) (r : ℤ) : Prop :=
  (∃ (i : ℕ) (x : T), r = i ∧ data[i]? = some x ∧ Incomp lt x v) ∨
    (∀ x ∈ data, ¬ Incomp lt x v) ∧ r = -((data.countP fun x => lt x v : ℕ) : ℤ) - 1

theorem readAt_of_lt {m : ℤ} (h0 : 0 ≤ m) (hm : m < data.length) :
    ∃ (i : ℕ) (x : T), m = i ∧ data[i]? = some x ∧ readAt data m = .ok x := by
  have hi : m.toNat < data.length := by omega
  refine ⟨m.toNat, data[m.toNat], by omega, List.getElem?_eq_getElem hi, ?_⟩
  rw [readAt, if_pos h0, List.getElem?_eq_getElem hi]

theorem searchLoop_turn {first last : ℤ} (hhalf : half first last = middle first last)
    (h0 : 0 ≤ first) (hle : first ≤ last) (hlen : last < data.length) :
    ∃ (i : ℕ) (x : T), (i : ℤ) = (first + last) / 2 ∧ first ≤ i ∧ (i : ℤ) ≤ last ∧
      data[i]? = some x ∧ ∀ turns, searchLoop lt half goLeft data v (turns + 1) first last =
        if lt v x then searchLoop lt half goLeft data v turns first (goLeft i last)
        else if lt x v then searchLoop lt half goLeft data v turns (i + 1) last
        else .ok (some i) := by
  have hm : (first + last).tdiv 2 = (first + last) / 2 := Int.tdiv_eq_ediv_of_nonneg (by omega)
  obtain ⟨i, x, hi, hx, hread⟩ : ∃ (i : ℕ) (x : T), (first + last) / 2 = i ∧ data[i]? = some x ∧
      readAt data ((first + last) / 2) = .ok x := readAt_of_lt (by omega) (by omega)
  refine ⟨i, x, hi.symm, by omega, by omega, hx, fun turns => ?_⟩
  rw [searchLoop, if_pos hle, hhalf, middle, hm]
  change (readAt data ((first + last) / 2) >>= _) = _
  rw [hread, hi]
  rfl

theorem searchLoop_over {first last : ℤ} (h : last < first) (turns : ℕ) :
    searchLoop lt half goLeft data v (turns + 1) first last = .ok (some (-first - 1)) := by
  rw [searchLoop, if_neg (by omega)]

/-- Every element in front of the bounds is below `v`, and every one behind them above. -/
structure Around (lt : T → T → Bool) (data : List T) (v : T) (first last : ℤ) : Prop where
  nonneg : 0 ≤ first
  below : first ≤ (data.countP fun x => lt x v : ℕ)
  above : ((data.countP fun x => !lt v x : ℕ) : ℤ) ≤ last + 1
  inside : last < data.length

/-- What a search returns is right, wherever it moves its end to. -/
theorem searchLoop_found (hlt : IsStrictWeakOrder T fun x y => lt x y = true)
    (hdata : data.Pairwise fun x y => lt y x = false)
    (hhalf : ∀ first last : ℤ, 0 ≤ first → first ≤ last → last < data.length →
      half first last = middle first last)
    (hleft : ∀ m last, m ≤ last → m ≤ goLeft m last + 1 ∧ goLeft m last ≤ last) :
    ∀ turns first last, Around lt data v first last →
      ∃ o, searchLoop lt half goLeft data v turns first last = .ok o ∧
        ∀ r, o = some r → Found lt data v r := by
  intro turns
  induction turns with
  | zero => exact fun first last _ => ⟨none, rfl, fun r hr => by simp at hr⟩
  | succ turns ih =>
    intro first last h
    by_cases hle : first ≤ last
    · obtain ⟨i, x, -, hfirst, hlast, hx, hturn⟩ := @searchLoop_turn T lt half goLeft data v
        first last (hhalf first last h.nonneg hle h.inside) h.nonneg hle h.inside
      rw [hturn]
      by_cases hvx : lt v x = true
      · have habove := (above_iff hlt hdata v hx).mp hvx
        obtain ⟨hl1, hl2⟩ := hleft i last hlast
        rw [if_pos hvx]
        exact ih _ _ ⟨h.nonneg, h.below, by omega, by have := h.inside; omega⟩
      · rw [if_neg hvx]
        by_cases hxv : lt x v = true
        · have hbelow := (below_iff hlt hdata v hx).mp hxv
          rw [if_pos hxv]
          exact ih _ _ ⟨by omega, by omega, h.above, h.inside⟩
        · rw [if_neg hxv]
          refine ⟨some i, rfl, fun r hr => Or.inl ⟨i, x, (Option.some.inj hr).symm, hx, ?_, ?_⟩⟩
          · simpa using hxv
          · simpa using hvx
    · -- nothing is left between the elements below and those above
      rw [searchLoop_over (by omega)]
      refine ⟨some (-first - 1), rfl, fun r hr => Or.inr ⟨fun x hx hinc => ?_, ?_⟩⟩
      · obtain ⟨i, hi⟩ := List.getElem?_of_mem hx
        have hbelow := (below_iff hlt hdata v hi).not.mp (by simp [hinc.1])
        have habove := (above_iff hlt hdata v hi).not.mp (by simp [hinc.2])
        have h1 := h.below
        have h2 := h.above
        omega
      · have h1 := h.below
        have h2 := h.above
        have h3 := below_le_above (l := data) hlt v
        rw [← Option.some.inj hr]
        omega

/-- A search that moves its end below the middle gets to an end, and returns an index or a place in
the block. -/
theorem searchLoop_ends
    (hhalf : ∀ first last : ℤ, 0 ≤ first → first ≤ last → last < data.length →
      half first last = middle first last) :
    ∀ (turns : ℕ) (first last : ℤ), 0 ≤ first → first ≤ last + 1 → last < data.length →
      last - first + 1 < turns →
      ∃ r, searchLoop lt half (fun m _ => m - 1) data v turns first last = .ok (some r) ∧
        -(data.length : ℤ) - 1 ≤ r ∧ r < data.length := by
  intro turns
  induction turns with
  | zero => exact fun first last _ hle _ hturns => by omega
  | succ turns ih =>
    intro first last h0 hlast hlen hturns
    by_cases hle : first ≤ last
    · obtain ⟨i, x, -, hfirst, hi, -, hturn⟩ := @searchLoop_turn T lt half
        (fun m _ => m - 1) data v first last (hhalf first last h0 hle hlen) h0 hle hlen
      rw [hturn]
      by_cases hvx : lt v x = true
      · rw [if_pos hvx]
        exact ih _ _ h0 (by omega) (by omega) (by omega)
      · rw [if_neg hvx]
        by_cases hxv : lt x v = true
        · rw [if_pos hxv]
          exact ih _ _ (by omega) (by omega) hlen (by omega)
        · rw [if_neg hxv]
          exact ⟨i, rfl, by omega, by omega⟩
    · rw [searchLoop_over (by omega)]
      exact ⟨_, rfl, by omega, by omega⟩

theorem searchLoop_half
    (hhalf : ∀ first last : ℤ, 0 ≤ first → first ≤ last → last < data.length →
      half first last = middle first last) :
    ∀ (turns : ℕ) (first last : ℤ), 0 ≤ first → last < data.length →
      searchLoop lt half (fun m _ => m - 1) data v turns first last =
        searchLoop lt middle (fun m _ => m - 1) data v turns first last := by
  intro turns
  induction turns with
  | zero => exact fun _ _ _ _ => rfl
  | succ turns ih =>
    intro first last h0 hlen
    by_cases hle : first ≤ last
    · obtain ⟨i, x, hi, hfirst, hlast, hx, hturn⟩ := @searchLoop_turn T lt half (fun m _ => m - 1)
        data v first last (hhalf first last h0 hle hlen) h0 hle hlen
      obtain ⟨j, y, hj, -, -, hy, hturn'⟩ := @searchLoop_turn T lt middle (fun m _ => m - 1)
        data v first last rfl h0 hle hlen
      obtain rfl : i = j := by omega
      obtain rfl : x = y := Option.some.inj (hx.symm.trans hy)
      rw [hturn, hturn', ih _ _ h0 (by omega), ih _ _ (by omega) hlen]
    · rw [searchLoop_over (by omega), searchLoop_over (by omega)]

/-- The indices that a search which only goes right looks at, from `first` on. -/
def rightProbes (size : ℕ) : ℕ → ℕ → List ℕ
  | 0, _ => []
  | turns + 1, first =>
      if first < size then
        (first + (size - 1)) / 2 :: rightProbes size turns ((first + (size - 1)) / 2 + 1)
      else []

theorem le_of_mem_rightProbes {size : ℕ} : ∀ {turns first m : ℕ},
    m ∈ rightProbes size turns first → first ≤ m := by
  intro turns
  induction turns with
  | zero => intro first m hm; simp [rightProbes] at hm
  | succ turns ih =>
    intro first m hm
    rw [rightProbes] at hm
    split at hm
    · rcases List.mem_cons.mp hm with rfl | hm
      · omega
      · have := ih hm
        omega
    · simp at hm

/-- A search for `v` that only goes right comes to an end: nothing is to the left of it, or it
meets an element equivalent to `v`. -/
def GoesRight (lt : T → T → Bool) (data : List T) (v : T) (turns first : ℕ) : Prop :=
  (∀ x ∈ data, lt x v = true) ∨
    ∃ m ∈ rightProbes data.length turns first, ∃ x, data[m]? = some x ∧ Incomp lt x v

/-- Where the middle element is above `v`, the bounds stay as they are. -/
theorem searchLoop_stuck {first last : ℤ} {i : ℕ} {x : T}
    (hturn : ∀ turns, searchLoop lt middle (fun _ last => last) data v (turns + 1) first last =
      if lt v x then searchLoop lt middle (fun _ last => last) data v turns first last
      else if lt x v then searchLoop lt middle (fun _ last => last) data v turns (i + 1) last
      else .ok (some i)) (hvx : lt v x = true) (turns : ℕ) :
    searchLoop lt middle (fun _ last => last) data v turns first last = .ok none := by
  induction turns with
  | zero => rfl
  | succ turns ih => rw [hturn, if_pos hvx, ih]

theorem GoesRight.cons_iff {turns first i : ℕ} {x : T} (hfirst : first < data.length)
    (hi : i = (first + (data.length - 1)) / 2) (hx : data[i]? = some x) (hxv : lt x v = true) :
    GoesRight lt data v (turns + 1) first ↔ GoesRight lt data v turns (i + 1) := by
  rw [GoesRight, GoesRight, rightProbes, if_pos hfirst, ← hi, List.exists_mem_cons_iff]
  refine or_congr_right ⟨fun h => ?_, Or.inr⟩
  rcases h with ⟨y, hy, hinc⟩ | h
  · obtain rfl : x = y := Option.some.inj (hx.symm.trans hy)
    exact absurd (hxv.symm.trans hinc.1) (by simp)
  · exact h

/-- A search that only has to go right ends with one result, wherever going left would lead. -/
theorem searchLoop_straight (hlt : IsStrictWeakOrder T fun x y => lt x y = true)
    (hdata : data.Pairwise fun x y => lt y x = false) :
    ∀ turns first, data.length ≤ first + turns → GoesRight lt data v turns first →
      ∃ r, ∀ goLeft, ∀ more, turns < more →
        searchLoop lt middle goLeft data v more first (data.length - 1) = .ok (some r) := by
  intro turns
  induction turns with
  | zero =>
    intro first hfirst _
    refine ⟨-first - 1, fun goLeft more hmore => ?_⟩
    obtain ⟨more, rfl⟩ : ∃ n, more = n + 1 := ⟨more - 1, by omega⟩
    exact searchLoop_over (by omega) more
  | succ turns ih =>
    intro first hlen hright
    by_cases hfirst : first < data.length
    · obtain ⟨i, x, hi, hle, hlast, hx, -⟩ := @searchLoop_turn T lt middle (fun m _ => m) data v
        first (data.length - 1) rfl (by omega) (by omega) (by omega)
      have hmid : i = (first + (data.length - 1)) / 2 := by omega
      have hturn : ∀ goLeft more, searchLoop lt middle goLeft data v (more + 1) first
          (data.length - 1) = if lt v x then searchLoop lt middle goLeft data v more first
            (goLeft i (data.length - 1))
          else if lt x v then searchLoop lt middle goLeft data v more (i + 1) (data.length - 1)
          else .ok (some i) := by
        intro goLeft more
        obtain ⟨j, y, hj, -, -, hy, hturn⟩ := @searchLoop_turn T lt middle goLeft data v
          first (data.length - 1) rfl (by omega) (by omega) (by omega)
        obtain rfl : i = j := by omega
        obtain rfl : x = y := Option.some.inj (hx.symm.trans hy)
        exact hturn more
      by_cases hxv : lt x v = true
      · have hvx : lt v x = false := lt_asymm_of hlt hxv
        obtain ⟨r, hr⟩ := ih (i + 1) (by omega) ((GoesRight.cons_iff hfirst hmid hx hxv).mp hright)
        refine ⟨r, fun goLeft more hmore => ?_⟩
        obtain ⟨more, rfl⟩ : ∃ n, more = n + 1 := ⟨more - 1, by omega⟩
        rw [hturn, if_neg (by simp [hvx]), if_pos hxv]
        exact_mod_cast hr goLeft more (by omega)
      · -- the element is not above `v`, as then no later one is equivalent to it
        have hvx : lt v x = false := by
          by_contra hvx
          rw [Bool.not_eq_false] at hvx
          rcases hright with hall | ⟨m, hm, y, hy, hinc⟩
          · exact hxv (hall x (List.mem_of_getElem? hx))
          · rw [rightProbes, if_pos hfirst, ← hmid] at hm
            have hle : i ≤ m := by
              rcases List.mem_cons.mp hm with rfl | hm
              · exact Nat.le_refl _
              · exact Nat.le_of_succ_le (le_of_mem_rightProbes hm)
            have habove := (above_iff hlt hdata v hx).mp hvx
            have hvy := (above_iff hlt hdata v hy).mpr (by omega)
            exact absurd (hvy.symm.trans hinc.2) (by simp)
        refine ⟨i, fun goLeft more hmore => ?_⟩
        obtain ⟨more, rfl⟩ : ∃ n, more = n + 1 := ⟨more - 1, by omega⟩
        rw [hturn, if_neg (by simp [hvx]), if_neg hxv]
    · refine ⟨-first - 1, fun goLeft more hmore => ?_⟩
      obtain ⟨more, rfl⟩ : ∃ n, more = n + 1 := ⟨more - 1, by omega⟩
      exact searchLoop_over (by omega) more

theorem searchLoop_endless (hlt : IsStrictWeakOrder T fun x y => lt x y = true)
    (hdata : data.Pairwise fun x y => lt y x = false) :
    ∀ turns first, data.length ≤ first + turns → first ≤ (data.countP fun x => lt x v) →
      ¬ GoesRight lt data v turns first → ∀ more,
        searchLoop lt middle (fun _ last => last) data v more first (data.length - 1) = .ok none := by
  -- a search that is to the right of all elements has met only elements below `v`
  have hdone : ∀ turns first, data.length ≤ first → first ≤ (data.countP fun x => lt x v) →
      GoesRight lt data v turns first := by
    intro turns first hlen hbelow
    have hle := List.countP_le_length (p := fun x => lt x v) (l := data)
    have hall : (data.countP fun x => lt x v) = data.length := by omega
    exact Or.inl (List.countP_eq_length.mp hall)
  intro turns
  induction turns with
  | zero => exact fun first hlen hbelow hright => absurd (hdone 0 first hlen hbelow) hright
  | succ turns ih =>
    intro first hlen hbelow hright more
    by_cases hfirst : first < data.length
    · obtain ⟨i, x, hi, hle, hlast, hx, hturn⟩ := @searchLoop_turn T lt middle (fun _ last => last)
        data v first (data.length - 1) rfl (by omega) (by omega) (by omega)
      have hmid : i = (first + (data.length - 1)) / 2 := by omega
      by_cases hvx : lt v x = true
      · exact searchLoop_stuck hturn hvx more
      · by_cases hxv : lt x v = true
        · cases more with
          | zero => rfl
          | succ more =>
            rw [hturn, if_neg hvx, if_pos hxv]
            have hnext := (GoesRight.cons_iff hfirst hmid hx hxv).not.mp hright
            exact_mod_cast ih (i + 1) (by omega) ((below_iff hlt hdata v hx).mp hxv) hnext more
        · refine absurd (Or.inr ⟨i, ?_, x, hx, by simpa using hxv, by simpa using hvx⟩) hright
          rw [rightProbes, if_pos hfirst, ← hmid]
          exact List.mem_cons_self
    · exact absurd (hdone (turns + 1) first (by omega) hbelow) hright

end

namespace Array

variable {T : Type}

/-- An array sorted by `lt`, with a block for its elements. -/
structure Sorted (lt : T → T → Bool) (a : Array T) : Prop where
  size : a.m_size = a.m_data.length
  sorted : a.m_data.Pairwise fun x y => lt y x = false

theorem around (lt : T → T → Bool) (data : List T) (v : T) :
    Around lt data v 0 (data.length - 1) where
  nonneg := Int.le_refl 0
  below := by omega
  above := by
    have := List.countP_le_length (p := fun x => !lt v x) (l := data)
    omega
  inside := by omega

theorem existsCmp_eq {a : Array T} (ha : a.m_size = a.m_data.length) (v : T) (cmp : T → T → Bool)
    (turns : ℕ) : a.existsCmp v cmp turns =
      searchLoop cmp middle (fun _ last => last) a.m_data v turns (0 : ℕ) (a.m_data.length - 1) := by
  rw [existsCmp, ha]
  rfl

theorem existsCmp_found {cmp : T → T → Bool} (hcmp : IsStrictWeakOrder T fun x y => cmp x y = true)
    {a : Array T} (ha : Sorted cmp a) (v : T) (turns : ℕ) :
    ∃ o, a.existsCmp v cmp turns = .ok o ∧ ∀ r, o = some r → Found cmp a.m_data v r := by
  rw [existsCmp_eq ha.size]
  exact searchLoop_found hcmp ha.sorted (fun _ _ _ _ _ => rfl) (fun m last h => by omega) turns _ _
    (around cmp a.m_data v)

theorem insertAt_eq (fresh : ℕ → T) (b c : List T) (v : T) :
    insertAt fresh ⟨(b ++ c).length, b ++ c⟩ (-(b.length : ℤ) - 1) v =
      .ok (true, ⟨(b ++ c).length + 1, b ++ v :: c⟩) := by
  obtain ⟨x, c', hx⟩ : ∃ x c', c ++ [fresh 0] = x :: c' := by
    cases c with
    | nil => exact ⟨_, _, rfl⟩
    | cons x c => exact ⟨_, _, rfl⟩
  have hlen : c'.length = c.length := by simpa using (congrArg List.length hx).symm
  have hblock : realloc fresh (b ++ c) ((b ++ c).length + 1) = b ++ x :: c' := by
    rw [realloc, List.take_of_length_le (Nat.le_succ _), Nat.add_sub_cancel_left,
      List.range_one, List.map_singleton, List.append_assoc, hx]
  have hmove : memmove (b ++ x :: c') (b.length + 1) b.length ((b ++ c).length - b.length) =
      .ok (b ++ x :: c) := by
    have h1 : ((b.length : ℤ) + 1).toNat = b.length + 1 := by omega
    have h2 : (((b ++ c).length : ℤ) - b.length).toNat = c.length := by
      rw [List.length_append]
      omega
    have h3 : ((b.length : ℤ) + 1 + ((b ++ c).length - b.length)).toNat =
        b.length + 1 + c.length := by
      rw [List.length_append]
      omega
    have hfront : (b ++ x :: c').take (b.length + 1) = b ++ [x] := by
      rw [List.append_cons, List.take_left' (by simp)]
    have hrest : (b ++ x :: c').drop (b.length + 1 + c.length) = [] :=
      List.drop_eq_nil_of_le (by simp [hlen]; omega)
    rw [memmove, if_pos (by simp [hlen]; omega), h1, h2, h3, hfront, hrest, Int.toNat_natCast,
      List.drop_left, ← hx, List.take_left, List.append_nil, List.append_assoc]
    rfl
  have hset : assignAt (b ++ x :: c) b.length v = .ok (b ++ v :: c) := by
    rw [assignAt, if_pos (by simp)]
    simp
  rw [insertAt]
  dsimp only
  rw [hblock, show -(-(b.length : ℤ) - 1) - 1 = b.length by omega, hmove]
  change (assignAt (b ++ x :: c) b.length v >>= _) = _
  rw [hset]
  rfl

theorem erase_eq (b c : List T) (x : T) :
    erase ⟨(b ++ x :: c).length, b ++ x :: c⟩ b.length = .ok (true, ⟨(b ++ c).length, b ++ c⟩) := by
  obtain ⟨y, c', hy⟩ : ∃ y c', x :: c = c' ++ [y] :=
    ⟨_, _, (List.dropLast_append_getLast (List.cons_ne_nil x c)).symm⟩
  have hlen : c'.length = c.length := by simpa using (congrArg List.length hy).symm
  have hsize : ((b ++ x :: c).length : ℤ) - 1 = (b ++ c).length := by simp; omega
  have hmove : memmove (b ++ x :: c) b.length (b.length + 1) ((b ++ c).length - b.length) =
      .ok (b ++ c ++ [y]) := by
    have h1 : ((b.length : ℤ) + 1).toNat = b.length + 1 := by omega
    have h2 : (((b ++ c).length : ℤ) - b.length).toNat = c.length := by
      rw [List.length_append]
      omega
    have h3 : ((b.length : ℤ) + ((b ++ c).length - b.length)).toNat = b.length + c.length := by
      rw [List.length_append]
      omega
    have hrest : (b ++ x :: c).drop (b.length + c.length) = [y] := by
      rw [hy, ← List.append_assoc, ← hlen, ← List.length_append, List.drop_left]
    have hback : (b ++ x :: c).drop (b.length + 1) = c := by
      rw [List.append_cons, List.drop_left' (by simp)]
    rw [memmove, if_pos (by simp; omega), h1, h2, h3, hrest, hback, Int.toNat_natCast,
      List.take_left, List.take_length]
  rw [erase]
  dsimp only
  rw [hsize, hmove, Int.toNat_natCast]
  change Except.ok _ = _
  rw [List.take_left]

theorem eq_append_of_getElem? {l : List T} {i : ℕ} {x : T} (h : l[i]? = some x) :
    ∃ b c, l = b ++ x :: c ∧ b.length = i := by
  obtain ⟨hi, rfl⟩ := List.getElem?_eq_some_iff.mp h
  exact ⟨l.take i, l.drop (i + 1), by simp, by simp; omega⟩

theorem insertFound_present (fresh : ℕ → T) (b c : List T) (x v : T) (size : ℕ) :
    insertFound fresh ⟨size, b ++ x :: c⟩ b.length v = .ok (false, ⟨size, b ++ v :: c⟩) := by
  rw [insertFound, if_pos (by omega), assignAt, if_pos (by simp)]
  change Except.ok _ = _
  simp

theorem insertFound_absent (fresh : ℕ → T) (b c : List T) (v : T) :
    insertFound fresh ⟨(b ++ c).length, b ++ c⟩ (-(b.length : ℤ) - 1) v =
      .ok (true, ⟨(b ++ c).length + 1, b ++ v :: c⟩) := by
  rw [insertFound, if_neg (by omega), insertAt_eq]

/-- `insert` can go on from every index and every place in the block. -/
theorem insertFound_ok (fresh : ℕ → T) {a : Array T} (hsize : a.m_size = a.m_data.length) (v : T)
    {r : ℤ} (hlow : -(a.m_data.length : ℤ) - 1 ≤ r) (hhigh : r < a.m_data.length) :
    ∃ res, a.insertFound fresh r v = .ok res := by
  obtain ⟨size, data⟩ := a
  dsimp only at hsize hlow hhigh
  by_cases hr : 0 ≤ r
  · obtain ⟨i, x, rfl, hx, -⟩ := readAt_of_lt hr hhigh
    obtain ⟨b, c, rfl, rfl⟩ := eq_append_of_getElem? hx
    exact ⟨_, insertFound_present fresh b c x v size⟩
  · obtain ⟨p, hp⟩ : ∃ p : ℕ, r = -(p : ℤ) - 1 := ⟨(-r - 1).toNat, by omega⟩
    have hlen : (data.take p).length = p := List.length_take_of_le (by omega)
    have habsent := insertFound_absent fresh (data.take p) (data.drop p) v
    rw [List.take_append_drop, hlen, ← hp, ← hsize] at habsent
    exact ⟨_, habsent⟩

section

variable [LT T] [DecidableLT T]

abbrev less (x y : T) : Bool := x < y

theorem exists_of_search {a : Array T} (ha : a.m_size = a.m_data.length) {v : T} {r : ℤ}
    (h : searchLoop less middle (fun m _ => m - 1) a.m_data v (a.m_size + 1) (0 : ℕ)
      (a.m_data.length - 1) = .ok (some r)) : a.exists_ v = .ok r := by
  have hend : ((a.m_size : ℕ) : ℤ) = a.m_data.length := by rw [ha]
  rw [exists_, hend]
  change (searchLoop less middle (fun m _ => m - 1) a.m_data v (a.m_size + 1) (0 : ℕ) _ >>= _) = _
  rw [h]
  rfl

theorem exists_ok {a : Array T} (ha : a.m_size = a.m_data.length) (v : T) :
    ∃ r, a.exists_ v = .ok r ∧ -(a.m_data.length : ℤ) - 1 ≤ r ∧ r < a.m_data.length := by
  obtain ⟨r, hr, hrange⟩ := @searchLoop_ends T less middle a.m_data v (fun _ _ _ _ _ => rfl)
    (a.m_size + 1) 0 (a.m_data.length - 1) (Int.le_refl 0) (by omega) (by omega)
    (by rw [ha]; omega)
  exact ⟨r, exists_of_search ha hr, hrange⟩

theorem exists_found (hlt : IsStrictWeakOrder T fun x y => less x y = true) {a : Array T}
    (ha : Sorted less a) (v : T) : ∃ r, a.exists_ v = .ok r ∧ Found less a.m_data v r := by
  obtain ⟨r, hr, -⟩ := @searchLoop_ends T less middle a.m_data v (fun _ _ _ _ _ => rfl)
    (a.m_size + 1) 0 (a.m_data.length - 1) (Int.le_refl 0) (by omega) (by omega)
    (by rw [ha.size]; omega)
  obtain ⟨o, ho, hfound⟩ := @searchLoop_found T less middle (fun m _ => m - 1) a.m_data v hlt
    ha.sorted (fun _ _ _ _ _ => rfl) (fun m last h => by omega) (a.m_size + 1) 0
    (a.m_data.length - 1) (around less a.m_data v)
  exact ⟨r, exists_of_search ha.size hr, hfound r (Except.ok.inj (ho.symm.trans hr))⟩

/-- Every operation on the array is defined. -/
structure Usable (a : Array T) : Prop where
  get : ∀ i < a.m_size, ∃ x, a.get i = .ok x
  exists_ : ∀ v, ∃ r, a.exists_ v = .ok r
  insert : ∀ fresh v, ∃ r, a.insert fresh v = .ok r
  erase : ∀ i < a.m_size, ∃ r, a.erase i = .ok r
  writeTo : ∀ rate elem os speed, ∃ r, a.writeTo rate elem os speed = .ok r

theorem usable_of_size {a : Array T} (ha : a.m_size = a.m_data.length) : Usable a where
  get i hi := by
    rw [get, List.getElem?_eq_getElem (by omega)]
    exact ⟨_, rfl⟩
  exists_ v := by
    obtain ⟨r, hr, -⟩ := exists_ok ha v
    exact ⟨r, hr⟩
  insert fresh v := by
    obtain ⟨r, hr, hlow, hhigh⟩ := exists_ok ha v
    obtain ⟨res, hres⟩ := insertFound_ok fresh ha v hlow hhigh
    exact ⟨res, by rw [insert, hr]; exact hres⟩
  erase i hi := by
    obtain ⟨size, data⟩ := a
    obtain rfl : size = data.length := ha
    obtain ⟨b, c, hdata, rfl⟩ := eq_append_of_getElem? (List.getElem?_eq_getElem hi)
    rw [hdata]
    exact ⟨_, erase_eq b c _⟩
  writeTo rate elem os speed := by
    rw [writeTo, if_neg (by omega)]
    split
    · exact ⟨_, rfl⟩
    · exact ⟨_, rfl⟩

/-- `exists(v, cmp)` comes to an end with the right result. -/
def Answers (a : Array T) (v : T) (cmp : T → T → Bool) : Prop :=
  ∃ turns r, a.existsCmp v cmp turns = .ok (some r) ∧ Found cmp a.m_data v r

/-- The overloads with `cmp` come to an end, with what those without it return. -/
def Agrees (a : Array T) (v : T) (cmp : T → T → Bool) : Prop :=
  (∃ turns r, a.existsCmp v cmp turns = .ok (some r) ∧ a.exists_ v = .ok r) ∧
    ∀ fresh, ∃ turns r, a.insertCmp fresh v cmp turns = .ok (some r) ∧ a.insert fresh v = .ok r

/-- `exists(v, cmp)` does what it should exactly when all elements are below `v`, or an element
equivalent to `v` stands where a search that only goes right looks. -/
theorem existsCmp_answers_iff {cmp : T → T → Bool}
    (hcmp : IsStrictWeakOrder T fun x y => cmp x y = true) {a : Array T} (ha : Sorted cmp a) (v : T) :
    (Answers a v cmp ∧ (cmp = less → Agrees a v cmp)) ↔
      GoesRight cmp a.m_data v a.m_size 0 := by
  constructor
  · rintro ⟨⟨turns, r, hr, -⟩, -⟩
    by_contra hright
    have hnone := searchLoop_endless hcmp ha.sorted a.m_size 0 (by rw [ha.size]; omega)
      (Nat.zero_le _) hright turns
    rw [existsCmp_eq ha.size, hnone] at hr
    simp at hr
  · intro hright
    obtain ⟨r, hr⟩ := searchLoop_straight hcmp ha.sorted a.m_size 0 (by rw [ha.size]; omega) hright
    have hcmpr : a.existsCmp v cmp (a.m_size + 1) = .ok (some r) := by
      rw [existsCmp_eq ha.size]
      exact hr _ _ (Nat.lt_succ_self _)
    obtain ⟨o, ho, hfound⟩ := existsCmp_found hcmp ha v (a.m_size + 1)
    have hres := hfound r (Except.ok.inj (ho.symm.trans hcmpr))
    refine ⟨⟨_, r, hcmpr, hres⟩, ?_⟩
    rintro rfl
    have hless : a.exists_ v = .ok r :=
      exists_of_search ha.size (hr _ _ (Nat.lt_succ_self _))
    refine ⟨⟨_, r, hcmpr, hless⟩, fun fresh => ?_⟩
    obtain ⟨r', hr', hlow, hhigh⟩ := exists_ok ha.size v
    obtain rfl := Except.ok.inj (hless.symm.trans hr')
    obtain ⟨res, hins⟩ := insertFound_ok fresh ha.size v hlow hhigh
    refine ⟨a.m_size + 1, res, ?_, ?_⟩
    · rw [insertCmp, hcmpr]
      change (a.insertFound fresh r v >>= _) = _
      rw [hins]
      rfl
    · rw [insert, hless]
      exact hins

end

theorem less_strictWeak {T : Type} [LinearOrder T] :
    IsStrictWeakOrder T fun x y => less x y = true := by
  have h : IsStrictWeakOrder T (· < ·) := isStrictWeakOrder_of_isOrderConnected
  simpa using h

/-- In `1, 2, 3` it finds the last element, which is to the right of the middle. -/
theorem existsCmp_answers_last : Answers (⟨3, [1, 2, 3]⟩ : Array ℤ) 3 less :=
  ((existsCmp_answers_iff less_strictWeak ⟨rfl, by simp⟩ 3).mpr
    (Or.inr ⟨2, by decide, 3, rfl, by decide⟩)).1

/-- The first element, which is to the left of the middle, it looks for forever. -/
theorem existsCmp_answers_not_first : (IsStrictWeakOrder ℤ fun x y => less x y = true) ∧
    Sorted less (⟨3, [1, 2, 3]⟩ : Array ℤ) ∧ ¬ Answers (⟨3, [1, 2, 3]⟩ : Array ℤ) 1 less := by
  have hsorted : Sorted less (⟨3, [1, 2, 3]⟩ : Array ℤ) := ⟨rfl, by simp⟩
  refine ⟨less_strictWeak, hsorted, ?_⟩
  rintro ⟨turns, r, hr, -⟩
  have hnone := searchLoop_endless (v := 1) less_strictWeak hsorted.sorted 3 0 (by simp)
    (Nat.zero_le _) (by simp [GoesRight, rightProbes, Incomp]) turns
  rw [existsCmp_eq rfl, hnone] at hr
  simp at hr

end Array

end Sylar
