import Sylar.Spec.Array
import Sylar.Proofs.DumpRuns
import Sylar.Proofs.ArrayRuns

/-! When `readFrom` returns `false`, and what is left of the container then. The hash
containers have freed their buckets by that time; an `Array` has written over its size and over
its elements what it could read. -/

namespace Sylar

open Lib

def Short (is : IStream) (n : ℕ) : Prop := (is.read n).1.length < n

theorem length_read_le (is : IStream) (n : ℕ) : (is.read n).1.length ≤ n := by
  obtain ⟨data, good⟩ := is
  cases good with
  | false => exact Nat.zero_le n
  | true => exact (List.length_take_le n data)

theorem not_short_iff (is : IStream) (n : ℕ) : ¬ Short is n ↔ (is.read n).1.length = n := by
  have := length_read_le is n
  rw [Short]
  omega

theorem short_of_ne {is : IStream} {n : ℕ} (h : ¬ (is.read n).1.length = n) : Short is n :=
  not_not.mp (mt (not_short_iff is n).mp h)

def blockSize (is : IStream) : ℕ := leNat (is.read 8).1

/-- A field that is read in full has nothing left of what it held. -/
theorem leNat_field {is : IStream} (h : (is.read 8).1.length = 8) (old : ℕ) :
    leNat ((is.read 8).1 ++ (leBytes 8 old).drop (is.read 8).1.length) = blockSize is := by
  rw [h, List.drop_eq_nil_of_le (by rw [length_leBytes]), List.append_nil, blockSize]

def blockRest (is : IStream) : IStream := ((is.read 8).2.read (blockSize is)).2

/-- The room that a vector of elements of `w` bytes has for `size` bytes. -/
def room (w size : ℕ) : ℕ := size / w * w

/-- The block is given up: the stream ends in its size, no vector can be had for it, or the
stream ends in its bytes and the vector has room for those that there are. -/
def Refused (allocates : ℕ → Bool) (w : ℕ) (is : IStream) : Prop :=
  Short is 8 ∨ allocates (room w (blockSize is)) = false ∨
    Short (is.read 8).2 (blockSize is) ∧
      ((is.read 8).2.read (blockSize is)).1.length ≤ room w (blockSize is)

/-- The block is read, into a vector that has room for it. -/
def Whole (allocates : ℕ → Bool) (w : ℕ) (is : IStream) : Prop :=
  ¬ Short is 8 ∧ allocates (room w (blockSize is)) = true ∧
    ¬ Short (is.read 8).2 (blockSize is) ∧ blockSize is ≤ room w (blockSize is)

theorem Whole.not_refused {allocates : ℕ → Bool} {w : ℕ} {is : IStream} (h : Whole allocates w is) :
    ¬ Refused allocates w is := by
  rintro (hshort | halloc | ⟨hshort, -⟩)
  · exact h.1 hshort
  · exact absurd (h.2.1.symm.trans halloc) (by decide)
  · exact h.2.2.1 hshort

section

variable {α : Type} (rate : ℕ → ℕ) (P : Pod α) (allocates : ℕ → Bool) (is : IStream) (speed : ℕ)

theorem readBlock_read : readBlock rate P allocates is speed =
      if (is.read 8).1.length = 8 then
        if allocates (room P.size (blockSize is)) = true then
          if room P.size (blockSize is) < ((is.read 8).2.read (blockSize is)).1.length then
            .error .outOfBounds
          else if ((is.read 8).2.read (blockSize is)).1.length = blockSize is then
            .ok (some (P.items (blockSize is / P.size) ((is.read 8).2.read (blockSize is)).1),
              blockRest is)
          else .ok (none, blockRest is)
        else .ok (none, (is.read 8).2)
      else .ok (none, (is.read 8).2) := by
  rw [readBlock, readFixFromStream_read]
  by_cases hfield : (is.read 8).1.length = 8
  · rw [if_pos hfield, decide_eq_true hfield]
    simp only [Bool.not_true, Bool.false_eq_true, if_false, readFix_read]
    rw [← blockSize, ← room]
    cases halloc : allocates (room P.size (blockSize is)) with
    | false => rfl
    | true =>
      simp only [Bool.not_true, Bool.false_eq_true, if_false, if_true]
      by_cases hdata : ((is.read 8).2.read (blockSize is)).1.length = blockSize is
      · rw [decide_eq_true hdata, if_pos hdata]
        rfl
      · rw [decide_eq_false hdata, if_neg hdata]
        rfl
  · rw [if_neg hfield, decide_eq_false hfield]
    rfl

theorem readBlock_cases :
    (Refused allocates P.size is ∧
      ∃ is', readBlock rate P allocates is speed = .ok (none, is')) ∨
    (Whole allocates P.size is ∧
      ∃ xs, readBlock rate P allocates is speed = .ok (some xs, blockRest is)) ∨
    ¬ Refused allocates P.size is ∧ ¬ Whole allocates P.size is ∧
      ∃ e, readBlock rate P allocates is speed = .error e := by
  have hle := length_read_le (is.read 8).2 (blockSize is)
  have hle8 := length_read_le is 8
  rw [readBlock_read, Refused, Whole, Short, Short]
  by_cases hfield : (is.read 8).1.length = 8
  · rw [if_pos hfield]
    cases halloc : allocates (room P.size (blockSize is)) with
    | false => exact .inl ⟨.inr (.inl rfl), _, rfl⟩
    | true =>
      rw [if_pos rfl]
      by_cases hover : room P.size (blockSize is) < ((is.read 8).2.read (blockSize is)).1.length
      · rw [if_pos hover]
        refine .inr (.inr ⟨?_, fun h => by omega, _, rfl⟩)
        rintro (h | h | ⟨-, h⟩)
        · omega
        · exact absurd h (by decide)
        · omega
      · rw [if_neg hover]
        by_cases hdata : ((is.read 8).2.read (blockSize is)).1.length = blockSize is
        · rw [if_pos hdata]
          exact .inr (.inl ⟨⟨by omega, rfl, by omega, by omega⟩, _, rfl⟩)
        · rw [if_neg hdata]
          exact .inl ⟨.inr (.inr ⟨by omega, by omega⟩), _, rfl⟩
  · rw [if_neg hfield]
    exact .inl ⟨.inl (by omega), _, rfl⟩

end

/-- `readFrom` returns `false` behind the field of the size: one of the blocks is given up, or the
buckets cannot be had. -/
def Refuses (allocates : ℕ → Bool) (size : ℕ) : List ℕ → IStream → Prop
  | [], _ => allocates (24 * size) = false
  | w :: ws, is =>
      Refused allocates w is ∨ Whole allocates w is ∧ Refuses allocates size ws (blockRest is)

/-- `readFrom` of a container whose dump has blocks of elements of these sizes returns `false`. -/
def ReturnsFalse (allocates : ℕ → Bool) (ws : List ℕ) (is : IStream) : Prop :=
  Short is 8 ∨ Refuses allocates (blockSize is) ws (is.read 8).2

namespace Table

variable {K P : Type} [LinearOrder K] {posHash : K → ℕ}

/-- What was there is there, and a look-up is defined. -/
structure Intact (posHash : K → ℕ) (t t' : Table K P) : Prop where
  find : ∀ k, t'.find posHash k = t.find posHash k
  total : t'.getTotal = t.getTotal
  defined : ∀ k, ∃ p, t'.find posHash k = .ok p

theorem not_intact_freed {t t' : Table K P} (k : K) (h : t'.m_datas = []) :
    ¬ Intact posHash t t' := by
  intro hin
  obtain ⟨p, hp⟩ := hin.defined k
  obtain ⟨x, hx, -⟩ := ok_of_bind hp
  rw [bucketOf, h] at hx
  split at hx
  · cases hx
  · cases hx

omit [LinearOrder K] in
theorem readSize_cases (m : Table K P) (is : IStream) :
    (Short is 8 ∧ ∃ size,
      m.readSize is = (false, { m with m_size := size, m_datas := [] }, (is.read 8).2)) ∨
      ¬ Short is 8 ∧ m.readSize is =
        (true, { m with m_size := blockSize is, m_datas := [] }, (is.read 8).2) := by
  rw [readSize, readFixFromStream_read]
  by_cases hfield : (is.read 8).1.length = 8
  · refine .inr ⟨(not_short_iff is 8).mpr hfield, ?_⟩
    rw [decide_eq_true hfield, ← leNat_field hfield m.m_size]
  · rw [decide_eq_false hfield]
    exact .inl ⟨short_of_ne hfield, _, rfl⟩

/-- `readFrom` ends with `false`, without buckets, or does not return `false`. -/
def EndsFreed {α : Type} (x : Except Fault (Bool × α × IStream)) (table : α → Table K P)
    (refuses : Prop) : Prop :=
  (refuses ∧ ∃ m' is', x = .ok (false, m', is') ∧ (table m').m_datas = []) ∨
    (¬ refuses ∧ ∀ m' is', x ≠ .ok (false, m', is'))

variable (posHash) in
theorem rebuild_cases (allocates : ℕ → Bool) (m : Table K P) (total : ℕ)
    (load : Except Fault (List (K × P))) (h : m.m_datas = []) :
    (allocates (24 * m.m_size) = false ∧
      ∃ m', m.rebuild posHash allocates total load = .ok (false, m') ∧ m'.m_datas = []) ∨
    (¬ allocates (24 * m.m_size) = false ∧
      ∀ m', m.rebuild posHash allocates total load ≠ .ok (false, m')) := by
  rw [rebuild]
  cases halloc : allocates (24 * m.m_size) with
  | false => exact .inl ⟨rfl, _, rfl, h⟩
  | true =>
    refine .inr ⟨by decide, fun m' hm => ?_⟩
    rw [if_pos rfl] at hm
    obtain ⟨ns, -, hm⟩ := ok_of_bind hm
    split at hm
    · cases hm
    · cases hm

omit [LinearOrder K] in
theorem EndsFreed.error {α : Type} {table : α → Table K P} {refuses : Prop} (e : Fault)
    (h : ¬ refuses) : EndsFreed (.error e) table refuses :=
  .inr ⟨h, fun _ _ heq => by cases heq⟩

theorem EndsFreed.rebuild {α : Type} {x : Except Fault (Bool × α × IStream)}
    {table : α → Table K P} {refuses : Prop} {allocates : ℕ → Bool} {m : Table K P} {total : ℕ}
    {load : Except Fault (List (K × P))} (h : m.m_datas = [])
    (hrefuses : refuses ↔ allocates (24 * m.m_size) = false)
    (herror : ∀ e, m.rebuild posHash allocates total load = .error e → x = .error e)
    (hok : ∀ ok m', m.rebuild posHash allocates total load = .ok (ok, m') →
      ∃ a is', x = .ok (ok, a, is') ∧ table a = m') : EndsFreed x table refuses := by
  rcases rebuild_cases posHash allocates m total load h with ⟨halloc, m', hm', hfreed⟩ |
    ⟨halloc, hnot⟩
  · obtain ⟨a, is', hx, ha⟩ := hok _ _ hm'
    exact .inl ⟨hrefuses.mpr halloc, a, is', hx, by rw [ha, hfreed]⟩
  · refine .inr ⟨hrefuses.not.mpr halloc, fun a is' hx => ?_⟩
    rcases hm : Table.rebuild posHash allocates m total load with e | ⟨ok, m'⟩
    · rw [herror e hm] at hx
      cases hx
    · obtain ⟨a', is₂, hx', -⟩ := hok ok m' hm
      rw [hx'] at hx
      rw [(Prod.mk.inj (Except.ok.inj hx)).1] at hm
      exact hnot m' hm

/-- A container that is kept whenever `readFrom` returns `false` is one for which it does not. -/
theorem EndsFreed.kept_iff {α : Type} {x : Except Fault (Bool × α × IStream)}
    {table : α → Table K P} {refuses : Prop} (h : EndsFreed x table refuses) (k : K)
    {Kept : α → Prop} {t : Table K P} (hkept : ∀ a, Kept a → Intact posHash t (table a)) :
    (∀ a is', x = .ok (false, a, is') → Kept a) ↔ ¬ refuses := by
  rcases h with ⟨hrefuses, a, is', hx, hfreed⟩ | ⟨hrefuses, hnot⟩
  · refine iff_of_false (fun hall => ?_) (not_not.mpr hrefuses)
    exact not_intact_freed k hfreed (hkept a (hall a is' hx))
  · exact iff_of_true (fun a is' hx => absurd hx (hnot a is')) hrefuses

end Table

open Table

namespace HashMap

variable {K V : Type} [LinearOrder K] {posHash : K → ℕ}

theorem readFrom_freed (rate : ℕ → ℕ) (node : Pod (K × V)) (allocates : ℕ → Bool)
    (m : HashMap K V) (is : IStream) (speed : ℕ) :
    EndsFreed (m.readFrom posHash rate node allocates is speed) id
      (ReturnsFalse allocates [node.size] is) := by
  rcases m.readSize_cases is with ⟨hshort, size, hread⟩ | ⟨hfield, hread⟩
  · rw [readFrom, hread]
    exact .inl ⟨.inl hshort, _, _, rfl, rfl⟩
  · rw [readFrom, hread, ReturnsFalse, or_iff_right hfield]
    simp only [Bool.not_true, Bool.false_eq_true, if_false]
    rw [Refuses, Refuses]
    rcases readBlock_cases rate node allocates (is.read 8).2 speed with ⟨hrefused, is', hblock⟩ |
      ⟨hwhole, ns, hblock⟩ | ⟨hrefused, hwhole, e, hblock⟩
    · rw [hblock]
      exact .inl ⟨.inl hrefused, _, _, rfl, rfl⟩
    · rw [hblock, or_iff_right hwhole.not_refused, and_iff_right hwhole]
      refine @EndsFreed.rebuild K V _ posHash _ _ id _ allocates
        { m with m_size := blockSize is, m_datas := [] } ns.length (.ok ns) rfl Iff.rfl ?_ ?_
      · intro e he
        simp only [bind, Except.bind, he]
      · intro ok m' hm'
        simp only [bind, Except.bind, hm']
        exact ⟨_, _, rfl, rfl⟩
    · rw [hblock, or_iff_right hrefused]
      exact EndsFreed.error e fun h => hwhole h.1

end HashMap

namespace Format

variable {K V : Type} (F : Format K V)

theorem readArrays_cases (size : ℕ) (is : IStream) (speed : ℕ) :
    (Refuses F.allocates size [F.value.size, F.node.size] is ∧
      ∃ is', F.readArrays is speed = .ok (none, is')) ∨
    (Whole F.allocates F.value.size is ∧ Whole F.allocates F.node.size (blockRest is) ∧
      ∃ arrays is', F.readArrays is speed = .ok (some arrays, is')) ∨
    ¬ Refuses F.allocates size [F.value.size, F.node.size] is ∧
      ∃ e, F.readArrays is speed = .error e := by
  rw [readArrays]
  rcases readBlock_cases F.rate F.value F.allocates is speed with ⟨hrefused, is', hblock⟩ |
    ⟨hwhole, vs, hblock⟩ | ⟨hrefused, hwhole, e, hblock⟩
  · rw [hblock]
    exact .inl ⟨.inl hrefused, _, rfl⟩
  · rw [hblock]
    simp only [bind, Except.bind]
    rcases readBlock_cases F.rate F.node F.allocates (blockRest is) speed with ⟨hrefused', is', hblock'⟩ |
      ⟨hwhole', ns, hblock'⟩ | ⟨hrefused', hwhole', e, hblock'⟩
    · rw [hblock']
      exact .inl ⟨.inr ⟨hwhole, .inl hrefused'⟩, _, rfl⟩
    · rw [hblock']
      exact .inr (.inl ⟨hwhole, hwhole', _, _, rfl⟩)
    · rw [hblock']
      refine .inr (.inr ⟨?_, _, rfl⟩)
      rintro (h | ⟨-, h | ⟨h, -⟩⟩)
      · exact hwhole.not_refused h
      · exact hrefused' h
      · exact hwhole' h
  · rw [hblock]
    refine .inr (.inr ⟨?_, _, rfl⟩)
    rintro (h | ⟨h, -⟩)
    · exact hrefused h
    · exact hwhole h

end Format

theorem refuses_arrays_iff {allocates : ℕ → Bool} {size v n : ℕ} {is : IStream}
    (hvalues : Whole allocates v is) (hnodes : Whole allocates n (blockRest is)) :
    Refuses allocates size [v, n] is ↔ allocates (24 * size) = false := by
  rw [Refuses, or_iff_right hvalues.not_refused, and_iff_right hvalues, Refuses,
    or_iff_right hnodes.not_refused, and_iff_right hnodes, Refuses]

/-- A `readFrom` that goes on from the two blocks with `rebuild`. -/
theorem Table.EndsFreed.arrays {K V α : Type} [LinearOrder K] {posHash : K → ℕ} (F : Format K V)
    {is : IStream} {speed : ℕ} {x : Except Fault (Bool × α × IStream)}
    {table : α → Table K (List V)} (m : Table K (List V)) (h : m.m_datas = [])
    (hnone : ∀ is', F.readArrays is speed = .ok (none, is') →
      ∃ a is₂, x = .ok (false, a, is₂) ∧ (table a).m_datas = [])
    (hfault : ∀ e, F.readArrays is speed = .error e → x = .error e)
    (hsome : ∀ vs ns is', F.readArrays is speed = .ok (some (vs, ns), is') →
      (∀ e, m.rebuild posHash F.allocates ns.length (ns.mapM (Stored.rebase vs)) = .error e → x = .error e) ∧
        ∀ ok m', m.rebuild posHash F.allocates ns.length (ns.mapM (Stored.rebase vs)) = .ok (ok, m') →
          ∃ a is₂, x = .ok (ok, a, is₂) ∧ table a = m') :
    EndsFreed x table (Refuses F.allocates m.m_size [F.value.size, F.node.size] is) := by
  rcases F.readArrays_cases m.m_size is speed with ⟨hrefused, is', harrays⟩ |
    ⟨hvalues, hnodes, ⟨vs, ns⟩, is', harrays⟩ | ⟨hrefused, e, harrays⟩
  · exact .inl ⟨hrefused, hnone is' harrays⟩
  · obtain ⟨herror, hok⟩ := hsome vs ns is' harrays
    exact EndsFreed.rebuild h (refuses_arrays_iff hvalues hnodes) herror hok
  · rw [hfault e harrays]
    exact EndsFreed.error e hrefused

namespace Dict

variable {K V : Type} [LinearOrder K] {posHash : K → ℕ}

theorem readFrom_freed (F : Format K V) (d : Dict K V) (is : IStream) (speed : ℕ) :
    EndsFreed (d.readFrom posHash F is speed) id
      (ReturnsFalse F.allocates [F.value.size, F.node.size] is) := by
  rcases d.readSize_cases is with ⟨hshort, size, hread⟩ | ⟨hfield, hread⟩
  · rw [readFrom, hread]
    exact .inl ⟨.inl hshort, _, _, rfl, rfl⟩
  · rw [readFrom, hread, ReturnsFalse, or_iff_right hfield]
    simp only [Bool.not_true, Bool.false_eq_true, if_false]
    refine @EndsFreed.arrays K V _ _ posHash F (is.read 8).2 speed _ _
      { d with m_size := blockSize is, m_datas := [] } rfl (fun is' harrays => ?_)
      (fun e harrays => by rw [harrays]; rfl)
      fun vs ns is' harrays => ⟨fun e he => ?_, fun ok m' hm' => ?_⟩
    · rw [harrays]
      exact ⟨_, _, rfl, rfl⟩
    · simp only [harrays, bind, Except.bind, he]
    · simp only [harrays, bind, Except.bind, hm']
      exact ⟨_, _, rfl, rfl⟩

end Dict

namespace HashMultimap

variable {K V : Type} [LinearOrder K] {posHash : K → ℕ}

theorem readFrom_freed (F : Format K V) (m : HashMultimap K V) (is : IStream) (speed : ℕ) :
    EndsFreed (m.readFrom posHash F is speed) table
      (ReturnsFalse F.allocates [F.value.size, F.node.size] is) := by
  rcases m.table.readSize_cases is with ⟨hshort, size, hread⟩ | ⟨hfield, hread⟩
  · rw [readFrom, hread]
    exact .inl ⟨.inl hshort, _, _, rfl, rfl⟩
  · rw [readFrom, hread, ReturnsFalse, or_iff_right hfield]
    simp only [Bool.not_true, Bool.false_eq_true, if_false]
    refine @EndsFreed.arrays K V _ _ posHash F (is.read 8).2 speed _ _
      { m.table with m_size := blockSize is, m_datas := [] } rfl (fun is' harrays => ?_)
      (fun e harrays => by rw [harrays]; rfl)
      fun vs ns is' harrays => ⟨fun e he => ?_, fun ok m' hm' => ?_⟩
    · rw [harrays]
      exact ⟨_, _, rfl, rfl⟩
    · simp only [harrays, bind, Except.bind, he]
    · simp only [harrays, bind, Except.bind, hm']
      exact ⟨_, _, rfl, rfl⟩

end HashMultimap

namespace Array

variable {T : Type}

/-- `readFrom` returns `false`: the stream ends in the size, or in the elements, of which there are
none if no block can be had for them. -/
def ReturnsFalse (allocates : ℕ → Bool) (w : ℕ) (is : IStream) : Prop :=
  Short is 8 ∨ Short (is.read 8).2 (blockSize is * w % 2 ^ 64) ∧
    (allocates (blockSize is * w % 2 ^ 64) = true ∨
      ((is.read 8).2.read (blockSize is * w % 2 ^ 64)).1 = [])

def available (is : IStream) : List UInt8 := if is.good then is.left else []

/-- What the array's own dump becomes when what can be read is laid over it. -/
def overlaid (elem : Pod T) (a : Array T) (is : IStream) : List UInt8 :=
  available is ++ (leBytes 8 a.m_size ++ elem.bytes a.m_data).drop (available is).length

/-- It is still a dump of the array, as far as the values can tell. -/
def Unchanged (elem : Pod T) (a : Array T) (is : IStream) : Prop :=
  leNat ((overlaid elem a is).take 8) = a.m_size ∧
    elem.items a.m_data.length ((overlaid elem a is).drop 8) = a.m_data

/-- `realloc` is not called, or has a block for the elements. -/
def KeepsBlock (allocates : ℕ → Bool) (w : ℕ) (is : IStream) : Prop :=
  Short is 8 ∨ allocates (blockSize is * w % 2 ^ 64) = true

theorem read_eq (is : IStream) (n : ℕ) : (is.read n).1 = (available is).take n := by
  obtain ⟨data, good⟩ := is
  cases good with
  | false => simp [IStream.read, available]
  | true => simp [IStream.read, available]

theorem available_read (is : IStream) {n : ℕ} (h : ¬ Short is n) :
    available (is.read n).2 = (available is).drop n := by
  have hlen := (not_short_iff is n).mp h
  rw [read_eq] at hlen
  obtain ⟨data, good⟩ := is
  cases good with
  | false =>
    obtain rfl : n = 0 := by simpa [available] using hlen.symm
    rfl
  | true =>
    simp only [available, if_true, List.length_take] at hlen
    simp only [IStream.read, available, if_true]
    rw [decide_eq_true (by omega), if_pos rfl]

theorem realloc_same (fresh : ℕ → T) (data : List T) : realloc fresh data data.length = data := by
  simp [realloc]

section

variable (rate : ℕ → ℕ) (elem : Pod T) (allocates : ℕ → Bool) (fresh : ℕ → T) {a : Array T}
  {is : IStream} (speed : ℕ)

theorem readFrom_short (h : Short is 8) : a.readFrom rate elem allocates fresh is speed =
    .ok (false, { a with
      m_size := leNat ((is.read 8).1 ++ (leBytes 8 a.m_size).drop (is.read 8).1.length) },
        (is.read 8).2) := by
  have hlen : ¬ (is.read 8).1.length = 8 := fun hlen => (not_short_iff is 8).mpr hlen h
  rw [readFrom, readFixFromStream_read, decide_eq_false hlen]
  rfl

theorem readFrom_field (h : ¬ Short is 8) {size : ℕ}
    (hsize : size = blockSize is * elem.size % 2 ^ 64) {block : List T} (hblock : block =
      if allocates size = true then realloc fresh a.m_data (size / elem.size) else []) :
    a.readFrom rate elem allocates fresh is speed =
      if (!allocates size && decide (0 < ((is.read 8).2.read size).1.length)) = true then
        .error .nullDeref
      else .ok (decide (((is.read 8).2.read size).1.length = size), ⟨blockSize is,
        elem.items block.length (((is.read 8).2.read size).1 ++
          (elem.bytes block).drop ((is.read 8).2.read size).1.length)⟩,
        ((is.read 8).2.read size).2) := by
  have hlen := (not_short_iff is 8).mp h
  rw [readFrom, readFixFromStream_read, decide_eq_true hlen]
  simp only [Bool.not_true, Bool.false_eq_true, if_false, readFix_read]
  rw [leNat_field hlen, ← hsize, ← hblock]

end

/-- Where the stream ends in the size, its bytes are laid over the first of the size. -/
theorem unchanged_short_iff {elem : Pod T} {a : Array T} {is : IStream} (h : Short is 8) :
    Unchanged elem a is ↔
      leNat ((is.read 8).1 ++ (leBytes 8 a.m_size).drop (is.read 8).1.length) = a.m_size := by
  rw [Short, read_eq] at h
  have hlen : (available is).length < 8 := by
    rw [List.length_take] at h
    omega
  have htake : (available is).take 8 = available is := List.take_of_length_le (by omega)
  have hover : overlaid elem a is =
      (available is ++ (leBytes 8 a.m_size).drop (available is).length) ++ elem.bytes a.m_data := by
    rw [overlaid, List.drop_append_of_le_length (by rw [length_leBytes]; omega), List.append_assoc]
  have hfield : (available is ++ (leBytes 8 a.m_size).drop (available is).length).length = 8 := by
    rw [List.length_append, List.length_drop, length_leBytes]
    omega
  rw [Unchanged, hover, List.take_left' hfield, List.drop_left' hfield, read_eq, htake]
  exact and_iff_left (elem.items_bytes a.m_data)

/-- Where the size is read, the other bytes are laid over those of the elements. -/
theorem unchanged_field_iff {elem : Pod T} {a : Array T} {is : IStream} (h : ¬ Short is 8) :
    Unchanged elem a is ↔ blockSize is = a.m_size ∧
      elem.items a.m_data.length (available (is.read 8).2 ++
        (elem.bytes a.m_data).drop (available (is.read 8).2).length) = a.m_data := by
  have hlen := (not_short_iff is 8).mp h
  rw [available_read is h]
  rw [read_eq] at hlen
  have hle : 8 ≤ (available is).length := by
    rw [List.length_take] at hlen
    omega
  have hover : overlaid elem a is = (available is).take 8 ++ ((available is).drop 8 ++
      (elem.bytes a.m_data).drop ((available is).drop 8).length) := by
    rw [overlaid, ← List.append_assoc, List.take_append_drop, List.drop_append, length_leBytes,
      List.length_drop, List.drop_eq_nil_of_le (by rw [length_leBytes]; omega), List.nil_append]
  rw [Unchanged, hover, List.take_left' hlen, List.drop_left' hlen, blockSize, read_eq]

/-- Where the stream ends in the elements, all that is left of it is laid over them. -/
theorem cut_kept_iff {elem : Pod T} {allocates : ℕ → Bool} {fresh : ℕ → T} {a : Array T} {is : IStream}
    (ha : a.m_size = a.m_data.length) (hmem : a.m_size * elem.size < 2 ^ 64) (hshort : ¬ Short is 8)
    {size : ℕ} (hsize : size = blockSize is * elem.size % 2 ^ 64) {data : List UInt8}
    (hread : ((is.read 8).2.read size).1 = data) (hdata : data.length ≠ size) {block : List T}
    (hblock : block = if allocates size = true then realloc fresh a.m_data (size / elem.size) else []) :
    (⟨blockSize is, elem.items block.length (data ++ (elem.bytes block).drop data.length)⟩ : Array T) = a ↔
      Unchanged elem a is ∧ allocates size = true := by
  have hle := length_read_le (is.read 8).2 size
  have hpos : size ≠ 0 := by
    intro h0
    rw [hread] at hle
    rw [h0] at hdata hle
    omega
  rw [unchanged_field_iff hshort]
  by_cases hsame : blockSize is = a.m_size
  · have hbytes : size = a.m_size * elem.size := by
      rw [hsize, hsame]
      exact Nat.mod_eq_of_lt hmem
    cases halloc : allocates size with
    | false =>
      -- the array had elements, and now has none
      refine iff_of_false (fun heq => ?_) fun h => absurd h.2 (by decide)
      rw [if_neg (by simp [halloc])] at hblock
      rw [hblock] at heq
      have hempty : a.m_data = [] := (congrArg m_data heq).symm
      rw [hbytes, ha, hempty, List.length_nil, Nat.zero_mul] at hpos
      exact hpos rfl
    | true =>
      have hall : data = available (is.read 8).2 := by
        rw [← hread] at hdata ⊢
        rw [read_eq] at hdata ⊢
        refine List.take_of_length_le ?_
        rw [List.length_take] at hdata
        omega
      rw [if_pos halloc, hbytes, Nat.mul_div_cancel _ elem.size_pos, ha, realloc_same] at hblock
      rw [hblock, hall, hsame, ha, and_iff_right rfl, and_iff_left rfl]
      constructor
      · intro heq
        exact congrArg m_data heq
      · intro heq
        rw [heq, ← ha]
  · refine iff_of_false (fun heq => ?_) fun h => hsame h.1.1
    exact hsame (congrArg m_size heq)

/-- Where `readFrom` returns `false`, the array is what it was exactly if the bytes agree and its
block was not lost. -/
theorem readFrom_false (rate : ℕ → ℕ) (elem : Pod T) (allocates : ℕ → Bool) (fresh : ℕ → T)
    {a : Array T} (ha : a.m_size = a.m_data.length) (hmem : a.m_size * elem.size < 2 ^ 64)
    (is : IStream) (speed : ℕ) :
    (ReturnsFalse allocates elem.size is ∧
      ∃ a' is', a.readFrom rate elem allocates fresh is speed = .ok (false, a', is') ∧
        (a' = a ↔ Unchanged elem a is ∧ KeepsBlock allocates elem.size is)) ∨
      (¬ ReturnsFalse allocates elem.size is ∧ ∀ a' is',
        a.readFrom rate elem allocates fresh is speed ≠ .ok (false, a', is')) := by
  by_cases hshort : Short is 8
  · refine .inl ⟨.inl hshort, _, _, readFrom_short rate elem allocates fresh speed hshort, ?_⟩
    rw [unchanged_short_iff hshort, and_iff_left (.inl hshort)]
    constructor
    · intro heq
      exact congrArg m_size heq
    · intro heq
      rw [heq]
  · set size := blockSize is * elem.size % 2 ^ 64 with hsize
    rw [readFrom_field rate elem allocates fresh speed hshort hsize rfl]
    rw [ReturnsFalse, KeepsBlock, or_iff_right hshort, or_iff_right hshort, ← hsize]
    by_cases hnull : (!allocates size && decide (0 < ((is.read 8).2.read size).1.length)) = true
    · rw [if_pos hnull]
      rw [Bool.and_eq_true, Bool.not_eq_true', decide_eq_true_eq] at hnull
      refine .inr ⟨?_, fun _ _ heq => by cases heq⟩
      rintro ⟨-, halloc | hnil⟩
      · exact absurd (halloc.symm.trans hnull.1) (by decide)
      · rw [hnil] at hnull
        exact absurd hnull.2 (by decide)
    · rw [if_neg hnull]
      rw [Bool.and_eq_true, Bool.not_eq_true', decide_eq_true_eq, not_and_or, Bool.not_eq_false,
        Nat.pos_iff_ne_zero, not_not, List.length_eq_zero_iff] at hnull
      by_cases hdata : ((is.read 8).2.read size).1.length = size
      · rw [decide_eq_true hdata]
        exact .inr ⟨fun h => (not_short_iff _ _).mpr hdata h.1, fun _ _ heq => by cases heq⟩
      · rw [decide_eq_false hdata]
        exact .inl ⟨⟨short_of_ne hdata, hnull⟩, _, _, rfl, cut_kept_iff ha hmem hshort hsize rfl hdata rfl⟩

end Array

/-- A hash container that `readFrom` refuses has lost its buckets, so it is kept exactly where
the stream is not refused. An `Array` is also kept where it keeps its block and the bytes laid over
it are its own. -/
theorem refusals_keep_iff {K V T : Type} [LinearOrder K] [Inhabited K] [LT T] [DecidableLT T]
    (posHash : K → ℕ) (rate : ℕ → ℕ) (allocates : ℕ → Bool) (node : Pod (K × V)) (F : Format K V)
    (elem : Pod T) (fresh : ℕ → T) (is : IStream) (speed : ℕ) :
    (∀ m : HashMap K V,
      (∀ m' is', m.readFrom posHash rate node allocates is speed = .ok (false, m', is') →
        Table.Intact posHash m m') ↔ ¬ ReturnsFalse allocates [node.size] is) ∧
    (∀ d : Dict K V,
      (∀ d' is', d.readFrom posHash F is speed = .ok (false, d', is') →
        Table.Intact posHash d d') ↔ ¬ ReturnsFalse F.allocates [F.value.size, F.node.size] is) ∧
    (∀ m : HashMultimap K V,
      (∀ m' is', m.readFrom posHash F is speed = .ok (false, m', is') →
        m.table.Intact posHash m'.table ∧ m'.getElements = m.getElements) ↔
        ¬ ReturnsFalse F.allocates [F.value.size, F.node.size] is) ∧
    (∀ a : Array T, a.m_size = a.m_data.length → a.m_size * elem.size < 2 ^ 64 →
      ((∀ a' is', a.readFrom rate elem allocates fresh is speed = .ok (false, a', is') →
        a' = a ∧ a'.Usable) ↔ (Array.ReturnsFalse allocates elem.size is →
          a.Unchanged elem is ∧ Array.KeepsBlock allocates elem.size is))) := by
  refine ⟨fun m => ?_, fun d => ?_, fun m => ?_, fun a ha hmem => ?_⟩
  · exact (m.readFrom_freed rate node allocates is speed).kept_iff default fun _ h => h
  · exact (d.readFrom_freed F is speed).kept_iff default fun _ h => h
  · exact (m.readFrom_freed F is speed).kept_iff default fun _ h => h.1
  · rcases Array.readFrom_false rate elem allocates fresh ha hmem is speed with
      ⟨hfalse, a₁, is₁, hread, hsame⟩ | ⟨htrue, hnot⟩
    · constructor
      · intro hall _
        exact hsame.mp (hall a₁ is₁ hread).1
      · intro hbytes a' is' hread'
        obtain rfl := (Prod.mk.inj (Prod.mk.inj (Except.ok.inj (hread.symm.trans hread'))).2).1
        obtain rfl := hsame.mpr (hbytes hfalse)
        exact ⟨rfl, Array.usable_of_size ha⟩
    · exact iff_of_true (fun a' is' hread => absurd hread (hnot a' is')) fun h => absurd h htrue

/-- A stream that ends behind two bytes of the dump of an array of one byte. -/
theorem refusals_keep_array :
    (⟨1, [5]⟩ : Array (Fin 256)).m_size = 1 ∧
    ∀ a' is', (⟨1, [5]⟩ : Array (Fin 256)).readFrom byteFormat.rate bytePod byteFormat.allocates
      (fun _ => 0) ⟨[1, 0], true⟩ 1 = .ok (false, a', is') → a' = ⟨1, [5]⟩ ∧ a'.Usable :=
  ⟨rfl, ((refusals_keep_iff Fin.val byteFormat.rate byteFormat.allocates bytePairPod byteFormat
    bytePod (fun _ => 0) ⟨[1, 0], true⟩ 1).2.2.2 ⟨1, [5]⟩ rfl (by decide)).mpr fun _ =>
      ⟨⟨by decide, by decide⟩, .inl (by unfold Short; decide)⟩⟩

def oneEntry : HashMap (Fin 256) (Fin 256) :=
  ⟨2, 1, [[], [(⟨1, by decide⟩, ⟨10, by decide⟩)]]⟩

/-- Its own dump is read back into it, which ends behind the number of buckets. -/
theorem refusals_keep_not_truncated :
    oneEntry.readFrom Fin.val byteFormat.rate bytePairPod byteFormat.allocates
        ⟨(oneEntry.writeTo byteFormat.rate bytePairPod [] 1).2.take 8, true⟩ 1 =
      .ok (false, ⟨2, 1, []⟩, ⟨[], false⟩) ∧
    ¬ Table.Intact Fin.val oneEntry ⟨2, 1, []⟩ := by
  constructor
  · rfl
  · exact Table.not_intact_freed 0 rfl

end Sylar
