import Sylar.Lib.Partial
import Sylar.Spec.HttpConnectionPool

/-! Every connection that was made is in one place: idle, handed out, deleted, or with the one step
that will pass it on. `m_total` counts those that are idle, those that are handed out, and what the
calls in progress have still to take off or to pass on. -/

namespace Sylar

open Lib

namespace HttpConnectionPool

/-- What a step still to be done counts for in `m_total`. -/
def counts : Unit → Instr → ℕ
  | _, .handOut _ | _, .incRequest _ | _, .check _ | _, .pushBack _ => 1
  | _, .subTotal n => n
  | _, .getCurrentMS | _, .popValid _ | _, .connect | _, .incTotal _ | _, .delete _ => 0

/-- Whether a step still to be done has the connection `c`. -/
def holds (c : ℕ) : Unit → Instr → ℕ
  | _, .incTotal ptr | _, .handOut ptr | _, .incRequest ptr | _, .check ptr | _, .pushBack ptr
  | _, .delete ptr => [ptr].count c
  | _, .getCurrentMS | _, .popValid _ | _, .connect | _, .subTotal _ => 0

namespace Shared

/-- How often a connection is idle, handed out or deleted. -/
def placed (s : Shared) (c : ℕ) : ℕ := s.m_conns.count c + s.handed.count c + s.deleted.count c

theorem placed_eq (s : Shared) (c : ℕ) :
    s.placed c = s.m_conns.count c + s.handed.count c + s.deleted.count c := rfl

def inUse (s : Shared) : ℕ := s.m_conns.length + s.handed.length

end Shared

structure Inv (f : Calls) : Prop where
  total : f.shared.m_total = Int32.ofNat (f.shared.inUse + Threads.total counts f.threads)
  owned : ∀ c, f.shared.placed c + Threads.total (holds c) f.threads =
    if c < f.shared.ptrs.length then 1 else 0

section Step

variable {pool : HttpConnectionPool} {s : Shared} {w : World}

theorem deref_ok {ptr : ℕ} {conn : HttpConnection} (h : s.deref ptr = .ok conn) :
    ptr ∉ s.deleted ∧ look s.ptrs ptr = some conn := by
  unfold Shared.deref at h
  split at h
  · cases h
  · next hdel =>
    split at h
    · next hget => exact ⟨hdel, hget.trans (congrArg some (Except.ok.inj h))⟩
    · cases h

theorem deref_of {ptr : ℕ} {conn : HttpConnection} (hdel : ptr ∉ s.deleted)
    (hlook : look s.ptrs ptr = some conn) : s.deref ptr = .ok conn := by
  have hget : s.ptrs[ptr]? = some conn := hlook
  unfold Shared.deref
  rw [if_neg hdel, hget]

theorem popLoop_split {now_ms : UInt64} {m_conns : List ℕ} :
    ∀ {invalid_conns : List ℕ} {ptr : Option ℕ} {rest : List ℕ},
    s.popLoop pool now_ms m_conns = .ok (invalid_conns, ptr, rest) →
      m_conns = invalid_conns ++ ptr.toList ++ rest := by
  induction m_conns with
  | nil =>
    intro invalid_conns ptr rest h
    cases h
    rfl
  | cons c m_conns ih =>
    intro invalid_conns ptr rest h
    obtain ⟨conn, -, h⟩ := ok_of_bind h
    have hdrop : ∀ {r}, s.popLoop pool now_ms m_conns = .ok r →
        (c :: r.1, r.2) = (invalid_conns, ptr, rest) →
          c :: m_conns = invalid_conns ++ ptr.toList ++ rest := by
      rintro ⟨invalid, r⟩ hr heq
      cases heq
      exact congrArg (c :: ·) (ih hr)
    split at h
    · obtain ⟨r, hr, heq⟩ := ok_of_bind h
      exact hdrop hr (Except.ok.inj heq)
    · split at h
      · obtain ⟨r, hr, heq⟩ := ok_of_bind h
        exact hdrop hr (Except.ok.inj heq)
      · cases h
        rfl

/-- A turn loses no connection and no count. -/
structure Keeps (s : Shared) (i : Instr) (t : CallTurn) : Prop where
  resumed_eq : t.resumed = none
  born_eq : t.born = []
  total : ∀ n, s.m_total = Int32.ofNat (s.inUse + counts () i + n) →
    t.shared.m_total = Int32.ofNat (t.shared.inUse + (t.next.map (counts ())).sum + n)
  owned : ∀ c n, s.placed c + holds c () i + n = (if c < s.ptrs.length then 1 else 0) →
    t.shared.placed c + (t.next.map (holds c ())).sum + n = if c < t.shared.ptrs.length then 1 else 0

/-- A turn that leaves the counter as it is and makes no connection. -/
theorem Keeps.passOn {i : Instr} {s' : Shared} {next : List Instr} (htotal : s'.m_total = s.m_total)
    (hlen : s'.ptrs.length = s.ptrs.length)
    (huse : s'.inUse + (next.map (counts ())).sum = s.inUse + counts () i)
    (hplaced : ∀ c, s'.placed c + (next.map (holds c ())).sum = s.placed c + holds c () i) :
    Keeps s i (.only s' next) where
  resumed_eq := rfl
  born_eq := rfl
  total n h := by
    show s'.m_total = Int32.ofNat (s'.inUse + (next.map (counts ())).sum + n)
    rw [htotal, huse, h]
  owned c n h := by
    show s'.placed c + (next.map (holds c ())).sum + n = _
    rw [hplaced, h, ← hlen]
    rfl

theorem count_cons_eq (ptr c : ℕ) (ptrs : List ℕ) :
    (ptr :: ptrs).count c = [ptr].count c + ptrs.count c := by
  rw [← List.count_append]
  rfl

theorem ite_lt_succ (c n : ℕ) :
    (if c < n + 1 then 1 else 0) = (if c < n then 1 else 0) + [n].count c := by
  rcases Nat.lt_trichotomy c n with hlt | rfl | hgt
  · rw [if_pos (by omega), if_pos hlt, List.count_singleton, if_neg (by simpa using hlt.ne')]
  · rw [if_pos (Nat.lt_succ_self c), if_neg (lt_irrefl c), List.count_singleton_self]
  · rw [if_neg (by omega), if_neg (by omega), List.count_singleton, if_neg (by simpa using hgt.ne)]

theorem counts_deletes (ptrs : List ℕ) : ((ptrs.map Instr.delete).map (counts ())).sum = 0 := by
  refine List.sum_eq_zero fun n hn => ?_
  obtain ⟨i, hi, rfl⟩ := List.mem_map.mp hn
  obtain ⟨ptr, -, rfl⟩ := List.mem_map.mp hi
  rfl

theorem holds_deletes (ptrs : List ℕ) (c : ℕ) :
    ((ptrs.map Instr.delete).map (holds c ())).sum = ptrs.count c := by
  induction ptrs with
  | nil => rfl
  | cons ptr ptrs ih =>
    rw [List.map_cons, List.map_cons, List.sum_cons, ih, count_cons_eq]
    rfl

theorem length_modify (ptr : ℕ) (f : HttpConnection → HttpConnection) :
    (s.modify ptr f).ptrs.length = s.ptrs.length := List.length_modify _ _ _

theorem exec_keeps {k : ℕ} {i : Instr} {t : CallTurn} (h : exec pool s k () i w = .ok t) : Keeps s i t := by
  cases i with
  | getCurrentMS =>
    cases h
    exact .passOn rfl rfl rfl fun _ => rfl
  | popValid now_ms =>
    obtain ⟨⟨invalid_conns, ptr, m_conns⟩, hloop, h⟩ := ok_of_bind h
    have hsplit := popLoop_split hloop
    cases h
    cases ptr with
    | none =>
      refine .passOn rfl rfl ?_ fun c => ?_
      · simp only [List.map_append, List.sum_append, counts_deletes, Shared.inUse, hsplit]
        simp [counts]
        omega
      · simp only [List.map_append, List.sum_append, holds_deletes, Shared.placed, hsplit]
        simp [holds]
        omega
    | some ptr =>
      refine .passOn rfl rfl ?_ fun c => ?_
      · simp only [List.map_append, List.sum_append, counts_deletes, Shared.inUse, hsplit]
        simp [counts]
        omega
      · simp only [List.map_append, List.sum_append, holds_deletes, Shared.placed, hsplit]
        simp only [Option.toList_some, List.append_assoc, List.singleton_append, List.count_append,
          List.map_cons, List.map_nil, List.sum_cons, List.sum_nil, holds, count_cons_eq ptr c m_conns]
        omega
  | connect =>
    cases w with
    | mk now_ms reach =>
      cases reach with
      | connected =>
        cases h
        refine ⟨rfl, rfl, fun n h => ?_, fun c n h => ?_⟩
        · exact h
        · have hlen : (s.make now_ms).ptrs.length = s.ptrs.length + 1 := by simp [Shared.make]
          change s.placed c + ([s.ptrs.length].count c + 0) + n =
            if c < (s.make now_ms).ptrs.length then 1 else 0
          change s.placed c + 0 + n = _ at h
          rw [hlen, ite_lt_succ, ← h]
          omega
      | _ =>
        cases h
        exact .passOn rfl rfl rfl fun _ => rfl
  | incTotal ptr =>
    cases h
    refine ⟨rfl, rfl, fun n h => ?_, fun c n h => h⟩
    change s.m_total + 1 = Int32.ofNat (s.inUse + 1 + n)
    change s.m_total = Int32.ofNat (s.inUse + 0 + n) at h
    rw [h, show s.inUse + 1 + n = s.inUse + 0 + n + 1 by omega]
    exact (Int32.ofNat_add _ 1).symm
  | handOut ptr =>
    cases h
    refine .passOn rfl rfl ?_ fun c => ?_
    · simp [Shared.inUse, counts]
      omega
    · change s.m_conns.count c + (ptr :: s.handed).count c + s.deleted.count c + 0 =
        s.placed c + [ptr].count c
      rw [count_cons_eq, Shared.placed]
      omega
  | incRequest ptr =>
    obtain ⟨conn, -, h⟩ := ok_of_bind h
    cases h
    exact .passOn rfl (length_modify ptr _) rfl fun _ => rfl
  | check ptr =>
    obtain ⟨conn, -, h⟩ := ok_of_bind h
    cases h
    split
    · exact .passOn rfl rfl rfl fun _ => rfl
    · exact .passOn rfl rfl rfl fun _ => rfl
  | pushBack ptr =>
    cases h
    refine .passOn rfl rfl ?_ fun c => ?_
    · simp [Shared.inUse, counts]
      omega
    · simp [Shared.placed, holds, List.count_append]
      omega
  | delete ptr =>
    cases h
    refine .passOn rfl rfl rfl fun c => ?_
    change s.m_conns.count c + s.handed.count c + (ptr :: s.deleted).count c + 0 =
      s.placed c + [ptr].count c
    rw [count_cons_eq, Shared.placed]
    omega
  | subTotal m =>
    cases h
    refine ⟨rfl, rfl, fun n h => ?_, fun c n h => h⟩
    change s.m_total - Int32.ofNat m = Int32.ofNat (s.inUse + 0 + n)
    rw [h, show s.inUse + counts () (.subTotal m) + n = s.inUse + 0 + n + m by
      change s.inUse + m + n = _
      omega, Int32.ofNat_add, Int32.add_sub_cancel]

end Step

section Run

variable {pool : HttpConnectionPool} {f f' : Calls}

theorem Inv.init : Inv init := ⟨rfl, fun _ => rfl⟩

theorem Inv.turn (h : Inv f) {k : ℕ} {w : World} (hs : f.run id (exec pool) .notEnabled k w = .ok f') :
    Inv f' := by
  obtain ⟨role, i, rest, t, ⟨hk, hexec⟩, rfl⟩ := Threads.run_ran hs
  obtain rfl : role = () := rfl
  obtain ⟨hres, hborn, htotal, howned⟩ := exec_keeps hexec
  have hle := fun v : Unit → Instr → ℕ => Threads.le_total v hk
  have hafter : ∀ v : Unit → Instr → ℕ, Threads.total v (f.after id k () rest t).threads + v () i =
      Threads.total v f.threads + (t.next.map (v ())).sum := fun v => by
    rw [Threads.total_after v hk hres, hborn]
    rfl
  constructor
  · obtain ⟨n, hn⟩ := Nat.exists_eq_add_of_le (hle counts)
    have ha := hafter counts
    change t.shared.m_total =
      Int32.ofNat (t.shared.inUse + Threads.total counts (f.after id k () rest t).threads)
    rw [show t.shared.inUse + Threads.total counts (f.after id k () rest t).threads =
      t.shared.inUse + (t.next.map (counts ())).sum + n by omega]
    refine htotal n ?_
    rw [h.total, hn, Nat.add_assoc]
  · intro c
    obtain ⟨n, hn⟩ := Nat.exists_eq_add_of_le (hle (holds c))
    have ha := hafter (holds c)
    have ho := h.owned c
    have ho' := howned c n (by omega)
    change t.shared.placed c + Threads.total (holds c) (f.after id k () rest t).threads =
      if c < t.shared.ptrs.length then 1 else 0
    omega

theorem Inv.step (h : Inv f) {m : Move} (hs : step pool f m = .ok f') : Inv f' := by
  cases m with
  | getConnection =>
    cases hs
    constructor
    · rw [Threads.total_start]
      exact h.total
    · intro c
      rw [Threads.total_start]
      exact h.owned c
  | releasePtr ptr =>
    simp only [HttpConnectionPool.step] at hs
    split at hs
    · next hmem =>
      cases hs
      constructor
      · have hlen := List.length_erase_add_one hmem
        rw [Threads.total_start]
        have htotal := h.total
        change f.shared.m_total = Int32.ofNat (f.shared.m_conns.length + (f.shared.handed.erase ptr).length +
          (Threads.total counts f.threads + 1))
        rw [htotal, Shared.inUse, ← hlen]
        congr 1
        omega
      · intro c
        have hperm := (List.perm_cons_erase hmem).count_eq c
        rw [count_cons_eq] at hperm
        have howned := h.owned c
        rw [Threads.total_start]
        change f.shared.m_conns.count c + (f.shared.handed.erase ptr).count c + f.shared.deleted.count c +
          (Threads.total (holds c) f.threads + ([ptr].count c + 0)) = if c < f.shared.ptrs.length then 1 else 0
        rw [← howned, Shared.placed]
        omega
    · cases hs
  | close ptr =>
    simp only [HttpConnectionPool.step] at hs
    split at hs
    · cases hs
    · cases hs
      refine ⟨h.total, fun c => ?_⟩
      change _ = if c < (f.shared.modify ptr _).ptrs.length then 1 else 0
      rw [length_modify]
      exact h.owned c
  | turn k w => exact h.turn hs

theorem Inv.lt_of_pos (h : Inv f) {c : ℕ} (hpos : 0 < f.shared.placed c + Threads.total (holds c) f.threads) :
    c < f.shared.ptrs.length ∧ f.shared.placed c + Threads.total (holds c) f.threads = 1 := by
  have howned := h.owned c
  by_cases hlt : c < f.shared.ptrs.length
  · rw [if_pos hlt] at howned
    exact ⟨hlt, howned⟩
  · rw [if_neg hlt] at howned
    omega

theorem Inv.deref_of_notin (h : Inv f) {c : ℕ}
    (hpos : 0 < f.shared.placed c + Threads.total (holds c) f.threads) (hdel : f.shared.deleted.count c = 0) :
    ∃ conn, f.shared.deref c = .ok conn := by
  obtain ⟨hlt, -⟩ := h.lt_of_pos hpos
  exact ⟨f.shared.ptrs[c], deref_of (List.count_eq_zero.mp hdel) (List.getElem?_eq_getElem hlt)⟩

theorem Inv.deref_idle (h : Inv f) {c : ℕ} (hc : c ∈ f.shared.m_conns) :
    ∃ conn, f.shared.deref c = .ok conn := by
  have hcount := List.count_pos_iff.mpr hc
  have hplaced := f.shared.placed_eq c
  obtain ⟨-, hone⟩ := h.lt_of_pos (c := c) (by omega)
  exact h.deref_of_notin (by omega) (by omega)

theorem Inv.deref_held (h : Inv f) {k : ℕ} {i : Instr} {rest : List Instr}
    (hk : look f.threads k = some ⟨(), i :: rest⟩) {c : ℕ} (hc : holds c () i = 1) :
    ∃ conn, f.shared.deref c = .ok conn := by
  have hle := Threads.le_total (holds c) hk
  have hplaced := f.shared.placed_eq c
  obtain ⟨-, hone⟩ := h.lt_of_pos (c := c) (by omega)
  exact h.deref_of_notin (by omega) (by omega)

theorem popLoop_ok (pool : HttpConnectionPool) (now_ms : UInt64) {s : Shared} {m_conns : List ℕ}
    (h : ∀ c ∈ m_conns, ∃ conn, s.deref c = .ok conn) : ∃ r, s.popLoop pool now_ms m_conns = .ok r := by
  induction m_conns with
  | nil => exact ⟨_, rfl⟩
  | cons c m_conns ih =>
    obtain ⟨conn, hconn⟩ := h c List.mem_cons_self
    obtain ⟨r, hr⟩ := ih fun d hd => h d (List.mem_cons_of_mem c hd)
    rw [Shared.popLoop, hconn, hr]
    change ∃ r', (if (!conn.connected) = true then Except.ok (c :: r.1, r.2) else
      if conn.m_createTime + pool.m_maxAliveTime.toUInt64 > now_ms then Except.ok (c :: r.1, r.2)
      else Except.ok ([], some c, m_conns)) = Except.ok r'
    split_ifs
    · exact ⟨_, rfl⟩
    · exact ⟨_, rfl⟩
    · exact ⟨_, rfl⟩

theorem Inv.not_dangling (h : Inv f) (m : Move) : HttpConnectionPool.step pool f m ≠ .error .dangling := by
  intro hs
  cases m with
  | getConnection => cases hs
  | releasePtr ptr =>
    simp only [HttpConnectionPool.step] at hs
    split at hs <;> cases hs
  | close ptr =>
    simp only [HttpConnectionPool.step] at hs
    split at hs <;> cases hs
  | turn k w =>
    simp only [HttpConnectionPool.step, Threads.run] at hs
    split at hs
    · next role i rest hk =>
      obtain rfl : role = () := rfl
      have hok : ∃ t, exec pool f.shared k () i w = .ok t := by
        cases i with
        | popValid now_ms =>
          obtain ⟨⟨invalid_conns, ptr, m_conns⟩, hr⟩ := popLoop_ok pool now_ms fun c hc =>
            h.deref_idle hc
          simp only [exec, hr]
          exact ⟨_, rfl⟩
        | incRequest ptr =>
          obtain ⟨conn, hconn⟩ := h.deref_held hk (c := ptr) (List.count_singleton_self)
          simp only [exec, hconn]
          exact ⟨_, rfl⟩
        | check ptr =>
          obtain ⟨conn, hconn⟩ := h.deref_held hk (c := ptr) (List.count_singleton_self)
          simp only [exec, hconn]
          exact ⟨_, rfl⟩
        | _ => exact ⟨_, rfl⟩
      obtain ⟨t, ht⟩ := hok
      rw [ht] at hs
      cases hs
    · cases hs

/-- No call of `getConnection` or `ReleasePtr` is in progress. -/
def Quiet (f : Calls) : Prop := ∀ u ∈ f.threads, u.code = []

/-- The connections are counted where no call is in progress, and each is in one place. -/
structure Counted (f : Calls) : Prop where
  total : Quiet f → f.shared.m_total = Int32.ofNat f.shared.inUse
  total_nat : Quiet f → f.shared.inUse < 2 ^ 31 → f.shared.m_total.toInt = f.shared.inUse
  idle : f.shared.m_conns.Nodup
  handed : f.shared.handed.Nodup
  idle_or_handed : ∀ c ∈ f.shared.m_conns, c ∉ f.shared.handed
  once : f.shared.deleted.Nodup
  not_deleted : ∀ c ∈ f.shared.deleted, c ∉ f.shared.m_conns ∧ c ∉ f.shared.handed

theorem Inv.placed_le (h : Inv f) (c : ℕ) : f.shared.placed c ≤ 1 := by
  have howned := h.owned c
  split at howned <;> omega

theorem Inv.counted (h : Inv f) : Counted f := by
  have htotal : Quiet f → f.shared.m_total = Int32.ofNat f.shared.inUse := by
    intro hquiet
    rw [h.total, Threads.total_eq_zero fun u hu x hx => ?_, Nat.add_zero]
    rw [hquiet u hu] at hx
    exact absurd hx List.not_mem_nil
  have hle : ∀ c, f.shared.m_conns.count c + f.shared.handed.count c + f.shared.deleted.count c ≤ 1 :=
    h.placed_le
  have hmem : ∀ {c : ℕ} {l : List ℕ}, c ∈ l → 1 ≤ l.count c := fun hc => List.count_pos_iff.mpr hc
  refine ⟨htotal, fun hquiet hlt => ?_, ?_, ?_, ?_, ?_, ?_⟩
  · rw [htotal hquiet, Int32.toInt_ofNat_of_lt hlt]
  · exact List.nodup_iff_count_le_one.mpr fun c => by have := hle c; omega
  · exact List.nodup_iff_count_le_one.mpr fun c => by have := hle c; omega
  · intro c hc hc'
    have := hle c
    have := hmem hc
    have := hmem hc'
    omega
  · exact List.nodup_iff_count_le_one.mpr fun c => by have := hle c; omega
  · intro c hc
    have h₁ := hle c
    have h₂ := hmem hc
    exact ⟨fun hc' => by have := hmem hc'; omega, fun hc' => by have := hmem hc'; omega⟩

/-- However the steps of the calls follow each other, and whenever connections are closed. -/
theorem connections_counted (pool : HttpConnectionPool) (moves : List Move) :
    Along (HttpConnectionPool.step pool) Counted init moves ∧
      moves.foldlM (HttpConnectionPool.step pool) init ≠ .error .dangling := by
  have hinv : Along (HttpConnectionPool.step pool) Inv init moves :=
    along_of_each Inv (fun _ _ => True) (fun _ _ _ h _ hs => h.step hs) moves init .init (each_true moves init)
  exact ⟨hinv.mono fun _ h => h.counted, hinv.ne_error fun _ m h => h.not_dangling m⟩

end Run

end HttpConnectionPool

end Sylar
